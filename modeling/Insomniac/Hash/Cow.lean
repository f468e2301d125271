import Insomniac.Hash.Runs

/-!
# Hash/Cow — copies that share their source's array

    src ──────────┐
                  ├──▸ [ bucket array ] ──▸ nodes
    copy (cow) ───┘

`hash_cow` copies the record of a table, so source and copy share the array and the nodes.  Only the
copy carries the flag that makes it take an array of its own before its first write; the source writes
in place.  `Tables` is a store with all its tables, `Call` a call on one of them, and each table has a
private map that receives the calls on that table alone.  The tables keep to their private maps as
long as no table without the flag changes an array that it shares (`Harmless`).
-/

open Linked Run

namespace Insomniac.Hash

/-- The store, with all tables in it. -/
structure Tables (K V : Type) where
  kvs : List (KeyValue K V) := []
  arrays : List (List (Option Addr)) := []
  tables : List Table := []
  deriving DecidableEq

/-- The calls on tables, on a store with all of them. -/
abbrev TablesM (K V : Type) := StateT (Tables K V) Option

/-- A pointer to a table. -/
abbrev Handle := ℕ

section Calls

variable {K V α : Type}

/-- The store as an operation on table `t` sees it. -/
def Tables.store (w : Tables K V) (t : Table) : Store K V := ⟨w.kvs, w.arrays, t⟩

/-- The tables after an operation on table `i`. -/
def Tables.put (w : Tables K V) (i : Handle) (s : Store K V) : Tables K V :=
  ⟨s.kvs, s.arrays, w.tables.set i s.table⟩

/-- An operation on table `i`. -/
def onTable (i : Handle) (x : HashM K V α) : TablesM K V α := fun w =>
  match w.tables[i]? with
  | none => none
  | some t => (x (w.store t)).map fun r => (r.1, w.put i r.2)

/-- `hash_cow`. -/
def hashCow (src : Handle) : TablesM K V Unit := fun w =>
  match w.tables[src]? with
  | none => none
  | some t => some ((), { w with tables := w.tables ++ [{ t with copyOnWrite := true }] })

/-- `hash_create` of one more table. -/
def newTable [Inhabited V] (F : HashFns K) : TablesM K V Unit := fun w =>
  (hashCreate F (w.store emptyTable)).map fun r => ((), ⟨r.2.kvs, r.2.arrays, w.tables ++ [r.2.table]⟩)

/-- A call on one of the tables. -/
inductive Call (K V : Type)
  | create
  | cow (src : Handle)
  | set (table : Handle) (key : K) (value : V)
  | erase (table : Handle) (key : K)
  | get (table : Handle) (key : K)

/-- The call, as the C code makes it; `hash_get`'s answer is dropped. -/
def Call.run [Inhabited V] (F : HashFns K) (R : LoadRule) : Call K V → TablesM K V Unit
  | create => newTable F
  | cow src => hashCow src
  | set i key value => onTable i (hashSet F R key value)
  | erase i key => onTable i (hashErase F key)
  | get i key => do let _ ← onTable i (hashGet F key)

/-- The map of a new table. -/
def emptyMap : K → Option V := fun _ => none

/-- **What a call does to the private maps**: a copy starts with its source's. -/
def Call.apply (F : HashFns K) (maps : List (K → Option V)) : Call K V → List (K → Option V)
  | create => maps ++ [emptyMap]
  | cow src => maps ++ [maps.getD src emptyMap]
  | set i key value => maps.modify i fun m => setKey F m key (some value)
  | erase i key => maps.modify i fun m => setKey F m key none
  | get _ _ => maps

/-- The call is on tables that exist. -/
def Call.On (n : ℕ) : Call K V → Prop
  | create => True
  | cow i | set i _ _ | erase i _ | get i _ => i < n

/-! ## What keeps the copies apart

A table without the flag writes in place.  That is harmless where no other table has its array, and also where
the write puts down what is there already. -/

/-- Table `i` takes a copy before it is written, or has its array for itself. -/
def Tables.OnItsOwn (w : Tables K V) (i : Handle) : Prop :=
  ∀ t ∈ w.tables[i]?, t.copyOnWrite = true ∨
    ∀ j < w.tables.length, j ≠ i → ∀ t' ∈ w.tables[j]?, t'.table ≠ t.table

/-- **A call that no other table notices**: a table that shares its array without the flag is only
written what it holds already. -/
def Harmless (w : Tables K V) (maps : List (K → Option V)) : Call K V → Prop
  | .set i key value => w.OnItsOwn i ∨ maps.getD i emptyMap key = some value
  | .erase i key => w.OnItsOwn i ∨ maps.getD i emptyMap key = none
  | _ => True

/-- Calls on tables that exist, none of which another table notices. -/
def AllHarmless [Inhabited V] (F : HashFns K) (R : LoadRule) :
    Tables K V → List (K → Option V) → List (Call K V) → Prop
  | _, _, [] => True
  | w, maps, c :: calls => c.On maps.length ∧ Harmless w maps c ∧
      ∀ r ∈ c.run F R w, AllHarmless F R r.2 (c.apply F maps) calls

/-- **Every table answers as its private map.** -/
def Isolated [Inhabited V] (F : HashFns K) (w : Tables K V) (maps : List (K → Option V)) : Prop :=
  w.tables.length = maps.length ∧ ∀ i m key, maps[i]? = some m →
    onTable i (hashGet F key) w = some (m key, w)

end Calls

/-! ## The invariant

`Snapshots` has one set of chains for each table, and the tables that share an array have the same ones.  Every
table answers as its own map. -/

section Invariant

variable {K V : Type} {F : HashFns K}

/-- **The tables hold the maps**, and tables with different arrays have no node in common. -/
structure Snapshots (F : HashFns K) (w : Tables K V) (maps : List (K → Option V))
    (chains : Handle → ℕ → List (Entry K V)) : Prop where
  length : w.tables.length = maps.length
  holds : ∀ (i : Handle) t m, w.tables[i]? = some t → maps[i]? = some m →
    Represents F (fun _ => True) (unflag (w.store t)) (chains i) ∧ Denotes F (chains i) m
  apart : ∀ (i j : Handle) t t', w.tables[i]? = some t → w.tables[j]? = some t' →
    t.table ≠ t'.table → ∀ b b', ∀ c ∈ chains i b, ∀ d ∈ chains j b', c.1 ≠ d.1

/-- The nodes that are on no chain of another table. -/
def Off (w : Tables K V) (chains : Handle → ℕ → List (Entry K V)) (i : Handle) (a : Addr) : Prop :=
  ∀ (j : Handle) t, j ≠ i → w.tables[j]? = some t → ∀ b, ∀ d ∈ chains j b, a ≠ d.1

/-- A represented table does not depend on the rest of the store. -/
theorem Represents.frame {own : Addr → Prop} {s s' : Store K V} {chains : ℕ → List (Entry K V)}
    (h : Represents F own s chains) (htab : s'.table = s.table) (hkvs : s.kvs.length ≤ s'.kvs.length)
    (hnodes : ∀ b, ∀ c ∈ chains b, s'.kvs[c.1]? = s.kvs[c.1]?)
    (harray : ∀ t, s.table.table = some t → s'.arrays[t]? = s.arrays[t]?) :
    Represents F own s' chains where
  size_pos := htab ▸ h.size_pos
  plain := htab ▸ h.plain
  heads := by
    obtain ⟨t, hs, ht, hhs, hlen, hall⟩ := h.heads
    refine ⟨t, hs, htab ▸ ht, (harray t ht).trans hhs, htab ▸ hlen, fun i hi => ?_⟩
    obtain ⟨p, hp, hsp⟩ := hall i (htab ▸ hi)
    exact ⟨p, hp, hsp.congr fun c hc => by rw [node, node, hnodes i c hc]⟩
  placed := htab ▸ h.placed
  distinct := h.distinct
  owned := h.owned
  unused a ha := h.unused a (hkvs.trans ha)

variable {w : Tables K V} {maps : List (K → Option V)} {chains : Handle → ℕ → List (Entry K V)}

/-- **A write to one table**: it ends on nodes off the chains of the others, on an array that no
other has, and leaves their nodes and arrays alone. -/
theorem Snapshots.update (h : Snapshots F w maps chains) {i : Handle} {s' : Store K V}
    {m' : K → Option V} (hi : i < maps.length) (hholds : Holds F (Off w chains i) s' m')
    (hkvs_le : w.kvs.length ≤ s'.kvs.length)
    (hnodes : ∀ (j : Handle) t, j ≠ i → w.tables[j]? = some t → ∀ b, ∀ d ∈ chains j b,
      s'.kvs[d.1]? = w.kvs[d.1]?)
    (harrays : ∀ (j : Handle) t u, j ≠ i → w.tables[j]? = some t → t.table = some u →
      s'.arrays[u]? = w.arrays[u]?)
    (hown : ∀ (j : Handle) t, j ≠ i → w.tables[j]? = some t → s'.table.table ≠ t.table) :
    ∃ chains', Snapshots F (w.put i s') (maps.set i m') chains' := by
  obtain ⟨mine, hr, hm⟩ := hholds
  have hback : ∀ {j : Handle} {t : Table}, j ≠ i → (w.put i s').tables[j]? = some t →
      w.tables[j]? = some t := by
    intro j t hji ht
    rwa [Tables.put, List.getElem?_set_ne hji.symm] at ht
  have hhere : (w.put i s').tables[i]? = some s'.table :=
    List.getElem?_set_self (h.length ▸ hi)
  refine ⟨Function.update chains i mine, ?_, fun j t m ht hmap => ?_, ?_⟩
  · rw [Tables.put, List.length_set, List.length_set, h.length]
  · rcases eq_or_ne j i with rfl | hji
    · obtain rfl : s'.table = t := Option.some.inj (hhere.symm.trans ht)
      rw [List.getElem?_set_self hi] at hmap
      cases hmap
      have hplain : unflag ((w.put j s').store s'.table) = s' := unflag_of_plain hr.plain
      rw [Function.update_self, hplain]
      exact ⟨hr.weaken fun _ _ => trivial, hm⟩
    · rw [List.getElem?_set_ne hji.symm] at hmap
      obtain ⟨hr', hm'⟩ := h.holds j t m (hback hji ht) hmap
      rw [Function.update_of_ne hji]
      refine ⟨hr'.frame rfl hkvs_le (hnodes j t hji (hback hji ht)) fun u hu => ?_, hm'⟩
      exact harrays j t u hji (hback hji ht) hu
  · intro j k t t' ht ht' hne b b' c hc d hd
    rcases eq_or_ne j i with rfl | hj
    · rcases eq_or_ne k j with rfl | hk
      · exact absurd (congrArg Table.table (Option.some.inj (ht.symm.trans ht'))) hne
      · rw [Function.update_self] at hc
        rw [Function.update_of_ne hk] at hd
        exact hr.owned b c hc k t' hk (hback hk ht') b' d hd
    · rw [Function.update_of_ne hj] at hc
      rcases eq_or_ne k i with rfl | hk
      · rw [Function.update_self] at hd
        exact (hr.owned b' d hd j t hj (hback hj ht) b c hc).symm
      · rw [Function.update_of_ne hk] at hd
        exact h.apart j k t t' (hback hj ht) (hback hk ht') hne b b' c hc d hd

/-- **One more table**, which may share the array and the nodes of others. -/
theorem Snapshots.append (h : Snapshots F w maps chains) {t₁ : Table} {m₁ : K → Option V}
    {arrays : List (List (Option Addr))} {mine : ℕ → List (Entry K V)}
    (harrays : ∀ u < w.arrays.length, arrays[u]? = w.arrays[u]?)
    (hr : Represents F (fun _ => True) (unflag ⟨w.kvs, arrays, t₁⟩) mine)
    (hm : Denotes F mine m₁)
    (hapart : ∀ (j : Handle) t, w.tables[j]? = some t → t.table ≠ t₁.table →
      ∀ b b', ∀ c ∈ mine b, ∀ d ∈ chains j b', c.1 ≠ d.1) :
    Snapshots F ⟨w.kvs, arrays, w.tables ++ [t₁]⟩ (maps ++ [m₁])
      (Function.update chains maps.length mine) := by
  have hback : ∀ {j : Handle} {t : Table}, (w.tables ++ [t₁])[j]? = some t →
      w.tables[j]? = some t ∧ j ≠ maps.length ∨ j = maps.length ∧ t = t₁ := by
    intro j t ht
    rw [← h.length]
    rcases lt_trichotomy j w.tables.length with hlt | rfl | hgt
    · rw [List.getElem?_append_left hlt] at ht
      exact Or.inl ⟨ht, hlt.ne⟩
    · rw [List.getElem?_concat_length] at ht
      exact Or.inr ⟨rfl, (Option.some.inj ht).symm⟩
    · rw [List.getElem?_eq_none (by rw [List.length_append]; exact hgt)] at ht
      cases ht
  refine ⟨by simp [h.length], fun j t m ht hmap => ?_, fun j k t t' ht ht' hne b b' c hc d hd => ?_⟩
  · rcases hback ht with ⟨ht, hj⟩ | ⟨rfl, rfl⟩
    · have hlt : j < maps.length := h.length ▸ (List.getElem?_eq_some_iff.mp ht).1
      rw [List.getElem?_append_left hlt] at hmap
      obtain ⟨hr', hm'⟩ := h.holds j t m ht hmap
      rw [Function.update_of_ne hj]
      refine ⟨hr'.frame rfl le_rfl (fun _ _ _ => rfl) fun u hu => harrays u ?_, hm'⟩
      obtain ⟨u', _, hu', hhs, -⟩ := hr'.heads
      obtain rfl : u' = u := Option.some.inj (hu'.symm.trans hu)
      exact (List.getElem?_eq_some_iff.mp hhs).1
    · rw [List.getElem?_concat_length] at hmap
      cases hmap
      rw [Function.update_self]
      exact ⟨hr, hm⟩
  · rcases hback ht with ⟨hold, hj⟩ | ⟨rfl, rfl⟩ <;>
      rcases hback ht' with ⟨hold', hk⟩ | ⟨rfl, rfl⟩
    · rw [Function.update_of_ne hj] at hc
      rw [Function.update_of_ne hk] at hd
      exact h.apart j k t t' hold hold' hne b b' c hc d hd
    · rw [Function.update_of_ne hj] at hc
      rw [Function.update_self] at hd
      exact (hapart j t hold hne b' b d hd c hc).symm
    · rw [Function.update_self] at hc
      rw [Function.update_of_ne hk] at hd
      exact hapart k t' hold' hne.symm b b' c hc d hd
    · exact absurd rfl hne

/-- The array and the nodes of a table are in the store. -/
theorem Snapshots.array (h : Snapshots F w maps chains) {i : Handle} {t : Table}
    (ht : w.tables[i]? = some t) : ∃ u, t.table = some u ∧ u < w.arrays.length := by
  have hi : i < maps.length := h.length ▸ (List.getElem?_eq_some_iff.mp ht).1
  obtain ⟨hr, -⟩ := h.holds i t _ ht (List.getElem?_eq_getElem hi)
  obtain ⟨u, _, hu, hhs, -⟩ := hr.heads
  exact ⟨u, hu, (List.getElem?_eq_some_iff.mp hhs).1⟩

/-- The nodes of a chain are nodes of the store. -/
theorem Snapshots.node_lt (h : Snapshots F w maps chains) {i : Handle} {t : Table}
    (ht : w.tables[i]? = some t) {b : ℕ} {c : Entry K V} (hc : c ∈ chains i b) :
    c.1 < w.kvs.length := by
  have hi : i < maps.length := h.length ▸ (List.getElem?_eq_some_iff.mp ht).1
  obtain ⟨hr, -⟩ := h.holds i t _ ht (List.getElem?_eq_getElem hi)
  exact hr.addr_lt hc

/-- **A write that moves a table** to an array and nodes that were not there. -/
theorem Snapshots.moved (h : Snapshots F w maps chains) {i : Handle} {t : Table} {s' : Store K V}
    {m' : K → Option V} (ht : w.tables[i]? = some t)
    (hholds : Holds F (Unused (w.store t)) s' m') (habove : Above (w.store t) s') :
    ∃ chains', Snapshots F (w.put i s') (maps.set i m') chains' := by
  have hi : i < maps.length := h.length ▸ (List.getElem?_eq_some_iff.mp ht).1
  obtain ⟨mine, hr, hm⟩ := hholds
  refine h.update hi ⟨mine, hr.weaken fun a ha j t' _ ht' b d hd => ?_, hm⟩ habove.kvs_le
    (fun j t' _ ht' b d hd => habove.kvs d.1 (h.node_lt ht' hd)) (fun j t' u _ ht' hu => ?_)
    fun j t' _ ht' => ?_
  · have hle : w.kvs.length ≤ a := ha
    exact Ne.symm (Nat.ne_of_lt ((h.node_lt ht' hd).trans_le hle))
  · obtain ⟨u', hu', hlt⟩ := h.array ht'
    obtain rfl : u' = u := Option.some.inj (hu'.symm.trans hu)
    exact habove.arrays u' hlt
  · obtain ⟨u', hu', hlt⟩ := h.array ht'
    obtain ⟨u, hu, hle⟩ := habove.table
    rw [hu, hu']
    exact fun he => absurd (Option.some.inj he ▸ hle) (Nat.not_le.mpr hlt)

/-- **A write in place** to a table that has its array for itself. -/
theorem Snapshots.inPlace (h : Snapshots F w maps chains) {i : Handle} {t : Table} {s' : Store K V}
    {m' : K → Option V}
    (hunshared : ∀ j t', j ≠ i → w.tables[j]? = some t' → t'.table ≠ t.table)
    (ht : w.tables[i]? = some t) (hholds : Holds F (Off w chains i) s' m')
    (hkeep : Keeps (Off w chains i) (w.store t) s')
    (htable : s'.table.table = t.table ∨
      ∃ u, s'.table.table = some u ∧ w.arrays.length ≤ u) :
    ∃ chains', Snapshots F (w.put i s') (maps.set i m') chains' := by
  have hi : i < maps.length := h.length ▸ (List.getElem?_eq_some_iff.mp ht).1
  refine h.update hi hholds hkeep.kvs_le (fun j t' hji ht' b d hd => ?_)
    (fun j t' u hji ht' hu => ?_) fun j t' hji ht' => ?_
  · exact hkeep.kvs d.1 fun hoff => hoff j t' hji ht' b d hd rfl
  · obtain ⟨u', hu', hlt⟩ := h.array ht'
    obtain rfl : u' = u := Option.some.inj (hu'.symm.trans hu)
    exact hkeep.arrays u' (fun he => hunshared j t' hji ht' (hu'.trans he.symm)) hlt
  · rcases htable with htable | ⟨u, hu, hle⟩
    · rw [htable]
      exact (hunshared j t' hji ht').symm
    · obtain ⟨u', hu', hlt⟩ := h.array ht'
      rw [hu, hu']
      exact fun he => absurd (Option.some.inj he ▸ hle) (Nat.not_le.mpr hlt)

/-- A table that has its array for itself owns its nodes. -/
theorem Snapshots.own (h : Snapshots F w maps chains) {i : Handle} {t : Table} {m : K → Option V}
    (hunshared : ∀ j t', j ≠ i → w.tables[j]? = some t' → t'.table ≠ t.table)
    (ht : w.tables[i]? = some t) (hm : maps[i]? = some m) (hplain : t.copyOnWrite = false) :
    Holds F (Off w chains i) (w.store t) m := by
  obtain ⟨hr, hdenotes⟩ := h.holds i t m ht hm
  have hs : unflag (w.store t) = w.store t := unflag_of_plain hplain
  rw [hs] at hr
  refine ⟨chains i, { hr with owned := fun b c hc j t' hji ht' b' d hd => ?_, unused := fun a ha => ?_ },
    hdenotes⟩
  · exact h.apart i j t t' ht ht' (hunshared j t' hji ht').symm b b' c hc d hd
  · intro j t' _ ht' b d hd
    have hle : w.kvs.length ≤ a := ha
    exact Ne.symm (Nat.ne_of_lt ((h.node_lt ht' hd).trans_le hle))

end Invariant

/-! ## Every call

A call on one table runs as it would on a store of its own; what remains is to see that the others are read as
before. -/

section Step

variable {K V : Type} [Inhabited V] {F : HashFns K} {R : LoadRule} {w : Tables K V}
  {maps : List (K → Option V)} {chains : Handle → ℕ → List (Entry K V)}

omit [Inhabited V] in
theorem onTable_run {α : Type} {i : Handle} {t : Table} {x : HashM K V α} {a : α} {s : Store K V}
    (ht : w.tables[i]? = some t) (hx : x (w.store t) = some (a, s)) :
    onTable i x w = some (a, w.put i s) := by
  simp only [onTable, ht, hx, Option.map_some]

omit [Inhabited V] in
/-- A table that has not changed. -/
theorem Tables.put_self {i : Handle} {t : Table} (ht : w.tables[i]? = some t) :
    w.put i (w.store t) = w := by
  obtain ⟨hlt, rfl⟩ := List.getElem?_eq_some_iff.mp ht
  simp [Tables.put, Tables.store]

omit [Inhabited V] in
/-- The map of one table is changed. -/
theorem modify_eq {i : Handle} {m : K → Option V} (hm : maps[i]? = some m)
    (f : (K → Option V) → K → Option V) : maps.modify i f = maps.set i (f m) := by
  refine List.ext_getElem? fun j => ?_
  obtain ⟨hlt, -⟩ := List.getElem?_eq_some_iff.mp hm
  rcases eq_or_ne j i with rfl | hji
  · rw [List.getElem?_modify_eq, hm, List.getElem?_set_self hlt]
    rfl
  · rw [List.getElem?_modify_ne _ _ hji.symm, List.getElem?_set_ne hji.symm]

/-- **`hash_get` answers as the private map.** -/
theorem Snapshots.get (hF : F.Lawful) (h : Snapshots F w maps chains) {i : Handle}
    {m : K → Option V} (hm : maps[i]? = some m) (key : K) :
    onTable i (hashGet F key) w = some (m key, w) := by
  have hi : i < w.tables.length := h.length ▸ (List.getElem?_eq_some_iff.mp hm).1
  have ht := List.getElem?_eq_getElem hi
  obtain ⟨hr, hdenotes⟩ := h.holds i _ m ht hm
  have hget := Holds.get_unflag hF ⟨chains i, hr, hdenotes⟩ key
  rw [onTable_run ht hget, Tables.put_self ht]

omit [Inhabited V] in
/-- **A write to a table**: on a copy, in place, or of what is there. -/
theorem Snapshots.write (hF : F.Lawful) (h : Snapshots F w maps chains) {i : Handle}
    {m : K → Option V} (hm : maps[i]? = some m) {x : HashM K V Unit} {key : K} {v : Option V}
    (hcond : w.OnItsOwn i ∨ maps.getD i emptyMap key = v)
    (hflagged : ∀ {s : Store K V} {own : Addr → Prop}, Holds F own (unflag s) m →
      s.table.copyOnWrite = true → ∃ s', x s = some ((), s') ∧
        Holds F (Unused s) s' (setKey F m key v) ∧ Above s s')
    (hplain : ∀ {s : Store K V} {own : Addr → Prop}, Holds F own s m →
      ∃ s', x s = some ((), s') ∧ Holds F own s' (setKey F m key v) ∧ Keeps own s s' ∧
        (s'.table.table = s.table.table ∨ ∃ t, s'.table.table = some t ∧ s.arrays.length ≤ t))
    (hsame : ∀ {s : Store K V} {own : Addr → Prop}, Holds F own s m → m key = v →
      x s = some ((), s) ∨ ∃ s', x s = some ((), s') ∧ Holds F (Unused s) s' m ∧ Above s s') :
    ∃ w' chains', onTable i x w = some ((), w') ∧
      Snapshots F w' (maps.set i (setKey F m key v)) chains' := by
  have hi : i < w.tables.length := h.length ▸ (List.getElem?_eq_some_iff.mp hm).1
  obtain ⟨t, ht⟩ : ∃ t, w.tables[i]? = some t := ⟨_, List.getElem?_eq_getElem hi⟩
  obtain ⟨hr, hdenotes⟩ := h.holds i t m ht hm
  cases hcow : t.copyOnWrite with
  | true =>
    obtain ⟨s', hrun, hholds, habove⟩ := hflagged ⟨chains i, hr, hdenotes⟩ hcow
    obtain ⟨chains', h'⟩ := h.moved ht hholds habove
    exact ⟨_, chains', onTable_run ht hrun, h'⟩
  | false =>
    rcases hcond with hown | hv
    · have hunshared : ∀ j t', j ≠ i → w.tables[j]? = some t' → t'.table ≠ t.table := by
        rcases hown t ht with hflag | hunshared
        · rw [hcow] at hflag
          cases hflag
        · exact fun j t' hji ht' =>
            hunshared j (List.getElem?_eq_some_iff.mp ht').1 hji t' ht'
      obtain ⟨s', hrun, hholds, hkeep, htable⟩ := hplain (h.own hunshared ht hm hcow)
      obtain ⟨chains', h'⟩ := h.inPlace hunshared ht hholds hkeep htable
      exact ⟨_, chains', onTable_run ht hrun, h'⟩
    · have hs : unflag (w.store t) = w.store t := unflag_of_plain hcow
      rw [List.getD_eq_getElem?_getD, hm, Option.getD_some] at hv
      rw [hs] at hr
      rw [hdenotes.setKey_same hF hv]
      rcases hsame ⟨chains i, hr, hdenotes⟩ hv with hrun | ⟨s', hrun, hholds, habove⟩
      · refine ⟨w, chains, by rw [onTable_run ht hrun, Tables.put_self ht], ?_⟩
        obtain ⟨hlt, rfl⟩ := List.getElem?_eq_some_iff.mp hm
        rwa [List.set_getElem_self]
      · obtain ⟨chains', h'⟩ := h.moved ht hholds habove
        exact ⟨_, chains', onTable_run ht hrun, h'⟩

/-- **One call** that no other table notices. -/
theorem Snapshots.call (hF : F.Lawful) (h : Snapshots F w maps chains) {c : Call K V}
    (hon : c.On maps.length) (hcond : Harmless w maps c) :
    ∃ w' chains', c.run F R w = some ((), w') ∧ Snapshots F w' (c.apply F maps) chains' := by
  have hmap : ∀ {i : Handle}, i < maps.length → ∃ m, maps[i]? = some m := fun hi =>
    ⟨_, List.getElem?_eq_getElem hi⟩
  cases c with
  | create =>
    obtain ⟨s', hrun, hs', hholds⟩ := hashCreate_run (F := F) (s := w.store emptyTable)
    obtain ⟨mine, hr, hm⟩ := hholds (fun a => w.kvs.length ≤ a) fun _ h => h
    subst hs'
    let s' := fresh (w.store emptyTable) hashSize
    have hrun' : newTable F w = some ((), ⟨s'.kvs, s'.arrays, w.tables ++ [s'.table]⟩) := by
      unfold newTable
      rw [hrun]
      rfl
    have hr' : Represents F (fun _ => True) s' mine := hr.weaken fun _ _ => trivial
    refine ⟨_, _, hrun', h.append (fun u hu => ?_) (hr' : Represents F _ (unflag s') mine) hm ?_⟩
    · exact List.getElem?_append_left hu
    · intro j t ht _ b b' c hc d hd
      exact Ne.symm (Nat.ne_of_lt ((h.node_lt ht hd).trans_le (hr.owned b c hc)))
  | cow src =>
    obtain ⟨m, hm⟩ := hmap hon
    have hi : src < w.tables.length := h.length ▸ (List.getElem?_eq_some_iff.mp hm).1
    obtain ⟨t, ht⟩ : ∃ t, w.tables[src]? = some t := ⟨_, List.getElem?_eq_getElem hi⟩
    obtain ⟨hr, hdenotes⟩ := h.holds src t m ht hm
    have hrun : hashCow src w =
        some ((), { w with tables := w.tables ++ [{ t with copyOnWrite := true }] }) := by
      simp only [hashCow, ht]
    have hgetD : maps.getD src emptyMap = m := by
      rw [List.getD_eq_getElem?_getD, hm, Option.getD_some]
    let t₁ : Table := { t with copyOnWrite := true }
    have hr₁ : Represents F (fun _ => True) (unflag ⟨w.kvs, w.arrays, t₁⟩) (chains src) := hr
    have happend := h.append (fun _ _ => rfl) hr₁ hdenotes fun j t' ht' hne b b' c hc =>
      h.apart src j t t' ht ht' (Ne.symm hne) b b' c hc
    exact ⟨_, _, hrun, by rw [Call.apply, hgetD]; exact happend⟩
  | set i key value =>
    obtain ⟨m, hm⟩ := hmap hon
    obtain ⟨w', chains', hrun, h'⟩ := h.write hF hm (x := hashSet F R key value) hcond
      (fun hs hcow => hs.set_flagged hF R hcow key value) (fun hs => hs.set hF R key value)
      (fun hs hv => hs.set_same hF R hv)
    exact ⟨w', chains', hrun, by rw [Call.apply, modify_eq hm]; exact h'⟩
  | erase i key =>
    obtain ⟨m, hm⟩ := hmap hon
    obtain ⟨w', chains', hrun, h'⟩ := h.write hF hm (x := hashErase F key) hcond
      (fun hs hcow => hs.erase_flagged hF hcow key)
      (fun hs => by
        obtain ⟨s', hrun, hholds, hkeep, htable⟩ := hs.erase hF key
        exact ⟨s', hrun, hholds, hkeep, Or.inl (by rw [htable])⟩)
      (fun hs hv => Or.inl (hs.erase_absent hv))
    exact ⟨w', chains', hrun, by rw [Call.apply, modify_eq hm]; exact h'⟩
  | get i key =>
    obtain ⟨m, hm⟩ := hmap hon
    exact ⟨w, chains, run_bind (h.get hF hm key), h⟩

/-- **Calls that no other table notices.** -/
theorem Snapshots.calls (hF : F.Lawful) : ∀ (calls : List (Call K V)) {w : Tables K V}
    {maps : List (K → Option V)} {chains : Handle → ℕ → List (Entry K V)},
    Snapshots F w maps chains → AllHarmless F R w maps calls →
    ∃ w' chains', calls.forM (Call.run F R) w = some ((), w') ∧
      Snapshots F w' (calls.foldl (Call.apply F) maps) chains'
  | [], w, _, chains, h, _ => ⟨w, chains, rfl, h⟩
  | _ :: calls, _, _, _, h, ⟨hon, hcond, hrest⟩ => by
      obtain ⟨w₁, chains₁, hrun₁, h₁⟩ := h.call (R := R) hF hon hcond
      obtain ⟨w₂, chains₂, hrun₂, h₂⟩ := Snapshots.calls hF calls h₁ (hrest _ hrun₁)
      exact ⟨w₂, chains₂, (run_bind hrun₁).trans hrun₂, h₂⟩

end Step

/-- Every sequence of calls that no other table notices runs to its end, and every table then answers
as its private map. -/
def SnapshotsIsolated {K : Type} (F : HashFns K) (V : Type) [Inhabited V] : Prop :=
  ∀ R calls, AllHarmless F R {} [] calls → ∃ w : Tables K V,
    calls.forM (Call.run F R) {} = some ((), w) ∧ Isolated F w (calls.foldl (Call.apply F) [])

/-- **Tables answer as their own maps**, for any lawful kind of key. -/
theorem snapshotsIsolated {K : Type} {F : HashFns K} (hF : F.Lawful) (V : Type) [Inhabited V] :
    SnapshotsIsolated F V := by
  intro R calls hcalls
  have hempty : Snapshots F ({} : Tables K V) [] fun _ _ => [] :=
    ⟨rfl, fun _ _ _ ht => by simp at ht, fun _ _ _ _ ht => by simp at ht⟩
  obtain ⟨w, chains, hrun, h⟩ := hempty.calls (R := R) hF calls hcalls
  exact ⟨w, hrun, h.length, fun i m key hm => h.get hF hm key⟩

/-- **Copy-on-write snapshots are isolated**, for tables of strings and of pointers. -/
theorem cow_isolated (V : Type) [Inhabited V] :
    SnapshotsIsolated stringFns V ∧ SnapshotsIsolated pointerFns V :=
  ⟨snapshotsIsolated stringFns_lawful V, snapshotsIsolated pointerFns_lawful V⟩

section Decide

variable {K V : Type} [Inhabited V] [DecidableEq V]

/-- Whether a call is on a table that exists can be computed. -/
instance decidableOn (n : ℕ) : (c : Call K V) → Decidable (c.On n)
  | .create => inferInstanceAs (Decidable True)
  | .cow _ | .set _ _ _ | .erase _ _ | .get _ _ => inferInstanceAs (Decidable (_ < _))

/-- So can whether a table has its array to itself. -/
instance decidableOnItsOwn (w : Tables K V) (i : Handle) : Decidable (w.OnItsOwn i) := by
  unfold Tables.OnItsOwn
  infer_instance

/-- And whether a call is harmless. -/
instance decidableHarmless (w : Tables K V) (maps : List (K → Option V)) :
    (c : Call K V) → Decidable (Harmless w maps c)
  | .set _ _ _ | .erase _ _ => inferInstanceAs (Decidable (_ ∨ _))
  | .create | .cow _ | .get _ _ => inferInstanceAs (Decidable True)

/-- And whether some calls are. -/
instance decidableAllHarmless (F : HashFns K) (R : LoadRule) :
    (w : Tables K V) → (maps : List (K → Option V)) → (calls : List (Call K V)) →
      Decidable (AllHarmless F R w maps calls)
  | _, _, [] => inferInstanceAs (Decidable True)
  | _, maps, c :: calls =>
    have := fun r : Unit × Tables K V => decidableAllHarmless F R r.2 (c.apply F maps) calls
    inferInstanceAs (Decidable (_ ∧ _ ∧ _))

end Decide

/-- A copy is written before its source, and the source after the copy has moved. -/
def copyWritten : List (Call UInt64 ℕ) :=
  [.create, .set 0 7 1, .cow 0, .set 1 7 2, .set 0 7 3, .cow 1, .erase 2 7, .set 1 8 4]

/-- A copy that is written, and then its source: each answers as its own map. -/
theorem cow_isolated_copyWritten : AllHarmless pointerFns .exact {} [] copyWritten ∧
    ∃ w : Tables UInt64 ℕ, copyWritten.forM (Call.run pointerFns .exact) {} = some ((), w) ∧
      Isolated pointerFns w (copyWritten.foldl (Call.apply pointerFns) []) := by
  have hcalls : AllHarmless pointerFns .exact {} [] copyWritten := by decide +kernel
  exact ⟨hcalls, (cow_isolated ℕ).2 .exact copyWritten hcalls⟩

/-- A table is copied and then written. -/
def sourceWritten : List (Call UInt64 ℕ) := [.create, .set 0 7 1, .cow 0, .set 0 7 2]

/-- **The copy sees the write to its source.** -/
theorem cow_sees_source : ∃ w, sourceWritten.forM (Call.run pointerFns .exact) {} = some ((), w) ∧
    ¬ Isolated pointerFns w (sourceWritten.foldl (Call.apply pointerFns) []) := by
  have hread : ((sourceWritten.forM (Call.run pointerFns .exact) {}).bind fun r =>
      onTable 1 (hashGet pointerFns 7) r.2).map Prod.fst = some (some 2) := by decide +kernel
  have hmap : (sourceWritten.foldl (Call.apply pointerFns) [])[1]?.map (· 7) = some (some 1) := by
    decide +kernel
  obtain ⟨⟨answer, w'⟩, hbind, hanswer⟩ := Option.map_eq_some_iff.mp hread
  obtain ⟨⟨⟨⟩, w⟩, hrun, hget⟩ := Option.bind_eq_some_iff.mp hbind
  obtain ⟨m, hm, hvalue⟩ := Option.map_eq_some_iff.mp hmap
  refine ⟨w, hrun, fun hisolated => ?_⟩
  have hsame := hget.symm.trans (hisolated.2 1 m 7 hm)
  have hanswer' : answer = m 7 := congrArg Prod.fst (Option.some.inj hsame)
  rw [hvalue] at hanswer'
  exact absurd (hanswer.symm.trans hanswer') (by decide)

end Insomniac.Hash

import Insomniac.Hash.Values

/-!
# Hash/Counting — what `hash_size` counts

`hash_size` returns the counter `entries`.  `hash_find` counts a key when it links it, `hash_resize`
counts again, `hash_cow` copies the counter; nothing counts a key that is unlinked.

    hash_set, new key ──▸ entries + 1        hash_erase ──▸ entries        hash_cow ──▸ entries

A copy shares its source's chains but not its counter, so a key that the source links is not counted
in the copy.  The other calls keep every counter exact (`KeepsCount`), and values play no part in it:
the run is followed on the keys alone.
-/

open Linked Run Mirror

namespace Insomniac.Hash

section Statement

variable {K V : Type} [Inhabited V] (F : HashFns K)

/-- `hash_get` finds the key in table `i`. -/
def Tables.Has (w : Tables K V) (i : Handle) (key : K) : Prop :=
  (onTable i (hashGet F key) w).map (fun r => r.1.isSome) = some true

/-- **Every counter is the number of keys** that `hash_get` finds, up to `hash_cmp`. -/
def CountsKeys (w : Tables K V) : Prop :=
  ∀ (i : Handle) t, w.tables[i]? = some t → ∃ keys : List K, keys.Pairwise (fun k l => ¬ Eqv F k l) ∧
    (∀ k, w.Has F i k ↔ ∃ l ∈ keys, Eqv F k l) ∧ t.entries = keys.length

/-- **A call that keeps the counters exact**: no key that is there is erased, and a table that shares
its array without the flag gets no new key. -/
def KeepsCount (w : Tables K V) : Call K V → Prop
  | .set i key _ => w.OnItsOwn i ∨ w.Has F i key
  | .erase i key => ¬ w.Has F i key
  | _ => True

/-- Calls on tables that exist, all of which keep the counters exact. -/
def AllKeepCount (R : LoadRule) : Tables K V → List (Call K V) → Prop
  | _, [] => True
  | w, c :: calls => c.On w.tables.length ∧ KeepsCount F w c ∧
      ∀ r ∈ c.run F R w, AllKeepCount R r.2 calls

end Statement

/-! ## One table

The counter is right while it is the number of keys that the map has, up to keys that compare equal.  Linking a
key adds one to both. -/

section OneTable

variable {K V : Type} [Inhabited V] {F : HashFns K} {own : Addr → Prop} {s : Store K V} {m : K → Option V}

/-- **`hash_set` counts its key** if it is new, on a plain table. -/
theorem Holds.set_plain_counts (hF : F.Lawful) (R : LoadRule) (h : Holds F own s m)
    (hcount : Counts F m s.table.entries) (key : K) (v : V) :
    ∃ s', hashSet F R key v s = some ((), s') ∧ Counts F (setKey F m key (some v)) s'.table.entries := by
  obtain ⟨a, s₁, s₂, hfind, hval, hm₂, -, -, -, hcount₂⟩ := h.insert hF 5 key v
  rw [hashSet_run R hfind hval]
  split
  · obtain ⟨s', hres, -, -, hcount'⟩ := hm₂.resize hF 2 (Nat.succ_pos _)
    exact ⟨s', hres, hcount'⟩
  · exact ⟨s₂, rfl, hcount₂ hcount⟩

/-- **`hash_set` counts its key** if it is new. -/
theorem Holds.set_counts (hF : F.Lawful) (R : LoadRule) (h : Holds F own (unflag s) m)
    (hcount : Counts F m s.table.entries) (key : K) (v : V) :
    ∃ s', hashSet F R key v s = some ((), s') ∧ Counts F (setKey F m key (some v)) s'.table.entries := by
  cases hcow : s.table.copyOnWrite with
  | false =>
    rw [unflag_of_plain hcow] at h
    exact h.set_plain_counts hF R hcount key v
  | true =>
    obtain ⟨s₁, hholds, -, hcount₁, hfind⟩ := h.copied hF hcow
    obtain ⟨s', hrun, hcount'⟩ := hholds.set_plain_counts hF R hcount₁ key v
    exact ⟨s', (bind_congr_run _ (hfind key .create (by decide))).trans hrun, hcount'⟩

/-- **`hash_erase` of a key that is not there** keeps the count. -/
theorem Holds.erase_counts (hF : F.Lawful) (h : Holds F own (unflag s) m)
    (hcount : Counts F m s.table.entries) {key : K} (hnone : m key = none) :
    ∃ s', hashErase F key s = some ((), s') ∧ Counts F (setKey F m key none) s'.table.entries := by
  have hsame : setKey F m key none = m := by
    obtain ⟨_, -, hm⟩ := h
    exact hm.setKey_same hF hnone
  rw [hsame]
  cases hcow : s.table.copyOnWrite with
  | false =>
    rw [unflag_of_plain hcow] at h
    exact ⟨s, h.erase_absent hnone, hcount⟩
  | true =>
    obtain ⟨s₁, hholds, -, hcount₁, hfind⟩ := h.copied hF hcow
    exact ⟨s₁, (bind_congr_run _ (hfind key .delete (by decide))).trans (hholds.erase_absent hnone), hcount₁⟩

end OneTable

/-! ## All tables

A call on one table may change the chains of another, and never the counter of another.  So the counters are
right as long as the keys of the others are left alone. -/

section AllTables

variable {K V : Type} [Inhabited V] {F : HashFns K} {R : LoadRule} {w : Tables K V}
  {maps : List (K → Option V)} {chains : Handle → ℕ → List (Entry K V)}

/-- The counters of the tables count the keys of their maps. -/
def Counted (F : HashFns K) (w : Tables K V) (maps : List (K → Option V)) : Prop :=
  ∀ (i : Handle) t m, w.tables[i]? = some t → maps[i]? = some m → Counts F m t.entries

/-- A table has a key where its map does. -/
theorem Snapshots.has_iff (hF : F.Lawful) (h : Snapshots F w maps chains) {i : Handle} {m : K → Option V}
    (hm : maps[i]? = some m) (key : K) : w.Has F i key ↔ (m key).isSome := by
  rw [Tables.Has, h.get hF hm key]
  simp

omit [Inhabited V] in
/-- A call on one table that counts right. -/
theorem Counted.put (h : Counted F w maps) {i : Handle} {s' : Store K V} {m' : K → Option V}
    (hcount : Counts F m' s'.table.entries) : Counted F (w.put i s') (maps.set i m') := by
  intro j t m ht hm
  rw [Tables.put] at ht
  dsimp only at ht
  rcases eq_or_ne j i with rfl | hji
  · have htables := (List.getElem?_eq_some_iff.mp ht).1
    have hmaps := (List.getElem?_eq_some_iff.mp hm).1
    rw [List.length_set] at htables hmaps
    obtain rfl : s'.table = t := Option.some.inj ((List.getElem?_set_self htables).symm.trans ht)
    obtain rfl : m' = m := Option.some.inj ((List.getElem?_set_self hmaps).symm.trans hm)
    exact hcount
  · rw [List.getElem?_set_ne hji.symm] at ht
    rw [List.getElem?_set_ne hji.symm] at hm
    exact h j t m ht hm

omit [Inhabited V] in
/-- A new table that counts right. -/
theorem Counted.append (h : Counted F w maps) (hlen : w.tables.length = maps.length) {t₁ : Table}
    {m₁ : K → Option V} {arrays : List (List (Option Addr))} (hcount : Counts F m₁ t₁.entries) :
    Counted F ⟨w.kvs, arrays, w.tables ++ [t₁]⟩ (maps ++ [m₁]) := by
  intro j t m ht hm
  dsimp only at ht
  rcases Nat.lt_or_ge j w.tables.length with hlt | hge
  · rw [List.getElem?_append_left hlt] at ht
    rw [List.getElem?_append_left (hlen ▸ hlt)] at hm
    exact h j t m ht hm
  · rw [List.getElem?_append_right hge, List.getElem?_singleton] at ht
    rw [List.getElem?_append_right (hlen ▸ hge), List.getElem?_singleton] at hm
    split at ht
    · cases ht
      split at hm
      · cases hm
        exact hcount
      · cases hm
    · cases ht

/-- **One call** keeps the counters. -/
theorem Counted.call (hF : F.Lawful) (hs : Snapshots F w maps chains) (h : Counted F w maps) {c : Call K V}
    (hon : c.On maps.length) (hkeeps : KeepsCount F w c) {w' : Tables K V}
    (hrun : c.run F R w = some ((), w')) : Counted F w' (c.apply F maps) := by
  have hget : ∀ {i : Handle}, i < maps.length → ∃ t m, w.tables[i]? = some t ∧ maps[i]? = some m :=
    fun {i} hi => ⟨w.tables.get ⟨i, hs.length ▸ hi⟩, maps[i], List.getElem?_eq_getElem _,
      List.getElem?_eq_getElem hi⟩
  cases c with
  | create =>
    obtain ⟨s', hcreate, hs', -⟩ := hashCreate_run (F := F) (s := w.store emptyTable)
    have hnew : newTable F w = some ((), ⟨s'.kvs, s'.arrays, w.tables ++ [s'.table]⟩) := by
      unfold newTable
      rw [hcreate]
      rfl
    cases hnew.symm.trans hrun
    subst hs'
    exact h.append hs.length counts_empty
  | cow src =>
    obtain ⟨t, m, ht, hm⟩ := hget hon
    have hcow : hashCow src w = some ((), { w with tables := w.tables ++ [{ t with copyOnWrite := true }] }) := by
      simp only [hashCow, ht]
    cases hcow.symm.trans hrun
    have hgetD : maps.getD src emptyMap = m := by
      rw [List.getD_eq_getElem?_getD, hm, Option.getD_some]
    rw [Call.apply, hgetD]
    exact h.append hs.length (h src t m ht hm)
  | set i key value =>
    obtain ⟨t, m, ht, hm⟩ := hget hon
    obtain ⟨hr, hdenotes⟩ := hs.holds i t m ht hm
    obtain ⟨s', hset, hcount⟩ := Holds.set_counts hF R ⟨_, hr, hdenotes⟩ (h i t m ht hm) key value
    cases (onTable_run ht hset).symm.trans hrun
    rw [Call.apply, modify_eq hm]
    exact h.put hcount
  | erase i key =>
    obtain ⟨t, m, ht, hm⟩ := hget hon
    obtain ⟨hr, hdenotes⟩ := hs.holds i t m ht hm
    have hnone : m key = none := Option.not_isSome_iff_eq_none.mp fun hsome =>
      hkeeps ((hs.has_iff hF hm key).mpr hsome)
    obtain ⟨s', herase, hcount⟩ := Holds.erase_counts hF ⟨_, hr, hdenotes⟩ (h i t m ht hm) hnone
    cases (onTable_run ht herase).symm.trans hrun
    rw [Call.apply, modify_eq hm]
    exact h.put hcount
  | get i key =>
    obtain ⟨t, m, ht, hm⟩ := hget hon
    cases (run_bind (hs.get hF hm key)).symm.trans hrun
    exact h

/-- The counters of tables that hold maps are the numbers of their keys. -/
theorem Counted.countsKeys (hF : F.Lawful) (hs : Snapshots F w maps chains) (h : Counted F w maps) :
    CountsKeys F w := by
  intro i t ht
  have hi : i < maps.length := hs.length ▸ (List.getElem?_eq_some_iff.mp ht).1
  have hm := List.getElem?_eq_getElem hi
  obtain ⟨keys, hdistinct, hkeys, hlen⟩ := h i t _ ht hm
  exact ⟨keys, hdistinct, fun k => (hs.has_iff hF hm k).trans (hkeys k), hlen.symm⟩

end AllTables

/-! ## The keys alone

Whether a counter is right has nothing to do with values, so calls are looked at on tables whose values are
all the same, and what is seen there is carried over. -/

section Keys

variable {K V : Type} [Inhabited V] {F : HashFns K} {R : LoadRule} {w : Tables K V}
  {maps : List (K → Option Unit)} {chains : Handle → ℕ → List (Entry K Unit)}

/-- The value that is left of a value. -/
abbrev noValue : V → Unit := fun _ => ()

/-- A table has the same keys without its values. -/
theorem has_noValue (i : Handle) (key : K) : (w.mapValues noValue).Has F i key ↔ w.Has F i key := by
  have hmirror := onTable_mirrors i (hashGet_mirrors (F := F) (f := (noValue : V → Unit)) rfl key) w
  rw [Tables.Has, hmirror, Tables.Has, Option.map_map]
  refine Eq.congr (congrArg (fun g => Option.map g _) (funext fun r => ?_)) rfl
  simp

/-- On the keys alone, a call that keeps the counters is one that no other table notices. -/
theorem Snapshots.harmless (hF : F.Lawful) (h : Snapshots F (w.mapValues noValue) maps chains) {c : Call K V}
    (hon : c.On maps.length) (hkeeps : KeepsCount F w c) :
    Harmless (w.mapValues noValue) maps (c.mapValue noValue) := by
  have hgetD : ∀ {i : Handle} (hi : i < maps.length) (key : K),
      (maps.getD i emptyMap key).isSome ↔ w.Has F i key := by
    intro i hi key
    have hm := List.getElem?_eq_getElem hi
    rw [List.getD_eq_getElem?_getD, hm, Option.getD_some, ← h.has_iff hF hm key, has_noValue]
  cases c with
  | set i key value =>
    refine hkeeps.imp id fun hhas => ?_
    exact (Option.isSome_iff_exists.mp ((hgetD hon key).mpr hhas)).elim fun _ hv => hv
  | erase i key => exact Or.inr (Option.not_isSome_iff_eq_none.mp fun hsome => hkeeps ((hgetD hon key).mp hsome))
  | create => trivial
  | cow src => trivial
  | get i key => trivial

/-- **Calls that keep the counters** run to their end, with the counters exact on the way. -/
theorem keepCount_run (hF : F.Lawful) : ∀ (calls : List (Call K V)) {w : Tables K V}
    {maps : List (K → Option Unit)} {chains : Handle → ℕ → List (Entry K Unit)},
    Snapshots F (w.mapValues noValue) maps chains → Counted F (w.mapValues noValue) maps →
    AllKeepCount F R w calls → ∃ w', calls.forM (Call.run F R) w = some ((), w') ∧ CountsKeys F w'
  | [], w, maps, chains, hs, h, _ => by
      refine ⟨w, rfl, fun i t ht => ?_⟩
      obtain ⟨keys, hdistinct, hkeys, hlen⟩ := h.countsKeys hF hs i t ht
      exact ⟨keys, hdistinct, fun k => (has_noValue i k).symm.trans (hkeys k), hlen⟩
  | c :: calls, w, maps, chains, hs, h, ⟨hon, hkeeps, hrest⟩ => by
      have hlen : w.tables.length = maps.length := hs.length
      rw [hlen] at hon
      have hon' : (c.mapValue (noValue : V → Unit)).On maps.length := by
        cases c <;> exact hon
      have hkeeps' : KeepsCount F (w.mapValues noValue) (c.mapValue noValue) := by
        cases c with
        | set i key value => exact hkeeps.imp id (has_noValue i key).mpr
        | erase i key => exact fun hhas => hkeeps ((has_noValue i key).mp hhas)
        | create => trivial
        | cow src => trivial
        | get i key => trivial
      obtain ⟨w₁, chains₁, hrun₁, hs₁⟩ := hs.call (R := R) hF hon' (hs.harmless hF hon hkeeps)
      have h₁ := h.call hF hs hon' hkeeps' hrun₁
      have hmirror := Call.run_mirrors (F := F) (f := (noValue : V → Unit)) rfl R c w
      obtain ⟨⟨⟨⟩, w₂⟩, hrun, heq⟩ := Option.map_eq_some_iff.mp (hmirror.symm.trans hrun₁)
      obtain rfl : w₂.mapValues noValue = w₁ := congrArg Prod.snd heq
      obtain ⟨w', hcalls, hcounts⟩ := keepCount_run hF calls hs₁ h₁ (hrest _ hrun)
      exact ⟨w', (run_bind hrun).trans hcalls, hcounts⟩

end Keys

/-- Calls that keep the counters leave every counter at the number of its keys. -/
def SizesCount {K : Type} (F : HashFns K) (V : Type) [Inhabited V] : Prop :=
  ∀ R calls, AllKeepCount F R {} calls → ∃ w : Tables K V,
    calls.forM (Call.run F R) {} = some ((), w) ∧ CountsKeys F w

/-- **Counters are right**, for any lawful kind of key. -/
theorem sizesCount {K : Type} {F : HashFns K} (hF : F.Lawful) (V : Type) [Inhabited V] : SizesCount F V := by
  intro R calls hcalls
  have hnone : ∀ i : Handle, (({} : Tables K V).mapValues noValue).tables[i]? = none := fun _ => rfl
  have hempty : Snapshots F (({} : Tables K V).mapValues noValue) [] fun _ _ => [] :=
    ⟨rfl, fun i t m ht => absurd ht (by simp [hnone]), fun i j t t' ht => absurd ht (by simp [hnone])⟩
  exact keepCount_run hF calls hempty (fun i t m ht => absurd ht (by simp [hnone])) hcalls

/-- **`hash_size` is the number of keys**, in every run that erases no key and links none behind the
back of a copy, for tables of strings and of pointers. -/
theorem hash_size_counts (V : Type) [Inhabited V] : SizesCount stringFns V ∧ SizesCount pointerFns V :=
  ⟨sizesCount stringFns_lawful V, sizesCount pointerFns_lawful V⟩

section Decide

variable {K V : Type} [Inhabited V] (F : HashFns K)

/-- Whether a table has a key can be computed. -/
instance decidableHas (w : Tables K V) (i : Handle) (key : K) : Decidable (w.Has F i key) :=
  inferInstanceAs (Decidable (_ = _))

/-- So can whether a call keeps the counters right. -/
instance decidableKeepsCount (w : Tables K V) : (c : Call K V) → Decidable (KeepsCount F w c)
  | .set _ _ _ => inferInstanceAs (Decidable (_ ∨ _))
  | .erase _ _ => inferInstanceAs (Decidable (¬ _))
  | .create | .cow _ | .get _ _ => inferInstanceAs (Decidable True)

/-- And whether some calls do. -/
instance decidableAllKeepCount (R : LoadRule) : (w : Tables K V) → (calls : List (Call K V)) →
    Decidable (AllKeepCount F R w calls)
  | _, [] => inferInstanceAs (Decidable True)
  | _, _ :: calls =>
    have := fun r : Unit × Tables K V => decidableAllKeepCount R r.2 calls
    inferInstanceAs (Decidable (_ ∧ _ ∧ _))

end Decide

/-- The source gets a new value for a key that it shares, the copy a new key. -/
def sourceUpdated : List (Call UInt64 ℕ) :=
  [.create, .set 0 7 1, .set 0 8 1, .cow 0, .set 0 7 2, .set 1 9 3, .erase 1 10, .set 0 10 4]

/-- A source that is updated while a copy shares its array: no key is new, so every counter is right. -/
theorem hash_size_counts_sourceUpdated : AllKeepCount pointerFns .exact {} sourceUpdated ∧
    ∃ w : Tables UInt64 ℕ, sourceUpdated.forM (Call.run pointerFns .exact) {} = some ((), w) ∧
      CountsKeys pointerFns w := by
  have hcalls : AllKeepCount pointerFns .exact {} sourceUpdated := by decide +kernel
  exact ⟨hcalls, (hash_size_counts ℕ).2 .exact sourceUpdated hcalls⟩

/-- A key is set and erased. -/
def keyErased : List (Call UInt64 ℕ) := [.create, .set 0 7 1, .erase 0 7]

/-- **The counter still counts the key that was erased.** -/
theorem hash_size_after_erase : ∃ w, keyErased.forM (Call.run pointerFns .exact) {} = some ((), w) ∧
    ¬ CountsKeys pointerFns w := by
  obtain ⟨w, hrun, -, hget⟩ := snapshotsIsolated pointerFns_lawful ℕ .exact keyErased (by decide +kernel)
  refine ⟨w, hrun, fun hcounts => ?_⟩
  have hentries : (keyErased.forM (Call.run pointerFns .exact) {}).map (fun r => r.2.tables.map Table.entries) =
      some [1] := by decide +kernel
  rw [hrun] at hentries
  obtain ⟨t, ht, hone⟩ : ∃ t, w.tables = [t] ∧ t.entries = 1 := by
    have hmap : w.tables.map Table.entries = [1] := Option.some.inj hentries
    obtain ⟨t, ht, hone⟩ := List.map_eq_singleton_iff.mp hmap
    exact ⟨t, ht, hone⟩
  have hgone : ∀ k, setKey pointerFns (setKey pointerFns emptyMap 7 (some 1)) 7 (none : Option ℕ) k = none := by
    intro k
    unfold setKey
    split <;> rfl
  obtain ⟨keys, -, hkeys, hlen⟩ := hcounts 0 t (by rw [ht]; rfl)
  obtain ⟨l, rfl⟩ := List.length_eq_one_iff.mp (hlen.symm.trans hone)
  have hhas := (hkeys l).mpr ⟨l, List.mem_singleton_self l, pointerFns_lawful.refl l⟩
  rw [Tables.Has, hget 0 (setKey pointerFns (setKey pointerFns emptyMap 7 (some 1)) 7 none) l rfl, hgone l] at hhas
  cases hhas

end Insomniac.Hash

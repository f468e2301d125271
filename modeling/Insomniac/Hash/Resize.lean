import Insomniac.Hash.FiniteMap

/-!
# Hash/Resize — a resize keeps the map

`hash_resize` reads the old chains while it inserts into the new array.  The insertions only append
nodes and only write the new array (`Above`), so the old chains are read as they were; and the old
keys are pairwise unequal, so inserting them one after the other gives back the old map.
-/

open Linked Run

namespace Insomniac.Hash

variable {K V : Type} {F : HashFns K} {s : Store K V}

/-- The map after inserting the entries of a list, one after the other. -/
def insertAll (F : HashFns K) (m : K → Option V) (l : List (Entry K V)) : K → Option V :=
  l.foldl (fun m c => setKey F m c.2.1 (some c.2.2)) m

@[simp] theorem insertAll_nil (m : K → Option V) : insertAll F m [] = m := rfl

/-- The first of some entries comes first. -/
@[simp] theorem insertAll_cons (m : K → Option V) (c : Entry K V) (l : List (Entry K V)) :
    insertAll F m (c :: l) = insertAll F (setKey F m c.2.1 (some c.2.2)) l := rfl

theorem insertAll_append (m : K → Option V) (l l' : List (Entry K V)) :
    insertAll F m (l ++ l') = insertAll F (insertAll F m l) l' := List.foldl_append

/-- Inserting entries leaves the keys unequal to theirs alone. -/
theorem insertAll_of_forall_not {l : List (Entry K V)} {m : K → Option V} {k : K}
    (h : ∀ c ∈ l, ¬ Eqv F k c.2.1) : insertAll F m l k = m k := by
  induction l generalizing m with
  | nil => rfl
  | cons c l ih =>
    rw [insertAll_cons, ih fun d hd => h d (List.mem_cons_of_mem _ hd), setKey,
      if_neg (h c (by simp))]

/-- **Inserting entries with pairwise unequal keys** finds each of them. -/
theorem insertAll_eq_some_iff (hF : F.Lawful) {l : List (Entry K V)}
    (hl : l.Pairwise fun c d => ¬ Eqv F c.2.1 d.2.1) {m : K → Option V} {k : K} {v : V}
    (hm : m k = none) :
    insertAll F m l k = some v ↔ ∃ c ∈ l, Eqv F k c.2.1 ∧ c.2.2 = v := by
  induction l generalizing m with
  | nil => simp [hm]
  | cons c l ih =>
    obtain ⟨hc, hl⟩ := List.pairwise_cons.mp hl
    rw [insertAll_cons]
    by_cases hk : Eqv F k c.2.1
    · have hno : ∀ d ∈ l, ¬ Eqv F k d.2.1 := fun d hd hkd =>
        hc d hd (hF.trans (hF.symm hk) hkd)
      rw [insertAll_of_forall_not hno, setKey, if_pos hk]
      constructor
      · intro hv
        exact ⟨c, by simp, hk, Option.some.inj hv⟩
      · rintro ⟨d, hd, hkd, hdv⟩
        rcases List.mem_cons.mp hd with rfl | hd
        · rw [hdv]
        · exact absurd hkd (hno d hd)
    · rw [ih hl (by rw [setKey, if_neg hk, hm])]
      constructor
      · rintro ⟨d, hd, h⟩
        exact ⟨d, List.mem_cons_of_mem _ hd, h⟩
      · rintro ⟨d, hd, hkd, hdv⟩
        rcases List.mem_cons.mp hd with rfl | hd
        · exact absurd hkd hk
        · exact ⟨d, hd, hkd, hdv⟩

/-! ## Tables above a store

A resize works in an array and in nodes that were not there when it began: in a store above the one
it began in.  A copy-on-write table still has its flag when its copy starts to be filled
(`Filling`): the first insertion puts a second empty array under the entries, and drops the flag. -/

/-- The addresses that were not there yet. -/
abbrev Unused (s₀ : Store K V) (a : Addr) : Prop := s₀.kvs.length ≤ a

/-- **The store has grown since `s₀`**, and its table works on an array that `s₀` did not have. -/
structure Above (s₀ s : Store K V) : Prop where
  kvs : ∀ a < s₀.kvs.length, s.kvs[a]? = s₀.kvs[a]?
  kvs_le : s₀.kvs.length ≤ s.kvs.length
  arrays : ∀ u < s₀.arrays.length, s.arrays[u]? = s₀.arrays[u]?
  arrays_le : s₀.arrays.length ≤ s.arrays.length
  table : ∃ t, s.table.table = some t ∧ s₀.arrays.length ≤ t

/-- An operation on a table above `s₀` stays above it. -/
theorem Above.keeps {s₀ s s' : Store K V} (h : Above s₀ s) (hkeep : Keeps (Unused s₀) s s')
    (ht : s'.table.table = s.table.table ∨
      ∃ t, s'.table.table = some t ∧ s.arrays.length ≤ t) : Above s₀ s' where
  kvs a ha := (hkeep.kvs a (Nat.not_le.mpr ha)).trans (h.kvs a ha)
  kvs_le := h.kvs_le.trans hkeep.kvs_le
  arrays u hu := by
    obtain ⟨t, htab, hle⟩ := h.table
    refine (hkeep.arrays u (fun htu => ?_) (hu.trans_le h.arrays_le)).trans (h.arrays u hu)
    obtain rfl : t = u := Option.some.inj (htab.symm.trans htu)
    exact absurd hle (Nat.not_le.mpr hu)
  arrays_le := h.arrays_le.trans hkeep.arrays_le
  table := by
    rcases ht with ht | ⟨t, ht, hle⟩
    · exact ht ▸ h.table
    · exact ⟨t, ht, h.arrays_le.trans hle⟩

/-- A store stays above another one without its flag. -/
theorem Above.unflag {s₀ s : Store K V} (h : Above s₀ s) : Above s₀ (unflag s) :=
  ⟨h.kvs, h.kvs_le, h.arrays, h.arrays_le, h.table⟩

/-- The store when `hash_resize` starts to copy: a fresh array of empty buckets. -/
def fresh (s : Store K V) (size : ℕ) : Store K V :=
  { s with
    arrays := s.arrays ++ [List.replicate size none]
    table := { s.table with table := some s.arrays.length, size, entries := 0 } }

/-- A fresh array holds the empty map, in nodes still to come. -/
theorem fresh_holds {size : ℕ} {own : Addr → Prop} (hsize : 0 < size)
    (hown : ∀ a, s.kvs.length ≤ a → own a) : Holds F own (unflag (fresh s size)) fun _ => none := by
  refine ⟨fun _ => [], ⟨hsize, rfl, ⟨s.arrays.length, List.replicate size none, rfl,
    by simp [fresh, unflag], by simp [fresh, unflag], fun i hi => ⟨none, ?_, rfl⟩⟩, by simp,
    by simp, by simp, hown⟩, fun k v => by simp⟩
  have hi : i < size := hi
  simp [hi]

/-- A store with a new array is above the one it was made in. -/
theorem fresh_above {s₀ : Store K V} (size : ℕ) (hkvs : ∀ a < s₀.kvs.length, s.kvs[a]? = s₀.kvs[a]?)
    (hkvs_le : s₀.kvs.length ≤ s.kvs.length)
    (harrays : ∀ u < s₀.arrays.length, s.arrays[u]? = s₀.arrays[u]?)
    (harrays_le : s₀.arrays.length ≤ s.arrays.length) : Above s₀ (fresh s size) where
  kvs := hkvs
  kvs_le := hkvs_le
  arrays u hu := by
    rw [fresh, List.getElem?_append_left (hu.trans_le harrays_le)]
    exact harrays u hu
  arrays_le := by
    simp only [fresh, List.length_append]
    omega
  table := ⟨_, rfl, harrays_le⟩

/-- **A table that is being filled**: it holds the map so far, and while it has its flag it is
empty. -/
structure Filling (F : HashFns K) (s₀ s : Store K V) (m : K → Option V) : Prop where
  above : Above s₀ s
  holds : Holds F (Unused s₀) (unflag s) m
  blank : s.table.copyOnWrite = true → m = (fun _ => none) ∧
    ∃ t, s.table.table = some t ∧ s.arrays[t]? = some (List.replicate s.table.size none)

/-- A table that is being filled has a bucket. -/
theorem Filling.size_pos {s₀ : Store K V} {m : K → Option V} (h : Filling F s₀ s m) :
    0 < s.table.size := by
  obtain ⟨chains, hr, -⟩ := h.holds
  exact hr.size_pos

/-- A fresh array, ready to be filled. -/
theorem fresh_filling {size : ℕ} (hsize : 0 < size) :
    Filling F s (fresh s size) fun _ => none where
  above := fresh_above size (fun _ _ => rfl) le_rfl (fun _ _ => rfl) le_rfl
  holds := fresh_holds hsize fun _ h => h
  blank _ := ⟨rfl, s.arrays.length, rfl, by simp [fresh]⟩

/-! ## Finding a key in a copy-on-write table

A `hash_find` that writes resizes first, to the size that the table has; so it finds the key in a copy of the
chains, and in the bucket it had computed before. -/

section Flagged

variable [Inhabited V] {n : ℕ} {key : K} {action : Action}

/-- **A write to a copy-on-write table** works on the copy that `hash_resize` makes. -/
theorem hashFind_flagged {s₁ : Store K V} (hsize : s.table.size ≠ 0)
    (hcow : s.table.copyOnWrite = true) (haction : action ≠ .read)
    (hres : hashResize F n s.table.size s = some ((), s₁)) (hsize₁ : s₁.table.size = s.table.size) :
    hashFind F (n + 1) key action s = hashFind F (n + 1) key action (unflag s₁) := by
  have hplain : ¬ ((unflag s₁).table.copyOnWrite = true ∧ action ≠ .read) := by
    rintro ⟨hflag, -⟩
    cases hflag
  rw [hashFind]
  refine (run_bind (t := s) rfl).trans ?_
  rw [if_neg hsize, if_pos ⟨hcow, haction⟩]
  refine (run_bind hres).trans ((run_bind (t := unflag s₁) rfl).trans ?_)
  refine Eq.symm ((run_bind (t := unflag s₁) rfl).trans ?_)
  have hsize' : (unflag s₁).table.size = s.table.size := hsize₁
  rw [hsize', if_neg hsize, if_neg hplain]

end Flagged

/-! ## The old chains

They are read from the store as it was when the resize began.  The insertions go on above it. -/

/-- The assignment in `hash_resize`: `hash_find(table, key, CREATE)->value = value`. -/
def put [Inhabited V] (F : HashFns K) (n : ℕ) (key : K) (value : V) : HashM K V Unit := do
  match ← hashFind F n key .create with
  | some a => setValue a value
  | none => fun _ => none

/-- The loop of `hash_resize` over the old buckets `is`. -/
def refill [Inhabited V] (F : HashFns K) (n fuel : ℕ) (old : Option Addr) (is : List ℕ) :
    HashM K V Unit :=
  is.forM fun i => do
    let kv ← readBucket old i
    copyChain (put F n) fuel kv

section Loop

variable [Inhabited V] {s₀ : Store K V} {m : K → Option V}

/-- Empty buckets have nothing to copy. -/
theorem refill_blank {t : Addr} {size : ℕ} (n fuel : ℕ)
    (ht : s.arrays[t]? = some (List.replicate size none)) :
    ∀ is : List ℕ, (∀ i ∈ is, i < size) → refill F n (fuel + 1) (some t) is s = some ((), s)
  | [], _ => rfl
  | i :: is, his => by
      have hi : (List.replicate size (none : Option Addr))[i]? = some none := by
        simp [his i (by simp)]
      refine (run_bind ((run_bind (readBucket_run ht hi)).trans rfl)).trans ?_
      exact refill_blank n fuel ht is fun j hj => his j (List.mem_cons_of_mem _ hj)

/-- **Resizing an empty table** gives a fresh array. -/
theorem hashResize_blank {t : Addr} (n size : ℕ) (ht : s.table.table = some t)
    (hblank : s.arrays[t]? = some (List.replicate s.table.size none)) :
    hashResize F (n + 1) size s = some ((), fresh s size) := by
  have htl : t < s.arrays.length := (List.getElem?_eq_some_iff.mp hblank).1
  rw [hashResize]
  refine (run_bind (t := s) rfl).trans ((run_bind (t := fresh s size) rfl).trans ?_)
  rw [ht]
  refine refill_blank (F := F) (s := fresh s size) n s.kvs.length ?_ _ fun i => List.mem_range.mp
  rw [fresh, List.getElem?_append_left htl, hblank]

/-- Inserting into a plain table above `s₀`. -/
theorem Above.put_run (hF : F.Lawful) (h : Above s₀ s) (hm : Holds F (Unused s₀) s m) (n : ℕ)
    (key : K) (v : V) :
    ∃ s', put F (n + 1) key v s = some ((), s') ∧ Filling F s₀ s' (setKey F m key (some v)) ∧
      s'.table.copyOnWrite = false ∧ s'.table.size = s.table.size ∧
      (Counts F m s.table.entries → Counts F (setKey F m key (some v)) s'.table.entries) := by
  obtain ⟨a, s₁, s₂, hfind, hval, hholds, hkeep, ht, hsize, hcount⟩ := hm.insert hF n key v
  have hplain : s₂.table.copyOnWrite = false := by
    obtain ⟨_, hr, -⟩ := hholds
    exact hr.plain
  refine ⟨s₂, (run_bind hfind).trans hval, ⟨h.keeps hkeep (Or.inl ht), ?_, fun hflag => ?_⟩, hplain,
    hsize, hcount⟩
  · rwa [unflag_of_plain hplain]
  · rw [hplain] at hflag
    cases hflag

/-- **Inserting into a table that is being filled**, with its flag or without. -/
theorem Filling.put_run (hF : F.Lawful) (h : Filling F s₀ s m) (n : ℕ) (key : K) (v : V) :
    ∃ s', put F (n + 3) key v s = some ((), s') ∧ Filling F s₀ s' (setKey F m key (some v)) ∧
      s'.table.copyOnWrite = false ∧ s'.table.size = s.table.size ∧
      (Counts F m s.table.entries → Counts F (setKey F m key (some v)) s'.table.entries) := by
  have hsize := h.size_pos
  cases hcow : s.table.copyOnWrite with
  | false =>
    have hholds := h.holds
    rw [unflag_of_plain hcow] at hholds
    exact h.above.put_run hF hholds (n + 2) key v
  | true =>
    obtain ⟨rfl, t, ht, hblank⟩ := h.blank hcow
    have habove : Above s₀ (fresh s s.table.size) :=
      fresh_above s.table.size h.above.kvs h.above.kvs_le h.above.arrays h.above.arrays_le
    obtain ⟨s', hput, hfilling, hplain, hsize', hcount⟩ := habove.unflag.put_run hF
      (fresh_holds hsize fun a ha => h.above.kvs_le.trans ha) (n + 2) key v
    have hres : hashResize F (n + 2) s.table.size s = some ((), fresh s s.table.size) :=
      hashResize_blank (n + 1) _ ht hblank
    have hfind : hashFind F (n + 3) key .create s =
        hashFind F (n + 3) key .create (unflag (fresh s s.table.size)) :=
      hashFind_flagged hsize.ne' hcow (by decide) hres rfl
    exact ⟨s', (bind_congr_run _ hfind).trans hput, hfilling, hplain, hsize', fun _ => hcount counts_empty⟩

/-- **One old chain.** -/
theorem copyChain_run (hF : F.Lawful) (n : ℕ) :
    ∀ {l : List (Entry K V)} {p : Option Addr} {fuel : ℕ} {s : Store K V} {m : K → Option V},
      Spells none (node s₀) p l → l.length < fuel → Filling F s₀ s m →
      ∃ s', copyChain (put F (n + 3)) fuel p s = some ((), s') ∧ Filling F s₀ s' (insertAll F m l) ∧
        (s'.table.copyOnWrite = true → s.table.copyOnWrite = true) ∧ s'.table.size = s.table.size ∧
        (Counts F m s.table.entries → Counts F (insertAll F m l) s'.table.entries)
  | [], _, fuel + 1, s, _, hp, _, hm => by
      obtain rfl := hp
      exact ⟨s, rfl, hm, id, rfl, id⟩
  | (a, k, v) :: l, _, fuel + 1, s, m, ⟨hp, next, hn, hl⟩, hlen, hm => by
      subst hp
      have hread : readNode a s = some (⟨k, v, next⟩, s) := by
        refine readNode_run (node_eq_some.mpr ?_)
        rw [hm.above.kvs a (node_lt (by simp [hn]))]
        exact node_eq_some.mp hn
      obtain ⟨s₁, hput, hm₁, hplain, hsize₁, hcount₁⟩ := hm.put_run hF n k v
      obtain ⟨s₂, hrest, hm₂, hcow, hsize₂, hcount₂⟩ := copyChain_run hF n hl (by simpa using hlen) hm₁
      exact ⟨s₂, (run_bind hread).trans ((run_bind hput).trans hrest), hm₂,
        fun hflag => absurd (hcow hflag) (by simp [hplain]), hsize₂.trans hsize₁, hcount₂ ∘ hcount₁⟩

/-- **All old chains.** -/
theorem refill_run (hF : F.Lawful) {chains : ℕ → List (Entry K V)} {t : Addr}
    {hs : List (Option Addr)} (n fuel : ℕ) (hhs : s₀.arrays[t]? = some hs) :
    ∀ (is : List ℕ) {s : Store K V} {m : K → Option V},
      (∀ i ∈ is, ∃ p, hs[i]? = some p ∧ Spells none (node s₀) p (chains i) ∧
        (chains i).length < fuel) →
      Filling F s₀ s m →
      ∃ s', refill F (n + 3) fuel (some t) is s = some ((), s') ∧
        Filling F s₀ s' (insertAll F m (is.flatMap chains)) ∧
        (s'.table.copyOnWrite = true → s.table.copyOnWrite = true) ∧ s'.table.size = s.table.size ∧
        (Counts F m s.table.entries → Counts F (insertAll F m (is.flatMap chains)) s'.table.entries)
  | [], s, _, _, hm => ⟨s, rfl, hm, id, rfl, id⟩
  | i :: is, s, m, hall, hm => by
      obtain ⟨p, hp, hsp, hlen⟩ := hall i (by simp)
      have ht : s.arrays[t]? = some hs :=
        (hm.above.arrays t (List.getElem?_eq_some_iff.mp hhs).1).trans hhs
      obtain ⟨s₁, hcopy, hm₁, hcow₁, hsize₁, hcount₁⟩ := copyChain_run hF n hsp hlen hm
      obtain ⟨s₂, hrest, hm₂, hcow₂, hsize₂, hcount₂⟩ := refill_run hF n fuel hhs is
        (fun j hj => hall j (List.mem_cons_of_mem _ hj)) hm₁
      refine ⟨s₂, (run_bind ((run_bind (readBucket_run ht hp)).trans hcopy)).trans hrest, ?_,
        hcow₁ ∘ hcow₂, hsize₂.trans hsize₁, ?_⟩
      · rw [List.flatMap_cons, insertAll_append]
        exact hm₂
      · rw [List.flatMap_cons, insertAll_append]
        exact hcount₂ ∘ hcount₁

end Loop

/-! ## hash_resize

The entries are inserted in the order of the old chains.  Their keys are unequal, so each of them is new when it
comes. -/

/-- The entries of the table, bucket after bucket. -/
theorem Represents.pairwise {own : Addr → Prop} {chains : ℕ → List (Entry K V)} (hF : F.Lawful)
    (h : Represents F own s chains) :
    ((List.range s.table.size).flatMap chains).Pairwise fun c d => ¬ Eqv F c.2.1 d.2.1 := by
  refine List.pairwise_flatMap.mpr ⟨fun i _ => h.distinct i, ?_⟩
  refine List.Pairwise.imp (fun {i j} hij c hc d hd hcd => ?_) List.nodup_range
  exact hij ((h.slot_eq hF hc (hF.refl _)).symm.trans
    ((h.placed i c hc ▸ h.slot_eq hF hd hcd)))

section Resize

variable [Inhabited V] {own : Addr → Prop} {m : K → Option V}

/-- **`hash_resize` keeps the map**, in an array and nodes of its own. -/
theorem Holds.resize_filling (hF : F.Lawful) (h : Holds F own (unflag s) m) (n : ℕ) {size : ℕ}
    (hsize : 0 < size) :
    ∃ s', hashResize F (n + 4) size s = some ((), s') ∧ Filling F s s' m ∧
      (s'.table.copyOnWrite = true → s.table.copyOnWrite = true) ∧ s'.table.size = size ∧
      Counts F m s'.table.entries := by
  obtain ⟨chains, hr, hm⟩ := h
  obtain ⟨t, hs, ht, hhs, -, hall⟩ := hr.heads
  have hhs' : s.arrays[t]? = some hs := hhs
  obtain ⟨s', hrun, hfilling, hcow, hsize', hcount⟩ := refill_run hF n (s.kvs.length + 1) hhs'
    (List.range s.table.size) (s := fresh s size)
    (fun i hi => by
      obtain ⟨p, hp, hsp⟩ := hall i (List.mem_range.mp hi)
      exact ⟨p, hp, hsp, chain_length_lt hsp⟩)
    (fresh_filling hsize)
  have hmap : insertAll F (fun _ => none) ((List.range s.table.size).flatMap chains) = m := by
    funext k
    refine Option.ext fun v => ?_
    have hpairwise : ((List.range s.table.size).flatMap chains).Pairwise
        fun c d => ¬ Eqv F c.2.1 d.2.1 :=
      Represents.pairwise (s := unflag s) hF hr
    rw [insertAll_eq_some_iff hF hpairwise rfl, hm k v]
    constructor
    · rintro ⟨c, hc, h⟩
      obtain ⟨i, -, hc⟩ := List.mem_flatMap.mp hc
      exact ⟨i, c, hc, h⟩
    · rintro ⟨i, c, hc, h⟩
      exact ⟨c, List.mem_flatMap.mpr ⟨i, List.mem_range.mpr (hr.lt_size hc), hc⟩, h⟩
  rw [hmap] at hfilling hcount
  refine ⟨s', ?_, hfilling, hcow, hsize', hcount counts_empty⟩
  rw [hashResize]
  refine (run_bind (t := s) rfl).trans ((run_bind (t := fresh s size) rfl).trans ?_)
  rw [show s.table.table = some t from ht]
  exact hrun

/-- **`hash_resize` of a plain table.** -/
theorem Holds.resize (hF : F.Lawful) (h : Holds F own s m) (n : ℕ) {size : ℕ} (hsize : 0 < size) :
    ∃ s', hashResize F (n + 4) size s = some ((), s') ∧ Holds F (Unused s) s' m ∧ Above s s' ∧
      Counts F m s'.table.entries := by
  have hplain : s.table.copyOnWrite = false := by
    obtain ⟨_, hr, -⟩ := h
    exact hr.plain
  rw [← unflag_of_plain hplain] at h
  obtain ⟨s', hrun, hfilling, hcow, -, hcount⟩ := h.resize_filling hF n hsize
  have hplain' : s'.table.copyOnWrite = false := by
    cases hflag : s'.table.copyOnWrite with
    | false => rfl
    | true => exact absurd (hcow hflag) (by simp [hplain])
  have hholds := hfilling.holds
  rw [unflag_of_plain hplain'] at hholds
  exact ⟨s', hrun, hholds, hfilling.above, hcount⟩

/-- **`hash_create`** makes the empty map. -/
theorem hashCreate_run : ∃ s', hashCreate F s = some ((), s') ∧
    s' = fresh { s with table := emptyTable } hashSize ∧
    ∀ own : Addr → Prop, (∀ a, s.kvs.length ≤ a → own a) → Holds F own s' fun _ => none :=
  ⟨_, rfl, rfl, fun _ hown => fresh_holds (s := { s with table := emptyTable }) (by decide) hown⟩

/-- Once its key is found and its value stored, `hash_set` is the test whether to grow. -/
theorem hashSet_run (R : LoadRule) {key : K} {v : V} {a : Addr} {s₁ s₂ : Store K V}
    (hfind : hashFind F nesting key .create s = some (some a, s₁)) (hval : setValue a v s₁ = some ((), s₂)) :
    hashSet F R key v s = (if R.overloaded s₂.table.entries s₂.table.size then
      hashResize F nesting (R.target s₂.table.entries + 1) else pure ()) s₂ :=
  (run_bind hfind).trans ((run_bind hval).trans (run_bind rfl))

/-- **`hash_set`** updates the map: in the array it has, or, when it grows, in a new one. -/
theorem Holds.set (hF : F.Lawful) (R : LoadRule) (h : Holds F own s m) (key : K) (v : V) :
    ∃ s', hashSet F R key v s = some ((), s') ∧ Holds F own s' (setKey F m key (some v)) ∧
      Keeps own s s' ∧ (s'.table.table = s.table.table ∨
        ∃ t, s'.table.table = some t ∧ s.arrays.length ≤ t) := by
  obtain ⟨a, s₁, s₂, hfind, hval, hm₂, hkeep, ht, -⟩ := h.insert hF 5 key v
  have hunused : ∀ a, s₂.kvs.length ≤ a → own a := by
    obtain ⟨_, hr, -⟩ := hm₂
    exact hr.unused
  rw [hashSet_run R hfind hval]
  split
  · obtain ⟨s', hres, ⟨chains, hr, hm⟩, habove, -⟩ := hm₂.resize hF 2 (Nat.succ_pos _)
    refine ⟨s', hres, ⟨chains, hr.weaken hunused, hm⟩, hkeep.trans ⟨fun a ha => ?_,
      habove.kvs_le, fun u _ => habove.arrays u, habove.arrays_le⟩ ht, Or.inr ?_⟩
    · exact habove.kvs a (Nat.lt_of_not_le fun hle => ha (hunused a hle))
    · obtain ⟨t, ht', hle⟩ := habove.table
      exact ⟨t, ht', hkeep.arrays_le.trans hle⟩
  · exact ⟨s₂, rfl, hm₂, hkeep, Or.inl ht⟩

/-! ## Writes to a copy-on-write table

The first write makes the copy, and then goes on as a write to a table without the flag. -/

/-- The copy that the first write makes. -/
theorem Holds.copied (hF : F.Lawful) (h : Holds F own (unflag s) m)
    (hcow : s.table.copyOnWrite = true) :
    ∃ s₁, Holds F (Unused s) s₁ m ∧ Above s s₁ ∧ Counts F m s₁.table.entries ∧ ∀ key action, action ≠ .read →
      hashFind F nesting key action s = hashFind F nesting key action s₁ := by
  have hsize : 0 < s.table.size := by
    obtain ⟨_, hr, -⟩ := h
    exact hr.size_pos
  obtain ⟨s₁, hres, hfilling, -, hsize₁, hcount⟩ := h.resize_filling hF 1 hsize
  exact ⟨unflag s₁, hfilling.holds, hfilling.above.unflag, hcount, fun key action haction =>
    hashFind_flagged hsize.ne' hcow haction hres hsize₁⟩

/-- **`hash_set` on a copy-on-write table** leaves everything that was there alone. -/
theorem Holds.set_flagged (hF : F.Lawful) (R : LoadRule) (h : Holds F own (unflag s) m)
    (hcow : s.table.copyOnWrite = true) (key : K) (v : V) :
    ∃ s', hashSet F R key v s = some ((), s') ∧
      Holds F (Unused s) s' (setKey F m key (some v)) ∧ Above s s' := by
  obtain ⟨s₁, hholds, habove, -, hfind⟩ := h.copied hF hcow
  obtain ⟨s', hrun, hholds', hkeep, ht⟩ := hholds.set hF R key v
  exact ⟨s', (bind_congr_run _ (hfind key .create (by decide))).trans hrun, hholds',
    habove.keeps hkeep ht⟩

/-- **`hash_erase` on a copy-on-write table** leaves everything that was there alone. -/
theorem Holds.erase_flagged (hF : F.Lawful) (h : Holds F own (unflag s) m)
    (hcow : s.table.copyOnWrite = true) (key : K) :
    ∃ s', hashErase F key s = some ((), s') ∧
      Holds F (Unused s) s' (setKey F m key none) ∧ Above s s' := by
  obtain ⟨s₁, hholds, habove, -, hfind⟩ := h.copied hF hcow
  obtain ⟨s', hrun, hholds', hkeep, ht⟩ := hholds.erase hF key
  exact ⟨s', (bind_congr_run _ (hfind key .delete (by decide))).trans hrun, hholds',
    habove.keeps hkeep (Or.inl (by rw [ht]))⟩

/-- **Setting a key to the value it has**: nothing happens, or the table grows. -/
theorem Holds.set_same (hF : F.Lawful) (R : LoadRule) (h : Holds F own s m) {key : K} {v : V}
    (hv : m key = some v) : hashSet F R key v s = some ((), s) ∨
      ∃ s', hashSet F R key v s = some ((), s') ∧ Holds F (Unused s) s' m ∧ Above s s' := by
  obtain ⟨a, hfind, hval⟩ := h.insert_same hF 5 hv
  rw [hashSet_run R hfind hval]
  split
  · obtain ⟨s', hres, hholds, habove, -⟩ := h.resize hF 2 (Nat.succ_pos _)
    exact Or.inr ⟨s', hres, hholds, habove⟩
  · exact Or.inl rfl

end Resize

end Insomniac.Hash

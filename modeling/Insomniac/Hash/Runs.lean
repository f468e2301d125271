import Insomniac.Hash.Resize
import Mathlib.Data.List.Induction

/-!
# Hash/Runs — every run of a table

`hash_create` followed by any sequence of operations.  What `hash_get` answers is a property of the
sequence alone (`LastSet`), and every state on the way is in order (`InOrder`).
-/

open Linked Run Bytes

namespace Insomniac.Hash

/-- A call on a table. -/
inductive Op (K V : Type)
  | set (key : K) (value : V)
  | erase (key : K)
  | get (key : K)

namespace Op

variable {K V : Type}

/-- The call, as the C code makes it; `hash_get`'s answer is dropped. -/
def run [Inhabited V] (F : HashFns K) (R : LoadRule) : Op K V → HashM K V Unit
  | set key value => hashSet F R key value
  | erase key => hashErase F key
  | get key => do let _ ← hashGet F key

/-- `hash_create`, then the calls in order. -/
def runAll [Inhabited V] (F : HashFns K) (R : LoadRule) (ops : List (Op K V)) : HashM K V Unit := do
  hashCreate F
  ops.forM (run F R)

/-- The call sets or erases a key that is the `same`. -/
def Touches (same : K → K → Prop) (k : K) : Op K V → Prop
  | set key _ => same k key
  | erase key => same k key
  | get _ => False

/-- **`v` is the value of the last `hash_set` of the key**, and no `hash_erase` of it followed. -/
def LastSet (same : K → K → Prop) (ops : List (Op K V)) (k : K) (v : V) : Prop :=
  ∃ before key after, ops = before ++ set key v :: after ∧ same k key ∧
    ∀ op ∈ after, ¬ op.Touches same k

/-- Some `hash_set` of the key was not followed by a `hash_erase` of it. -/
def SetAndKept (same : K → K → Prop) (ops : List (Op K V)) (k : K) : Prop :=
  ∃ before key v after, ops = before ++ set key v :: after ∧ same k key ∧
    ∀ key', same k key' → erase key' ∉ after

/-- Whether a key was set and kept is decided by its last set. -/
theorem setAndKept_iff (same : K → K → Prop) (ops : List (Op K V)) (k : K) :
    SetAndKept same ops k ↔ ∃ v, LastSet same ops k v := by
  constructor
  · rintro ⟨before, key, v, after, rfl, hkey, hafter⟩
    induction after using List.reverseRecOn with
    | nil => exact ⟨v, before, key, [], rfl, hkey, by simp⟩
    | append_singleton after op ih =>
      obtain ⟨w, before', key', after', he, hkey', hafter'⟩ := ih fun key' hk' hmem =>
        hafter key' hk' (List.mem_append_left _ hmem)
      by_cases htouch : op.Touches same k
      · cases op with
        | set key₂ v₂ =>
          exact ⟨v₂, before ++ set key v :: after, key₂, [], by simp, htouch, by simp⟩
        | erase key₂ => exact absurd (by simp) (hafter key₂ htouch)
        | get key₂ => exact htouch.elim
      · refine ⟨w, before', key', after' ++ [op], ?_, hkey', fun o ho => ?_⟩
        · rw [← List.cons_append, ← List.append_assoc, he, List.append_assoc, List.cons_append]
        · rcases List.mem_append.mp ho with ho | ho
          · exact hafter' o ho
          · exact List.mem_singleton.mp ho ▸ htouch
  · rintro ⟨v, before, key, after, rfl, hkey, hafter⟩
    exact ⟨before, key, v, after, rfl, hkey, fun key' hk' hmem => hafter _ hmem hk'⟩

/-- The last set after one more call. -/
theorem lastSet_concat_iff {same : K → K → Prop} {ops : List (Op K V)} {op : Op K V} {k : K}
    {v : V} : LastSet same (ops ++ [op]) k v ↔
      (∃ key, op = set key v ∧ same k key) ∨ (¬ op.Touches same k ∧ LastSet same ops k v) := by
  constructor
  · rintro ⟨before, key, after, he, hkey, hafter⟩
    rcases List.eq_nil_or_concat after with rfl | ⟨after, o, rfl⟩
    · obtain ⟨-, hop⟩ := List.append_inj' he rfl
      exact Or.inl ⟨key, by simpa using hop, hkey⟩
    · rw [List.concat_eq_append, ← List.cons_append, ← List.append_assoc] at he
      obtain ⟨rfl, hop⟩ := List.append_inj' he rfl
      obtain rfl : op = o := by simpa using hop
      refine Or.inr ⟨hafter op (by simp), before, key, after, rfl, hkey, fun o ho => ?_⟩
      exact hafter o (by simp [ho])
  · rintro (⟨key, rfl, hkey⟩ | ⟨htouch, before, key, after, rfl, hkey, hafter⟩)
    · exact ⟨ops, key, [], rfl, hkey, by simp⟩
    · refine ⟨before, key, after ++ [op], by simp, hkey, fun o ho => ?_⟩
      rcases List.mem_append.mp ho with ho | ho
      · exact hafter o ho
      · exact List.mem_singleton.mp ho ▸ htouch

/-- The map after a call. -/
def apply (F : HashFns K) (m : K → Option V) : Op K V → K → Option V
  | set key value => setKey F m key (some value)
  | erase key => setKey F m key none
  | get _ => m

/-- **The map after the calls is the last set of each key.** -/
theorem foldl_apply_eq_some_iff (F : HashFns K) (ops : List (Op K V)) (k : K) (v : V) :
    ops.foldl (apply F) (fun _ => none) k = some v ↔ LastSet (Eqv F) ops k v := by
  induction ops using List.reverseRecOn with
  | nil =>
    refine ⟨fun h => absurd h (by simp), ?_⟩
    rintro ⟨before, key, after, he, -⟩
    exact absurd he (by simp)
  | append_singleton ops op ih =>
    rw [List.foldl_append, List.foldl_cons, List.foldl_nil, lastSet_concat_iff, ← ih]
    cases op with
    | set key w =>
      by_cases hk : Eqv F k key
      · rw [apply, setKey, if_pos hk]
        constructor
        · intro h
          exact Or.inl ⟨key, by rw [Option.some.inj h], hk⟩
        · rintro (⟨key', he, -⟩ | ⟨htouch, -⟩)
          · rw [(Op.set.inj he).2]
          · exact absurd hk htouch
      · rw [apply, setKey, if_neg hk]
        constructor
        · exact fun h => Or.inr ⟨hk, h⟩
        · rintro (⟨key', he, hk'⟩ | ⟨-, h⟩)
          · exact absurd ((Op.set.inj he).1 ▸ hk') hk
          · exact h
    | erase key =>
      by_cases hk : Eqv F k key
      · simp [apply, setKey, Touches, hk]
      · simp [apply, setKey, Touches, hk]
    | get key => simp [apply, Touches]

end Op

variable {K V : Type} {F : HashFns K}

/-- **A table in order**, read off the memory: `size` is at least 1, each bucket's head spells a
chain whose entries hash to that bucket, and no two entries have keys that are the `same`. -/
def InOrder (F : HashFns K) (same : K → K → Prop) (s : Store K V) : Prop :=
  1 ≤ s.table.size ∧ ∃ chains : ℕ → List (Entry K V),
    (∃ t heads, s.table.table = some t ∧ s.arrays[t]? = some heads ∧
      heads.length = s.table.size ∧
      ∀ i < s.table.size, ∃ p, heads[i]? = some p ∧ Spells none (node s) p (chains i)) ∧
    (∀ i < s.table.size, ∀ c ∈ chains i, (F.calcHash c.2.1).toNat % s.table.size = i) ∧
    ∀ i < s.table.size, ∀ j < s.table.size, ∀ c ∈ chains i, ∀ d ∈ chains j,
      same c.2.1 d.2.1 → c = d

/-- A table that holds a map is in order. -/
theorem Holds.inOrder (hF : F.Lawful) {own : Addr → Prop} {s : Store K V} {m : K → Option V}
    (h : Holds F own s m) : InOrder F (Eqv F) s := by
  obtain ⟨chains, hr, -⟩ := h
  exact ⟨hr.size_pos, chains, hr.heads, fun i _ => hr.placed i,
    fun _ _ _ _ _ hc _ hd => hr.key_inj hF hc hd⟩

/-- **One call**: it ends, and the table holds the map after it. -/
theorem Op.run_holds [Inhabited V] (hF : F.Lawful) (R : LoadRule) {own : Addr → Prop}
    {s : Store K V} {m : K → Option V} (h : Holds F own s m) (op : Op K V) :
    ∃ s', op.run F R s = some ((), s') ∧ Holds F own s' (op.apply F m) := by
  cases op with
  | set key value =>
    obtain ⟨s', hrun, h', -⟩ := h.set hF R key value
    exact ⟨s', hrun, h'⟩
  | erase key =>
    obtain ⟨s', hrun, h', -⟩ := h.erase hF key
    exact ⟨s', hrun, h'⟩
  | get key => exact ⟨s, run_bind (h.get hF key), h⟩

/-- **Any calls.** -/
theorem Op.forM_holds [Inhabited V] (hF : F.Lawful) (R : LoadRule) {own : Addr → Prop} :
    ∀ (ops : List (Op K V)) {s : Store K V} {m : K → Option V}, Holds F own s m →
      ∃ s', ops.forM (Op.run F R) s = some ((), s') ∧ Holds F own s' (ops.foldl (Op.apply F) m)
  | [], s, _, h => ⟨s, rfl, h⟩
  | op :: ops, _, _, h => by
      obtain ⟨s₁, hrun, h₁⟩ := Op.run_holds hF R h op
      obtain ⟨s₂, hrest, h₂⟩ := Op.forM_holds hF R ops h₁
      exact ⟨s₂, (run_bind hrun).trans hrest, h₂⟩

/-- The table behaves as a finite map over keys that are the `same`, whatever its load rule: every
sequence of calls runs to its end, leaves the table in order, and `hash_get` then answers with the
last set of its key. -/
def IsFiniteMap (F : HashFns K) (same : K → K → Prop) (V : Type) [Inhabited V] : Prop :=
  ∀ (R : LoadRule) (ops : List (Op K V)) (s : Store K V),
    ∃ s', Op.runAll F R ops s = some ((), s') ∧ InOrder F same s' ∧
      ∀ k, ∃ r, hashGet F k s' = some (r, s') ∧ (r.isSome ↔ Op.SetAndKept same ops k) ∧
        ∀ v, r = some v ↔ Op.LastSet same ops k v

/-- **A table is a finite map**, for any lawful kind of key. -/
theorem isFiniteMap_eqv [Inhabited V] (hF : F.Lawful) : IsFiniteMap F (Eqv F) V := by
  intro R ops s
  obtain ⟨s₁, hcreate, -, h₁⟩ := hashCreate_run (F := F) (s := s)
  obtain ⟨s₂, hrun, h₂⟩ := Op.forM_holds hF R ops (h₁ (fun _ => True) fun _ _ => trivial)
  refine ⟨s₂, (run_bind hcreate).trans hrun, h₂.inOrder hF, fun k => ⟨_, h₂.get hF k, ?_, ?_⟩⟩
  · rw [Op.setAndKept_iff, Option.isSome_iff_exists]
    exact exists_congr fun v => Op.foldl_apply_eq_some_iff F ops k v
  · exact fun v => Op.foldl_apply_eq_some_iff F ops k v

/-- **A hash table is a finite map**: over strings compared byte by byte up to their `NUL`, and over
pointers compared by identity. -/
theorem hash_table_is_finite_map (V : Type) [Inhabited V] :
    IsFiniteMap stringFns (fun k l => cstr k = cstr l) V ∧ IsFiniteMap pointerFns Eq V := by
  have hstring : Eqv stringFns = fun k l => cstr k = cstr l :=
    funext₂ fun k l => propext (hashStringCmp_eq_iff k l)
  have hpointer : Eqv pointerFns = Eq := funext₂ fun k l => propext (hashPointerCmp_eq_iff k l)
  refine ⟨?_, ?_⟩
  · rw [← hstring]
    exact isFiniteMap_eqv stringFns_lawful
  · rw [← hpointer]
    exact isFiniteMap_eqv pointerFns_lawful

end Insomniac.Hash

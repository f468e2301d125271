import Insomniac.Machinery.Run
import Insomniac.Hash.Keys

/-!
# Hash/FiniteMap — the table is a finite map

`Represents F own s chains` is the shape of a table between operations: the heads of its array spell
`chains`, every entry sits in the bucket of its hash, no two keys of a bucket compare `EQ`, and the
table's nodes are among the addresses it may `own`.  `Holds F own s m` adds the map `m` the entries
denote.

    hash_find CREATE ≙ Function.update        hash_erase ≙ removal        hash_resize ≙ identity

A resize refills the table through `hash_find` itself, so `hash_resize`'s theorem is the insertion
theorem iterated over the old chains (`copyChain_holds`, `refill_holds`).
-/

open Linked Run

namespace Insomniac.Hash

variable {K V : Type}

/-- An entry of a chain: the node's address, its key and its value. -/
abbrev Entry (K V : Type) := Addr × K × V

/-- The content and link of the node at an address. -/
def node (s : Store K V) (a : Addr) : Option ((K × V) × Option Addr) :=
  s.kvs[a]?.map fun kv => ((kv.key, kv.value), kv.next)

/-- A node with its key, its value and what is behind it. -/
theorem node_eq_some {s : Store K V} {a : Addr} {k : K} {v : V} {n : Option Addr} :
    node s a = some ((k, v), n) ↔ s.kvs[a]? = some ⟨k, v, n⟩ := by
  unfold node
  constructor
  · intro h
    obtain ⟨⟨k', v', n'⟩, hkv, he⟩ := Option.map_eq_some_iff.mp h
    obtain ⟨⟨rfl, rfl⟩, rfl⟩ : (k' = k ∧ v' = v) ∧ n' = n := by simpa using he
    exact hkv
  · intro h
    rw [h]
    rfl

/-- An address with a node is one of the store. -/
theorem node_lt {s : Store K V} {a : Addr} (h : node s a ≠ none) : a < s.kvs.length := by
  by_contra hlt
  exact h (by simp [node, List.getElem?_eq_none (not_lt.mp hlt)])

/-- A chain ends at a null pointer. -/
theorem ends_none {get : Addr → Option ((K × V) × Option Addr)} : Ends none get :=
  fun _ h => absurd h (by simp)

variable (F : HashFns K)

/-- `hash_cmp` says the keys are equal. -/
abbrev Eqv (k l : K) : Prop := F.compare k l = .eq

/-- The bucket of a key in a table of `size` buckets. -/
def slot (size : ℕ) (k : K) : ℕ := (F.calcHash k).toNat % size

/-- **The shape of a table between operations.** -/
structure Represents (own : Addr → Prop) (s : Store K V) (chains : ℕ → List (Entry K V)) : Prop where
  size_pos : 0 < s.table.size
  plain : s.table.copyOnWrite = false
  heads : ∃ t hs, s.table.table = some t ∧ s.arrays[t]? = some hs ∧ hs.length = s.table.size ∧
    ∀ i < s.table.size, ∃ p, hs[i]? = some p ∧ Spells none (node s) p (chains i)
  placed : ∀ i, ∀ c ∈ chains i, slot F s.table.size c.2.1 = i
  distinct : ∀ i, (chains i).Pairwise fun c d => ¬ Eqv F c.2.1 d.2.1
  owned : ∀ i, ∀ c ∈ chains i, own c.1
  unused : ∀ a, s.kvs.length ≤ a → own a

/-- The map that the entries of `chains` denote. -/
def Denotes (chains : ℕ → List (Entry K V)) (m : K → Option V) : Prop :=
  ∀ k v, m k = some v ↔ ∃ i, ∃ c ∈ chains i, Eqv F k c.2.1 ∧ c.2.2 = v

/-- **The table holds the map `m`.** -/
def Holds (own : Addr → Prop) (s : Store K V) (m : K → Option V) : Prop :=
  ∃ chains, Represents F own s chains ∧ Denotes F chains m

/-- What an operation on the table leaves alone: nodes it does not own, and the other arrays. -/
structure Keeps (own : Addr → Prop) (s s' : Store K V) : Prop where
  kvs : ∀ a, ¬ own a → s'.kvs[a]? = s.kvs[a]?
  kvs_le : s.kvs.length ≤ s'.kvs.length
  arrays : ∀ u, s.table.table ≠ some u → u < s.arrays.length → s'.arrays[u]? = s.arrays[u]?
  arrays_le : s.arrays.length ≤ s'.arrays.length

theorem Keeps.refl (own : Addr → Prop) (s : Store K V) : Keeps own s s :=
  ⟨fun _ _ => rfl, le_rfl, fun _ _ _ => rfl, le_rfl⟩

/-- What is kept twice is kept. -/
theorem Keeps.trans {own : Addr → Prop} {s s' s'' : Store K V} (h : Keeps own s s') (h' : Keeps own s' s'')
    (ht : s'.table.table = s.table.table) : Keeps own s s'' where
  kvs a ha := (h'.kvs a ha).trans (h.kvs a ha)
  kvs_le := h.kvs_le.trans h'.kvs_le
  arrays u hu hlt :=
    (h'.arrays u (ht ▸ hu) (hlt.trans_le h.arrays_le)).trans (h.arrays u hu hlt)
  arrays_le := h.arrays_le.trans h'.arrays_le

/-- `m` with the value of one key, and of all keys equal to it, replaced. -/
def setKey (m : K → Option V) (k : K) (v : Option V) : K → Option V := fun l =>
  if Eqv F l k then v else m l

/-- **The map has `n` keys**, told apart by `hash_cmp`. -/
def Counts (m : K → Option V) (n : ℕ) : Prop :=
  ∃ keys : List K, keys.Pairwise (fun k l => ¬ Eqv F k l) ∧ (∀ k, (m k).isSome ↔ ∃ l ∈ keys, Eqv F k l) ∧
    keys.length = n

namespace Represents

variable {F} {own : Addr → Prop} {s : Store K V} {chains : ℕ → List (Entry K V)}

/-- The chain of a bucket in range. -/
theorem spells (h : Represents F own s chains) {i : ℕ} {t : Addr} {hs : List (Option Addr)}
    (ht : s.table.table = some t) (hhs : s.arrays[t]? = some hs) (hi : i < s.table.size) :
    ∃ p, hs[i]? = some p ∧ Spells none (node s) p (chains i) := by
  obtain ⟨t', hs', ht', hhs', -, hall⟩ := h.heads
  obtain rfl : t' = t := Option.some.inj (ht'.symm.trans ht)
  obtain rfl : hs' = hs := Option.some.inj (hhs'.symm.trans hhs)
  exact hall i hi

/-- The bucket of an entry is one of the table. -/
theorem lt_size (h : Represents F own s chains) {i : ℕ} {c : Entry K V} (hc : c ∈ chains i) :
    i < s.table.size := by
  rw [← h.placed i c hc]
  exact Nat.mod_lt _ h.size_pos

/-- So is the bucket of any key. -/
theorem slot_lt (h : Represents F own s chains) (k : K) : slot F s.table.size k < s.table.size :=
  Nat.mod_lt _ h.size_pos

/-- An entry is what its node holds. -/
theorem node_of_mem (h : Represents F own s chains) {i : ℕ} {c : Entry K V} (hc : c ∈ chains i) :
    ∃ n, node s c.1 = some (c.2, n) := by
  obtain ⟨t, hs, ht, hhs, -, hall⟩ := h.heads
  obtain ⟨p, -, hp⟩ := hall i (h.lt_size hc)
  exact hp.get_of_mem hc

/-- The address of an entry is one of the store. -/
theorem addr_lt (h : Represents F own s chains) {i : ℕ} {c : Entry K V} (hc : c ∈ chains i) :
    c.1 < s.kvs.length := by
  obtain ⟨n, hn⟩ := h.node_of_mem hc
  exact node_lt (by simp [hn])

/-- **A node lies on one chain only** — its key hashes to one bucket. -/
theorem bucket_eq (h : Represents F own s chains) {i j : ℕ} {c d : Entry K V} (hc : c ∈ chains i)
    (hd : d ∈ chains j) (hcd : c.1 = d.1) : i = j := by
  obtain ⟨n, hn⟩ := h.node_of_mem hc
  obtain ⟨n', hn'⟩ := h.node_of_mem hd
  rw [hcd] at hn
  have hkv : c.2 = d.2 := by
    have := hn.symm.trans hn'
    simp only [Option.some.injEq, Prod.mk.injEq] at this
    exact this.1
  rw [← h.placed i c hc, ← h.placed j d hd, hkv]

/-- Equal keys sit in one bucket. -/
theorem slot_eq (hF : F.Lawful) (h : Represents F own s chains) {k : K} {i : ℕ} {c : Entry K V}
    (hc : c ∈ chains i) (hk : Eqv F k c.2.1) : slot F s.table.size k = i := by
  rw [← h.placed i c hc, slot, slot, hF.hash_eq hk]

/-- **No two entries of the table have equal keys.** -/
theorem key_inj (hF : F.Lawful) (h : Represents F own s chains) {i j : ℕ} {c d : Entry K V}
    (hc : c ∈ chains i) (hd : d ∈ chains j) (hcd : Eqv F c.2.1 d.2.1) : c = d := by
  obtain rfl : i = j := (h.placed i c hc).symm.trans (h.slot_eq hF hd hcd)
  have : Std.Symm fun c d : Entry K V => Eqv F c.2.1 d.2.1 → c = d :=
    ⟨fun _ _ hs hds => (hs (hF.symm hds)).symm⟩
  exact List.Pairwise.forall_of_forall (R := fun c d : Entry K V => Eqv F c.2.1 d.2.1 → c = d)
    (fun _ _ _ => rfl) ((h.distinct i).imp fun hn he => absurd he hn) hc hd hcd

/-- Growing the store changes nothing. -/
theorem weaken {own' : Addr → Prop} (h : Represents F own s chains) (hown : ∀ a, own a → own' a) :
    Represents F own' s chains :=
  { h with
    owned := fun i c hc => hown c.1 (h.owned i c hc)
    unused := fun a ha => hown a (h.unused a ha) }

end Represents

/-! ## Walking a chain

`hash_find` goes down a chain with the node in front of it in hand.  The walk ends at the first key that
compares `EQ`, and in a table there is at most one. -/

variable {F} {own : Addr → Prop} {s : Store K V} {chains : ℕ → List (Entry K V)}

/-- The node the walk came from: the last of the nodes it passed. -/
def lastAddr : (prev : Option Addr) → List (Entry K V) → Option Addr
  | prev, [] => prev
  | _, d :: l => lastAddr (some d.1) l

/-- The last address of a chain with one more entry. -/
@[simp] theorem lastAddr_concat (prev : Option Addr) (l : List (Entry K V)) (d : Entry K V) :
    lastAddr prev (l ++ [d]) = some d.1 := by
  induction l generalizing prev with
  | nil => rfl
  | cons e l ih => exact ih (some e.1)

theorem readNode_run {a : Addr} {k : K} {v : V} {n : Option Addr}
    (h : node s a = some ((k, v), n)) : readNode a s = some (⟨k, v, n⟩, s) := by
  rw [readNode, node_eq_some.mp h]
  rfl

/-- **The walk finds the first equal key, or runs off the chain.** -/
theorem walkChain_run (key : K) : ∀ {l : List (Entry K V)} {p : Option Addr} (prev : Option Addr)
    {n : ℕ},
    Spells none (node s) p l → l.length < n →
    ((∀ c ∈ l, ¬ Eqv F key c.2.1) ∧ walkChain F key n prev p s = some (none, s)) ∨
    ∃ l₁ c l₂, l = l₁ ++ c :: l₂ ∧ Eqv F key c.2.1 ∧
      walkChain F key n prev p s = some (some (lastAddr prev l₁, c.1), s)
  | [], _, _, n + 1, hp, _ => by
      obtain rfl := hp
      exact Or.inl ⟨by simp, rfl⟩
  | (a, k, v) :: l, _, prev, n + 1, ⟨hp, next, hn, hl⟩, hlen => by
      subst hp
      have hstep : walkChain F key (n + 1) prev (some a) s =
          (if F.compare key k = .eq then pure (some (prev, a))
            else walkChain F key n (some a) next) s := run_bind (readNode_run hn)
      by_cases hk : F.compare key k = .eq
      · rw [if_pos hk] at hstep
        exact Or.inr ⟨[], (a, k, v), l, rfl, hk, hstep⟩
      · rw [if_neg hk] at hstep
        have hlen' : l.length < n := by simpa using hlen
        rcases walkChain_run key (some a) hl hlen' with
          ⟨hall, hrun⟩ | ⟨l₁, c, l₂, rfl, hc, hrun⟩
        · refine Or.inl ⟨fun c hc => ?_, hstep.trans hrun⟩
          rcases List.mem_cons.mp hc with rfl | hc
          · exact hk
          · exact hall c hc
        · exact Or.inr ⟨(a, k, v) :: l₁, c, l₂, rfl, hc, hstep.trans hrun⟩

/-- A chain is shorter than the fuel its walk is given. -/
theorem chain_length_lt {l : List (Entry K V)} {p : Option Addr}
    (hp : Spells none (node s) p l) : l.length < s.kvs.length + 1 :=
  Nat.lt_succ_of_le (hp.length_le ends_none fun _ => node_lt)

/-! ## Finding a key

One outcome for each of the three actions, on the chain of the bucket. -/

theorem readBucket_run {t : Addr} {hs : List (Option Addr)} {i : ℕ} {p : Option Addr}
    (ht : s.arrays[t]? = some hs) (hp : hs[i]? = some p) :
    readBucket (some t) i s = some (p, s) := by
  simp [readBucket, ht, hp]

/-- The store with the copy-on-write flag of its table dropped. -/
def unflag (s : Store K V) : Store K V :=
  { s with table := { s.table with copyOnWrite := false } }

/-- A table without the flag stays as it is. -/
theorem unflag_of_plain (h : s.table.copyOnWrite = false) : unflag s = s := by
  unfold unflag
  rw [← h]

/-- **`hash_find` without a copy**: it walks the bucket of the key, and ends on the outcome. -/
theorem Represents.hashFind_run_of [Inhabited V] (h : Represents F own (unflag s) chains) (n : ℕ)
    (key : K) {action : Action} (haction : ¬ (s.table.copyOnWrite = true ∧ action ≠ .read)) :
    ((∀ c ∈ chains (slot F s.table.size key), ¬ Eqv F key c.2.1) ∧
      hashFind F (n + 1) key action s = finishFind key action (slot F s.table.size key) none s) ∨
    ∃ l₁ c l₂, chains (slot F s.table.size key) = l₁ ++ c :: l₂ ∧ Eqv F key c.2.1 ∧
      hashFind F (n + 1) key action s =
        finishFind key action (slot F s.table.size key) (some (lastAddr none l₁, c.1)) s := by
  obtain ⟨t, hs, ht, hhs, hlen, hall⟩ := h.heads
  obtain ⟨p, hp, hsp⟩ := hall _ (h.slot_lt key)
  have hrun : hashFind F (n + 1) key action s =
      (walkChain F key (s.kvs.length + 1) none p >>=
        finishFind key action (slot F s.table.size key)) s := by
    have hsize : s.table.size ≠ 0 := h.size_pos.ne'
    rw [hashFind]
    refine (run_bind (t := s) rfl).trans ?_
    rw [if_neg hsize, if_neg haction]
    refine (run_bind (t := s) rfl).trans ?_
    exact run_bind (by rw [show s.table.table = some t from ht]; exact readBucket_run hhs hp)
  have hspells : Spells none (node s) p (chains (slot F s.table.size key)) := hsp
  rcases walkChain_run (F := F) key none hspells (chain_length_lt hspells) with
    ⟨hno, hw⟩ | ⟨l₁, c, l₂, hl, hc, hw⟩
  · exact Or.inl ⟨hno, hrun.trans (run_bind hw)⟩
  · exact Or.inr ⟨l₁, c, l₂, hl, hc, hrun.trans (run_bind hw)⟩

/-- **`hash_find` on a plain table.** -/
theorem Represents.hashFind_run [Inhabited V] (h : Represents F own s chains) (n : ℕ) (key : K)
    (action : Action) :
    ((∀ c ∈ chains (slot F s.table.size key), ¬ Eqv F key c.2.1) ∧
      hashFind F (n + 1) key action s = finishFind key action (slot F s.table.size key) none s) ∨
    ∃ l₁ c l₂, chains (slot F s.table.size key) = l₁ ++ c :: l₂ ∧ Eqv F key c.2.1 ∧
      hashFind F (n + 1) key action s =
        finishFind key action (slot F s.table.size key) (some (lastAddr none l₁, c.1)) s := by
  have hflag : Represents F own (unflag s) chains := by rwa [unflag_of_plain h.plain]
  exact hflag.hashFind_run_of n key (by simp [h.plain])

/-! ## Editing one bucket

The chain of one bucket is replaced and the others are not touched; what the table has is then what the new
chain has, and what the others had. -/

/-- The entries of a table after one bucket has been replaced. -/
theorem exists_mem_update {i : ℕ} {l : List (Entry K V)} {c : Entry K V} :
    (∃ j, c ∈ Function.update chains i l j) ↔ c ∈ l ∨ ∃ j, j ≠ i ∧ c ∈ chains j := by
  constructor
  · rintro ⟨j, hj⟩
    by_cases hji : j = i
    · subst hji
      exact Or.inl (by simpa using hj)
    · exact Or.inr ⟨j, hji, by simpa [Function.update_of_ne hji] using hj⟩
  · rintro (hc | ⟨j, hji, hc⟩)
    · exact ⟨i, by simpa using hc⟩
    · exact ⟨j, by simpa [Function.update_of_ne hji] using hc⟩

/-- **A store that differs in one bucket** represents the chains that differ there. -/
theorem Represents.edit (h : Represents F own s chains) {s' : Store K V} {i : ℕ}
    {l : List (Entry K V)} {t : Addr} {hs g : List (Option Addr)} {p : Option Addr}
    (ht : s.table.table = some t) (hhs : s.arrays[t]? = some hs)
    (ht' : s'.table.table = some t) (hhs' : s'.arrays[t]? = some g)
    (hsize : s'.table.size = s.table.size) (hcow : s'.table.copyOnWrite = s.table.copyOnWrite)
    (hlen : g.length = hs.length) (hp : g[i]? = some p) (hl : Spells none (node s') p l)
    (hheads : ∀ j, j ≠ i → g[j]? = hs[j]?)
    (hnode : ∀ j, j ≠ i → ∀ c ∈ chains j, node s' c.1 = node s c.1)
    (hplaced : ∀ c ∈ l, slot F s.table.size c.2.1 = i)
    (hdistinct : l.Pairwise fun c d => ¬ Eqv F c.2.1 d.2.1)
    (hown : ∀ c ∈ l, own c.1) (hkvs : s.kvs.length ≤ s'.kvs.length) :
    Represents F own s' (Function.update chains i l) where
  size_pos := hsize ▸ h.size_pos
  plain := hcow.trans h.plain
  heads := by
    obtain ⟨t₀, hs₀, ht₀, hhs₀, hlen₀, hall⟩ := h.heads
    obtain rfl : t₀ = t := Option.some.inj (ht₀.symm.trans ht)
    obtain rfl : hs₀ = hs := Option.some.inj (hhs₀.symm.trans hhs)
    refine ⟨t₀, g, ht', hhs', hlen.trans (hlen₀.trans hsize.symm), fun j hj => ?_⟩
    by_cases hji : j = i
    · subst hji
      exact ⟨p, hp, by simpa using hl⟩
    · obtain ⟨q, hq, hsq⟩ := hall j (hsize ▸ hj)
      refine ⟨q, (hheads j hji).trans hq, ?_⟩
      rw [Function.update_of_ne hji]
      exact hsq.congr fun c hc => hnode j hji c hc
  placed j c hc := by
    rw [hsize]
    by_cases hji : j = i
    · subst hji
      exact hplaced c (by simpa using hc)
    · exact h.placed j c (by simpa [Function.update_of_ne hji] using hc)
  distinct j := by
    by_cases hji : j = i
    · subst hji
      simpa using hdistinct
    · simpa [Function.update_of_ne hji] using h.distinct j
  owned j c hc := by
    by_cases hji : j = i
    · subst hji
      exact hown c (by simpa using hc)
    · exact h.owned j c (by simpa [Function.update_of_ne hji] using hc)
  unused a ha := h.unused a (hkvs.trans ha)

/-- Off the key of an edit, the entries denote what they did. -/
theorem Denotes.off_key (hF : F.Lawful) {chains' : ℕ → List (Entry K V)} {m : K → Option V}
    {key l : K} {w : V} (hm : Denotes F chains m) (hlk : ¬ Eqv F l key)
    (hrest : ∀ d : Entry K V, ¬ Eqv F key d.2.1 → ((∃ i, d ∈ chains' i) ↔ ∃ i, d ∈ chains i)) :
    m l = some w ↔ ∃ i, ∃ c ∈ chains' i, Eqv F l c.2.1 ∧ c.2.2 = w := by
  have hne : ∀ d : Entry K V, Eqv F l d.2.1 → ¬ Eqv F key d.2.1 := fun d hd hkd =>
    hlk (hF.trans hd (hF.symm hkd))
  rw [hm l w]
  constructor
  · rintro ⟨i, d, hd, hld, hdw⟩
    obtain ⟨i', hd'⟩ := (hrest d (hne d hld)).mpr ⟨i, hd⟩
    exact ⟨i', d, hd', hld, hdw⟩
  · rintro ⟨i, d, hd, hld, hdw⟩
    obtain ⟨i', hd'⟩ := (hrest d (hne d hld)).mp ⟨i, hd⟩
    exact ⟨i', d, hd', hld, hdw⟩

/-- **The entries of a table that gained one** denote the updated map. -/
theorem Represents.denotes_set (hF : F.Lawful) {s' : Store K V}
    {chains' : ℕ → List (Entry K V)} {m : K → Option V} {key : K} {v : V} {j : ℕ}
    {c : Entry K V} (h : Represents F own s' chains') (hm : Denotes F chains m)
    (hc : c ∈ chains' j) (hk : Eqv F key c.2.1) (hv : c.2.2 = v)
    (hrest : ∀ d : Entry K V, ¬ Eqv F key d.2.1 → ((∃ i, d ∈ chains' i) ↔ ∃ i, d ∈ chains i)) :
    Denotes F chains' (setKey F m key (some v)) := by
  intro l w
  by_cases hlk : Eqv F l key
  · rw [setKey, if_pos hlk]
    constructor
    · intro hvw
      exact ⟨j, c, hc, hF.trans hlk hk, hv.trans (Option.some.inj hvw)⟩
    · rintro ⟨i, d, hd, hld, hdw⟩
      obtain rfl := h.key_inj hF hc hd (hF.trans (hF.symm (hF.trans hlk hk)) hld)
      rw [← hdw, hv]
  · rw [setKey, if_neg hlk]
    exact hm.off_key hF hlk hrest

/-- **The entries of a table that lost the one of a key** denote the map without it. -/
theorem Denotes.erase (hF : F.Lawful)
    {chains' : ℕ → List (Entry K V)} {m : K → Option V} {key : K}
    (hm : Denotes F chains m) (hno : ∀ i, ∀ c ∈ chains' i, ¬ Eqv F key c.2.1)
    (hrest : ∀ d : Entry K V, ¬ Eqv F key d.2.1 → ((∃ i, d ∈ chains' i) ↔ ∃ i, d ∈ chains i)) :
    Denotes F chains' (setKey F m key none) := by
  intro l w
  by_cases hlk : Eqv F l key
  · rw [setKey, if_pos hlk]
    refine ⟨fun h => absurd h (by simp), ?_⟩
    rintro ⟨i, d, hd, hld, -⟩
    exact absurd (hF.trans (hF.symm hlk) hld) (hno i d hd)
  · rw [setKey, if_neg hlk]
    exact hm.off_key hF hlk hrest

/-- Equal keys have equal values. -/
theorem Denotes.congr (hF : F.Lawful) {m : K → Option V} (hm : Denotes F chains m) {k l : K}
    (hkl : Eqv F k l) : m k = m l := by
  refine Option.ext fun v => (hm k v).trans (Iff.trans ?_ (hm l v).symm)
  constructor
  · rintro ⟨i, c, hc, hk, hv⟩
    exact ⟨i, c, hc, hF.trans (hF.symm hkl) hk, hv⟩
  · rintro ⟨i, c, hc, hl, hv⟩
    exact ⟨i, c, hc, hF.trans hkl hl, hv⟩

/-- Setting a key to what it is. -/
theorem Denotes.setKey_same (hF : F.Lawful) {m : K → Option V} (hm : Denotes F chains m) {key : K}
    {v : Option V} (hv : m key = v) : setKey F m key v = m := by
  funext l
  unfold setKey
  split
  · next hl => rw [hm.congr hF hl, hv]
  · rfl

/-- No other bucket holds a key equal to one of this bucket. -/
theorem Represents.absent (hF : F.Lawful) (h : Represents F own s chains) {key : K}
    (hno : ∀ c ∈ chains (slot F s.table.size key), ¬ Eqv F key c.2.1) :
    ∀ i, ∀ c ∈ chains i, ¬ Eqv F key c.2.1 := fun i c hc hk => by
  obtain rfl := h.slot_eq hF hc hk
  exact hno c hc hk

/-- A key that no entry has is not in the map. -/
theorem Denotes.none_of_absent {m : K → Option V} (hm : Denotes F chains m) {key : K}
    (hno : ∀ i, ∀ c ∈ chains i, ¬ Eqv F key c.2.1) : m key = none :=
  Option.eq_none_iff_forall_not_mem.mpr fun v hv => by
    obtain ⟨i, c, hc, hk, -⟩ := (hm key v).mp hv
    exact hno i c hc hk

/-! ## Counting keys

The counter is the number of entries in all of the buckets, and a key is in one bucket only. -/

/-- The empty map has no keys. -/
theorem counts_empty : Counts F (fun _ : K => (none : Option V)) 0 :=
  ⟨[], List.Pairwise.nil, by simp, rfl⟩

/-- A key more. -/
theorem Counts.set_new {m : K → Option V} {n : ℕ} (h : Counts F m n) {key : K} (v : V)
    (hnone : m key = none) : Counts F (setKey F m key (some v)) (n + 1) := by
  obtain ⟨keys, hdistinct, hkeys, rfl⟩ := h
  refine ⟨key :: keys, List.pairwise_cons.mpr ⟨fun l hl hkl => ?_, hdistinct⟩, fun k => ?_, rfl⟩
  · have hsome := (hkeys key).mpr ⟨l, hl, hkl⟩
    rw [hnone] at hsome
    cases hsome
  · unfold setKey
    split
    · next hk => exact ⟨fun _ => ⟨key, List.mem_cons_self, hk⟩, fun _ => rfl⟩
    · next hk => simp [hk, hkeys k]

/-- A key that is there already. -/
theorem Counts.set_old (hF : F.Lawful) {m : K → Option V} {n : ℕ} (h : Counts F m n) {key : K} (v : V)
    (hsome : (m key).isSome) : Counts F (setKey F m key (some v)) n := by
  obtain ⟨keys, hdistinct, hkeys, rfl⟩ := h
  refine ⟨keys, hdistinct, fun k => ?_, rfl⟩
  unfold setKey
  split
  · next hk =>
    obtain ⟨l, hl, hkl⟩ := (hkeys key).mp hsome
    exact ⟨fun _ => ⟨l, hl, hF.trans hk hkl⟩, fun _ => rfl⟩
  · exact hkeys k

/-! ## Insertion

A key that is there gets the new value in its node.  A key that is not gets a new node in front of its chain. -/

/-- The nodes after one has been written to. -/
theorem node_set {a : Addr} (ha : a < s.kvs.length) (kv : KeyValue K V) (b : Addr) :
    node { s with kvs := s.kvs.set a kv } b =
      if b = a then some ((kv.key, kv.value), kv.next) else node s b := by
  unfold node
  by_cases hb : b = a
  · subst hb
    simp [ha]
  · simp [hb, List.getElem?_set_ne (Ne.symm hb)]

/-- The nodes after one has been added. -/
theorem node_append {s' : Store K V} {kv : KeyValue K V} (hs : s'.kvs = s.kvs ++ [kv]) (b : Addr) :
    node s' b = if b = s.kvs.length then some ((kv.key, kv.value), kv.next) else node s b := by
  unfold node
  rw [hs]
  by_cases hb : b = s.kvs.length
  · subst hb
    simp
  · rw [if_neg hb]
    rcases lt_or_gt_of_ne hb with h | h
    · rw [List.getElem?_append_left h]
    · have h₁ : (s.kvs ++ [kv]).length ≤ b := by simpa using Nat.succ_le_of_lt h
      have h₂ : s.kvs.length ≤ b := le_of_lt h
      rw [List.getElem?_eq_none h₁, List.getElem?_eq_none h₂]

/-- A value is written into its node. -/
theorem setValue_run {a : Addr} {k : K} {v w : V} {n : Option Addr}
    (h : node s a = some ((k, v), n)) :
    setValue a w s = some ((), { s with kvs := s.kvs.set a ⟨k, w, n⟩ }) := by
  refine (run_bind (readNode_run h)).trans ?_
  exact if_pos (node_lt (by simp [h]))

/-- Storing the value a node has changes nothing. -/
theorem setValue_self {a : Addr} {k : K} {v : V} {n : Option Addr}
    (h : node s a = some ((k, v), n)) : setValue a v s = some ((), s) := by
  obtain ⟨hlt, hget⟩ := List.getElem?_eq_some_iff.mp (node_eq_some.mp h)
  rw [setValue_run h, ← hget, List.set_getElem_self hlt]

/-- **Storing a value in the node of a key** that the table already has. -/
theorem Represents.setValue_found (hF : F.Lawful) (h : Represents F own s chains)
    {m : K → Option V} (hm : Denotes F chains m) {key : K} {v : V} {i : ℕ}
    {l₁ l₂ : List (Entry K V)} {c : Entry K V} (hl : chains i = l₁ ++ c :: l₂)
    (hk : Eqv F key c.2.1) :
    ∃ s', setValue c.1 v s = some ((), s') ∧ Holds F own s' (setKey F m key (some v)) ∧
      Keeps own s s' ∧ s'.table = s.table := by
  obtain ⟨a, k, v₀⟩ := c
  have hci : (a, k, v₀) ∈ chains i := by simp [hl]
  have hi := h.lt_size hci
  obtain ⟨n, hn⟩ := h.node_of_mem hci
  have ha : a < s.kvs.length := h.addr_lt hci
  obtain ⟨t, hs, ht, hhs, -, hall⟩ := h.heads
  obtain ⟨p, hp, hsp⟩ := hall i hi
  have hdist := h.distinct i
  rw [hl] at hsp hdist
  refine ⟨_, setValue_run hn, ?_, ⟨fun b hb => ?_, by simp, fun _ _ _ => rfl, le_rfl⟩, rfl⟩
  · have hedit : Represents F own { s with kvs := s.kvs.set a ⟨k, v, n⟩ }
        (Function.update chains i (l₁ ++ (a, k, v) :: l₂)) := by
      refine h.edit ht hhs ht hhs rfl rfl rfl hp (hsp.replace ends_none (c := (a, k, v₀)) ?_ ?_)
        (fun _ _ => rfl) (fun j hji d hd => ?_) (fun d hd => ?_) ?_ (fun d hd => ?_) (by simp)
      · intro n' hn'
        rw [node_set ha, if_pos rfl]
        obtain rfl : n' = n := by simpa using hn'.symm.trans hn
        rfl
      · intro b hb
        rw [node_set ha, if_neg hb]
      · rw [node_set ha, if_neg fun hda => hji (h.bucket_eq hd hci hda)]
      · rcases List.mem_append.mp hd with hd | hd
        · exact h.placed i d (by simp [hl, hd])
        · rcases List.mem_cons.mp hd with rfl | hd
          · exact h.placed i (a, k, v₀) hci
          · exact h.placed i d (by simp [hl, hd])
      · simpa [List.pairwise_append, List.pairwise_cons] using hdist
      · rcases List.mem_append.mp hd with hd | hd
        · exact h.owned i d (by simp [hl, hd])
        · rcases List.mem_cons.mp hd with rfl | hd
          · exact h.owned i (a, k, v₀) hci
          · exact h.owned i d (by simp [hl, hd])
    refine ⟨_, hedit, hedit.denotes_set hF hm (j := i) (c := (a, k, v)) (by simp) hk rfl
      fun d hd => ?_⟩
    rw [exists_mem_update]
    have hd₁ : d ≠ (a, k, v) := fun he => hd (he ▸ hk)
    have hd₂ : d ≠ (a, k, v₀) := fun he => hd (he ▸ hk)
    constructor
    · rintro (hd' | ⟨j, -, hd'⟩)
      · exact ⟨i, by simpa [hl, hd₁, hd₂] using hd'⟩
      · exact ⟨j, hd'⟩
    · rintro ⟨j, hd'⟩
      by_cases hji : j = i
      · subst hji
        exact Or.inl (by simpa [hl, hd₁, hd₂] using hd')
      · exact Or.inr ⟨j, hji, hd'⟩
  · exact List.getElem?_set_ne fun hab : a = b => hb (hab ▸ h.owned i _ hci)

/-- Of two values for a key the later one counts. -/
theorem setKey_setKey (m : K → Option V) (key : K) (v w : Option V) :
    setKey F (setKey F m key v) key w = setKey F m key w := by
  funext l
  unfold setKey
  split
  · rfl
  · rfl

/-- The store after `hash_find CREATE` linked a zeroed node in front of bucket `i`. -/
def linked [Inhabited V] (s : Store K V) (key : K) (i t : ℕ) (hs : List (Option Addr))
    (p : Option Addr) : Store K V where
  kvs := s.kvs ++ [⟨key, default, p⟩]
  arrays := s.arrays.set t (hs.set i (some s.kvs.length))
  table := { s.table with entries := s.table.entries + 1 }

/-- A node is linked in front of its chain. -/
theorem finishFind_create_run [Inhabited V] {key : K} {i t : ℕ} {hs : List (Option Addr)}
    {p : Option Addr} (ht : s.table.table = some t) (hhs : s.arrays[t]? = some hs)
    (hp : hs[i]? = some p) :
    finishFind key .create i none s = some (some s.kvs.length, linked s key i t hs p) := by
  have hi : i < hs.length := (List.getElem?_eq_some_iff.mp hp).1
  refine (run_bind (t := s) rfl).trans ?_
  refine (run_bind (by rw [ht]; exact readBucket_run hhs hp)).trans ?_
  refine (run_bind rfl).trans ?_
  refine (run_bind (a := ()) (t := { s with
    kvs := s.kvs ++ [⟨key, default, p⟩]
    arrays := s.arrays.set t (hs.set i (some s.kvs.length)) }) ?_).trans rfl
  simp only [setBucket, ht, hhs, hi, if_true]
  rfl

/-- The linked node heads its bucket. -/
theorem Represents.linked [Inhabited V] (h : Represents F own s chains) {key : K} {t : ℕ}
    {hs : List (Option Addr)} {p : Option Addr} (ht : s.table.table = some t)
    (hhs : s.arrays[t]? = some hs) (hp : hs[slot F s.table.size key]? = some p)
    (hsp : Spells none (node s) p (chains (slot F s.table.size key)))
    (hno : ∀ c ∈ chains (slot F s.table.size key), ¬ Eqv F key c.2.1) :
    Represents F own (Hash.linked s key (slot F s.table.size key) t hs p)
      (Function.update chains (slot F s.table.size key)
        ((s.kvs.length, key, default) :: chains (slot F s.table.size key))) := by
  have htl : t < s.arrays.length := (List.getElem?_eq_some_iff.mp hhs).1
  have hi : slot F s.table.size key < hs.length := (List.getElem?_eq_some_iff.mp hp).1
  have hold : ∀ j, ∀ c ∈ chains j,
      node (Hash.linked s key (slot F s.table.size key) t hs p) c.1 = node s c.1 := fun j c hc => by
    rw [node_append rfl, if_neg (h.addr_lt hc).ne]
  refine h.edit (g := hs.set (slot F s.table.size key) (some s.kvs.length)) ht hhs ht
    (by simp [Hash.linked, htl]) rfl rfl (by simp) (p := some s.kvs.length) (by simp [hi]) ?_
    (fun j hj => by rw [List.getElem?_set_ne (Ne.symm hj)]) (fun j _ => hold j)
    (fun c hc => ?_) ?_ (fun c hc => ?_) (by simp [Hash.linked])
  · refine Spells.push (c := (s.kvs.length, key, default)) (n := p) (hsp.congr (hold _)) ?_
    rw [node_append rfl, if_pos rfl]
  · rcases List.mem_cons.mp hc with rfl | hc
    · rfl
    · exact h.placed _ c hc
  · exact List.pairwise_cons.mpr ⟨hno, h.distinct _⟩
  · rcases List.mem_cons.mp hc with rfl | hc
    · exact h.unused _ le_rfl
    · exact h.owned _ c hc

/-- **`hash_find CREATE`** ends at the node of the key, old or new; the map it leaves differs at
most at that key. -/
theorem Represents.hashFind_create [Inhabited V] (hF : F.Lawful) (h : Represents F own s chains)
    {m : K → Option V} (hm : Denotes F chains m) (n : ℕ) (key : K) :
    ∃ s' chains' m' i l₁ c l₂, hashFind F (n + 1) key .create s = some (some c.1, s') ∧
      Represents F own s' chains' ∧ Denotes F chains' m' ∧ chains' i = l₁ ++ c :: l₂ ∧
      Eqv F key c.2.1 ∧ (∀ v, setKey F m' key v = setKey F m key v) ∧ Keeps own s s' ∧
      s'.table.table = s.table.table ∧ s'.table.size = s.table.size ∧
      (∀ v, Counts F m s.table.entries → Counts F (setKey F m key (some v)) s'.table.entries) := by
  rcases h.hashFind_run n key .create with ⟨hno, hrun⟩ | ⟨l₁, c, l₂, hl, hk, hrun⟩
  · obtain ⟨t, hs, ht, hhs, -, hall⟩ := h.heads
    obtain ⟨p, hp, hsp⟩ := hall _ (h.slot_lt key)
    have hlink := h.linked ht hhs hp hsp hno
    have hdenotes := hlink.denotes_set hF hm (v := default)
      (j := slot F s.table.size key) (c := (s.kvs.length, key, default)) (by simp) (hF.refl key) rfl
      fun d hd => by
        rw [exists_mem_update]
        have hne : d ≠ (s.kvs.length, key, default) := fun he => hd (he ▸ hF.refl key)
        constructor
        · rintro (hd' | ⟨j, -, hd'⟩)
          · exact ⟨_, by simpa [hne] using hd'⟩
          · exact ⟨j, hd'⟩
        · rintro ⟨j, hd'⟩
          by_cases hj : j = slot F s.table.size key
          · subst hj
            exact Or.inl (by simp [hd'])
          · exact Or.inr ⟨j, hj, hd'⟩
    refine ⟨_, _, _, slot F s.table.size key, [], (s.kvs.length, key, default), _,
      hrun.trans (finishFind_create_run ht hhs hp), hlink, hdenotes, by simp; rfl, hF.refl key,
      setKey_setKey m key _, ⟨fun a ha => ?_, by simp [Hash.linked], fun u hu _ => ?_, by
        simp [Hash.linked]⟩, rfl, rfl, fun v hcount => hcount.set_new v ?_⟩
    · have hlt : a < s.kvs.length := Nat.lt_of_not_le fun hle => ha (h.unused a hle)
      exact List.getElem?_append_left hlt
    · exact List.getElem?_set_ne fun htu => hu (ht.trans (congrArg some htu))
    · exact hm.none_of_absent (h.absent hF hno)
  · have hsome : m key = some c.2.2 := (hm key c.2.2).mpr ⟨slot F s.table.size key, c, by simp [hl], hk, rfl⟩
    exact ⟨s, chains, m, _, l₁, c, l₂, hrun, h, hm, hl, hk, fun _ => rfl, Keeps.refl own s, rfl, rfl,
      fun v hcount => hcount.set_old hF v (by simp [hsome])⟩

/-- **Inserting a key** — `hash_find CREATE`, then the value. -/
theorem Holds.insert [Inhabited V] (hF : F.Lawful) {m : K → Option V} (h : Holds F own s m)
    (n : ℕ) (key : K) (v : V) :
    ∃ a s₁ s₂, hashFind F (n + 1) key .create s = some (some a, s₁) ∧
      setValue a v s₁ = some ((), s₂) ∧ Holds F own s₂ (setKey F m key (some v)) ∧
      Keeps own s s₂ ∧ s₂.table.table = s.table.table ∧ s₂.table.size = s.table.size ∧
      (Counts F m s.table.entries → Counts F (setKey F m key (some v)) s₂.table.entries) := by
  obtain ⟨chains, hr, hm⟩ := h
  obtain ⟨s₁, chains₁, m₁, i, l₁, c, l₂, hfind, hr₁, hm₁, hl, hk, hset, hkeep₁, ht₁, hz₁, hcount⟩ :=
    hr.hashFind_create hF hm n key
  obtain ⟨s₂, hval, hholds, hkeep₂, htab⟩ := hr₁.setValue_found hF hm₁ (v := v) hl hk
  refine ⟨c.1, s₁, s₂, hfind, hval, hset (some v) ▸ hholds, hkeep₁.trans hkeep₂ ht₁, ?_, ?_, ?_⟩
  · rw [htab, ht₁]
  · rw [htab, hz₁]
  · rw [htab]
    exact hcount v

/-! ## Removal

The node is unlinked, from its chain or from the head of the bucket, and stays in the store. -/

/-- **A store whose bucket lost the entry of a key** holds the map without it. -/
theorem Represents.drop (hF : F.Lawful) (h : Represents F own s chains) {m : K → Option V}
    (hm : Denotes F chains m) {key : K} {i : ℕ} {l₁ l₂ : List (Entry K V)} {c : Entry K V}
    (hl : chains i = l₁ ++ c :: l₂) (hk : Eqv F key c.2.1) {s' : Store K V}
    (hr : Represents F own s' (Function.update chains i (l₁ ++ l₂))) :
    Holds F own s' (setKey F m key none) := by
  have hci : c ∈ chains i := by simp [hl]
  have hnd : ∀ d ∈ l₁ ++ l₂, ¬ Eqv F c.2.1 d.2.1 := fun d hd hcd => by
    have hdist := h.distinct i
    rw [hl, List.pairwise_append, List.pairwise_cons] at hdist
    rcases List.mem_append.mp hd with hd | hd
    · exact hdist.2.2 d hd c (by simp) (hF.symm hcd)
    · exact hdist.2.1.1 d hd hcd
  refine ⟨_, hr, hm.erase hF (fun j d hd hkd => ?_) fun d hd => ?_⟩
  · rcases exists_mem_update.mp ⟨j, hd⟩ with hd | ⟨j', hj', hd⟩
    · exact hnd d hd (hF.trans (hF.symm hk) hkd)
    · exact hj' ((h.slot_eq hF hd hkd).symm.trans (h.slot_eq hF hci hk))
  · rw [exists_mem_update]
    have hne : d ≠ c := fun he => hd (he ▸ hk)
    constructor
    · rintro (hd' | ⟨j, -, hd'⟩)
      · exact ⟨i, by simpa [hl, hne] using hd'⟩
      · exact ⟨j, hd'⟩
    · rintro ⟨j, hd'⟩
      by_cases hji : j = i
      · subst hji
        exact Or.inl (by simpa [hl, hne] using hd')
      · exact Or.inr ⟨j, hji, hd'⟩

/-- Dropping the entry leaves the bucket in order, wherever its new chain is spelled. -/
theorem Represents.unlinked (h : Represents F own s chains) {i : ℕ} {l₁ l₂ : List (Entry K V)}
    {c : Entry K V} (hl : chains i = l₁ ++ c :: l₂) {s' : Store K V} {t : Addr}
    {hs g : List (Option Addr)} {p : Option Addr} (ht : s.table.table = some t)
    (hhs : s.arrays[t]? = some hs) (htab : s'.table = s.table) (hhs' : s'.arrays[t]? = some g)
    (hlen : g.length = hs.length) (hp : g[i]? = some p)
    (hsp : Spells none (node s') p (l₁ ++ l₂)) (hheads : ∀ j, j ≠ i → g[j]? = hs[j]?)
    (hnode : ∀ j, j ≠ i → ∀ d ∈ chains j, node s' d.1 = node s d.1)
    (hkvs : s.kvs.length ≤ s'.kvs.length) :
    Represents F own s' (Function.update chains i (l₁ ++ l₂)) := by
  have hsub : (l₁ ++ l₂).Sublist (chains i) := by
    rw [hl]
    exact (List.sublist_cons_self c l₂).append_left l₁
  exact h.edit ht hhs (htab ▸ ht) hhs' (by rw [htab]) (by rw [htab]) hlen hp hsp hheads hnode
    (fun d hd => h.placed i d (hsub.subset hd)) ((h.distinct i).sublist hsub)
    (fun d hd => h.owned i d (hsub.subset hd)) hkvs

theorem setBucket_run {t i : ℕ} {hs : List (Option Addr)} {n : Option Addr}
    (ht : s.table.table = some t) (hhs : s.arrays[t]? = some hs) (hi : i < hs.length) :
    setBucket i n s = some ((), { s with arrays := s.arrays.set t (hs.set i n) }) := by
  simp only [setBucket, ht, hhs, hi, if_true]

/-- Unlinking the head of a bucket. -/
theorem finishFind_delete_head {key : K} {t i : ℕ} {hs : List (Option Addr)} {c : Entry K V}
    {n : Option Addr} [Inhabited V] (ht : s.table.table = some t) (hhs : s.arrays[t]? = some hs)
    (hi : i < hs.length) (hn : node s c.1 = some (c.2, n)) :
    finishFind key .delete i (some (none, c.1)) s =
      some (some c.1, { s with arrays := s.arrays.set t (hs.set i n) }) := by
  refine (run_bind (readNode_run hn)).trans ?_
  exact run_bind (setBucket_run ht hhs hi)

/-- Unlinking the node after another. -/
theorem finishFind_delete_after {key : K} {i : ℕ} {c d : Entry K V} {n n₀ : Option Addr}
    [Inhabited V] (hn : node s c.1 = some (c.2, n)) (hn₀ : node s d.1 = some (d.2, n₀)) :
    finishFind key .delete i (some (some d.1, c.1)) s =
      some (some c.1, { s with kvs := s.kvs.set d.1 ⟨d.2.1, d.2.2, n⟩ }) := by
  refine (run_bind (readNode_run hn)).trans ?_
  refine (run_bind (readNode_run hn₀)).trans ?_
  exact run_bind (if_pos (node_lt (by simp [hn₀])))

/-- **`hash_find DELETE`** removes the key. -/
theorem Holds.hashFind_delete [Inhabited V] (hF : F.Lawful) {m : K → Option V}
    (h : Holds F own s m) (n : ℕ) (key : K) :
    ∃ r s', hashFind F (n + 1) key .delete s = some (r, s') ∧
      Holds F own s' (setKey F m key none) ∧ Keeps own s s' ∧ s'.table = s.table := by
  obtain ⟨chains, hr, hm⟩ := h
  rcases hr.hashFind_run n key .delete with ⟨hno, hrun⟩ | ⟨l₁, c, l₂, hl, hk, hrun⟩
  · exact ⟨none, s, hrun, ⟨chains, hr, hm.erase hF (hr.absent hF hno) fun _ _ => Iff.rfl⟩,
      Keeps.refl own s, rfl⟩
  · have hci : c ∈ chains (slot F s.table.size key) := by simp [hl]
    obtain ⟨t, hs, ht, hhs, -, hall⟩ := hr.heads
    obtain ⟨p, hp, hsp⟩ := hall _ (hr.lt_size hci)
    have hi : slot F s.table.size key < hs.length := (List.getElem?_eq_some_iff.mp hp).1
    have htl : t < s.arrays.length := (List.getElem?_eq_some_iff.mp hhs).1
    obtain ⟨n, hn⟩ := hr.node_of_mem hci
    rw [hl] at hsp
    rcases List.eq_nil_or_concat l₁ with rfl | ⟨l₀, d, rfl⟩
    -- the node heads its bucket
    · refine ⟨_, _, hrun.trans (finishFind_delete_head ht hhs hi hn), hr.drop hF hm hl hk
        (hr.unlinked hl ht hhs rfl (g := hs.set (slot F s.table.size key) n) (by simp [htl])
          (by simp) (by simp [hi]; rfl) ?_ (fun j hj => ?_) (fun _ _ _ _ => rfl) le_rfl),
        ⟨fun _ _ => rfl, le_rfl, fun u hu _ => ?_, by simp⟩, rfl⟩
      · obtain ⟨-, n', hn', htail⟩ := hsp
        obtain rfl : n' = n := by simpa using hn'.symm.trans hn
        exact htail
      · rw [List.getElem?_set_ne (Ne.symm hj)]
      · exact List.getElem?_set_ne fun htu => hu (ht.trans (congrArg some htu))
    -- the node follows another
    · have hdi : d ∈ chains (slot F s.table.size key) := by simp [hl]
      obtain ⟨n₀, hn₀⟩ := hr.node_of_mem hdi
      have hd : d.1 < s.kvs.length := hr.addr_lt hdi
      rw [List.concat_eq_append, lastAddr_concat] at hrun
      rw [List.concat_eq_append, List.append_assoc, List.singleton_append] at hsp
      refine ⟨_, _, hrun.trans (finishFind_delete_after hn hn₀), hr.drop hF hm hl hk
        (hr.unlinked hl ht hhs rfl hhs rfl hp ?_ (fun _ _ => rfl) (fun j hj e he => ?_)
          (by simp)), ⟨fun b hb => ?_, by simp, fun _ _ _ => rfl, le_rfl⟩, rfl⟩
      · rw [List.concat_eq_append, List.append_assoc, List.singleton_append]
        refine hsp.unlink ends_none (fun n' hn' => ?_) fun a ha => by rw [node_set hd, if_neg ha]
        rw [node_set hd, if_pos rfl]
        obtain rfl : n' = n := by simpa using hn'.symm.trans hn
        rfl
      · rw [node_set hd, if_neg fun hed => hj (hr.bucket_eq he hdi hed)]
      · exact List.getElem?_set_ne fun hdb : d.1 = b => hb (hdb ▸ hr.owned _ d hdi)

/-- **`hash_erase`** removes the key. -/
theorem Holds.erase [Inhabited V] (hF : F.Lawful) {m : K → Option V} (h : Holds F own s m)
    (key : K) : ∃ s', hashErase F key s = some ((), s') ∧ Holds F own s' (setKey F m key none) ∧
      Keeps own s s' ∧ s'.table = s.table := by
  obtain ⟨r, s', hrun, hholds, hkeep, htab⟩ := h.hashFind_delete hF 5 key
  exact ⟨s', run_bind hrun, hholds, hkeep, htab⟩

/-! ## Writes that change nothing

To set a key to the value that it has, or to erase a key that is not there, leaves every chain as it spells. -/

/-- Finding a key that the table has. -/
theorem Represents.found (hF : F.Lawful) (h : Represents F own s chains) {m : K → Option V}
    (hm : Denotes F chains m) {key : K} {v : V} (hv : m key = some v) {i : ℕ} {c : Entry K V}
    (hc : c ∈ chains i) (hk : Eqv F key c.2.1) : c.2.2 = v := by
  obtain ⟨j, d, hd, hkd, rfl⟩ := (hm key v).mp hv
  rw [h.key_inj hF hc hd (hF.trans (hF.symm hk) hkd)]

/-- **Setting a key to the value it has.** -/
theorem Holds.insert_same [Inhabited V] (hF : F.Lawful) {m : K → Option V} (h : Holds F own s m)
    (n : ℕ) {key : K} {v : V} (hv : m key = some v) :
    ∃ a, hashFind F (n + 1) key .create s = some (some a, s) ∧ setValue a v s = some ((), s) := by
  obtain ⟨chains, hr, hm⟩ := h
  rcases hr.hashFind_run n key .create with ⟨hno, -⟩ | ⟨l₁, c, l₂, hl, hk, hrun⟩
  · obtain ⟨i, c, hc, hk, -⟩ := (hm key v).mp hv
    exact absurd hk (hr.absent hF hno i c hc)
  · have hc : c ∈ chains (slot F s.table.size key) := by simp [hl]
    obtain ⟨n, hn⟩ := hr.node_of_mem hc
    refine ⟨c.1, hrun, ?_⟩
    obtain rfl := hr.found hF hm hv hc hk
    exact setValue_self hn

/-- **Erasing a key that is not there.** -/
theorem Holds.erase_absent [Inhabited V] {m : K → Option V} (h : Holds F own s m) {key : K}
    (hnone : m key = none) : hashErase F key s = some ((), s) := by
  obtain ⟨chains, hr, hm⟩ := h
  rcases hr.hashFind_run 5 key .delete with ⟨-, hrun⟩ | ⟨l₁, c, l₂, hl, hk, -⟩
  · exact run_bind hrun
  · have hc : c ∈ chains (slot F s.table.size key) := by simp [hl]
    rw [(hm key c.2.2).mpr ⟨_, c, hc, hk, rfl⟩] at hnone
    cases hnone

/-! ## Lookup

The map is what `hash_get` answers; that is all that is said of it afterwards. -/

/-- **`hash_get`** reads the map, whether the table has its copy-on-write flag or not. -/
theorem Holds.get_unflag [Inhabited V] (hF : F.Lawful) {m : K → Option V}
    (h : Holds F own (unflag s) m) (key : K) : hashGet F key s = some (m key, s) := by
  obtain ⟨chains, hr, hm⟩ := h
  rcases hr.hashFind_run_of 5 key (by simp : ¬ (s.table.copyOnWrite = true ∧ Action.read ≠ .read)) with
    ⟨hno, hrun⟩ | ⟨l₁, c, l₂, hl, hk, hrun⟩
  · rw [hm.none_of_absent (hr.absent hF hno)]
    exact run_bind (hrun.trans rfl)
  · have hci : c ∈ chains (slot F s.table.size key) := by simp [hl]
    obtain ⟨n, hn⟩ := hr.node_of_mem hci
    have hnode : node s c.1 = some ((c.2.1, c.2.2), n) := hn
    rw [(hm key c.2.2).mpr ⟨_, c, hci, hk, rfl⟩]
    exact (run_bind (hrun.trans rfl)).trans (run_bind (readNode_run hnode))

/-- **`hash_get`** answers as the map does. -/
theorem Holds.get [Inhabited V] (hF : F.Lawful) {m : K → Option V} (h : Holds F own s m)
    (key : K) : hashGet F key s = some (m key, s) := by
  have hplain : s.table.copyOnWrite = false := by
    obtain ⟨_, hr, -⟩ := h
    exact hr.plain
  exact Holds.get_unflag hF (by rwa [unflag_of_plain hplain]) key

end Insomniac.Hash

import Insomniac.Hash.Runs

/-!
# Hash/Iterator — walking a table with `hash_next`

The iterator keeps the index of the next bucket and the rest of the chain it is in.

    { 0, null } ──hash_next──▸ entry ──hash_next──▸ … ──▸ entry ──▸ the end of the array

`Before s chains it l` says that the iterator `it` has the entries of `l` still to come; a call takes
the first of them (`hashNext_run`).  Nothing stops a call behind the end: the index is tested only
after a bucket has been read.
-/

open Linked Run

namespace Insomniac.Hash

/-- `hash_internal_iterator`. -/
structure Iterator where
  idx : ℕ
  entry : Option Addr
  deriving DecidableEq, Repr

/-- `INT_MAX`, the last index that `idx` can hold. -/
def intMax : ℕ := 2 ^ 31 - 1

variable {K V : Type}

/-- The start of a round of `hash_next`: without an entry, take the chain of the next bucket. -/
def fetchChain (it : Iterator) : HashM K V Iterator :=
  match it.entry with
  | some _ => pure it
  | none => do
    let entry ← readBucket (← get).table.table it.idx
    if it.idx < intMax then
      pure { idx := it.idx + 1, entry }
    else
      fun _ => none

/-- The rest of a round: return the next node of the chain, or go `again` while there are buckets. -/
def takeEntry (again : Iterator → HashM K V (Option Addr × Iterator)) (it : Iterator) :
    HashM K V (Option Addr × Iterator) :=
  match it.entry with
  | some a => do
    let kv ← readNode a
    pure (some a, { it with entry := kv.next })
  | none => do
    if it.idx < (← get).table.size then
      again it
    else
      pure (none, it)

/-- The loop of `hash_next`. -/
def nextLoop : (rounds : ℕ) → Iterator → HashM K V (Option Addr × Iterator)
  | 0, _ => fun _ => none
  | rounds + 1, it => do
    let it ← fetchChain it
    takeEntry (nextLoop rounds) it

/-- `hash_next`; a null iterator is allocated, which zeroes it.  A round that does not return steps
the index, so there are no more rounds than buckets. -/
def hashNext (iterator : Option Iterator) : HashM K V (Option Addr × Iterator) := do
  nextLoop ((← get).table.size + 1) (iterator.getD { idx := 0, entry := none })

/-- Calls of `hash_next` one after another. -/
def hashNexts : (calls : ℕ) → Option Iterator → HashM K V (List (Option Addr) × Option Iterator)
  | 0, iterator => pure ([], iterator)
  | calls + 1, iterator => do
    let (entry, it) ← hashNext iterator
    let (entries, iterator) ← hashNexts calls (some it)
    pure (entry :: entries, iterator)

/-- An entry is live when `hash_find` finds it. -/
def Live [Inhabited V] (F : HashFns K) (s : Store K V) (a : Addr) : Prop :=
  ∃ key, hashFind F nesting key .read s = some (some a, s)

/-- **The calls enumerate the table**: first every live entry, each once, then 0 for ever.  A read
outside the bucket array is no call at all. -/
def Enumerates [Inhabited V] (F : HashFns K) (s : Store K V) : Prop :=
  ∃ entries : List Addr, entries.Nodup ∧ (∀ a, a ∈ entries ↔ Live F s a) ∧
    ∀ n, ∃ it, hashNexts (entries.length + n) none s =
      some ((entries.map some ++ List.replicate n none, it), s)

/-! ## The entries still to come

The rest of the chain the iterator is in, and then the buckets from its index on.  With every call there is one
less of them. -/

variable {F : HashFns K} {own : Addr → Prop} {s : Store K V} {chains : ℕ → List (Entry K V)}
  {it : Iterator} {l : List (Entry K V)}

/-- The entries in the buckets from `i` on. -/
def bucketsFrom (s : Store K V) (chains : ℕ → List (Entry K V)) (i : ℕ) : List (Entry K V) :=
  (List.range' i (s.table.size - i)).flatMap chains

/-- The entries from a bucket on are its own and those behind it. -/
theorem bucketsFrom_of_lt {i : ℕ} (hi : i < s.table.size) :
    bucketsFrom s chains i = chains i ++ bucketsFrom s chains (i + 1) := by
  have hlen : s.table.size - i = s.table.size - (i + 1) + 1 := by omega
  rw [bucketsFrom, hlen, List.range'_succ, List.flatMap_cons, bucketsFrom]

/-- From the first bucket on, they are all. -/
theorem bucketsFrom_zero : bucketsFrom s chains 0 = (List.range s.table.size).flatMap chains := by
  rw [bucketsFrom, Nat.sub_zero, List.range_eq_range']

/-- Behind the last bucket there are none. -/
theorem bucketsFrom_size : bucketsFrom s chains s.table.size = [] := by
  rw [bucketsFrom, Nat.sub_self]
  rfl

/-- **The iterator stands before the entries of `l`**: the rest of a chain, and the buckets behind
it. -/
def Before (s : Store K V) (chains : ℕ → List (Entry K V)) (it : Iterator) (l : List (Entry K V)) : Prop :=
  it.idx ≤ s.table.size ∧ ∃ c, Spells none (node s) it.entry c ∧ l = c ++ bucketsFrom s chains it.idx

/-- A fresh iterator stands before all entries. -/
theorem before_start : Before s chains { idx := 0, entry := none } (bucketsFrom s chains 0) :=
  ⟨Nat.zero_le _, [], rfl, rfl⟩

/-- **Taking the chain of the next bucket** leaves the same entries to come. -/
theorem Before.fetch (hr : Represents F own s chains) (hsize : s.table.size ≤ intMax)
    (h : Before s chains it l) (hentry : it.entry = none) (hidx : it.idx < s.table.size) :
    ∃ it', fetchChain it s = some (it', s) ∧ it'.idx = it.idx + 1 ∧ Before s chains it' l := by
  obtain ⟨-, c, hc, rfl⟩ := h
  obtain ⟨t, hs, ht, hhs, -, hall⟩ := hr.heads
  obtain ⟨p, hp, hsp⟩ := hall it.idx hidx
  rw [hentry] at hc
  obtain rfl : c = [] := Spells.unique ends_none hc rfl
  refine ⟨{ idx := it.idx + 1, entry := p }, ?_, rfl, hidx, chains it.idx, hsp, bucketsFrom_of_lt hidx⟩
  have hread : readBucket s.table.table it.idx s = some (p, s) := by
    rw [ht]
    exact readBucket_run hhs hp
  rw [fetchChain, hentry]
  refine (run_bind (t := s) rfl).trans ((run_bind hread).trans ?_)
  rw [if_pos (hidx.trans_le hsize)]
  rfl

/-- With a chain at hand there is nothing to fetch. -/
theorem fetchChain_entry {a : Addr} (hentry : it.entry = some a) : fetchChain it s = some (it, s) := by
  rw [fetchChain, hentry]
  rfl

/-- **With a chain at hand, a round returns its first node.** -/
theorem Before.take {c : Entry K V} (again : Iterator → HashM K V (Option Addr × Iterator))
    (h : Before s chains it (c :: l)) (hentry : it.entry ≠ none) :
    ∃ it', takeEntry again it s = some ((some c.1, it'), s) ∧ Before s chains it' l := by
  obtain ⟨hle, r, hr, heq⟩ := h
  obtain ⟨a, ha⟩ := Option.ne_none_iff_exists'.mp hentry
  rw [ha] at hr
  match r, hr, heq with
  | d :: r, ⟨hd, next, hn, hrest⟩, heq =>
    obtain rfl : a = d.1 := Option.some.inj hd
    obtain ⟨rfl, rfl⟩ := List.cons.inj heq
    refine ⟨{ it with entry := next }, ?_, hle, r, hrest, rfl⟩
    rw [takeEntry, ha]
    exact (run_bind (readNode_run hn)).trans rfl

/-- With entries to come and no chain at hand there are buckets left. -/
theorem Before.idx_lt {c : Entry K V} (h : Before s chains it (c :: l)) (hentry : it.entry = none) :
    it.idx < s.table.size := by
  obtain ⟨hle, r, hr, heq⟩ := h
  rw [hentry] at hr
  obtain rfl : r = [] := Spells.unique ends_none hr rfl
  refine lt_of_le_of_ne hle fun hend => ?_
  rw [hend, bucketsFrom_size] at heq
  exact List.cons_ne_nil _ _ heq

/-- **A call takes the first entry to come.** -/
theorem nextLoop_run (hr : Represents F own s chains) (hsize : s.table.size ≤ intMax) {c : Entry K V} :
    ∀ (rounds : ℕ) {it : Iterator}, s.table.size - it.idx < rounds → Before s chains it (c :: l) →
      ∃ it', nextLoop rounds it s = some ((some c.1, it'), s) ∧ Before s chains it' l
  | rounds + 1, it, hrounds, h => by
      by_cases hentry : it.entry = none
      · have hidx := h.idx_lt hentry
        obtain ⟨it₁, hfetch, hidx₁, h₁⟩ := h.fetch hr hsize hentry hidx
        by_cases hentry₁ : it₁.entry = none
        · -- an empty bucket
          obtain ⟨it', hrun, hnext⟩ := nextLoop_run hr hsize rounds (by omega) h₁
          refine ⟨it', (run_bind hfetch).trans ?_, hnext⟩
          rw [takeEntry, hentry₁]
          refine (run_bind (t := s) rfl).trans ?_
          rw [if_pos (h₁.idx_lt hentry₁)]
          exact hrun
        · obtain ⟨it', hrun, hnext⟩ := h₁.take (nextLoop rounds) hentry₁
          exact ⟨it', (run_bind hfetch).trans hrun, hnext⟩
      · obtain ⟨a, ha⟩ := Option.ne_none_iff_exists'.mp hentry
        obtain ⟨it', hrun, hnext⟩ := h.take (nextLoop rounds) hentry
        exact ⟨it', (run_bind (fetchChain_entry ha)).trans hrun, hnext⟩

/-- **A call returns the first of the entries still to come**, and leaves the others. -/
theorem hashNext_run (hr : Represents F own s chains) (hsize : s.table.size ≤ intMax) {c : Entry K V}
    {iterator : Option Iterator} (h : Before s chains (iterator.getD { idx := 0, entry := none }) (c :: l)) :
    ∃ it, hashNext iterator s = some ((some c.1, it), s) ∧ Before s chains it l := by
  obtain ⟨it, hrun, hnext⟩ := nextLoop_run hr hsize (s.table.size + 1) (by omega) h
  exact ⟨it, (run_bind (t := s) rfl).trans hrun, hnext⟩

/-- **The calls take the entries to come**, in order. -/
theorem hashNexts_run (hr : Represents F own s chains) (hsize : s.table.size ≤ intMax) :
    ∀ (iterator : Option Iterator) {l : List (Entry K V)},
      Before s chains (iterator.getD { idx := 0, entry := none }) l →
      ∃ it, hashNexts l.length iterator s = some ((l.map fun c => some c.1, it), s)
  | iterator, [], _ => ⟨iterator, rfl⟩
  | iterator, c :: l, h => by
      obtain ⟨it₁, hrun, h₁⟩ := hashNext_run hr hsize h
      obtain ⟨it, hrest⟩ := hashNexts_run hr hsize (some it₁) h₁
      exact ⟨it, (run_bind hrun).trans ((run_bind hrest).trans rfl)⟩

/-! ## Live entries

What is returned are the entries of the chains, each of them once.  What comes after them is another
matter: the index is at the end of the array, and the next call reads there. -/

section Reached

variable [Inhabited V]

/-- The entries that a lookup finds are those of the chains. -/
theorem Represents.live_iff (hF : F.Lawful) (h : Represents F own s chains) {a : Addr} :
    Live F s a ↔ ∃ i, ∃ c ∈ chains i, c.1 = a := by
  constructor
  · rintro ⟨key, hfind⟩
    rcases h.hashFind_run 5 key .read with ⟨-, hrun⟩ | ⟨l₁, c, l₂, heq, -, hrun⟩
    · have hnone : some (none, s) = some (some a, s) := hrun.symm.trans hfind
      cases hnone
    · have hfound : some (some c.1, s) = some (some a, s) := hrun.symm.trans hfind
      exact ⟨slot F s.table.size key, c, by simp [heq], by simpa using hfound⟩
  · rintro ⟨i, c, hc, rfl⟩
    refine ⟨c.2.1, ?_⟩
    have hi : slot F s.table.size c.2.1 = i := h.placed i c hc
    rcases h.hashFind_run 5 c.2.1 .read with ⟨hno, -⟩ | ⟨l₁, d, l₂, heq, hd, hrun⟩
    · exact absurd (hF.refl _) (hno c (hi ▸ hc))
    · have hmem : d ∈ chains (slot F s.table.size c.2.1) := by simp [heq]
      obtain rfl : c = d := h.key_inj hF hc hmem hd
      exact hrun

/-- The first calls return every live entry, each once. -/
def Visits (F : HashFns K) (s : Store K V) : Prop :=
  ∃ entries : List Addr, entries.Nodup ∧ (∀ a, a ∈ entries ↔ Live F s a) ∧
    ∃ it, hashNexts entries.length none s = some ((entries.map some, it), s)

/-- A table is visited entry by entry. -/
theorem Represents.visits (hF : F.Lawful) (h : Represents F own s chains) (hsize : s.table.size ≤ intMax) :
    Visits F s := by
  refine ⟨(bucketsFrom s chains 0).map Prod.fst, ?_, fun a => ?_, ?_⟩
  · -- an address on two chains or twice on one would hold two keys that are equal
    rw [List.Nodup, List.pairwise_map, bucketsFrom_zero]
    refine List.Pairwise.imp_of_mem (fun {c d} hc hd hne hcd => hne ?_) (h.pairwise hF)
    obtain ⟨i, -, hc⟩ := List.mem_flatMap.mp hc
    obtain ⟨j, -, hd⟩ := List.mem_flatMap.mp hd
    obtain ⟨n, hn⟩ := h.node_of_mem hc
    obtain ⟨n', hn'⟩ := h.node_of_mem hd
    rw [hcd, hn'] at hn
    have hkv : d.2 = c.2 := congrArg Prod.fst (Option.some.inj hn)
    rw [hkv]
    exact hF.refl _
  · rw [h.live_iff hF, List.mem_map, bucketsFrom_zero]
    constructor
    · rintro ⟨c, hc, hca⟩
      obtain ⟨i, -, hc⟩ := List.mem_flatMap.mp hc
      exact ⟨i, c, hc, hca⟩
    · rintro ⟨i, c, hc, hca⟩
      exact ⟨c, List.mem_flatMap.mpr ⟨i, List.mem_range.mpr (h.lt_size hc), hc⟩, hca⟩
  · obtain ⟨it, hrun⟩ := hashNexts_run h hsize none before_start
    rw [List.length_map, List.map_map]
    exact ⟨it, hrun⟩

omit [Inhabited V] in
theorem readBucket_state {array : Option Addr} {i : ℕ} {p : Option Addr} {s s' : Store K V}
    (h : readBucket array i s = some (p, s')) : s' = s := by
  cases array with
  | none => cases h
  | some t =>
    obtain ⟨_, -, heq⟩ := Option.map_eq_some_iff.mp h
    exact (Prod.mk.inj heq).2.symm

omit [Inhabited V] in
/-- Looking for the next chain changes nothing. -/
theorem fetchChain_state {it it' : Iterator} {s s' : Store K V} (h : fetchChain it s = some (it', s')) :
    s' = s := by
  cases hentry : it.entry with
  | some a =>
    rw [fetchChain_entry hentry] at h
    exact (Prod.mk.inj (Option.some.inj h)).2.symm
  | none =>
    rw [fetchChain, hentry] at h
    obtain ⟨s₁, s₂, hget, h₁⟩ := bind_some h
    cases hget
    obtain ⟨entry, s₃, hread, h₂⟩ := bind_some h₁
    obtain rfl := readBucket_state hread
    split at h₂
    · cases h₂
      rfl
    · cases h₂

omit [Inhabited V] in
/-- **A call changes nothing**, and one that returns 0 has come to the end of the array. -/
theorem nextLoop_end : ∀ (rounds : ℕ) {it it' : Iterator} {s s' : Store K V} {r : Option Addr},
    nextLoop rounds it s = some ((r, it'), s') →
      s' = s ∧ (r = none → it'.entry = none ∧ s.table.size ≤ it'.idx)
  | rounds + 1, it, it', s, s', r, h => by
      obtain ⟨it₁, s₁, hfetch, htake⟩ := bind_some h
      obtain rfl := fetchChain_state hfetch
      cases hentry : it₁.entry with
      | some a =>
        rw [takeEntry, hentry] at htake
        obtain ⟨kv, s₂, hread, h₁⟩ := bind_some htake
        obtain ⟨_, -, heq⟩ := Option.map_eq_some_iff.mp hread
        cases heq
        cases h₁
        exact ⟨rfl, nofun⟩
      | none =>
        rw [takeEntry, hentry] at htake
        obtain ⟨s₂, s₃, hget, h₁⟩ := bind_some htake
        cases hget
        split at h₁
        · exact nextLoop_end rounds h₁
        · next hidx =>
          cases h₁
          exact ⟨rfl, fun _ => ⟨hentry, Nat.le_of_not_lt hidx⟩⟩

omit [Inhabited V] in
/-- A call that finds nothing changes nothing, and leaves the iterator at the end. -/
theorem hashNext_end {iterator : Option Iterator} {s s' : Store K V} {r : Option Addr}
    (h : hashNext iterator s = some ((r, it), s')) :
    s' = s ∧ (r = none → it.entry = none ∧ s.table.size ≤ it.idx) := by
  obtain ⟨s₁, s₂, hget, h₁⟩ := bind_some h
  cases hget
  exact nextLoop_end _ h₁

omit [Inhabited V] in
/-- **At the end of the array** a call reads behind it. -/
theorem Represents.next_outside (h : Represents F own s chains) (hentry : it.entry = none)
    (hidx : s.table.size ≤ it.idx) : hashNext (some it) s = none := by
  obtain ⟨t, hs, ht, hhs, hlen, -⟩ := h.heads
  have hread : readBucket s.table.table it.idx s = none := by
    rw [ht]
    simp [readBucket, hhs, List.getElem?_eq_none (hlen.le.trans hidx)]
  have hfetch : fetchChain it s = none := by
    rw [fetchChain, hentry]
    refine (run_bind (t := s) rfl).trans ?_
    change readBucket s.table.table it.idx s >>= _ = _
    rw [hread]
    rfl
  refine (run_bind (t := s) rfl).trans ?_
  change fetchChain it s >>= _ = _
  rw [hfetch]
  rfl

omit [Inhabited V] in
/-- **A second 0** is never returned: the first one leaves the iterator at the end of the array. -/
theorem Represents.not_two_zeros (h : Represents F own s chains) :
    ∀ (entries : List (Option Addr)) (iterator it : Option Iterator) (s' : Store K V),
      hashNexts (entries.length + 2) iterator s ≠ some ((entries ++ [none, none], it), s')
  | [], iterator, it, s', hrun => by
      obtain ⟨⟨r₁, it₁⟩, s₁, hfirst, hrun₁⟩ := bind_some hrun
      obtain ⟨rfl, hend⟩ := hashNext_end hfirst
      obtain ⟨⟨rs, it₂⟩, s₂, hsecond, hrun₂⟩ := bind_some hrun₁
      cases hrun₂
      obtain ⟨hentry, hidx⟩ := hend rfl
      obtain ⟨r₂, s₃, hnext, -⟩ := bind_some hsecond
      cases (h.next_outside hentry hidx).symm.trans hnext
  | e :: entries, iterator, it, s', hrun => by
      obtain ⟨⟨r₁, it₁⟩, s₁, hfirst, hrun₁⟩ := bind_some hrun
      obtain ⟨⟨rs, it₂⟩, s₂, hrest, hrun₂⟩ := bind_some hrun₁
      cases hrun₂
      rw [(hashNext_end hfirst).1] at hrest
      exact not_two_zeros h entries _ _ _ hrest

/-- **No table is enumerated.** -/
theorem Represents.not_enumerates (h : Represents F own s chains) : ¬ Enumerates F s := by
  rintro ⟨entries, -, -, hcalls⟩
  obtain ⟨it, hrun⟩ := hcalls 2
  refine h.not_two_zeros (entries.map some) none it s ?_
  rw [List.length_map]
  exact hrun

/-- **What `hash_next` does on a table that was reached**: it visits every entry, but enumerates
nothing, for it does not stop. -/
theorem reached_visits (hF : F.Lawful) (R : LoadRule) (ops : List (Op K V)) (s : Store K V) :
    ∃ s', Op.runAll F R ops s = some ((), s') ∧ ¬ Enumerates F s' ∧ (s'.table.size ≤ intMax → Visits F s') := by
  obtain ⟨s₁, hcreate, -, h₁⟩ := hashCreate_run (F := F) (s := s)
  obtain ⟨s₂, hrun, chains, hr, -⟩ := Op.forM_holds hF R ops (h₁ (fun _ => True) fun _ _ => trivial)
  exact ⟨s₂, (run_bind hcreate).trans hrun, hr.not_enumerates, hr.visits hF⟩

end Reached

/-- **`hash_next` enumerates no table**, whatever its keys and the calls that led to it: the index is
not tested before a bucket is read, so the calls that should return 0 read behind the array. -/
theorem hash_next_enumerates_none (V : Type) [Inhabited V] :
    (∀ (R : LoadRule) (ops : List (Op (List UInt8) V)) (s : Store (List UInt8) V),
      ∃ s', Op.runAll stringFns R ops s = some ((), s') ∧ ¬ Enumerates stringFns s') ∧
    ∀ (R : LoadRule) (ops : List (Op UInt64 V)) (s : Store UInt64 V),
      ∃ s', Op.runAll pointerFns R ops s = some ((), s') ∧ ¬ Enumerates pointerFns s' := by
  refine ⟨fun R ops s => ?_, fun R ops s => ?_⟩
  · obtain ⟨s', hrun, hnot, -⟩ := reached_visits stringFns_lawful R ops s
    exact ⟨s', hrun, hnot⟩
  · obtain ⟨s', hrun, hnot, -⟩ := reached_visits pointerFns_lawful R ops s
    exact ⟨s', hrun, hnot⟩

/-- Calls that do not return have none behind them. -/
theorem hashNexts_stuck : ∀ (calls more : ℕ) {iterator : Option Iterator} {s : Store K V},
    hashNexts calls iterator s = none → hashNexts (calls + more) iterator s = none
  | 0, _, _, _, h => by cases h
  | calls + 1, more, iterator, s, h => by
      rw [Nat.add_right_comm]
      cases hfirst : hashNext iterator s with
      | none =>
        change hashNext iterator s >>= _ = _
        rw [hfirst]
        rfl
      | some r =>
        have hrest : hashNexts calls (some r.1.2) r.2 = none := by
          cases hcalls : hashNexts calls (some r.1.2) r.2 with
          | none => rfl
          | some q =>
            have hsome := (run_bind hfirst).symm.trans h
            cases ((run_bind hcalls).symm.trans hsome)
        refine (run_bind hfirst).trans ?_
        change hashNexts (calls + more) (some r.1.2) r.2 >>= _ = _
        rw [hashNexts_stuck calls more hrest]
        rfl

/-- The key `"c"` falls into the last of the four buckets: the second call reads `table[4]`. -/
theorem hash_next_reads_behind : ∃ s', Op.runAll stringFns .exact [.set [99, 0] (1 : ℕ)]
    { kvs := [], arrays := [], table := emptyTable } = some ((), s') ∧ ¬ Enumerates stringFns s' := by
  let table : Table := { table := some 0, size := 4, entries := 1, copyOnWrite := false }
  refine ⟨⟨[⟨[99, 0], 1, none⟩], [[none, none, none, some 0]], table⟩, by decide +kernel, ?_⟩
  rintro ⟨entries, -, -, hcalls⟩
  obtain ⟨it, hrun⟩ := hcalls 2
  rw [Nat.add_comm, hashNexts_stuck 2 entries.length (by decide +kernel)] at hrun
  cases hrun

end Insomniac.Hash

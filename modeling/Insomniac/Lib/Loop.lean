import Insomniac.Lib.Lists
import Mathlib.Data.List.Forall2

/-!
# Lib/Loop — `map` and `for-each`

The procedures of `lib/loop.scm`, with `apply` of `lib/baselib.scm`.  A procedure that they are given is a
program that takes the list of its arguments.

    l₁ … lₙ ──prep-args──▸ rows ──inner──▸ (apply proc (list row)), …

A single list is its own list of rows: its elements are spread, and one that is `()` ends the loop.  More
lists are transposed, and each row is passed as one argument.
-/

open Run Fuel Insomniac.Asm

namespace Insomniac.Lib

open Insomniac.Vm

/-! ## The procedures

`map` and `for-each` in the library's own words, with the inner loops that they define.  A procedure that they
are given may do anything but write to the lists they walk along. -/

/-- `(list x)`. -/
def list (x : Ref) : VmM Ref := do
  let empty ← nil
  cons x empty

section Procedures

variable (throw : Throw)

/-- `apply` of a procedure to a list of arguments, with the list of the arguments behind it. -/
def apply (fuel : ℕ) (proc : Ref → VmM Ref) (l args : Ref) : VmM Ref := do
  let newArgs ← (do if ← truth (isNull args) then pure l else append throw fuel l args)
  proc newArgs

/-- `combind`: the first elements of some lists. -/
def combind : (fuel : ℕ) → (valList flatList : Ref) → VmM Ref
  | 0, _, _ => undefined
  | fuel + 1, valList, flatList => do
    if ← truth (isNull valList) then reverse throw fuel flatList
    else
      let flatList ← cons (← car throw (← car throw valList)) flatList
      combind fuel (← cdr throw valList) flatList

/-- `next`: the rests of some lists, or `()` when one of them is at its end. -/
def next : (fuel : ℕ) → (valList newValList : Ref) → VmM Ref
  | 0, _, _ => undefined
  | fuel + 1, valList, newValList => do
    if ← truth (isNull valList) then reverse throw fuel newValList
    else if ← truth (do isNull (← car throw valList)) then nil
    else
      let newValList ← cons (← cdr throw (← car throw valList)) newValList
      next fuel (← cdr throw valList) newValList

/-- The loop of `prep-args`. -/
def prepArgsInner : (fuel : ℕ) → (valList argsList : Ref) → VmM Ref
  | 0, _, _ => undefined
  | fuel + 1, valList, argsList => do
    let nextVal ← (do let empty ← nil; next throw fuel valList empty)
    if ← truth (isNull nextVal) then reverse throw fuel argsList
    else
      let row ← (do let empty ← nil; combind throw fuel valList empty)
      let argsList ← cons row argsList
      prepArgsInner fuel nextVal argsList

/-- `prep-args`. -/
def prepArgs (fuel : ℕ) (valList : Ref) : VmM Ref := do
  if 1 == (← length throw fuel valList) then car throw valList
  else
    let empty ← nil
    prepArgsInner throw fuel valList empty

/-- The test of both loops: `(or (null? val-list) (null? (car val-list)))`. -/
def atEnd (valList : Ref) : VmM Bool := do
  if ← truth (isNull valList) then pure true else truth (do isNull (← car throw valList))

/-- `(apply proc (list (car val-list)))`. -/
def visit (fuel : ℕ) (proc : Ref → VmM Ref) (valList : Ref) : VmM Ref := do
  let args ← nil
  let l ← list (← car throw valList)
  apply throw fuel proc l args

/-- The loop of `for-each`. -/
def forEachInner (proc : Ref → VmM Ref) : (fuel : ℕ) → (valList : Ref) → VmM Ref
  | 0, _ => undefined
  | fuel + 1, valList => do
    if ← atEnd throw valList then nil
    else
      let _ ← visit throw fuel proc valList
      forEachInner proc fuel (← cdr throw valList)

/-- `for-each` of a procedure and the list of its other arguments. -/
def forEach (fuel : ℕ) (proc : Ref → VmM Ref) (valList : Ref) : VmM Ref := do
  forEachInner throw proc fuel (← prepArgs throw fuel valList)

/-- The loop of `map`. -/
def mapInner (proc : Ref → VmM Ref) : (fuel : ℕ) → (valList result : Ref) → VmM Ref
  | 0, _, _ => undefined
  | fuel + 1, valList, result => do
    if ← atEnd throw valList then reverse throw fuel result
    else
      let result ← cons (← visit throw fuel proc valList) result
      mapInner proc fuel (← cdr throw valList) result

/-- `map` of a procedure and the list of its other arguments. -/
def map (fuel : ℕ) (proc : Ref → VmM Ref) (valList : Ref) : VmM Ref := do
  let empty ← nil
  mapInner throw proc fuel (← prepArgs throw fuel valList) empty

end Procedures

/-! ## Steps

The forms of the loops, with what was in memory still there. -/

section Steps

variable {vm : VmInternal} {x a d : Ref} {o : Obj}

theorem truth_since (hc : Constants vm) (hx : vm.deref x = some o) (test : CellType → Bool) :
    ∃ vm', truth (asm [x] (typeOp test)) vm = .ok (test o.type, vm') ∧ Since vm vm' := by
  obtain ⟨cells, hrun⟩ := truth_typeOp hc hx test
  exact ⟨_, hrun, (Since.refl vm).above cells⟩

theorem nil_since (vm : VmInternal) : ∃ vm', nil vm = .ok (vm.empty, vm') ∧ Since vm vm' := by
  obtain ⟨cells, hrun⟩ := nil_run vm
  exact ⟨_, hrun, (Since.refl vm).above cells⟩

theorem car_since (throw : Throw) {d : Ptr} (hx : vm.deref x = some (.pair (some a) d)) :
    ∃ vm', car throw x vm = .ok (a, vm') ∧ Since vm vm' := by
  obtain ⟨cells, hrun⟩ := car_run throw hx
  exact ⟨_, hrun, (Since.refl vm).above cells⟩

theorem cdr_since (throw : Throw) {a : Ptr} (hx : vm.deref x = some (.pair a (some d))) :
    ∃ vm', cdr throw x vm = .ok (d, vm') ∧ Since vm vm' := by
  obtain ⟨cells, hrun⟩ := cdr_run throw hx
  exact ⟨_, hrun, (Since.refl vm).above cells⟩

/-- **A new pair.** -/
theorem cons_since (vm : VmInternal) (a d : Ref) : ∃ r vm', cons a d vm = .ok (r, vm') ∧ Since vm vm' ∧
    vm'.deref r = some (.pair (some a) (some d)) ∧ vm.deref r = none := by
  obtain ⟨cells, hrun⟩ := cons_run vm a d
  refine ⟨_, _, hrun, ((Since.refl vm).alloc _).above cells, deref_above List.getElem?_concat_length, ?_⟩
  exact List.getElem?_eq_none le_rfl

theorem IsList.since {vm' : VmInternal} {r : Ref} {es : List Ref} (h : IsList vm r es) (hs : Since vm vm') :
    IsList vm' r es := h.grown hs.toGrown

theorem isList_empty (hc : Constants vm) : IsList vm vm.empty [] :=
  ⟨[], vm.empty, ⟨rfl, .empty, hc.empty, by decide⟩, hc.empty, rfl⟩

/-- **An object is one list.** -/
theorem IsList.unique {r : Ref} {es es' : List Ref} (h : IsList vm r es) (h' : IsList vm r es') : es = es' := by
  induction es generalizing r es' with
  | nil =>
    cases es' with
    | nil => rfl
    | cons e es' =>
      obtain ⟨q, hq, -⟩ := isList_cons h'
      cases (isList_nil h).symm.trans hq
  | cons e es ih =>
    obtain ⟨q, hq, h⟩ := isList_cons h
    cases es' with
    | nil => cases (isList_nil h').symm.trans hq
    | cons e' es' =>
      obtain ⟨q', hq', h'⟩ := isList_cons h'
      cases hq.symm.trans hq'
      rw [ih h h']

end Steps

/-! ## Lists

What the loops build is a list of the objects they have, in the order or against it. -/

section Loops

variable (throw : Throw)

/-- **The loop of `length`** counts the elements. -/
theorem lengthInner_settles : ∀ {es : List Ref} {list : Ref} {vm : VmInternal} (len : Int64), Constants vm →
    IsList vm list es → ∃ vm', Settles (fun fuel => lengthInner throw fuel list len) vm
      (.ok (Int64.ofNat es.length + len, vm')) ∧ Since vm vm'
  | [], list, vm, len, hc, h => by
      obtain ⟨vm₁, h₁, hs₁⟩ := truth_since hc (isList_nil h) (· == .empty)
      have hzero : Int64.ofNat (List.length ([] : List Ref)) + len = len := Int64.zero_add len
      rw [hzero]
      exact ⟨vm₁, Settles.succ (settles_of_eq fun _ => rfl) fun _ => run_bind h₁, hs₁⟩
  | e :: es, list, vm, len, hc, h => by
      obtain ⟨q, hq, hrest⟩ := isList_cons h
      obtain ⟨vm₁, h₁, hs₁⟩ := truth_since hc hq (· == .empty)
      obtain ⟨vm₂, h₂, hs₂⟩ := cdr_since throw (hs₁.toGrown.deref hq)
      have hs := hs₁.trans hs₂
      obtain ⟨vm', hsettles, hs'⟩ := lengthInner_settles (1 + len) (hs.constants hc) (hrest.since hs)
      have hcount : Int64.ofNat (e :: es).length + len = Int64.ofNat es.length + (1 + len) := by
        rw [List.length_cons, Int64.ofNat_add, Int64.add_assoc]
        rfl
      rw [hcount]
      exact ⟨vm', hsettles.succ fun fuel => (run_bind h₁).trans (run_bind h₂), hs.trans hs'⟩

/-- **The loop of `reverse`** puts the elements in front of what it has. -/
theorem reverseInner_settles : ∀ {es acc : List Ref} {list revList : Ref} {vm : VmInternal}, Constants vm →
    IsList vm list es → IsList vm revList acc → ∃ r vm', Settles (fun fuel => reverseInner throw fuel list revList) vm
      (.ok (r, vm')) ∧ Since vm vm' ∧ IsList vm' r (es.reverse ++ acc)
  | [], acc, list, revList, vm, hc, h, hacc => by
      obtain ⟨vm₁, h₁, hs₁⟩ := truth_since hc (isList_nil h) (· == .empty)
      exact ⟨revList, vm₁, Settles.succ (settles_of_eq fun _ => rfl) fun _ => run_bind h₁, hs₁, hacc.since hs₁⟩
  | e :: es, acc, list, revList, vm, hc, h, hacc => by
      obtain ⟨q, hq, hrest⟩ := isList_cons h
      obtain ⟨vm₁, h₁, hs₁⟩ := truth_since hc hq (· == .empty)
      obtain ⟨vm₂, h₂, hs₂⟩ := car_since throw (hs₁.toGrown.deref hq)
      obtain ⟨new, vm₃, h₃, hs₃, hnew, -⟩ := cons_since vm₂ e revList
      have hs := (hs₁.trans hs₂).trans hs₃
      obtain ⟨vm₄, h₄, hs₄⟩ := cdr_since throw (hs.toGrown.deref hq)
      have hs := hs.trans hs₄
      have hacc' := (IsList.cons (hacc.since ((hs₁.trans hs₂).trans hs₃)) hnew).since hs₄
      obtain ⟨r, vm', hsettles, hs', hr⟩ := reverseInner_settles (hs.constants hc) (hrest.since hs) hacc'
      rw [List.append_cons, ← List.reverse_cons] at hr
      exact ⟨r, vm', hsettles.succ fun fuel =>
        (run_bind h₁).trans ((run_bind h₂).trans ((run_bind h₃).trans (run_bind h₄))), hs.trans hs', hr⟩

/-- **`reverse`.** -/
theorem reverse_settles {vm : VmInternal} {list : Ref} {es : List Ref} (hc : Constants vm) (h : IsList vm list es) :
    ∃ r vm', Settles (fun fuel => reverse throw fuel list) vm (.ok (r, vm')) ∧ Since vm vm' ∧ IsList vm' r es.reverse := by
  obtain ⟨vm₁, h₁, hs₁⟩ := nil_since vm
  obtain ⟨r, vm', hsettles, hs', hr⟩ := reverseInner_settles throw (hs₁.constants hc) (h.since hs₁)
    ((isList_empty hc).since hs₁)
  rw [List.append_nil] at hr
  exact ⟨r, vm', (settles_of_eq fun _ => h₁).bind hsettles, hs₁.trans hs', hr⟩

end Loops

/-! ## Rows

Row number `i` has the `i`-th elements of the lists, and there are as many rows as the shortest list has
elements. -/

/-- The length of the shortest of some lists. -/
def shortest : List (List Ref) → ℕ
  | [] => 0
  | [l] => l.length
  | l :: ls => min l.length (shortest ls)

/-- **The rows of some lists**: their elements at each place below the shortest length. -/
def rowsOf (lists : List (List Ref)) : List (List Ref) :=
  (List.range (shortest lists)).map fun i => lists.filterMap (·[i]?)

/-- The shortest of one more list. -/
theorem shortest_cons (l : List Ref) {ls : List (List Ref)} (h : ls ≠ []) :
    shortest (l :: ls) = min l.length (shortest ls) := by
  cases ls with
  | nil => exact absurd rfl h
  | cons l' ls => rfl

/-- No list is shorter than the shortest. -/
theorem shortest_le : ∀ {lists : List (List Ref)} {l : List Ref}, l ∈ lists → shortest lists ≤ l.length
  | [l], _, h => (List.mem_singleton.mp h) ▸ le_rfl
  | l :: l' :: ls, _, h => by
      rw [shortest_cons l (List.cons_ne_nil l' ls)]
      rcases List.mem_cons.mp h with rfl | h
      · exact Nat.min_le_left _ _
      · exact (Nat.min_le_right _ _).trans (shortest_le h)

/-- An empty list leaves no row. -/
theorem rowsOf_of_nil_mem {lists : List (List Ref)} (h : [] ∈ lists) : rowsOf lists = [] := by
  have hzero : shortest lists = 0 := Nat.le_zero.mp (shortest_le h)
  rw [rowsOf, hzero]
  rfl

/-- A single list. -/
theorem rowsOf_singleton (l : List Ref) : rowsOf [l] = l.map fun e => [e] := by
  refine List.ext_getElem? fun i => ?_
  rcases Nat.lt_or_ge i l.length with hi | hi
  · simp [rowsOf, shortest, hi]
  · simp [rowsOf, shortest, hi]

/-- Some lists that are not empty: their first elements with their rests. -/
def consAll (qs : List (Ref × List Ref)) : List (List Ref) := qs.map fun q => q.1 :: q.2

/-- With an element in front of each list, the shortest is longer by one. -/
theorem shortest_consAll : ∀ {qs : List (Ref × List Ref)}, qs ≠ [] →
    shortest (consAll qs) = shortest (qs.map Prod.snd) + 1
  | [q], _ => rfl
  | q :: q' :: qs, _ => by
      have hrest := shortest_consAll (List.cons_ne_nil q' qs)
      have hne : consAll (q' :: qs) ≠ [] := List.cons_ne_nil _ _
      have hne' : (q' :: qs).map Prod.snd ≠ [] := List.cons_ne_nil _ _
      calc shortest (consAll (q :: q' :: qs))
          = min (q.2.length + 1) (shortest ((q' :: qs).map Prod.snd) + 1) := by
            rw [← hrest]
            exact shortest_cons _ hne
        _ = min q.2.length (shortest ((q' :: qs).map Prod.snd)) + 1 := Nat.add_min_add_right _ _ 1
        _ = shortest ((q :: q' :: qs).map Prod.snd) + 1 := congrArg (· + 1) (shortest_cons q.2 hne').symm

/-- **The first row, and the rows of the rests.** -/
theorem rowsOf_consAll {qs : List (Ref × List Ref)} (h : qs ≠ []) :
    rowsOf (consAll qs) = qs.map Prod.fst :: rowsOf (qs.map Prod.snd) := by
  have hfirst : (consAll qs).filterMap (·[0]?) = qs.map Prod.fst := by
    rw [consAll, List.filterMap_map]
    exact congrFun (List.filterMap_eq_map (f := (Prod.fst : Ref × List Ref → Ref))) qs
  have hrest : ∀ i, (consAll qs).filterMap (·[i + 1]?) = (qs.map Prod.snd).filterMap (·[i]?) := by
    intro i
    rw [consAll, List.filterMap_map, List.filterMap_map]
    rfl
  rw [rowsOf, shortest_consAll h, List.range_succ_eq_map, List.map_cons, List.map_map, hfirst]
  exact congrArg _ (List.map_congr_left fun i _ => hrest i)

/-- A row has an element of each list. -/
theorem ne_nil_of_mem_rowsOf {lists : List (List Ref)} (hne : lists ≠ []) {row : List Ref} (h : row ∈ rowsOf lists) :
    row ≠ [] := by
  obtain ⟨i, hi, rfl⟩ := List.mem_map.mp h
  obtain ⟨l, ls, rfl⟩ := List.exists_cons_of_ne_nil hne
  have hlt : i < l.length := Nat.lt_of_lt_of_le (List.mem_range.mp hi) (shortest_le List.mem_cons_self)
  exact List.ne_nil_of_mem (List.mem_filterMap.mpr ⟨l, List.mem_cons_self, List.getElem?_eq_getElem hlt⟩)

/-- Lists are not empty, or one of them is. -/
theorem nil_mem_or_consAll (lists : List (List Ref)) : [] ∈ lists ∨ ∃ qs, lists = consAll qs := by
  induction lists with
  | nil => exact .inr ⟨[], rfl⟩
  | cons l lists ih =>
    cases l with
    | nil => exact .inl List.mem_cons_self
    | cons e l => exact ih.imp (List.mem_cons_of_mem _) fun ⟨qs, hqs⟩ => ⟨(e, l) :: qs, by rw [hqs]; rfl⟩

/-! ## Transposing

`prep-args` takes the heads of all lists into a row and goes on with their tails, until one of them is empty. -/

section Transpose

variable (throw : Throw)

/-- `(null? (car x))` in a test. -/
theorem truth_null_car {vm : VmInternal} {x l : Ref} {d : Ptr} {o : Obj} (hc : Constants vm)
    (hx : vm.deref x = some (.pair (some l) d)) (hl : vm.deref l = some o) :
    ∃ vm', truth (do isNull (← car throw x)) vm = .ok (o.type == .empty, vm') ∧ Since vm vm' := by
  obtain ⟨vm₁, h₁, hs₁⟩ := car_since throw hx
  obtain ⟨vm₂, h₂, hs₂⟩ := truth_since (hs₁.constants hc) (hs₁.toGrown.deref hl) (· == .empty)
  exact ⟨vm₂, (bind_congr_run _ (run_bind h₁)).trans h₂, hs₁.trans hs₂⟩

/-- The lists of some elements. -/
abbrev AreLists (vm : VmInternal) : List Ref → List (List Ref) → Prop := List.Forall₂ (IsList vm)

/-- Some lists stay. -/
theorem AreLists.since {vm vm' : VmInternal} {ls : List Ref} {lists : List (List Ref)} (h : AreLists vm ls lists)
    (hs : Since vm vm') : AreLists vm' ls lists := h.imp fun _ _ h => h.since hs

/-- One of some lists is a list. -/
theorem AreLists.exists_mem {vm : VmInternal} {ls : List Ref} {lists : List (List Ref)} (h : AreLists vm ls lists) {r : Ref}
    (hr : r ∈ ls) : ∃ es ∈ lists, IsList vm r es := by
  induction h with
  | nil => cases hr
  | cons hl _ ih =>
    rcases List.mem_cons.mp hr with rfl | hr
    · exact ⟨_, List.mem_cons_self, hl⟩
    · exact (ih hr).imp fun _ hes => ⟨List.mem_cons_of_mem _ hes.1, hes.2⟩

/-- **`combind` takes the first elements.** -/
theorem combind_settles : ∀ {qs : List (Ref × List Ref)} {ls acc : List Ref} {valList flatList : Ref} {vm : VmInternal},
    Constants vm → IsList vm valList ls → AreLists vm ls (consAll qs) → IsList vm flatList acc →
    ∃ r vm', Settles (fun fuel => combind throw fuel valList flatList) vm (.ok (r, vm')) ∧ Since vm vm' ∧
      IsList vm' r (acc.reverse ++ qs.map Prod.fst)
  | [], _, acc, valList, flatList, vm, hc, h, hls, hacc => by
      cases hls
      obtain ⟨vm₁, h₁, hs₁⟩ := truth_since hc (isList_nil h) (· == .empty)
      obtain ⟨r, vm', hsettles, hs', hr⟩ := reverse_settles throw (hs₁.constants hc) (hacc.since hs₁)
      rw [List.map_nil, List.append_nil]
      exact ⟨r, vm', hsettles.succ fun fuel => run_bind h₁, hs₁.trans hs', hr⟩
  | q :: qs, _, acc, valList, flatList, vm, hc, h, hls, hacc => by
      obtain ⟨l, ls, hl, hrests, rfl⟩ := List.forall₂_cons_right_iff.mp hls
      obtain ⟨rest, hrest, hlist⟩ := isList_cons h
      obtain ⟨tail, htail, -⟩ := isList_cons hl
      obtain ⟨vm₁, h₁, hs₁⟩ := truth_since hc hrest (· == .empty)
      obtain ⟨vm₂, h₂, hs₂⟩ := car_since throw (hs₁.toGrown.deref hrest)
      have hs := hs₁.trans hs₂
      obtain ⟨vm₃, h₃, hs₃⟩ := car_since throw (hs.toGrown.deref htail)
      have hs := hs.trans hs₃
      obtain ⟨new, vm₄, h₄, hs₄, hnew, -⟩ := cons_since vm₃ q.1 flatList
      have hacc₄ : IsList vm₄ new (q.1 :: acc) := (hacc.since (hs.trans hs₄)).cons hnew
      have hs := hs.trans hs₄
      obtain ⟨vm₅, h₅, hs₅⟩ := cdr_since throw (hs.toGrown.deref hrest)
      have hs := hs.trans hs₅
      obtain ⟨r, vm', hsettles, hs', hr⟩ := combind_settles (hs.constants hc) (hlist.since hs) (AreLists.since hrests hs)
        (hacc₄.since hs₅)
      rw [List.reverse_cons, List.append_assoc, List.singleton_append] at hr
      exact ⟨r, vm', hsettles.succ fun fuel => (run_bind h₁).trans ((run_bind h₂).trans ((run_bind h₃).trans
        ((run_bind h₄).trans (run_bind h₅)))), hs.trans hs', hr⟩

/-- A round of `next` at a list that is not empty. -/
theorem next_round {vm : VmInternal} {valList l rest t e : Ref} (newValList : Ref) (hc : Constants vm)
    (hrest : vm.deref valList = some (.pair (some l) (some rest))) (hl : vm.deref l = some (.pair (some e) (some t))) :
    ∃ new vm', (∀ fuel, next throw (fuel + 1) valList newValList vm = next throw fuel rest new vm') ∧ Since vm vm' ∧
      vm'.deref new = some (.pair (some t) (some newValList)) := by
  obtain ⟨vm₁, h₁, hs₁⟩ := truth_since hc hrest (· == .empty)
  obtain ⟨vm₂, h₂, hs₂⟩ := truth_null_car throw (hs₁.constants hc) (hs₁.toGrown.deref hrest) (hs₁.toGrown.deref hl)
  have hs := hs₁.trans hs₂
  obtain ⟨vm₃, h₃, hs₃⟩ := car_since throw (hs.toGrown.deref hrest)
  have hs := hs.trans hs₃
  obtain ⟨vm₄, h₄, hs₄⟩ := cdr_since throw (hs.toGrown.deref hl)
  obtain ⟨new, vm₅, h₅, hs₅, hnew, -⟩ := cons_since vm₄ t newValList
  have hs := (hs.trans hs₄).trans hs₅
  obtain ⟨vm₆, h₆, hs₆⟩ := cdr_since throw (hs.toGrown.deref hrest)
  exact ⟨new, vm₆, fun fuel => (run_bind h₁).trans ((run_bind h₂).trans ((run_bind h₃).trans ((run_bind h₄).trans
    ((run_bind h₅).trans (run_bind h₆))))), hs.trans hs₆, hs₆.toGrown.deref hnew⟩

/-- **`next` takes the rests**, when no list is at its end. -/
theorem next_settles : ∀ {qs : List (Ref × List Ref)} {ls acc : List Ref} {accs : List (List Ref)} {valList newValList : Ref}
    {vm : VmInternal}, Constants vm → IsList vm valList ls → AreLists vm ls (consAll qs) → IsList vm newValList acc →
    AreLists vm acc accs → ∃ r vm' ts, Settles (fun fuel => next throw fuel valList newValList) vm (.ok (r, vm')) ∧
      Since vm vm' ∧ IsList vm' r ts ∧ AreLists vm' ts (accs.reverse ++ qs.map Prod.snd)
  | [], _, acc, accs, valList, newValList, vm, hc, h, hls, hacc, haccs => by
      cases hls
      obtain ⟨vm₁, h₁, hs₁⟩ := truth_since hc (isList_nil h) (· == .empty)
      obtain ⟨r, vm', hsettles, hs', hr⟩ := reverse_settles throw (hs₁.constants hc) (hacc.since hs₁)
      rw [List.map_nil, List.append_nil]
      exact ⟨r, vm', acc.reverse, hsettles.succ fun fuel => run_bind h₁, hs₁.trans hs', hr,
        List.rel_reverse (AreLists.since haccs (hs₁.trans hs'))⟩
  | q :: qs, _, acc, accs, valList, newValList, vm, hc, h, hls, hacc, haccs => by
      obtain ⟨l, ls, hl, hrests, rfl⟩ := List.forall₂_cons_right_iff.mp hls
      obtain ⟨rest, hrest, hlist⟩ := isList_cons h
      obtain ⟨t, ht, htail⟩ := isList_cons hl
      obtain ⟨new, vm₁, hround, hs, hnew⟩ := next_round throw newValList hc hrest ht
      obtain ⟨r, vm', ts, hsettles, hs', hr, hts⟩ :=
        next_settles (hs.constants hc) (hlist.since hs) (AreLists.since hrests hs)
        ((hacc.since hs).cons hnew) (.cons (htail.since hs) (AreLists.since haccs hs))
      rw [List.reverse_cons, List.append_assoc, List.singleton_append] at hts
      exact ⟨r, vm', ts, hsettles.succ hround, hs.trans hs', hr, hts⟩

/-- **`next` gives `()`** when a list is at its end. -/
theorem next_settles_nil {lists : List (List Ref)} {ls : List Ref} {valList : Ref} (newValList : Ref) {vm : VmInternal}
    (hc : Constants vm) (h : IsList vm valList ls) (hls : AreLists vm ls lists) (hmem : [] ∈ lists) :
    ∃ r vm', Settles (fun fuel => next throw fuel valList newValList) vm (.ok (r, vm')) ∧ Since vm vm' ∧ IsList vm' r [] := by
  induction lists generalizing ls valList newValList vm with
  | nil => cases hmem
  | cons es lists ih =>
    obtain ⟨l, ls, hl, hrests, rfl⟩ := List.forall₂_cons_right_iff.mp hls
    obtain ⟨rest, hrest, hlist⟩ := isList_cons h
    cases es with
    | nil =>
      obtain ⟨vm₁, h₁, hs₁⟩ := truth_since hc hrest (· == .empty)
      obtain ⟨vm₂, h₂, hs₂⟩ := truth_null_car throw (hs₁.constants hc) (hs₁.toGrown.deref hrest)
        (hs₁.toGrown.deref (isList_nil hl))
      obtain ⟨vm₃, h₃, hs₃⟩ := nil_since vm₂
      have hs := (hs₁.trans hs₂).trans hs₃
      exact ⟨_, vm₃, Settles.succ (settles_of_eq fun _ => h₃) fun _ => (run_bind h₁).trans (run_bind h₂), hs,
        (isList_empty ((hs₁.trans hs₂).constants hc)).since hs₃⟩
    | cons e es =>
      obtain ⟨t, ht, -⟩ := isList_cons hl
      obtain ⟨new, vm₁, hround, hs, -⟩ := next_round throw newValList hc hrest ht
      have hmem : [] ∈ lists := (List.mem_cons.mp hmem).resolve_left (by simp)
      obtain ⟨r, vm', hsettles, hs', hr⟩ := ih new (hs.constants hc) (hlist.since hs) (AreLists.since hrests hs) hmem
      exact ⟨r, vm', hsettles.succ hround, hs.trans hs', hr⟩

/-- A round of `prep-args` when a list is at its end. -/
theorem prepArgsInner_end {lists : List (List Ref)} (hmem : [] ∈ lists) {ls acc : List Ref} {valList argsList : Ref}
    {vm : VmInternal} (hc : Constants vm) (h : IsList vm valList ls) (hls : AreLists vm ls lists)
    (hacc : IsList vm argsList acc) :
    ∃ r vm', Settles (fun fuel => prepArgsInner throw fuel valList argsList) vm (.ok (r, vm')) ∧ Since vm vm' ∧
      IsList vm' r acc.reverse := by
  obtain ⟨vm₁, h₁, hs₁⟩ := nil_since vm
  obtain ⟨nextVal, vm₂, hnext, hs₂, hend⟩ :=
    next_settles_nil throw vm.empty (hs₁.constants hc) (h.since hs₁) (AreLists.since hls hs₁) hmem
  have hs := hs₁.trans hs₂
  obtain ⟨vm₃, h₃, hs₃⟩ := truth_since (hs.constants hc) (isList_nil hend) (· == .empty)
  have hs := hs.trans hs₃
  obtain ⟨r, vm', hrev, hs', hr⟩ := reverse_settles throw (hs.constants hc) (hacc.since hs)
  refine ⟨r, vm', Settles.succ ?_ fun fuel => rfl, hs.trans hs', hr⟩
  exact ((settles_of_eq fun _ => h₁).bind hnext).bind ((settles_of_eq fun _ => h₃).bind hrev)

/-- A round of `prep-args` otherwise: a row more. -/
theorem prepArgsInner_row {qs : List (Ref × List Ref)} (hne : qs ≠ []) {ls acc : List Ref} {valList argsList : Ref}
    {vm : VmInternal} (hc : Constants vm) (h : IsList vm valList ls) (hls : AreLists vm ls (consAll qs))
    (hacc : IsList vm argsList acc) : ∃ nextVal new row vm' ts,
      (∀ {out}, Settles (fun fuel => prepArgsInner throw fuel nextVal new) vm' out →
      Settles (fun fuel => prepArgsInner throw fuel valList argsList) vm out) ∧ Since vm vm' ∧ IsList vm' nextVal ts ∧
        AreLists vm' ts (qs.map Prod.snd) ∧ IsList vm' new (row :: acc) ∧ IsList vm' row (qs.map Prod.fst) := by
  obtain ⟨vm₁, h₁, hs₁⟩ := nil_since vm
  have hempty := (isList_empty hc).since hs₁
  obtain ⟨nextVal, vm₂, ts, hnext, hs₂, hval, hts⟩ :=
    next_settles throw (hs₁.constants hc) (h.since hs₁) (AreLists.since hls hs₁) hempty .nil
  have hs := hs₁.trans hs₂
  obtain ⟨t, ts', rfl⟩ : ∃ t ts', ts = t :: ts' := by
    obtain ⟨q, qs, rfl⟩ := List.exists_cons_of_ne_nil hne
    obtain ⟨t, ts', -, -, rfl⟩ := List.forall₂_cons_right_iff.mp hts
    exact ⟨t, ts', rfl⟩
  obtain ⟨rest, hrest, -⟩ := isList_cons hval
  obtain ⟨vm₃, h₃, hs₃⟩ := truth_since (hs.constants hc) hrest (· == .empty)
  have hs := hs.trans hs₃
  obtain ⟨vm₄, h₄, hs₄⟩ := nil_since vm₃
  have hs := hs.trans hs₄
  obtain ⟨row, vm₅, hcombind, hs₅, hrow⟩ := combind_settles throw (hs.constants hc) (h.since hs) (AreLists.since hls hs)
    ((isList_empty ((hs₁.trans hs₂).trans hs₃ |>.constants hc)).since hs₄)
  obtain ⟨new, vm₆, h₆, hs₆, hnew, -⟩ := cons_since vm₅ row argsList
  have hlater := ((hs₃.trans hs₄).trans hs₅).trans hs₆
  refine ⟨nextVal, new, row, vm₆, t :: ts', fun hsettles => Settles.succ ?_ fun fuel => rfl, (hs₁.trans hs₂).trans hlater,
    hval.since hlater, AreLists.since hts hlater, (hacc.since ((hs₁.trans hs₂).trans hlater)).cons hnew, hrow.since hs₆⟩
  exact ((settles_of_eq fun _ => h₁).bind hnext).bind ((settles_of_eq fun _ => h₃).bind
    (((settles_of_eq fun _ => h₄).bind hcombind).bind ((settles_of_eq fun _ => h₆).bind hsettles)))

/-- **The loop of `prep-args`** transposes. -/
theorem prepArgsInner_settles {lists : List (List Ref)} (hne : lists ≠ []) {ls acc : List Ref} {accs : List (List Ref)}
    {valList argsList : Ref} {vm : VmInternal} (hc : Constants vm) (h : IsList vm valList ls) (hls : AreLists vm ls lists)
    (hacc : IsList vm argsList acc) (haccs : AreLists vm acc accs) :
    ∃ r vm' rows, Settles (fun fuel => prepArgsInner throw fuel valList argsList) vm (.ok (r, vm')) ∧ Since vm vm' ∧
      IsList vm' r rows ∧ AreLists vm' rows (accs.reverse ++ rowsOf lists) := by
  induction hn : shortest lists generalizing lists ls acc accs valList argsList vm with
  | zero =>
    have hmem : [] ∈ lists := by
      refine (nil_mem_or_consAll lists).resolve_right ?_
      rintro ⟨qs, rfl⟩
      have hqs : qs ≠ [] := fun h => hne (by rw [h]; rfl)
      rw [shortest_consAll hqs] at hn
      cases hn
    obtain ⟨r, vm', hsettles, hs, hr⟩ := prepArgsInner_end throw hmem hc h hls hacc
    rw [rowsOf_of_nil_mem hmem, List.append_nil]
    exact ⟨r, vm', acc.reverse, hsettles, hs, hr, List.rel_reverse (AreLists.since haccs hs)⟩
  | succ n ih =>
    obtain ⟨qs, rfl⟩ : ∃ qs, lists = consAll qs := by
      refine (nil_mem_or_consAll lists).resolve_left fun hmem => ?_
      have hle := shortest_le hmem
      rw [hn] at hle
      cases hle
    have hqs : qs ≠ [] := fun h => hne (by rw [h]; rfl)
    obtain ⟨nextVal, new, row, vm₁, ts, hround, hs, hval, hts, hnew, hrow⟩ := prepArgsInner_row throw hqs hc h hls hacc
    have hshort : shortest (qs.map Prod.snd) = n := Nat.succ.inj ((shortest_consAll hqs).symm.trans hn)
    obtain ⟨r, vm', rows, hsettles, hs', hr, hrows⟩ := ih (fun h => hqs (List.map_eq_nil_iff.mp h)) (hs.constants hc) hval hts
      hnew (.cons hrow (AreLists.since haccs hs)) hshort
    rw [List.reverse_cons, List.append_assoc, List.singleton_append, ← rowsOf_consAll hqs] at hrows
    exact ⟨r, vm', rows, hround hsettles, hs.trans hs', hr, hrows⟩

/-- **`prep-args` of several lists** transposes them. -/
theorem prepArgs_settles {lists : List (List Ref)} (hlen : 1 < lists.length) (hfits : lists.length < 2 ^ 63) {ls : List Ref}
    {valList : Ref} {vm : VmInternal} (hc : Constants vm) (h : IsList vm valList ls) (hls : AreLists vm ls lists) :
    ∃ r vm' rows, Settles (fun fuel => prepArgs throw fuel valList) vm (.ok (r, vm')) ∧ Since vm vm' ∧
      IsList vm' r rows ∧ AreLists vm' rows (rowsOf lists) := by
  have hcount : ls.length = lists.length := hls.length_eq
  obtain ⟨vm₁, hlength, hs₁⟩ := lengthInner_settles throw 0 hc h
  have hne : ((1 : Int64) == Int64.ofNat ls.length + 0) = false := by
    rw [Int64.add_zero, beq_eq_false_iff_ne, hcount]
    intro hone
    have hint := congrArg Int64.toInt hone
    rw [toInt_ofNat hfits] at hint
    have hone : (1 : Int64).toInt = 1 := rfl
    omega
  obtain ⟨vm₂, h₂, hs₂⟩ := nil_since vm₁
  have hs := hs₁.trans hs₂
  have hempty := (isList_empty (hs₁.constants hc)).since hs₂
  have hlists : lists ≠ [] := List.ne_nil_of_length_pos (Nat.zero_lt_of_lt hlen)
  obtain ⟨r, vm', rows, hsettles, hs', hr, hrows⟩ :=
    prepArgsInner_settles throw hlists (hs.constants hc) (h.since hs) (AreLists.since hls hs) hempty .nil
  refine ⟨r, vm', rows, hlength.bind ?_, hs.trans hs', hr, hrows⟩
  rw [hne]
  exact (settles_of_eq fun _ => h₂).bind hsettles

/-- **`prep-args` of one list** is that list. -/
theorem prepArgs_single {l valList : Ref} {vm : VmInternal} (hc : Constants vm) (h : IsList vm valList [l]) :
    ∃ vm', Settles (fun fuel => prepArgs throw fuel valList) vm (.ok (l, vm')) ∧ Since vm vm' := by
  obtain ⟨vm₁, hlength, hs₁⟩ := lengthInner_settles throw 0 hc h
  obtain ⟨q, hq, -⟩ := isList_cons h
  obtain ⟨vm₂, h₂, hs₂⟩ := car_since throw (hs₁.toGrown.deref hq)
  exact ⟨vm₂, hlength.bind (settles_of_eq fun _ => h₂), hs₁.trans hs₂⟩

end Transpose

/-! ## Procedures

A call may change memory, and so may move what the lists hold.  What a procedure leaves alone are the pairs that
it does not write to; along these a list is the same list after the call. -/

/-- **A procedure**: what a call of it does, and the pairs that it may write to.  They are pairs that there
are, and of the pairs that others make none. -/
structure Procedure where
  call : (args : Ref) → VmM Ref
  writes : VmInternal → Ref → Prop
  there : ∀ {vm r}, writes vm r → vm.deref r ≠ none
  others : ∀ {vm vm' r}, Since vm vm' → writes vm' r → writes vm r
  own : ∀ {args v vm vm' r}, call args vm = .ok (v, vm') → writes vm' r → writes vm r ∨ vm.deref r = none
  pairs : ∀ {args v vm vm' r a d}, call args vm = .ok (v, vm') → ¬ writes vm r → vm.deref r = some (.pair a d) →
    vm'.deref r = some (.pair a d)
  /-- What is `()` stays so, and what is not does not become so. -/
  empty : ∀ {args v vm vm' r o}, call args vm = .ok (v, vm') → vm.deref r = some o →
    ∃ o', vm'.deref r = some o' ∧ (o'.type = .empty ↔ o.type = .empty)
  constants : ∀ {args v vm vm'}, call args vm = .ok (v, vm') → Constants vm → Constants vm'

/-- **A list that a procedure leaves alone.** -/
def Held (f : Procedure) (vm : VmInternal) : Ref → List Ref → Prop
  | r, [] => vm.deref r = some .empty
  | r, e :: es => ¬ f.writes vm r ∧ ∃ q, vm.deref r = some (.pair (some e) (some q)) ∧ Held f vm q es

/-- **The calls of a procedure**, one for each row, and what they come to: the values in order and the state
after them, or how a call stopped. -/
inductive Visits (f : Procedure) : VmInternal → List (List Ref) → Except Stop (List Ref × VmInternal) → Prop
  | done {vm vm' : VmInternal} : Since vm vm' → Visits f vm [] (.ok ([], vm'))
  | stop {vm vm₁ : VmInternal} {args : Ref} {row : List Ref} {rows : List (List Ref)} {e : Stop} : Since vm vm₁ →
      IsList vm₁ args row → f.call args vm₁ = .error e → Visits f vm (row :: rows) (.error e)
  | call {vm vm₁ vm₂ : VmInternal} {args v : Ref} {row : List Ref} {rows : List (List Ref)}
      {out : Except Stop (List Ref × VmInternal)} : Since vm vm₁ → IsList vm₁ args row → f.call args vm₁ = .ok (v, vm₂) →
      Visits f vm₂ rows out → Visits f vm (row :: rows) (out.map fun p => (v :: p.1, p.2))

/-- The object is there, and it is not `()`. -/
def NotNull (vm : VmInternal) (e : Ref) : Prop := ∃ o, vm.deref e = some o ∧ o.type ≠ .empty

section Procedures

variable {f : Procedure} {vm vm' : VmInternal}

/-- A list that is held is a list. -/
theorem Held.isList : ∀ {es : List Ref} {r : Ref}, Held f vm r es → IsList vm r es
  | [], r, h => ⟨[], r, ⟨rfl, .empty, h, by decide⟩, h, rfl⟩
  | _ :: _, _, ⟨_, _, hq, h⟩ => h.isList.cons hq

/-- It is held still where memory has only grown. -/
theorem Held.since (hs : Since vm vm') : ∀ {es : List Ref} {r : Ref}, Held f vm r es → Held f vm' r es
  | [], _, h => hs.toGrown.deref h
  | _ :: _, _, ⟨hr, q, hq, h⟩ => ⟨fun hw => hr (f.others hs hw), q, hs.toGrown.deref hq, Held.since hs h⟩

theorem eq_empty_of_type : ∀ {o : Obj}, o.type = .empty → o = .empty
  | .empty, _ => rfl

/-- **A call leaves a list alone.** -/
theorem Held.call {args v : Ref} (hcall : f.call args vm = .ok (v, vm')) :
    ∀ {es : List Ref} {r : Ref}, Held f vm r es → Held f vm' r es
  | [], _, h => by
      obtain ⟨o, ho, htype⟩ := f.empty hcall h
      rw [eq_empty_of_type (htype.mpr rfl)] at ho
      exact ho
  | _ :: _, _, ⟨hr, q, hq, h⟩ => by
      refine ⟨fun hw => ?_, q, f.pairs hcall hr hq, Held.call hcall h⟩
      rcases f.own hcall hw with hw | hnone
      · exact hr hw
      · rw [hq] at hnone
        cases hnone

/-- A new pair in front of a list. -/
theorem Held.cons {new q e : Ref} {es : List Ref} (h : Held f vm' q es) (hs : Since vm vm') (hfresh : vm.deref new = none)
    (hnew : vm'.deref new = some (.pair (some e) (some q))) : Held f vm' new (e :: es) :=
  ⟨fun hw => f.there (f.others hs hw) hfresh, q, hnew, h⟩

/-- What is not `()` stays so. -/
theorem NotNull.since {e : Ref} (h : NotNull vm e) (hs : Since vm vm') : NotNull vm' e :=
  h.imp fun _ ho => ⟨hs.toGrown.deref ho.1, ho.2⟩

/-- Nor does a call make it `()`. -/
theorem NotNull.call {args v e : Ref} (h : NotNull vm e) (hcall : f.call args vm = .ok (v, vm')) : NotNull vm' e := by
  obtain ⟨o, ho, hne⟩ := h
  obtain ⟨o', ho', htype⟩ := f.empty hcall ho
  exact ⟨o', ho', fun hempty => hne (htype.mp hempty)⟩

/-- Visits from a state are visits from one before it. -/
theorem Visits.since (hs : Since vm vm') {rows : List (List Ref)} {out : Except Stop (List Ref × VmInternal)}
    (h : Visits f vm' rows out) : Visits f vm rows out := by
  cases h with
  | done hs' => exact .done (hs.trans hs')
  | stop hs' hargs hcall => exact .stop (hs.trans hs') hargs hcall
  | call hs' hargs hcall hrest => exact .call (hs.trans hs') hargs hcall hrest

end Procedures

/-! ## The loops

They end at `()` and also at an element that is `()`, since both tests are made with `or`.  The result says at
which of the two. -/

section Visiting

variable (throw : Throw) {f : Procedure}

/-- Where the loops end: at the end of the list, and at an element that is `()`. -/
def AtEnd (vm : VmInternal) (es : List Ref) : Prop := ∀ e ∈ es.head?, vm.deref e = some .empty

/-- The end of a loop stays. -/
theorem AtEnd.since {vm vm' : VmInternal} {es : List Ref} (h : AtEnd vm es) (hs : Since vm vm') : AtEnd vm' es :=
  fun e he => hs.toGrown.deref (h e he)

/-- A call does not move it. -/
theorem AtEnd.call {vm vm' : VmInternal} {es : List Ref} {args v : Ref} (h : AtEnd vm es)
    (hcall : f.call args vm = .ok (v, vm')) : AtEnd vm' es := fun e he => by
  obtain ⟨o, ho, htype⟩ := f.empty hcall (h e he)
  rw [eq_empty_of_type (htype.mpr rfl)] at ho
  exact ho

/-- The test at the end of a loop. -/
theorem atEnd_true {vm : VmInternal} {list : Ref} {es : List Ref} (hc : Constants vm) (h : IsList vm list es)
    (hend : AtEnd vm es) : ∃ vm', atEnd throw list vm = .ok (true, vm') ∧ Since vm vm' := by
  cases es with
  | nil =>
    obtain ⟨vm₁, h₁, hs₁⟩ := truth_since hc (isList_nil h) (· == .empty)
    exact ⟨vm₁, run_bind h₁, hs₁⟩
  | cons e es =>
    obtain ⟨q, hq, -⟩ := isList_cons h
    obtain ⟨vm₁, h₁, hs₁⟩ := truth_since hc hq (· == .empty)
    obtain ⟨vm₂, h₂, hs₂⟩ := truth_null_car throw (hs₁.constants hc) (hs₁.toGrown.deref hq) (hs₁.toGrown.deref (hend e rfl))
    exact ⟨vm₂, (run_bind h₁).trans h₂, hs₁.trans hs₂⟩

theorem atEnd_false {vm : VmInternal} {list e q : Ref} (hc : Constants vm)
    (hq : vm.deref list = some (.pair (some e) (some q)))
    (he : NotNull vm e) : ∃ vm', atEnd throw list vm = .ok (false, vm') ∧ Since vm vm' := by
  obtain ⟨o, ho, hne⟩ := he
  obtain ⟨vm₁, h₁, hs₁⟩ := truth_since hc hq (· == .empty)
  obtain ⟨vm₂, h₂, hs₂⟩ := truth_null_car throw (hs₁.constants hc) (hs₁.toGrown.deref hq) (hs₁.toGrown.deref ho)
  rw [beq_eq_false_iff_ne.mpr hne] at h₂
  exact ⟨vm₂, (run_bind h₁).trans h₂, hs₁.trans hs₂⟩

/-- **A visit calls the procedure with the element alone.** -/
theorem visit_run {vm : VmInternal} {list e q : Ref} (hc : Constants vm)
    (hq : vm.deref list = some (.pair (some e) (some q))) :
    ∃ l vm₁, Since vm vm₁ ∧ IsList vm₁ l [e] ∧ ∀ fuel proc, visit throw fuel proc list vm = proc l vm₁ := by
  obtain ⟨vm₁, h₁, hs₁⟩ := nil_since vm
  obtain ⟨vm₂, h₂, hs₂⟩ := car_since throw (hs₁.toGrown.deref hq)
  obtain ⟨vm₃, h₃, hs₃⟩ := nil_since vm₂
  obtain ⟨l, vm₄, h₄, hs₄, hl, -⟩ := cons_since vm₃ e vm₂.empty
  have hs := (hs₁.trans hs₂).trans (hs₃.trans hs₄)
  obtain ⟨vm₅, h₅, hs₅⟩ := truth_since (hs.constants hc) (hs.toGrown.deref hc.empty) (· == .empty)
  have hempty := (isList_empty ((hs₁.trans hs₂).constants hc)).since (hs₃.trans hs₄)
  refine ⟨l, vm₅, hs.trans hs₅, (IsList.cons hempty hl).since hs₅, fun fuel proc => ?_⟩
  have hlist : Lib.list e vm₂ = .ok (l, vm₄) := (run_bind h₃).trans h₄
  have hargs : (do if ← truth (isNull vm.empty) then pure l else append throw fuel l vm.empty) vm₄ = .ok (l, vm₅) :=
      run_bind h₅
  exact (run_bind h₁).trans ((run_bind h₂).trans ((run_bind hlist).trans (run_bind hargs)))

/-- What a run of `map` comes to, given what its calls come to and the values that there are already. -/
def MapEnds (x : ℕ → VmM Ref) (vm : VmInternal) (acc : List Ref) : Except Stop (List Ref × VmInternal) → Prop
  | .error e => Settles x vm (.error e)
  | .ok (rs, vm') => ∃ r, Settles x vm (.ok (r, vm')) ∧ IsList vm' r (acc.reverse ++ rs)

/-- **The loop of `map`** visits the elements before the first that is `()`. -/
theorem mapInner_visits {post : List Ref} : ∀ {pre acc : List Ref} {list result : Ref} {vm : VmInternal}, Constants vm →
    Held f vm list (pre ++ post) → (∀ e ∈ pre, NotNull vm e) → AtEnd vm post → Held f vm result acc →
    ∃ out, Visits f vm (pre.map fun e => [e]) out ∧ MapEnds (fun fuel => mapInner throw f.call fuel list result) vm acc out
  | [], acc, list, result, vm, hc, h, _, hend, hacc => by
      obtain ⟨vm₁, h₁, hs₁⟩ := atEnd_true throw hc h.isList hend
      obtain ⟨r, vm', hsettles, hs', hr⟩ := reverse_settles throw (hs₁.constants hc) (hacc.since hs₁).isList
      refine ⟨.ok ([], vm'), .done (hs₁.trans hs'), r, hsettles.succ fun fuel => run_bind h₁, ?_⟩
      rwa [List.append_nil]
  | e :: pre, acc, list, result, vm, hc, h, hpre, hend, hacc => by
      obtain ⟨he, hpre⟩ := List.forall_mem_cons.mp hpre
      obtain ⟨-, q, hq, -⟩ := id h
      obtain ⟨vm₁, h₁, hs₁⟩ := atEnd_false throw hc hq he
      obtain ⟨l, vm₂, hs₂, hl, hvisit⟩ := visit_run throw (hs₁.constants hc) (hs₁.toGrown.deref hq)
      have hs := hs₁.trans hs₂
      cases hcall : f.call l vm₂ with
      | error stop =>
        have hround : ∀ fuel, mapInner throw f.call (fuel + 1) list result vm = .error stop := fun fuel =>
          (run_bind h₁).trans (bind_error _ ((hvisit fuel f.call).trans hcall))
        exact ⟨.error stop, .stop hs hl hcall, Settles.succ (settles_of_eq hround) fun _ => rfl⟩
      | ok p =>
        obtain ⟨v, vm₃⟩ := p
        have hheld : Held f vm₃ list (e :: pre ++ post) := (h.since hs).call hcall
        obtain ⟨-, q', hq', hrest⟩ := id hheld
        obtain ⟨new, vm₄, h₄, hs₄, hnew, hfresh⟩ := cons_since vm₃ v result
        obtain ⟨vm₅, h₅, hs₅⟩ := cdr_since throw (hs₄.toGrown.deref hq')
        have hlater := hs₄.trans hs₅
        have hresult : Held f vm₅ new (v :: acc) :=
          (Held.cons (((hacc.since hs).call hcall).since hs₄) hs₄ hfresh hnew).since hs₅
        obtain ⟨out, hvisits, hends⟩ := mapInner_visits (hlater.constants (f.constants hcall (hs.constants hc)))
          (hrest.since hlater) (fun e he => (((hpre e he).since hs).call hcall).since hlater)
          (((hend.since hs).call hcall).since hlater) hresult
        have hround : ∀ fuel, mapInner throw f.call (fuel + 1) list result vm = mapInner throw f.call fuel q' new vm₅ :=
          fun fuel => (run_bind h₁).trans ((run_bind ((hvisit fuel f.call).trans hcall)).trans
            ((run_bind h₄).trans (run_bind h₅)))
        refine ⟨_, .call hs hl hcall (hvisits.since hlater), ?_⟩
        cases out with
        | error stop => exact Settles.succ hends hround
        | ok p =>
          obtain ⟨r, hsettles, hr⟩ := hends
          rw [List.reverse_cons, List.append_assoc, List.singleton_append] at hr
          exact ⟨r, hsettles.succ hround, hr⟩

/-- **`map` visits** what the first elements of its rows are, up to one that is `()`. -/
theorem map_visits {pre post : List Ref} {valList r : Ref} {vm vm₁ vm₂ : VmInternal} (hc : Constants vm)
    (hnil : nil vm = .ok (vm.empty, vm₁)) (hs₁ : Since vm vm₁)
    (hprep : Settles (fun fuel => prepArgs throw fuel valList) vm₁ (.ok (r, vm₂))) (hs₂ : Since vm₁ vm₂)
    (h : Held f vm₂ r (pre ++ post)) (hpre : ∀ e ∈ pre, NotNull vm₂ e) (hend : AtEnd vm₂ post) :
    ∃ out, Visits f vm (pre.map fun e => [e]) out ∧ MapEnds (fun fuel => map throw fuel f.call valList) vm [] out := by
  have hs := hs₁.trans hs₂
  have hempty : Held f vm₂ vm.empty [] := hs.toGrown.deref hc.empty
  obtain ⟨out, hvisits, hends⟩ := mapInner_visits throw (hs.constants hc) h hpre hend hempty
  refine ⟨out, hvisits.since hs, ?_⟩
  cases out with
  | error stop => exact (settles_of_eq fun _ => hnil).bind (hprep.bind hends)
  | ok p =>
    obtain ⟨v, hsettles, hv⟩ := hends
    exact ⟨v, (settles_of_eq fun _ => hnil).bind (hprep.bind hsettles), hv⟩

/-- What a run of `for-each` comes to, given what its calls come to. -/
def ForEachEnds (x : ℕ → VmM Ref) (vm : VmInternal) : Except Stop (List Ref × VmInternal) → Prop
  | .error e => Settles x vm (.error e)
  | .ok (_, vm') => ∃ r, Settles x vm (.ok (r, vm'))

/-- A round in front of the others. -/
theorem ForEachEnds.after {x y : ℕ → VmM Ref} {vm vm' : VmInternal} (hround : ∀ {out}, Settles y vm' out → Settles x vm out) :
    ∀ {out : Except Stop (List Ref × VmInternal)}, ForEachEnds y vm' out → ForEachEnds x vm out
  | .error _, h => hround h
  | .ok _, ⟨r, h⟩ => ⟨r, hround h⟩

/-- **The loop of `for-each`** visits the same elements. -/
theorem forEachInner_visits {post : List Ref} : ∀ {pre : List Ref} {list : Ref} {vm : VmInternal}, Constants vm →
    Held f vm list (pre ++ post) → (∀ e ∈ pre, NotNull vm e) → AtEnd vm post →
    ∃ out, Visits f vm (pre.map fun e => [e]) out ∧ ForEachEnds (fun fuel => forEachInner throw f.call fuel list) vm out
  | [], list, vm, hc, h, _, hend => by
      obtain ⟨vm₁, h₁, hs₁⟩ := atEnd_true throw hc h.isList hend
      obtain ⟨vm₂, h₂, hs₂⟩ := nil_since vm₁
      exact ⟨.ok ([], vm₂), .done (hs₁.trans hs₂), _, Settles.succ (settles_of_eq fun _ => h₂) fun fuel => run_bind h₁⟩
  | e :: pre, list, vm, hc, h, hpre, hend => by
      obtain ⟨he, hpre⟩ := List.forall_mem_cons.mp hpre
      obtain ⟨-, q, hq, -⟩ := id h
      obtain ⟨vm₁, h₁, hs₁⟩ := atEnd_false throw hc hq he
      obtain ⟨l, vm₂, hs₂, hl, hvisit⟩ := visit_run throw (hs₁.constants hc) (hs₁.toGrown.deref hq)
      have hs := hs₁.trans hs₂
      cases hcall : f.call l vm₂ with
      | error stop =>
        have hround : ∀ fuel, forEachInner throw f.call (fuel + 1) list vm = .error stop := fun fuel =>
          (run_bind h₁).trans (bind_error _ ((hvisit fuel f.call).trans hcall))
        exact ⟨.error stop, .stop hs hl hcall, Settles.succ (settles_of_eq hround) fun _ => rfl⟩
      | ok p =>
        obtain ⟨v, vm₃⟩ := p
        have hheld : Held f vm₃ list (e :: pre ++ post) := (h.since hs).call hcall
        obtain ⟨-, q', hq', hrest⟩ := id hheld
        obtain ⟨vm₄, h₄, hs₄⟩ := cdr_since throw hq'
        obtain ⟨out, hvisits, hends⟩ := forEachInner_visits (hs₄.constants (f.constants hcall (hs.constants hc)))
          (hrest.since hs₄) (fun e he => (((hpre e he).since hs).call hcall).since hs₄)
          (((hend.since hs).call hcall).since hs₄)
        have hround : ∀ fuel, forEachInner throw f.call (fuel + 1) list vm = forEachInner throw f.call fuel q' vm₄ :=
          fun fuel => (run_bind h₁).trans ((run_bind ((hvisit fuel f.call).trans hcall)).trans (run_bind h₄))
        refine ⟨_, .call hs hl hcall (hvisits.since hs₄), ?_⟩
        have hafter : ForEachEnds (fun fuel => forEachInner throw f.call fuel list) vm out :=
          hends.after fun h => h.succ hround
        cases out with
        | error stop => exact hafter
        | ok p => exact hafter

end Visiting

/-! ## Every row

The rows are visited in order where no test ends the loop early, with the row as the arguments of each
call. -/

/-- **`map` and `for-each` visit every row**: for each procedure that leaves the lists alone, the calls are
one for each row, in order, and `map` returns the list of their values. -/
def VisitsRows (throw : Throw) (vm : VmInternal) (valList : Ref) (ls : List Ref) (lists : List (List Ref)) : Prop :=
  ∀ f : Procedure, List.Forall₂ (Held f vm) ls lists →
    (∃ out, Visits f vm (rowsOf lists) out ∧ MapEnds (fun fuel => map throw fuel f.call valList) vm [] out) ∧
    ∃ out, Visits f vm (rowsOf lists) out ∧ ForEachEnds (fun fuel => forEach throw fuel f.call valList) vm out

section Rows

variable (throw : Throw) {vm : VmInternal} {valList : Ref}

/-- **One list** whose elements are not `()`. -/
theorem visitsRows_single {l : Ref} {es : List Ref} (hc : Constants vm) (hargs : IsList vm valList [l])
    (hes : ∀ e ∈ es, NotNull vm e) : VisitsRows throw vm valList [l] [es] := by
  intro f hheld
  obtain ⟨hl, -⟩ := List.forall₂_cons.mp hheld
  rw [rowsOf_singleton]
  obtain ⟨vm₁, h₁, hs₁⟩ := nil_since vm
  obtain ⟨vm₂, h₂, hs₂⟩ := prepArgs_single throw (hs₁.constants hc) (hargs.since hs₁)
  obtain ⟨vm₃, h₃, hs₃⟩ := prepArgs_single throw hc hargs
  have hend : ∀ vm, AtEnd vm [] := fun vm e he => by cases he
  have hheld : ∀ {vm'}, Since vm vm' → Held f vm' l (es ++ []) := fun hs => by
    rw [List.append_nil]
    exact hl.since hs
  refine ⟨map_visits throw hc h₁ hs₁ h₂ hs₂ (hheld (hs₁.trans hs₂)) (fun e he => (hes e he).since (hs₁.trans hs₂))
    (hend vm₂), ?_⟩
  obtain ⟨out, hvisits, hends⟩ := forEachInner_visits throw (hs₃.constants hc) (hheld hs₃)
    (fun e he => (hes e he).since hs₃) (hend vm₃)
  exact ⟨out, hvisits.since hs₃, hends.after fun h => h₃.bind h⟩

/-- **Several lists**, one of which is empty. -/
theorem visitsRows_nil {ls : List Ref} {lists : List (List Ref)} (hc : Constants vm) (hargs : IsList vm valList ls)
    (hls : AreLists vm ls lists) (hlen : 1 < lists.length) (hfits : lists.length < 2 ^ 63) (hmem : [] ∈ lists) :
    VisitsRows throw vm valList ls lists := by
  intro f _
  rw [rowsOf_of_nil_mem hmem]
  obtain ⟨vm₁, h₁, hs₁⟩ := nil_since vm
  have hrows : ∀ {vm' : VmInternal} {rows : List Ref}, AreLists vm' rows (rowsOf lists) → rows = [] := by
    intro vm' rows h
    rw [rowsOf_of_nil_mem hmem] at h
    cases h
    rfl
  obtain ⟨r₂, vm₂, rows₂, h₂, hs₂, hr₂, hrows₂⟩ :=
    prepArgs_settles throw hlen hfits (hs₁.constants hc) (hargs.since hs₁) (AreLists.since hls hs₁)
  obtain ⟨r₃, vm₃, rows₃, h₃, hs₃, hr₃, hrows₃⟩ := prepArgs_settles throw hlen hfits hc hargs hls
  rw [hrows hrows₂] at hr₂
  rw [hrows hrows₃] at hr₃
  have hend : ∀ vm, AtEnd vm [] := fun vm e he => by cases he
  have hnone : ∀ {vm}, ∀ e ∈ ([] : List Ref), NotNull vm e := fun e he => by cases he
  have hheld : ∀ {vm' r}, IsList vm' r [] → Held f vm' r ([] ++ []) := fun h => isList_nil h
  refine ⟨map_visits throw hc h₁ hs₁ h₂ hs₂ (hheld hr₂) hnone (hend vm₂), ?_⟩
  obtain ⟨out, hvisits, hends⟩ := forEachInner_visits throw (f := f) (hs₃.constants hc) (hheld hr₃) hnone (hend vm₃)
  exact ⟨out, hvisits.since hs₃, hends.after fun h => h₃.bind h⟩

/-- A procedure that gives the list of its arguments. -/
def echo : Procedure where
  call args := pure args
  writes _ _ := False
  there h := h.elim
  others _ h := h
  own _ h := h.elim
  pairs h _ hr := by cases h; exact hr
  empty h hr := by cases h; exact ⟨_, hr, Iff.rfl⟩
  constants h hc := by cases h; exact hc

/-- A procedure that stops with the list of its arguments. -/
def refuse : Procedure where
  call args := fun vm => .error (.raised [] [args] vm)
  writes _ _ := False
  there h := h.elim
  others _ h := h
  own _ h := h.elim
  pairs h _ _ := by cases h
  empty h _ := by cases h
  constants h _ := by cases h

/-- A list is held by a procedure that writes to nothing. -/
theorem held_of_isList {f : Procedure} (hf : ∀ r, ¬ f.writes vm r) :
    ∀ {es : List Ref} {r : Ref}, IsList vm r es → Held f vm r es
  | [], _, h => isList_nil h
  | _ :: _, _, h => by
      obtain ⟨q, hq, hrest⟩ := isList_cons h
      exact ⟨hf _, q, hq, held_of_isList hf hrest⟩

/-- All calls of `echo` return. -/
theorem echo_returns : ∀ {rows : List (List Ref)} {vm : VmInternal} {out : Except Stop (List Ref × VmInternal)},
    Visits echo vm rows out → ∃ rs vm', out = .ok (rs, vm') ∧ rs.length = rows.length
  | [], _, _, .done _ => ⟨[], _, rfl, rfl⟩
  | _ :: _, _, _, .stop _ _ hcall => by cases hcall
  | _ :: _, _, _, .call _ _ _ hrest => by
      obtain ⟨rs, vm', rfl, hlen⟩ := echo_returns hrest
      exact ⟨_, vm', rfl, congrArg (· + 1) hlen⟩

/-- The first call of `refuse` stops, with its arguments. -/
theorem refuse_stops {row : List Ref} {rows : List (List Ref)} {out : Except Stop (List Ref × VmInternal)}
    (h : Visits refuse vm (row :: rows) out) : ∃ args vm₁, IsList vm₁ args row ∧ out = .error (.raised [] [args] vm₁) := by
  cases h with
  | stop _ hargs hcall =>
    cases hcall
    exact ⟨_, _, hargs, rfl⟩
  | call _ _ hcall _ => cases hcall

/-- Some elements are not `()`, and then comes one that is, or the end. -/
theorem exists_visited : ∀ {es : List Ref}, (∀ e ∈ es, ∃ o, vm.deref e = some o) →
    ∃ pre post, es = pre ++ post ∧ (∀ e ∈ pre, NotNull vm e) ∧ AtEnd vm post
  | [], _ => ⟨[], [], rfl, by simp, fun e he => by cases he⟩
  | e :: es, h => by
      obtain ⟨⟨o, ho⟩, hes⟩ := List.forall_mem_cons.mp h
      by_cases hnull : o.type = .empty
      · refine ⟨[], e :: es, rfl, by simp, fun e' he => ?_⟩
        cases he
        rw [ho, eq_empty_of_type hnull]
      · obtain ⟨pre, post, rfl, hpre, hend⟩ := exists_visited hes
        exact ⟨e :: pre, post, rfl, List.forall_mem_cons.mpr ⟨⟨o, ho, hnull⟩, hpre⟩, hend⟩

/-- **One list whose rows are all visited** has no element that is `()`. -/
theorem VisitsRows.notNull {l : Ref} {es : List Ref} (hc : Constants vm) (hargs : IsList vm valList [l])
    (hl : IsList vm l es) (hes : ∀ e ∈ es, ∃ o, vm.deref e = some o) (h : VisitsRows throw vm valList [l] [es]) :
    ∀ e ∈ es, vm.deref e ≠ some .empty := by
  obtain ⟨pre, post, rfl, hpre, hend⟩ := exists_visited hes
  have hheld : Held echo vm l (pre ++ post) := held_of_isList (fun _ h => h) hl
  obtain ⟨⟨out, hvisits, hends⟩, -⟩ := h echo (.cons hheld .nil)
  obtain ⟨vm₁, h₁, hs₁⟩ := nil_since vm
  obtain ⟨vm₂, h₂, hs₂⟩ := prepArgs_single throw (hs₁.constants hc) (hargs.since hs₁)
  have hs := hs₁.trans hs₂
  obtain ⟨out', hvisits', hends'⟩ := map_visits throw hc h₁ hs₁ h₂ hs₂ (hheld.since hs) (fun e he => (hpre e he).since hs)
    (hend.since hs)
  obtain ⟨rs, vm', rfl, hlen⟩ := echo_returns hvisits
  obtain ⟨rs', vm'', rfl, hlen'⟩ := echo_returns hvisits'
  obtain ⟨r, hsettles, hr⟩ := hends
  obtain ⟨r', hsettles', hr'⟩ := hends'
  cases hsettles.unique hsettles'
  have hcount := congrArg List.length (hr.unique hr')
  rw [rowsOf_singleton, List.length_map, List.length_append] at hlen
  rw [List.length_map] at hlen'
  simp only [List.reverse_nil, List.nil_append] at hcount
  have hpost : post = [] := List.eq_nil_of_length_eq_zero (by omega)
  rw [hpost, List.append_nil]
  intro e he hempty
  obtain ⟨o, ho, hne⟩ := hpre e he
  cases ho.symm.trans hempty
  exact hne rfl

/-- **Several lists with a row are not visited**: the procedure gets one argument. -/
theorem not_visitsRows {qs : List (Ref × List Ref)} {ls : List Ref} (hc : Constants vm) (hargs : IsList vm valList ls)
    (hls : AreLists vm ls (consAll qs)) (hlen : 1 < (consAll qs).length) (hfits : (consAll qs).length < 2 ^ 63) :
    ¬ VisitsRows throw vm valList ls (consAll qs) := by
  intro h
  have hqs : qs ≠ [] := by
    rintro rfl
    cases hlen
  have hrows := rowsOf_consAll hqs
  obtain ⟨⟨out, hvisits, hends⟩, -⟩ := h refuse (hls.imp fun _ _ h => held_of_isList (fun _ h => h) h)
  rw [hrows] at hvisits
  obtain ⟨args, vmA, hrow, rfl⟩ := refuse_stops hvisits
  obtain ⟨vm₁, h₁, hs₁⟩ := nil_since vm
  obtain ⟨r, vm₂, rows, h₂, hs₂, hr, hlists⟩ :=
    prepArgs_settles throw hlen hfits (hs₁.constants hc) (hargs.since hs₁) (AreLists.since hls hs₁)
  have hnotNull : ∀ e ∈ rows, NotNull vm₂ e := by
    intro e he
    obtain ⟨row, hmem, hlist⟩ := AreLists.exists_mem hlists he
    obtain ⟨x, xs, rfl⟩ := List.exists_cons_of_ne_nil (ne_nil_of_mem_rowsOf (List.ne_nil_of_length_pos (by omega)) hmem)
    obtain ⟨q, hq, -⟩ := isList_cons hlist
    exact ⟨_, hq, by simp [Obj.type]⟩
  rw [hrows] at hlists
  obtain ⟨first, rest, hfirst, -, rfl⟩ := List.forall₂_cons_right_iff.mp hlists
  have hheld : Held refuse vm₂ r (first :: rest ++ []) := by
    rw [List.append_nil]
    exact held_of_isList (fun _ h => h) hr
  obtain ⟨out', hvisits', hends'⟩ := map_visits throw hc h₁ hs₁ h₂ hs₂ hheld hnotNull fun e he => by cases he
  obtain ⟨args', vmB, hone, rfl⟩ := refuse_stops hvisits'
  cases hends.unique hends'
  have hcount := congrArg List.length (hrow.unique hone)
  rw [List.length_map] at hcount
  rw [consAll, List.length_map, hcount] at hlen
  exact Nat.lt_irrefl 1 hlen

end Rows

/-- **`map` and `for-each` visit every row** exactly when there is none, or there is one list and none of its
elements is `()`. -/
theorem map_visits_rows_iff {host : Host} (throw : Throw) {vm : VmInternal} {valList : Ref} {ls : List Ref}
    {lists : List (List Ref)} (h : Reachable host vm) (hargs : IsList vm valList ls) (hls : AreLists vm ls lists)
    (hes : ∀ es ∈ lists, ∀ e ∈ es, ∃ o, vm.deref e = some o) (hne : lists ≠ []) (hfits : lists.length < 2 ^ 63) :
    VisitsRows throw vm valList ls lists ↔
      [] ∈ lists ∨ ∃ es, lists = [es] ∧ ∀ e ∈ es, vm.deref e ≠ some .empty := by
  have hc := h.constants
  have hnotNull : ∀ {es : List Ref}, (∀ e ∈ es, ∃ o, vm.deref e = some o) → (∀ e ∈ es, vm.deref e ≠ some .empty) →
      ∀ e ∈ es, NotNull vm e := by
    intro es hes hnone e he
    obtain ⟨o, ho⟩ := hes e he
    exact ⟨o, ho, fun hempty => hnone e he (by rw [ho, eq_empty_of_type hempty])⟩
  obtain ⟨es, rest, rfl⟩ := List.exists_cons_of_ne_nil hne
  cases rest with
  | nil =>
    obtain ⟨l, _, hl, hnil, rfl⟩ := List.forall₂_cons_right_iff.mp hls
    cases hnil
    have hes := hes es List.mem_cons_self
    constructor
    · exact fun hvisits => .inr ⟨es, rfl, hvisits.notNull throw hc hargs hl hes⟩
    · rintro (hmem | ⟨es', heq, hnone⟩)
      · cases List.mem_singleton.mp hmem
        exact visitsRows_single throw hc hargs (by simp)
      · cases heq
        exact visitsRows_single throw hc hargs (hnotNull hes hnone)
  | cons es' rest =>
    have hlen : 1 < (es :: es' :: rest).length := Nat.succ_lt_succ (Nat.succ_pos _)
    constructor
    · intro hvisits
      refine (nil_mem_or_consAll _).imp_right ?_
      rintro ⟨qs, heq⟩
      rw [heq] at hvisits hls hlen hfits
      exact absurd hvisits (not_visitsRows throw hc hargs hls hlen hfits)
    · rintro (hmem | ⟨_, heq, -⟩)
      · exact visitsRows_nil throw hc hargs hls hlen hfits hmem
      · cases heq

/-- A program that leaves the list of the list `(1 2)` in memory. -/
def oneList : List (Token ℕ) :=
  [.op .litEmpty Op.noOperand, .op .litEmpty Op.noOperand, .fixnum 2, .op .cons Op.noOperand, .fixnum 1,
    .op .cons Op.noOperand, .op .cons Op.noOperand]

/-- The numbers of `(1 2)` are visited one after the other. -/
theorem map_visits_rows_two : ∃ vm, Reachable Host.bare vm ∧ vm.deref (.obj 5) = some (.fixnum 1) ∧
    vm.deref (.obj 3) = some (.fixnum 2) ∧ VisitsRows raise vm (.obj 7) [.obj 6] [[.obj 5, .obj 3]] := by
  have hpasses : passes (vmLoop Host.bare 7) (startBytes ((asmString oneList).getD []) vmCreate) (fun vm =>
      vm.objs = [.empty, .bool true, .bool false, .fixnum 2, .pair (some (.obj 3)) (some (.obj 0)), .fixnum 1,
        .pair (some (.obj 5)) (some (.obj 4)), .pair (some (.obj 6)) (some (.obj 0))]) = true := by decide +kernel
  obtain ⟨⟨⟩, vm, hrun, hvm⟩ := exists_of_passes hpasses
  have hread : ∀ n o, _ → vm.deref (.obj n) = some o := fun n _ hn => (congrArg (·[n]?) (of_decide_eq_true hvm)).trans hn
  have hreach : Reachable Host.bare vm := (later_startBytes _ rfl).trans (later_vmLoop hrun)
  have hnil : IsList vm (.obj 0) [] := ⟨[], .obj 0, ⟨rfl, _, hread 0 .empty rfl, by decide⟩, hread 0 _ rfl, rfl⟩
  have hl : IsList vm (.obj 6) [.obj 5, .obj 3] := (hnil.cons (hread 4 _ rfl)).cons (hread 6 _ rfl)
  have hargs : IsList vm (.obj 7) [.obj 6] := hnil.cons (hread 7 _ rfl)
  have hnumber : ∀ e ∈ [Ref.obj 5, Ref.obj 3], ∃ n, vm.deref e = some (.fixnum n) := by
    intro e he
    rcases List.mem_pair.mp he with rfl | rfl
    · exact ⟨_, hread 5 _ rfl⟩
    · exact ⟨_, hread 3 _ rfl⟩
  refine ⟨vm, hreach, hread 5 _ rfl, hread 3 _ rfl, (map_visits_rows_iff raise hreach hargs (.cons hl .nil) ?_ (by simp)
    (by decide)).mpr (.inr ⟨_, rfl, fun e he hempty => ?_⟩)⟩
  · intro es hes e he
    cases List.mem_singleton.mp hes
    obtain ⟨n, hn⟩ := hnumber e he
    exact ⟨_, hn⟩
  · obtain ⟨n, hn⟩ := hnumber e he
    cases hn.symm.trans hempty

/-- A program that leaves the list of a list of `()` in memory, and the list of the lists `(1)` and `(2)`. -/
def skippedLists : List (Token ℕ) :=
  [.op .litEmpty Op.noOperand, .op .litEmpty Op.noOperand, .op .litEmpty Op.noOperand, .op .cons Op.noOperand,
    .op .cons Op.noOperand, .op .litEmpty Op.noOperand, .op .litEmpty Op.noOperand, .fixnum 2, .op .cons Op.noOperand,
    .op .cons Op.noOperand, .op .litEmpty Op.noOperand, .fixnum 1, .op .cons Op.noOperand, .op .cons Op.noOperand]

/-- **What `map` leaves out**: a row that is `()` is not visited, and of two lists without an empty one the rows are not
the ones of the lists. -/
theorem map_skips_nil : ∃ vm, Reachable Host.bare vm ∧
    (IsList vm (.obj 4) [.obj 3] ∧ IsList vm (.obj 3) [.obj 0] ∧ vm.deref (.obj 0) = some .empty ∧
      ¬ VisitsRows raise vm (.obj 4) [.obj 3] [[.obj 0]]) ∧
    IsList vm (.obj 10) [.obj 9, .obj 6] ∧ AreLists vm [.obj 9, .obj 6] [[.obj 8], [.obj 5]] ∧
      vm.deref (.obj 8) = some (.fixnum 1) ∧ vm.deref (.obj 5) = some (.fixnum 2) ∧
      ¬ VisitsRows raise vm (.obj 10) [.obj 9, .obj 6] [[.obj 8], [.obj 5]] := by
  have hpasses : passes (vmLoop Host.bare 14) (startBytes ((asmString skippedLists).getD []) vmCreate) (fun vm =>
      vm.objs = [.empty, .bool true, .bool false, .pair (some (.obj 0)) (some (.obj 0)), .pair (some (.obj 3)) (some (.obj 0)),
        .fixnum 2, .pair (some (.obj 5)) (some (.obj 0)), .pair (some (.obj 6)) (some (.obj 0)), .fixnum 1,
        .pair (some (.obj 8)) (some (.obj 0)), .pair (some (.obj 9)) (some (.obj 7))]) = true := by decide +kernel
  obtain ⟨⟨⟩, vm, hrun, hvm⟩ := exists_of_passes hpasses
  have hread : ∀ n o, _ → vm.deref (.obj n) = some o := fun n _ hn => (congrArg (·[n]?) (of_decide_eq_true hvm)).trans hn
  have hreach : Reachable Host.bare vm := (later_startBytes _ rfl).trans (later_vmLoop hrun)
  have hc := hreach.constants
  have hnil : IsList vm (.obj 0) [] := ⟨[], .obj 0, ⟨rfl, _, hread 0 .empty rfl, by decide⟩, hread 0 _ rfl, rfl⟩
  have hl : IsList vm (.obj 3) [.obj 0] := hnil.cons (hread 3 _ rfl)
  have hargs : IsList vm (.obj 4) [.obj 3] := hnil.cons (hread 4 _ rfl)
  have hlists : AreLists vm [.obj 9, .obj 6] [[.obj 8], [.obj 5]] :=
    .cons (hnil.cons (hread 9 _ rfl)) (.cons (hnil.cons (hread 6 _ rfl)) .nil)
  have htwo : IsList vm (.obj 10) [.obj 9, .obj 6] := (hnil.cons (hread 7 _ rfl)).cons (hread 10 _ rfl)
  refine ⟨vm, hreach, ⟨hargs, hl, hread 0 _ rfl, fun hvisits => ?_⟩, htwo, hlists, hread 8 _ rfl, hread 5 _ rfl, ?_⟩
  · refine hvisits.notNull raise hc hargs hl (fun e he => ?_) (.obj 0) List.mem_cons_self (hread 0 _ rfl)
    cases List.mem_singleton.mp he
    exact ⟨_, hread 0 _ rfl⟩
  · change ¬ VisitsRows raise vm _ _ (consAll [(.obj 8, []), (.obj 5, [])])
    exact not_visitsRows raise hc htwo hlists (by decide) (by decide)

end Insomniac.Lib

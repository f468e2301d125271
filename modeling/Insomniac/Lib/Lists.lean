import Insomniac.Lib.Inline
import Insomniac.Machinery.Fuel
import Insomniac.Machinery.Linked
import Insomniac.Vm.Runs

/-!
# Lib/Lists — `append` and `list-copy`

The procedures of `lib/lists.scm`.  Both build their result behind a pair that is made anew by a quoted
constant, by writing the `cdr` of its last pair.

    accum ──▸ ( () . • )──▸ ( e₁ . • )──▸ ( e₂ . • )──▸ ( e₃ . () )
                                                         running tail

A loop takes fuel, and the theorems say what it settles on.
-/

open Run Fuel Insomniac.Asm

namespace Insomniac.Lib

open Insomniac.Vm

/-! ## The procedures

As the library has them, form by form; a loop of Scheme is a recursion on fuel. -/

/-- `'()`. -/
def nil : VmM Ref := asm [] opLitEmpty

/-- `cons`. -/
def cons (car cdr : Ref) : VmM Ref := asm [cdr, car] opCons

/-- `null?`. -/
def isNull (x : Ref) : VmM Ref := asm [x] opIsEmpty

/-- `pair?`. -/
def isPair (x : Ref) : VmM Ref := asm [x] opIsPair

/-- Whether a test holds: only `#f` does not. -/
def truth (test : VmM Ref) : VmM Bool := do
  match ← load (← test) with
  | .bool false => pure false
  | _ => pure true

/-- `'(() . ())`: what `emit_quoted` writes for it makes a new pair each time. -/
def quotedPair : VmM Ref := asm [] (do opLitEmpty; opLitEmpty; opCons)

section Procedures

variable (throw : Throw)

/-- `car`. -/
def car (x : Ref) : VmM Ref := asm [x] (opCar throw)

/-- `cdr`. -/
def cdr (x : Ref) : VmM Ref := asm [x] (opCdr throw)

/-- `set-cdr!`. -/
def setCdr (pair obj : Ref) : VmM Ref := asm [pair, obj] (opSetCdr throw)

/-- The loop of `length`. -/
def lengthInner : (fuel : ℕ) → (list : Ref) → (len : Int64) → VmM Int64
  | 0, _, _ => undefined
  | fuel + 1, list, len => do
    if ← truth (isNull list) then pure len
    else lengthInner fuel (← cdr throw list) (1 + len)

/-- `length`. -/
def length (fuel : ℕ) (list : Ref) : VmM Int64 := lengthInner throw fuel list 0

/-- The loop of `reverse`. -/
def reverseInner : (fuel : ℕ) → (list revList : Ref) → VmM Ref
  | 0, _, _ => undefined
  | fuel + 1, list, revList => do
    if ← truth (isNull list) then pure revList
    else
      let revList ← cons (← car throw list) revList
      reverseInner fuel (← cdr throw list) revList

/-- `reverse`. -/
def reverse (fuel : ℕ) (list : Ref) : VmM Ref := do reverseInner throw fuel list (← nil)

/-- The loop of `list-copy`. -/
def listCopyInner : (fuel : ℕ) → (list accum : Ref) → VmM Ref
  | 0, _, _ => undefined
  | fuel + 1, list, accum => do
    if ← truth (isNull list) then nil
    else
      let empty ← nil
      let next ← cons (← car throw list) empty
      let _ ← setCdr throw accum next
      listCopyInner fuel (← cdr throw list) next

/-- `list-copy`. -/
def listCopy (fuel : ℕ) (list : Ref) : VmM Ref := do
  if ← truth (isNull list) then nil
  else
    let accum ← quotedPair
    let _ ← listCopyInner throw fuel list accum
    cdr throw accum

/-- The loop of `append`. -/
def appendInner : (fuel : ℕ) → (list args accum : Ref) → VmM Ref
  | 0, _, _, _ => undefined
  | fuel + 1, list, args, accum => do
    if ← (do if ← truth (isNull list) then truth (isNull args) else pure false) then nil
    else if ← truth (isNull list) then
      let rest ← cdr throw args
      appendInner fuel (← car throw args) rest accum
    else if ← truth (isPair list) then
      let empty ← nil
      let _ ← setCdr throw accum (← cons (← car throw list) empty)
      let accum ← cdr throw accum
      appendInner fuel (← cdr throw list) args accum
    else
      let _ ← setCdr throw accum list
      let accum ← cdr throw accum
      appendInner fuel (← nil) args accum

/-- `append` of a list and the list of the other arguments. -/
def append (fuel : ℕ) (list args : Ref) : VmM Ref := do
  let accum ← quotedPair
  let _ ← appendInner throw fuel list args accum
  cdr throw accum

end Procedures

/-! ## What the forms do

Each form leaves new pairs of the stack behind and nothing else, but for `cons` and the quoted pair, which make
an object, and `set-cdr!`, which writes to one. -/

/-- A state with some pairs more that were on the stack. -/
def above (vm : VmInternal) (cells : List Cell) : VmInternal := { vm with cells := vm.cells ++ cells }

section Forms

variable {vm : VmInternal} {x y r : Ref} {o : Obj}

/-- Pairs of the stack that are left behind twice. -/
@[simp] theorem above_above (cells cells' : List Cell) : above (above vm cells) cells' = above vm (cells ++ cells') := by
  simp [above]

/-- Pairs of the stack that are left behind change nothing. -/
theorem grows_above (vm : VmInternal) (cells : List Cell) : Grows vm (above vm cells) :=
  ⟨{ Grown.refl vm with cells := List.prefix_append _ _ }, rfl⟩

/-- Taking a value off leaves one pair behind. -/
theorem taken_eq (vm : VmInternal) (r : Ref) : taken vm r = above vm [⟨some r, vm.stackRoot⟩] := by
  simp [taken, VmInternal.push, VmInternal.pop, above]

/-- An object is what it was. -/
theorem deref_above {cells : List Cell} (h : vm.deref r = some o) : (above vm cells).deref r = some o :=
  (grows_above vm cells).deref h

/-- The value of a form is taken off. -/
theorem value_run {op : VmM Unit} {vm₂ : VmInternal} (h : op vm = .ok ((), vm₂.push (some r))) :
    (op >>= fun _ => vmPop) vm = .ok (r, above vm₂ [⟨some r, vm₂.stackRoot⟩]) := by
  rw [← taken_eq]
  exact (run_bind h).trans (vmPop_run (top_push vm₂ r))

/-- **A form without operands.** -/
theorem asm_none {op : VmM Unit} {vm₂ : VmInternal} (h : op vm = .ok ((), vm₂.push (some r))) :
    ∃ cells, asm [] op vm = .ok (r, above vm₂ cells) :=
  ⟨_, (run_bind (a := ()) (t := vm) rfl).trans (value_run h)⟩

/-- **A form with one operand.** -/
theorem asm_one {f : Ref → VmM Unit} {vm₂ : VmInternal}
    (h : ∀ cells, f x (above vm cells) = .ok ((), (above vm₂ cells).push (some r))) :
    ∃ cells, asm [x] (do let obj ← vmPop; f obj) vm = .ok (r, above vm₂ cells) := by
  have hop : (do let obj ← vmPop; f obj) (vm.push (some x)) =
      .ok ((), (above vm₂ [⟨some x, vm.stackRoot⟩]).push (some r)) := by
    refine (run_bind (vmPop_run (top_push vm x))).trans ?_
    rw [← h, ← taken_eq]
    rfl
  have hrun := value_run hop
  rw [above_above] at hrun
  exact ⟨_, (run_bind (a := ()) (t := vm.push (some x)) rfl).trans hrun⟩

/-- **A form with two operands.** -/
theorem asm_two {f : Ref → Ref → VmM Unit} {vm₂ : VmInternal}
    (h : ∀ cells, f y x (above vm cells) = .ok ((), (above vm₂ cells).push (some r))) :
    ∃ cells, asm [x, y] (do let obj ← vmPop; let obj' ← vmPop; f obj obj') vm = .ok (r, above vm₂ cells) := by
  let vm₁ := (vm.push (some x)).push (some y)
  have htop : (vm₁.pop (vm.push (some x)).stackRoot).Top x vm.stackRoot :=
    (Grown.push (vm.push (some x)) (some y)).deref (top_push vm x)
  have hpopped : (vm₁.pop (vm.push (some x)).stackRoot).pop vm.stackRoot =
      above vm [⟨some x, vm.stackRoot⟩, ⟨some y, .cell vm.cells.length⟩] := by
    simp only [vm₁, VmInternal.push, VmInternal.pop, above, VmInternal.mk.injEq]
    simp
  have hop : (do let obj ← vmPop; let obj' ← vmPop; f obj obj') vm₁ =
      .ok ((), (above vm₂ [⟨some x, vm.stackRoot⟩, ⟨some y, .cell vm.cells.length⟩]).push (some r)) := by
    refine (run_bind (vmPop_run (top_push (vm.push (some x)) y))).trans ((run_bind (vmPop_run htop)).trans ?_)
    rw [← h, hpopped]
  have hrun := value_run hop
  rw [above_above] at hrun
  exact ⟨_, (run_bind (a := ()) (t := vm₁) rfl).trans hrun⟩

theorem nil_run (vm : VmInternal) : ∃ cells, nil vm = .ok (vm.empty, above vm cells) :=
  @asm_none vm _ _ vm rfl

theorem cons_run (vm : VmInternal) (a d : Ref) : ∃ cells, cons a d vm = .ok (.obj vm.objs.length,
    above { vm with objs := vm.objs ++ [.pair (some a) (some d)] } cells) :=
  asm_two fun _ => rfl

/-- The quoted pair is made anew. -/
theorem quotedPair_run (vm : VmInternal) : ∃ cells, quotedPair vm = .ok (.obj vm.objs.length,
    above { vm with objs := vm.objs ++ [.pair (some vm.empty) (some vm.empty)] } cells) := by
  obtain ⟨cells, hcons⟩ := cons_run vm vm.empty vm.empty
  exact ⟨cells, hcons⟩

/-- **A type predicate** in a test. -/
theorem truth_typeOp (h : Constants vm) (hx : vm.deref x = some o) (test : CellType → Bool) :
    ∃ cells, truth (asm [x] (typeOp test)) vm = .ok (test o.type, above vm cells) := by
  have hpush : ∀ cells, (do let o ← load x; pushBool (test o.type)) (above vm cells) =
      .ok ((), (above vm cells).push (some (if test o.type then vm.vmTrue else vm.vmFalse))) :=
    fun cells => run_bind (load_run (deref_above hx))
  obtain ⟨cells, hrun⟩ := asm_one (f := fun obj => do let o ← load obj; pushBool (test o.type)) hpush
  refine ⟨cells, (run_bind hrun).trans ?_⟩
  cases htest : test o.type with
  | true => exact run_bind (load_run (deref_above h.vmTrue))
  | false => exact run_bind (load_run (deref_above h.vmFalse))

section

variable (throw : Throw) {a d : Ref}

theorem car_run {d : Ptr} (hx : vm.deref x = some (.pair (some a) d)) :
    ∃ cells, car throw x vm = .ok (a, above vm cells) :=
  @asm_one vm x _ _ vm fun _ => run_bind (load_run (deref_above hx))

theorem cdr_run {a : Ptr} (hx : vm.deref x = some (.pair a (some d))) :
    ∃ cells, cdr throw x vm = .ok (d, above vm cells) :=
  @asm_one vm x _ _ vm fun _ => run_bind (load_run (deref_above hx))

theorem setCdr_run {n : ℕ} {a d : Ptr} (hn : vm.objs[n]? = some (.pair a d)) (x : Ref) :
    ∃ cells, setCdr throw (.obj n) x vm = .ok (.obj n, above { vm with objs := vm.objs.set n (.pair a (some x)) } cells) :=
  asm_two fun cells => (run_bind (load_run (@deref_above vm (.obj n) _ cells hn))).trans
    (run_bind (a := ()) rfl)

end

end Forms

/-! ## Lists in memory

A proper list, or a chain of pairs that ends in something else.  Both are read off the `car` and the `cdr` of
pairs, so they stay where memory only grows. -/

/-- The pair at a reference: its car, and the pointer at what follows. -/
def pairs (vm : VmInternal) (r : Ref) : Option (Ref × Option Ref) :=
  match vm.deref r with
  | some (.pair (some a) d) => some (a, d)
  | _ => none

/-- **The object is a chain of pairs**, with their cars, up to a tail that is no pair. -/
structure ChainAt (vm : VmInternal) (r : Ref) (cells : List (Ref × Ref)) (tail : Ref) : Prop where
  spells : Linked.Spells (some tail) (pairs vm) (some r) cells
  tail : ∃ o, vm.deref tail = some o ∧ o.type ≠ .pair

/-- **The object is a proper list** of some elements. -/
def IsList (vm : VmInternal) (r : Ref) (es : List Ref) : Prop :=
  ∃ cells tail, ChainAt vm r cells tail ∧ vm.deref tail = some .empty ∧ es = cells.map Prod.snd

/-- **What was in memory has not changed**, and the constants are what they were. -/
structure Since (base vm : VmInternal) : Prop extends Grows base vm where
  vmTrue : vm.vmTrue = base.vmTrue
  vmFalse : vm.vmFalse = base.vmFalse

/-- The object is newer than a state. -/
def Fresh (base : VmInternal) (r : Ref) : Prop := ∃ n, r = .obj n ∧ base.objs.length ≤ n

section Memory

variable {base vm vm' : VmInternal} {r q tail a : Ref} {cells : List (Ref × Ref)} {c : Ref × Ref} {o : Obj}

theorem pairs_eq_some {d : Option Ref} : pairs vm r = some (a, d) ↔ vm.deref r = some (.pair (some a) d) := by
  unfold pairs
  split
  · next a' d' h => simp [h]
  · next h =>
    refine ⟨nofun, fun hpair => ?_⟩
    exact absurd hpair (h a d)

/-- What is no pair has no `car`. -/
theorem pairs_of_ne (h : vm.deref r = some o) (ho : o.type ≠ .pair) : pairs vm r = none := by
  unfold pairs
  split
  · next h' =>
    cases h.symm.trans h'
    exact absurd rfl ho
  · rfl

theorem Since.refl (vm : VmInternal) : Since vm vm := ⟨.refl vm, rfl, rfl⟩

/-- What has not changed twice has not changed. -/
theorem Since.trans (h : Since base vm) (h' : Since vm vm') : Since base vm' :=
  ⟨h.toGrows.trans h'.toGrows, h'.vmTrue.trans h.vmTrue, h'.vmFalse.trans h.vmFalse⟩

/-- Pairs of the stack may be left behind. -/
theorem Since.above (h : Since base vm) (cells : List Cell) : Since base (above vm cells) :=
  h.trans ⟨grows_above vm cells, rfl, rfl⟩

theorem Since.alloc (h : Since base vm) (o : Obj) : Since base { vm with objs := vm.objs ++ [o] } :=
  h.trans ⟨Grows.alloc vm o, rfl, rfl⟩

/-- A new object may be written to. -/
theorem Since.set (h : Since base vm) {n : ℕ} (hn : base.objs.length ≤ n) (o : Obj) :
    Since base { vm with objs := vm.objs.set n o } := by
  obtain ⟨rest, hobjs⟩ := h.objs
  refine ⟨⟨{ h.toGrown with objs := ⟨rest.set (n - base.objs.length) o, ?_⟩ }, h.stackRoot⟩, h.vmTrue, h.vmFalse⟩
  rw [← hobjs, List.set_append_right _ _ hn]

/-- The constants are what they were. -/
theorem Since.constants (h : Since base vm) (hc : Constants base) : Constants vm where
  empty := by rw [h.empty]; exact h.toGrown.deref hc.empty
  vmTrue := by rw [h.vmTrue]; exact h.toGrown.deref hc.vmTrue
  vmFalse := by rw [h.vmFalse]; exact h.toGrown.deref hc.vmFalse

/-- A node of a list stays. -/
theorem pairs_grown (h : Grown vm vm') {p : Ref × Option Ref} (hr : pairs vm r = some p) : pairs vm' r = some p :=
  pairs_eq_some.mpr (h.deref (pairs_eq_some.mp hr))

theorem spells_grown {stop p : Option Ref} (h : Linked.Spells stop (pairs vm) p cells) (hgrown : Grown vm vm') :
    Linked.Spells stop (pairs vm') p cells :=
  h.congr fun c hc => by
    obtain ⟨n, hn⟩ := h.get_of_mem hc
    rw [hn, pairs_grown hgrown hn]

theorem ChainAt.grown (h : ChainAt vm r cells tail) (hgrown : Grown vm vm') : ChainAt vm' r cells tail := by
  obtain ⟨o, ho, hne⟩ := h.tail
  exact ⟨spells_grown h.spells hgrown, o, hgrown.deref ho, hne⟩

/-- A chain without pairs is its tail. -/
theorem chainAt_nil (h : ChainAt vm r [] tail) : r = tail := Option.some.inj h.spells

/-- The first pair of a chain. -/
theorem chainAt_cons (h : ChainAt vm r (c :: cells) tail) :
    r = c.1 ∧ ∃ q, vm.deref r = some (.pair (some c.2) (some q)) ∧ ChainAt vm q cells tail := by
  obtain ⟨hr, q, hq, hcells⟩ := h.spells
  have hr : r = c.1 := Option.some.inj hr
  have hhead : ∃ q', q = some q' := by
    cases cells with
    | nil => exact ⟨tail, hcells⟩
    | cons d cells => exact ⟨d.1, hcells.1⟩
  obtain ⟨q, rfl⟩ := hhead
  exact ⟨hr, q, hr ▸ pairs_eq_some.mp hq, hcells, h.tail⟩

end Memory

/-- The empty list. -/
theorem isList_nil {vm : VmInternal} {r : Ref} (h : IsList vm r []) : vm.deref r = some .empty := by
  obtain ⟨cells, tail, hchain, htail, hes⟩ := h
  obtain rfl : cells = [] := List.map_eq_nil_iff.mp hes.symm
  rwa [chainAt_nil hchain]

/-- A pair in front of a list. -/
theorem IsList.cons {vm : VmInternal} {r q e : Ref} {es : List Ref} (h : IsList vm q es)
    (hr : vm.deref r = some (.pair (some e) (some q))) :
    IsList vm r (e :: es) := by
  obtain ⟨cells, tail, hchain, htail, rfl⟩ := h
  exact ⟨(r, e) :: cells, tail, ⟨⟨rfl, some q, pairs_eq_some.mpr hr, hchain.spells⟩, hchain.tail⟩, htail, rfl⟩

/-- The first pair of a list. -/
theorem isList_cons {vm : VmInternal} {r e : Ref} {es : List Ref} (h : IsList vm r (e :: es)) :
    ∃ q, vm.deref r = some (.pair (some e) (some q)) ∧ IsList vm q es := by
  obtain ⟨cells, tail, hchain, htail, hes⟩ := h
  cases cells with
  | nil => cases hes
  | cons c cells =>
    obtain ⟨rfl, rfl⟩ := List.cons_eq_cons.mp hes
    obtain ⟨-, q, hq, hchain⟩ := chainAt_cons hchain
    exact ⟨q, hq, cells, tail, hchain, htail, rfl⟩

theorem IsList.grown {vm vm' : VmInternal} {r : Ref} {es : List Ref} (h : IsList vm r es) (hgrown : Grown vm vm') :
    IsList vm' r es := by
  obtain ⟨cells, tail, hchain, htail, hes⟩ := h
  exact ⟨cells, tail, hchain.grown hgrown, hgrown.deref htail, hes⟩

/-! ## Building a list

The list under construction hangs behind a pair of its own, and `accum` is its last pair.  All of it is newer
than the state `base` in which the building began, so nothing that was there is written to. -/

/-- **A list that is being built** behind a pair: `accum` is its last pair, and all its pairs are new. -/
structure Building (base vm : VmInternal) (start : Ref) (built : List (Ref × Ref)) (accum : Ref) : Prop where
  since : Since base vm
  spells : Linked.Spells (some vm.empty) (pairs vm) (some start) built
  fresh : ∀ c ∈ built, Fresh base c.1
  last : ∃ l a, built = l ++ [(accum, a)]

section Building

variable {base vm vm' : VmInternal} {start accum e : Ref} {built : List (Ref × Ref)}

/-- Pairs of the stack may be left behind while a list is built. -/
theorem Building.above (h : Building base vm start built accum) (cells : List Cell) :
    Building base (above vm cells) start built accum :=
  ⟨h.since.above cells, spells_grown h.spells (grows_above vm cells).toGrown, h.fresh, h.last⟩

/-- An earlier state to compare with. -/
theorem Building.rebase {base' : VmInternal} (h : Building base vm start built accum) (hbase : Since base' base) :
    Building base' vm start built accum :=
  ⟨hbase.trans h.since, h.spells, fun c hc => (h.fresh c hc).imp fun _ hn => ⟨hn.1, hbase.objs.length_le.trans hn.2⟩, h.last⟩

/-- The last pair. -/
theorem Building.accum_eq (h : Building base vm start built accum) :
    ∃ n a, accum = .obj n ∧ base.objs.length ≤ n ∧ vm.objs[n]? = some (.pair (some a) (some vm.empty)) := by
  obtain ⟨l, a, rfl⟩ := h.last
  obtain ⟨n, rfl, hn⟩ := h.fresh _ (List.mem_append_right l List.mem_cons_self)
  exact ⟨n, a, rfl, hn, pairs_eq_some.mp h.spells.last⟩

/-- **The first pair is made.** -/
theorem building_quotedPair (vm : VmInternal) : ∃ vm' start, quotedPair vm = .ok (start, vm') ∧
    Building vm vm' start [(start, vm.empty)] start := by
  obtain ⟨cells, hrun⟩ := quotedPair_run vm
  let vm₁ : VmInternal := { vm with objs := vm.objs ++ [.pair (some vm.empty) (some vm.empty)] }
  have hpair : pairs vm₁ (.obj vm.objs.length) = some (vm.empty, some vm.empty) :=
    pairs_eq_some.mpr List.getElem?_concat_length
  have hbuilding : Building vm vm₁ (.obj vm.objs.length) [(.obj vm.objs.length, vm.empty)] (.obj vm.objs.length) := by
    refine ⟨(Since.refl vm).alloc _, ⟨rfl, some vm.empty, hpair, rfl⟩, fun c hc => ?_, [], vm.empty, rfl⟩
    cases List.mem_singleton.mp hc
    exact ⟨vm.objs.length, rfl, le_rfl⟩
  exact ⟨_, _, hrun, hbuilding.above cells⟩

/-- Writing to one pair leaves the others. -/
theorem pairs_set {n m : ℕ} (hne : m ≠ n) (o : Obj) :
    pairs { vm with objs := vm.objs.set n o } (.obj m) = pairs vm (.obj m) := by
  have hget : (vm.objs.set n o)[m]? = vm.objs[m]? := List.getElem?_set_ne hne.symm
  simp only [pairs, VmInternal.deref, hget]

/-- The other pairs are not the last one. -/
theorem Building.ne_accum (h : Building base vm start built accum) (hc : Constants base) {l : List (Ref × Ref)} {a : Ref}
    (hbuilt : built = l ++ [(accum, a)]) {c : Ref × Ref} (hmem : c ∈ l) : c.1 ≠ accum := by
  have hend : Linked.Ends (some vm.empty) (pairs vm) := by
    rintro _ ⟨⟩
    exact pairs_of_ne (h.since.constants hc).empty (by decide)
  have hnodup := h.spells.nodup hend
  rw [hbuilt, List.map_append, List.nodup_append] at hnodup
  exact hnodup.2.2 c.1 (List.mem_map_of_mem hmem) accum (by simp)

/-- **A pair is linked behind the last one.** -/
theorem Building.link (throw : Throw) (h : Building base vm start built accum) (hc : Constants base) (e : Ref) :
    ∃ new vm₁ vm₂ a, cons e base.empty vm = .ok (new, vm₁) ∧ setCdr throw accum new vm₁ = .ok (accum, vm₂) ∧
      Building base vm₂ start (built ++ [(new, e)]) new ∧ vm₂.deref accum = some (.pair (some a) (some new)) := by
  obtain ⟨cells, hcons⟩ := cons_run vm e vm.empty
  obtain ⟨l, a, hbuilt⟩ := h.last
  obtain ⟨n, a', rfl, hn, haccum⟩ := h.accum_eq
  let vm₁ : VmInternal := { vm with objs := vm.objs ++ [.pair (some e) (some vm.empty)] }
  let vm₂ : VmInternal := { vm₁ with objs := vm₁.objs.set n (.pair (some a') (some (.obj vm.objs.length))) }
  have haccum₁ : vm₁.objs[n]? = some (.pair (some a') (some vm.empty)) := getElem?_append_of_some haccum
  have hcons : cons e base.empty vm = .ok (.obj vm.objs.length, Lib.above vm₁ cells) := h.since.empty ▸ hcons
  obtain ⟨cells', hset⟩ := @setCdr_run (Lib.above vm₁ cells) throw n _ _ haccum₁ (.obj vm.objs.length)
  have hlt : n < vm₁.objs.length := (List.getElem?_eq_some_iff.mp haccum₁).1
  have hget : vm₂.deref (.obj n) = some (.pair (some a') (some (.obj vm.objs.length))) := List.getElem?_set_self hlt
  have hsame : ∀ c ∈ l, pairs vm₂ c.1 = pairs vm c.1 := by
    intro c hmem
    have hmem' : c ∈ built := hbuilt ▸ List.mem_append_left _ hmem
    obtain ⟨m, hm, -⟩ := h.fresh c hmem'
    have hne : m ≠ n := fun heq => h.ne_accum hc hbuilt hmem (hm.trans (congrArg Ref.obj heq))
    obtain ⟨d, hd⟩ := h.spells.get_of_mem hmem'
    rw [hm] at hd ⊢
    rw [pairs_set hne, hd, pairs_grown (Grown.alloc vm _) hd]
  have hnew : pairs vm₂ (.obj vm.objs.length) = some (e, some vm.empty) := by
    have hne : vm.objs.length ≠ n := (List.getElem?_eq_some_iff.mp haccum).1.ne'
    rw [pairs_set hne]
    exact pairs_eq_some.mpr List.getElem?_concat_length
  have hbuilding : Building base vm₂ start (built ++ [(.obj vm.objs.length, e)]) (.obj vm.objs.length) := by
    refine ⟨(h.since.alloc _).set hn _, ?_, fun c hmem => ?_, built, e, rfl⟩
    · have hspells := h.spells
      rw [hbuilt] at hspells ⊢
      cases Option.some.inj (hspells.last.symm.trans (pairs_eq_some.mpr haccum))
      exact hspells.concat hsame (pairs_eq_some.mpr hget) hnew
    · rcases List.mem_append.mp hmem with hmem | hmem
      · exact h.fresh c hmem
      · cases List.mem_singleton.mp hmem
        exact ⟨vm.objs.length, rfl, h.since.objs.length_le⟩
  refine ⟨_, _, _, a', hcons, hset, ?_, deref_above (deref_above hget)⟩
  exact (hbuilding.above cells).above cells'

/-- A type predicate in a test. -/
theorem Building.test (h : Building base vm start built accum) (hc : Constants base) {x : Ref} {o : Obj}
    (hx : base.deref x = some o) (test : CellType → Bool) :
    ∃ vm', truth (asm [x] (typeOp test)) vm = .ok (test o.type, vm') ∧ Building base vm' start built accum := by
  obtain ⟨cells, hrun⟩ := truth_typeOp (h.since.constants hc) (h.since.toGrown.deref hx) test
  exact ⟨_, hrun, h.above cells⟩

/-- `'()`, while a list is built. -/
theorem Building.nil (h : Building base vm start built accum) :
    ∃ vm', nil vm = .ok (base.empty, vm') ∧ Building base vm' start built accum := by
  obtain ⟨cells, hrun⟩ := nil_run vm
  exact ⟨_, h.since.empty ▸ hrun, h.above cells⟩

/-- `car` of a pair that was there before. -/
theorem Building.car (throw : Throw) (h : Building base vm start built accum) {x a : Ref} {d : Ptr}
    (hx : vm.deref x = some (.pair (some a) d)) :
    ∃ vm', car throw x vm = .ok (a, vm') ∧ Building base vm' start built accum := by
  obtain ⟨cells, hrun⟩ := car_run throw hx
  exact ⟨_, hrun, h.above cells⟩

/-- `cdr` of a pair that was there before. -/
theorem Building.cdr (throw : Throw) (h : Building base vm start built accum) {x d : Ref} {a : Ptr}
    (hx : vm.deref x = some (.pair a (some d))) :
    ∃ vm', cdr throw x vm = .ok (d, vm') ∧ Building base vm' start built accum := by
  obtain ⟨cells, hrun⟩ := cdr_run throw hx
  exact ⟨_, hrun, h.above cells⟩

/-- **Another tail is put behind the last pair.** -/
theorem Building.finish (throw : Throw) (h : Building base vm start built accum) (hc : Constants base) (tail : Ref) :
    ∃ vm₁ a, setCdr throw accum tail vm = .ok (accum, vm₁) ∧ Since base vm₁ ∧
      Linked.Spells (some tail) (pairs vm₁) (some start) built ∧ vm₁.deref accum = some (.pair (some a) (some tail)) := by
  obtain ⟨l, a, hbuilt⟩ := h.last
  obtain ⟨n, a', rfl, hn, haccum⟩ := h.accum_eq
  let vm₁ : VmInternal := { vm with objs := vm.objs.set n (.pair (some a') (some tail)) }
  obtain ⟨cells, hset⟩ := setCdr_run throw haccum tail
  have hget : vm₁.deref (.obj n) = some (.pair (some a') (some tail)) :=
    List.getElem?_set_self (List.getElem?_eq_some_iff.mp haccum).1
  refine ⟨_, a', hset, (h.since.set hn _).above cells, ?_, deref_above hget⟩
  have hspells := h.spells
  rw [hbuilt] at hspells ⊢
  cases Option.some.inj (hspells.last.symm.trans (pairs_eq_some.mpr haccum))
  have hsame : ∀ c ∈ l, pairs vm₁ c.1 = pairs vm c.1 := by
    intro c hmem
    obtain ⟨m, hm, -⟩ := h.fresh c (hbuilt ▸ List.mem_append_left _ hmem)
    have hne : m ≠ n := fun heq => h.ne_accum hc hbuilt hmem (hm.trans (congrArg Ref.obj heq))
    rw [hm, pairs_set hne]
  exact spells_grown (hspells.setEnd hsame (pairs_eq_some.mpr hget)) (grows_above vm₁ cells).toGrown

end Building

/-! ## `append`

The arguments are taken one after the other; each element is copied behind what has been built. -/

/-- What is left to be appended: a list and the list of the lists behind it, with the elements that are
still to come and the tail of the last. -/
inductive Remaining (vm : VmInternal) : (list args : Ref) → List Ref → (tail : Ref) → Prop
  | last {list args : Ref} {o : Obj} : vm.deref list = some o → o.type ≠ .pair → vm.deref args = some .empty →
      Remaining vm list args [] list
  | next {list args l rest tail : Ref} {es : List Ref} : vm.deref list = some .empty →
      vm.deref args = some (.pair (some l) (some rest)) → Remaining vm l rest es tail → Remaining vm list args es tail
  | elem {list args e q tail : Ref} {es : List Ref} : vm.deref list = some (.pair (some e) (some q)) →
      Remaining vm q args es tail → Remaining vm list args (e :: es) tail

/-- Two tails are one object, or both `()`. -/
def SameTail (vm : VmInternal) (tail tail' : Ref) : Prop :=
  tail' = tail ∨ vm.deref tail = some .empty ∧ vm.deref tail' = some .empty

/-- **A list has been built** behind a pair. -/
structure Finished (base vm : VmInternal) (start : Ref) (es : List Ref) (tail : Ref) : Prop where
  since : Since base vm
  built : ∃ built tail', Linked.Spells (some tail') (pairs vm) (some start) built ∧ built.map Prod.snd = es ∧
    (∀ c ∈ built, Fresh base c.1) ∧ SameTail vm tail tail' ∧ ∃ o, vm.deref tail' = some o ∧ o.type ≠ .pair

/-- **A fresh copy**: what was in memory has not changed, and the result is a chain of pairs that were not
there, with some elements and the same tail. -/
structure FreshCopy (vm vm' : VmInternal) (r : Ref) (es : List Ref) (tail : Ref) : Prop where
  kept : ∀ r o, vm.deref r = some o → vm'.deref r = some o
  copy : ∃ cells tail', ChainAt vm' r cells tail' ∧ cells.map Prod.snd = es ∧ SameTail vm' tail tail' ∧
    ∀ c ∈ cells, vm.deref c.1 = none

section Finished

variable {base vm : VmInternal} {start accum tail e : Ref} {built : List (Ref × Ref)} {es : List Ref}

/-- What has been built ends in `()`. -/
theorem Building.finished (h : Building base vm start built accum) (hc : Constants base)
    (htail : base.deref tail = some .empty) :
    Finished base vm start (built.map Prod.snd) tail := by
  have hempty := (h.since.constants hc).empty
  exact ⟨h.since, built, vm.empty, h.spells, rfl, h.fresh, .inr ⟨h.since.toGrown.deref htail, hempty⟩, .empty,
    hempty, by decide⟩

/-- What is fresh was not there. -/
theorem Fresh.deref {base : VmInternal} {r : Ref} (h : Fresh base r) : base.deref r = none := by
  obtain ⟨n, rfl, hn⟩ := h
  exact List.getElem?_eq_none hn

/-- **What is behind the first pair** is a fresh copy. -/
theorem Finished.cdr (throw : Throw) (h : Finished base vm start (e :: es) tail) : ∃ r vm',
    Lib.cdr throw start vm = .ok (r, vm') ∧ FreshCopy base vm' r es tail := by
  obtain ⟨built, tail', hspells, hmap, hfresh, hsame, htail⟩ := h.built
  cases built with
  | nil => cases hmap
  | cons c cells =>
    obtain ⟨hr, q, hq, hchain⟩ := chainAt_cons ⟨hspells, htail⟩
    obtain ⟨more, hrun⟩ := cdr_run throw hq
    obtain ⟨-, hes⟩ := List.cons_eq_cons.mp hmap
    refine ⟨q, _, hrun, fun r o hr => (h.since.above more).toGrown.deref hr, cells, tail',
      hchain.grown (grows_above vm more).toGrown, hes, ?_, fun d hd => (hfresh d (List.mem_cons_of_mem c hd)).deref⟩
    exact hsame.imp_right fun hempty => ⟨deref_above hempty.1, deref_above hempty.2⟩

end Finished

section Append

variable {base vm : VmInternal} {start accum list args tail : Ref} {built : List (Ref × Ref)} {es : List Ref}

/-- A round at the end of a list. -/
theorem appendInner_next (throw : Throw) (hc : Constants base) {l rest : Ref} (hb : Building base vm start built accum)
    (hlist : base.deref list = some .empty) (hargs : base.deref args = some (.pair (some l) (some rest))) :
    ∃ vm', (∀ fuel, appendInner throw (fuel + 1) list args accum vm = appendInner throw fuel l rest accum vm') ∧
      Building base vm' start built accum := by
  obtain ⟨vm₁, h₁, hb₁⟩ := hb.test hc hlist (· == .empty)
  obtain ⟨vm₂, h₂, hb₂⟩ := hb₁.test hc hargs (· == .empty)
  obtain ⟨vm₃, h₃, hb₃⟩ := hb₂.test hc hlist (· == .empty)
  obtain ⟨vm₄, h₄, hb₄⟩ := hb₃.cdr throw (hb₃.since.toGrown.deref hargs)
  obtain ⟨vm₅, h₅, hb₅⟩ := hb₄.car throw (hb₄.since.toGrown.deref hargs)
  exact ⟨vm₅, fun fuel => (run_bind ((run_bind h₁).trans h₂)).trans
    ((run_bind h₃).trans ((run_bind h₄).trans (run_bind h₅))), hb₅⟩

/-- A round at a pair of a list. -/
theorem appendInner_elem (throw : Throw) (hc : Constants base) {e q : Ref} (hb : Building base vm start built accum)
    (hlist : base.deref list = some (.pair (some e) (some q))) :
    ∃ vm' new, (∀ fuel, appendInner throw (fuel + 1) list args accum vm = appendInner throw fuel q args new vm') ∧
      Building base vm' start (built ++ [(new, e)]) new := by
  obtain ⟨vm₁, h₁, hb₁⟩ := hb.test hc hlist (· == .empty)
  obtain ⟨vm₂, h₂, hb₂⟩ := hb₁.test hc hlist (· == .empty)
  obtain ⟨vm₃, h₃, hb₃⟩ := hb₂.test hc hlist (· == .pair)
  obtain ⟨vm₄, h₄, hb₄⟩ := hb₃.nil
  obtain ⟨vm₅, h₅, hb₅⟩ := hb₄.car throw (hb₄.since.toGrown.deref hlist)
  obtain ⟨new, vm₆, vm₇, a, h₆, h₇, hb₇, haccum⟩ := hb₅.link throw hc e
  obtain ⟨vm₈, h₈, hb₈⟩ := hb₇.cdr throw haccum
  obtain ⟨vm₉, h₉, hb₉⟩ := hb₈.cdr throw (hb₈.since.toGrown.deref hlist)
  refine ⟨vm₉, new, fun fuel => ?_, hb₉⟩
  calc appendInner throw (fuel + 1) list args accum vm
      = (do let empty ← nil
            let _ ← Lib.setCdr throw accum (← cons (← Lib.car throw list) empty)
            let accum ← Lib.cdr throw accum
            appendInner throw fuel (← Lib.cdr throw list) args accum) vm₃ :=
        (run_bind ((run_bind h₁).trans rfl)).trans ((run_bind h₂).trans (run_bind h₃))
    _ = (do let accum ← Lib.cdr throw accum
            appendInner throw fuel (← Lib.cdr throw list) args accum) vm₇ :=
        (run_bind h₄).trans ((run_bind h₅).trans ((run_bind h₆).trans (run_bind h₇)))
    _ = appendInner throw fuel q args new vm₉ := (run_bind h₈).trans (run_bind h₉)

/-- The last round. -/
theorem appendInner_done (throw : Throw) (hc : Constants base) (hb : Building base vm start built accum)
    (hlist : base.deref list = some .empty) (hargs : base.deref args = some .empty) :
    ∃ vm', (∀ fuel, appendInner throw (fuel + 1) list args accum vm = .ok (base.empty, vm')) ∧
      Building base vm' start built accum := by
  obtain ⟨vm₁, h₁, hb₁⟩ := hb.test hc hlist (· == .empty)
  obtain ⟨vm₂, h₂, hb₂⟩ := hb₁.test hc hargs (· == .empty)
  obtain ⟨vm₃, h₃, hb₃⟩ := hb₂.nil
  have hboth : (do if ← truth (isNull list) then truth (isNull args) else pure false) vm = .ok (true, vm₂) :=
    (run_bind h₁).trans h₂
  exact ⟨vm₃, fun fuel => (run_bind hboth).trans h₃, hb₃⟩

/-- A round at a tail that is neither a pair nor `()`. -/
theorem appendInner_tail (throw : Throw) (hc : Constants base) {o : Obj} (hb : Building base vm start built accum)
    (hlist : base.deref list = some o) (hnull : o.type ≠ .empty) (hpair : o.type ≠ .pair) :
    ∃ vm', (∀ fuel, appendInner throw (fuel + 1) list args accum vm = appendInner throw fuel base.empty args list vm') ∧
      Since base vm' ∧ Linked.Spells (some list) (pairs vm') (some start) built := by
  obtain ⟨vm₁, h₁, hb₁⟩ := hb.test hc hlist (· == .empty)
  obtain ⟨vm₂, h₂, hb₂⟩ := hb₁.test hc hlist (· == .empty)
  obtain ⟨vm₃, h₃, hb₃⟩ := hb₂.test hc hlist (· == .pair)
  rw [beq_eq_false_iff_ne.mpr hnull] at h₁ h₂
  rw [beq_eq_false_iff_ne.mpr hpair] at h₃
  obtain ⟨vm₄, a, h₄, hsince, hspells, haccum⟩ := hb₃.finish throw hc list
  obtain ⟨cells, h₅⟩ := cdr_run throw haccum
  obtain ⟨cells', h₆⟩ := nil_run (above vm₄ cells)
  have hsince' : Since base (above (above vm₄ cells) cells') := (hsince.above cells).above cells'
  have hboth : (do if ← truth (isNull list) then truth (isNull args) else pure false) vm = .ok (false, vm₁) :=
    (run_bind h₁).trans rfl
  have hempty : (above vm₄ cells).empty = base.empty := hsince.empty
  rw [hempty] at h₆
  exact ⟨_, fun fuel => (run_bind hboth).trans ((run_bind h₂).trans ((run_bind h₃).trans ((run_bind h₄).trans
    ((run_bind h₅).trans (run_bind h₆))))), hsince',
    spells_grown hspells ((grows_above vm₄ cells).trans (grows_above _ cells')).toGrown⟩

/-- The round behind such a tail, whatever is behind it. -/
theorem appendInner_end (throw : Throw) (hc : Constants base) (hs : Since base vm) (hargs : base.deref args = some .empty) :
    ∃ cells, ∀ fuel, appendInner throw (fuel + 1) base.empty args accum vm = .ok (base.empty, above vm cells) := by
  obtain ⟨c₁, h₁⟩ := truth_typeOp (hs.constants hc) (hs.toGrown.deref hc.empty) (· == .empty)
  obtain ⟨c₂, h₂⟩ := truth_typeOp ((hs.above c₁).constants hc) ((hs.above c₁).toGrown.deref hargs) (· == .empty)
  obtain ⟨c₃, h₃⟩ := nil_run (above (above vm c₁) c₂)
  have hboth : (do if ← truth (isNull base.empty) then truth (isNull args) else pure false) vm =
      .ok (true, above (above vm c₁) c₂) := (run_bind h₁).trans h₂
  have hempty : (above (above vm c₁) c₂).empty = base.empty := hs.empty
  rw [hempty, above_above, above_above] at h₃
  rw [above_above] at hboth
  exact ⟨_, fun fuel => (run_bind hboth).trans h₃⟩

/-- **The loop of `append`** puts what is left behind what has been built. -/
theorem appendInner_settles (throw : Throw) (hc : Constants base) (h : Remaining base list args es tail) :
    ∀ {vm : VmInternal} {built : List (Ref × Ref)} {accum : Ref}, Building base vm start built accum →
    ∃ r vm', Settles (fun fuel => appendInner throw fuel list args accum) vm (.ok (r, vm')) ∧
      Finished base vm' start (built.map Prod.snd ++ es) tail := by
  induction h with
  | @last list args o hlist hpair hargs =>
    intro vm built accum hb
    rw [List.append_nil]
    by_cases hnull : o.type = .empty
    · obtain rfl : o = .empty := by
        cases o <;> first | rfl | cases hnull
      obtain ⟨vm₁, hround, hb₁⟩ := appendInner_done throw hc hb hlist hargs
      exact ⟨_, vm₁, (settles_of_eq hround).succ fun fuel => rfl, hb₁.finished hc hlist⟩
    · obtain ⟨vm₁, hround, hsince, hspells⟩ := appendInner_tail throw hc hb hlist hnull hpair
      obtain ⟨cells, hend⟩ := appendInner_end throw hc hsince hargs
      refine ⟨_, above vm₁ cells, Settles.succ ((settles_of_eq hend).succ fun fuel => rfl) hround, hsince.above cells, built,
        list, spells_grown hspells (grows_above vm₁ cells).toGrown, rfl, hb.fresh, .inl rfl, o, ?_, hpair⟩
      exact (hsince.above cells).toGrown.deref hlist
  | @next list args l rest tail es hlist hargs _ ih =>
    intro vm built accum hb
    obtain ⟨vm₁, hround, hb₁⟩ := appendInner_next throw hc hb hlist hargs
    obtain ⟨r, vm', hsettles, hfinished⟩ := ih hb₁
    exact ⟨r, vm', hsettles.succ hround, hfinished⟩
  | @elem list args e q tail es hlist _ ih =>
    intro vm built accum hb
    obtain ⟨vm₁, new, hround, hb₁⟩ := appendInner_elem throw hc hb hlist
    obtain ⟨r, vm', hsettles, hfinished⟩ := ih hb₁
    refine ⟨r, vm', hsettles.succ hround, ?_⟩
    rwa [List.map_append, List.append_assoc] at hfinished

/-- The arguments of `append`: proper lists, and a last one whose pairs end, with all their elements and
the tail of the last. -/
inductive Arguments (vm : VmInternal) : List Ref → List Ref → Ref → Prop
  | last {l tail : Ref} {cells : List (Ref × Ref)} : ChainAt vm l cells tail → Arguments vm [l] (cells.map Prod.snd) tail
  | cons {l tail : Ref} {ls es es' : List Ref} : IsList vm l es → Arguments vm ls es' tail →
      Arguments vm (l :: ls) (es ++ es') tail

/-- A chain of pairs in front of what is left. -/
theorem remaining_of_chain {list args tail : Ref} {es : List Ref} : ∀ {cells : List (Ref × Ref)} {l : Ref},
    ChainAt vm l cells list → Remaining vm list args es tail → Remaining vm l args (cells.map Prod.snd ++ es) tail
  | [], _, h, hrest => chainAt_nil h ▸ hrest
  | _ :: _, _, h, hrest => by
      obtain ⟨-, q, hq, hchain⟩ := chainAt_cons h
      exact .elem hq (remaining_of_chain hchain hrest)

/-- **The arguments are what is left** at the beginning. -/
theorem remaining_of_arguments {ls : List Ref} (h : Arguments vm (list :: ls) es tail) (hargs : IsList vm args ls) :
    Remaining vm list args es tail := by
  generalize hls : list :: ls = ls' at h
  induction h generalizing list args ls with
  | @last l tail cells hchain =>
    obtain ⟨rfl, rfl⟩ := List.cons_eq_cons.mp hls
    obtain ⟨o, ho, hne⟩ := hchain.tail
    have hrest := remaining_of_chain hchain (.last ho hne (isList_nil hargs))
    rwa [List.append_nil] at hrest
  | @cons l tail ls' es es' hlist hrest ih =>
    obtain ⟨rfl, rfl⟩ := List.cons_eq_cons.mp hls
    obtain ⟨cells, e, hchain, hempty, rfl⟩ := hlist
    cases ls with
    | nil => cases hrest
    | cons l' ls =>
      obtain ⟨q, hq, hargs⟩ := isList_cons hargs
      exact remaining_of_chain hchain (.next hempty hq (ih hargs rfl))

/-- **`append`** of what is left at the beginning. -/
theorem append_settles (throw : Throw) (hc : Constants vm) (h : Remaining vm list args es tail) :
    ∃ r vm', Settles (fun fuel => append throw fuel list args) vm (.ok (r, vm')) ∧ FreshCopy vm vm' r es tail := by
  obtain ⟨vm₁, start, hquoted, hb⟩ := building_quotedPair vm
  obtain ⟨_, vm₂, hinner, hfinished⟩ := appendInner_settles throw hc h hb
  obtain ⟨r, vm₃, hcdr, hcopy⟩ := hfinished.cdr throw
  exact ⟨r, vm₃, (settles_of_eq fun _ => hquoted).bind (hinner.bind (settles_of_eq fun _ => hcdr)), hcopy⟩

end Append

/-! ## `list-copy`

The same loop with one list. -/

section ListCopy

variable {base vm : VmInternal} {start accum list : Ref} {built : List (Ref × Ref)} {es : List Ref}

/-- A round at a pair. -/
theorem listCopyInner_elem (throw : Throw) (hc : Constants base) {e q : Ref} (hb : Building base vm start built accum)
    (hlist : base.deref list = some (.pair (some e) (some q))) :
    ∃ vm' new, (∀ fuel, listCopyInner throw (fuel + 1) list accum vm = listCopyInner throw fuel q new vm') ∧
      Building base vm' start (built ++ [(new, e)]) new := by
  obtain ⟨vm₁, h₁, hb₁⟩ := hb.test hc hlist (· == .empty)
  obtain ⟨vm₂, h₂, hb₂⟩ := hb₁.nil
  obtain ⟨vm₃, h₃, hb₃⟩ := hb₂.car throw (hb₂.since.toGrown.deref hlist)
  obtain ⟨new, vm₄, vm₅, a, h₄, h₅, hb₅, -⟩ := hb₃.link throw hc e
  obtain ⟨vm₆, h₆, hb₆⟩ := hb₅.cdr throw (hb₅.since.toGrown.deref hlist)
  refine ⟨vm₆, new, fun fuel => ?_, hb₆⟩
  calc listCopyInner throw (fuel + 1) list accum vm
      = (do let next ← cons (← Lib.car throw list) base.empty
            let _ ← Lib.setCdr throw accum next
            listCopyInner throw fuel (← Lib.cdr throw list) next) vm₂ := (run_bind h₁).trans (run_bind h₂)
    _ = listCopyInner throw fuel q new vm₆ :=
        (run_bind h₃).trans ((run_bind h₄).trans ((run_bind h₅).trans (run_bind h₆)))

/-- **The loop of `list-copy`** puts the elements behind what has been built. -/
theorem listCopyInner_settles (throw : Throw) (hc : Constants base) : ∀ {es : List Ref} {list : Ref}
    {vm : VmInternal} {built : List (Ref × Ref)} {accum : Ref}, IsList base list es → Building base vm start built accum →
    ∃ r vm', Settles (fun fuel => listCopyInner throw fuel list accum) vm (.ok (r, vm')) ∧
      Finished base vm' start (built.map Prod.snd ++ es) base.empty
  | [], list, vm, built, accum, h, hb => by
      obtain ⟨vm₁, h₁, hb₁⟩ := hb.test hc (isList_nil h) (· == .empty)
      obtain ⟨vm₂, h₂, hb₂⟩ := hb₁.nil
      refine ⟨base.empty, vm₂, (settles_of_eq fun _ => (run_bind h₁).trans h₂).succ fun fuel => rfl, ?_⟩
      rw [List.append_nil]
      exact hb₂.finished hc hc.empty
  | e :: es, list, vm, built, accum, h, hb => by
      obtain ⟨q, hq, hrest⟩ := isList_cons h
      obtain ⟨vm₁, new, hround, hb₁⟩ := listCopyInner_elem throw hc hb hq
      obtain ⟨r, vm', hsettles, hfinished⟩ := listCopyInner_settles throw hc hrest hb₁
      refine ⟨r, vm', hsettles.succ hround, ?_⟩
      rwa [List.map_append, List.append_assoc] at hfinished

/-- **`list-copy`** of a list. -/
theorem listCopy_settles (throw : Throw) (hc : Constants vm) (h : IsList vm list es) :
    ∃ r vm', Settles (fun fuel => listCopy throw fuel list) vm (.ok (r, vm')) ∧ FreshCopy vm vm' r es vm.empty := by
  cases es with
  | nil =>
    obtain ⟨c₁, h₁⟩ := truth_typeOp hc (isList_nil h) (· == .empty)
    obtain ⟨c₂, h₂⟩ := nil_run (above vm c₁)
    rw [above_above] at h₂
    have hgrown := (grows_above vm (c₁ ++ c₂)).toGrown
    refine ⟨vm.empty, _, settles_of_eq fun _ => (run_bind h₁).trans h₂, fun r o hr => hgrown.deref hr, [], vm.empty, ?_, rfl,
      .inl rfl, by simp⟩
    exact ⟨rfl, .empty, hgrown.deref hc.empty, by decide⟩
  | cons e es =>
    obtain ⟨q, hq, -⟩ := isList_cons h
    obtain ⟨c₁, h₁⟩ := truth_typeOp hc hq (· == .empty)
    obtain ⟨vm₁, start, hquoted, hb⟩ := building_quotedPair (above vm c₁)
    have hb := hb.rebase ((Since.refl vm).above c₁)
    obtain ⟨_, vm₂, hinner, hfinished⟩ := listCopyInner_settles throw hc h hb
    obtain ⟨r, vm₃, hcdr, hcopy⟩ := hfinished.cdr throw
    have hsteps : Settles (fun fuel => do
        let accum ← quotedPair
        let _ ← listCopyInner throw fuel list accum
        cdr throw accum) (above vm c₁) (.ok (r, vm₃)) :=
      (settles_of_eq fun _ => hquoted).bind (hinner.bind (settles_of_eq fun _ => hcdr))
    exact ⟨r, vm₃, (settles_of_eq fun _ => h₁).bind hsteps, hcopy⟩

end ListCopy

/-! ## Calls

What is said of a call names the state before it alone: the result is a fresh chain of the elements, and all of
memory is as it was. -/

/-- **`append` and `list-copy` build fresh lists**, where the pairs of the last argument of `append` end. -/
theorem append_and_copy_fresh {host : Host} {vm : VmInternal} (throw : Throw) (h : Reachable host vm) :
    (∀ (list args tail : Ref) (ls es : List Ref), IsList vm args ls → Arguments vm (list :: ls) es tail →
      ∃ r vm', Settles (fun fuel => append throw fuel list args) vm (.ok (r, vm')) ∧ FreshCopy vm vm' r es tail) ∧
    ∀ (list : Ref) (es : List Ref), IsList vm list es →
      ∃ r vm', Settles (fun fuel => listCopy throw fuel list) vm (.ok (r, vm')) ∧ FreshCopy vm vm' r es vm.empty :=
  ⟨fun _ _ _ _ _ hargs harguments => append_settles throw h.constants (remaining_of_arguments harguments hargs),
    fun _ _ hlist => listCopy_settles throw h.constants hlist⟩

/-- A program that leaves the arguments of a call of `append` in memory: the list `(1 2)`, and the list of `(3)` and of the
pair `(4 . 5)`. -/
def appendArguments : List (Token ℕ) :=
  [.op .litEmpty Op.noOperand, .fixnum 5, .fixnum 4, .op .cons Op.noOperand, .op .cons Op.noOperand,
    .op .litEmpty Op.noOperand, .fixnum 3, .op .cons Op.noOperand, .op .cons Op.noOperand,
    .op .litEmpty Op.noOperand, .fixnum 2, .op .cons Op.noOperand, .fixnum 1, .op .cons Op.noOperand]

/-- What the program leaves in memory, behind the three constants of the machine. -/
def appendMemory : List Obj :=
  [.empty, .bool true, .bool false, .fixnum 5, .fixnum 4, .pair (some (.obj 4)) (some (.obj 3)),
    .pair (some (.obj 5)) (some (.obj 0)), .fixnum 3, .pair (some (.obj 7)) (some (.obj 0)),
    .pair (some (.obj 8)) (some (.obj 6)), .fixnum 2, .pair (some (.obj 10)) (some (.obj 0)), .fixnum 1,
    .pair (some (.obj 12)) (some (.obj 11))]

/-- `(append '(1 2) '(3) '(4 . 5))` is a fresh `(1 2 3 4 . 5)` whose rest `5` is the one of the last argument, and
`(list-copy '(1 2))` is a fresh `(1 2)`. -/
theorem append_and_copy_fresh_four : ∃ vm, Reachable Host.bare vm ∧ vm.objs = appendMemory ∧
    (∃ r vm', Settles (fun fuel => append raise fuel (.obj 13) (.obj 9)) vm (.ok (r, vm')) ∧
      FreshCopy vm vm' r [.obj 12, .obj 10, .obj 7, .obj 4] (.obj 3)) ∧
    ∃ r vm', Settles (fun fuel => listCopy raise fuel (.obj 13)) vm (.ok (r, vm')) ∧
      FreshCopy vm vm' r [.obj 12, .obj 10] vm.empty := by
  have hpasses : passes (vmLoop Host.bare 14) (startBytes ((asmString appendArguments).getD []) vmCreate)
      (fun vm => vm.objs = appendMemory) = true := by decide +kernel
  obtain ⟨⟨⟩, vm, hrun, hvm⟩ := exists_of_passes hpasses
  have hobjs : vm.objs = appendMemory := of_decide_eq_true hvm
  have hread : ∀ n o, appendMemory[n]? = some o → vm.deref (.obj n) = some o := fun n _ hn =>
    (congrArg (·[n]?) hobjs).trans hn
  have hreach : Reachable Host.bare vm := (later_startBytes _ rfl).trans (later_vmLoop hrun)
  have hnil : IsList vm (.obj 0) [] := ⟨[], .obj 0, ⟨rfl, _, hread 0 .empty rfl, by decide⟩, hread 0 _ rfl, rfl⟩
  have hlist : IsList vm (.obj 13) [.obj 12, .obj 10] := (hnil.cons (hread 11 _ rfl)).cons (hread 13 _ rfl)
  have hthree : IsList vm (.obj 8) [.obj 7] := hnil.cons (hread 8 _ rfl)
  have hargs : IsList vm (.obj 9) [.obj 8, .obj 5] := (hnil.cons (hread 6 _ rfl)).cons (hread 9 _ rfl)
  have hfour : ChainAt vm (.obj 5) [(.obj 5, .obj 4)] (.obj 3) :=
    ⟨⟨rfl, _, pairs_eq_some.mpr (hread 5 _ rfl), rfl⟩, _, hread 3 (.fixnum 5) rfl, by decide⟩
  have happend := (append_and_copy_fresh raise hreach).1 _ _ _ _ _ hargs (.cons hlist (.cons hthree (.last hfour)))
  exact ⟨vm, hreach, hobjs, happend, (append_and_copy_fresh raise hreach).2 _ _ hlist⟩

/-- The loop of `append` goes round in a pair that is its own rest. -/
theorem appendInner_circular (throw : Throw) {base : VmInternal} (hc : Constants base) {start list args e : Ref}
    (hlist : base.deref list = some (.pair (some e) (some list))) : ∀ (fuel : ℕ) {vm : VmInternal}
    {built : List (Ref × Ref)} {accum : Ref}, Building base vm start built accum →
    appendInner throw fuel list args accum vm = .error .undefined
  | 0, _, _, _, _ => rfl
  | fuel + 1, _, _, _, hb => by
      obtain ⟨vm₁, new, hround, hb₁⟩ := appendInner_elem throw hc hb hlist
      exact (hround fuel).trans (appendInner_circular throw hc hlist fuel hb₁)

/-- A list of one number that is made its own rest. -/
def ownRest : List (Token ℕ) := [.op .litEmpty Op.noOperand, .fixnum 7, .op .cons Op.noOperand,
    .op .dupRef Op.noOperand, .op .setCdr Op.noOperand]

/-- **`append` of a circular list does not end.** -/
theorem append_circular : ∃ vm, Reachable Host.bare vm ∧ IsList vm (.obj 0) [] ∧
    vm.deref (.obj 4) = some (.pair (some (.obj 3)) (some (.obj 4))) ∧
      ∀ r vm', ¬ Settles (fun fuel => append raise fuel (.obj 4) (.obj 0)) vm (.ok (r, vm')) := by
  have hpasses : passes (vmLoop Host.bare 5) (startBytes ((asmString ownRest).getD []) vmCreate) (fun vm =>
      vm.objs[4]? = some (.pair (some (.obj 3)) (some (.obj 4))) && vm.objs[0]? = some .empty) = true := by decide +kernel
  obtain ⟨⟨⟩, vm, hrun, hvm⟩ := exists_of_passes hpasses
  simp only [Bool.and_eq_true, decide_eq_true_eq] at hvm
  have hreach : Reachable Host.bare vm := (later_startBytes _ rfl).trans (later_vmLoop hrun)
  refine ⟨vm, hreach, ⟨[], .obj 0, ⟨rfl, .empty, hvm.2, by decide⟩, hvm.2, rfl⟩, hvm.1, fun r vm' hsettles => ?_⟩
  have hown : vm.deref (.obj 4) = some (.pair (some (.obj 3)) (some (.obj 4))) := hvm.1
  obtain ⟨vm₁, start, hquoted, hb⟩ := building_quotedPair vm
  have hstops : Settles (fun fuel => append raise fuel (.obj 4) (.obj 0)) vm (.error .undefined) :=
    (settles_of_eq fun _ => hquoted).bind (Settles.bind_error (settles_of_eq fun fuel =>
      appendInner_circular raise hreach.constants hown fuel hb))
  cases hsettles.unique hstops

end Insomniac.Lib

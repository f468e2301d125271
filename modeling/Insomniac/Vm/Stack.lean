import Insomniac.Vm.Runs

/-!
# Vm/Stack — the operand stack

    stack_root ──▸ (car · cdr) ──▸ (car · cdr) ──▸ … ──▸ empty

The stack is a chain of pairs that `depth` counts.  A null gets into it in two ways only: `idx@` finds no object
where it reads, in a slot that nothing was stored to or behind the last one, and a function of a library pushes one.
-/

open Bytes Insomniac.Asm Run

namespace Insomniac.Vm

/-! ## Stacks in order

A stack is in order when its slots hold objects and `depth` is their number. -/

/-- **The stack is in order**: a chain of pairs, as many as `depth` says, with objects of programs in
them. -/
structure StackInOrder (vm : VmInternal) : Prop where
  chain : ∃ k : ℕ, Chain vm.cells vm.empty vm.stackRoot k ∧ vm.depth = k ∧
    opDepth vm = (do let obj ← alloc (.fixnum (Int64.ofNat k)); vmPush obj) vm
  cars : ∀ c ∈ vm.cells, ∃ r, c.car = some r ∧ r.IsObj

/-- **The next round pushes objects**: `idx@` reads one, and a function of a library that is called pushes no null. -/
structure VmInternal.PushesObjects (host : Host) (vm : VmInternal) : Prop where
  read : vm.nextOp = some .indexRef → ¬ vm.ReadsNull
  ext : vm.nextOp = some .callExt → ∀ (funcPtr : ExtFunc) (vm₂ : VmInternal), vm.fetched.CallsExt host funcPtr vm₂ →
    GoesThrough False False funcPtr.run vm₂

/-- Null may not be pushed. -/
def Allow.noNull : Allow where
  null := False
  write _ _ := True
  handler _ _ := True
  sized := False

/-- A round that pushes objects makes such changes only. -/
theorem permits_noNull {host : Host} {vm : VmInternal} (h : vm.PushesObjects host) :
    Permits Allow.noNull host vm where
  null hnext hread := h.read hnext hread
  ext := h.ext
  write _ _ _ _ _ := trivial
  asm _ _ _ _ _ _ := trivial
  cont _ _ _ _ := trivial
  restore _ _ _ _ _ _ _ _ := trivial
  sized := False.elim

/-- A state in order, without nulls, has its stack in order. -/
theorem Sound.stackInOrder {vm : VmInternal} (hs : Sound False vm) : StackInOrder vm where
  chain := by
    obtain ⟨k, hk, hdepth⟩ := hs.stack
    refine ⟨k, hk, hdepth, ?_⟩
    have hint : Int64.ofInt vm.depth = Int64.ofNat k := by rw [hdepth]; rfl
    rw [opDepth, ← hint]
    rfl
  cars := by
    intro c hc
    have hcar := hs.cars c hc
    cases hobj : c.car with
    | none =>
      rw [hobj] at hcar
      exact hcar.elim
    | some r =>
      rw [hobj] at hcar
      exact ⟨r, rfl, hcar⟩

/-! ## Runs

A run keeps the stack in order as long as no round reads a null. -/

/-- `idx@` of a vector that nothing was stored to leaves a null on the stack, and `drop` ends on it. -/
def readsNull : List (Token ℕ) :=
  [.fixnum 0, .fixnum 1, .op .makeVector Op.noOperand, .op .indexRef Op.noOperand, .op .drop Op.noOperand]

/-- **The stack is not always in order**: a state is reached with a null on top of it. -/
theorem stack_with_null : ∃ vm, Reachable Host.bare vm ∧ ¬ StackInOrder vm ∧
    evalStep Host.bare vm = .error (.fatal "Null found in pop.") := by
  have hpasses : passes (vmLoop Host.bare 4) (startBytes ((asmString readsNull).getD []) vmCreate)
      (fun vm => vm.cells.any (fun c => c.car = none) &&
        stops (evalStep Host.bare) vm (Stop.isFatal "Null found in pop.")) = true := by
    decide +kernel
  obtain ⟨⟨⟩, vm, hrun, hvm⟩ := exists_of_passes hpasses
  obtain ⟨hnull, hstops⟩ := Bool.and_eq_true_iff.mp hvm
  obtain ⟨c, hc, hcar⟩ := List.any_eq_true.mp hnull
  obtain ⟨e, he, hfatal⟩ := exists_of_stops hstops
  refine ⟨vm, (later_startBytes _ rfl).trans (later_vmLoop hrun), fun hstack => ?_, ?_⟩
  · obtain ⟨r, hr, -⟩ := hstack.cars c hc
    cases (of_decide_eq_true hcar).symm.trans hr
  · rw [he, Stop.eq_of_isFatal hfatal]

/-- **The stack stays in order** while every round pushes objects, and such a round does not end in a null taken
off the stack. -/
theorem stack_stays_in_order {host : Host} {vm : VmInternal}
    (h : LaterIf host (VmInternal.PushesObjects host) vmCreate vm) :
    StackInOrder vm ∧ (vm.PushesObjects host → evalStep host vm ≠ .error (.fatal "Null found in pop.")) := by
  have hs : Sound False vm :=
    LaterIf.sound (A := Allow.noNull) (fun _ => permits_noNull) h (sound_vmCreate False)
  refine ⟨hs.stackInOrder, fun hkeeps herror => ?_⟩
  have hends : Does Allow.noNull vm (evalStep host) vm fun _ => True :=
    evalStep_changes hs (permits_noNull hkeeps)
  rcases hends.of_error herror with hnull | hne
  · exact hnull
  · exact hne rfl

/-- `1 vector`, a seven stored to its slot, and the slot read. -/
def readsSeven : List (Token ℕ) :=
  [.fixnum 1, .op .makeVector Op.noOperand, .op .dupRef Op.noOperand, .fixnum 0, .op .swap Op.noOperand, .fixnum 7,
    .op .swap Op.noOperand, .op .indexSet Op.noOperand, .fixnum 0, .op .swap Op.noOperand, .op .indexRef Op.noOperand]

/-- The stack before the slot is read. -/
theorem stack_stays_in_order_seven : ∃ vm, LaterIf Host.bare (VmInternal.PushesObjects Host.bare) vmCreate vm ∧
    vm.nextOp = some .indexRef ∧ vm.depth = 2 ∧ StackInOrder vm ∧
      evalStep Host.bare vm ≠ .error (.fatal "Null found in pop.") := by
  let test : VmInternal → Bool := fun vm => vm.nextOp ≠ some .indexRef && vm.nextOp ≠ some .callExt
  have htest : ∀ vm, test vm = true → VmInternal.PushesObjects Host.bare vm := by
    intro vm hvm
    simp only [test, Bool.and_eq_true, decide_eq_true_eq] at hvm
    exact ⟨fun hnext => absurd hnext hvm.1, fun hnext => absurd hnext hvm.2⟩
  obtain ⟨vm, h, hvm⟩ := @reachedIf Host.bare test _ htest readsSeven 10 (fun vm =>
    vm.nextOp = some .indexRef && vm.depth = 2 && vm.operand 0 = some (.obj 4) &&
      vm.deref (.obj 4) = some (.vector 1 0) && vm.operand 1 = some (.obj 7) &&
        vm.deref (.obj 7) = some (.fixnum 0) && vm.arrays[0]? = some [some (.obj 6)]) (by decide +kernel)
  simp only [Bool.and_eq_true, decide_eq_true_eq] at hvm
  obtain ⟨⟨⟨⟨⟨⟨hnext, hdepth⟩, hop0⟩, hvector⟩, hop1⟩, hindex⟩, harray⟩ := hvm
  have hpushes : vm.PushesObjects Host.bare := by
    refine ⟨fun _ => ?_, fun hext => absurd (hnext.symm.trans hext) (by decide)⟩
    rintro ⟨v, i, o, length, index, slots, hv, ho, hslots, hi, hfixnum, -, hno⟩
    cases hop0.symm.trans hv
    cases hvector.symm.trans ho
    cases hslots
    cases hop1.symm.trans hi
    cases hindex.symm.trans hfixnum
    exact hno ⟨[some (.obj 6)], .obj 6, by decide, by decide, harray, rfl⟩
  obtain ⟨hstack, hnull⟩ := stack_stays_in_order h
  exact ⟨vm, h, hnext, hdepth, hstack, hnull hpushes⟩

end Insomniac.Vm

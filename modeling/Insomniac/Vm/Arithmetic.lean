import Insomniac.Vm.Stack

/-!
# Vm/Arithmetic — `+`, `-`, `*`, `/` and `%`

    num2 ─┐
    num1 ─┴─▸ num1 op num2, modulo 2^64

`NUMERIC_OP` throws on what is not a number, before it calculates.  It does not look at the divisor:
the process ends at `n / 0`, and at the least number by `-1` (`arithmetic_total_iff`).
-/

open Run

namespace Insomniac.Vm

/-! ## The instructions

Five instructions and one macro: they differ in what they calculate, and in nothing else. -/

/-- The instructions that `NUMERIC_OP` makes. -/
inductive ArithOp
  | add
  | sub
  | mul
  | div
  | mod

namespace ArithOp

/-- The instruction. -/
def op : ArithOp → Throw → VmM Unit
  | .add => opAdd
  | .sub => opSub
  | .mul => opMul
  | .div => opDiv
  | .mod => opMod

/-- What it calculates, with its traps. -/
def calculates : ArithOp → Int64 → Int64 → VmM Int64
  | .add => fun a b => pure (a + b)
  | .sub => fun a b => pure (a - b)
  | .mul => fun a b => pure (a * b)
  | .div => divide (· / ·)
  | .mod => divide (· % ·)

/-- The exact result; quotients are truncated. -/
def exactly : ArithOp → ℤ → ℤ → ℤ
  | .add => (· + ·)
  | .sub => (· - ·)
  | .mul => (· * ·)
  | .div => Int.tdiv
  | .mod => Int.tmod

/-- The operands of a division for which C gives no meaning. -/
def Traps : ArithOp → Int64 → Int64 → Prop
  | .div, a, b | .mod, a, b => b = 0 ∨ (a = Int64.minValue ∧ b = -1)
  | _, _, _ => False

/-- Each instruction is the macro, with an operator of its own. -/
theorem op_eq (o : ArithOp) (throw : Throw) : o.op throw = numericOp throw o.calculates := by cases o <;> rfl

/-- **The result is exact modulo 2^64**, and there is one unless the division traps. -/
theorem calculates_run (o : ArithOp) {a b : Int64} (h : ¬ o.Traps a b) : ∃ n : Int64,
    n.toInt = (o.exactly a.toInt b.toInt).bmod (2 ^ 64) ∧ ∀ vm, o.calculates a b vm = .ok (n, vm) := by
  cases o with
  | add => exact ⟨a + b, Int64.toInt_add a b, fun _ => rfl⟩
  | sub => exact ⟨a - b, Int64.toInt_sub a b, fun _ => rfl⟩
  | mul => exact ⟨a * b, Int64.toInt_mul a b, fun _ => rfl⟩
  | div => exact ⟨a / b, Int64.toInt_div a b, fun vm => congrFun (if_neg h) vm⟩
  | mod =>
    refine ⟨a % b, ?_, fun vm => congrFun (if_neg h) vm⟩
    have hlt := (a % b).toInt_lt
    have hle := (a % b).le_toInt
    change (a % b).toInt = (a.toInt.tmod b.toInt).bmod (2 ^ 64)
    rw [← Int64.toInt_mod, Int.bmod_eq_of_le (by omega) (by omega)]

/-- Where the operator traps, the process ends. -/
theorem calculates_traps (o : ArithOp) {a b : Int64} (h : o.Traps a b) (vm : VmInternal) :
    o.calculates a b vm = .error .undefined := by
  cases o with
  | div | mod => exact congrFun (if_pos h) vm
  | _ => exact h.elim

end ArithOp

/-! ## The operands

What the instruction looks at are the two topmost objects, and of these only whether they are numbers. -/

section

variable {vm : VmInternal} {num1 num2 : Ptr} {rest : Ref}

/-- Two operands on top of the stack, `num2` above `num1`. -/
structure VmInternal.TwoOperands (vm : VmInternal) (num1 num2 : Ptr) (rest : Ref) : Prop where
  stack : ∃ cdr, vm.deref vm.stackRoot = some (.pair num2 (some cdr)) ∧ vm.deref cdr = some (.pair num1 (some rest))
  there : ∀ r ∈ num1, ∃ o, vm.deref r = some o
  there' : ∀ r ∈ num2, ∃ o, vm.deref r = some o

/-- The number that an object is, if it is one. -/
def Obj.fixnum? : Obj → Option Int64
  | .fixnum integer => some integer
  | _ => none

@[inherit_doc Obj.fixnum?] def VmInternal.fixnumAt (vm : VmInternal) (num : Ptr) : Option Int64 :=
  (num.bind vm.deref).bind Obj.fixnum?

/-- The state without the operands. -/
def VmInternal.below (vm : VmInternal) (rest : Ref) : VmInternal :=
  { vm with stackRoot := rest, depth := vm.depth - 1 - 1 }

/-- The instruction throws, whatever that does, and pushes nothing. -/
def ArithOp.Throws (o : ArithOp) (vm : VmInternal) (rest : Ref) : Prop :=
  ∃ msg args, ∀ throw : Throw, o.op throw vm = throw msg args (vm.below rest)

/-- The instruction pushes a number. -/
def ArithOp.Pushes (o : ArithOp) (vm : VmInternal) (rest : Ref) (n : Int64) : Prop :=
  ∀ throw : Throw, o.op throw vm = (do let result ← alloc (.fixnum n); vmPush result) (vm.below rest)

/-- **Arithmetic is total** on some operands: two numbers have their exact result modulo 2^64, or an exception
is thrown; for anything else one is thrown, which is fatal when an operand is null. -/
def ArithOp.Total (o : ArithOp) (vm : VmInternal) (num1 num2 : Ptr) (rest : Ref) : Prop :=
  match vm.fixnumAt num1, vm.fixnumAt num2 with
  | some a, some b => o.Throws vm rest ∨
      ∃ n : Int64, n.toInt = (o.exactly a.toInt b.toInt).bmod (2 ^ 64) ∧ o.Pushes vm rest n
  | _, _ => o.Throws vm rest ∨ ∃ msg, ∀ throw : Throw, o.op throw vm = .error (.fatal msg)

/-- A null operand is fatal. -/
theorem numericOp_null (h : vm.TwoOperands num1 num2 rest) (hnull : num1 = none ∨ num2 = none) (throw : Throw)
    (op : Int64 → Int64 → VmM Int64) : numericOp throw op vm = .error (.fatal "Null found in pop.") := by
  obtain ⟨cdr, htop, hnext⟩ := h.stack
  cases num2 with
  | none =>
    have hpop : vmPop vm = .error (.fatal "Null found in pop.") := by rw [vmPop, htop]
    exact bind_error _ hpop
  | some r₂ =>
    obtain rfl : num1 = none := hnull.resolve_right (Option.some_ne_none r₂)
    have hpop : vmPop (vm.pop cdr) = .error (.fatal "Null found in pop.") := by
      have hnext : (vm.pop cdr).deref (vm.pop cdr).stackRoot = some (.pair none (some rest)) := hnext
      rw [vmPop, hnext]
    exact (run_bind (vmPop_run htop)).trans (bind_error _ hpop)

/-- Operands that are objects are taken off and looked at. -/
theorem numericOp_run {r₁ r₂ : Ref} {o₁ o₂ : Obj} (h : vm.TwoOperands (some r₁) (some r₂) rest)
    (h₁ : vm.deref r₁ = some o₁) (h₂ : vm.deref r₂ = some o₂) (throw : Throw)
    (op : Int64 → Int64 → VmM Int64) : numericOp throw op vm = (match o₁, o₂ with
      | .fixnum a, .fixnum b => do
        let integer ← op a b
        let result ← alloc (.fixnum integer)
        vmPush result
      | _, _ => throw "Attempt to calculate with non-number\n" [r₁, r₂]) (vm.below rest) := by
  obtain ⟨cdr, htop, hnext⟩ := h.stack
  have hnext : (vm.pop cdr).Top r₁ rest := hnext
  have hload₁ : load r₁ (vm.below rest) = .ok (o₁, vm.below rest) := ofOption_run h₁
  have hload₂ : load r₂ (vm.below rest) = .ok (o₂, vm.below rest) := ofOption_run h₂
  refine (run_bind (vmPop_run htop)).trans ((run_bind (vmPop_run hnext)).trans ?_)
  exact (run_bind hload₁).trans (run_bind hload₂)

/-- It is the number of the object that the operand refers to. -/
theorem fixnumAt_some {r : Ref} {o : Obj} (h : vm.deref r = some o) : vm.fixnumAt (some r) = o.fixnum? := by
  rw [VmInternal.fixnumAt, Option.bind_some, h, Option.bind_some]

/-- **A trap neither throws nor pushes.** -/
theorem not_total_of_traps {o : ArithOp} {a b : Int64} {r₁ r₂ : Ref}
    (h : vm.TwoOperands (some r₁) (some r₂) rest) (h₁ : vm.deref r₁ = some (.fixnum a))
    (h₂ : vm.deref r₂ = some (.fixnum b)) (htraps : o.Traps a b) :
    ¬ o.Throws vm rest ∧ ∀ n, ¬ o.Pushes vm rest n := by
  have hrun : o.op raise vm = .error .undefined := by
    rw [o.op_eq, numericOp_run h h₁ h₂]
    exact bind_error _ (o.calculates_traps htraps _)
  constructor
  · rintro ⟨msg, args, hthrows⟩
    cases (hthrows raise).symm.trans hrun
  · intro n hpushes
    cases (hpushes raise).symm.trans hrun

/-- **Arithmetic is total** unless it divides two numbers that trap. -/
theorem arithmetic_total_iff (o : ArithOp) (h : vm.TwoOperands num1 num2 rest) : o.Total vm num1 num2 rest ↔
    ∀ a b, vm.fixnumAt num1 = some a → vm.fixnumAt num2 = some b → ¬ o.Traps a b := by
  have hnull : num1 = none ∨ num2 = none → ∃ msg, ∀ throw : Throw, o.op throw vm = .error (.fatal msg) :=
    fun hnull => ⟨_, fun throw => (congrFun (o.op_eq throw) vm).trans (numericOp_null h hnull throw _)⟩
  unfold ArithOp.Total
  rcases num1 with _ | r₁
  · refine iff_of_true (.inr (hnull (.inl rfl))) nofun
  rcases num2 with _ | r₂
  · refine iff_of_true ?_ (fun _ _ _ => nofun)
    cases vm.fixnumAt (some r₁) <;> exact .inr (hnull (.inr rfl))
  obtain ⟨o₁, h₁⟩ := h.there r₁ rfl
  obtain ⟨o₂, h₂⟩ := h.there' r₂ rfl
  have hrun : ∀ throw : Throw, o.op throw vm = _ := fun throw => (congrFun (o.op_eq throw) vm).trans
    (numericOp_run h h₁ h₂ throw o.calculates)
  rw [fixnumAt_some h₁, fixnumAt_some h₂]
  cases o₁ with
  | fixnum a =>
    cases o₂ with
    | fixnum b =>
      constructor
      · -- a trap neither throws nor pushes
        intro htotal a' b' ha hb htraps
        cases ha
        cases hb
        obtain ⟨hthrows, hpushes⟩ := not_total_of_traps h h₁ h₂ htraps
        rcases htotal with hthrown | ⟨n, -, hpushed⟩
        · exact hthrows hthrown
        · exact hpushes n hpushed
      · intro hno
        obtain ⟨n, hn, hcalc⟩ := o.calculates_run (hno a b rfl rfl)
        exact .inr ⟨n, hn, fun throw => (hrun throw).trans (run_bind (hcalc _))⟩
    | _ => exact iff_of_true (.inl ⟨_, _, hrun⟩) (fun _ _ _ => nofun)
  | _ => exact iff_of_true (.inl ⟨_, _, hrun⟩) nofun

end

/-- A state with two numbers on its stack. -/
def withNumbers (a b : Int64) : VmInternal :=
  let vm : VmInternal := { vmCreate with objs := vmCreate.objs ++ [.fixnum a, .fixnum b] }
  (vm.push (some (.obj vmCreate.objs.length))).push (some (.obj (vmCreate.objs.length + 1)))

/-- A state with two numbers on its stack. -/
theorem operands_withNumbers (a b : Int64) : (withNumbers a b).TwoOperands (some (.obj vmCreate.objs.length))
    (some (.obj (vmCreate.objs.length + 1))) vmCreate.stackRoot where
  stack := ⟨_, rfl, rfl⟩
  there := fun _ hr => ⟨.fixnum a, by cases hr; rfl⟩
  there' := fun _ hr => ⟨.fixnum b, by cases hr; rfl⟩

/-- `7 / -2`. -/
theorem arithmetic_total_seven : ArithOp.div.Total (withNumbers 7 (-2)) (some (.obj vmCreate.objs.length))
    (some (.obj (vmCreate.objs.length + 1))) vmCreate.stackRoot :=
  (arithmetic_total_iff .div (operands_withNumbers 7 (-2))).mpr fun a b ha hb => by
    cases ha
    cases hb
    change ¬ ((-2 : Int64) = 0 ∨ _)
    decide

/-- **`3 / 0` ends the process**: it neither throws nor pushes, and nor does the least number by `-1`. -/
theorem arithmetic_traps : ¬ ArithOp.div.Total (withNumbers 3 0) (some (.obj vmCreate.objs.length))
      (some (.obj (vmCreate.objs.length + 1))) vmCreate.stackRoot ∧
    ¬ ArithOp.mod.Total (withNumbers Int64.minValue (-1)) (some (.obj vmCreate.objs.length))
      (some (.obj (vmCreate.objs.length + 1))) vmCreate.stackRoot := by
  constructor
  · obtain ⟨hthrows, hpushes⟩ := not_total_of_traps (o := .div) (operands_withNumbers 3 0) rfl rfl (.inl rfl)
    rintro (hthrown | ⟨n, -, hpushed⟩)
    · exact hthrows hthrown
    · exact hpushes n hpushed
  · obtain ⟨hthrows, hpushes⟩ :=
      not_total_of_traps (o := .mod) (operands_withNumbers Int64.minValue (-1)) rfl rfl (.inr ⟨rfl, rfl⟩)
    rintro (hthrown | ⟨n, -, hpushed⟩)
    · exact hthrows hthrown
    · exact hpushes n hpushed

end Insomniac.Vm

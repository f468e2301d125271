import Insomniac.Vm.Built
import Insomniac.Vm.Grown

/-!
# Lib/Inline — `asm` forms of the library

A procedure of `lib/*.scm` is a program of the machine here: its parameters are references, numbers
that it only computes with are numbers, and an `(asm …)` form runs its operations on the operand
stack.

    (asm (x) (y) op) ──▸ push x · push y · op · the value is the top of the stack

The stack is as before then, and what was in memory is still there (`Grows`).
-/

open Run

namespace Insomniac.Lib

open Insomniac.Vm

/-- `(asm (x) … op …)`: the values are pushed in order, and what the operations leave is taken off. -/
def asm (args : List Ref) (op : VmM Unit) : VmM Ref := do
  args.forM fun arg => vmPush (some arg)
  op
  vmPop

/-- A number, as an object. -/
def number (n : Int64) : VmM Ref := alloc (.fixnum n)

/-- The number that an object is. -/
def fixnumOf (r : Ref) : VmM Int64 := do
  match ← load r with
  | .fixnum n => pure n
  | _ => undefined

/-! ## Counting down

Loops of the library count a number down to zero or below. -/

/-- One less than a number that is not negative does not wrap. -/
theorem toInt_sub_one {n : Int64} (h : 0 ≤ n) : (n - 1).toInt = n.toInt - 1 := by
  have hnonneg : 0 ≤ n.toInt := Int64.le_iff_toInt_le.mp h
  have hlt := n.toInt_lt
  have hone : (1 : Int64).toInt = 1 := rfl
  rw [Int64.toInt_sub, hone]
  exact Int.bmod_eq_of_le (by omega) (by omega)

/-- Counting down comes to an end. -/
theorem countdown_lt {n : Int64} (h : 0 ≤ n) : ((n - 1).toInt + 1).toNat < (n.toInt + 1).toNat := by
  have hnonneg : 0 ≤ n.toInt := Int64.le_iff_toInt_le.mp h
  rw [toInt_sub_one h]
  omega

/-! ## What is kept

What was in memory is still there, and the stack is the one it was; new objects and new pairs of the stack may
have been made. -/

/-- **Nothing that was in memory has changed**, and the stack is what it was. -/
structure Grows (vm vm' : VmInternal) : Prop extends Grown vm vm' where
  stackRoot : vm'.stackRoot = vm.stackRoot

variable {vm vm' vm'' : VmInternal}

theorem Grows.refl (vm : VmInternal) : Grows vm vm := ⟨.refl vm, rfl⟩

theorem Grows.trans (h : Grows vm vm') (h' : Grows vm' vm'') : Grows vm vm'' :=
  ⟨h.toGrown.trans h'.toGrown, h'.stackRoot.trans h.stackRoot⟩

theorem Grows.alloc (vm : VmInternal) (o : Obj) : Grows vm { vm with objs := vm.objs ++ [o] } := ⟨.alloc vm o, rfl⟩

/-! ## The stack

The operands of an `asm` form are pushed onto the stack and taken off by its instructions, so they are told
apart from the stack below. -/

/-- Some values on the stack, above a place in it. -/
def OnStack (vm : VmInternal) (root : Ref) : Ref → List Ref → Prop
  | p, [] => p = root
  | p, r :: rs => ∃ cdr, vm.deref p = some (.pair (some r) (some cdr)) ∧ OnStack vm root cdr rs

/-- What is on the stack stays there. -/
theorem OnStack.grown {root : Ref} (hgrown : Grown vm vm') :
    ∀ {rs : List Ref} {p : Ref}, OnStack vm root p rs → OnStack vm' root p rs
  | [], _, h => h
  | _ :: _, _, ⟨cdr, hp, h⟩ => ⟨cdr, hgrown.deref hp, h.grown hgrown⟩

/-- **A state with some operands on its stack**, the last one pushed first, and otherwise as it was. -/
structure Holding (vm : VmInternal) (rs : List Ref) (vm' : VmInternal) : Prop where
  grown : Grown vm vm'
  objs : vm'.objs = vm.objs
  bytes : vm'.bytes = vm.bytes
  stack : OnStack vm' vm.stackRoot vm'.stackRoot rs

/-- One more operand. -/
theorem Holding.push {rs : List Ref} (h : Holding vm rs vm') (r : Ref) : Holding vm (r :: rs) (vm'.push (some r)) where
  grown := h.grown.trans (.push vm' (some r))
  objs := h.objs
  bytes := h.bytes
  stack := by
    refine ⟨vm'.stackRoot, ?_, h.stack.grown (.push vm' (some r))⟩
    simp [VmInternal.push, VmInternal.deref]

/-- Without operands the stack is the one it was. -/
theorem Holding.root (h : Holding vm [] vm') : vm'.stackRoot = vm.stackRoot := h.stack

/-- **An operand is taken.** -/
theorem Holding.pop {r : Ref} {rs : List Ref} (h : Holding vm (r :: rs) vm') :
    ∃ vm'', vmPop vm' = .ok (r, vm'') ∧ Holding vm rs vm'' := by
  obtain ⟨cdr, hp, hrest⟩ := h.stack
  exact ⟨vm'.pop cdr, vmPop_run hp, h.grown.trans (.pop vm' cdr), h.objs, h.bytes, hrest.grown (.pop vm' cdr)⟩

/-- The operands of an `asm` form are pushed. -/
theorem push_run : ∀ (args rs : List Ref) {vm' : VmInternal}, Holding vm rs vm' →
    ∃ vm'', args.forM (fun arg => vmPush (some arg)) vm' = .ok ((), vm'') ∧ Holding vm (args.reverse ++ rs) vm''
  | [], _, vm', h => ⟨vm', rfl, h⟩
  | arg :: args, rs, vm', h => by
      obtain ⟨vm'', hrun, hholding⟩ := push_run args (arg :: rs) (h.push arg)
      refine ⟨vm'', (run_bind (a := ()) (t := vm'.push (some arg)) rfl).trans hrun, ?_⟩
      rwa [List.reverse_cons, List.append_assoc, List.singleton_append]

/-- The state in which the value of an `asm` form has been taken off. -/
def taken (vm : VmInternal) (r : Ref) : VmInternal := (vm.push (some r)).pop vm.stackRoot

/-- Taking a value off changes nothing in memory. -/
theorem Grown.taken (vm : VmInternal) (r : Ref) : Grown vm (Lib.taken vm r) :=
  (Grown.push vm (some r)).trans (.pop _ _)

/-- **An `asm` form** whose operations take their operands and push a value. -/
theorem asm_run (vm : VmInternal) (args : List Ref) (op : VmM Unit) (P : VmInternal → Ref → Prop)
    (hop : ∀ vm₁, Holding vm args.reverse vm₁ → ∃ vm₂ r, op vm₁ = .ok ((), vm₂.push (some r)) ∧ P vm₂ r) :
    ∃ vm₂ r, asm args op vm = .ok (r, taken vm₂ r) ∧ P vm₂ r := by
  have hstart : Holding vm [] vm := ⟨.refl vm, rfl, rfl, rfl⟩
  obtain ⟨vm₁, hpush, hholding⟩ := push_run args [] hstart
  rw [List.append_nil] at hholding
  obtain ⟨vm₂, r, hrun, hP⟩ := hop vm₁ hholding
  have htop : (vm₂.push (some r)).Top r vm₂.stackRoot := by
    simp [VmInternal.Top, VmInternal.push, VmInternal.deref]
  exact ⟨vm₂, r, (run_bind hpush).trans ((run_bind hrun).trans (vmPop_run htop)), hP⟩

/-- **An `asm` form that makes an object** out of its operands. -/
theorem asm_makes (vm : VmInternal) (args : List Ref) (op : VmM Unit) (o : Obj)
    (hop : ∀ vm₁, Holding vm args.reverse vm₁ → ∃ vm₂, Holding vm [] vm₂ ∧
      op vm₁ = (do let obj ← alloc o; vmPush (some obj)) vm₂) :
    ∃ r vm', asm args op vm = .ok (r, vm') ∧ Grows vm vm' ∧ vm'.deref r = some o ∧ vm'.bytes = vm.bytes := by
  obtain ⟨vm₂, r, hrun, hgrown, hroot, hr, hbytes⟩ := asm_run vm args op
    (fun vm₂ r => Grown vm vm₂ ∧ vm₂.stackRoot = vm.stackRoot ∧ vm₂.deref r = some o ∧ vm₂.bytes = vm.bytes)
    fun vm₁ h => by
      obtain ⟨vm₂, hholding, hrun⟩ := hop vm₁ h
      refine ⟨{ vm₂ with objs := vm₂.objs ++ [o] }, .obj vm₂.objs.length, hrun, hholding.grown.trans (.alloc vm₂ o),
        hholding.root, ?_, hholding.bytes⟩
      exact List.getElem?_concat_length
  exact ⟨r, taken vm₂ r, hrun, ⟨hgrown.trans (Grown.taken vm₂ r), hroot⟩, (Grown.taken vm₂ r).deref hr, hbytes⟩

/-- An object that is there is looked at. -/
theorem load_run {r : Ref} {o : Obj} (h : vm.deref r = some o) : load r vm = .ok (o, vm) := ofOption_run h

/-- It is looked at while there are operands on the stack. -/
theorem Holding.load {rs : List Ref} (h : Holding vm rs vm') {r : Ref} {o : Obj} (hr : vm.deref r = some o) :
    Vm.load r vm' = .ok (o, vm') := load_run (h.grown.deref hr)

/-! ## Numbers

A number of the library is an object on the machine and a number here; it is made when it is pushed and looked
at when it is taken off. -/

theorem fixnumOf_run {r : Ref} {n : Int64} (h : vm.deref r = some (.fixnum n)) : fixnumOf r vm = .ok (n, vm) :=
  (run_bind (load_run h)).trans rfl

theorem number_run (n : Int64) (vm : VmInternal) : ∃ r vm', number n vm = .ok (r, vm') ∧ Grows vm vm' ∧
    vm'.deref r = some (.fixnum n) ∧ vm'.bytes = vm.bytes :=
  ⟨_, _, rfl, .alloc vm _, List.getElem?_concat_length, rfl⟩

end Insomniac.Lib

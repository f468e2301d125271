import Insomniac.Vm.Memory

/-!
# Abstract/Machine — the machine without its memory

What the instructions of compiled code are for, on values instead of references: pairs are pairs of
values, a closure is a place in some code and the frames around it, and a frame has bindings by name.

    ⟨here, outer⟩  stack  tables  ──decodeAt, exec──▸  ⟨here', outer'⟩  stack'  tables'

Only instructions that compiled code and the preamble are made of are given a meaning, and only where
they do not throw.  `Abstract/Refine` shows that the virtual machine does what this one does.
-/

open Insomniac.Asm Insomniac.Vm

namespace Insomniac.Abstract

/-! ## Values

What an object is worth to a program: no identity of pairs, and of closures the place and the frames.  `ref`
stands for an object of which nothing is known and which nothing may look into. -/

/-- An environment without its parent. -/
structure Frame where
  codeRef : Option ℕ
  length : ℕ
  ip : ℕ
  bindings : ℕ
  handler : Bool
  handlerAddr : ℕ
  deriving DecidableEq

/-- What an object stands for. -/
inductive Val
  /-- An object of which nothing is known. -/
  | ref (r : Ref)
  /-- An object with its content. -/
  | obj (r : Ref) (o : Obj)
  | fixnum (integer : Int64)
  | bool (boolean : Bool)
  | char (character : UInt32)
  | string (str : List UInt8)
  | symbol (name : List UInt8)
  | empty
  | pair (car cdr : Val)
  | closure (here : Frame) (outer : List Frame)
  deriving DecidableEq

namespace Val

/-- Whether a value is `#f`, where that is known. -/
def isFalse : Val → Option Bool
  | .ref _ => none
  | .obj _ o => some (o = .bool false)
  | .bool boolean => some (!boolean)
  | _ => some false

/-- Whether a value is `()`, where that is known. -/
def isEmpty : Val → Option Bool
  | .ref _ => none
  | .obj _ o => some (o.type == .empty)
  | .empty => some true
  | _ => some false

/-- A list. -/
def list (vs : List Val) : Val := vs.foldr .pair .empty

@[simp] theorem list_nil : list [] = .empty := rfl

/-- A list with one more element. -/
@[simp] theorem list_cons (v : Val) (vs : List Val) : list (v :: vs) = .pair v (list vs) := rfl

end Val

/-- The bindings of a frame. -/
abbrev Bindings := List UInt8 → Option Val

/-- **A state.**  Nothing is known of a table that `tables` does not have; `next` is the number of the
next new one. -/
structure Machine where
  codes : ℕ → Option Code
  here : Frame
  outer : List Frame
  stack : List Val
  tables : ℕ → Option Bindings
  next : ℕ

/-- The table of the innermost frame that has a value for a name, and the value; nothing when that is
not known. -/
def findFrame (tables : ℕ → Option Bindings) (name : List UInt8) : List Frame → Option (ℕ × Val)
  | [] => none
  | f :: outer => do
    let bindings ← tables f.bindings
    match bindings name with
    | some v => some (f.bindings, v)
    | none => findFrame tables name outer

namespace Machine

variable (m : Machine)

/-! ## Parts of instructions

Instructions are put together from these as the functions of the virtual machine are from theirs, so that each
can be compared with its counterpart. -/

/-- Go on at an address. -/
def goto (ip : ℕ) : Machine := { m with here := { m.here with ip } }

/-- Put a value on the stack. -/
def push (v : Val) : Machine := { m with stack := v :: m.stack }

/-- Go on in a closure. -/
def switch (here : Frame) (outer : List Frame) : Machine := { m with here, outer }

/-- Go on in a new child of the current frame. -/
def child : Machine :=
  { m with
    here := { m.here with bindings := m.next, handler := false, handlerAddr := 0 }
    outer := m.here :: m.outer
    tables := Function.update m.tables m.next (some fun _ => none)
    next := m.next + 1 }

/-- Set a name in a table. -/
def setIn (t : ℕ) (name : List UInt8) (v : Val) : Option Machine := do
  let bindings ← m.tables t
  some { m with tables := Function.update m.tables t (some (Function.update bindings name (some v))) }

/-! ## Instructions

An instruction that would throw has no result here. -/

/-- An instruction on the top of the stack. -/
def top₁ (f : Val → Option Val) : Option Machine :=
  match m.stack with
  | a :: s => (f a).map fun v => { m with stack := v :: s }
  | _ => none

/-- An instruction on the two objects on top of the stack, the upper one first. -/
def top₂ (f : Val → Val → Option Val) : Option Machine :=
  match m.stack with
  | a :: b :: s => (f a b).map fun v => { m with stack := v :: s }
  | _ => none

/-- A calculation. -/
def arith (f : Int64 → Int64 → Option Val) : Val → Val → Option Val
  | .fixnum num2, .fixnum num1 => f num1 num2
  | _, _ => none

/-- `/` and `%`, where they do not trap. -/
def divide (op : Int64 → Int64 → Int64) (a b : Int64) : Option Val :=
  if b = 0 ∨ (a = Int64.minValue ∧ b = -1) then none else some (.fixnum (op a b))

/-- `jnf`. -/
def jnf (target : Int64) : Option Machine :=
  match m.stack with
  | v :: s => v.isFalse.map fun isFalse =>
      let m := { m with stack := s }
      if isFalse then m else m.goto (jumpTo m.here.ip target)
  | _ => none

/-- `call`: the closure is of the frame itself. -/
def call (target : Int64) : Machine :=
  let m := (m.push (.closure m.here m.outer)).child
  m.goto (jumpTo m.here.ip target)

/-- `proc`. -/
def proc (target : Int64) : Machine :=
  m.push (.closure { m.here with ip := jumpTo m.here.ip target } m.outer)

/-- `ret`. -/
def ret : Option Machine :=
  match m.stack with
  | .closure here outer :: s => some ({ m with stack := s }.switch here outer)
  | _ => none

/-- `call_in`. -/
def callIn : Option Machine :=
  match m.stack with
  | .closure here outer :: s =>
    some (({ m with stack := .closure m.here m.outer :: s }.switch here outer).child)
  | _ => none

/-- `tail_call_in`. -/
def tailCallIn : Option Machine :=
  match m.stack with
  | .closure here outer :: a :: b :: s => some (({ m with stack := b :: a :: s }.switch here outer).child)
  | _ => none

/-- `bind`. -/
def bind : Option Machine :=
  match m.stack with
  | .symbol name :: v :: s => { m with stack := s }.setIn m.here.bindings name v
  | _ => none

/-- `@`. -/
def read : Option Machine :=
  match m.stack with
  | .symbol name :: s => (findFrame m.tables name (m.here :: m.outer)).map fun found => { m with stack := found.2 :: s }
  | _ => none

/-- `!`. -/
def set : Option Machine :=
  match m.stack with
  | .symbol name :: v :: s => do
    let found ← findFrame m.tables name (m.here :: m.outer)
    { m with stack := s }.setIn found.1 name v
  | _ => none

/-- **What an instruction does** once its operand has been read. -/
def exec : Op → Operand → Option Machine
  | .litEmpty, _ => some (m.push .empty)
  | .litTrue, _ => some (m.push (.bool true))
  | .litFalse, _ => some (m.push (.bool false))
  | .litFixnum, .int integer => some (m.push (.fixnum integer))
  | .litChar, .char character => some (m.push (.char character))
  | .litString, .string str => if 0 ∈ str then none else some (m.push (.string str))
  | .litSymbol, .string name => if 0 ∈ name then none else some (m.push (.symbol name))
  | .cons, _ => m.top₂ fun car cdr => some (.pair car cdr)
  | .car, _ => m.top₁ fun | .pair car _ => some car | _ => none
  | .cdr, _ => m.top₁ fun | .pair _ cdr => some cdr | _ => none
  | .swap, _ =>
    match m.stack with
    | a :: b :: s => some { m with stack := b :: a :: s }
    | _ => none
  | .dupRef, _ =>
    match m.stack with
    | a :: s => some { m with stack := a :: a :: s }
    | _ => none
  | .drop, _ =>
    match m.stack with
    | _ :: s => some { m with stack := s }
    | _ => none
  | .depth, _ => some (m.push (.fixnum (Int64.ofInt m.stack.length)))
  | .add, _ => m.top₂ (arith fun a b => some (.fixnum (a + b)))
  | .sub, _ => m.top₂ (arith fun a b => some (.fixnum (a - b)))
  | .mul, _ => m.top₂ (arith fun a b => some (.fixnum (a * b)))
  | .div, _ => m.top₂ (arith (divide (· / ·)))
  | .mod, _ => m.top₂ (arith (divide (· % ·)))
  | .numericEqual, _ => m.top₂ (arith fun a b => some (.bool (a == b)))
  | .numericLt, _ => m.top₂ (arith fun a b => some (.bool (decide (a < b))))
  | .numericGt, _ => m.top₂ (arith fun a b => some (.bool (decide (b < a))))
  | .not, _ => m.top₁ fun v => v.isFalse.map .bool
  | .isEmpty, _ => m.top₁ fun v => v.isEmpty.map .bool
  | .jmp, .int target => some (m.goto (jumpTo m.here.ip target))
  | .jnf, .int target => m.jnf target
  | .call, .int target => some (m.call target)
  | .proc, .int target => some (m.proc target)
  | .ret, _ => m.ret
  | .callIn, _ => m.callIn
  | .tailCallIn, _ => m.tailCallIn
  | .bind, _ => m.bind
  | .read, _ => m.read
  | .set, _ => m.set
  | _, _ => none

/-- **A step.** -/
def step : Option Machine := do
  let code ← m.here.codeRef >>= m.codes
  if m.here.ip < m.here.length then
    let (instr, next) ← decodeAt code m.here.ip
    (m.goto next).exec instr.op instr.operand
  else none

end Machine

/-- The states that a state comes to. -/
abbrev Runs : Machine → Machine → Prop := Relation.ReflTransGen fun m m' => m.step = some m'

end Insomniac.Abstract

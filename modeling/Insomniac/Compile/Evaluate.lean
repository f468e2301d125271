import Insomniac.Abstract.Machine
import Insomniac.Compile.Syntax
import Insomniac.Machinery.Fuel

/-!
# Compile/Evaluate — what instruction streams mean

A big-step evaluator of the core language, which knows nothing of code or of a stack: values, closures
with the scopes around them, and a store of scopes that closures share.

    store  ⊢  env, tree  ──fuel──▸  value, store'

Operands are evaluated from the last to the first and the operator behind them, as their stream has them;
`define`, `set!` and what is missing are `()`.  A result stays with more fuel (`More.of_le`).
-/

open Fuel Insomniac.Abstract Run

namespace Insomniac.Compile

/-! ## Values

A closure has its scopes as a list of numbers, so that two closures may share a scope and see what is set in it. -/

/-- A value.  Of an object that none of the core language's constructors made, only the machine knows
what it is. -/
inductive Value
  | fixnum (i : Int64)
  | bool (b : Bool)
  | char (c : UInt32)
  | string (str : List UInt8)
  | symbol (name : List UInt8)
  | empty
  | pair (car cdr : Value)
  | closure (formals : Formals) (body : Stream) (env : List ℕ)
  | other (v : Val)

/-- Whether a value is `#f`, where that is known. -/
def Value.isFalse : Value → Option Bool
  | .bool b => some (!b)
  | .other v => v.isFalse
  | _ => some false

/-- The value of a literal. -/
def Literal.value : Literal → Value
  | .empty => .empty
  | .boolean b => .bool b
  | .fixnum i => .fixnum i
  | .char c => .char c
  | .string str => .string str.bytes
  | .symbol name => .symbol name.bytes

/-- What a calculation makes of its operands, unless it traps. -/
def MathOp.apply : MathOp → Int64 → Int64 → Option Value
  | .add, a, b => some (.fixnum (a + b))
  | .sub, a, b => some (.fixnum (a - b))
  | .mul, a, b => some (.fixnum (a * b))
  | .div, a, b => if b = 0 ∨ (a = Int64.minValue ∧ b = -1) then none else some (.fixnum (a / b))
  | .mod, a, b => if b = 0 ∨ (a = Int64.minValue ∧ b = -1) then none else some (.fixnum (a % b))
  | .equal, a, b => some (.bool (a == b))
  | .lt, a, b => some (.bool (decide (a < b)))
  | .gt, a, b => some (.bool (decide (b < a)))

/-- **The scopes**, by number; nothing is known of those that are not there. -/
structure Store where
  scopes : ℕ → Option (List UInt8 → Option Value)
  next : ℕ

/-- The innermost scope that has a value for a name, and the value. -/
def Store.find (store : Store) (name : List UInt8) : List ℕ → Option (ℕ × Value)
  | [] => none
  | t :: env => do
    let bindings ← store.scopes t
    match bindings name with
    | some v => some (t, v)
    | none => store.find name env

/-! ## The evaluator

The fuel bounds the depth of the recursion, and running out of it is told from an error.  One function for each
kind of the syntax. -/

/-- Why an evaluation stops. -/
inductive Stop
  | error
  | fuel
  deriving DecidableEq

/-- An evaluation. -/
abbrev Eval := StateT Store (Except Stop)

/-- What is not there is an error. -/
def known {α : Type} (a : Option α) : Eval α :=
  match a with
  | some a => pure a
  | none => throw .error

/-- A new scope. -/
def newScope : Eval ℕ := modifyGet fun store =>
  (store.next, { scopes := Function.update store.scopes store.next (some fun _ => none), next := store.next + 1 })

/-- Set a name in a scope. -/
def setIn (t : ℕ) (name : List UInt8) (v : Value) : Eval Unit := do
  let store ← get
  let bindings ← known (store.scopes t)
  set { store with scopes := Function.update store.scopes t (some (Function.update bindings name (some v))) }

/-- Bind the formals to the arguments; those that are left over are dropped. -/
def bindFormals (t : ℕ) : Formals → Value → Eval Unit
  | .fixed, _ => pure ()
  | .rest name, args => setIn t name.bytes args
  | .cons name next, .pair arg args => do
    setIn t name.bytes arg
    bindFormals t next args
  | .cons _ _, _ => throw .error

/-- Define a name in the innermost scope. -/
def define (env : List ℕ) (name : List UInt8) (v : Value) : Eval Unit :=
  match env with
  | t :: _ => setIn t name v
  | [] => throw .error

/-- The operands of a calculation are numbers. -/
def calculate (o : MathOp) : Value → Value → Eval Value
  | .fixnum a, .fixnum b => known (o.apply a b)
  | _, _ => throw .error

mutual

/-- The value of a node. -/
def evalNode : (fuel : ℕ) → (env : List ℕ) → Node → Eval Value
  | 0, _, _ => throw .fuel
  | _ + 1, _, .literal l => pure l.value
  | _ + 1, env, .load name => do
    let store ← get
    let found ← known (store.find name.bytes env)
    pure found.2
  | fuel + 1, env, .cond clauses => evalClauses fuel env clauses
  | fuel + 1, env, .ifElse test yes no => do
    let v ← evalStream fuel env test
    if ← known v.isFalse then evalStream fuel env no else evalStream fuel env yes
  | fuel + 1, env, .and nodes => evalBool fuel env true nodes
  | fuel + 1, env, .or nodes => evalBool fuel env false nodes
  | fuel + 1, env, .math o stream1 stream2 => do
    let v1 ← evalStream fuel env stream1
    let v2 ← evalStream fuel env stream2
    calculate o v1 v2
  | _ + 1, env, .lambda formals body => pure (.closure formals body env)
  | fuel + 1, env, .call operator operands => do
    let args ← evalOperands fuel env operands .empty
    let f ← evalStream fuel env operator
    evalCall fuel f args
  | fuel + 1, env, .bind value name => do
    let v ← evalStream fuel env value
    define env name.bytes v
    pure .empty
  | fuel + 1, env, .store value name => do
    let v ← evalStream fuel env value
    let store ← get
    let found ← known (store.find name.bytes env)
    setIn found.1 name.bytes v
    pure .empty
  | fuel + 1, env, .letStar bindings body => do
    let t ← newScope
    let _ ← evalStream fuel (t :: env) bindings
    evalStream fuel (t :: env) body

/-- The value of a stream: that of its last node. -/
def evalStream : (fuel : ℕ) → (env : List ℕ) → Stream → Eval Value
  | 0, _, _ => throw .fuel
  | _ + 1, _, .nil => pure .empty
  | fuel + 1, env, .cons head .nil => evalNode fuel env head
  | fuel + 1, env, .cons head (.cons head' next) => do
    let _ ← evalNode fuel env head
    evalStream fuel env (.cons head' next)

/-- The value of the first clause whose test is true. -/
def evalClauses : (fuel : ℕ) → (env : List ℕ) → Clauses → Eval Value
  | 0, _, _ => throw .fuel
  | _ + 1, _, .nil => pure .empty
  | fuel + 1, env, .cons test body next => do
    let v ← evalStream fuel env test
    if ← known v.isFalse then evalClauses fuel env next else evalStream fuel env body

/-- The value of `and` (`true`) or `or` (`false`). -/
def evalBool : (fuel : ℕ) → (env : List ℕ) → (andOr : Bool) → Stream → Eval Value
  | 0, _, _, _ => throw .fuel
  | _ + 1, _, andOr, .nil => pure (.bool andOr)
  | fuel + 1, env, _, .cons head .nil => evalNode fuel env head
  | fuel + 1, env, andOr, .cons head (.cons head' next) => do
    let v ← evalNode fuel env head
    if (← known v.isFalse) = andOr then pure v else evalBool fuel env andOr (.cons head' next)

/-- The list of the values of operands, in front of some arguments. -/
def evalOperands : (fuel : ℕ) → (env : List ℕ) → Stream → (args : Value) → Eval Value
  | 0, _, _, _ => throw .fuel
  | _ + 1, _, .nil, args => pure args
  | fuel + 1, env, .cons head next, args => do
    let v ← evalNode fuel env head
    evalOperands fuel env next (.pair v args)

/-- The value of a call. -/
def evalCall : (fuel : ℕ) → (f args : Value) → Eval Value
  | 0, _, _ => throw .fuel
  | fuel + 1, .closure formals body env, args => do
    let t ← newScope
    bindFormals t formals args
    evalStream fuel (t :: env) body
  | _ + 1, _, _ => throw .error

end


/-! ## More fuel

A result with some fuel is the result with more.  The proof goes through all functions at once. -/

/-- An evaluation with `n` units of fuel has the result with `n'` units. -/
structure More (n n' : ℕ) : Prop where
  node : ∀ env node, Extends (evalNode n env node) (evalNode n' env node)
  stream : ∀ env tree, Extends (evalStream n env tree) (evalStream n' env tree)
  clauses : ∀ env clauses, Extends (evalClauses n env clauses) (evalClauses n' env clauses)
  bool : ∀ env andOr nodes, Extends (evalBool n env andOr nodes) (evalBool n' env andOr nodes)
  operands : ∀ env operands args, Extends (evalOperands n env operands args) (evalOperands n' env operands args)
  call : ∀ f args, Extends (evalCall n f args) (evalCall n' f args)

namespace More

/-- With no fuel there is no result. -/
theorem zero (n : ℕ) : More 0 n where
  node env node := by
    rw [evalNode]
    exact extends_throw
  stream env tree := by
    rw [evalStream]
    exact extends_throw
  clauses env clauses := by
    rw [evalClauses]
    exact extends_throw
  bool env andOr nodes := by
    rw [evalBool]
    exact extends_throw
  operands env operands args := by
    rw [evalOperands]
    exact extends_throw
  call f args := by
    rw [evalCall]
    exact extends_throw

variable {n n' : ℕ}

theorem succ_node (h : More n n') (env : List ℕ) (node : Node) :
    Extends (evalNode (n + 1) env node) (evalNode (n' + 1) env node) := by
  cases node with
  | literal l => exact .refl
  | load name => exact .refl
  | cond clauses => exact h.clauses env clauses
  | ifElse test yes no =>
    exact (h.stream env test).bind fun v => Extends.refl.bind fun isFalse => (h.stream env no).ite (h.stream env yes)
  | and nodes => exact h.bool env true nodes
  | or nodes => exact h.bool env false nodes
  | math o stream1 stream2 =>
    exact (h.stream env stream1).bind fun v1 => (h.stream env stream2).bind fun v2 => .refl
  | lambda formals body => exact .refl
  | call operator operands =>
    exact (h.operands env operands .empty).bind fun args => (h.stream env operator).bind fun f => h.call f args
  | bind value name => exact (h.stream env value).bind fun v => .refl
  | store value name => exact (h.stream env value).bind fun v => .refl
  | letStar bindings body =>
    exact Extends.refl.bind fun t => (h.stream (t :: env) bindings).bind fun _ => h.stream (t :: env) body

theorem succ (h : More n n') : More (n + 1) (n' + 1) where
  node := h.succ_node
  stream env tree := by
    match tree with
    | .nil => exact .refl
    | .cons head .nil => exact h.node env head
    | .cons head (.cons head' next) => exact (h.node env head).bind fun _ => h.stream env (.cons head' next)
  clauses env clauses := by
    cases clauses with
    | nil => exact .refl
    | cons test body next =>
      exact (h.stream env test).bind fun v => Extends.refl.bind fun isFalse =>
        (h.clauses env next).ite (h.stream env body)
  bool env andOr nodes := by
    match nodes with
    | .nil => exact .refl
    | .cons head .nil => exact h.node env head
    | .cons head (.cons head' next) =>
      exact (h.node env head).bind fun v => Extends.refl.bind fun isFalse =>
        Extends.refl.ite (h.bool env andOr (.cons head' next))
  operands env operands args := by
    cases operands with
    | nil => exact .refl
    | cons head next => exact (h.node env head).bind fun v => h.operands env next (.pair v args)
  call f args := by
    cases f with
    | closure formals body env =>
      exact Extends.refl.bind fun t => Extends.refl.bind fun _ => h.stream (t :: env) body
    | _ => exact .refl

/-- **More fuel does not change a result.** -/
theorem of_le (h : n ≤ n') : More n n' := by
  induction n generalizing n' with
  | zero => exact .zero n'
  | succ n ih =>
    obtain ⟨n', rfl⟩ := Nat.exists_eq_add_of_le' (Nat.one_le_of_lt h)
    exact (ih (Nat.le_of_succ_le_succ h)).succ

end More

end Insomniac.Compile

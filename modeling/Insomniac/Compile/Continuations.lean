import Insomniac.Compile.Agrees
import Mathlib.Logic.Relation

/-!
# Compile/Continuations — evaluation, with what is left to do

    eval env work k ──▸ ⋯ ──▸ ret v k ──▸ ⋯          call f args k ──▸ eval (t :: env') body (activation k)

The evaluator says what the value of a program is; what is left to do when a part of it has a value, it
leaves to the language it is written in.  Here that is data, a `Kont`, so that `prim-call/cc` can hand it
out: a configuration goes on one step at a time, and may go on with any continuation that was captured, any
number of times.  Where the evaluator has a value, the steps come to it (`continues`).

A continuation says how much of the stack it takes (`Kont.depth`), so calls in tail position differ from
other calls: they leave the activation that they are made in.
-/

open Insomniac.Abstract Run

namespace Insomniac.Compile

/-! ## Continuations

One constructor for each place inside of a node where a part is evaluated, with what that place needs of the
rest of the node.  A tail position has none: the continuation of the whole goes on there. -/

/-- What is evaluated.  Operands are evaluated in front of some arguments, and for an operator. -/
inductive Work
  | node (node : Node) (tail : Bool)
  | stream (tree : Stream) (tail : Bool)
  | clauses (clauses : Clauses) (tail : Bool)
  | bool (andOr : Bool) (nodes : Stream)
  | operands (operands operator : Stream) (tail : Bool) (args : Value)

/-- **What is left to do** with a value. -/
inductive Kont
  /-- It is that of the program. -/
  | halt
  /-- The call of `prim-call/cc` that captured continuation `t` returns it. -/
  | captured (t : ℕ)
  /-- The procedure returns it. -/
  | activation (k : Kont)
  | ifElse (env : List ℕ) (yes no : Stream) (tail : Bool) (k : Kont)
  | clause (env : List ℕ) (body : Stream) (next : Clauses) (tail : Bool) (k : Kont)
  | bool (env : List ℕ) (andOr : Bool) (next : Stream) (k : Kont)
  | first (env : List ℕ) (o : MathOp) (stream2 : Stream) (k : Kont)
  | second (o : MathOp) (v1 : Value) (k : Kont)
  | operand (env : List ℕ) (next operator : Stream) (tail : Bool) (args : Value) (k : Kont)
  | operator (tail : Bool) (args : Value) (k : Kont)
  | bind (env : List ℕ) (name : Text) (k : Kont)
  | store (env : List ℕ) (name : Text) (k : Kont)
  /-- It is dropped, and the rest of a stream is evaluated. -/
  | rest (env : List ℕ) (next : Stream) (tail : Bool) (k : Kont)

/-- **How many values are on the stack** below the one that a continuation takes. -/
def Kont.depth : Kont → ℕ
  | .halt | .captured _ => 0
  | .activation k | .second _ _ k | .operand _ _ _ _ _ k | .operator _ _ k => k.depth + 1
  | .ifElse _ _ _ _ k | .clause _ _ _ _ k | .bool _ _ _ k | .first _ _ _ k | .bind _ _ k | .store _ _ k |
    .rest _ _ _ k => k.depth

/-- The continuation of a call: in tail position, that of the activation. -/
def Kont.beyond : Kont → (tail : Bool) → Option Kont
  | k, false => some k
  | .activation k, true => some k
  | _, true => none

/-! ## The library

Besides `prim-call/cc`, the routines of the preamble that configurations know: they are data that stands for a
label. -/

/-- The routines that only calculate. -/
inductive Prim
  | car | cdr | depth
  deriving DecidableEq

/-- What they calculate, when some values are on the stack below what they return to. -/
def Prim.apply : Prim → (args : Value) → (depth : ℕ) → Option Value
  | .car, .pair (.pair v _) _, _ => some v
  | .cdr, .pair (.pair _ w) _, _ => some w
  | .depth, _, n => some (.fixnum (Int64.ofInt (n + 1 : ℕ)))
  | _, _, _ => none

/-- What the objects of the library do. -/
inductive Role
  | callCc
  | exit (t : ℕ)
  | prim (o : Prim)

/-- The objects of the library. -/
structure Routines where
  callCc : Val
  /-- The exit procedure of a captured continuation. -/
  exit : ℕ → Val
  prim : Prim → Val

namespace Routines

variable (r : Routines)

/-- The object that has a role. -/
def object : Role → Val
  | .callCc => r.callCc
  | .exit t => r.exit t
  | .prim o => r.prim o

/-- The role of an object. -/
def role (v : Val) : Option Role :=
  if v = r.callCc then some .callCc
  else if v = r.prim .car then some (.prim .car)
  else if v = r.prim .cdr then some (.prim .cdr)
  else if v = r.prim .depth then some (.prim .depth)
  else match v with
    | .closure here _ => if v = r.exit here.bindings then some (.exit here.bindings) else none
    | _ => none

/-- An object that has a role is the one that has it. -/
theorem object_role {r : Routines} {v : Val} {role : Role} (h : r.role v = some role) : v = r.object role := by
  unfold Routines.role at h
  split_ifs at h with hcallCc hcar hcdr hdepth
  · cases h
    exact hcallCc
  · cases h
    exact hcar
  · cases h
    exact hcdr
  · cases h
    exact hdepth
  · split at h
    · split_ifs at h with hexit
      cases h
      exact hexit
    · cases h

end Routines

/-- Values that can be called. -/
def Value.isProcedure : Value → Bool
  | .closure .. => true
  | .other (.closure ..) => true
  | _ => false

/-! ## Configurations

A configuration evaluates, returns a value, or calls.  Steps are a function, so a run is given by a number of
them and can be computed. -/

/-- What is done next. -/
inductive Control
  | eval (env : List ℕ) (work : Work) (k : Kont)
  | ret (v : Value) (k : Kont)
  | call (f args : Value) (k : Kont)

/-- **A configuration**: what is done next, the scopes, and the continuations that have been captured.  These
have numbers that are no scopes. -/
structure Conf where
  control : Control
  store : Store
  konts : ℕ → Option Kont

/-- The store with one more number taken, of which nothing is known. -/
def Store.skip (store : Store) : Store := { store with next := store.next + 1 }

/-- A name is set where it is bound. -/
def assign (env : List ℕ) (name : List UInt8) (v : Value) : Eval Unit := do
  let store ← get
  let found ← known (store.find name env)
  setIn found.1 name v

namespace Conf

variable (r : Routines) (c : Conf)

/-- Go on with something else. -/
def go (control : Control) : Conf := { c with control }

/-- Go on with what an evaluation gives. -/
def ran {α : Type} (x : Eval α) (f : α → Control) : Option Conf :=
  match x c.store with
  | .ok (a, store) => some { c with control := f a, store }
  | .error _ => none

/-- Something is evaluated. -/
def evalStep (env : List ℕ) (k : Kont) : Work → Option Conf
  | .node (.literal l) _ => some (c.go (.ret l.value k))
  | .node (.load name) _ => (c.store.find name.bytes env).map fun found => c.go (.ret found.2 k)
  | .node (.cond clauses) tail => some (c.go (.eval env (.clauses clauses tail) k))
  | .node (.ifElse test yes no) tail => some (c.go (.eval env (.stream test false) (.ifElse env yes no tail k)))
  | .node (.and nodes) _ => some (c.go (.eval env (.bool true nodes) k))
  | .node (.or nodes) _ => some (c.go (.eval env (.bool false nodes) k))
  | .node (.math o stream1 stream2) _ => some (c.go (.eval env (.stream stream1 false) (.first env o stream2 k)))
  | .node (.lambda formals body) _ => some (c.go (.ret (.closure formals body env) k))
  | .node (.call operator operands) tail => some (c.go (.eval env (.operands operands operator tail .empty) k))
  | .node (.bind value name) _ => some (c.go (.eval env (.stream value false) (.bind env name k)))
  | .node (.store value name) _ => some (c.go (.eval env (.stream value false) (.store env name k)))
  | .node (.letStar bindings body) tail => (k.beyond tail).bind fun k' => c.ran newScope fun t =>
      .eval (t :: env) (.stream bindings false) (.rest (t :: env) body tail (.activation k'))
  | .stream .nil _ => some (c.go (.ret .empty k))
  | .stream (.cons head .nil) tail => some (c.go (.eval env (.node head tail) k))
  | .stream (.cons head (.cons head' next)) tail =>
    some (c.go (.eval env (.node head false) (.rest env (.cons head' next) tail k)))
  | .clauses .nil _ => some (c.go (.ret .empty k))
  | .clauses (.cons test body next) tail =>
    some (c.go (.eval env (.stream test false) (.clause env body next tail k)))
  | .bool andOr .nil => some (c.go (.ret (.bool andOr) k))
  | .bool _ (.cons head .nil) => some (c.go (.eval env (.node head false) k))
  | .bool andOr (.cons head (.cons head' next)) =>
    some (c.go (.eval env (.node head false) (.bool env andOr (.cons head' next) k)))
  | .operands .nil operator tail args => some (c.go (.eval env (.stream operator false) (.operator tail args k)))
  | .operands (.cons head next) operator tail args =>
    some (c.go (.eval env (.node head false) (.operand env next operator tail args k)))

/-- A value is returned. -/
def retStep (v : Value) : Kont → Option Conf
  | .halt => none
  | .captured t => (c.konts t).map fun k => c.go (.ret v k)
  | .activation k => some (c.go (.ret v k))
  | .ifElse env yes no tail k => v.isFalse.map fun isFalse =>
      c.go (.eval env (.stream (if isFalse then no else yes) tail) k)
  | .clause env body next tail k => v.isFalse.map fun isFalse =>
      c.go (.eval env (if isFalse then .clauses next tail else .stream body tail) k)
  | .bool env andOr next k => v.isFalse.map fun isFalse =>
      c.go (if isFalse = andOr then .ret v k else .eval env (.bool andOr next) k)
  | .first env o stream2 k => some (c.go (.eval env (.stream stream2 false) (.second o v k)))
  | .second o v1 k => c.ran (calculate o v1 v) fun w => .ret w k
  | .operand env next operator tail args k => some (c.go (.eval env (.operands next operator tail (.pair v args)) k))
  | .operator tail args k => if v.isProcedure then (k.beyond tail).map fun k' => c.go (.call v args k') else none
  | .bind env name k => c.ran (define env name.bytes v) fun _ => .ret .empty k
  | .store env name k => c.ran (assign env name.bytes v) fun _ => .ret .empty k
  | .rest env next tail k => some (c.go (.eval env (.stream next tail) k))

/-- A routine of the library is called.  The machine counts what is on the stack in a word. -/
def routineStep (args : Value) (k : Kont) (role : Role) : Option Conf :=
  match role, args with
  | .callCc, .pair proc _ =>
    if proc.isProcedure ∧ k.depth < 2 ^ 63 then
      some { control := .call proc (.pair (.other (r.exit c.store.next)) .empty) (.captured c.store.next)
             store := c.store.skip
             konts := Function.update c.konts c.store.next (some k) }
    else none
  | .exit t, .pair v _ =>
    if k.depth < 2 ^ 63 then (c.konts t).map fun k' => { c with control := .ret v k', store := c.store.skip }
    else none
  | .prim o, args => (o.apply args k.depth).map fun v => { c with control := .ret v k, store := c.store.skip }
  | _, _ => none

/-- Something is called. -/
def callStep (f args : Value) (k : Kont) : Option Conf :=
  match f with
  | .closure formals body env => c.ran
      (do
        let t ← newScope
        bindFormals t formals args
        pure t)
      fun t => .eval (t :: env) (.stream body true) (.activation k)
  | .other v => (r.role v).bind (c.routineStep r args k)
  | _ => none

/-- **A step.** -/
def step : Option Conf :=
  match c.control with
  | .eval env work k => c.evalStep env k work
  | .ret v k => c.retStep v k
  | .call f args k => c.callStep r f args k

/-- Any number of steps. -/
abbrev Steps : Conf → Conf → Prop := Relation.ReflTransGen fun c c' => c.step r = some c'

/-- What some steps come to. -/
def run : ℕ → Conf → Option Conf
  | 0, c => some c
  | n + 1, c => (c.step r).bind (run n)

/-- A number of steps that has been computed. -/
theorem steps_of_run : ∀ {n : ℕ} {c c' : Conf}, c.run r n = some c' → Steps r c c'
  | 0, _, _, h => by
      cases h
      exact .refl
  | n + 1, _, _, h => by
      obtain ⟨_, hstep, hrun⟩ := Option.bind_eq_some_iff.mp h
      exact .head hstep (steps_of_run hrun)

end Conf

/-! ## Evaluation comes to its value

By induction on the fuel of the evaluator, with any continuation.  So the two semantics agree on every program
that does not use continuations. -/

section

variable {r : Routines} {env : List ℕ} {store store' : Store} {konts : ℕ → Option Kont} {k k' : Kont} {v : Value}
  {tail : Bool}

/-- A value that a tail position has, the activation returns. -/
theorem Conf.Steps.beyond {c : Conf} (h : k.beyond tail = some k') (hsteps : Steps r c ⟨.ret v k, store, konts⟩) :
    Steps r c ⟨.ret v k', store, konts⟩ := by
  match k, tail, h with
  | _, false, rfl => exact hsteps
  | .activation _, true, rfl => exact hsteps.tail rfl

/-- Where code is not left for good, the continuation is itself. -/
theorem Kont.beyond_false : k.beyond false = some k := by cases k <;> rfl

/-- **Steps come to what the evaluator gives**, with some fuel. -/
structure Continues (r : Routines) (konts : ℕ → Option Kont) (fuel : ℕ) : Prop where
  node : ∀ {env store store' k k' v tail} (node : Node), evalNode fuel env node store = .ok (v, store') →
    k.beyond tail = some k' → Conf.Steps r ⟨.eval env (.node node tail) k, store, konts⟩ ⟨.ret v k', store', konts⟩
  stream : ∀ {env store store' k k' v tail} (tree : Stream), evalStream fuel env tree store = .ok (v, store') →
    k.beyond tail = some k' → Conf.Steps r ⟨.eval env (.stream tree tail) k, store, konts⟩ ⟨.ret v k', store', konts⟩
  clauses : ∀ {env store store' k k' v tail} (clauses : Clauses),
    evalClauses fuel env clauses store = .ok (v, store') → k.beyond tail = some k' →
      Conf.Steps r ⟨.eval env (.clauses clauses tail) k, store, konts⟩ ⟨.ret v k', store', konts⟩
  bool : ∀ {env store store' k v} (andOr : Bool) (nodes : Stream),
    evalBool fuel env andOr nodes store = .ok (v, store') →
      Conf.Steps r ⟨.eval env (.bool andOr nodes) k, store, konts⟩ ⟨.ret v k, store', konts⟩
  operands : ∀ {env store store' k v} (operands operator : Stream) (tail : Bool) (args : Value),
    evalOperands fuel env operands args store = .ok (v, store') →
      Conf.Steps r ⟨.eval env (.operands operands operator tail args) k, store, konts⟩
        ⟨.eval env (.operands .nil operator tail v) k, store', konts⟩
  call : ∀ {store store' k v} (f args : Value), evalCall fuel f args store = .ok (v, store') →
    f.isProcedure = true ∧ Conf.Steps r ⟨.call f args k, store, konts⟩ ⟨.ret v k, store', konts⟩

namespace Continues

/-- Without fuel nothing has a value. -/
theorem zero (r : Routines) (konts : ℕ → Option Kont) : Continues r konts 0 where
  node _ heval := by
    rw [evalNode] at heval
    cases heval
  stream _ heval := by
    rw [evalStream] at heval
    cases heval
  clauses _ heval := by
    rw [evalClauses] at heval
    cases heval
  bool _ _ heval := by
    rw [evalBool] at heval
    cases heval
  operands _ _ _ _ heval := by
    rw [evalOperands] at heval
    cases heval
  call _ _ heval := by
    rw [evalCall] at heval
    cases heval

/-- What an evaluation gives, a step goes on with. -/
theorem ran_ok {α : Type} {x : Eval α} {f : α → Control} {a : α} {control : Control} (h : x store = .ok (a, store')) :
    Conf.ran ⟨control, store, konts⟩ x f = some ⟨f a, store', konts⟩ := by
  simp only [Conf.ran, h]

variable {fuel : ℕ}

theorem succ_node (h : Continues r konts fuel) (node : Node) (heval : evalNode (fuel + 1) env node store = .ok (v, store'))
    (hbeyond : k.beyond tail = some k') :
    Conf.Steps r ⟨.eval env (.node node tail) k, store, konts⟩ ⟨.ret v k', store', konts⟩ := by
  cases node with
  | literal l =>
    cases heval
    exact .beyond hbeyond (.single rfl)
  | load name =>
    obtain ⟨_, _, ⟨⟩, heval⟩ := bind_ok heval
    obtain ⟨found, _, hknown, ⟨⟩⟩ := bind_ok heval
    obtain ⟨hfind, rfl⟩ := known_ok hknown
    refine .beyond hbeyond (.single ?_)
    change (store'.find name.bytes env).map _ = _
    rw [hfind]
    rfl
  | cond clauses => exact .head rfl (h.clauses clauses heval hbeyond)
  | ifElse test yes no =>
    obtain ⟨v1, store1, htest, heval⟩ := bind_ok heval
    obtain ⟨isFalse, store2, hknown, heval⟩ := bind_ok heval
    obtain ⟨hfalse, rfl⟩ := known_ok hknown
    refine .head rfl ((h.stream test htest Kont.beyond_false).trans (.head (b := ⟨.eval env (.stream
      (if isFalse then no else yes) tail) k, store2, konts⟩) ?_ ?_))
    · change v1.isFalse.map _ = _
      rw [hfalse]
      rfl
    · cases isFalse with
      | true => exact h.stream no heval hbeyond
      | false => exact h.stream yes heval hbeyond
  | and nodes => exact .beyond hbeyond (.head rfl (h.bool true nodes heval))
  | or nodes => exact .beyond hbeyond (.head rfl (h.bool false nodes heval))
  | math o stream1 stream2 =>
    obtain ⟨v1, store1, heval1, heval⟩ := bind_ok heval
    obtain ⟨v2, store2, heval2, heval⟩ := bind_ok heval
    have h1 := h.stream (k := .first env o stream2 k) stream1 heval1 Kont.beyond_false
    have h2 := h.stream (k := .second o v1 k) stream2 heval2 Kont.beyond_false
    exact .beyond hbeyond (.head rfl (h1.trans (.head rfl (h2.tail (ran_ok heval)))))
  | lambda formals body =>
    cases heval
    exact .beyond hbeyond (.single rfl)
  | call operator operands =>
    obtain ⟨args, store1, hoperands, heval⟩ := bind_ok heval
    obtain ⟨f, store2, hoperator, hcall⟩ := bind_ok heval
    obtain ⟨hprocedure, hcall⟩ := h.call (k := k') f args hcall
    have h1 := h.operands (k := k) operands operator tail .empty hoperands
    have h2 := h.stream (k := .operator tail args k) operator hoperator Kont.beyond_false
    refine .head rfl (h1.trans (.head rfl (h2.trans (.head (b := ⟨.call f args k', store2, konts⟩) ?_ hcall))))
    change (if f.isProcedure then (k.beyond tail).map _ else none) = _
    rw [if_pos hprocedure, hbeyond]
    rfl
  | bind value name =>
    obtain ⟨v1, store1, hvalue, heval⟩ := bind_ok heval
    obtain ⟨_, store2, hset, ⟨⟩⟩ := bind_ok heval
    have h1 := h.stream (k := .bind env name k) value hvalue Kont.beyond_false
    exact .beyond hbeyond (.head rfl (h1.tail (ran_ok hset)))
  | store value name =>
    obtain ⟨v1, store1, hvalue, hrest⟩ := bind_ok heval
    obtain ⟨_, _, ⟨⟩, hfound⟩ := bind_ok hrest
    obtain ⟨found, store2, hknown, hset⟩ := bind_ok hfound
    obtain ⟨hfind, rfl⟩ := known_ok hknown
    obtain ⟨_, store3, hset, ⟨⟩⟩ := bind_ok hset
    have hassign : assign env name.bytes v1 store2 = .ok ((), store') := by
      change (known _ >>= fun found : ℕ × Value => setIn found.1 name.bytes v1) _ = _
      rw [hfind]
      exact hset
    have h1 := h.stream (k := .store env name k) value hvalue Kont.beyond_false
    exact .beyond hbeyond (.head rfl (h1.tail (ran_ok hassign)))
  | letStar bindings body =>
    obtain ⟨t, store1, hscope, heval⟩ := bind_ok heval
    obtain ⟨v1, store2, hbindings, hbody⟩ := bind_ok heval
    have hscope' : Conf.step r ⟨.eval env (.node (.letStar bindings body) tail) k, store, konts⟩ =
        some ⟨.eval (t :: env) (.stream bindings false) (.rest (t :: env) body tail (.activation k')), store1, konts⟩ := by
      change (k.beyond tail).bind _ = _
      rw [hbeyond, Option.bind_some]
      exact ran_ok hscope
    have h1 := h.stream (k := .rest (t :: env) body tail (.activation k')) bindings hbindings
      Kont.beyond_false
    refine .head hscope' (h1.trans (.head rfl ?_))
    cases tail with
    | true => exact h.stream body hbody rfl
    | false => exact (h.stream body hbody Kont.beyond_false).tail rfl

theorem succ (h : Continues r konts fuel) : Continues r konts (fuel + 1) where
  node node heval hbeyond := h.succ_node node heval hbeyond
  stream tree heval hbeyond := by
    match tree with
    | .nil =>
      cases heval
      exact .beyond hbeyond (.single rfl)
    | .cons head .nil => exact .head rfl (h.node head heval hbeyond)
    | .cons head (.cons head' next) =>
      obtain ⟨v1, store1, hhead, hnext⟩ := bind_ok heval
      exact .head rfl ((h.node head hhead Kont.beyond_false).trans (.head rfl (h.stream _ hnext hbeyond)))
  clauses {env store store' k k' v tail} clauses heval hbeyond := by
    cases clauses with
    | nil =>
      cases heval
      exact .beyond hbeyond (.single rfl)
    | cons test body next =>
      obtain ⟨v1, store1, htest, heval⟩ := bind_ok heval
      obtain ⟨isFalse, store2, hknown, heval⟩ := bind_ok heval
      obtain ⟨hfalse, rfl⟩ := known_ok hknown
      refine .head rfl ((h.stream test htest Kont.beyond_false).trans (.head (b := ⟨.eval env
        (if isFalse then .clauses next tail else .stream body tail) k, store2, konts⟩) ?_ ?_))
      · change v1.isFalse.map _ = _
        rw [hfalse]
        rfl
      · cases isFalse with
        | true => exact h.clauses next heval hbeyond
        | false => exact h.stream body heval hbeyond
  bool {env store store' k v} andOr nodes heval := by
    match nodes with
    | .nil =>
      cases heval
      exact .single rfl
    | .cons head .nil => exact .head rfl (h.node head heval Kont.beyond_false)
    | .cons head (.cons head' next) =>
      obtain ⟨v1, store1, hhead, htest⟩ := bind_ok heval
      obtain ⟨isFalse, store2, hknown, hrest⟩ := bind_ok htest
      obtain ⟨hfalse, rfl⟩ := known_ok hknown
      refine .head rfl ((h.node head hhead Kont.beyond_false).trans (.head (b := ⟨if isFalse = andOr then .ret v1 k
        else .eval env (.bool andOr (.cons head' next)) k, store2, konts⟩) ?_ ?_))
      · change v1.isFalse.map _ = _
        rw [hfalse]
        rfl
      · split at hrest
        · next heq =>
          cases hrest
          rw [if_pos heq]
        · next hne =>
          rw [if_neg hne]
          exact h.bool andOr _ hrest
  operands {env store store' k v} operands operator tail args heval := by
    cases operands with
    | nil =>
      cases heval
      exact .refl
    | cons head next =>
      obtain ⟨v1, store1, hhead, hnext⟩ := bind_ok heval
      exact .head rfl ((h.node head hhead Kont.beyond_false).trans
        (.head rfl (h.operands next operator tail (.pair v1 args) hnext)))
  call {store store' k v} f args heval := by
    cases f with
    | closure formals body env =>
      obtain ⟨t, store1, hscope, heval⟩ := bind_ok heval
      obtain ⟨_, store2, hbind, hbody⟩ := bind_ok heval
      refine ⟨rfl, .head (b := ⟨.eval (t :: env) (.stream body true) (.activation k), store2, konts⟩) ?_
        (h.stream body hbody rfl)⟩
      refine ran_ok (a := t) ?_
      rw [newScope_run] at hscope
      cases hscope
      change (bindFormals store.next formals args >>= fun _ => pure store.next) store.child = _
      exact run_bind hbind
    | _ => cases heval

end Continues

/-- **Evaluation comes to its value**, with any fuel. -/
theorem continues (r : Routines) (konts : ℕ → Option Kont) (fuel : ℕ) : Continues r konts fuel := by
  induction fuel with
  | zero => exact .zero r konts
  | succ fuel ih => exact ih.succ

/-! ## Captured continuations

Captured continuations are numbered as scopes are, since the machine keeps each in the table of a frame.  No
number is given twice, so what was captured can be called as long as the program runs. -/

/-- **Continuations that have been captured have numbers that were taken.** -/
def Conf.Numbered (c : Conf) : Prop := ∀ t k, c.konts t = some k → t < c.store.next

/-- A step that leaves the continuations that have been captured. -/
structure Conf.Leaves (c c' : Conf) : Prop where
  next : c.store.next ≤ c'.store.next
  konts : c'.konts = c.konts

/-- Setting a binding makes no scope. -/
theorem setIn_next {t : ℕ} {name : List UInt8} {u : Unit} (h : setIn t name v store = .ok (u, store')) :
    store'.next = store.next := by
  obtain ⟨bindings, -, rfl⟩ := setIn_ok h
  rfl

theorem bindFormals_next {t : ℕ} {u : Unit} : ∀ {formals : Formals} {store : Store} {args : Value},
    bindFormals t formals args store = .ok (u, store') → store'.next = store.next
  | .fixed, store, args, h => by
      cases h
      rfl
  | .rest name, store, args, h => setIn_next h
  | .cons name next, store, .pair arg args, h => by
      obtain ⟨_, store1, hset, h⟩ := bind_ok h
      exact (bindFormals_next h).trans (setIn_next hset)

/-- What goes on with an evaluation. -/
theorem Conf.ran_some {α : Type} {c c' : Conf} {x : Eval α} {f : α → Control} (h : c.ran x f = some c') :
    ∃ a store', x c.store = .ok (a, store') ∧ c' = { c with control := f a, store := store' } := by
  unfold Conf.ran at h
  split at h
  · next a store' hx =>
    cases h
    exact ⟨a, store', hx, rfl⟩
  · cases h

/-- A step of the evaluator leaves what has been captured. -/
theorem Conf.leaves_of_ran {α : Type} {c c' : Conf} {x : Eval α} {f : α → Control} (h : c.ran x f = some c')
    (hx : ∀ a store', x c.store = .ok (a, store') → c.store.next ≤ store'.next) : c.Leaves c' := by
  obtain ⟨a, store', hrun, rfl⟩ := Conf.ran_some h
  exact ⟨hx a store' hrun, rfl⟩

theorem Conf.leaves_go (c : Conf) (control : Control) : c.Leaves (c.go control) := ⟨le_rfl, rfl⟩

/-- A step that evaluates leaves it. -/
theorem Conf.evalStep_leaves {c c' : Conf} {work : Work} (h : c.evalStep env k work = some c') : c.Leaves c' := by
  unfold Conf.evalStep at h
  split at h
  case h_2 =>
    obtain ⟨_, -, rfl⟩ := Option.map_eq_some_iff.mp h
    exact c.leaves_go _
  case h_12 =>
    obtain ⟨_, -, h⟩ := Option.bind_eq_some_iff.mp h
    refine Conf.leaves_of_ran h fun a store' hx => ?_
    cases hx
    exact Nat.le_succ _
  all_goals
    cases h
    exact c.leaves_go _

/-- So does a step that returns. -/
theorem Conf.retStep_leaves {c c' : Conf} (h : c.retStep v k = some c') : c.Leaves c' := by
  cases k with
  | halt => cases h
  | captured t =>
    obtain ⟨_, -, rfl⟩ := Option.map_eq_some_iff.mp h
    exact c.leaves_go _
  | ifElse | clause | bool =>
    obtain ⟨_, -, rfl⟩ := Option.map_eq_some_iff.mp h
    exact c.leaves_go _
  | second o v1 k =>
    refine Conf.leaves_of_ran h fun a store' hx => ?_
    unfold calculate at hx
    split at hx
    · obtain ⟨-, rfl⟩ := known_ok hx
      exact le_rfl
    · cases hx
  | operator tail args k =>
    obtain ⟨-, h⟩ := Option.ite_none_right_eq_some.mp h
    obtain ⟨_, -, rfl⟩ := Option.map_eq_some_iff.mp h
    exact c.leaves_go _
  | bind env name k =>
    refine Conf.leaves_of_ran h fun a store' hx => ?_
    cases env with
    | nil => cases hx
    | cons t env => exact (setIn_next hx).ge
  | store env name k =>
    refine Conf.leaves_of_ran h fun a store' hx => ?_
    obtain ⟨_, _, ⟨⟩, hx⟩ := bind_ok hx
    obtain ⟨found, store1, hknown, hx⟩ := bind_ok hx
    obtain ⟨-, rfl⟩ := known_ok hknown
    exact (setIn_next hx).ge
  | _ =>
    cases h
    exact c.leaves_go _

/-- **Captured continuations are kept**, by every step. -/
theorem Conf.step_keeps {c c' : Conf} (h : c.step r = some c') (hnumbered : c.Numbered) :
    c'.Numbered ∧ ∀ t k, c.konts t = some k → c'.konts t = some k := by
  have hleaves (hleaves : c.Leaves c') : c'.Numbered ∧ ∀ t k, c.konts t = some k → c'.konts t = some k := by
    refine ⟨fun t k hk => (hnumbered t k (hleaves.konts ▸ hk)).trans_le hleaves.next, fun t k hk => ?_⟩
    rw [hleaves.konts]
    exact hk
  unfold Conf.step at h
  split at h
  · exact hleaves (Conf.evalStep_leaves h)
  · exact hleaves (Conf.retStep_leaves h)
  · next f args k =>
    unfold Conf.callStep at h
    split at h
    · refine hleaves (Conf.leaves_of_ran h fun t store' hx => ?_)
      obtain ⟨_, store1, hscope, hx⟩ := bind_ok hx
      rw [newScope_run] at hscope
      cases hscope
      obtain ⟨_, store2, hbind, ⟨⟩⟩ := bind_ok hx
      rw [bindFormals_next hbind]
      exact Nat.le_succ _
    · obtain ⟨role, -, h⟩ := Option.bind_eq_some_iff.mp h
      unfold Conf.routineStep at h
      split at h
      · obtain ⟨-, ⟨⟩⟩ := Option.ite_none_right_eq_some.mp h
        -- the new continuation has a number of its own
        refine ⟨fun t k' hk => ?_, fun t k' hk => ?_⟩
        · rcases eq_or_ne t c.store.next with rfl | hne
          · exact Nat.lt_succ_self _
          · exact (hnumbered t k' ((Function.update_of_ne hne ..).symm.trans hk)).trans (Nat.lt_succ_self _)
        · exact (Function.update_of_ne (hnumbered t k' hk).ne ..).trans hk
      · obtain ⟨-, h⟩ := Option.ite_none_right_eq_some.mp h
        obtain ⟨_, -, rfl⟩ := Option.map_eq_some_iff.mp h
        exact hleaves ⟨Nat.le_succ _, rfl⟩
      · obtain ⟨_, -, rfl⟩ := Option.map_eq_some_iff.mp h
        exact hleaves ⟨Nat.le_succ _, rfl⟩
      · cases h
    · cases h

/-- **So a continuation that has been captured is there from then on.** -/
theorem Conf.Steps.keeps {c c' : Conf} (hsteps : Conf.Steps r c c') (hnumbered : c.Numbered) :
    c'.Numbered ∧ ∀ t k, c.konts t = some k → c'.konts t = some k := by
  induction hsteps with
  | refl => exact ⟨hnumbered, fun _ _ hk => hk⟩
  | tail _ hstep ih =>
    obtain ⟨hnumbered, hkeeps⟩ := ih
    obtain ⟨hnumbered, hkeeps'⟩ := Conf.step_keeps hstep hnumbered
    exact ⟨hnumbered, fun t k hk => hkeeps' t k (hkeeps t k hk)⟩

/-- **A procedure that is called with the continuation, and has a value**, has it where it was called. -/
theorem Conf.Steps.of_callCc {fuel : ℕ} {proc rest : Value} (hcallCc : r.role r.callCc = some .callCc)
    (hdepth : k.depth < 2 ^ 63)
    (heval : evalCall fuel proc (.pair (.other (r.exit store.next)) .empty) store.skip = .ok (v, store')) :
    Conf.Steps r ⟨.call (.other r.callCc) (.pair proc rest) k, store, konts⟩
      ⟨.ret v k, store', Function.update konts store.next (some k)⟩ := by
  obtain ⟨hprocedure, hsteps⟩ := (continues r (Function.update konts store.next (some k)) fuel).call 
    (k := .captured store.next) _ _ heval
  refine .head ?_ (hsteps.tail ?_)
  · change (r.role r.callCc).bind _ = _
    rw [hcallCc, Option.bind_some]
    exact if_pos ⟨hprocedure, hdepth⟩
  · change (Function.update konts store.next (some k) store.next).map _ = _
    rw [Function.update_self]
    rfl

end

end Insomniac.Compile

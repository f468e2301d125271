import Insomniac.Compile.Whole

/-!
# Compile/Tail — tail calls

    call₀ ──▸ body₀ ⋯ tail_call_in ──▸ body₁ ⋯ tail_call_in ──▸ body₂ ⋯
      ret :: args₀ :: s        ret :: args₁ :: s       ret :: args₂ :: s

A call in tail position leaves what its caller would return to on the stack, and nothing else of it.  So a
chain of tail calls, of any length, enters each procedure on a stack of the same depth, and the last one
returns to where the first would have.
-/

open Insomniac.Asm Insomniac.Vm Insomniac.Abstract Insomniac.Lib

namespace Insomniac.Compile

/-! ## Calls in tail position

`TailCalls` says which call the code comes to at a tail position, and the store it comes there with; it follows
the evaluator down to that call and no further. -/

/-- A call that is to be made: a closure, and its arguments. -/
structure Pending where
  formals : Formals
  body : Stream
  env : List ℕ
  args : Value

/-- The closure of a call. -/
def Pending.closure (call : Pending) : Value := .closure call.formals call.body call.env

mutual

/-- Whether the evaluation of a node ends with a call in tail position. -/
def Node.TailCalls : Node → List ℕ → Store → Pending → Store → Prop
  | .call operator operands, env, store, call, store' => ∃ n s, evalOperands n env operands .empty store =
      .ok (call.args, s) ∧ evalStream n env operator s = .ok (call.closure, store')
  | .ifElse test yes no, env, store, call, store' => ∃ n v s, evalStream n env test store = .ok (v, s) ∧
      (v.isFalse = some true ∧ no.TailCalls env s call store' ∨
        v.isFalse = some false ∧ yes.TailCalls env s call store')
  | .cond clauses, env, store, call, store' => clauses.TailCalls env store call store'
  | .letStar bindings body, env, store, call, store' => ∃ n v s,
      evalStream n (store.next :: env) bindings store.child = .ok (v, s) ∧
        body.TailCalls (store.next :: env) s call store'
  | _, _, _, _, _ => False

@[inherit_doc Node.TailCalls] def Stream.TailCalls : Stream → List ℕ → Store → Pending → Store → Prop
  | .nil, _, _, _, _ => False
  | .cons head .nil, env, store, call, store' => head.TailCalls env store call store'
  | .cons head (.cons head' next), env, store, call, store' => ∃ n v s, evalNode n env head store = .ok (v, s) ∧
      (Stream.cons head' next).TailCalls env s call store'

@[inherit_doc Node.TailCalls] def Clauses.TailCalls : Clauses → List ℕ → Store → Pending → Store → Prop
  | .nil, _, _, _, _ => False
  | .cons test body next, env, store, call, store' => ∃ n v s, evalStream n env test store = .ok (v, s) ∧
      (v.isFalse = some true ∧ next.TailCalls env s call store' ∨
        v.isFalse = some false ∧ body.TailCalls env s call store')

end

/-- **A call whose body ends with another.** -/
def Pending.Calls (first second : Pending × Store) : Prop :=
  ∃ u s, bindFormals first.2.next first.1.formals first.1.args first.2.child = .ok (u, s) ∧
    first.1.body.TailCalls (first.2.next :: first.1.env) s second.1 second.2

/-! ## On the machine

The closure to return to lies on the stack from the beginning of a body on, and no code takes it off before the
end. -/

/-- A machine that enters a closure, with what it returns to above the arguments. -/
def Machine.entering (m : Machine) (here : Frame) (outer : List Frame) (ret : Frame) (chain : List Frame) (arg : Val)
    (s : List Val) : Machine := ({ m with stack := .closure ret chain :: arg :: s }.switch here outer).child

/-- **A machine that is about to make a call**, and returns to a closure on a stack. -/
structure Pending.At (call : Pending) (store : Store) (codes : ℕ → Option Code) (ret : Frame) (chain : List Frame)
    (s : List Val) (m : Machine) : Prop where
  enters : ∃ (m₀ : Machine) (here : Frame) (outer : List Frame) (arg : Val),
    m = Machine.entering m₀ here outer ret chain arg s ∧ m₀.codes = codes ∧
      Denotes codes call.closure (.closure here outer) ∧ Denotes codes call.args arg ∧ Agrees store m₀

section

variable {p : Program} {env : List ℕ} {store store' : Store} {m : Machine} {a b k : ℕ} {s : List Val} {call : Pending}
  {ret : Frame} {chain : List Frame}

/-- A run to a call. -/
def RunsTo (call : Pending) (store : Store) (m : Machine) (ret : Frame) (chain : List Frame) (s : List Val) (a : ℕ) :
    Prop := ∃ m', Runs (m.at a (.closure ret chain :: s)) m' ∧ call.At store m.codes ret chain s m'

/-- Steps that keep the closure on the stack may come first. -/
theorem RunsTo.same {m' : Machine} {a' : ℕ} (hsame : m'.codes = m.codes)
    (hruns : Runs (m.at a (.closure ret chain :: s)) (m'.at a' (.closure ret chain :: s)))
    (h : RunsTo call store' m' ret chain s a') : RunsTo call store' m ret chain s a := by
  obtain ⟨m'', hruns', hat⟩ := h
  exact ⟨m'', hruns.trans hruns', hsame ▸ hat⟩

/-- What a closure is on the machine. -/
theorem Denotes.of_closure {codes : ℕ → Option Code} {formals : Formals} {body : Stream} {w : Val}
    (h : Denotes codes (.closure formals body env) w) : ∃ here outer, w = .closure here outer := by
  cases h
  exact ⟨_, _, rfl⟩

/-- **A call is made**, by either instruction. -/
theorem callNode_runs (hstage : Stage p env store m) {tail : Bool} {operator operands : Stream} {n : ℕ}
    {store1 : Store} (hoperands : evalOperands n env operands .empty store = .ok (call.args, store1))
    (hoperator : evalStream n env operator store1 = .ok (call.closure, store')) (s : List Val)
    (hsits : Sits p a (emitNode (.call operator operands) tail k).1 b) :
    ∃ (m' : Machine) (here : Frame) (outer : List Frame) (arg : Val) (a' : ℕ), Same m m' ∧
      Denotes m.codes call.closure (.closure here outer) ∧ Denotes m.codes call.args arg ∧ Agrees store' m' ∧
        Sits p a' [callOp tail] b ∧ Runs (m.at a s) (m'.at a' (.closure here outer :: arg :: s)) := by
  obtain ⟨a1, hsitsOperands, hsitsOperator⟩ := sits_append.mp hsits.rest
  obtain ⟨a2, hsitsOperator, hsitsCall⟩ := sits_append.mp hsitsOperator
  have hunit : Runs (m.at a s) (m.at (a + 1) (.empty :: s)) := hsits.op hstage.executing rfl
  obtain ⟨m1, arg, hsame1, harg, hagrees1, hruns1⟩ :=
    (correct n).operands s hstage hoperands .empty hsitsOperands
  have hstage1 := hstage.same hsame1 hagrees1
  obtain ⟨m2, wf, hsame2, hf, hagrees2, hruns2⟩ :=
    (correct n).stream (s := arg :: s) hstage1 hoperator hsitsOperator .next
  rw [hsame1.codes] at hf
  obtain ⟨here, outer, rfl⟩ := hf.of_closure
  exact ⟨m2, here, outer, arg, a2, hsame1.trans hsame2, hf, harg, hagrees2, hsitsCall,
    hunit.trans (hruns1.trans hruns2)⟩

/-- In tail position, it returns to the closure on the stack. -/
theorem callNode_tail (hstage : Stage p env store m) {operator operands : Stream}
    (h : (Node.call operator operands).TailCalls env store call store')
    (hsits : Sits p a (emitNode (.call operator operands) true k).1 b) : RunsTo call store' m ret chain s a := by
  obtain ⟨n, store1, hoperands, hoperator⟩ := h
  obtain ⟨m', here, outer, arg, a', hsame, hf, harg, hagrees, hsitsCall, hruns⟩ :=
    callNode_runs hstage hoperands hoperator (.closure ret chain :: s) hsits
  have hcall : Runs (m'.at a' (.closure here outer :: arg :: .closure ret chain :: s))
      (Machine.entering m' here outer ret chain arg s) := hsitsCall.op (hsame.executing hstage.executing) rfl
  exact ⟨_, hruns.trans hcall, m', here, outer, arg, rfl, hsame.codes, hf, harg, hagrees⟩

/-- Elsewhere, it returns behind itself. -/
theorem callNode_plain (hstage : Stage p env store m) {operator operands : Stream}
    (h : (Node.call operator operands).TailCalls env store call store')
    (hsits : Sits p a (emitNode (.call operator operands) false k).1 b) :
    ∃ m', Runs (m.at a s) m' ∧ call.At store' m.codes { m.here with ip := b } m.outer s m' := by
  obtain ⟨n, store1, hoperands, hoperator⟩ := h
  obtain ⟨m', here, outer, arg, a', hsame, hf, harg, hagrees, hsitsCall, hruns⟩ :=
    callNode_runs hstage hoperands hoperator s hsits
  obtain rfl : a' + 1 = b := hsitsCall.rest
  have hcall : Runs (m'.at a' (.closure here outer :: arg :: s))
      (Machine.entering m' here outer { m'.here with ip := a' + 1 } m'.outer arg s) :=
    hsitsCall.op (hsame.executing hstage.executing) rfl
  rw [hsame.here, hsame.outer] at hcall
  exact ⟨_, hruns.trans hcall, m', here, outer, arg, rfl, hsame.codes, hf, harg, hagrees⟩

/-- Where the value of a test decides. -/
theorem RunsTo.test {a' : ℕ} (hstage : Stage p env store m) {n : ℕ} {test : Stream} {v : Value}
    (heval : evalStream n env test store = .ok (v, store')) (hsits : Sits p a (emitStream test false k).1 a')
    {store'' : Store} (h : ∀ m' w, Stage p env store' m' → m'.codes = m.codes → w.isFalse = v.isFalse →
      ∃ m'' a'', m''.codes = m'.codes ∧ Runs (m'.at a' (w :: .closure ret chain :: s))
        (m''.at a'' (.closure ret chain :: s)) ∧ RunsTo call store'' m'' ret chain s a'') :
    RunsTo call store'' m ret chain s a := by
  obtain ⟨m1, w, hsame, hw, hagrees, hruns⟩ :=
    (correct n).stream (s := .closure ret chain :: s) hstage heval hsits .next
  obtain ⟨m2, a2, hcodes, hruns', hto⟩ := h m1 w (hstage.same hsame hagrees) hsame.codes hw.isFalse
  exact .same (hcodes.trans hsame.codes) (hruns.trans hruns') hto

/-- **A `let*` in tail position enters its scope**, with nothing more on the stack. -/
theorem Sits.enterScope {body next : List UInt8} {ts : List Tok} (hsits : Sits p a (enterScope body next true ++ ts) b)
    (hm : Executing m p) (ret : Frame) (chain : List Frame) (s : List Val) : ∃ x a', Sits p a' ts b ∧
      Runs (m.at a (.closure ret chain :: s)) ((m.at x []).child.at a' (.closure ret chain :: s)) := by
  have hlabel := hsits.rest.rest.rest.label
  have hunit : Runs (m.at a (.closure ret chain :: s)) (m.at (a + 1) (.empty :: .closure ret chain :: s)) :=
    hsits.op hm rfl
  have hproc := hsits.rest.proc hm (.empty :: .closure ret chain :: s) hlabel
  -- the state behind `tail_call_in`, in a frame of the procedure that the scope is
  let m1 := m.at (a + 1 + 9 + 1) []
  have hcall : Runs (m.at (a + 1 + 9) (.closure { m.here with ip := a + 1 + 9 + 1 } m.outer :: .empty ::
      .closure ret chain :: s)) (m1.child.at (a + 1 + 9 + 1) (.closure ret chain :: .empty :: s)) :=
    hsits.rest.rest.op hm rfl
  have hm1 : Executing m1.child p := hm
  have hswap : Runs (m1.child.at (a + 1 + 9 + 1) (.closure ret chain :: .empty :: s))
      (m1.child.at (a + 1 + 9 + 1 + 1) (.empty :: .closure ret chain :: s)) := hsits.rest.rest.rest.rest.op hm1 rfl
  have hdrop : Runs (m1.child.at (a + 1 + 9 + 1 + 1) (.empty :: .closure ret chain :: s))
      (m1.child.at (a + 1 + 9 + 1 + 1 + 1) (.closure ret chain :: s)) := hsits.rest.rest.rest.rest.rest.op hm1 rfl
  exact ⟨_, _, hsits.rest.rest.rest.rest.rest.rest, hunit.trans (hproc.trans (hcall.trans (hswap.trans hdrop)))⟩

/-- What stands behind is run in the scope. -/
theorem enterScope_runs (ret : Frame) (chain : List Frame) (s : List Val) (hstage : Stage p env store m)
    {body next : List UInt8} {ts : List Tok} (hsits : Sits p a (enterScope body next true ++ ts) b) :
    ∃ m' a', m'.codes = m.codes ∧
      Stage p (store.next :: env) store.child m' ∧ Sits p a' ts b ∧
        Runs (m.at a (.closure ret chain :: s)) (m'.at a' (.closure ret chain :: s)) := by
  obtain ⟨x, a', hsits', hruns⟩ := hsits.enterScope hstage.executing ret chain s
  have hagrees : Agrees store (m.at x []) := hstage.agrees.congr rfl rfl rfl
  have hstage' : Stage p (store.next :: env) store.child (m.at x []).child :=
    ⟨hstage.executing, by rw [hagrees.next, ← hstage.env]; rfl, hagrees.child⟩
  exact ⟨(m.at x []).child, a', rfl, hstage', hsits', hruns⟩

mutual

/-- **Code in tail position runs to the call**, with nothing more on the stack. -/
theorem Node.TailCalls.runs : ∀ {node : Node} {env : List ℕ} {store : Store} {m : Machine} {a b k : ℕ},
    node.TailCalls env store call store' → Stage p env store m → Sits p a (emitNode node true k).1 b →
      RunsTo call store' m ret chain s a
  | .call operator operands, env, store, m, a, b, k, h, hstage, hsits => callNode_tail hstage h hsits
  | .ifElse test yes no, env, store, m, a, b, k, ⟨n, v, s1, heval, h⟩, hstage, hsits => by
    obtain ⟨a1, hsitsTest, hsitsJnf⟩ := sits_append.mp hsits
    obtain ⟨a2, hsitsNo, hsitsJmp⟩ := sits_append.mp hsitsJnf.rest
    obtain ⟨a3, hsitsYes, hsitsDone⟩ := sits_append.mp hsitsJmp.rest.rest
    refine .test hstage heval hsitsTest fun m' w hstage' hcodes hw => ?_
    rcases h with ⟨hfalse, hno⟩ | ⟨htrue, hyes⟩
    · exact ⟨m', _, rfl, hsitsJnf.jnf hstage'.executing _ hsitsJmp.rest.label (hw.trans hfalse),
        hno.runs hstage' hsitsNo⟩
    · exact ⟨m', _, rfl, hsitsJnf.jnf hstage'.executing _ hsitsJmp.rest.label (hw.trans htrue),
        hyes.runs hstage' hsitsYes⟩
  | .cond clauses, env, store, m, a, b, k, h, hstage, hsits => by
    obtain ⟨a1, hsitsClauses, -⟩ := sits_append.mp hsits
    exact Clauses.TailCalls.runs h hstage hsitsClauses
  | .letStar bindings body, env, store, m, a, b, k, ⟨n, v, s1, heval, h⟩, hstage, hsits => by
    obtain ⟨m1, a1, hcodes, hstage1, hsitsScope, hruns⟩ := enterScope_runs ret chain s hstage hsits
    obtain ⟨a2, hsitsBindings, hsitsDrop⟩ := sits_append.mp hsitsScope
    obtain ⟨a3, hsitsBody, -⟩ := sits_append.mp hsitsDrop.rest
    refine .same hcodes hruns (.test hstage1 heval hsitsBindings fun m' w hstage' _ _ => ?_)
    exact ⟨m', _, rfl, hsitsDrop.op hstage'.executing rfl, h.runs hstage' hsitsBody⟩

@[inherit_doc Node.TailCalls.runs] theorem Stream.TailCalls.runs : ∀ {tree : Stream} {env : List ℕ} {store : Store}
    {m : Machine} {a b k : ℕ}, tree.TailCalls env store call store' → Stage p env store m →
      Sits p a (emitStream tree true k).1 b → RunsTo call store' m ret chain s a
  | .cons head .nil, env, store, m, a, b, k, h, hstage, hsits => by
    change Sits p a (slot head (emitNode head true k).1) b at hsits
    unfold slot at hsits
    split at hsits
    · exact Node.TailCalls.runs h hstage hsits
    · obtain ⟨a1, hsitsHead, -⟩ := sits_append.mp hsits
      exact Node.TailCalls.runs h hstage hsitsHead
  | .cons head (.cons head' next), env, store, m, a, b, k, ⟨n, v, s1, heval, h⟩, hstage, hsits => by
    obtain ⟨a1, hsitsHead, hsits⟩ := sits_append.mp hsits
    obtain ⟨a2, hsitsDrop, hsitsNext⟩ := sits_append.mp hsits
    obtain ⟨m1, hcodes, hstage1, hruns⟩ : ∃ m1, m1.codes = m.codes ∧ Stage p env s1 m1 ∧
        Runs (m.at a (.closure ret chain :: s)) (m1.at a2 (.closure ret chain :: s)) := by
      split at hsitsDrop
      · next hpushes =>
        obtain rfl : a1 + 1 = a2 := hsitsDrop.rest
        obtain ⟨m1, w, hsame, -, hagrees, hruns⟩ := (correct n).node hstage heval hpushes hsitsHead .next
        have hstage1 := hstage.same hsame hagrees
        exact ⟨m1, hsame.codes, hstage1, hruns.trans (hsitsDrop.op hstage1.executing rfl)⟩
      · next hpushes =>
        obtain rfl : a1 = a2 := hsitsDrop
        obtain ⟨-, m1, hsame, hagrees, hruns⟩ :=
          (correct n).effect (.closure ret chain :: s) hstage heval (Bool.eq_false_iff.mpr hpushes) hsitsHead
        exact ⟨m1, hsame.codes, hstage.same hsame hagrees, hruns⟩
    exact .same hcodes hruns (h.runs hstage1 hsitsNext)

@[inherit_doc Node.TailCalls.runs] theorem Clauses.TailCalls.runs : ∀ {clauses : Clauses} {env : List ℕ}
    {store : Store} {m : Machine} {a b k : ℕ} {done : List UInt8}, clauses.TailCalls env store call store' →
      Stage p env store m → Sits p a (emitClauses clauses done true k).1 b → RunsTo call store' m ret chain s a
  | .cons test body next, env, store, m, a, b, k, done, ⟨n, v, s1, heval, h⟩, hstage, hsits => by
    obtain ⟨a1, hsitsTest, hsitsNot⟩ := sits_append.mp hsits
    obtain ⟨a2, hsitsBody, hsitsJmp⟩ := sits_append.mp hsitsNot.rest.rest
    refine .test hstage heval hsitsTest fun m' w hstage' hcodes hw => ?_
    have hnot {isFalse : Bool} (hv : v.isFalse = some isFalse) : Runs (m'.at a1 (w :: .closure ret chain :: s))
        (m'.at (a1 + 1) (.bool isFalse :: .closure ret chain :: s)) := by
      refine hsitsNot.op hstage'.executing ?_
      change (w.isFalse.map Val.bool).map _ = _
      rw [hw, hv]
      rfl
    have hjnf isFalse := hsitsNot.rest.jnf hstage'.executing (.closure ret chain :: s) hsitsJmp.rest.label
      (v := .bool isFalse) rfl
    rcases h with ⟨hfalse, hnext⟩ | ⟨htrue, hbody⟩
    · exact ⟨m', _, rfl, (hnot hfalse).trans (hjnf true), hnext.runs hstage' hsitsJmp.rest.rest⟩
    · exact ⟨m', _, rfl, (hnot htrue).trans (hjnf false), hbody.runs hstage' hsitsBody⟩

end

/-! ## Chains of calls

A chain is told by its calls alone.  The stack at each is that of the first with other arguments. -/

variable {codes : ℕ → Option Code} {next : Pending}

/-- **A body is entered** behind the code that binds its formals, on the stack that it returns to. -/
theorem Pending.At.body (hat : call.At store codes ret chain s m) {u : Unit} {store1 : Store}
    (hbind : bindFormals store.next call.formals call.args store.child = .ok (u, store1)) :
    ∃ (p : Program) (m' : Machine) (a b k : ℕ), m'.codes = codes ∧ Stage p (store.next :: call.env) store1 m' ∧
      Sits p a ((emitStream call.body true k).1 ++ [.op .swap Op.noOperand, .op .ret Op.noOperand]) b ∧
        Runs m (m'.at a (.closure ret chain :: s)) := by
  obtain ⟨m₀, here, outer, arg, rfl, rfl, hf, hargs, hagrees⟩ := hat.enters
  cases call with
  | mk formals body env args =>
    cases hf with
    | closure hentry =>
      obtain ⟨p, k, b, hcode, hlength, hsits⟩ := hentry
      obtain ⟨a1, hsitsFormals, hsitsBody⟩ := sits_append.mp hsits.rest
      let m1 := Machine.entering m₀ here outer ret chain arg s
      have hm1 : Executing m1 p := ⟨hcode, hlength⟩
      have hswitch : Agrees store ({ m₀ with stack := .closure ret chain :: arg :: s }.switch here outer) :=
        hagrees.congr rfl rfl rfl
      have hswap : Runs m1 (m1.at (here.ip + 1) (arg :: .closure ret chain :: s)) := hsits.op hm1 rfl
      rw [hagrees.next] at hbind
      rw [hagrees.next]
      obtain ⟨m2, hsame2, hagrees2, hruns2⟩ :=
        formals_runs (s := .closure ret chain :: s) hm1 hswitch.child hbind hargs hsitsFormals
      exact ⟨p, m2, a1, b, k, hsame2.codes, ⟨hsame2.executing hm1, hsame2.scopes, hagrees2⟩, hsitsBody,
        hswap.trans hruns2⟩

/-- **One call makes the next**, on the same stack. -/
theorem Pending.At.calls (hat : call.At store codes ret chain s m) (h : Pending.Calls (call, store) (next, store')) :
    ∃ m', Runs m m' ∧ next.At store' codes ret chain s m' := by
  obtain ⟨u, store1, hbind, htail⟩ := h
  obtain ⟨p, m1, a, b, k, rfl, hstage, hsits, hruns⟩ := hat.body hbind
  obtain ⟨a1, hsitsBody, -⟩ := sits_append.mp hsits
  obtain ⟨m2, hruns2, hat2⟩ := Stream.TailCalls.runs htail hstage hsitsBody
  exact ⟨m2, hruns.trans hruns2, hat2⟩

/-- **So does a chain of calls**, of any length. -/
theorem Pending.At.callsAll (hat : call.At store codes ret chain s m) {last : Pending × Store}
    (h : Relation.ReflTransGen Pending.Calls (call, store) last) :
    ∃ m', Runs m m' ∧ last.1.At last.2 codes ret chain s m' := by
  induction h with
  | refl => exact ⟨m, .refl, hat⟩
  | tail _ hcalls ih =>
    obtain ⟨m1, hruns, hat1⟩ := ih
    obtain ⟨m2, hruns2, hat2⟩ := hat1.calls hcalls
    exact ⟨m2, hruns.trans hruns2, hat2⟩

/-- The depth of the stack where a call is made. -/
theorem Pending.At.depth {vm : VmInternal} (hat : call.At store codes ret chain s m) (hshows : Shows vm m) :
    vm.depth = s.length + 2 := by
  obtain ⟨m₀, here, outer, arg, rfl, -⟩ := hat.enters
  exact hshows.depth

/-- **What a call returns to.** -/
theorem Pending.At.returns (hat : call.At store codes ret chain s m) {fuel : ℕ} {v : Value}
    (heval : evalCall fuel call.closure call.args store = .ok (v, store')) :
    ∃ m' w, m'.codes = codes ∧ Denotes codes v w ∧ Agrees store' m' ∧
      Runs m ((m'.switch ret chain).at ret.ip (w :: s)) := by
  obtain ⟨m₀, here, outer, arg, rfl, rfl, hf, hargs, hagrees⟩ := hat.enters
  obtain ⟨here', outer', heq, hcall⟩ := (correct fuel).call hagrees heval hf hargs
  cases heq
  obtain ⟨m', w, hsame, hw, hagrees', hruns⟩ := hcall ret chain s
  exact ⟨m', w, hsame.codes, hw, hagrees', hruns⟩

end

/-- **Tail calls take no stack.**  When some code makes a call, a chain of tail calls from it on, of any
length, enters each procedure at the depth of the first; and when the last one has a value, it returns
behind the first, on the stack that was there. -/
theorem tail_calls_take_no_stack (host : Host) {operator operands : Stream}
    {site : Site (.cons (.call operator operands) .nil) false} {env : List ℕ} {store : Store} {vm : VmInternal}
    {m : Machine} (hbefore : site.Before env store vm m) {call last : Pending} {store1 store2 : Store}
    (hcall : (Node.call operator operands).TailCalls env store call store1)
    (hcalls : Relation.ReflTransGen Pending.Calls (call, store1) (last, store2)) :
    ∃ vm' m', Relation.ReflTransGen (Step host) vm vm' ∧ Shows vm' m' ∧
      last.At store2 m.codes { m.here with ip := site.stop } m.outer site.stack m' ∧
      vm'.depth = site.stack.length + 2 ∧
      ∀ fuel v store', evalCall fuel last.closure last.args store2 = .ok (v, store') →
        ∃ vm'' m'' w, Relation.ReflTransGen (Step host) vm' vm'' ∧
          Shows vm'' ((m''.switch m.here m.outer).at site.stop (w :: site.stack)) ∧ Denotes m.codes v w ∧
            Agrees store' m'' := by
  obtain ⟨m1, hruns1, hat1⟩ := callNode_plain hbefore.stage hcall site.sits
  obtain ⟨m', hruns, hat⟩ := hat1.callsAll hcalls
  have hstands : Stands vm vm (m.at site.start site.stack) := ⟨hbefore.ordered, hbefore.shows, .refl vm⟩
  obtain ⟨vm', hsteps, hstands'⟩ := hstands.runs host (hruns1.trans hruns)
  refine ⟨vm', m', hsteps, hstands'.shows, hat, hat.depth hstands'.shows, fun fuel v store' heval => ?_⟩
  obtain ⟨m'', w, -, hw, hagrees, hruns'⟩ := hat.returns heval
  obtain ⟨vm'', hsteps', hstands''⟩ := hstands'.runs host hruns'
  exact ⟨vm'', m'', w, hsteps', hstands''.shows, hw, hagrees⟩

namespace Chain

def f : Text := .ofBytes [102]

/-- `(lambda (f) (f f))`. -/
def twice : Node := .lambda (.cons f .fixed) (.cons (.call (.cons (.load f) .nil) (.cons (.load f) .nil)) .nil)

/-- `(lambda (f) 7)`. -/
def seven : Node := .lambda (.cons f .fixed) (.cons (.literal (.fixnum 7)) .nil)

/-- `((lambda (f) (f f)) (lambda (f) 7))`. -/
def program : Stream := .cons (.call (.cons twice .nil) (.cons seven .nil)) .nil

/-- The call of the program, and the call that it makes. -/
def first : Pending := ⟨.cons f .fixed, .cons (.call (.cons (.load f) .nil) (.cons (.load f) .nil)) .nil, [2],
  .pair (.closure (.cons f .fixed) (.cons (.literal (.fixnum 7)) .nil) [2]) .empty⟩

@[inherit_doc first] def second : Pending := ⟨.cons f .fixed, .cons (.literal (.fixnum 7)) .nil, [2],
  .pair (.closure (.cons f .fixed) (.cons (.literal (.fixnum 7)) .nil) [2]) .empty⟩

end Chain

open Chain

/-- The call in the body of the first call returns 7 behind the first, to the empty stack. -/
theorem tail_calls_take_no_stack_seven : ∃ bytes, asmString (emitStream program false 0).1 = some bytes ∧
    ∃ vm' m', Relation.ReflTransGen (Step Host.bare) (startBytes bytes vmCreate) vm' ∧
      Shows vm' (Machine.at m' (codeSize (emitStream program false 0).1) [.fixnum 7]) := by
  have hsome : (asmString (emitStream program false 0).1).isSome = true := by decide +kernel
  have hsize : codeSize (emitStream program false 0).1 < 2 ^ 63 := by decide +kernel
  obtain ⟨bytes, hbytes⟩ := Option.isSome_iff_exists.mp hsome
  have hcall : (Node.call (.cons twice .nil) (.cons seven .nil)).TailCalls [2] .begun first .begun :=
    ⟨5, .begun, rfl, rfl⟩
  obtain ⟨store2, store', hcalls, heval⟩ : ∃ store2 store', Pending.Calls (first, .begun) (second, store2) ∧
      evalCall 5 second.closure second.args store2 = .ok (.fixnum 7, store') :=
    ⟨_, _, ⟨(), _, rfl, 5, _, rfl, rfl⟩, rfl⟩
  obtain ⟨vm', m', hsteps, -, -, -, hreturns⟩ := tail_calls_take_no_stack Host.bare
    (Site.before_alone hbytes hsize) hcall (.single hcalls)
  obtain ⟨vm'', m'', w, hsteps', hshows, hw, -⟩ := hreturns 5 _ store' heval
  cases hw
  exact ⟨bytes, hbytes, vm'', _, hsteps.trans hsteps', hshows⟩

/-! ## Tail calls and other calls

The same body, emitted with its tail calls and without, in programs of their own. -/

/-- **The code of a body, with the return behind it**, and a closure to return to on the stack. -/
structure Returning (body : Stream) (tail : Bool) where
  p : Program
  index : ℕ
  start : ℕ
  stop : ℕ
  ret : Frame
  chain : List Frame
  stack : List Val
  sits : Sits p start ((emitStream body tail index).1 ++ [.op .swap Op.noOperand, .op .ret Op.noOperand]) stop

/-- Such code is left by its return. -/
def Returning.site {body : Stream} {tail : Bool} (r : Returning body tail) : Site body tail where
  p := r.p
  index := r.index
  start := r.start
  stop := r.start + codeSize (emitStream body tail r.index).1
  stack := .closure r.ret r.chain :: r.stack
  exit m w := (m.switch r.ret r.chain).at r.ret.ip (w :: r.stack)
  sits := by
    obtain ⟨a, hsits, -⟩ := sits_append.mp r.sits
    exact hsits.end_eq ▸ hsits
  leaves := by
    obtain ⟨a, hsits, hret⟩ := sits_append.mp r.sits
    exact hsits.end_eq ▸ .ret hret

/-- **Code with tail calls does what code without them does.**  Where a body has a value, both return it to
the closure on their stack, on what is below, and with the same bindings. -/
theorem tail_code_agrees (host : Host) {body : Stream} (tailed : Returning body true) (plain : Returning body false)
    {env : List ℕ} {store : Store} {vm1 vm2 : VmInternal} {m1 m2 : Machine}
    (h1 : tailed.site.Before env store vm1 m1) (h2 : plain.site.Before env store vm2 m2) {fuel : ℕ} {v : Value}
    {store' : Store} (heval : evalStream fuel env body store = .ok (v, store')) :
    tailed.site.Behind host vm1 m1 v store' ∧ plain.site.Behind host vm2 m2 v store' :=
  ⟨h1.behind host heval, h2.behind host heval⟩

namespace Doubled

def x : Text := .ofBytes [120]

/-- `(lambda (x) (* x 2))`. -/
def double : Node := .lambda (.cons x .fixed)
  (.cons (.math .mul (.cons (.load x) .nil) (.cons (.literal (.fixnum 2)) .nil)) .nil)

/-- `(if #t ((lambda (x) (* x 2)) 21) 0)`. -/
def body : Stream :=
  .cons (.ifElse (.cons (.literal (.boolean true)) .nil)
    (.cons (.call (.cons double .nil) (.cons (.literal (.fixnum 21)) .nil)) .nil)
    (.cons (.literal (.fixnum 0)) .nil)) .nil

/-- A program that enters the body, in either form, and ends where it returns. -/
def program (tail : Bool) : List Tok :=
  jumpLabel "body" .call :: jumpLabel "done" .jmp :: .label "body" ::
    (((emitStream body tail 0).1 ++ [.op .swap Op.noOperand, .op .ret Op.noOperand]) ++ [.label "done"])

/-- The machine comes to the body, in a scope of its own. -/
theorem entered (tail : Bool) : ∃ bytes vm m, ∃ r : Returning body tail, asmString (program tail) = some bytes ∧
    Relation.ReflTransGen (Step Host.bare) (startBytes bytes vmCreate) vm ∧
    r.site.Before [3, 2] Store.begun.child vm m ∧ r.ret.ip = 9 ∧ r.stack = [] := by
  have hsome : (asmString (program tail)).isSome = true := by cases tail <;> decide +kernel
  have hsize : codeSize (program tail) < 2 ^ 63 := by cases tail <;> decide +kernel
  have hnodup : (definedLabels (program tail)).Nodup := by cases tail <;> decide +kernel
  obtain ⟨bytes, hbytes⟩ := Option.isSome_iff_exists.mp hsome
  have hsits := sits_of_nodup hbytes hsize hnodup
  have hexecuting := executing_begun hbytes hsize
  obtain ⟨stop, hbody, -⟩ := sits_append.mp hsits.rest.rest.rest
  have hcall := hsits.call hexecuting [] hsits.rest.rest.label
  have hstands : Stands (startBytes bytes vmCreate) (startBytes bytes vmCreate) ((begun bytes).at 0 []) :=
    ⟨ordered_begun bytes, shows_begun bytes, .refl _⟩
  obtain ⟨vm, hsteps, hstands'⟩ := hstands.runs Host.bare hcall
  let r : Returning body tail :=
    { p := .of (program tail)
      index := 0
      start := 18
      stop := stop
      ret := { (begun bytes).here with ip := 9 }
      chain := []
      stack := []
      sits := hbody }
  have hagrees : Agrees .begun ((begun bytes).at 9 [.closure r.ret []]) := (agrees_begun bytes).congr rfl rfl rfl
  have hstage : Stage r.p [3, 2] Store.begun.child ((begun bytes).at 9 [.closure r.ret []]).child :=
    ⟨hexecuting, rfl, hagrees.child⟩
  exact ⟨bytes, vm, _, r, hbytes, hsteps, ⟨hstands'.ordered, hstands'.shows, hstage⟩, rfl, rfl⟩

end Doubled

open Doubled

/-- The call in the branch is a tail call in the one form, and returns to the branch in the other; 42 comes back to
where the body was entered from in both. -/
theorem tail_code_agrees_doubled : (emitStream body true 0).1 ≠ (emitStream body false 0).1 ∧
    ∃ bytes bytes' vm vm' m m', asmString (Doubled.program true) = some bytes ∧
      asmString (Doubled.program false) = some bytes' ∧
      Relation.ReflTransGen (Step Host.bare) (startBytes bytes vmCreate) vm ∧ Shows vm (Machine.at m 9 [.fixnum 42]) ∧
      Relation.ReflTransGen (Step Host.bare) (startBytes bytes' vmCreate) vm' ∧
      Shows vm' (Machine.at m' 9 [.fixnum 42]) := by
  refine ⟨by decide +kernel, ?_⟩
  obtain ⟨bytes, vm, m, tailed, hbytes, hsteps, hbefore, hip, hstack⟩ := entered true
  obtain ⟨bytes', vm', m', plain, hbytes', hsteps', hbefore', hip', hstack'⟩ := entered false
  obtain ⟨store', heval⟩ : ∃ store', evalStream 20 [3, 2] body Store.begun.child = .ok (.fixnum 42, store') := ⟨_, rfl⟩
  obtain ⟨⟨vm1, m1, w, hruns, hshows, -, hw, -⟩, ⟨vm2, m2, w', hruns', hshows', -, hw', -⟩⟩ :=
    tail_code_agrees Host.bare tailed plain hbefore hbefore' heval
  cases hw
  cases hw'
  have hback : Shows vm1 ((m1.switch tailed.ret tailed.chain).at 9 [.fixnum 42]) := by
    rw [← hip, ← hstack]
    exact hshows
  have hback' : Shows vm2 ((m2.switch plain.ret plain.chain).at 9 [.fixnum 42]) := by
    rw [← hip', ← hstack']
    exact hshows'
  exact ⟨bytes, bytes', vm1, vm2, _, _, hbytes, hbytes', hsteps.trans hruns, hback, hsteps'.trans hruns', hback'⟩

end Insomniac.Compile

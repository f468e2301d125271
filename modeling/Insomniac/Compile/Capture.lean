import Insomniac.Compile.Ending
import Insomniac.Compile.Resumes

/-!
# Compile/Capture — compiled programs with `prim-call/cc`

    c  ────step────▸  c'
    │                 │
    m  ────Runs────▸  m'              Mirrors g c m

Each step of a configuration is followed by the machine (`Mirrors.step`), and so are all of them, whatever
is captured on the way and gone back to.
-/

open Insomniac.Asm Insomniac.Vm Insomniac.Abstract Insomniac.Lib Run

namespace Insomniac.Compile

/-- The machine comes to a configuration. -/
def Follows (g : Setting) (c : Conf) (m : Machine) : Prop := ∃ m', Runs m m' ∧ Mirrors g c m'

section

variable {g : Setting} {env : List ℕ} {store store' : Store} {konts : ℕ → Option Kont} {k : Kont} {m : Machine}
  {ip : ℕ} {s : List Val} {c c' : Conf} {v : Value} {control : Control} {p : Program} {b : ℕ} {ts : List Tok}

/-- A machine that mirrors a configuration follows it without a step. -/
theorem Mirrors.follows (h : Mirrors g c m) : Follows g c m := ⟨m, .refl, h⟩

/-- It may run some steps first. -/
theorem Follows.runs {m' : Machine} (hruns : Runs m m') (h : Follows g c m') : Follows g c m := by
  obtain ⟨m'', hruns', hmirrors⟩ := h
  exact ⟨m'', hruns.trans hruns', hmirrors⟩

/-- **A value is returned**, on top of the stack. -/
theorem Ready.follows {w : Val} {ip' : ℕ} {s' : List Val} (h : Ready g true k { m.here with ip } m.outer s)
    (hrem : Remembers g store konts m) (hw : Denotes g.codes v w) (hruns : Runs (m.at ip' s') (m.at ip (w :: s))) :
    Follows g ⟨.ret v k, store, konts⟩ (m.at ip' s') := .runs hruns (Mirrors.ret hrem hw h).follows

/-- **Nothing is pushed**, and the value is `()`. -/
theorem Ready.followsUnit (h : Ready g false k { m.here with ip } m.outer s) (hrem : Remembers g store konts m) :
    Follows g ⟨.ret .empty k, store, konts⟩ (m.at ip s) := by
  cases h with
  | unit hspot hready =>
    obtain ⟨p, hwithin, hsits⟩ := hspot
    obtain rfl : ip + 1 = _ := hsits.rest
    exact Ready.follows hready hrem .empty (hsits.op (hrem.executing hwithin) rfl)
  | skip hspot henv hready => exact (Mirrors.skipped hrem henv (.stream hspot hready)).follows

/-- Something is evaluated. -/
theorem Begins.follows {work : Work} (h : Begins g k { m.here with ip } m.outer s work)
    (hrem : Remembers g store konts m) (henv : scopesOf (m.here :: m.outer) = env) :
    Follows g ⟨.eval env work k, store, konts⟩ (m.at ip s) := (Mirrors.eval hrem henv h).follows

/-! ## Evaluation

A configuration that evaluates is at the beginning of some code.  A step goes on to the first part, and what
comes behind that part becomes the continuation, whose place is the end of the part. -/

/-- What is behind the entry of a `let*`: its bindings, its body, and a return. -/
theorem scope_follows {m1 : Machine} (hrem : Remembers g store konts m1) (henv : scopesOf (m1.here :: m1.outer) = env)
    (hwithin : Within g.codes m1.here p) {ret : Frame} {chain : List Frame} (hready : Ready g true k ret chain s)
    {bindings body : Stream} {tail : Bool} {i j a : ℕ} (hsits : Sits p a ((emitStream bindings false i).1 ++
      .op .drop Op.noOperand :: ((emitStream body tail j).1 ++ .op .swap Op.noOperand :: .op .ret Op.noOperand :: ts)) b) :
    Follows g ⟨.eval env (.stream bindings false) (.rest env body tail (.activation k)), store, konts⟩
      (m1.at a (.closure ret chain :: s)) := by
  obtain ⟨a1, hsitsBindings, hsitsDrop⟩ := sits_append.mp hsits
  have hsitsDrop : Sits p a1 ((.op .drop Op.noOperand :: (emitStream body tail j).1) ++
      ([.op .swap Op.noOperand, .op .ret Op.noOperand] ++ ts)) b := hsitsDrop
  obtain ⟨a2, hsitsRest, hsitsRet⟩ := sits_append.mp hsitsDrop
  obtain ⟨a3, hsitsRet, -⟩ := sits_append.mp hsitsRet
  have hactivation : Ready g true (.activation k) { m1.here with ip := a2 } m1.outer (.closure ret chain :: s) :=
    .activation ⟨p, hwithin, hsitsRet⟩ hready
  have hrest : Ready g true (.rest env body tail (.activation k)) { m1.here with ip := a1 } m1.outer
      (.closure ret chain :: s) := .rest ⟨p, hwithin, hsitsRest⟩ henv hactivation
  exact Begins.follows (.stream ⟨p, hwithin, hsitsBindings⟩ hrest) hrem henv

theorem Begins.stepNode {node : Node} {tail : Bool} (h : Begins g k { m.here with ip } m.outer s (.node node tail))
    (hrem : Remembers g store konts m) (henv : scopesOf (m.here :: m.outer) = env)
    (hstep : Conf.evalStep ⟨control, store, konts⟩ env k (.node node tail) = some c') : Follows g c' (m.at ip s) := by
  obtain ⟨⟨p, hwithin, hsits⟩, hready⟩ := h
  have hm := hrem.executing hwithin
  cases node with
  | literal l =>
    cases hstep
    obtain ⟨w, hw, hruns⟩ := l.denotes m.codes
    obtain rfl : ip + l.token.size = _ := hsits.rest
    exact Ready.follows hready hrem (hrem.codes ▸ hw) (hruns p ip _ [] m s hsits hm)
  | load name =>
    obtain ⟨⟨t, v⟩, hfind, ⟨⟩⟩ := Option.map_eq_some_iff.mp hstep
    rw [← henv] at hfind
    obtain ⟨w, table, hfound, hw, -⟩ := hrem.agrees.find hfind
    obtain rfl : _ = _ := hsits.rest.rest
    refine Ready.follows hready hrem (hrem.codes ▸ hw) ((hsits.symbol hm s).trans (hsits.rest.op hm ?_))
    change (findFrame m.tables name.bytes (m.here :: m.outer)).map _ = _
    rw [hfound]
    rfl
  | cond clauses =>
    cases hstep
    exact Begins.follows (.clauses ⟨p, hwithin, hsits⟩ hready) hrem henv
  | ifElse test yes no =>
    cases hstep
    obtain ⟨a, hsitsTest, hsitsJnf⟩ := sits_append.mp hsits
    have hafter : Ready g true (.ifElse env yes no tail k) { m.here with ip := a } m.outer s :=
      .ifElse ⟨p, hwithin, hsitsJnf⟩ henv hready
    exact Begins.follows (.stream ⟨p, hwithin, hsitsTest⟩ hafter) hrem henv
  | and nodes =>
    cases hstep
    exact Begins.follows (.bool ⟨p, hwithin, hsits⟩ hready) hrem henv
  | or nodes =>
    cases hstep
    exact Begins.follows (.bool ⟨p, hwithin, hsits⟩ hready) hrem henv
  | math o stream1 stream2 =>
    cases hstep
    obtain ⟨a, hsits1, hsits2⟩ := sits_append.mp hsits
    have hafter : Ready g true (.first env o stream2 k) { m.here with ip := a } m.outer s :=
      .first ⟨p, hwithin, hsits2⟩ henv hready
    exact Begins.follows (.stream ⟨p, hwithin, hsits1⟩ hafter) hrem henv
  | lambda formals body =>
    cases hstep
    obtain ⟨a, hsitsBody, hsitsProc⟩ := sits_append.mp hsits.rest.rest
    obtain rfl : a + 9 = _ := hsitsProc.rest.rest
    have hentry : Entry g.codes { m.here with ip := ip + 9 } formals body :=
      ⟨p, _, a, hwithin.1, hwithin.2, hsitsBody⟩
    have hw : Denotes g.codes (.closure formals body env) (.closure { m.here with ip := ip + 9 } m.outer) := by
      rw [← henv]
      exact .closure hentry
    exact Ready.follows hready hrem hw
      ((hsits.jmp hm s hsitsProc.label).trans (hsitsProc.rest.proc hm s hsits.rest.label))
  | call operator operands =>
    cases hstep
    have hunit : Runs (m.at ip s) (m.at (ip + 1) (.empty :: s)) := hsits.op hm rfl
    exact .runs hunit (Begins.follows (.operands ⟨p, hwithin, hsits.rest⟩ .empty hready) hrem henv)
  | bind value name =>
    cases hstep
    obtain ⟨a, hsitsValue, hsitsBind⟩ := sits_append.mp hsits
    have hafter : Ready g true (.bind env name k) { m.here with ip := a } m.outer s :=
      .bind ⟨p, hwithin, hsitsBind⟩ henv hready
    exact Begins.follows (.stream ⟨p, hwithin, hsitsValue⟩ hafter) hrem henv
  | store value name =>
    cases hstep
    obtain ⟨a, hsitsValue, hsitsSet⟩ := sits_append.mp hsits
    have hafter : Ready g true (.store env name k) { m.here with ip := a } m.outer s :=
      .store ⟨p, hwithin, hsitsSet⟩ henv hready
    exact Begins.follows (.stream ⟨p, hwithin, hsitsValue⟩ hafter) hrem henv
  | letStar bindings body =>
    obtain ⟨k', hbeyond, ⟨⟩⟩ := Option.bind_eq_some_iff.mp hstep
    obtain ⟨a1, hsitsEnter, hsitsScope⟩ := sits_append.mp hsits
    have hscopes (ip' : ℕ) (s' : List Val) :
        scopesOf ((m.at ip' s').child.here :: (m.at ip' s').child.outer) = store.next :: env := by
      rw [hrem.agrees.next, ← henv]
      rfl
    rcases hready.beyond hbeyond with ⟨rfl, rfl⟩ | ⟨rfl, ret, chain, s', rfl, hback⟩
    · obtain ⟨a2, -, hsitsDrop⟩ := sits_append.mp hsitsScope
      obtain ⟨a3, -, hsitsRet⟩ := sits_append.mp hsitsDrop.rest
      obtain rfl : a3 + 1 + 1 = _ := hsitsRet.rest.rest.rest
      have hcall := hsitsEnter.call hm s hsitsEnter.rest.rest.label
      obtain rfl : ip + 9 + 9 = a1 := hsitsEnter.rest.rest.rest
      have hback : Ready g true k' { m.here with ip := ip + 9 } m.outer s :=
        .jmp _ hwithin hsitsEnter.rest hsitsRet.rest.rest.label hready
      let s1 : List Val := .closure { m.here with ip := ip + 9 } m.outer :: s
      exact .runs hcall (scope_follows (hrem.moved (ip + 9) s1).child (hscopes _ s1) hwithin hback hsitsScope)
    · obtain ⟨x, a2, hsitsScope, hruns⟩ := hsits.enterScope hm ret chain s'
      exact .runs hruns (scope_follows (hrem.moved x []).child (hscopes x []) hwithin hback hsitsScope)

theorem Begins.stepStream {tree : Stream} {tail : Bool} (h : Begins g k { m.here with ip } m.outer s (.stream tree tail))
    (hrem : Remembers g store konts m) (henv : scopesOf (m.here :: m.outer) = env)
    (hstep : Conf.evalStep ⟨control, store, konts⟩ env k (.stream tree tail) = some c') : Follows g c' (m.at ip s) := by
  cases h with
  | stream hspot hready =>
    obtain ⟨p, hwithin, hsits⟩ := hspot
    match tree with
    | .nil =>
      cases hstep
      obtain rfl : ip + 1 = _ := hsits.rest
      exact Ready.follows hready hrem .empty (hsits.op (hrem.executing hwithin) rfl)
    | .cons head .nil =>
      cases hstep
      obtain ⟨b', hspot, hslot⟩ := hready.slot ⟨p, hwithin, hsits⟩
      exact Begins.follows (.node hspot hslot) hrem henv
    | .cons head (.cons head' next) =>
      cases hstep
      obtain ⟨a1, hsitsHead, hsitsRest⟩ := sits_append.mp hsits
      have hafter : Ready g head.pushes (.rest env (.cons head' next) tail k) { m.here with ip := a1 } m.outer s := by
        cases hpushes : head.pushes with
        | true =>
          rw [hpushes, if_pos rfl] at hsitsRest
          exact .rest ⟨p, hwithin, hsitsRest⟩ henv hready
        | false =>
          rw [hpushes] at hsitsRest
          exact .skip ⟨p, hwithin, hsitsRest⟩ henv hready
      exact Begins.follows (.node ⟨p, hwithin, hsitsHead⟩ hafter) hrem henv

/-- A step at the clauses of a `cond`. -/
theorem Begins.stepClauses {clauses : Clauses} {tail : Bool}
    (h : Begins g k { m.here with ip } m.outer s (.clauses clauses tail)) (hrem : Remembers g store konts m)
    (henv : scopesOf (m.here :: m.outer) = env)
    (hstep : Conf.evalStep ⟨control, store, konts⟩ env k (.clauses clauses tail) = some c') :
    Follows g c' (m.at ip s) := by
  cases h with
  | clauses hspot hready =>
    obtain ⟨p, hwithin, hsits⟩ := hspot
    obtain ⟨a1, hsitsClauses, hsitsEnd⟩ := sits_append.mp hsits
    cases clauses with
    | nil =>
      cases hstep
      obtain rfl : ip = a1 := hsitsClauses
      obtain rfl : ip + 1 = _ := hsitsEnd.rest.rest
      exact Ready.follows hready hrem .empty (hsitsEnd.op (hrem.executing hwithin) rfl)
    | cons test body next =>
      cases hstep
      obtain ⟨a2, hsitsTest, hsitsNot⟩ := sits_append.mp hsitsClauses
      have hsitsNot := sits_append.mpr ⟨a1, hsitsNot, hsitsEnd⟩
      simp only [List.cons_append, List.append_assoc] at hsitsNot
      have hafter : Ready g true (.clause env body next tail k) { m.here with ip := a2 } m.outer s :=
        .clause ⟨p, hwithin, hsitsNot⟩ henv hready
      exact Begins.follows (.stream ⟨p, hwithin, hsitsTest⟩ hafter) hrem henv

/-- A step at `and` or `or`. -/
theorem Begins.stepBool {andOr : Bool} {nodes : Stream} (h : Begins g k { m.here with ip } m.outer s (.bool andOr nodes))
    (hrem : Remembers g store konts m) (henv : scopesOf (m.here :: m.outer) = env)
    (hstep : Conf.evalStep ⟨control, store, konts⟩ env k (.bool andOr nodes) = some c') : Follows g c' (m.at ip s) := by
  cases h with
  | bool hspot hready =>
    obtain ⟨p, hwithin, hsits⟩ := hspot
    have hm := hrem.executing hwithin
    obtain ⟨a1, hsitsNodes, hsitsEnd⟩ := sits_append.mp hsits
    match nodes with
    | .nil =>
      cases hstep
      obtain rfl : a1 = _ := hsitsEnd.rest
      refine Ready.follows hready hrem (.bool andOr) ?_
      cases andOr with
      | true =>
        obtain rfl : ip + 1 = _ := hsitsNodes.rest
        exact hsitsNodes.op hm rfl
      | false =>
        obtain rfl : ip + 1 = _ := hsitsNodes.rest
        exact hsitsNodes.op hm rfl
    | .cons head .nil =>
      cases hstep
      obtain rfl : a1 = _ := hsitsEnd.rest
      obtain ⟨b', hspot, hslot⟩ := hready.slot ⟨p, hwithin, hsitsNodes⟩
      exact Begins.follows (.node hspot hslot) hrem henv
    | .cons head (.cons head' next) =>
      cases hstep
      obtain ⟨a2, hsitsHead, hsitsNext⟩ := sits_append.mp hsitsNodes
      have hsitsNext := sits_append.mpr ⟨a1, hsitsNext, hsitsEnd⟩
      rw [List.append_assoc] at hsitsNext
      have hafter : Ready g true (.bool env andOr (.cons head' next) k) { m.here with ip := a2 } m.outer s :=
        .bool ⟨p, hwithin, hsitsNext⟩ henv hready
      obtain ⟨b', hspot, hslot⟩ := hafter.slot ⟨p, hwithin, hsitsHead⟩
      exact Begins.follows (.node hspot hslot) hrem henv

/-- A step at the operands of a call. -/
theorem Begins.stepOperands {operands operator : Stream} {tail : Bool} {args : Value}
    (h : Begins g k { m.here with ip } m.outer s (.operands operands operator tail args))
    (hrem : Remembers g store konts m) (henv : scopesOf (m.here :: m.outer) = env)
    (hstep : Conf.evalStep ⟨control, store, konts⟩ env k (.operands operands operator tail args) = some c') :
    Follows g c' (m.at ip s) := by
  obtain ⟨i, j, b, arg, s, rfl, ⟨p, hwithin, hsits⟩, harg, hready⟩ := h.of_operands
  obtain ⟨a1, hsitsOperands, hsitsOperator⟩ := sits_append.mp hsits
  cases operands with
  | nil =>
    cases hstep
    obtain rfl : ip = a1 := hsitsOperands
    obtain ⟨a2, hsitsOperator, hsitsCall⟩ := sits_append.mp hsitsOperator
    have hafter : Ready g true (.operator tail args k) { m.here with ip := a2 } m.outer (arg :: s) :=
      .operator ⟨p, hwithin, hsitsCall⟩ harg hready
    exact Begins.follows (.stream ⟨p, hwithin, hsitsOperator⟩ hafter) hrem henv
  | cons head next =>
    cases hstep
    obtain ⟨a2, hsitsHead, hsitsCons⟩ := sits_append.mp hsitsOperands
    have hsitsCons := sits_append.mpr ⟨a1, hsitsCons, hsitsOperator⟩
    rw [List.cons_append] at hsitsCons
    have hafter : Ready g true (.operand env next operator tail args k) { m.here with ip := a2 } m.outer (arg :: s) :=
      .operand ⟨p, hwithin, hsitsCons⟩ henv harg hready
    obtain ⟨b', hspot, hslot⟩ := hafter.slot ⟨p, hwithin, hsitsHead⟩
    exact Begins.follows (.node hspot hslot) hrem henv

/-- **The machine comes to what is evaluated next.** -/
theorem Begins.step {work : Work} (h : Begins g k { m.here with ip } m.outer s work)
    (hrem : Remembers g store konts m) (henv : scopesOf (m.here :: m.outer) = env)
    (hstep : Conf.evalStep ⟨control, store, konts⟩ env k work = some c') : Follows g c' (m.at ip s) := by
  cases work with
  | node node tail => exact h.stepNode hrem henv hstep
  | stream tree tail => exact h.stepStream hrem henv hstep
  | clauses clauses tail => exact h.stepClauses hrem henv hstep
  | bool andOr nodes => exact h.stepBool hrem henv hstep
  | operands operands operator tail args => exact h.stepOperands hrem henv hstep

/-! ## Returning

A configuration that returns has a value for the top frame of its continuation.  The machine is behind the code
of that value, runs what the frame has left there, and is at the beginning or behind some code again. -/

/-- **A name is set** where it is bound. -/
theorem Sits.set {a t : ℕ} {name : Text} (h : Sits p a (.symbol name.bytes :: .op .set Op.noOperand :: ts) b)
    (hm : Executing m p) {w' : Val} (hfind : findFrame m.tables name.bytes (m.here :: m.outer) = some (t, w'))
    {table : Bindings} (htable : m.tables t = some table) (w : Val) (s : List Val) : ∃ a', Sits p a' ts b ∧
      Runs (m.at a (w :: s)) ((m.setTable t (Function.update table name.bytes (some w))).at a' s) := by
  refine ⟨_, h.rest.rest, (h.symbol hm (w :: s)).trans (h.rest.op hm ?_)⟩
  change (findFrame m.tables name.bytes (m.here :: m.outer)) >>= _ = _
  rw [hfind]
  change Machine.setIn _ t name.bytes w = _
  rw [Machine.setIn]
  change m.tables t >>= _ = _
  rw [htable]
  rfl

section

variable {here : Frame} {outer : List Frame} {w : Val} (hrem : Remembers g store konts m) (hw : Denotes g.codes v w)
  (henv : scopesOf (m.here :: m.outer) = env)

include hrem hw henv

/-- A value for the test of an `if`. -/
theorem ifElse_step {yes no : Stream} {tail : Bool} {l l' : List UInt8} {i j : ℕ}
    (hspot : Spot g.codes m.here (jumpLabel l .jnf :: ((emitStream no tail i).1 ++ jumpLabel l' .jmp :: .label l ::
      ((emitStream yes tail j).1 ++ [.label l']))) b) (hready : Ready g true k { m.here with ip := b } m.outer s)
    (hstep : Conf.retStep ⟨control, store, konts⟩ v (.ifElse env yes no tail k) = some c') :
    Follows g c' (m.at m.here.ip (w :: s)) := by
  obtain ⟨isFalse, hfalse, rfl⟩ := Option.map_eq_some_iff.mp hstep
  obtain ⟨p, hwithin, hsits⟩ := hspot
  have hm : Executing m p := hrem.executing hwithin
  obtain ⟨a1, hsitsNo, hsitsJmp⟩ := sits_append.mp hsits.rest
  obtain ⟨a2, hsitsYes, hsitsDone⟩ := sits_append.mp hsitsJmp.rest.rest
  obtain rfl : a2 = b := hsitsDone.rest
  refine .runs (hsits.jnf hm s hsitsJmp.rest.label (hw.isFalse.trans hfalse)) ?_
  cases isFalse with
  | false => exact Begins.follows (.stream ⟨p, hwithin, hsitsYes⟩ hready) hrem henv
  | true =>
    have hdone : Ready g true k { m.here with ip := a1 } m.outer s := .jmp _ hwithin hsitsJmp hsitsDone.label hready
    exact Begins.follows (.stream ⟨p, hwithin, hsitsNo⟩ hdone) hrem henv

/-- A value for the test of a clause. -/
theorem clause_step {body : Stream} {next : Clauses} {tail : Bool} {l done : List UInt8} {i j : ℕ}
    (hspot : Spot g.codes m.here (.op .not Op.noOperand :: jumpLabel l .jnf :: ((emitStream body tail i).1 ++
      jumpLabel done .jmp :: .label l :: ((emitClauses next done tail j).1 ++ [unit, .label done]))) b)
    (hready : Ready g true k { m.here with ip := b } m.outer s)
    (hstep : Conf.retStep ⟨control, store, konts⟩ v (.clause env body next tail k) = some c') :
    Follows g c' (m.at m.here.ip (w :: s)) := by
  obtain ⟨isFalse, hfalse, rfl⟩ := Option.map_eq_some_iff.mp hstep
  obtain ⟨p, hwithin, hsits⟩ := hspot
  have hm : Executing m p := hrem.executing hwithin
  obtain ⟨a1, hsitsBody, hsitsJmp⟩ := sits_append.mp hsits.rest.rest
  obtain ⟨a2, -, hsitsEnd⟩ := sits_append.mp hsitsJmp.rest.rest
  obtain rfl : a2 + 1 = b := hsitsEnd.rest.rest
  have hnot : Runs (m.at m.here.ip (w :: s)) (m.at (m.here.ip + 1) (.bool isFalse :: s)) := by
    refine hsits.op hm ?_
    change (w.isFalse.map Val.bool).map _ = _
    rw [hw.isFalse, hfalse]
    rfl
  refine .runs (hnot.trans (hsits.rest.jnf hm s hsitsJmp.rest.label (v := .bool isFalse) rfl)) ?_
  cases isFalse with
  | false =>
    have hdone : Ready g true k { m.here with ip := a1 } m.outer s := .jmp _ hwithin hsitsJmp hsitsEnd.rest.label hready
    exact Begins.follows (.stream ⟨p, hwithin, hsitsBody⟩ hdone) hrem henv
  | true => exact Begins.follows (.clauses ⟨p, hwithin, hsitsJmp.rest.rest⟩ hready) hrem henv

/-- A value in the middle of `and` or `or`. -/
theorem bool_step {andOr : Bool} {next : Stream} {done : List UInt8} {i j : ℕ}
    (hspot : Spot g.codes m.here ((between done andOr i).1 ++ ((emitBool next done andOr j).1 ++ [.label done])) b)
    (hready : Ready g true k { m.here with ip := b } m.outer s)
    (hstep : Conf.retStep ⟨control, store, konts⟩ v (.bool env andOr next k) = some c') :
    Follows g c' (m.at m.here.ip (w :: s)) := by
  obtain ⟨isFalse, hfalse, rfl⟩ := Option.map_eq_some_iff.mp hstep
  obtain ⟨p, hwithin, hsits⟩ := hspot
  have hm : Executing m p := hrem.executing hwithin
  obtain ⟨a1, hsitsBetween, hsitsNext⟩ := sits_append.mp hsits
  obtain ⟨a2, -, hsitsDone⟩ := sits_append.mp hsitsNext
  obtain rfl : a2 = b := hsitsDone.rest
  have hbetween := between_runs (s := s) ⟨hm, henv, hrem.agrees⟩ hsitsBetween hsitsDone.label (hw.isFalse.trans hfalse)
  split at hbetween
  · next heq =>
    rw [if_pos heq]
    exact Ready.follows hready hrem hw hbetween
  · next hne =>
    rw [if_neg hne]
    exact .runs hbetween (Begins.follows (.bool ⟨p, hwithin, hsitsNext⟩ hready) hrem henv)

theorem bind_step {name : Text} (hspot : Spot g.codes m.here [.symbol name.bytes, .op .bind Op.noOperand] b)
    (hready : Ready g false k { m.here with ip := b } m.outer s)
    (hstep : Conf.retStep ⟨control, store, konts⟩ v (.bind env name k) = some c') :
    Follows g c' (m.at m.here.ip (w :: s)) := by
  obtain ⟨u, store', hset, rfl⟩ := Conf.ran_some hstep
  obtain ⟨p, hwithin, hsits⟩ := hspot
  rw [← henv] at hset
  have hset : setIn m.here.bindings name.bytes v store = .ok (u, store') := hset
  obtain ⟨bindings, hbindings, -⟩ := setIn_ok hset
  obtain ⟨table, htable, -⟩ := hrem.agrees.scopes _ _ hbindings
  obtain ⟨a', hend, hruns⟩ := hsits.bind (hrem.executing hwithin) name.noNul htable w s
  obtain rfl : a' = b := hend
  exact .runs hruns (Ready.followsUnit hready (hrem.set hset hw htable))

theorem store_step {name : Text} (hspot : Spot g.codes m.here [.symbol name.bytes, .op .set Op.noOperand] b)
    (hready : Ready g false k { m.here with ip := b } m.outer s)
    (hstep : Conf.retStep ⟨control, store, konts⟩ v (.store env name k) = some c') :
    Follows g c' (m.at m.here.ip (w :: s)) := by
  obtain ⟨u, store', hassign, rfl⟩ := Conf.ran_some hstep
  obtain ⟨p, hwithin, hsits⟩ := hspot
  obtain ⟨_, _, ⟨⟩, hassign⟩ := bind_ok hassign
  obtain ⟨⟨t, v'⟩, store1, hknown, hset⟩ := bind_ok hassign
  obtain ⟨hfind, rfl⟩ := known_ok hknown
  rw [← henv] at hfind
  obtain ⟨w', table, hfound, -, htable⟩ := hrem.agrees.find hfind
  obtain ⟨a', hend, hruns⟩ := hsits.set (hrem.executing hwithin) hfound htable w s
  obtain rfl : a' = b := hend
  exact .runs hruns (Ready.followsUnit hready (hrem.set hset hw htable))

/-- A value for the first operand of an operation. -/
theorem first_step {o : MathOp} {stream2 : Stream} {i : ℕ}
    (hspot : Spot g.codes m.here ((emitStream stream2 false i).1 ++ [o.token]) b)
    (hready : Ready g true k { m.here with ip := b } m.outer s)
    (hstep : Conf.retStep ⟨control, store, konts⟩ v (.first env o stream2 k) = some c') :
    Follows g c' (m.at m.here.ip (w :: s)) := by
  cases hstep
  obtain ⟨p, hwithin, hsits⟩ := hspot
  obtain ⟨a, hsits2, hsitsOp⟩ := sits_append.mp hsits
  have hafter : Ready g true (.second o v k) { m.here with ip := a } m.outer (w :: s) :=
    .second ⟨p, hwithin, hsitsOp⟩ hw hready
  exact Begins.follows (.stream ⟨p, hwithin, hsits2⟩ hafter) hrem henv

omit henv in
/-- A value for the second one. -/
theorem second_step {o : MathOp} {v1 : Value} {w1 : Val} (hspot : Spot g.codes m.here [o.token] b)
    (hw1 : Denotes g.codes v1 w1) (hready : Ready g true k { m.here with ip := b } m.outer s)
    (hstep : Conf.retStep ⟨control, store, konts⟩ v (.second o v1 k) = some c') :
    Follows g c' (m.at m.here.ip (w :: w1 :: s)) := by
  obtain ⟨v', store', hcalculate, rfl⟩ := Conf.ran_some hstep
  obtain ⟨p, hwithin, hsits⟩ := hspot
  obtain rfl : m.here.ip + 1 = b := o.token_size ▸ hsits.rest
  unfold calculate at hcalculate
  split at hcalculate
  · next x y =>
    obtain ⟨happly, rfl⟩ := known_ok hcalculate
    cases hw1
    cases hw
    obtain ⟨w', hw', hruns⟩ := o.exec (m := m) (p := p) (s := s) happly
    exact Ready.follows hready hrem (hrem.codes ▸ hw') (hruns hsits (hrem.executing hwithin))
  · cases hcalculate

omit henv in
/-- A procedure returns. -/
theorem activation_step {ret : Frame} {chain : List Frame}
    (hspot : Spot g.codes m.here [.op .swap Op.noOperand, .op .ret Op.noOperand] b) (hready : Ready g true k ret chain s)
    (hstep : Conf.retStep ⟨control, store, konts⟩ v (.activation k) = some c') :
    Follows g c' (m.at m.here.ip (w :: .closure ret chain :: s)) := by
  cases hstep
  obtain ⟨p, hwithin, hsits⟩ := hspot
  have hm : Executing m p := hrem.executing hwithin
  have hret : Runs (m.at m.here.ip (w :: .closure ret chain :: s)) ((m.switch ret chain).at ret.ip (w :: s)) :=
    (hsits.op hm rfl).trans (hsits.rest.op hm rfl)
  have hrem' : Remembers g store konts (m.switch ret chain) := hrem.congr rfl rfl rfl
  exact .runs hret (Mirrors.ret hrem' hw hready).follows

omit henv in
/-- **A call**, by either instruction. -/
theorem operator_step {tail : Bool} {args : Value} {arg : Val} (hspot : Spot g.codes m.here [callOp tail] b)
    (harg : Denotes g.codes args arg) (hready : Ready g true k { m.here with ip := b } m.outer s)
    (hstep : Conf.retStep ⟨control, store, konts⟩ v (.operator tail args k) = some c') :
    Follows g c' (m.at m.here.ip (w :: arg :: s)) := by
  obtain ⟨hprocedure, hstep⟩ := Option.ite_none_right_eq_some.mp hstep
  obtain ⟨k', hbeyond, rfl⟩ := Option.map_eq_some_iff.mp hstep
  obtain ⟨p, hwithin, hsits⟩ := hspot
  have hm : Executing m p := hrem.executing hwithin
  obtain ⟨here', outer', rfl⟩ := hw.of_procedure hprocedure
  rcases hready.beyond hbeyond with ⟨rfl, rfl⟩ | ⟨rfl, ret, chain, s', rfl, hback⟩
  · obtain rfl : m.here.ip + 1 = b := hsits.rest
    have hcall : Runs (m.at m.here.ip (.closure here' outer' :: arg :: s))
        (Machine.entering m here' outer' { m.here with ip := m.here.ip + 1 } m.outer arg s) := hsits.op hm rfl
    exact .runs hcall (Mirrors.call hrem hw harg hready).follows
  · have hcall : Runs (m.at m.here.ip (.closure here' outer' :: arg :: .closure ret chain :: s'))
        (Machine.entering m here' outer' ret chain arg s') := hsits.op hm rfl
    exact .runs hcall (Mirrors.call hrem hw harg hback).follows

omit henv in
/-- **The procedure that was called with a captured continuation returns**, to where that leads. -/
theorem captured_step (hwithin : Within g.codes m.here g.p) (hip : m.here.ip = g.places.returned)
    (hstep : Conf.retStep ⟨control, store, konts⟩ v (.captured m.here.bindings) = some c') :
    Follows g c' (m.at m.here.ip [w]) := by
  obtain ⟨k', hk, rfl⟩ := Option.map_eq_some_iff.mp hstep
  obtain ⟨hnone, -, table, here', outer', s', htable, hsaved, hready⟩ := hrem.saved _ _ hk
  have hempty : ([] : List Val).length < 2 ^ 63 := by decide
  have hruns := g.has.runs_returned (hrem.executing hwithin) htable hsaved hempty (v := w)
  rw [hip]
  have hvalue (k : Kont) (hk' : konts m.here.bindings = some k) : ∃ here outer s,
      SavedIn (Function.update table "ret-val" (some w)) here outer s ∧ Ready g true k here outer s := by
    cases hk.symm.trans hk'
    exact ⟨here', outer', s', hsaved.bind_value w, hready⟩
  let m' := (m.setTable m.here.bindings (Function.update table "ret-val" (some w))).switch here' outer'
  have hrem' : Remembers g store konts m' := (hrem.setHidden hnone hvalue).congr rfl rfl rfl
  exact .runs hruns (Mirrors.ret hrem' hw hready).follows

end

/-- **The machine goes on with a value that is returned.** -/
theorem Ready.step {pushed : Bool} {here : Frame} {outer : List Frame} (h : Ready g pushed k here outer s)
    (hpushed : pushed = true) {m : Machine} (hhere : m.here = here) (houter : m.outer = outer)
    (hrem : Remembers g store konts m) {w : Val} (hw : Denotes g.codes v w)
    (hstep : Conf.retStep ⟨control, store, konts⟩ v k = some c') : Follows g c' (m.at here.ip (w :: s)) := by
  induction h generalizing m with
  | halt => cases hstep
  | captured hwithin hip ht =>
    subst hhere houter ht
    exact captured_step hrem hw hwithin hip hstep
  | jmp b hwithin hsits hl hready ih =>
    subst hhere houter
    exact .runs (hsits.jmp (hrem.executing hwithin) _ hl) (ih hpushed (m := m.at b []) rfl rfl (hrem.moved b []) hstep)
  | unit => cases hpushed
  | skip => cases hpushed
  | rest hspot henv hready =>
    subst hhere houter
    cases hstep
    obtain ⟨p, hwithin, hsits⟩ := hspot
    have hdrop {s} : Runs (m.at m.here.ip (w :: s)) (m.at (m.here.ip + 1) s) := hsits.op (hrem.executing hwithin) rfl
    exact .runs hdrop (Begins.follows (.stream ⟨p, hwithin, hsits.rest⟩ hready) hrem henv)
  | activation hspot hready =>
    subst hhere houter
    exact activation_step hrem hw hspot hready hstep
  | ifElse hspot henv hready =>
    subst hhere houter
    exact ifElse_step hrem hw henv hspot hready hstep
  | clause hspot henv hready =>
    subst hhere houter
    exact clause_step hrem hw henv hspot hready hstep
  | bool hspot henv hready =>
    subst hhere houter
    exact bool_step hrem hw henv hspot hready hstep
  | first hspot henv hready =>
    subst hhere houter
    exact first_step hrem hw henv hspot hready hstep
  | second hspot hw1 hready =>
    subst hhere houter
    exact second_step hrem hw hspot hw1 hready hstep
  | operand hspot henv harg hready =>
    subst hhere houter
    cases hstep
    obtain ⟨p, hwithin, hsits⟩ := hspot
    have hcons {arg s} : Runs (m.at m.here.ip (w :: arg :: s)) (m.at (m.here.ip + 1) (.pair w arg :: s)) :=
      hsits.op (hrem.executing hwithin) rfl
    exact .runs hcons (Begins.follows (.operands ⟨p, hwithin, hsits.rest⟩ (.pair hw harg) hready) hrem henv)
  | operator hspot harg hready =>
    subst hhere houter
    exact operator_step hrem hw hspot harg hready hstep
  | bind hspot henv hready =>
    subst hhere houter
    exact bind_step hrem hw henv hspot hready hstep
  | store hspot henv hready =>
    subst hhere houter
    exact store_step hrem hw henv hspot hready hstep

/-! ## Calls

A procedure of the program is entered at its code.  The routines of the library are run by their own lemmas:
what they leave on the stack and in the table of their frame is a continuation that has been captured. -/

/-- **The formals are bound to the arguments**, in the frame of the procedure. -/
theorem formals_step : ∀ {formals : Formals} {m : Machine} {store : Store} {a : ℕ} {args : Value} {arg : Val} {u : Unit},
    Executing m p → Remembers g store konts m → bindFormals m.here.bindings formals args store = .ok (u, store') →
      Denotes g.codes args arg → Sits p a formals.code b →
        ∃ m', Same m m' ∧ Remembers g store' konts m' ∧ Runs (m.at a (arg :: s)) (m'.at b s)
  | .fixed, m, store, a, args, arg, u, hm, hrem, hbind, hargs, hsits => by
    cases hbind
    obtain rfl : a + 1 = b := hsits.rest
    exact ⟨m, .refl m, hrem, hsits.op hm rfl⟩
  | .rest name, m, store, a, args, arg, u, hm, hrem, hbind, hargs, hsits => by
    obtain ⟨bindings, hbindings, -⟩ := setIn_ok hbind
    obtain ⟨table, htable, -⟩ := hrem.agrees.scopes _ _ hbindings
    obtain ⟨a', hend, hruns⟩ := hsits.bind hm name.noNul htable arg s
    obtain rfl : a' = b := hend
    exact ⟨m.setTable m.here.bindings (Function.update table name.bytes (some arg)), ⟨rfl, rfl, rfl⟩,
      hrem.set hbind hargs htable, hruns⟩
  | .cons name next, m, store, a, args, arg, u, hm, hrem, hbind, hargs, hsits => by
    cases hargs with
    | @pair car cdr first others hcar hcdr =>
      obtain ⟨_, store1, hset, hbind⟩ := bind_ok hbind
      obtain ⟨bindings, hbindings, -⟩ := setIn_ok hset
      obtain ⟨table, htable, -⟩ := hrem.agrees.scopes _ _ hbindings
      obtain ⟨a', hsitsNext, hruns⟩ := hsits.rest.rest.bind hm name.noNul htable first (.pair first others :: s)
      let m1 := m.setTable m.here.bindings (Function.update table name.bytes (some first))
      have hm1 : Executing m1 p := hm
      have hsame1 : Same m m1 := ⟨rfl, rfl, rfl⟩
      have hrem1 : Remembers g store1 konts m1 := hrem.set hset hcar htable
      have hdup : Runs (m.at a (.pair first others :: s))
          (m.at (a + 1) (.pair first others :: .pair first others :: s)) := hsits.op hm rfl
      have hcarRuns : Runs (m.at (a + 1) (.pair first others :: .pair first others :: s))
          (m.at (a + 1 + 1) (first :: .pair first others :: s)) := hsits.rest.op hm rfl
      have hbound := hdup.trans (hcarRuns.trans hruns)
      cases next with
      | fixed =>
        -- the last formal does not look behind its argument
        have hbind' : bindFormals m1.here.bindings .fixed (.pair car cdr) store1 = .ok (u, store') := hbind
        obtain ⟨m', hsame, hrem', hruns'⟩ := formals_step hm1 hrem1 hbind' (.pair hcar hcdr) hsitsNext
        exact ⟨m', hsame1.trans hsame, hrem', hbound.trans hruns'⟩
      | rest name' =>
        obtain ⟨m', hsame, hrem', hruns'⟩ := formals_step hm1 hrem1 hbind hcdr hsitsNext.rest
        exact ⟨m', hsame1.trans hsame, hrem', hbound.trans ((hsitsNext.op hm1 rfl).trans hruns')⟩
      | cons name' next' =>
        obtain ⟨m', hsame, hrem', hruns'⟩ := formals_step hm1 hrem1 hbind hcdr hsitsNext.rest
        exact ⟨m', hsame1.trans hsame, hrem', hbound.trans ((hsitsNext.op hm1 rfl).trans hruns')⟩
    | _ => cases hbind

section

variable {args : Value} {arg : Val} {ret : Frame} {chain : List Frame} (hrem : Remembers g store konts m)
  (harg : Denotes g.codes args arg) (hready : Ready g true k ret chain s)

include hrem harg hready

/-- **A procedure is entered**, and goes on with its body. -/
theorem closure_step {formals : Formals} {body : Stream} {here : Frame} {outer : List Frame}
    (hentry : Entry g.codes here formals body)
    (hstep : Conf.callStep g.routines ⟨control, store, konts⟩ (.closure formals body (scopesOf (here :: outer))) args k =
      some c') : Follows g c' (Machine.entering m here outer ret chain arg s) := by
  obtain ⟨t, store2, hbind, rfl⟩ := Conf.ran_some hstep
  obtain ⟨_, _, hscope, hbind⟩ := bind_ok hbind
  rw [newScope_run] at hscope
  cases hscope
  obtain ⟨u, _, hbind, ⟨⟩⟩ := bind_ok hbind
  obtain ⟨p, i, b, hcode, hlength, hsits⟩ := hentry
  obtain ⟨a1, hsitsFormals, hsitsBody⟩ := sits_append.mp hsits.rest
  obtain ⟨a2, hsitsBody, hsitsRet⟩ := sits_append.mp hsitsBody
  let m1 := Machine.entering m here outer ret chain arg s
  have hwithin : Within g.codes m1.here p := ⟨hcode, hlength⟩
  have hrem0 : Remembers g store konts ({ m with stack := .closure ret chain :: arg :: s }.switch here outer) :=
    hrem.congr rfl rfl rfl
  have hrem1 : Remembers g store.child konts m1 := hrem0.child
  have hm1 : Executing m1 p := hrem1.executing hwithin
  have hswap : Runs m1 (m1.at (here.ip + 1) (arg :: .closure ret chain :: s)) := hsits.op hm1 rfl
  rw [hrem.agrees.next] at hbind
  obtain ⟨m2, hsame, hrem2, hruns⟩ := formals_step (s := .closure ret chain :: s) hm1 hrem1 hbind harg hsitsFormals
  have hwithin2 : Within g.codes m2.here p := by
    rw [hsame.here]
    exact hwithin
  have hactivation : Ready g true (.activation k) { m2.here with ip := a2 } m2.outer (.closure ret chain :: s) :=
    .activation ⟨p, hwithin2, hsitsRet⟩ hready
  have henv : scopesOf (m2.here :: m2.outer) = store.next :: scopesOf (here :: outer) := by
    rw [hsame.here, hsame.outer, hrem.agrees.next]
    rfl
  exact .runs (hswap.trans hruns) (Begins.follows (.stream ⟨p, hwithin2, hsitsBody⟩ hactivation) hrem2 henv)

omit hrem harg hready in
/-- What `prim-call/cc` has bound: the procedure that it was given. -/
theorem savedBindings_proc (b : Bindings) (proc ret : Val) (s : List Val) :
    savedBindings b proc ret s "proc" = some proc := by
  rw [savedBindings, Function.update_of_ne (by decide +kernel), Function.update_of_ne (by decide +kernel),
    Function.update_self]

omit hrem harg hready in
/-- And the continuation, as the stack that it has saved and the place to return to. -/
theorem savedBindings_saved (b : Bindings) (proc : Val) (here : Frame) (outer : List Frame) (s : List Val) :
    SavedIn (savedBindings b proc (.closure here outer) s) here outer s where
  ret := by rw [savedBindings, Function.update_of_ne (by decide +kernel), Function.update_self]
  save := by rw [savedBindings, Function.update_self]

/-- **The continuation is captured**, and the procedure called with it. -/
theorem callCc_step
    (hstep : Conf.routineStep g.routines ⟨control, store, konts⟩ args k .callCc = some c') :
    Follows g c' (Machine.entering m { g.main with ip := g.places.entry } g.outer ret chain arg s) := by
  cases harg with
  | @pair proc rest wproc wrest hproc hrest =>
    obtain ⟨⟨hprocedure, hdepth⟩, ⟨⟩⟩ := Option.ite_none_right_eq_some.mp hstep
    obtain ⟨here, outer, rfl⟩ := hproc.of_procedure hprocedure
    have hlt : s.length < 2 ^ 63 := by
      rw [hready.depth]
      exact hdepth
    let m1 := Machine.entering m { g.main with ip := g.places.entry } g.outer ret chain (.pair (.closure here outer) wrest) s
    have hm1 : Executing m1 g.p := (hrem.entering ..).executing g.within
    have hnone : m1.tables m1.here.bindings = some fun _ => none := Function.update_self ..
    let table := savedBindings (fun _ => none) (.closure here outer) (.closure ret chain) s
    let m2 := m1.setTable m1.here.bindings table
    have hentry : Runs m1 (m2.at g.places.saveExit []) := g.has.runs_entry hm1 hnone hlt
    have hexit := g.has.runs_saveExit (m := m2) hm1 (setTable_tables ..) (savedBindings_proc ..)
    have ht : m1.here.bindings = store.next := hrem.agrees.next.symm
    have hunknown : store.skip.scopes m1.here.bindings = none := by
      rw [ht]
      exact hrem.unknown
    have hbelow : m1.here.bindings < store.skip.next := by
      rw [ht]
      exact Nat.lt_succ_self _
    have hnew (k : Kont) (hk : konts m1.here.bindings = some k) : ∃ here outer s,
        SavedIn table here outer s ∧ Ready g true k here outer s := by
      obtain ⟨-, hlt, -⟩ := hrem.saved _ _ hk
      exact absurd hlt (ht ▸ lt_irrefl _)
    have hrem2 : Remembers g store.skip (Function.update konts store.next (some k)) m2 := by
      rw [← ht]
      exact ((hrem.entering ..).setHidden hunknown hnew).capture hunknown hbelow (setTable_tables ..)
        (savedBindings_saved ..) hready
    have harg : Denotes g.codes (.pair (.other (g.routines.exit store.next)) .empty) (.list [exitClosure g.places m2]) := by
      rw [← ht]
      exact .pair (.other _) .empty
    have hback : Ready g true (.captured store.next) { m2.here with ip := g.places.returned } m2.outer [] :=
      .captured g.within rfl ht
    exact .runs (hentry.trans hexit) (Mirrors.call hrem2 hproc harg hback).follows
  | _ => cases hstep

/-- **A captured continuation is gone back to**, with all that was on the stack then. -/
theorem exit_step {t : ℕ}
    (hstep : Conf.routineStep g.routines ⟨control, store, konts⟩ args k (.exit t) = some c') :
    Follows g c' (Machine.entering m (g.frame t) ({ g.main with ip := g.places.entry } :: g.outer) ret chain arg s) := by
  cases harg with
  | @pair v rest w wrest hw hrest =>
    obtain ⟨hdepth, hstep⟩ := Option.ite_none_right_eq_some.mp hstep
    obtain ⟨k', hk, rfl⟩ := Option.map_eq_some_iff.mp hstep
    have hlt : s.length < 2 ^ 63 := by
      rw [hready.depth]
      exact hdepth
    obtain ⟨hnone, hbelow, table, here, outer, s', htable, hsaved, hready'⟩ := hrem.saved t k' hk
    have hne : m.next ≠ t := hrem.agrees.next ▸ hbelow.ne'
    let m1 := Machine.entering m (g.frame t) ({ g.main with ip := g.places.entry } :: g.outer) ret chain
      (.pair w wrest) s
    have hrem1 : Remembers g store.skip konts m1 := hrem.entering ..
    have hnew : m1.tables m1.here.bindings = some fun _ => none := Function.update_self ..
    have htable1 : m1.tables t = some table := (Function.update_of_ne hne.symm ..).trans htable
    let m2 := m1.setTable m1.here.bindings (Function.update (fun _ => none) "ret-val" (some w))
    have hruns : Runs (m1.at g.places.exit (.closure ret chain :: .pair w wrest :: s))
        ((m2.at 0 (w :: s')).switch here outer) :=
      g.has.runs_exit (hrem1.executing g.within) hnew rfl rfl rfl hne htable1 hsaved hlt
    have hunknown : store.skip.scopes m1.here.bindings = none := by
      have ht : m1.here.bindings = store.next := hrem.agrees.next.symm
      rw [ht]
      exact hrem.unknown
    have hfree (k : Kont) (hk : konts m1.here.bindings = some k) : ∃ here outer s,
        SavedIn (Function.update (fun _ => none) "ret-val" (some w)) here outer s ∧ Ready g true k here outer s := by
      obtain ⟨-, hlt, -⟩ := hrem.saved _ _ hk
      exact absurd hlt (hrem.agrees.next ▸ lt_irrefl _)
    have hrem2 : Remembers g store.skip konts (m2.switch here outer) :=
      (hrem1.setHidden hunknown hfree).congr rfl rfl rfl
    exact .runs hruns (Mirrors.ret hrem2 hw hready').follows
  | _ => cases hstep

/-- A routine that only calculates. -/
theorem prim_step {o : Prim}
    (hstep : Conf.routineStep g.routines ⟨control, store, konts⟩ args k (.prim o) = some c') :
    Follows g c' (Machine.entering m { g.main with ip := (g.p.labels o.label).getD 0 } g.outer ret chain arg s) := by
  obtain ⟨v, happly, rfl⟩ := Option.map_eq_some_iff.mp hstep
  obtain ⟨a, b, ha, hsits⟩ := g.prims o
  rw [ha, Option.getD_some]
  let m1 := Machine.entering m { g.main with ip := a } g.outer ret chain arg s
  have hrem1 : Remembers g store.skip konts m1 := hrem.entering ..
  have hm1 : Executing m1 g.p := hrem1.executing g.within
  obtain ⟨w, hw, hruns⟩ : ∃ w, Denotes g.codes v w ∧ Runs m1 ((m1.switch ret chain).at ret.ip (w :: s)) := by
    have hswap : Runs m1 (m1.at (a + 1) (arg :: .closure ret chain :: s)) := by
      cases o <;> exact hsits.op hm1 rfl
    have hback {w : Val} : Runs (m1.at (a + 1 + 1 + 1) (w :: .closure ret chain :: s))
        ((m1.switch ret chain).at ret.ip (w :: s)) := by
      cases o <;> exact (hsits.rest.rest.rest.op hm1 rfl).trans (hsits.rest.rest.rest.rest.op hm1 rfl)
    cases o with
    | car =>
      cases harg with
      | pair hfirst hrest =>
        cases hfirst with
        | @pair car cdr w1 w2 hcar hcdr =>
          cases happly
          have hruns {wrest : Val} : Runs (m1.at (a + 1) (.pair (.pair w1 w2) wrest :: .closure ret chain :: s))
              (m1.at (a + 1 + 1 + 1) (w1 :: .closure ret chain :: s)) :=
            (hsits.rest.op hm1 rfl).trans (hsits.rest.rest.op hm1 rfl)
          exact ⟨w1, hcar, hswap.trans (hruns.trans hback)⟩
        | _ => cases happly
      | _ => cases happly
    | cdr =>
      cases harg with
      | pair hfirst hrest =>
        cases hfirst with
        | @pair car cdr w1 w2 hcar hcdr =>
          cases happly
          have hruns {wrest : Val} : Runs (m1.at (a + 1) (.pair (.pair w1 w2) wrest :: .closure ret chain :: s))
              (m1.at (a + 1 + 1 + 1) (w2 :: .closure ret chain :: s)) :=
            (hsits.rest.op hm1 rfl).trans (hsits.rest.rest.op hm1 rfl)
          exact ⟨w2, hcdr, hswap.trans (hruns.trans hback)⟩
        | _ => cases happly
      | _ => cases happly
    | depth =>
      cases happly
      have hdrop : Runs (m1.at (a + 1) (arg :: .closure ret chain :: s)) (m1.at (a + 1 + 1) (.closure ret chain :: s)) :=
        hsits.rest.op hm1 rfl
      have hdepth : Runs (m1.at (a + 1 + 1) (.closure ret chain :: s)) (m1.at (a + 1 + 1 + 1)
          (.fixnum (Int64.ofInt (k.depth + 1 : ℕ)) :: .closure ret chain :: s)) := by
        rw [← hready.depth]
        exact hsits.rest.rest.op hm1 rfl
      exact ⟨_, .fixnum _, hswap.trans (hdrop.trans (hdepth.trans hback))⟩
  have hrem2 : Remembers g store.skip konts (m1.switch ret chain) := hrem1.congr rfl rfl rfl
  exact .runs hruns (Mirrors.ret hrem2 hw hready).follows

end

/-- **The machine makes a call.** -/
theorem call_step {f args : Value} {arg : Val} {here ret : Frame} {outer chain : List Frame}
    (hrem : Remembers g store konts m) (hf : Denotes g.codes f (.closure here outer)) (harg : Denotes g.codes args arg)
    (hready : Ready g true k ret chain s)
    (hstep : Conf.callStep g.routines ⟨control, store, konts⟩ f args k = some c') :
    Follows g c' (Machine.entering m here outer ret chain arg s) := by
  cases hf with
  | closure hentry => exact closure_step hrem harg hready hentry hstep
  | other =>
    obtain ⟨role, hrole, hroutine⟩ := Option.bind_eq_some_iff.mp hstep
    have hobject := Routines.object_role hrole
    cases role with
    | callCc =>
      cases hobject
      exact callCc_step hrem harg hready hroutine
    | exit t =>
      cases hobject
      exact exit_step hrem harg hready hroutine
    | prim o =>
      cases hobject
      exact prim_step hrem harg hready hroutine

/-- **A step is followed by the machine.** -/
theorem Mirrors.step (h : Mirrors g c m) (hstep : c.step g.routines = some c') : Follows g c' m := by
  cases h with
  | eval hrem henv hbegins => exact hbegins.step hrem henv hstep
  | @ret _ _ _ _ _ m ip s hrem hw hready => exact hready.step rfl (m := m.at ip []) rfl rfl (hrem.moved ip []) hw hstep
  | skipped hrem henv hbegins =>
    cases hstep
    exact hbegins.follows hrem henv
  | call hrem hf harg hready => exact call_step hrem hf harg hready hstep

/-- **So are all of them.** -/
theorem Mirrors.steps (h : Mirrors g c m) (hsteps : Conf.Steps g.routines c c') : Follows g c' m := by
  induction hsteps with
  | refl => exact h.follows
  | tail _ hstep ih =>
    obtain ⟨m', hruns, hmirrors⟩ := ih
    exact .runs hruns (hmirrors.step hstep)

end

end Insomniac.Compile

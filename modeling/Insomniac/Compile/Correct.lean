import Insomniac.Compile.Agrees

/-!
# Compile/Correct — emitted code computes what its stream means

    store  ⊢  env, tree  ──eval──▸  v, store'
      │                             │
      m.at a s ────────Runs──────▸  exit m' w            w is v, and m' agrees with store'

Code is left in one of two ways: at its end, with its value on the stack, or, at a tail position, by a
return to the closure below it.  One statement covers both (`Leaves`), so that the code around a tail
position is followed once.  The proof is by induction on the fuel of the evaluation, one lemma for each
kind of node.
-/

open Insomniac.Asm Insomniac.Vm Insomniac.Abstract Insomniac.Lib Run

namespace Insomniac.Compile

/-! ## How code is run

`Lands` says where the machine comes to with the value: to the exit of the code, on a stack with that value, in
a state that agrees with the store.  Steps that come before it can be put in front. -/

/-- Where an evaluation stands on the machine. -/
structure Stage (p : Program) (env : List ℕ) (store : Store) (m : Machine) : Prop where
  executing : Executing m p
  env : scopesOf (m.here :: m.outer) = env
  agrees : Agrees store m

/-- **How code that ends at `b` is left**, with a value on top of a stack.  Where tail calls are allowed it
leaves by a return to the closure on the stack. -/
structure Leaves (p : Program) (tail : Bool) (b : ℕ) (s : List Val) (exit : Machine → Val → Machine) : Prop where
  onward : ∀ m w, Executing m p → Runs (m.at b (w :: s)) (exit m w)
  returns : tail = true → ∃ here outer s', s = .closure here outer :: s' ∧
    exit = fun m w => (m.switch here outer).at here.ip (w :: s')

/-- **A run that leaves with a value**, in a state that a store agrees with. -/
def Lands (store' : Store) (v : Value) (m : Machine) (a : ℕ) (s : List Val) (exit : Machine → Val → Machine) : Prop :=
  ∃ m' w, Same m m' ∧ Denotes m.codes v w ∧ Agrees store' m' ∧ Runs (m.at a s) (exit m' w)

section

variable {p : Program} {env : List ℕ} {store store' : Store} {m m' : Machine} {a a' b c k : ℕ} {s s' : List Val}
  {tail : Bool} {exit : Machine → Val → Machine} {v : Value}

/-- The stage is the same where the machine has not changed but for what the store says. -/
theorem Stage.same (h : Stage p env store m) (hsame : Same m m') (hagrees : Agrees store' m') :
    Stage p env store' m' := ⟨hsame.executing h.executing, hsame.scopes.trans h.env, hagrees⟩

/-- Code that is left at its end. -/
theorem Leaves.next : Leaves p false b s (fun m w => m.at b (w :: s)) where
  onward _ _ _ := .refl
  returns := nofun

/-- Code in front of a jump. -/
theorem Leaves.jmp (h : Leaves p tail b s exit) {l : List UInt8} {ts : List Tok}
    (hsits : Sits p a (jumpLabel l .jmp :: ts) c) (hl : p.labels l = some b ∧ b < 2 ^ 63) :
    Leaves p tail a s exit where
  onward m w hm := (hsits.jmp hm (w :: s) hl).trans (h.onward m w hm)
  returns := h.returns

/-- Code in front of `swap ret`, with a closure to return to on the stack. -/
theorem Leaves.ret {here : Frame} {outer : List Frame} {ts : List Tok}
    (hsits : Sits p b (.op .swap Op.noOperand :: .op .ret Op.noOperand :: ts) c) :
    Leaves p tail b (.closure here outer :: s) fun m w => (m.switch here outer).at here.ip (w :: s) where
  onward _ _ hm := (hsits.op hm rfl).trans (hsits.rest.op hm rfl)
  returns _ := ⟨here, outer, s, rfl, rfl⟩

/-- Steps that change nothing may come first. -/
theorem Lands.same (hsame : Same m m') (hruns : Runs (m.at a s) (m'.at a' s'))
    (h : Lands store' v m' a' s' exit) : Lands store' v m a s exit := by
  obtain ⟨m'', w, hsame', hw, hagrees, hruns'⟩ := h
  exact ⟨m'', w, hsame.trans hsame', hsame.codes ▸ hw, hagrees, hruns.trans hruns'⟩

/-- So may steps on the same state. -/
theorem Lands.runs (hruns : Runs (m.at a s) (m.at a' s')) (h : Lands store' v m a' s' exit) :
    Lands store' v m a s exit := .same (.refl m) hruns h

/-- **A run to the end of the code**, and on. -/
theorem Stage.lands (h : Stage p env store m) (hleaves : Leaves p tail b s exit) (hsame : Same m m')
    (hagrees : Agrees store' m') {w : Val} (hw : Denotes m.codes v w) (hruns : Runs (m.at a s') (m'.at b (w :: s))) :
    Lands store' v m a s' exit :=
  ⟨m', w, hsame, hw, hagrees, hruns.trans (hleaves.onward m' w (hsame.executing h.executing))⟩

end

/-! ## The statement

One field for each function of the evaluator, so that the induction on the fuel has the parts of a node and the
bodies of closures at once. -/

/-- **What is emitted computes what it means**, for evaluations with some fuel. -/
structure Correct (fuel : ℕ) : Prop where
  node : ∀ {p env store store' m a b k s tail exit v} {node : Node}, Stage p env store m →
    evalNode fuel env node store = .ok (v, store') → node.pushes = true → Sits p a (emitNode node tail k).1 b →
      Leaves p tail b s exit → Lands store' v m a s exit
  effect : ∀ {p env store store' m a b k tail v} {node : Node} (s : List Val), Stage p env store m →
    evalNode fuel env node store = .ok (v, store') → node.pushes = false → Sits p a (emitNode node tail k).1 b →
      v = .empty ∧ ∃ m', Same m m' ∧ Agrees store' m' ∧ Runs (m.at a s) (m'.at b s)
  stream : ∀ {p env store store' m a b k s tail exit v} {tree : Stream}, Stage p env store m →
    evalStream fuel env tree store = .ok (v, store') → Sits p a (emitStream tree tail k).1 b →
      Leaves p tail b s exit → Lands store' v m a s exit
  clauses : ∀ {p env store store' m a b c k s tail exit v ts} {clauses : Clauses} {done : List UInt8},
    Stage p env store m → evalClauses fuel env clauses store = .ok (v, store') →
      Sits p a (emitClauses clauses done tail k).1 b → Sits p b (unit :: ts) c →
        p.labels done = some (b + 1) ∧ b + 1 < 2 ^ 63 →
        Leaves p tail (b + 1) s exit → Lands store' v m a s exit
  bool : ∀ {p env store store' m a b k s exit v} {nodes : Stream} {done : List UInt8} {andOr : Bool},
    Stage p env store m → evalBool fuel env andOr nodes store = .ok (v, store') →
      Sits p a (emitBool nodes done andOr k).1 b → p.labels done = some b ∧ b < 2 ^ 63 →
        Leaves p false b s exit → Lands store' v m a s exit
  operands : ∀ {p env store store' m a b k args v} {arg : Val} {operands : Stream} (s : List Val),
    Stage p env store m → evalOperands fuel env operands args store = .ok (v, store') → Denotes m.codes args arg →
      Sits p a (emitOperands operands k).1 b → Lands store' v m a (arg :: s) fun m w => m.at b (w :: s)
  call : ∀ {store store' m args f v} {wf arg : Val}, Agrees store m → evalCall fuel f args store = .ok (v, store') →
    Denotes m.codes f wf → Denotes m.codes args arg → ∃ here outer, wf = .closure here outer ∧
      ∀ (ret : Frame) (chain : List Frame) (s : List Val), ∃ m' w,
        Same m m' ∧ Denotes m.codes v w ∧ Agrees store' m' ∧
          Runs (({ m with stack := .closure ret chain :: arg :: s }.switch here outer).child)
          ((m'.switch ret chain).at ret.ip (w :: s))

/-! ## Nodes

Each lemma takes apart the code of its node as the emitter put it together, and runs the parts one after the
other.  A tail position hands the exit on to its part. -/

section

variable {fuel : ℕ} {p : Program} {env : List ℕ} {store store' : Store} {m : Machine} {a b c k : ℕ} {s : List Val}
  {tail : Bool} {exit : Machine → Val → Machine} {v : Value}

theorem literal_lands (hstage : Stage p env store m) (l : Literal)
    (heval : evalNode (fuel + 1) env (.literal l) store = .ok (v, store'))
    (hsits : Sits p a (emitNode (.literal l) tail k).1 b) (hleaves : Leaves p tail b s exit) :
    Lands store' v m a s exit := by
  cases heval
  obtain ⟨w, hw, hruns⟩ := l.denotes m.codes
  obtain rfl : a + l.token.size = b := hsits.rest
  exact hstage.lands hleaves (.refl m) hstage.agrees hw (hruns p a _ [] m s hsits hstage.executing)

theorem load_lands (hstage : Stage p env store m) (name : Text)
    (heval : evalNode (fuel + 1) env (.load name) store = .ok (v, store'))
    (hsits : Sits p a (emitNode (.load name) tail k).1 b) (hleaves : Leaves p tail b s exit) :
    Lands store' v m a s exit := by
  obtain ⟨_, _, ⟨⟩, heval⟩ := bind_ok heval
  obtain ⟨⟨t, _⟩, _, hknown, ⟨⟩⟩ := bind_ok heval
  obtain ⟨hfind, rfl⟩ := known_ok hknown
  rw [← hstage.env] at hfind
  obtain ⟨w, table, hfound, hw, -⟩ := hstage.agrees.find hfind
  obtain rfl : _ = b := hsits.rest.rest
  refine hstage.lands hleaves (.refl m) hstage.agrees hw ((hsits.symbol hstage.executing s).trans
    (hsits.rest.op hstage.executing ?_))
  change (findFrame m.tables name.bytes (m.here :: m.outer)).map _ = _
  rw [hfound]
  rfl

theorem ifElse_lands (h : Correct fuel) (hstage : Stage p env store m) {test yes no : Stream}
    (heval : evalNode (fuel + 1) env (.ifElse test yes no) store = .ok (v, store'))
    (hsits : Sits p a (emitNode (.ifElse test yes no) tail k).1 b) (hleaves : Leaves p tail b s exit) :
    Lands store' v m a s exit := by
  obtain ⟨vt, store1, htest, heval⟩ := bind_ok heval
  obtain ⟨isFalse, _, hknown, heval⟩ := bind_ok heval
  obtain ⟨hfalse, rfl⟩ := known_ok hknown
  obtain ⟨a1, hsitsTest, hsitsJnf⟩ := sits_append.mp hsits
  obtain ⟨a2, hsitsNo, hsitsJmp⟩ := sits_append.mp hsitsJnf.rest
  obtain ⟨a3, hsitsYes, hsitsDone⟩ := sits_append.mp hsitsJmp.rest.rest
  obtain rfl : a3 = b := hsitsDone.rest
  obtain ⟨m1, w, hsame, hw, hagrees, hruns⟩ := h.stream hstage htest hsitsTest .next
  have hstage1 := hstage.same hsame hagrees
  have hjnf := hsitsJnf.jnf hstage1.executing s hsitsJmp.rest.label (hw.isFalse.trans hfalse)
  refine .same hsame (hruns.trans hjnf) ?_
  cases isFalse with
  | false => exact h.stream hstage1 heval hsitsYes hleaves
  | true => exact h.stream hstage1 heval hsitsNo (hleaves.jmp hsitsJmp hsitsDone.label)

theorem cond_lands (h : Correct fuel) (hstage : Stage p env store m) {clauses : Clauses}
    (heval : evalNode (fuel + 1) env (.cond clauses) store = .ok (v, store'))
    (hsits : Sits p a (emitNode (.cond clauses) tail k).1 b) (hleaves : Leaves p tail b s exit) :
    Lands store' v m a s exit := by
  obtain ⟨a1, hsitsClauses, hsitsEnd⟩ := sits_append.mp hsits
  obtain rfl : a1 + 1 = b := hsitsEnd.rest.rest
  exact h.clauses hstage heval hsitsClauses hsitsEnd hsitsEnd.rest.label hleaves

theorem bool_lands (h : Correct fuel) (hstage : Stage p env store m) {nodes : Stream} {andOr : Bool}
    (heval : evalBool fuel env andOr nodes store = .ok (v, store'))
    (hsits : Sits p a ((emitBool nodes (labelText k) andOr (k + 1)).1 ++ [.label (labelText k)]) b)
    (hleaves : Leaves p tail b s exit) : Lands store' v m a s exit := by
  obtain ⟨a1, hsitsNodes, hsitsEnd⟩ := sits_append.mp hsits
  obtain rfl : a1 = b := hsitsEnd.rest
  obtain ⟨m', w, hsame, hw, hagrees, hruns⟩ := h.bool hstage heval hsitsNodes hsitsEnd.label .next
  exact hstage.lands hleaves hsame hagrees hw hruns

/-- What a calculation does on the machine. -/
theorem MathOp.exec (o : MathOp) {x y : Int64} (h : o.apply x y = some v) : ∃ w, Denotes m.codes v w ∧
    ∀ {a b ts}, Sits p a (o.token :: ts) b → Executing m p →
      Runs (m.at a (.fixnum y :: .fixnum x :: s)) (m.at (a + 1) (w :: s)) := by
  cases o with
  | add =>
    cases h
    exact ⟨_, .fixnum _, fun hsits hm => hsits.op hm rfl⟩
  | sub =>
    cases h
    exact ⟨_, .fixnum _, fun hsits hm => hsits.op hm rfl⟩
  | mul =>
    cases h
    exact ⟨_, .fixnum _, fun hsits hm => hsits.op hm rfl⟩
  | div =>
    simp only [MathOp.apply] at h
    split at h
    · cases h
    · next hok =>
      cases h
      refine ⟨_, .fixnum _, fun {a b ts} hsits hm => hsits.op hm ?_⟩
      change (Machine.divide (· / ·) x y).map _ = _
      rw [Machine.divide, if_neg hok]
      rfl
  | mod =>
    simp only [MathOp.apply] at h
    split at h
    · cases h
    · next hok =>
      cases h
      refine ⟨_, .fixnum _, fun {a b ts} hsits hm => hsits.op hm ?_⟩
      change (Machine.divide (· % ·) x y).map _ = _
      rw [Machine.divide, if_neg hok]
      rfl
  | equal =>
    cases h
    exact ⟨_, .bool _, fun hsits hm => hsits.op hm rfl⟩
  | lt =>
    cases h
    exact ⟨_, .bool _, fun hsits hm => hsits.op hm rfl⟩
  | gt =>
    cases h
    exact ⟨_, .bool _, fun hsits hm => hsits.op hm rfl⟩

theorem MathOp.token_size (o : MathOp) : o.token.size = 1 := by cases o <;> rfl

/-- An operation, the second operand first. -/
theorem math_lands (h : Correct fuel) (hstage : Stage p env store m) {o : MathOp} {stream1 stream2 : Stream}
    (heval : evalNode (fuel + 1) env (.math o stream1 stream2) store = .ok (v, store'))
    (hsits : Sits p a (emitNode (.math o stream1 stream2) tail k).1 b) (hleaves : Leaves p tail b s exit) :
    Lands store' v m a s exit := by
  obtain ⟨v1, store1, heval1, heval⟩ := bind_ok heval
  obtain ⟨v2, store2, heval2, heval⟩ := bind_ok heval
  obtain ⟨a1, hsits1, hsits⟩ := sits_append.mp hsits
  obtain ⟨a2, hsits2, hsitsOp⟩ := sits_append.mp hsits
  obtain rfl : a2 + 1 = b := o.token_size ▸ hsitsOp.rest
  obtain ⟨m1, w1, hsame1, hw1, hagrees1, hruns1⟩ := h.stream hstage heval1 hsits1 .next
  have hstage1 := hstage.same hsame1 hagrees1
  refine .same hsame1 hruns1 ?_
  obtain ⟨m2, w2, hsame2, hw2, hagrees2, hruns2⟩ := h.stream (s := w1 :: s) hstage1 heval2 hsits2 .next
  have hstage2 := hstage1.same hsame2 hagrees2
  refine .same hsame2 hruns2 ?_
  unfold calculate at heval
  split at heval
  · next x y =>
    obtain ⟨happly, rfl⟩ := known_ok heval
    cases hw1
    cases hw2
    obtain ⟨w, hw, hruns⟩ := o.exec (m := m2) (p := p) (s := s) happly
    exact hstage2.lands hleaves (.refl m2) hagrees2 hw (hruns hsitsOp hstage2.executing)
  · cases heval

/-- A lambda makes a closure and goes on behind its body. -/
theorem lambda_lands (hstage : Stage p env store m) {formals : Formals} {body : Stream}
    (heval : evalNode (fuel + 1) env (.lambda formals body) store = .ok (v, store'))
    (hsits : Sits p a (emitNode (.lambda formals body) tail k).1 b) (hleaves : Leaves p tail b s exit) :
    Lands store' v m a s exit := by
  cases heval
  obtain ⟨a1, hsitsBody, hsitsProc⟩ := sits_append.mp hsits.rest.rest
  obtain rfl : a1 + 9 = b := hsitsProc.rest.rest
  have hentry : Entry m.codes { m.here with ip := a + 9 } formals body :=
    ⟨p, _, a1, hstage.executing.1, hstage.executing.2, hsitsBody⟩
  have hw : Denotes m.codes (.closure formals body env) (.closure { m.here with ip := a + 9 } m.outer) := by
    rw [← hstage.env]
    exact .closure hentry
  refine hstage.lands hleaves (.refl m) hstage.agrees hw ?_
  exact (hsits.jmp hstage.executing s hsitsProc.label).trans
    (hsitsProc.rest.proc hstage.executing s hsits.rest.label)

/-! ## Nodes that push nothing

`define` and `set!` leave no value.  The stream around them pushes `()` where one is needed, so they are
followed without an exit. -/

/-- A name is bound in the frame of a state. -/
theorem setIn_runs (hm : Executing m p) (hagrees : Agrees store m) {name : Text} {w : Val} {u : Unit} {ts : List Tok}
    (hset : setIn m.here.bindings name.bytes v store = .ok (u, store')) (hw : Denotes m.codes v w)
    (hsits : Sits p a (.symbol name.bytes :: .op .bind Op.noOperand :: ts) b) :
    ∃ a' m', Same m m' ∧ Agrees store' m' ∧ Sits p a' ts b ∧ Runs (m.at a (w :: s)) (m'.at a' s) := by
  obtain ⟨bindings, hbindings, -⟩ := setIn_ok hset
  obtain ⟨table, htable, -⟩ := hagrees.scopes _ _ hbindings
  refine ⟨_, m.setTable m.here.bindings (Function.update table name.bytes (some w)), ⟨rfl, rfl, rfl⟩,
    hagrees.set hset hw htable, hsits.rest.rest, (hsits.symbol hm (w :: s)).trans (hsits.rest.op hm ?_)⟩
  change Machine.setIn _ m.here.bindings name.bytes w = _
  rw [Machine.setIn]
  change m.tables m.here.bindings >>= _ = _
  rw [htable]
  rfl

theorem bind_runs (h : Correct fuel) (hstage : Stage p env store m) {value : Stream} {name : Text}
    (heval : evalNode (fuel + 1) env (.bind value name) store = .ok (v, store'))
    (hsits : Sits p a (emitNode (.bind value name) tail k).1 b) :
    v = .empty ∧ ∃ m', Same m m' ∧ Agrees store' m' ∧ Runs (m.at a s) (m'.at b s) := by
  obtain ⟨v1, store1, hvalue, heval⟩ := bind_ok heval
  obtain ⟨_, store2, hset, ⟨⟩⟩ := bind_ok heval
  obtain ⟨a1, hsitsValue, hsitsBind⟩ := sits_append.mp hsits
  obtain ⟨m1, w, hsame, hw, hagrees, hruns⟩ := h.stream hstage hvalue hsitsValue .next
  have hstage1 := hstage.same hsame hagrees
  rw [← hstage1.env] at hset
  obtain ⟨a', m', hsame', hagrees', hend, hruns'⟩ :=
    setIn_runs (s := s) hstage1.executing hagrees hset (hsame.codes ▸ hw) hsitsBind
  obtain rfl : a' = b := hend
  exact ⟨rfl, m', hsame.trans hsame', hagrees', hruns.trans hruns'⟩

theorem store_runs (h : Correct fuel) (hstage : Stage p env store m) {value : Stream} {name : Text}
    (heval : evalNode (fuel + 1) env (.store value name) store = .ok (v, store'))
    (hsits : Sits p a (emitNode (.store value name) tail k).1 b) :
    v = .empty ∧ ∃ m', Same m m' ∧ Agrees store' m' ∧ Runs (m.at a s) (m'.at b s) := by
  obtain ⟨v1, store1, hvalue, hrest⟩ := bind_ok heval
  obtain ⟨_, _, ⟨⟩, hfound⟩ := bind_ok hrest
  obtain ⟨⟨t, _⟩, _, hknown, hset⟩ := bind_ok hfound
  obtain ⟨hfind, rfl⟩ := known_ok hknown
  obtain ⟨_, store2, hset, ⟨⟩⟩ := bind_ok hset
  obtain ⟨a1, hsitsValue, hsitsSet⟩ := sits_append.mp hsits
  obtain rfl : _ = b := hsitsSet.rest.rest
  obtain ⟨m1, w, hsame, hw, hagrees, hruns⟩ := h.stream hstage hvalue hsitsValue .next
  have hstage1 := hstage.same hsame hagrees
  rw [← hstage1.env] at hfind
  obtain ⟨w', table, hfound, -, htable⟩ := hagrees.find hfind
  refine ⟨rfl, m1.setTable t (Function.update table name.bytes (some w)),
    hsame.trans ⟨rfl, rfl, rfl⟩, hagrees.set hset (hsame.codes ▸ hw) htable, hruns.trans ?_⟩
  refine (hsitsSet.symbol hstage1.executing (w :: s)).trans (hsitsSet.rest.op hstage1.executing ?_)
  change (findFrame m1.tables name.bytes (m1.here :: m1.outer)) >>= _ = _
  rw [hfound]
  change Machine.setIn _ t name.bytes w = _
  rw [Machine.setIn]
  change m1.tables t >>= _ = _
  rw [htable]
  rfl

/-! ## Streams

What is not the last node of a stream leaves a value that is dropped, and the rest starts on the same stack. -/

/-- A node where one value is taken, whatever it pushes. -/
theorem slot_lands (h : Correct fuel) (hstage : Stage p env store m) {node : Node}
    (heval : evalNode fuel env node store = .ok (v, store'))
    (hsits : Sits p a (slot node (emitNode node tail k).1) b) (hleaves : Leaves p tail b s exit) :
    Lands store' v m a s exit := by
  unfold slot at hsits
  split at hsits
  · next hpushes => exact h.node hstage heval hpushes hsits hleaves
  · next hpushes =>
    obtain ⟨a1, hsitsNode, hsitsUnit⟩ := sits_append.mp hsits
    obtain rfl : a1 + 1 = b := hsitsUnit.rest
    obtain ⟨rfl, m', hsame, hagrees, hruns⟩ := h.effect s hstage heval (Bool.eq_false_iff.mpr hpushes) hsitsNode
    refine hstage.lands hleaves hsame hagrees .empty (hruns.trans ?_)
    exact hsitsUnit.op (hsame.executing hstage.executing) rfl

/-- **A stream**, node by node. -/
theorem stream_lands (h : Correct fuel) (hstage : Stage p env store m) :
    ∀ {tree : Stream}, evalStream (fuel + 1) env tree store = .ok (v, store') →
      Sits p a (emitStream tree tail k).1 b → Leaves p tail b s exit → Lands store' v m a s exit
  | .nil, heval, hsits, hleaves => by
    cases heval
    obtain rfl : a + 1 = b := hsits.rest
    exact hstage.lands hleaves (.refl m) hstage.agrees .empty (hsits.op hstage.executing rfl)
  | .cons head .nil, heval, hsits, hleaves => slot_lands h hstage heval hsits hleaves
  | .cons head (.cons head' next), heval, hsits, hleaves => by
    obtain ⟨v1, store1, hhead, heval⟩ := bind_ok heval
    obtain ⟨a1, hsitsHead, hsits⟩ := sits_append.mp hsits
    obtain ⟨a2, hsitsDrop, hsitsNext⟩ := sits_append.mp hsits
    -- a value that is not the last one is dropped
    split at hsitsDrop
    · next hpushes =>
      obtain rfl : a1 + 1 = a2 := hsitsDrop.rest
      obtain ⟨m1, w, hsame, -, hagrees, hruns⟩ := h.node hstage hhead hpushes hsitsHead .next
      have hstage1 := hstage.same hsame hagrees
      exact .same hsame (hruns.trans (hsitsDrop.op hstage1.executing rfl)) (h.stream hstage1 heval hsitsNext hleaves)
    · next hpushes =>
      obtain rfl : a1 = a2 := hsitsDrop
      obtain ⟨-, m1, hsame, hagrees, hruns⟩ := h.effect s hstage hhead (Bool.eq_false_iff.mpr hpushes) hsitsHead
      exact .same hsame hruns (h.stream (hstage.same hsame hagrees) heval hsitsNext hleaves)

theorem clauses_lands (h : Correct fuel) (hstage : Stage p env store m) {done : List UInt8} {ts : List Tok} :
    ∀ {clauses : Clauses}, evalClauses (fuel + 1) env clauses store = .ok (v, store') →
      Sits p a (emitClauses clauses done tail k).1 b → Sits p b (unit :: ts) c →
        p.labels done = some (b + 1) ∧ b + 1 < 2 ^ 63 → Leaves p tail (b + 1) s exit → Lands store' v m a s exit
  | .nil, heval, hsits, hend, hdone, hleaves => by
    cases heval
    obtain rfl : a = b := hsits
    exact hstage.lands hleaves (.refl m) hstage.agrees .empty (hend.op hstage.executing rfl)
  | .cons test body next, heval, hsits, hend, hdone, hleaves => by
    obtain ⟨vt, store1, htest, heval⟩ := bind_ok heval
    obtain ⟨isFalse, _, hknown, heval⟩ := bind_ok heval
    obtain ⟨hfalse, rfl⟩ := known_ok hknown
    obtain ⟨a1, hsitsTest, hsitsNot⟩ := sits_append.mp hsits
    obtain ⟨a2, hsitsBody, hsitsJmp⟩ := sits_append.mp hsitsNot.rest.rest
    obtain ⟨m1, w, hsame, hw, hagrees, hruns⟩ := h.stream hstage htest hsitsTest .next
    have hstage1 := hstage.same hsame hagrees
    have hnot : Runs (m1.at a1 (w :: s)) (m1.at (a1 + 1) (.bool isFalse :: s)) := by
      refine hsitsNot.op hstage1.executing ?_
      change (w.isFalse.map Val.bool).map _ = _
      rw [hw.isFalse, hfalse]
      rfl
    have hjnf := hsitsNot.rest.jnf hstage1.executing s hsitsJmp.rest.label (v := .bool isFalse) rfl
    refine .same hsame (hruns.trans (hnot.trans hjnf)) ?_
    cases isFalse with
    | true => exact h.clauses hstage1 heval hsitsJmp.rest.rest hend hdone hleaves
    | false => exact h.stream hstage1 heval hsitsBody (hleaves.jmp hsitsJmp hdone)

/-- **Between two operands** of `and` and `or`. -/
theorem between_runs (hstage : Stage p env store m) {done : List UInt8} {andOr isFalse : Bool} {w : Val} {d : ℕ}
    (hsits : Sits p a (between done andOr k).1 b) (hdone : p.labels done = some d ∧ d < 2 ^ 63)
    (hw : w.isFalse = some isFalse) :
    Runs (m.at a (w :: s)) (if isFalse = andOr then m.at d (w :: s) else m.at b s) := by
  have hm := hstage.executing
  cases andOr with
  | true =>
    have hjnf := hsits.rest.jnf hm (w :: s) hsits.rest.rest.rest.label hw
    refine (hsits.op hm rfl).trans (hjnf.trans ?_)
    cases isFalse with
    | true => exact hsits.rest.rest.jmp hm (w :: s) hdone
    | false =>
      obtain rfl : _ = b := hsits.rest.rest.rest.rest.rest
      exact hsits.rest.rest.rest.rest.op hm rfl
  | false =>
    have hjnf := hsits.rest.jnf hm (w :: s) hdone hw
    refine (hsits.op hm rfl).trans (hjnf.trans ?_)
    cases isFalse with
    | false => exact .refl
    | true =>
      obtain rfl : _ = b := hsits.rest.rest.rest
      exact hsits.rest.rest.op hm rfl

/-- The operands of `and` and `or`, which leave at the first one that decides. -/
theorem boolLoop_lands (h : Correct fuel) (hstage : Stage p env store m) {done : List UInt8} {andOr : Bool} :
    ∀ {nodes : Stream}, evalBool (fuel + 1) env andOr nodes store = .ok (v, store') →
      Sits p a (emitBool nodes done andOr k).1 b → p.labels done = some b ∧ b < 2 ^ 63 →
        Leaves p false b s exit → Lands store' v m a s exit
  | .nil, heval, hsits, hdone, hleaves => by
    cases heval
    refine hstage.lands hleaves (.refl m) hstage.agrees (.bool andOr) ?_
    cases andOr with
    | true =>
      obtain rfl : a + 1 = b := hsits.rest
      exact hsits.op hstage.executing rfl
    | false =>
      obtain rfl : a + 1 = b := hsits.rest
      exact hsits.op hstage.executing rfl
  | .cons head .nil, heval, hsits, hdone, hleaves => slot_lands h hstage heval hsits hleaves
  | .cons head (.cons head' next), heval, hsits, hdone, hleaves => by
    obtain ⟨v1, store1, hhead, htest⟩ := bind_ok heval
    obtain ⟨isFalse, store2, hknown, hrest⟩ := bind_ok htest
    obtain ⟨hfalse, rfl⟩ := known_ok hknown
    obtain ⟨a1, hsitsHead, hsits⟩ := sits_append.mp hsits
    obtain ⟨a2, hsitsJumps, hsitsNext⟩ := sits_append.mp hsits
    obtain ⟨m1, w, hsame, hw, hagrees, hruns⟩ := slot_lands h hstage hhead hsitsHead .next
    have hstage1 := hstage.same hsame hagrees
    have hbetween := between_runs (s := s) hstage1 hsitsJumps hdone (hw.isFalse.trans hfalse)
    split at hrest
    · next heq =>
      cases hrest
      rw [if_pos heq] at hbetween
      exact hstage.lands hleaves hsame hagrees hw (hruns.trans hbetween)
    · next hne =>
      rw [if_neg hne] at hbetween
      exact .same hsame (hruns.trans hbetween) (h.bool hstage1 hrest hsitsNext hdone hleaves)

/-- The operands of a call, put in front of the list of arguments. -/
theorem operands_lands (h : Correct fuel) (hstage : Stage p env store m) {args : Value} {arg : Val}
    (hargs : Denotes m.codes args arg) : ∀ {operands : Stream},
      evalOperands (fuel + 1) env operands args store = .ok (v, store') →
        Sits p a (emitOperands operands k).1 b → Lands store' v m a (arg :: s) fun m w => m.at b (w :: s)
  | .nil, heval, hsits => by
    cases heval
    obtain rfl : a = b := hsits
    exact ⟨m, arg, .refl m, hargs, hstage.agrees, .refl⟩
  | .cons head next, heval, hsits => by
    obtain ⟨v1, store1, hhead, heval⟩ := bind_ok heval
    obtain ⟨a1, hsitsHead, hsitsCons⟩ := sits_append.mp hsits
    obtain ⟨m1, w, hsame, hw, hagrees, hruns⟩ := slot_lands (s := arg :: s) h hstage hhead hsitsHead .next
    have hstage1 := hstage.same hsame hagrees
    have hcons : Runs (m1.at a1 (w :: arg :: s)) (m1.at (a1 + 1) (.pair w arg :: s)) :=
      hsitsCons.op hstage1.executing rfl
    refine .same hsame (hruns.trans hcons) ?_
    have hpair : Denotes m1.codes (.pair v1 args) (.pair w arg) := by
      rw [hsame.codes]
      exact .pair hw hargs
    exact h.operands s hstage1 heval hpair hsitsCons.rest

/-! ## Calls

A call enters a closure: a new frame, the arguments bound to the formals, and then the body, whose tail
positions return behind the call. -/

/-- **The formals are bound to the arguments.** -/
theorem formals_runs : ∀ {formals : Formals} {m : Machine} {store : Store} {a : ℕ} {args : Value} {arg : Val}
    {u : Unit}, Executing m p → Agrees store m → bindFormals m.here.bindings formals args store = .ok (u, store') →
      Denotes m.codes args arg → Sits p a formals.code b →
        ∃ m', Same m m' ∧ Agrees store' m' ∧ Runs (m.at a (arg :: s)) (m'.at b s)
  | .fixed, m, store, a, args, arg, u, hm, hagrees, hbind, hargs, hsits => by
    cases hbind
    obtain rfl : a + 1 = b := hsits.rest
    exact ⟨m, .refl m, hagrees, hsits.op hm rfl⟩
  | .rest name, m, store, a, args, arg, u, hm, hagrees, hbind, hargs, hsits => by
    obtain ⟨a', m', hsame, hagrees', hend, hruns⟩ := setIn_runs (s := s) hm hagrees hbind hargs hsits
    obtain rfl : a' = b := hend
    exact ⟨m', hsame, hagrees', hruns⟩
  | .cons name next, m, store, a, args, arg, u, hm, hagrees, hbind, hargs, hsits => by
    cases hargs with
    | @pair car cdr first others hcar hcdr =>
      obtain ⟨_, store1, hset, hbind⟩ := bind_ok hbind
      obtain ⟨a', m1, hsame, hagrees1, hsitsNext, hruns⟩ :=
        setIn_runs (s := .pair first others :: s) hm hagrees hset hcar hsits.rest.rest
      have hdup : Runs (m.at a (.pair first others :: s))
          (m.at (a + 1) (.pair first others :: .pair first others :: s)) :=
        hsits.op hm rfl
      have hcarRuns : Runs (m.at (a + 1) (.pair first others :: .pair first others :: s))
          (m.at (a + 1 + 1) (first :: .pair first others :: s)) := hsits.rest.op hm rfl
      have hbound := hdup.trans (hcarRuns.trans hruns)
      have hm1 := hsame.executing hm
      rw [← hsame.here] at hbind
      cases next with
      | fixed =>
        -- the last formal does not look behind its argument
        have hbind' : bindFormals m1.here.bindings .fixed (.pair car cdr) store1 = .ok (u, store') := hbind
        have hpair : Denotes m1.codes (.pair car cdr) (.pair first others) := by
          rw [hsame.codes]
          exact .pair hcar hcdr
        obtain ⟨m', hsame', hagrees', hruns'⟩ := formals_runs hm1 hagrees1 hbind' hpair hsitsNext
        exact ⟨m', hsame.trans hsame', hagrees', hbound.trans hruns'⟩
      | rest name' =>
        obtain ⟨m', hsame', hagrees', hruns'⟩ := formals_runs hm1 hagrees1 hbind (hsame.codes ▸ hcdr) hsitsNext.rest
        exact ⟨m', hsame.trans hsame', hagrees', hbound.trans ((hsitsNext.op hm1 rfl).trans hruns')⟩
      | cons name' next' =>
        obtain ⟨m', hsame', hagrees', hruns'⟩ := formals_runs hm1 hagrees1 hbind (hsame.codes ▸ hcdr) hsitsNext.rest
        exact ⟨m', hsame.trans hsame', hagrees', hbound.trans ((hsitsNext.op hm1 rfl).trans hruns')⟩
    | _ => cases hbind

/-- **A procedure is called**, by either instruction: both leave what it returns to above the arguments. -/
theorem call_runs (h : Correct fuel) (hagrees : Agrees store m) {f args : Value} {wf arg : Val}
    (heval : evalCall (fuel + 1) f args store = .ok (v, store')) (hf : Denotes m.codes f wf)
    (hargs : Denotes m.codes args arg) : ∃ here outer, wf = .closure here outer ∧
      ∀ (ret : Frame) (chain : List Frame) (s : List Val), ∃ m' w,
        Same m m' ∧ Denotes m.codes v w ∧ Agrees store' m' ∧
          Runs (({ m with stack := .closure ret chain :: arg :: s }.switch here outer).child)
          ((m'.switch ret chain).at ret.ip (w :: s)) := by
  cases hf with
  | @closure formals body here outer hentry =>
    refine ⟨here, outer, rfl, fun ret chain s => ?_⟩
    obtain ⟨p, k, b, hcode, hlength, hsits⟩ := hentry
    obtain ⟨t, store1, hscope, hrest⟩ := bind_ok heval
    obtain ⟨u, store2, hbind, hbody⟩ := bind_ok hrest
    obtain ⟨a1, hsitsFormals, hsitsBody⟩ := sits_append.mp hsits.rest
    obtain ⟨a2, hsitsBody, hsitsRet⟩ := sits_append.mp hsitsBody
    rw [newScope_run] at hscope
    cases hscope
    -- the state behind the call, in the new frame
    let m1 := ({ m with stack := .closure ret chain :: arg :: s }.switch here outer).child
    have hm1 : Executing m1 p := ⟨hcode, hlength⟩
    have hswitch : Agrees store ({ m with stack := .closure ret chain :: arg :: s }.switch here outer) :=
      hagrees.congr rfl rfl rfl
    have hagrees1 : Agrees store.child m1 := hswitch.child
    have hswap : Runs (m1.at here.ip (.closure ret chain :: arg :: s))
        (m1.at (here.ip + 1) (arg :: .closure ret chain :: s)) := hsits.op hm1 rfl
    rw [hagrees.next] at hbind hbody
    obtain ⟨m2, hsame2, hagrees2, hruns2⟩ :=
      formals_runs (s := .closure ret chain :: s) hm1 hagrees1 hbind hargs hsitsFormals
    have hstage2 : Stage p (m.next :: scopesOf (here :: outer)) store2 m2 :=
      ⟨hsame2.executing hm1, hsame2.scopes, hagrees2⟩
    obtain ⟨m3, w, hsame3, hw, hagrees3, hruns3⟩ :=
      h.stream hstage2 hbody hsitsBody (.ret hsitsRet)
    have hcodes : m3.codes = m.codes := hsame3.codes.trans hsame2.codes
    refine ⟨m3.switch m.here m.outer, w, ⟨hcodes, rfl, rfl⟩, hsame2.codes ▸ hw,
      hagrees3.congr rfl rfl rfl, hswap.trans (hruns2.trans hruns3)⟩
  | _ => cases heval

theorem callNode_lands (h : Correct fuel) (hstage : Stage p env store m) {operator operands : Stream}
    (heval : evalNode (fuel + 1) env (.call operator operands) store = .ok (v, store'))
    (hsits : Sits p a (emitNode (.call operator operands) tail k).1 b) (hleaves : Leaves p tail b s exit) :
    Lands store' v m a s exit := by
  obtain ⟨args, store1, hoperands, heval⟩ := bind_ok heval
  obtain ⟨f, store2, hoperator, heval⟩ := bind_ok heval
  obtain ⟨a1, hsitsOperands, hsitsOperator⟩ := sits_append.mp hsits.rest
  obtain ⟨a2, hsitsOperator, hsitsCall⟩ := sits_append.mp hsitsOperator
  have hunit : Runs (m.at a s) (m.at (a + 1) (.empty :: s)) := hsits.op hstage.executing rfl
  obtain ⟨m1, arg, hsame1, harg, hagrees1, hruns1⟩ := h.operands s hstage hoperands .empty hsitsOperands
  have hstage1 := hstage.same hsame1 hagrees1
  refine .same hsame1 (hunit.trans hruns1) ?_
  obtain ⟨m2, wf, hsame2, hf, hagrees2, hruns2⟩ := h.stream (s := arg :: s) hstage1 hoperator hsitsOperator .next
  have hstage2 := hstage1.same hsame2 hagrees2
  refine .same hsame2 hruns2 ?_
  rw [← hsame1.codes, ← hsame2.codes] at harg
  rw [← hsame2.codes] at hf
  obtain ⟨here, outer, rfl, hcall⟩ := h.call hagrees2 heval hf harg
  cases tail with
  | false =>
    obtain rfl : a2 + 1 = b := hsitsCall.rest
    obtain ⟨m3, w, hsame3, hw, hagrees3, hruns3⟩ := hcall { m2.here with ip := a2 + 1 } m2.outer s
    rw [hsame3.back] at hruns3
    refine hstage2.lands hleaves hsame3 hagrees3 hw (.trans ?_ hruns3)
    exact hsitsCall.op hstage2.executing rfl
  | true =>
    obtain ⟨ret, chain, s', rfl, rfl⟩ := hleaves.returns rfl
    obtain ⟨m3, w, hsame3, hw, hagrees3, hruns3⟩ := hcall ret chain s'
    exact ⟨m3, w, hsame3, hw, hagrees3, (hsitsCall.op hstage2.executing rfl).trans hruns3⟩

/-! ## `let*`

It enters a scope as a call does, by a jump and a closure that it makes for itself; the code behind the body
returns to it. -/

/-- What is behind the entry of a `let*`: its bindings, its body, and a return. -/
theorem scope_lands (h : Correct fuel) {bindings body : Stream} (hagrees : Agrees store m) {m1 : Machine}
    (hstage : Stage p (m.next :: env) store.child m1) (hcodes : m1.codes = m.codes) (ret : Frame) (chain : List Frame)
    (s : List Val) {k' : ℕ} {ts : List Tok}
    (heval : (newScope >>= fun t => evalStream fuel (t :: env) bindings >>= fun _ =>
      evalStream fuel (t :: env) body) store = .ok (v, store'))
    (hsits : Sits p a ((emitStream bindings false k).1 ++ .op .drop Op.noOperand ::
      ((emitStream body tail k').1 ++ .op .swap Op.noOperand :: .op .ret Op.noOperand :: ts)) b) :
    ∃ m' w, Same m m' ∧ Denotes m.codes v w ∧ Agrees store' m' ∧
      Runs (m1.at a (.closure ret chain :: s)) ((m'.switch ret chain).at ret.ip (w :: s)) := by
  obtain ⟨t, store1, hscope, hrest⟩ := bind_ok heval
  rw [newScope_run] at hscope
  cases hscope
  obtain ⟨v1, store2, hbindings, hbody⟩ := bind_ok hrest
  rw [hagrees.next] at hbindings hbody
  obtain ⟨a1, hsitsBindings, hsitsDrop⟩ := sits_append.mp hsits
  obtain ⟨a2, hsitsBody, hsitsRet⟩ := sits_append.mp hsitsDrop.rest
  obtain ⟨m2, w1, hsame2, -, hagrees2, hruns2⟩ :=
    h.stream (s := .closure ret chain :: s) hstage hbindings hsitsBindings .next
  have hstage2 := hstage.same hsame2 hagrees2
  have hdrop : Runs (m2.at a1 (w1 :: .closure ret chain :: s)) (m2.at (a1 + 1) (.closure ret chain :: s)) :=
    hsitsDrop.op hstage2.executing rfl
  obtain ⟨m3, w, hsame3, hw, hagrees3, hruns3⟩ := h.stream hstage2 hbody hsitsBody (.ret hsitsRet)
  have hcodes2 : m2.codes = m.codes := hsame2.codes.trans hcodes
  exact ⟨m3.switch m.here m.outer, w, ⟨hsame3.codes.trans hcodes2, rfl, rfl⟩, hcodes2 ▸ hw,
    hagrees3.congr rfl rfl rfl, hruns2.trans (hdrop.trans hruns3)⟩

theorem letStar_lands (h : Correct fuel) (hstage : Stage p env store m) {bindings body : Stream}
    (heval : evalNode (fuel + 1) env (.letStar bindings body) store = .ok (v, store'))
    (hsits : Sits p a (emitNode (.letStar bindings body) tail k).1 b) (hleaves : Leaves p tail b s exit) :
    Lands store' v m a s exit := by
  have hm := hstage.executing
  obtain ⟨a1, hsitsEnter, hsitsScope⟩ := sits_append.mp hsits
  obtain ⟨a2, hsitsBindings, hsitsDrop⟩ := sits_append.mp hsitsScope
  obtain ⟨a3, hsitsBody, hsitsRet⟩ := sits_append.mp hsitsDrop.rest
  obtain rfl : a3 + 1 + 1 = b := hsitsRet.rest.rest.rest
  cases tail with
  | false =>
    -- the frame behind `call`, whose closure leads to the jump over the scope
    let ret : Frame := { m.here with ip := a + 9 }
    have hcall := hsitsEnter.call hm s hsitsEnter.rest.rest.label
    obtain rfl : a + 9 + 9 = a1 := hsitsEnter.rest.rest.rest
    have hagrees0 : Agrees store (m.at (a + 9) (.closure ret m.outer :: s)) := hstage.agrees.congr rfl rfl rfl
    have hstage1 : Stage p (m.next :: env) store.child (m.at (a + 9) (.closure ret m.outer :: s)).child :=
      ⟨hm, congrArg (m.next :: ·) hstage.env, hagrees0.child⟩
    obtain ⟨m', w, hsame, hw, hagrees, hruns⟩ :=
      scope_lands h hstage.agrees hstage1 rfl ret m.outer s heval hsitsScope
    rw [hsame.back (a + 9)] at hruns
    have hjmp := hsitsEnter.rest.jmp (hsame.executing hm) (w :: s) hsitsRet.rest.rest.label
    exact hstage.lands hleaves hsame hagrees hw (hcall.trans (hruns.trans hjmp))
  | true =>
    obtain ⟨ret, chain, s', rfl, rfl⟩ := hleaves.returns rfl
    have hbodyLabel := hsitsEnter.rest.rest.rest.label
    obtain rfl : a + 1 + 9 + 1 + 1 + 1 = a1 := hsitsEnter.rest.rest.rest.rest.rest.rest
    have hunit : Runs (m.at a (.closure ret chain :: s')) (m.at (a + 1) (.empty :: .closure ret chain :: s')) :=
      hsitsEnter.op hm rfl
    have hproc := hsitsEnter.rest.proc hm (.empty :: .closure ret chain :: s') hbodyLabel
    -- the state behind `tail_call_in`, in a frame of the procedure that the scope is
    let m1 := (m.at (a + 1 + 9 + 1) (.closure ret chain :: .empty :: s')).switch
      { m.here with ip := a + 1 + 9 + 1 } m.outer
    have hcall : Runs (m.at (a + 1 + 9) (.closure { m.here with ip := a + 1 + 9 + 1 } m.outer :: .empty ::
        .closure ret chain :: s')) (m1.child.at (a + 1 + 9 + 1) (.closure ret chain :: .empty :: s')) :=
      hsitsEnter.rest.rest.op hm rfl
    have hm1 : Executing m1.child p := hm
    have hswap : Runs (m1.child.at (a + 1 + 9 + 1) (.closure ret chain :: .empty :: s'))
        (m1.child.at (a + 1 + 9 + 1 + 1) (.empty :: .closure ret chain :: s')) :=
      hsitsEnter.rest.rest.rest.rest.op hm1 rfl
    have hdrop : Runs (m1.child.at (a + 1 + 9 + 1 + 1) (.empty :: .closure ret chain :: s'))
        (m1.child.at (a + 1 + 9 + 1 + 1 + 1) (.closure ret chain :: s')) :=
      hsitsEnter.rest.rest.rest.rest.rest.op hm1 rfl
    have hagrees1 : Agrees store m1 := hstage.agrees.congr rfl rfl rfl
    have hstage1 : Stage p (m.next :: env) store.child m1.child :=
      ⟨hm1, congrArg (m.next :: ·) hstage.env, hagrees1.child⟩
    obtain ⟨m', w, hsame, hw, hagrees, hruns⟩ :=
      scope_lands h hstage.agrees hstage1 rfl ret chain s' heval hsitsScope
    exact ⟨m', w, hsame, hw, hagrees, hunit.trans (hproc.trans (hcall.trans (hswap.trans (hdrop.trans hruns))))⟩

end

/-! ## All streams

The induction, with one case for each function. -/

/-- Without fuel nothing has a value. -/
theorem Correct.zero : Correct 0 where
  node _ heval := by
    rw [evalNode] at heval
    cases heval
  effect _ _ heval := by
    rw [evalNode] at heval
    cases heval
  stream _ heval := by
    rw [evalStream] at heval
    cases heval
  clauses _ heval := by
    rw [evalClauses] at heval
    cases heval
  bool _ heval := by
    rw [evalBool] at heval
    cases heval
  operands _ _ heval := by
    rw [evalOperands] at heval
    cases heval
  call _ heval := by
    rw [evalCall] at heval
    cases heval

/-- **One more unit of fuel.** -/
theorem Correct.succ {fuel : ℕ} (h : Correct fuel) : Correct (fuel + 1) where
  node {p env store store' m a b k s tail exit v node} hstage heval hpushes hsits hleaves := by
    cases node with
    | literal l => exact literal_lands hstage l heval hsits hleaves
    | load name => exact load_lands hstage name heval hsits hleaves
    | cond clauses => exact cond_lands h hstage heval hsits hleaves
    | ifElse test yes no => exact ifElse_lands h hstage heval hsits hleaves
    | and nodes => exact bool_lands h hstage heval hsits hleaves
    | or nodes => exact bool_lands h hstage heval hsits hleaves
    | math o stream1 stream2 => exact math_lands h hstage heval hsits hleaves
    | lambda formals body => exact lambda_lands hstage heval hsits hleaves
    | call operator operands => exact callNode_lands h hstage heval hsits hleaves
    | bind value name => cases hpushes
    | store value name => cases hpushes
    | letStar bindings body => exact letStar_lands h hstage heval hsits hleaves
  effect {p env store store' m a b k tail v node} s hstage heval hpushes hsits := by
    cases node with
    | bind value name => exact bind_runs h hstage heval hsits
    | store value name => exact store_runs h hstage heval hsits
    | _ => cases hpushes
  stream hstage heval hsits hleaves := stream_lands h hstage heval hsits hleaves
  clauses hstage heval hsits hend hdone hleaves := clauses_lands h hstage heval hsits hend hdone hleaves
  bool hstage heval hsits hdone hleaves := boolLoop_lands h hstage heval hsits hdone hleaves
  operands s hstage heval hargs hsits := operands_lands h hstage hargs heval hsits
  call hagrees heval hf hargs := call_runs h hagrees heval hf hargs

/-- **Emitted code computes what its stream means.** -/
theorem correct (fuel : ℕ) : Correct fuel := by
  induction fuel with
  | zero => exact .zero
  | succ fuel ih => exact ih.succ

end Insomniac.Compile

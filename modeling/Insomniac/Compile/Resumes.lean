import Insomniac.Compile.Continuations
import Insomniac.Compile.Tail
import Insomniac.Compile.Whole

/-!
# Compile/Resumes — where a continuation is on the machine

    ret v k   ~   v :: s  at ⟨here, outer⟩          Ready true k here outer s

A continuation is a place in the code, the frames around it, and what is on the stack below the value that
it takes.  One that has been captured is in the table of a frame, where the routines of `prim-call/cc` put
it.  What a configuration is on the machine (`Mirrors`) is said here; `Compile/Capture` follows its steps.
-/

open Insomniac.Asm Insomniac.Vm Insomniac.Abstract Run
open Insomniac.Lib (Tok Places HasCallCc SavedIn setTable_tables)

namespace Insomniac.Compile

/-! ## The library, on the machine

Where the routines are in the code, and the frames in which they are bound: all that a continuation refers to
besides the program itself. -/

/-- The label of a routine. -/
def Prim.label : Prim → List UInt8
  | .car => "scheme-car"
  | .cdr => "scheme-cdr"
  | .depth => "scheme-depth"

/-- Its code. -/
def Prim.code : Prim → List Tok
  | .car => [.op .swap Op.noOperand, .op .car Op.noOperand, .op .car Op.noOperand, .op .swap Op.noOperand,
      .op .ret Op.noOperand]
  | .cdr => [.op .swap Op.noOperand, .op .car Op.noOperand, .op .cdr Op.noOperand, .op .swap Op.noOperand,
      .op .ret Op.noOperand]
  | .depth => [.op .swap Op.noOperand, .op .drop Op.noOperand, .op .depth Op.noOperand, .op .swap Op.noOperand,
      .op .ret Op.noOperand]

/-- A frame is in a program. -/
def Within (codes : ℕ → Option Code) (here : Frame) (p : Program) : Prop :=
  here.codeRef >>= codes = some p.code ∧ here.length = p.length

/-- **Where the library is**: in some code, and bound in a frame.  The program ends at `stop`. -/
structure Setting where
  codes : ℕ → Option Code
  p : Program
  places : Places
  main : Frame
  outer : List Frame
  stop : ℕ
  within : Within codes main p
  has : HasCallCc p.labels p.code p.length places
  prims : ∀ o : Prim, ∃ a b, p.labels o.label = some a ∧ Sits p a o.code b

namespace Setting

variable (g : Setting)

/-- The frame of a call of `prim-call/cc`. -/
def frame (t : ℕ) : Frame :=
  { g.main with ip := g.places.exit, bindings := t, handler := false, handlerAddr := 0 }

/-- The objects of the library. -/
def routines : Routines where
  callCc := .closure { g.main with ip := g.places.entry } g.outer
  exit t := .closure (g.frame t) ({ g.main with ip := g.places.entry } :: g.outer)
  prim o := .closure { g.main with ip := (g.p.labels o.label).getD 0 } g.outer

end Setting

/-! ## Places to go on at

`Ready` is a recursion over the continuation; each frame of it is a place behind some code, with the values that
the frame holds on the stack. -/

/-- Some tokens are in front of a frame. -/
def Spot (codes : ℕ → Option Code) (here : Frame) (ts : List Tok) (b : ℕ) : Prop :=
  ∃ p, Within codes here p ∧ Sits p here.ip ts b

/-- **A place takes the value of a continuation**, on top of a stack; or goes on without it, where nothing
was pushed. -/
inductive Ready (g : Setting) : (pushed : Bool) → Kont → Frame → List Frame → List Val → Prop
  | halt : Within g.codes here g.p → here.ip = g.stop → Ready g true .halt here outer []
  | captured : Within g.codes here g.p → here.ip = g.places.returned → here.bindings = t →
      Ready g true (.captured t) here outer []
  | jmp (b : ℕ) : Within g.codes here p → Sits p here.ip (jumpLabel l .jmp :: ts) c → p.labels l = some b ∧ b < 2 ^ 63 →
      Ready g true k { here with ip := b } outer s → Ready g true k here outer s
  | unit : Spot g.codes here [Compile.unit] b → Ready g true k { here with ip := b } outer s →
      Ready g false k here outer s
  | skip : Spot g.codes here (emitStream next tail i).1 b → scopesOf (here :: outer) = env →
      Ready g true k { here with ip := b } outer s → Ready g false (.rest env next tail k) here outer s
  | rest : Spot g.codes here (.op .drop Op.noOperand :: (emitStream next tail i).1) b → scopesOf (here :: outer) = env →
      Ready g true k { here with ip := b } outer s → Ready g true (.rest env next tail k) here outer s
  | activation : Spot g.codes here [.op .swap Op.noOperand, .op .ret Op.noOperand] b → Ready g true k ret chain s →
      Ready g true (.activation k) here outer (.closure ret chain :: s)
  | ifElse : Spot g.codes here (jumpLabel l .jnf :: ((emitStream no tail i).1 ++ jumpLabel l' .jmp :: .label l ::
        ((emitStream yes tail j).1 ++ [.label l']))) b → scopesOf (here :: outer) = env →
      Ready g true k { here with ip := b } outer s → Ready g true (.ifElse env yes no tail k) here outer s
  | clause : Spot g.codes here (.op .not Op.noOperand :: jumpLabel l .jnf :: ((emitStream body tail i).1 ++
        jumpLabel done .jmp :: .label l :: ((emitClauses next done tail j).1 ++ [Compile.unit, .label done]))) b →
      scopesOf (here :: outer) = env → Ready g true k { here with ip := b } outer s →
      Ready g true (.clause env body next tail k) here outer s
  | bool : Spot g.codes here ((between done andOr i).1 ++ ((emitBool next done andOr j).1 ++ [.label done])) b →
      scopesOf (here :: outer) = env → Ready g true k { here with ip := b } outer s →
      Ready g true (.bool env andOr next k) here outer s
  | first : Spot g.codes here ((emitStream stream2 false i).1 ++ [o.token]) b → scopesOf (here :: outer) = env →
      Ready g true k { here with ip := b } outer s → Ready g true (.first env o stream2 k) here outer s
  | second : Spot g.codes here [MathOp.token o] b → Denotes g.codes v1 w1 →
      Ready g true k { here with ip := b } outer s → Ready g true (.second o v1 k) here outer (w1 :: s)
  | operand : Spot g.codes here (.op .cons Op.noOperand :: ((emitOperands next i).1 ++
        ((emitStream operator false j).1 ++ [callOp tail]))) b → scopesOf (here :: outer) = env →
      Denotes g.codes args arg → Ready g true k { here with ip := b } outer s →
      Ready g true (.operand env next operator tail args k) here outer (arg :: s)
  | operator : Spot g.codes here [callOp tail] b → Denotes g.codes args arg →
      Ready g true k { here with ip := b } outer s → Ready g true (.operator tail args k) here outer (arg :: s)
  | bind : Spot g.codes here [.symbol (Text.bytes name), .op .bind Op.noOperand] b → scopesOf (here :: outer) = env →
      Ready g false k { here with ip := b } outer s → Ready g true (.bind env name k) here outer s
  | store : Spot g.codes here [.symbol (Text.bytes name), .op .set Op.noOperand] b → scopesOf (here :: outer) = env →
      Ready g false k { here with ip := b } outer s → Ready g true (.store env name k) here outer s

/-- **Some code begins**: where it ends, a continuation is ready. -/
inductive Begins (g : Setting) : Kont → Frame → List Frame → List Val → Work → Prop
  | node : Spot g.codes here (emitNode node tail i).1 b → Ready g node.pushes k { here with ip := b } outer s →
      Begins g k here outer s (.node node tail)
  | stream : Spot g.codes here (emitStream tree tail i).1 b → Ready g true k { here with ip := b } outer s →
      Begins g k here outer s (.stream tree tail)
  | clauses : Spot g.codes here ((emitClauses clauses done tail i).1 ++ [unit, .label done]) b →
      Ready g true k { here with ip := b } outer s → Begins g k here outer s (.clauses clauses tail)
  | bool : Spot g.codes here ((emitBool nodes done andOr i).1 ++ [.label done]) b →
      Ready g true k { here with ip := b } outer s → Begins g k here outer s (.bool andOr nodes)
  | operands : Spot g.codes here ((emitOperands operands i).1 ++ ((emitStream operator false j).1 ++ [callOp tail])) b →
      Denotes g.codes args arg → Ready g true k { here with ip := b } outer s →
      Begins g k here outer (arg :: s) (.operands operands operator tail args)

/-! ## States

What is related to a configuration is a whole state, with the continuations that have been captured. -/

/-- **What a state keeps**: the scopes, and the continuations that have been captured. -/
structure Remembers (g : Setting) (store : Store) (konts : ℕ → Option Kont) (m : Machine) : Prop where
  codes : m.codes = g.codes
  agrees : Agrees store m
  old : ∀ t bindings, store.scopes t = some bindings → t < store.next
  saved : ∀ t k, konts t = some k → store.scopes t = none ∧ t < store.next ∧ ∃ table here outer s,
    m.tables t = some table ∧ SavedIn table here outer s ∧ Ready g true k here outer s

/-- **What a configuration is on the machine.** -/
inductive Mirrors (g : Setting) : Conf → Machine → Prop
  | eval {env : List ℕ} {work : Work} {k : Kont} {store : Store} {konts : ℕ → Option Kont} {m : Machine} {ip : ℕ}
      {s : List Val} : Remembers g store konts m → scopesOf (m.here :: m.outer) = env →
      Begins g k { m.here with ip } m.outer s work → Mirrors g ⟨.eval env work k, store, konts⟩ (m.at ip s)
  | ret {v : Value} {wv : Val} {k : Kont} {store : Store} {konts : ℕ → Option Kont} {m : Machine} {ip : ℕ}
      {s : List Val} : Remembers g store konts m → Denotes g.codes v wv → Ready g true k { m.here with ip } m.outer s →
      Mirrors g ⟨.ret v k, store, konts⟩ (m.at ip (wv :: s))
  | skipped {env : List ℕ} {v : Value} {next : Stream} {tail : Bool} {k : Kont} {store : Store}
      {konts : ℕ → Option Kont} {m : Machine} {ip : ℕ} {s : List Val} : Remembers g store konts m →
      scopesOf (m.here :: m.outer) = env → Begins g k { m.here with ip } m.outer s (.stream next tail) →
      Mirrors g ⟨.ret v (.rest env next tail k), store, konts⟩ (m.at ip s)
  | call {f args : Value} {arg : Val} {k : Kont} {store : Store} {konts : ℕ → Option Kont} {m : Machine}
      {here ret : Frame} {outer chain : List Frame} {s : List Val} : Remembers g store konts m →
      Denotes g.codes f (.closure here outer) → Denotes g.codes args arg → Ready g true k ret chain s →
      Mirrors g ⟨.call f args k, store, konts⟩ (Machine.entering m here outer ret chain arg s)

section

variable {g : Setting} {k : Kont} {here : Frame} {outer : List Frame} {s : List Val} {pushed : Bool}
  {store store' : Store} {konts : ℕ → Option Kont} {m : Machine} {p : Program} {t : ℕ}

/-- What can be called is a closure. -/
theorem Denotes.of_procedure {codes : ℕ → Option Code} {f : Value} {w : Val} (h : Denotes codes f w)
    (hprocedure : f.isProcedure = true) : ∃ here outer, w = .closure here outer := by
  cases h with
  | closure => exact ⟨_, _, rfl⟩
  | other =>
    cases w with
    | closure here outer => exact ⟨here, outer, rfl⟩
    | _ => cases hprocedure
  | _ => cases hprocedure

/-- **What is on the stack** below the value of a continuation. -/
theorem Ready.depth (h : Ready g pushed k here outer s) : s.length = k.depth := by
  induction h with
  | halt | captured => rfl
  | jmp _ _ _ _ _ ih | unit _ _ ih | skip _ _ _ ih | rest _ _ _ ih | ifElse _ _ _ ih | clause _ _ _ ih
  | bool _ _ _ ih | first _ _ _ ih | bind _ _ _ ih | store _ _ _ ih => exact ih
  | activation _ _ ih | second _ _ _ ih | operand _ _ _ _ ih | operator _ _ _ ih => exact congrArg (· + 1) ih

/-- A tail position returns to a closure on the stack. -/
theorem Ready.returns (h : Ready g pushed (.activation k) here outer s) (hpushed : pushed = true) :
    ∃ ret chain s', s = .closure ret chain :: s' ∧ Ready g true k ret chain s' := by
  generalize hk : Kont.activation k = k' at h
  induction h with
  | jmp _ _ _ _ _ ih => exact ih rfl hk
  | activation _ hready _ =>
    cases hk
    exact ⟨_, _, _, rfl, hready⟩
  | unit => cases hpushed
  | _ => cases hk

/-- Where a call goes on. -/
theorem Ready.beyond {k' : Kont} {tail : Bool} (h : Ready g true k here outer s) (hbeyond : k.beyond tail = some k') :
    (tail = false ∧ k' = k) ∨ (tail = true ∧ ∃ ret chain s', s = .closure ret chain :: s' ∧
      Ready g true k' ret chain s') := by
  match k, tail, hbeyond with
  | k, false, hbeyond =>
    rw [Kont.beyond_false] at hbeyond
    cases hbeyond
    exact .inl ⟨rfl, rfl⟩
  | .activation k, true, rfl => exact .inr ⟨rfl, h.returns rfl⟩

/-- What a node pushes, or `()`, is taken. -/
theorem Ready.slot {a b : ℕ} {node : Node} {ts : List Tok} (h : Ready g true k { here with ip := b } outer s)
    (hspot : Spot g.codes { here with ip := a } (Compile.slot node ts) b) :
    ∃ b', Spot g.codes { here with ip := a } ts b' ∧ Ready g node.pushes k { here with ip := b' } outer s := by
  unfold Compile.slot at hspot
  split at hspot
  · next hpushes =>
    rw [hpushes]
    exact ⟨b, hspot, h⟩
  · next hpushes =>
    obtain ⟨p, hwithin, hsits⟩ := hspot
    obtain ⟨b', hsitsNode, hunit⟩ := sits_append.mp hsits
    rw [Bool.eq_false_iff.mpr hpushes]
    have hskip : Ready g false k { here with ip := b' } outer s := .unit ⟨p, hwithin, hunit⟩ h
    exact ⟨b', ⟨p, hwithin, hsitsNode⟩, hskip⟩

/-- The arguments of a call are on the stack. -/
theorem Begins.of_operands {operands operator : Stream} {tail : Bool} {args : Value}
    (h : Begins g k here outer s (.operands operands operator tail args)) : ∃ i j b arg s', s = arg :: s' ∧
      Spot g.codes here ((emitOperands operands i).1 ++ ((emitStream operator false j).1 ++ [callOp tail])) b ∧
        Denotes g.codes args arg ∧ Ready g true k { here with ip := b } outer s' := by
  cases h with
  | operands hspot harg hready => exact ⟨_, _, _, _, _, rfl, hspot, harg, hready⟩

namespace Remembers

/-- The program of the current frame is executed. -/
theorem executing (h : Remembers g store konts m) (hwithin : Within g.codes m.here p) : Executing m p := by
  obtain ⟨hcode, hlength⟩ := hwithin
  refine ⟨?_, hlength⟩
  rw [h.codes]
  exact hcode

/-- Nothing is known of the next table. -/
theorem unknown (h : Remembers g store konts m) : store.scopes store.next = none := by
  cases hnext : store.scopes store.next with
  | none => rfl
  | some b => exact absurd (h.old _ b hnext) (lt_irrefl _)

/-- What a state keeps is in its code and tables. -/
theorem congr {m' : Machine} (h : Remembers g store konts m) (hcodes : m'.codes = m.codes) (htables : m'.tables = m.tables)
    (hnext : m'.next = m.next) : Remembers g store konts m' where
  codes := hcodes.trans h.codes
  agrees := h.agrees.congr hcodes htables hnext
  old := h.old
  saved t k ht := by
    rw [htables]
    exact h.saved t k ht

/-- Neither the place nor the stack is remembered. -/
theorem moved (h : Remembers g store konts m) (ip : ℕ) (s : List Val) : Remembers g store konts (m.at ip s) :=
  h.congr rfl rfl rfl

/-- A name is set. -/
theorem set (h : Remembers g store konts m) {name : List UInt8} {v : Value} {wv : Val} {table : Bindings} {u : Unit}
    (hset : setIn t name v store = .ok (u, store')) (hw : Denotes g.codes v wv) (htable : m.tables t = some table) :
    Remembers g store' konts (m.setTable t (Function.update table name (some wv))) := by
  have hagrees := h.agrees.set hset (h.codes ▸ hw) htable
  obtain ⟨bindings, hbindings, rfl⟩ := setIn_ok hset
  refine ⟨h.codes, hagrees, fun t' b ht' => ?_, fun t' k hk => ?_⟩
  · rcases eq_or_ne t' t with rfl | hne
    · exact h.old t' bindings hbindings
    · exact h.old t' b ((Function.update_of_ne hne ..).symm.trans ht')
  · obtain ⟨hnone, hlt, table', here, outer, s, htable', hsaved, hready⟩ := h.saved t' k hk
    have hne : t' ≠ t := by
      rintro rfl
      rw [hbindings] at hnone
      cases hnone
    exact ⟨(Function.update_of_ne hne ..).trans hnone, hlt, table', here, outer, s,
      (setTable_of_ne hne m _).trans htable', hsaved, hready⟩

/-- A new frame. -/
theorem child (h : Remembers g store konts m) : Remembers g store.child konts m.child := by
  refine ⟨h.codes, h.agrees.child, fun t b ht => ?_, fun t k hk => ?_⟩
  · rcases eq_or_ne t store.next with rfl | hne
    · exact Nat.lt_succ_self _
    · exact (h.old t b ((Function.update_of_ne hne ..).symm.trans ht)).trans (Nat.lt_succ_self _)
  · obtain ⟨hnone, hlt, table, here, outer, s, htable, hsaved, hready⟩ := h.saved t k hk
    have hne : t ≠ m.next := h.agrees.next ▸ hlt.ne
    exact ⟨(Function.update_of_ne hlt.ne ..).trans hnone, hlt.trans (Nat.lt_succ_self _), table, here, outer, s,
      (child_of_ne hne).trans htable, hsaved, hready⟩

/-- A new frame that no code looks into. -/
theorem skip (h : Remembers g store konts m) : Remembers g store.skip konts m.child := by
  refine ⟨h.codes, ⟨congrArg (· + 1) h.agrees.next, fun t b ht => ?_⟩, fun t b ht =>
    (h.old t b ht).trans (Nat.lt_succ_self _), fun t k hk => ?_⟩
  · have hne : t ≠ m.next := h.agrees.next ▸ (h.old t b ht).ne
    obtain ⟨table, htable, hrel⟩ := h.agrees.scopes t b ht
    exact ⟨table, (child_of_ne hne).trans htable, hrel⟩
  · obtain ⟨hnone, hlt, table, here, outer, s, htable, hsaved, hready⟩ := h.saved t k hk
    have hne : t ≠ m.next := h.agrees.next ▸ hlt.ne
    exact ⟨hnone, hlt.trans (Nat.lt_succ_self _), table, here, outer, s, (child_of_ne hne).trans htable, hsaved,
      hready⟩

/-- A routine is entered. -/
theorem entering (h : Remembers g store konts m) (here : Frame) (outer : List Frame) (ret : Frame) (chain : List Frame)
    (arg : Val) (s : List Val) : Remembers g store.skip konts (Machine.entering m here outer ret chain arg s) := by
  have h' : Remembers g store konts ({ m with stack := .closure ret chain :: arg :: s }.switch here outer) :=
    h.congr rfl rfl rfl
  exact h'.skip

/-- **A table that no code looks into** may change, where it does not have a continuation. -/
theorem setHidden (h : Remembers g store konts m) (ht : store.scopes t = none) {table : Bindings}
    (htable : ∀ k, konts t = some k → ∃ here outer s, SavedIn table here outer s ∧ Ready g true k here outer s) :
    Remembers g store konts (m.setTable t table) := by
  refine ⟨h.codes, ⟨h.agrees.next, fun t' b ht' => ?_⟩, h.old, fun t' k hk => ?_⟩
  · have hne : t' ≠ t := by
      rintro rfl
      rw [ht] at ht'
      cases ht'
    obtain ⟨table', htable', hrel⟩ := h.agrees.scopes t' b ht'
    exact ⟨table', (setTable_of_ne hne m _).trans htable', hrel⟩
  · obtain ⟨hnone, hlt, table', here, outer, s, htable', hsaved, hready⟩ := h.saved t' k hk
    rcases eq_or_ne t' t with rfl | hne
    · obtain ⟨here, outer, s, hsaved, hready⟩ := htable k hk
      exact ⟨hnone, hlt, table, here, outer, s, setTable_tables .., hsaved, hready⟩
    · exact ⟨hnone, hlt, table', here, outer, s, (setTable_of_ne hne m _).trans htable', hsaved, hready⟩

/-- **A continuation is captured** in a table that no code looks into. -/
theorem capture (h : Remembers g store konts m) (ht : store.scopes t = none) (hlt : t < store.next) {table : Bindings}
    (htable : m.tables t = some table) (hsaved : SavedIn table here outer s) (hready : Ready g true k here outer s) :
    Remembers g store (Function.update konts t (some k)) m := by
  refine ⟨h.codes, h.agrees, h.old, fun t' k' hk => ?_⟩
  rcases eq_or_ne t' t with rfl | hne
  · cases (Function.update_self ..).symm.trans hk
    exact ⟨ht, hlt, table, here, outer, s, htable, hsaved, hready⟩
  · exact h.saved t' k' ((Function.update_of_ne hne ..).symm.trans hk)

end Remembers

end

end Insomniac.Compile

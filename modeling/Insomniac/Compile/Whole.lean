import Insomniac.Compile.Program
import Insomniac.Lib.CallCc
import Insomniac.Lib.Postamble

/-!
# Compile/Whole — a whole program, from its first instruction on

    preamble.asm ++ emit_stream tree ++ postamble.asm
    proc env, call user-entry ──▸ … binds … ──▸ _main ──▸ the value of the program ──▸ "Returned: " …

What the compiler writes always assembles: every jump has its label (`compiler_code_assembles`).  A new
machine runs the preamble first, which binds the routines of the library in a scope of their own, and then
the program, with nothing on the stack (`program_returns`).
-/

open Insomniac.Asm Insomniac.Vm Insomniac.Abstract Insomniac.Lib

namespace Insomniac.Compile

/-! ## Jumps and their labels

A label is jumped to from inside the piece of code that it was made for, so each piece has the labels of its own
jumps, but for those it is handed from outside. -/

/-- The label that a token jumps to. -/
def target? : Tok → Option (List UInt8)
  | .jump _ _ l => some l
  | _ => none

/-- The labels that some tokens jump to, in order. -/
def jumpTargets (ts : List Tok) : List (List UInt8) := ts.filterMap target?

section

variable (ts : List Tok)

theorem mem_jumpTargets {ts : List Tok} {o : Op} {takes : o.operandKind = .target} {l : List UInt8}
    (h : Token.jump o takes l ∈ ts) : l ∈ jumpTargets ts := List.mem_filterMap.mpr ⟨_, h, rfl⟩

@[simp] theorem jumpTargets_nil : jumpTargets [] = [] := rfl

/-- The jumps of two sequences of tokens. -/
@[simp] theorem jumpTargets_append (ts' : List Tok) : jumpTargets (ts ++ ts') = jumpTargets ts ++ jumpTargets ts' :=
  List.filterMap_append

/-- Most tokens do not jump. -/
theorem jumpTargets_plain {t : Tok} (h : target? t = none) : jumpTargets (t :: ts) = jumpTargets ts :=
  List.filterMap_cons_none h

/-- A jump and those behind it. -/
@[simp] theorem jumpTargets_jump (l : List UInt8) (type : JumpType) :
    jumpTargets (jumpLabel l type :: ts) = l :: jumpTargets ts := by cases type <;> rfl

@[simp] theorem jumpTargets_unit : jumpTargets (unit :: ts) = jumpTargets ts := rfl

@[simp] theorem jumpTargets_label (l : List UInt8) : jumpTargets (.label l :: ts) = jumpTargets ts := rfl

@[simp] theorem jumpTargets_symbol (name : List UInt8) : jumpTargets (.symbol name :: ts) = jumpTargets ts := rfl

@[simp] theorem jumpTargets_literal (l : Literal) : jumpTargets (l.token :: ts) = jumpTargets ts := by
  rcases l with _ | ⟨_ | _⟩ | _ | _ | _ | _ <;> rfl

/-- An operation is no jump. -/
@[simp] theorem jumpTargets_math (o : MathOp) : jumpTargets (o.token :: ts) = jumpTargets ts := by
  cases o <;> rfl

/-- Neither call is a jump to a label. -/
@[simp] theorem jumpTargets_callOp (tail : Bool) : jumpTargets (callOp tail :: ts) = jumpTargets ts := by
  cases tail <;> rfl

/-- The value of an empty `and` or `or` is no jump. -/
@[simp] theorem jumpTargets_noArgs (andOr : Bool) : jumpTargets (noArgs andOr :: ts) = jumpTargets ts := by
  cases andOr <;> rfl

/-- What is behind a node in a stream is no jump. -/
@[simp] theorem jumpTargets_slot (node : Node) : jumpTargets (slot node ts) = jumpTargets ts := by
  unfold slot
  split
  · rfl
  · rw [jumpTargets_append]
    exact List.append_nil _

@[simp] theorem jumpTargets_formals : ∀ formals : Formals, jumpTargets formals.code = []
  | .fixed => rfl
  | .rest _ => rfl
  | .cons _ .fixed => rfl
  | .cons _ (.rest _) => rfl
  | .cons _ (.cons name next) => jumpTargets_formals (.cons name next)

/-- A procedure has those of its body. -/
@[simp] theorem jumpTargets_procedure (formals : Formals) :
    jumpTargets (procedure formals ts) = jumpTargets ts := by
  simp (disch := decide) only [procedure, jumpTargets_plain, jumpTargets_append, jumpTargets_formals,
    List.nil_append, jumpTargets_nil, List.append_nil]

end

/-- What stands between two operands jumps to the end of all of them, or stays inside. -/
theorem between_targets (done : List UInt8) (andOr : Bool) (k : ℕ) :
    jumpTargets (between done andOr k).1 ⊆ done :: definedLabels (between done andOr k).1 := by
  cases andOr with
  | true => exact List.cons_subset.mpr ⟨.tail _ (.head _), List.cons_subset.mpr ⟨.head _, List.nil_subset _⟩⟩
  | false => exact List.cons_subset.mpr ⟨.head _, List.nil_subset _⟩

/-- Entering a scope jumps to its body and behind it. -/
theorem enterScope_targets (body next : List UInt8) (tail : Bool) :
    jumpTargets (enterScope body next tail) ⊆ [body, next] := by
  cases tail with
  | true => exact List.cons_subset.mpr ⟨.head _, List.nil_subset _⟩
  | false => exact List.Subset.refl _

mutual

/-- **The code of a node has the labels of its jumps.** -/
theorem emitNode_targets : ∀ (node : Node) (tail : Bool) (k : ℕ),
    jumpTargets (emitNode node tail k).1 ⊆ definedLabels (emitNode node tail k).1
  | .literal l, tail, k => by
    simp only [emitNode, emit_pure, jumpTargets_literal, jumpTargets_nil]
    exact List.nil_subset _
  | .load name, tail, k => List.nil_subset _
  | .cond clauses, tail, k => by
    have h := emitClauses_targets clauses (labelText k) tail (k + 1)
    simp (disch := decide) only [emitNode, emit_bind, emit_pure, genLabel_run, definedLabels_append,
      definedLabels_unit, definedLabels_label, definedLabels_nil, jumpTargets_append, jumpTargets_plain,
      jumpTargets_label, jumpTargets_nil]
    grind
  | .ifElse test yes no, tail, k => by
    have ht := emitStream_targets test false (k + 1 + 1)
    have hn := emitStream_targets no tail (emitStream test false (k + 1 + 1)).2
    have hy := emitStream_targets yes tail (emitStream no tail (emitStream test false (k + 1 + 1)).2).2
    simp only [emitNode, emit_bind, emit_pure, genLabel_run, definedLabels_append,
      definedLabels_jump, definedLabels_label, definedLabels_nil, jumpTargets_append, jumpTargets_jump,
      jumpTargets_label, jumpTargets_nil]
    grind
  | .and nodes, tail, k => by
    have h := emitBool_targets nodes (labelText k) true (k + 1)
    simp only [emitNode, emit_bind, emit_pure, genLabel_run, definedLabels_append, definedLabels_label,
      definedLabels_nil, jumpTargets_append, jumpTargets_label, jumpTargets_nil]
    grind
  | .or nodes, tail, k => by
    have h := emitBool_targets nodes (labelText k) false (k + 1)
    simp only [emitNode, emit_bind, emit_pure, genLabel_run, definedLabels_append, definedLabels_label,
      definedLabels_nil, jumpTargets_append, jumpTargets_label, jumpTargets_nil]
    grind
  | .math o stream1 stream2, tail, k => by
    have h1 := emitStream_targets stream1 false k
    have h2 := emitStream_targets stream2 false (emitStream stream1 false k).2
    simp only [emitNode, emit_bind, emit_pure, definedLabels_append, definedLabels_math, definedLabels_nil,
      jumpTargets_append, jumpTargets_math, jumpTargets_nil]
    grind
  | .lambda formals body, tail, k => by
    have h := emitStream_targets body true (k + 1 + 1)
    simp only [emitNode, emit_bind, emit_pure, genLabel_run, definedLabels_append,
      definedLabels_jump, definedLabels_label, definedLabels_nil, definedLabels_procedure, jumpTargets_append,
      jumpTargets_jump, jumpTargets_label, jumpTargets_nil, jumpTargets_procedure]
    grind
  | .call operator operands, tail, k => by
    have h1 := emitOperands_targets operands k
    have h2 := emitStream_targets operator false (emitOperands operands k).2
    simp only [emitNode, emit_bind, emit_pure, definedLabels_append, definedLabels_unit, definedLabels_callOp,
      definedLabels_nil, jumpTargets_append, jumpTargets_unit, jumpTargets_callOp, jumpTargets_nil]
    grind
  | .bind value name, tail, k => by
    have h := emitStream_targets value false k
    simp (disch := decide) only [emitNode, emit_bind, emit_pure, definedLabels_append, jumpTargets_append,
      jumpTargets_plain, jumpTargets_symbol, jumpTargets_nil]
    grind
  | .store value name, tail, k => by
    have h := emitStream_targets value false k
    simp (disch := decide) only [emitNode, emit_bind, emit_pure, definedLabels_append, jumpTargets_append,
      jumpTargets_plain, jumpTargets_symbol, jumpTargets_nil]
    grind
  | .letStar bindings body, tail, k => by
    have h1 := emitStream_targets bindings false (k + 1 + 1)
    have h2 := emitStream_targets body tail (emitStream bindings false (k + 1 + 1)).2
    have henter := enterScope_targets (labelText k) (labelText (k + 1)) tail
    simp (disch := decide) only [emitNode, emit_bind, emit_pure, genLabel_run, definedLabels_append,
      definedLabels_instr, definedLabels_label, definedLabels_nil, definedLabels_enterScope, jumpTargets_append,
      jumpTargets_plain, jumpTargets_label, jumpTargets_nil]
    grind

@[inherit_doc emitNode_targets] theorem emitStream_targets : ∀ (tree : Stream) (tail : Bool) (k : ℕ),
    jumpTargets (emitStream tree tail k).1 ⊆ definedLabels (emitStream tree tail k).1
  | .nil, _, _ => List.nil_subset _
  | .cons head .nil, tail, k => by
    have h := emitNode_targets head tail k
    simp only [emitStream, emit_bind, emit_pure, definedLabels_slot, jumpTargets_slot]
    exact h
  | .cons head (.cons head' next), tail, k => by
    have h := emitNode_targets head false k
    have hnext := emitStream_targets (.cons head' next) tail (emitNode head false k).2
    have hdrop : jumpTargets (if head.pushes then [.op .drop Op.noOperand] else [] : List Tok) = [] := by
      split <;> rfl
    simp only [emitStream, emit_bind, emit_pure, definedLabels_append, jumpTargets_append, hdrop]
    grind

@[inherit_doc emitNode_targets] theorem emitClauses_targets : ∀ (clauses : Clauses) (done : List UInt8) (tail : Bool)
    (k : ℕ), jumpTargets (emitClauses clauses done tail k).1 ⊆
      done :: definedLabels (emitClauses clauses done tail k).1
  | .nil, _, _, _ => List.nil_subset _
  | .cons test body next, done, tail, k => by
    have ht := emitStream_targets test false k
    have hb := emitStream_targets body tail ((emitStream test false k).2 + 1)
    have hnext := emitClauses_targets next done tail (emitStream body tail ((emitStream test false k).2 + 1)).2
    simp (disch := decide) only [emitClauses, emit_bind, emit_pure, genLabel_run, definedLabels_append,
      definedLabels_instr, definedLabels_jump, definedLabels_label, jumpTargets_append, jumpTargets_plain,
      jumpTargets_label, jumpTargets_jump]
    grind

@[inherit_doc emitNode_targets] theorem emitBool_targets : ∀ (nodes : Stream) (done : List UInt8) (andOr : Bool)
    (k : ℕ), jumpTargets (emitBool nodes done andOr k).1 ⊆ done :: definedLabels (emitBool nodes done andOr k).1
  | .nil, _, andOr, k => by
    simp only [emitBool, emit_pure, jumpTargets_noArgs, jumpTargets_nil]
    exact List.nil_subset _
  | .cons head .nil, _, _, k => by
    have h := emitNode_targets head false k
    simp only [emitBool, emit_bind, emit_pure, definedLabels_slot, jumpTargets_slot]
    exact List.Subset.trans h (List.subset_cons_self ..)
  | .cons head (.cons head' next), done, andOr, k => by
    have h := emitNode_targets head false k
    have hbetween := between_targets done andOr (emitNode head false k).2
    have hnext := emitBool_targets (.cons head' next) done andOr (between done andOr (emitNode head false k).2).2
    simp only [emitBool, emit_bind, emit_pure, definedLabels_append, definedLabels_slot, jumpTargets_append,
      jumpTargets_slot]
    grind

@[inherit_doc emitNode_targets] theorem emitOperands_targets : ∀ (operands : Stream) (k : ℕ),
    jumpTargets (emitOperands operands k).1 ⊆ definedLabels (emitOperands operands k).1
  | .nil, _ => List.nil_subset _
  | .cons head next, k => by
    have h := emitNode_targets head false k
    have hnext := emitOperands_targets next (emitNode head false k).2
    simp (disch := decide) only [emitOperands, emit_bind, emit_pure, definedLabels_append, definedLabels_slot,
      definedLabels_instr, jumpTargets_append, jumpTargets_slot, jumpTargets_plain]
    grind

end

/-! ## The text of a program

Three texts one behind the other, the first and the last of which are the same for every program. -/

/-- `compiler_code_gen`, with `emit_bootstrap`. -/
def compilerCodeGen (tree : Stream) (bootstrap : Bool) : List Tok :=
  let code := (emitStream tree false 0).1
  if bootstrap then withPreamble (code ++ postamble) else code

/-- The preamble alone. -/
def preamble : List Tok := withPreamble []

/-- The preamble stands in front of the program. -/
theorem withPreamble_eq (rest : List Tok) : withPreamble rest = preamble ++ rest := by
  simp [preamble, withPreamble]

/-- Where every jump has its label, there is code. -/
theorem asmString_of_targets {ts : List Tok} (h : jumpTargets ts ⊆ definedLabels ts) :
    ∃ bytes, asmString ts = some bytes := by
  have hlabels : ∀ o takes l, Token.jump o takes l ∈ ts → (Assembler.run ts).labels l ≠ none := by
    intro o takes l hjump
    obtain ⟨_, _, -, -, hl⟩ := last_definition (mem_definedLabels.mp (h (mem_jumpTargets hjump)))
    simp [hl]
  have hrun := rewriteJumps_run (Assembler.run ts).labels ts hlabels []
  rw [List.append_nil, List.append_nil] at hrun
  exact ⟨_, hrun⟩

/-- **What the compiler writes, the assembler takes**, with or without the preamble. -/
theorem compiler_code_assembles (tree : Stream) (bootstrap : Bool) :
    ∃ bytes, asmString (compilerCodeGen tree bootstrap) = some bytes := by
  have hcode := emitStream_targets tree false 0
  have hframe : jumpTargets (preamble ++ postamble) ⊆ definedLabels (preamble ++ postamble) := by decide +kernel
  have htargets : jumpTargets (compilerCodeGen tree bootstrap) ⊆ definedLabels (compilerCodeGen tree bootstrap) := by
    cases bootstrap with
    | false => exact hcode
    | true =>
      change jumpTargets (withPreamble _) ⊆ definedLabels (withPreamble _)
      simp only [jumpTargets_append, definedLabels_append, withPreamble_eq] at hframe ⊢
      obtain ⟨hpre, hpost⟩ := List.append_subset.mp hframe
      grind
  exact asmString_of_targets htargets

/-! ## In its place

`asm_string` takes the tokens of the whole, so their code is in place from 0 on and every label leads to where
it stands once. -/

/-- Some tokens, assembled. -/
def Program.of (ts : List Tok) : Program where
  labels := (Assembler.run ts).labels
  code i := ((asmString ts).getD []).getD i 0
  length := codeSize ts

section

variable {ts : List Tok} {bytes : List UInt8} (hbytes : asmString ts = some bytes)

include hbytes

/-- The code of a program is what has been assembled. -/
theorem Program.of_spells : (Program.of ts).code.Spells 0 bytes := fun i hi => by
  change ((asmString ts).getD []).getD (0 + i) 0 = bytes[i]
  rw [hbytes, Option.getD_some, Nat.zero_add]
  exact List.getD_eq_getElem _ _ hi

/-- The code of a program is as long as it is said to be. -/
theorem asmString_length (hsize : codeSize ts < 2 ^ 63) : bytes.length = codeSize ts :=
  (asm_string_placed hsize (label_mem_of_asmString hbytes) hbytes (Program.of_spells hbytes)).1

/-- A new machine runs it. -/
theorem executing_begun (hsize : codeSize ts < 2 ^ 63) : Executing (begun bytes) (.of ts) := by
  refine ⟨?_, asmString_length hbytes hsize⟩
  change some (fun i => bytes.getD i 0) = some fun i => ((asmString ts).getD []).getD i 0
  rw [hbytes]
  rfl

/-- **Tokens that define no label twice sit in their own code.** -/
theorem sits_of_nodup (hsize : codeSize ts < 2 ^ 63) (hnodup : (definedLabels ts).Nodup) :
    Sits (.of ts) 0 ts (codeSize ts) := by
  obtain ⟨-, hplaced⟩ := asm_string_placed hsize (label_mem_of_asmString hbytes) hbytes (Program.of_spells hbytes)
  have happend : Placed (Program.of ts).labels (Program.of ts).code 0 (ts ++ []) := by
    rw [List.append_nil]
    exact hplaced
  have hroom : 0 + codeSize (ts ++ []) ≤ (Program.of ts).length := by
    rw [List.append_nil, Nat.zero_add]
    exact le_rfl
  have hsits := sits_of_placed happend hroom hnodup fun l _ => List.not_mem_nil
  rwa [Nat.zero_add] at hsits

end

/-- The labels of the preamble and the postamble are none that are generated. -/
theorem labelText_not_mem (k : ℕ) : labelText k ∉ definedLabels (preamble ++ postamble) := by
  have hothers : ∀ l ∈ definedLabels (preamble ++ postamble), ¬ text "_label_" <+: l := by decide +kernel
  exact fun h => hothers _ h (List.prefix_append _ _)

/-- **No label of a whole program is defined twice.** -/
theorem compilerCodeGen_nodup (tree : Stream) : (definedLabels (compilerCodeGen tree true)).Nodup := by
  have hcode := emitStream_fresh tree false 0
  have hframe : (definedLabels (preamble ++ postamble)).Nodup := by decide +kernel
  have hother : ∀ l ∈ definedLabels (emitStream tree false 0).1, l ∉ definedLabels (preamble ++ postamble) := by
    intro l hl
    obtain ⟨k, -, -, rfl⟩ := hcode.generated l hl
    exact labelText_not_mem k
  change (definedLabels (withPreamble _)).Nodup
  simp only [withPreamble_eq, definedLabels_append, List.nodup_append, List.mem_append, not_or] at hframe hother ⊢
  grind [hcode.nodup]

/-- **The three parts of a program, in their places.** -/
theorem compilerCodeGen_sits {tree : Stream} (hsize : codeSize (compilerCodeGen tree true) < 2 ^ 63) :
    Sits (.of (compilerCodeGen tree true)) 0 (preamble ++ ((emitStream tree false 0).1 ++ postamble))
      (codeSize (compilerCodeGen tree true)) := by
  obtain ⟨bytes, hbytes⟩ := compiler_code_assembles tree true
  rw [← withPreamble_eq]
  exact sits_of_nodup hbytes hsize (compilerCodeGen_nodup tree)

/-! ## The library

The preamble binds the routines in a scope of its own and then calls what the program defines, in a scope inside
of that one. -/

/-- The names that `user-entry` binds, with the labels of their routines. -/
def userEntries : List (List UInt8 × List UInt8) :=
  [("bootstrap-environment", "env"), ("depth", "scheme-depth"), ("gc-stats", "scheme-gc-stats"),
    ("emergency-exit", "scheme-emergency-exit"), ("car", "scheme-car"), ("cdr", "scheme-cdr"),
    ("set!", "scheme-set!"), ("prim-call/cc", "scheme-call-cc")]

/-- How a routine is bound. -/
def bindEntry (entry : List UInt8 × List UInt8) : List Tok :=
  [jumpLabel entry.2 .proc, .symbol entry.1, .op .bind Op.noOperand]

/-- What `user-entry` does before it binds the routines. -/
def userEntry : List Tok :=
  [.label "user-entry", .op .drop Op.noOperand, .symbol "null-environment", .op .bind Op.noOperand]

/-- The preamble, with the routines of `prim-call/cc` in its middle. -/
theorem preamble_eq : preamble = preambleBefore ++ (preambleCallCc ++
    ([.label "scheme-emergency-exit", .op .drop rfl, .op .car rfl, .op .setExit rfl, .jump .jmp rfl "panic"] ++
      (userEntry ++ (userEntries.flatMap bindEntry ++ [.label "_main"])))) := rfl

/-- The frame that a program begins in, behind its call of `user-entry`. -/
def Program.root (p : Program) : Frame where
  codeRef := some 0
  length := p.length
  ip := 18
  bindings := 2
  handler := false
  handlerAddr := 0

/-- The frame of the call. -/
def Program.main (p : Program) : Frame := { p.root with bindings := 3 }

/-- A routine, in some frames. -/
def Program.routine (p : Program) (here : Frame) (outer : List Frame) (label : List UInt8) : Val :=
  .closure { here with ip := (p.labels label).getD 0 } outer

/-- Bindings with some routines. -/
def Program.bindAll (p : Program) (here : Frame) (outer : List Frame) :
    List (List UInt8 × List UInt8) → Bindings → Bindings
  | [], b => b
  | entry :: entries, b =>
    p.bindAll here outer entries (Function.update b entry.1 (some (p.routine here outer entry.2)))

/-- **What a program finds bound.** -/
def Program.library (p : Program) : Bindings :=
  p.bindAll p.main [p.root] userEntries
    (Function.update (fun _ => none) "null-environment" (some (p.routine p.root [] "env")))

/-- The scopes that a program begins with. -/
def Store.main (p : Program) : Store where
  scopes t := if t = 2 then some fun _ => none else if t = 3 then some fun x => (p.library x).map .other else none
  next := 4

/-! ## Coming to the program

The run of the preamble, token by token: the procedures that it makes, the bindings that it sets, and the call
of the program. -/

section

variable {p : Program} {m : Machine} {a b : ℕ} {s : List Val} {ts : List Tok}

/-- Where the labels of some code lead. -/
theorem Sits.label_of_mem {l : List UInt8} : ∀ {ts : List Tok} {a : ℕ}, Sits p a ts b → l ∈ definedLabels ts →
    ∃ d, p.labels l = some d ∧ d < 2 ^ 63
  | t :: ts, a, h, hl => by
    rcases List.mem_cons.mp (mem_definedLabels.mp hl) with rfl | hmem
    · exact ⟨a, h.label⟩
    · exact h.rest.label_of_mem (mem_definedLabels.mpr hmem)

/-- A binding does not move the machine. -/
@[simp] theorem setTable_here (m : Machine) (t : ℕ) (bs : Bindings) : (m.setTable t bs).here = m.here := rfl

/-- Nor does it change the frames around it. -/
@[simp] theorem setTable_outer (m : Machine) (t : ℕ) (bs : Bindings) : (m.setTable t bs).outer = m.outer := rfl

theorem setTable_of_ne {t t' : ℕ} (h : t' ≠ t) (m : Machine) (bs : Bindings) :
    (m.setTable t bs).tables t' = m.tables t' := Function.update_of_ne h ..

/-- A new frame changes no other table. -/
theorem child_of_ne {m : Machine} {t : ℕ} (h : t ≠ m.next) : m.child.tables t = m.tables t :=
  Function.update_of_ne h ..

/-- **A name is bound** in the current frame. -/
theorem Sits.bind {name : List UInt8} (h : Sits p a (.symbol name :: .op .bind Op.noOperand :: ts) b)
    (hm : Executing m p) (hname : 0 ∉ name) {bs : Bindings} (hbs : m.tables m.here.bindings = some bs) (v : Val)
    (s : List Val) : ∃ a', Sits p a' ts b ∧
      Runs (m.at a (v :: s)) ((m.setTable m.here.bindings (Function.update bs name (some v))).at a' s) := by
  have hsize : (Token.symbol name : Tok).size = 9 + name.length := by
    rw [Token.size, Bytes.cstr_eq_self fun b hb hzero => hname (hzero ▸ hb)]
  have hsymbol := h.holds.symbol (s := v :: s) hm hname
  rw [← hsize] at hsymbol
  refine ⟨_, h.rest.rest, hsymbol.trans (h.rest.op hm ?_)⟩
  change Machine.setIn _ m.here.bindings name v = _
  rw [Machine.setIn]
  change m.tables m.here.bindings >>= _ = _
  rw [hbs]
  rfl

/-- **A name is read.** -/
theorem Sits.read {name : List UInt8} (h : Sits p a (.symbol name :: .op .read Op.noOperand :: ts) b)
    (hm : Executing m p) (hname : 0 ∉ name) {t : ℕ} {v : Val}
    (hfind : findFrame m.tables name (m.here :: m.outer) = some (t, v)) (s : List Val) :
    ∃ a', Sits p a' ts b ∧ Runs (m.at a s) (m.at a' (v :: s)) := by
  have hsize : (Token.symbol name : Tok).size = 9 + name.length := by
    rw [Token.size, Bytes.cstr_eq_self fun b hb hzero => hname (hzero ▸ hb)]
  have hsymbol := h.holds.symbol (s := s) hm hname
  rw [← hsize] at hsymbol
  refine ⟨_, h.rest.rest, hsymbol.trans (h.rest.op hm ?_)⟩
  change (findFrame m.tables name (m.here :: m.outer)).map _ = _
  rw [hfind]
  rfl

/-- **The routines are bound**, one after the other. -/
theorem Sits.bindAll : ∀ {entries : List (List UInt8 × List UInt8)} {m : Machine} {bs : Bindings} {a : ℕ},
    Sits p a (entries.flatMap bindEntry ++ ts) b → Executing m p → m.tables m.here.bindings = some bs →
      (∀ e ∈ entries, 0 ∉ e.1 ∧ ∃ d, p.labels e.2 = some d ∧ d < 2 ^ 63) →
        ∃ a', Sits p a' ts b ∧ Runs (m.at a s)
          ((m.setTable m.here.bindings (p.bindAll m.here m.outer entries bs)).at a' s)
  | [], m, bs, a, h, _, hbs, _ => by
    refine ⟨a, h, ?_⟩
    rw [Program.bindAll, setTable_self hbs]
  | entry :: entries, m, bs, a, h, hm, hbs, hentries => by
    obtain ⟨⟨hname, d, hd, hlt⟩, hentries⟩ := List.forall_mem_cons.mp hentries
    have hproc := h.proc hm s ⟨hd, hlt⟩
    obtain ⟨a1, hsits, hbind⟩ := h.rest.bind hm hname hbs (.closure { m.here with ip := d } m.outer) s
    let bs1 := Function.update bs entry.1 (some (p.routine m.here m.outer entry.2))
    have hroutine : (Val.closure { m.here with ip := d } m.outer) = p.routine m.here m.outer entry.2 := by
      rw [Program.routine, hd, Option.getD_some]
    rw [hroutine] at hbind hproc
    obtain ⟨a', hsits', hruns⟩ := Sits.bindAll (m := m.setTable m.here.bindings bs1) hsits hm
      (setTable_tables _ _ _) hentries
    simp only [setTable_here, setTable_outer, setTable_setTable] at hruns
    exact ⟨a', hsits', hproc.trans (hbind.trans hruns)⟩

end

/-- An object of the library is what it is. -/
theorem optionRel_other (codes : ℕ → Option Code) : ∀ v : Option Val, Option.Rel (Denotes codes) (v.map .other) v
  | none => .none
  | some v => .some (.other v)

/-- The state with the library bound agrees with the scopes. -/
theorem agrees_main {p : Program} {m : Machine} (hnext : m.next = 4) (hroot : m.tables 2 = some fun _ => none)
    (hmain : m.tables 3 = some p.library) : Agrees (.main p) m where
  next := hnext.symm
  scopes t bindings ht := by
    simp only [Store.main] at ht
    split at ht
    · next h2 =>
      cases ht
      exact ⟨_, h2 ▸ hroot, fun _ => .none⟩
    · split at ht
      · next h3 =>
        cases ht
        exact ⟨_, h3 ▸ hmain, fun x => optionRel_other m.codes (p.library x)⟩
      · cases ht

/-- **A new machine comes to the program**, with the library bound and nothing on the stack. -/
theorem startup_runs {ts : List Tok} {bytes : List UInt8} (hbytes : asmString (preamble ++ ts) = some bytes)
    (hsize : codeSize (preamble ++ ts) < 2 ^ 63) {b : ℕ}
    (hsits : Sits (.of (preamble ++ ts)) 0 (preamble ++ ts) b) :
    ∃ m, Runs (begun bytes) (m.at (codeSize preamble) []) ∧
      Stage (.of (preamble ++ ts)) [3, 2] (.main (.of (preamble ++ ts))) m ∧
        m.here = Program.main (.of (preamble ++ ts)) := by
  have hm := executing_begun hbytes hsize
  generalize hp : Program.of (preamble ++ ts) = p at *
  clear hp
  have hlabels : ∀ l ∈ definedLabels preamble, ∃ d, p.labels l = some d ∧ d < 2 ^ 63 := by
    obtain ⟨_, hpre, -⟩ := sits_append.mp hsits
    exact fun l hl => hpre.label_of_mem hl
  have hentries : ∀ e ∈ userEntries, 0 ∉ e.1 ∧ ∃ d, p.labels e.2 = some d ∧ d < 2 ^ 63 := by
    have hnames : ∀ e ∈ userEntries, (0 : UInt8) ∉ e.1 ∧ e.2 ∈ definedLabels preamble := by decide +kernel
    exact fun e he => ⟨(hnames e he).1, hlabels _ (hnames e he).2⟩
  obtain ⟨d, hd⟩ := hlabels "env" (by decide +kernel)
  have hbegin : ∃ rest, preamble ++ ts = jumpLabel "env" .proc :: jumpLabel "user-entry" .call :: rest := ⟨_, rfl⟩
  obtain ⟨rest, hrest⟩ := hbegin
  have hhead := hsits
  rw [hrest] at hhead
  -- the routines of the preamble are passed over
  obtain ⟨a1, hpre, hcode⟩ := sits_append.mp hsits
  have ha1 : codeSize preamble = a1 := by rw [hpre.end_eq, Nat.zero_add]
  rw [ha1]
  rw [preamble_eq] at hpre
  obtain ⟨_, -, hpre⟩ := sits_append.mp hpre
  obtain ⟨_, -, hpre⟩ := sits_append.mp hpre
  obtain ⟨_, -, hpre⟩ := sits_append.mp hpre
  have hproc := hhead.proc hm [] hd
  have hcall := hhead.rest.call hm [.closure { (begun bytes).here with ip := d } (begun bytes).outer] hpre.label
  have hroutine : Val.closure { (begun bytes).here with ip := d } (begun bytes).outer =
      p.routine p.root [] "env" := by
    have hlength' : bytes.length = p.length := hm.2
    rw [Program.routine, hd.1, Option.getD_some, Program.root, ← hlength']
    rfl
  rw [hroutine] at hproc hcall
  let ret : Val := .closure { (begun bytes).here with ip := 0 + 9 + 9 } (begun bytes).outer
  let m1 := ((begun bytes).at (0 + 9 + 9) [ret, p.routine p.root [] "env"]).child
  have hm1 : Executing m1 p := hm
  have hdrop : Runs (m1.at _ [ret, p.routine p.root [] "env"]) (m1.at _ [p.routine p.root [] "env"]) :=
    hpre.rest.op hm1 rfl
  have hnone : m1.tables m1.here.bindings = some fun _ => none := by
    change Function.update (begun bytes).tables 3 (some fun _ => none) 3 = _
    exact Function.update_self ..
  obtain ⟨a2, hbinds, hnull⟩ := hpre.rest.rest.bind hm1 (by decide +kernel) hnone (p.routine p.root [] "env") []
  let b1 : Bindings := Function.update (fun _ => none) "null-environment" (some (p.routine p.root [] "env"))
  obtain ⟨a3, hend, hbind⟩ := hbinds.bindAll (m := m1.setTable m1.here.bindings b1) (s := []) hm1
    (setTable_tables _ _ _) hentries
  obtain rfl : a3 = a1 := hend.rest
  have hhere : m1.here = p.main := by
    have hlength' : bytes.length = p.length := hm.2
    rw [Program.main, Program.root, ← hlength']
    rfl
  have houter : m1.outer = [p.root] := by
    have hlength' : bytes.length = p.length := hm.2
    rw [Program.root, ← hlength']
    rfl
  simp only [setTable_here, setTable_outer, setTable_setTable] at hbind
  let m2 := m1.setTable m1.here.bindings (p.bindAll m1.here m1.outer userEntries b1)
  have hlibrary : p.bindAll m1.here m1.outer userEntries b1 = p.library := by
    rw [hhere, houter]
    rfl
  have hagrees : Agrees (.main p) m2 := by
    refine agrees_main rfl ?_ ?_
    · have h3 : (2 : ℕ) ≠ 3 := by decide
      exact (setTable_of_ne h3 m1 _).trans (child_of_ne h3)
    · rw [← hlibrary]
      exact setTable_tables ..
  refine ⟨m2, ?_, ⟨hm1, ?_, hagrees⟩, hhere⟩
  · exact hproc.trans (hcall.trans (hdrop.trans (hnull.trans hbind)))
  · change scopesOf (m1.here :: m1.outer) = [3, 2]
    rw [hhere, houter]
    rfl

end Insomniac.Compile

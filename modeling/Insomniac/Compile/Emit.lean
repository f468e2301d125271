import Insomniac.Asm.Placed
import Insomniac.Compile.Syntax
import Insomniac.Lib.Preamble

/-!
# Compile/Emit — `emit_stream`

The code generator of `bootstrap_emit.c`, token by token; comments and debugging directives make no code
and are left out.  What counts up is `label_index`, so no two labels are the same (`emitStream_fresh`).

    ⟨test⟩ jnf true ⟨no⟩ jmp done true: ⟨yes⟩ done:
-/

open Insomniac.Asm Insomniac.Vm Insomniac.Lib

namespace Insomniac.Compile

/-! ## Pieces

What several nodes have in common, and the tokens that stand for a few letters in the source. -/

/-- `label_index`. -/
abbrev Emit := StateM ℕ

/-- The text of a label. -/
def labelText (index : ℕ) : List UInt8 := text "_label_" ++ text (toString index)

/-- `gen_label`. -/
def genLabel : Emit (List UInt8) := modifyGet fun index => (labelText index, index + 1)

/-- The operations that `emit_jump_label` knows. -/
inductive JumpType
  | call | proc | jmp | jnf

/-- `emit_jump_label`. -/
def jumpLabel (label : List UInt8) : JumpType → Tok
  | .call => .jump .call Op.aTarget label
  | .proc => .jump .proc Op.aTarget label
  | .jmp => .jump .jmp Op.aTarget label
  | .jnf => .jump .jnf Op.aTarget label

/-- `()`. -/
def unit : Tok := .op .litEmpty Op.noOperand

/-- `emit_literal`, `emit_string`, and `emit_quoted` of a symbol. -/
def Literal.token : Literal → Tok
  | .empty => unit
  | .boolean true => .op .litTrue Op.noOperand
  | .boolean false => .op .litFalse Op.noOperand
  | .fixnum i => .fixnum i
  | .char c => .char c
  | .string str => .string str.bytes
  | .symbol name => .symbol name.bytes

/-- The operation of a `MATH_OPS`. -/
def MathOp.token : MathOp → Tok
  | .add => .op .add Op.noOperand
  | .sub => .op .sub Op.noOperand
  | .mul => .op .mul Op.noOperand
  | .div => .op .div Op.noOperand
  | .mod => .op .mod Op.noOperand
  | .equal => .op .numericEqual Op.noOperand
  | .lt => .op .numericLt Op.noOperand
  | .gt => .op .numericGt Op.noOperand

/-- What takes the arguments apart, in `emit_lambda`. -/
def Formals.code : Formals → List Tok
  | .fixed => [.op .drop Op.noOperand]
  | .rest name => [.symbol name.bytes, .op .bind Op.noOperand]
  | .cons name next =>
    .op .dupRef Op.noOperand :: .op .car Op.noOperand :: .symbol name.bytes :: .op .bind Op.noOperand ::
      match next with
      | .fixed => next.code
      | _ => .op .cdr Op.noOperand :: next.code

/-- The code of a procedure, from its label on. -/
def procedure (formals : Formals) (body : List Tok) : List Tok :=
  .op .swap Op.noOperand :: (formals.code ++ (body ++ [.op .swap Op.noOperand, .op .ret Op.noOperand]))

/-- What a node pushes, or `()`. -/
def slot (node : Node) (code : List Tok) : List Tok := if node.pushes then code else code ++ [unit]

/-- What is between the operands of `and` and `or`. -/
def between (done : List UInt8) : (andOr : Bool) → Emit (List Tok)
  | true => do
    let next ← genLabel
    pure [.op .dupRef Op.noOperand, jumpLabel next .jnf, jumpLabel done .jmp, .label next,
      .op .drop Op.noOperand]
  | false => pure [.op .dupRef Op.noOperand, jumpLabel done .jnf, .op .drop Op.noOperand]

/-- `#t` or `#f`, of `and` and `or` without operands. -/
def noArgs : (andOr : Bool) → Tok
  | true => .op .litTrue Op.noOperand
  | false => .op .litFalse Op.noOperand

/-- How `emit_let_star` enters its scope. -/
def enterScope (body next : List UInt8) : (tailCall : Bool) → List Tok
  | true => [unit, jumpLabel body .proc, .op .tailCallIn Op.noOperand, .label body,
      .op .swap Op.noOperand, .op .drop Op.noOperand]
  | false => [jumpLabel body .call, jumpLabel next .jmp, .label body]

/-- How `emit_call` calls. -/
def callOp : (tailCall : Bool) → Tok
  | true => .op .tailCallIn Op.noOperand
  | false => .op .callIn Op.noOperand

/-! ## The code generator

A recursion over the tree with a counter for the labels.  The flag says that the code is left for good at its
end, by a return of its own or by a call that returns for it. -/

mutual

/-- `emit_node`. -/
def emitNode : Node → (allowTailCall : Bool) → Emit (List Tok)
  | .literal l, _ => pure [l.token]
  | .load name, _ => pure [.symbol name.bytes, .op .read Op.noOperand]
  | .cond clauses, tail => do
    let done ← genLabel
    let clauses ← emitClauses clauses done tail
    pure (clauses ++ [unit, .label done])
  | .ifElse test yes no, tail => do
    let trueLabel ← genLabel
    let done ← genLabel
    let test ← emitStream test false
    let no ← emitStream no tail
    let yes ← emitStream yes tail
    pure (test ++ jumpLabel trueLabel .jnf :: (no ++ jumpLabel done .jmp :: .label trueLabel ::
      (yes ++ [.label done])))
  | .and nodes, _ => do
    let done ← genLabel
    let nodes ← emitBool nodes done true
    pure (nodes ++ [.label done])
  | .or nodes, _ => do
    let done ← genLabel
    let nodes ← emitBool nodes done false
    pure (nodes ++ [.label done])
  | .math o stream1 stream2, _ => do
    let code1 ← emitStream stream1 false
    let code2 ← emitStream stream2 false
    pure (code1 ++ (code2 ++ [o.token]))
  | .lambda formals body, _ => do
    let proc ← genLabel
    let skip ← genLabel
    let body ← emitStream body true
    pure (jumpLabel skip .jmp :: .label proc ::
      (procedure formals body ++ [.label skip, jumpLabel proc .proc]))
  | .call operator operands, tail => do
    let operands ← emitOperands operands
    let operator ← emitStream operator false
    pure (unit :: (operands ++ (operator ++ [callOp tail])))
  | .bind value name, _ => do
    let value ← emitStream value false
    pure (value ++ [.symbol name.bytes, .op .bind Op.noOperand])
  | .store value name, _ => do
    let value ← emitStream value false
    pure (value ++ [.symbol name.bytes, .op .set Op.noOperand])
  | .letStar bindings body, tail => do
    let bodyLabel ← genLabel
    let next ← genLabel
    let bindings ← emitStream bindings false
    let body ← emitStream body tail
    pure (enterScope bodyLabel next tail ++ (bindings ++ .op .drop Op.noOperand ::
      (body ++ [.op .swap Op.noOperand, .op .ret Op.noOperand, .label next])))

/-- `emit_stream`. -/
def emitStream : Stream → (allowTailCall : Bool) → Emit (List Tok)
  | .nil, _ => pure [unit]
  | .cons head .nil, tail => do
    let code ← emitNode head tail
    pure (slot head code)
  | .cons head (.cons head' next), tail => do
    let code ← emitNode head false
    let rest ← emitStream (.cons head' next) tail
    pure (code ++ ((if head.pushes then [.op .drop Op.noOperand] else []) ++ rest))

/-- The loop of `emit_cond`. -/
def emitClauses : Clauses → (done : List UInt8) → (allowTailCall : Bool) → Emit (List Tok)
  | .nil, _, _ => pure []
  | .cons test body next, done, tail => do
    let test ← emitStream test false
    let nextLabel ← genLabel
    let body ← emitStream body tail
    let rest ← emitClauses next done tail
    pure (test ++ .op .not Op.noOperand :: jumpLabel nextLabel .jnf ::
      (body ++ jumpLabel done .jmp :: .label nextLabel :: rest))

/-- The loop of `emit_bool`. -/
def emitBool : Stream → (done : List UInt8) → (andOr : Bool) → Emit (List Tok)
  | .nil, _, andOr => pure [noArgs andOr]
  | .cons head .nil, _, _ => do
    let code ← emitNode head false
    pure (slot head code)
  | .cons head (.cons head' next), done, andOr => do
    let code ← emitNode head false
    let jumps ← between done andOr
    let rest ← emitBool (.cons head' next) done andOr
    pure (slot head code ++ (jumps ++ rest))

/-- The loop of `emit_call`. -/
def emitOperands : Stream → Emit (List Tok)
  | .nil => pure []
  | .cons head next => do
    let code ← emitNode head false
    let rest ← emitOperands next
    pure (slot head code ++ .op .cons Op.noOperand :: rest)

end

/-! ## Labels

A label is the text of a number, and the counter only goes up.  So the labels of a piece of code are between the
counter before and the counter behind it, and two pieces have none in common. -/

/-- One emitter behind another counts on from where the first has stopped. -/
theorem emit_bind {α β : Type} (x : Emit α) (f : α → Emit β) (k : ℕ) : (x >>= f) k = f (x k).1 (x k).2 := rfl

theorem emit_pure {α : Type} (a : α) (k : ℕ) : (pure a : Emit α) k = (a, k) := rfl

theorem genLabel_run (k : ℕ) : genLabel k = (labelText k, k + 1) := rfl

/-- The digits of a number are found again from their bytes. -/
theorem map_ofNat_toString (n : ℕ) :
    (text (toString n)).map (fun b => Char.ofNat b.toNat) = (toString n).toList := by
  rw [text, List.map_map]
  refine (List.map_congr_left fun c hc => ?_).trans (List.map_id _)
  have hdigit : c.isDigit := by
    change c ∈ (Nat.repr n).toList at hc
    rw [Nat.toList_repr] at hc
    exact Nat.isDigit_of_mem_toDigits (by decide) (by decide) hc
  obtain ⟨hlo, hhi⟩ : 48 ≤ c.toNat ∧ c.toNat ≤ 57 := by
    simpa [Char.isDigit, UInt32.le_iff_toNat_le] using hdigit
  have hbyte : (UInt8.ofNat c.toNat).toNat = c.toNat := by
    rw [UInt8.toNat_ofNat']
    omega
  simp only [Function.comp_apply, hbyte, Char.ofNat_toNat, id]

/-- **Labels of different numbers are different.** -/
theorem labelText_injective : Function.Injective labelText := fun a b h => by
  have htext : text (toString a) = text (toString b) := List.append_cancel_left h
  have hchars := (map_ofNat_toString a).symm.trans ((congrArg _ htext).trans (map_ofNat_toString b))
  have hstring : Nat.repr a = Nat.repr b := String.toList_injective hchars
  have hdigits := congrArg (Nat.ofDigitChars 10 ·.toList 0) hstring
  simpa [Nat.toList_repr] using hdigits

/-- **Some labels that were generated** while `label_index` went from `k` to `k'`, each of them once. -/
structure Fresh (k k' : ℕ) (ls : List (List UInt8)) : Prop where
  le : k ≤ k'
  nodup : ls.Nodup
  generated : ∀ l ∈ ls, ∃ i, k ≤ i ∧ i < k' ∧ l = labelText i

namespace Fresh

variable {k k' k'' : ℕ} {ls ls' : List (List UInt8)}

theorem nil (k : ℕ) : Fresh k k [] := ⟨le_rfl, List.nodup_nil, by simp⟩

/-- The labels of two pieces of code. -/
theorem append (h : Fresh k k' ls) (h' : Fresh k' k'' ls') : Fresh k k'' (ls ++ ls') where
  le := h.le.trans h'.le
  nodup := by
    refine List.nodup_append.mpr ⟨h.nodup, h'.nodup, ?_⟩
    rintro l hl _ hl' rfl
    obtain ⟨i, -, hi, rfl⟩ := h.generated l hl
    obtain ⟨j, hj, -, hij⟩ := h'.generated _ hl'
    have := labelText_injective hij
    omega
  generated l hl := by
    have hle := h.le
    have hle' := h'.le
    rcases List.mem_append.mp hl with hl | hl
    · obtain ⟨i, hi, hi', rfl⟩ := h.generated l hl
      exact ⟨i, hi, by omega, rfl⟩
    · obtain ⟨i, hi, hi', rfl⟩ := h'.generated l hl
      exact ⟨i, by omega, hi', rfl⟩

theorem label (k : ℕ) : Fresh k (k + 1) [labelText k] where
  le := Nat.le_succ k
  nodup := by simp
  generated l hl := ⟨k, le_rfl, Nat.lt_succ_self k, List.mem_singleton.mp hl⟩

/-- A label that was generated first. -/
theorem cons (h : Fresh (k + 1) k' ls) : Fresh k k' (labelText k :: ls) := (label k).append h

/-- The order of labels does not matter. -/
theorem perm (h : Fresh k k' ls) (hperm : ls.Perm ls') : Fresh k k' ls' where
  le := h.le
  nodup := hperm.nodup_iff.mp h.nodup
  generated l hl := h.generated l (hperm.mem_iff.mpr hl)

end Fresh

section

variable (ts : List Tok)

@[simp] theorem definedLabels_nil : definedLabels ([] : List Tok) = [] := rfl

/-- Instructions define no labels. -/
theorem definedLabels_instr {t : Tok} (h : t.isInstr = true) : definedLabels (t :: ts) = definedLabels ts := by
  cases t <;> first | rfl | cases h

@[simp] theorem definedLabels_jump (l : List UInt8) (type : JumpType) :
    definedLabels (jumpLabel l type :: ts) = definedLabels ts := by cases type <;> rfl

@[simp] theorem definedLabels_label (l : List UInt8) :
    definedLabels (.label l :: ts) = l :: definedLabels ts := rfl

@[simp] theorem definedLabels_unit : definedLabels (unit :: ts) = definedLabels ts := rfl

@[simp] theorem definedLabels_literal (l : Literal) : definedLabels (l.token :: ts) = definedLabels ts := by
  rcases l with _ | ⟨_ | _⟩ | _ | _ | _ | _ <;> rfl

@[simp] theorem definedLabels_math (o : MathOp) : definedLabels (o.token :: ts) = definedLabels ts := by
  cases o <;> rfl

@[simp] theorem definedLabels_callOp (tail : Bool) : definedLabels (callOp tail :: ts) = definedLabels ts := by
  cases tail <;> rfl

/-- The value of an empty `and` or `or` defines none. -/
@[simp] theorem definedLabels_noArgs (andOr : Bool) : definedLabels (noArgs andOr :: ts) = definedLabels ts := by
  cases andOr <;> rfl

/-- Entering a scope defines the label of its body. -/
@[simp] theorem definedLabels_enterScope (body next : List UInt8) (tail : Bool) :
    definedLabels (enterScope body next tail) = [body] := by cases tail <;> rfl

/-- What is behind a node in a stream defines none of its own. -/
@[simp] theorem definedLabels_slot (node : Node) : definedLabels (slot node ts) = definedLabels ts := by
  unfold slot
  split
  · rfl
  · rw [definedLabels_append]
    exact List.append_nil _

@[simp] theorem definedLabels_formals : ∀ formals : Formals, definedLabels formals.code = []
  | .fixed => rfl
  | .rest _ => rfl
  | .cons _ .fixed => rfl
  | .cons _ (.rest _) => rfl
  | .cons _ (.cons name next) => definedLabels_formals (.cons name next)

/-- A procedure defines those of its body. -/
@[simp] theorem definedLabels_procedure (formals : Formals) :
    definedLabels (procedure formals ts) = definedLabels ts := by
  simp (disch := decide) only [procedure, definedLabels_instr, definedLabels_append, definedLabels_formals,
    List.nil_append, definedLabels_nil, List.append_nil]

end

/-- What stands between two operands of `and` or `or`. -/
theorem between_fresh (done : List UInt8) (andOr : Bool) (k : ℕ) :
    Fresh k (between done andOr k).2 (definedLabels (between done andOr k).1) := by
  cases andOr with
  | true => exact .label k
  | false => exact .nil k

mutual

/-- **The code of a node defines the labels that were generated for it**, each of them once. -/
theorem emitNode_fresh : ∀ (node : Node) (tail : Bool) (k : ℕ),
    Fresh k (emitNode node tail k).2 (definedLabels (emitNode node tail k).1)
  | .literal l, tail, k => by
    simp (disch := decide) only [emitNode, emit_pure, definedLabels_literal]
    exact .nil k
  | .load name, tail, k => .nil k
  | .cond clauses, tail, k => by
    have h := emitClauses_fresh clauses (labelText k) tail (k + 1)
    simp (disch := decide) only [emitNode, emit_bind, emit_pure, genLabel_run, definedLabels_append]
    exact h.cons.perm (List.perm_append_singleton _ _).symm
  | .ifElse test yes no, tail, k => by
    have ht := emitStream_fresh test false (k + 1 + 1)
    have hn := emitStream_fresh no tail (emitStream test false (k + 1 + 1)).2
    have hy := emitStream_fresh yes tail (emitStream no tail (emitStream test false (k + 1 + 1)).2).2
    simp (disch := decide) only [emitNode, emit_bind, emit_pure, genLabel_run, definedLabels_append,
      definedLabels_jump, definedLabels_label, definedLabels_nil]
    refine (ht.append (hn.append hy)).cons.cons.perm (List.perm_iff_count.mpr fun l => ?_)
    simp only [List.count_append, List.count_cons, List.count_nil]
    omega
  | .and nodes, tail, k => by
    have h := emitBool_fresh nodes (labelText k) true (k + 1)
    simp (disch := decide) only [emitNode, emit_bind, emit_pure, genLabel_run, definedLabels_append]
    exact h.cons.perm (List.perm_append_singleton _ _).symm
  | .or nodes, tail, k => by
    have h := emitBool_fresh nodes (labelText k) false (k + 1)
    simp (disch := decide) only [emitNode, emit_bind, emit_pure, genLabel_run, definedLabels_append]
    exact h.cons.perm (List.perm_append_singleton _ _).symm
  | .math o stream1 stream2, tail, k => by
    have h1 := emitStream_fresh stream1 false k
    have h2 := emitStream_fresh stream2 false (emitStream stream1 false k).2
    simp (disch := decide) only [emitNode, emit_bind, emit_pure, definedLabels_append, definedLabels_math,
      definedLabels_nil, List.append_nil]
    exact h1.append h2
  | .lambda formals body, tail, k => by
    have h := emitStream_fresh body true (k + 1 + 1)
    simp (disch := decide) only [emitNode, emit_bind, emit_pure, genLabel_run, definedLabels_append,
      definedLabels_jump, definedLabels_label, definedLabels_nil, definedLabels_procedure]
    exact h.cons.cons.perm ((List.perm_append_singleton _ _).symm.cons _)
  | .call operator operands, tail, k => by
    have h1 := emitOperands_fresh operands k
    have h2 := emitStream_fresh operator false (emitOperands operands k).2
    simp (disch := decide) only [emitNode, emit_bind, emit_pure, definedLabels_append, definedLabels_unit,
      definedLabels_callOp, definedLabels_nil, List.append_nil]
    exact h1.append h2
  | .bind value name, tail, k => by
    have h := emitStream_fresh value false k
    simp (disch := decide) only [emitNode, emit_bind, emit_pure, definedLabels_append]
    exact h.append (.nil _)
  | .store value name, tail, k => by
    have h := emitStream_fresh value false k
    simp (disch := decide) only [emitNode, emit_bind, emit_pure, definedLabels_append]
    exact h.append (.nil _)
  | .letStar bindings body, tail, k => by
    have h1 := emitStream_fresh bindings false (k + 1 + 1)
    have h2 := emitStream_fresh body tail (emitStream bindings false (k + 1 + 1)).2
    simp (disch := decide) only [emitNode, emit_bind, emit_pure, genLabel_run, definedLabels_append,
      definedLabels_instr, definedLabels_label, definedLabels_nil, definedLabels_enterScope]
    refine (h1.append h2).cons.cons.perm (List.perm_iff_count.mpr fun l => ?_)
    simp only [List.count_append, List.count_cons, List.count_nil]
    omega

@[inherit_doc emitNode_fresh] theorem emitStream_fresh : ∀ (tree : Stream) (tail : Bool) (k : ℕ),
    Fresh k (emitStream tree tail k).2 (definedLabels (emitStream tree tail k).1)
  | .nil, _, k => .nil k
  | .cons head .nil, tail, k => by
    have h := emitNode_fresh head tail k
    simp (disch := decide) only [emitStream, emit_bind, emit_pure, definedLabels_slot]
    exact h
  | .cons head (.cons head' next), tail, k => by
    have h := emitNode_fresh head false k
    have hnext := emitStream_fresh (.cons head' next) tail (emitNode head false k).2
    have hdrop : definedLabels (if head.pushes then [.op .drop Op.noOperand] else [] : List Tok) = [] := by
      split <;> rfl
    simp (disch := decide) only [emitStream, emit_bind, emit_pure, definedLabels_append, hdrop, List.nil_append]
    exact h.append hnext

@[inherit_doc emitNode_fresh] theorem emitClauses_fresh : ∀ (clauses : Clauses) (done : List UInt8) (tail : Bool)
    (k : ℕ), Fresh k (emitClauses clauses done tail k).2 (definedLabels (emitClauses clauses done tail k).1)
  | .nil, _, _, k => .nil k
  | .cons test body next, done, tail, k => by
    have ht := emitStream_fresh test false k
    have hb := emitStream_fresh body tail ((emitStream test false k).2 + 1)
    have hnext := emitClauses_fresh next done tail (emitStream body tail ((emitStream test false k).2 + 1)).2
    simp (disch := decide) only [emitClauses, emit_bind, emit_pure, genLabel_run, definedLabels_append,
      definedLabels_instr, definedLabels_jump, definedLabels_label]
    exact ht.append ((hb.append hnext).cons.perm List.perm_middle.symm)

@[inherit_doc emitNode_fresh] theorem emitBool_fresh : ∀ (nodes : Stream) (done : List UInt8) (andOr : Bool)
    (k : ℕ), Fresh k (emitBool nodes done andOr k).2 (definedLabels (emitBool nodes done andOr k).1)
  | .nil, _, andOr, k => by
    simp (disch := decide) only [emitBool, emit_pure, definedLabels_noArgs]
    exact .nil k
  | .cons head .nil, _, _, k => by
    have h := emitNode_fresh head false k
    simp (disch := decide) only [emitBool, emit_bind, emit_pure, definedLabels_slot]
    exact h
  | .cons head (.cons head' next), done, andOr, k => by
    have h := emitNode_fresh head false k
    have hbetween := between_fresh done andOr (emitNode head false k).2
    have hnext := emitBool_fresh (.cons head' next) done andOr (between done andOr (emitNode head false k).2).2
    simp (disch := decide) only [emitBool, emit_bind, emit_pure, definedLabels_append, definedLabels_slot]
    exact h.append (hbetween.append hnext)

@[inherit_doc emitNode_fresh] theorem emitOperands_fresh : ∀ (operands : Stream) (k : ℕ),
    Fresh k (emitOperands operands k).2 (definedLabels (emitOperands operands k).1)
  | .nil, k => .nil k
  | .cons head next, k => by
    have h := emitNode_fresh head false k
    have hnext := emitOperands_fresh next (emitNode head false k).2
    simp (disch := decide) only [emitOperands, emit_bind, emit_pure, definedLabels_append, definedLabels_slot,
      definedLabels_instr]
    exact h.append hnext

end

end Insomniac.Compile

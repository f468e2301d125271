import Insomniac.Asm.Lexer

/-!
# Bootstrap/Lines — the lines that the compiler writes

    emit_op(str)        "        " ++ str ++ "\n"

Each instruction has a line of its own, so what the assembler's lexer sees is its text, between white
space.  `lex_line` skips to the text, and the text is lexed with a newline behind it.
-/

open Munch RegularExpression Insomniac.Asm Insomniac.Vm

namespace Insomniac.Bootstrap

/-! ## Writing

The functions of the emitter that write a line, as they put blanks, an operation and a newline behind one
another. -/

/-- `emit_newline`. -/
def emitNewline : List UInt8 := text "\n"

/-- `emit_indent`. -/
def emitIndent : List UInt8 := text "        "

/-- What `emit_op` writes. -/
def emitOp (str : List UInt8) : List UInt8 := emitIndent ++ str ++ emitNewline

/-- What `emit_string` writes. -/
def emitString (literal : List UInt8) : List UInt8 :=
  emitIndent ++ text "\"" ++ literal ++ text "\"" ++ emitNewline

/-- The text of `stream_char`. -/
def streamChar (str : List UInt8) : List UInt8 := text "#\\" ++ str

/-- The text of `stream_symbol`. -/
def streamSymbol (str : List UInt8) : List UInt8 := text "s\"" ++ str ++ text "\""

/-! ## Lexing

The rules match no longer than the line, since none of them matches a newline inside of a token. -/

/-- **White space is skipped.** -/
theorem lex_ws {b : UInt8} (hb : b ∈ ws) (rest : List UInt8) :
    lexFrom .initial (b :: rest) = lexFrom .initial rest := by
  have hstuck : ∀ b ∈ ws, ∀ r ∈ lexRules .initial, stuck (behind r.pattern [b]) = true := by decide +kernel
  have hfind : (lexRules .initial).find? (·.pattern.rmatch [b]) = some (ignore (oneOf ws)) :=
    List.find?_cons_of_pos ((rmatch_iff_matches' _ _).mpr (mem_oneOf.mpr ⟨b, hb, rfl⟩))
  exact lex_eq (atMost_of_stuck (hstuck b hb)) hfind rfl (List.cons_ne_nil b [])

/-- Blanks in front of a line are passed over. -/
theorem lex_indent (rest : List UInt8) : lexFrom .initial (emitIndent ++ rest) = lexFrom .initial rest := by
  have hspaces : emitIndent = List.replicate 8 32 := by decide
  have hspace : (32 : UInt8) ∈ ws := by decide
  have hskip : ∀ k, lexFrom .initial (List.replicate k 32 ++ rest) = lexFrom .initial rest := by
    intro k
    induction k with
    | zero => rfl
    | succ k ih => exact (lex_ws hspace _).trans ih
  rw [hspaces]
  exact hskip 8

/-- So is the newline behind it. -/
theorem lex_newline (rest : List UInt8) : lexFrom .initial (10 :: rest) = lexFrom .initial rest :=
  lex_ws (by decide) rest

/-- **A line is lexed as its text**, with a newline behind it. -/
theorem lex_line (str rest : List UInt8) :
    lexFrom .initial (emitOp str ++ rest) = lexFrom .initial (str ++ 10 :: rest) := by
  have hline : emitOp str ++ rest = emitIndent ++ (str ++ 10 :: rest) := by
    have hnewline : emitNewline = [10] := by decide
    rw [emitOp, hnewline]
    simp
  rw [hline, lex_indent]

end Insomniac.Bootstrap

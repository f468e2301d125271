import Insomniac.Asm.Ops
import Insomniac.Machinery.Bytes
import Mathlib.Logic.Function.Basic

/-!
# Asm/Assemble — `asm_string`

The assembler reads a stream of tokens, writes their code into a buffer with zeros where a jump
displacement goes, notes each label's address (the last definition of a name wins) and each jump,
and at the end writes the displacements into the code.
-/

open Bytes

namespace Insomniac.Asm

/-- What the lexer hands to `asm_string`, with the text of literals already converted.  `L` are the
names of labels. -/
inductive Token (L : Type)
  | op (o : Op) (plain : o.operandKind = .none)
  | fixnum (i : Int64)
  | char (c : UInt32)
  | string (str : List UInt8)
  | symbol (str : List UInt8)
  | jump (o : Op) (takes : o.operandKind = .target) (label : L)
  | label (name : L)
  deriving DecidableEq

/-- `INT_64`. -/
def int64 (i : Int64) : List UInt8 := (List.range 8).map (maskByte i.toUInt64)

/-- `LIT_CHAR`, without its operation. -/
def char32 (c : UInt32) : List UInt8 := (List.range 4).map (maskByte c.toUInt64)

/-- `EMIT_LIT_STRING`: the length that `strlen` finds, and that many bytes. -/
def litString (str : List UInt8) : List UInt8 :=
  int64 (Int64.ofNat (cstr str).length) ++ cstr str

/-- The buffer, the label table and the jumps still to be rewritten, newest first. -/
structure Assembler (L : Type) where
  buf : List UInt8
  labels : L → Option ℕ
  jumpList : List (ℕ × L)

variable {L : Type} [DecidableEq L]

/-- `EMIT`. -/
def Assembler.emit (s : Assembler L) (bytes : List UInt8) : Assembler L :=
  { s with buf := s.buf ++ bytes }

/-- One round of the loop of `asm_string`. -/
def Assembler.token (s : Assembler L) : Token L → Assembler L
  | .op o _ => s.emit [o.byte]
  | .fixnum i => s.emit (Op.litFixnum.byte :: int64 i)
  | .char c => s.emit (Op.litChar.byte :: char32 c)
  | .string str => (s.emit [Op.litString.byte]).emit (litString str)
  | .symbol str => (s.emit [Op.litSymbol.byte]).emit (litString str)
  | .jump o _ label =>
    let s := s.emit [o.byte]
    -- `asm_jump`
    { s with jumpList := (s.buf.length, label) :: s.jumpList }.emit (int64 0)
  | .label name => { s with labels := Function.update s.labels name (some s.buf.length) }

/-- Where `asm_string` begins. -/
def Assembler.init : Assembler L where
  buf := []
  labels := fun _ => none
  jumpList := []

/-- All the tokens, in order. -/
def Assembler.run (tokens : List (Token L)) : Assembler L := tokens.foldl .token .init

/-- Write bytes into the code from an address on. -/
def writeAt : List UInt8 → (addr : ℕ) → List UInt8 → List UInt8
  | code, _, [] => code
  | code, addr, b :: bytes => writeAt (code.set addr b) (addr + 1) bytes

/-- The displacement of the jump whose address field is at `addr`. -/
def displacement (labelAddr addr : ℕ) : Int64 := Int64.ofNat labelAddr - Int64.ofNat addr - 8

/-- `rewrite_jumps`; an undefined label aborts. -/
def rewriteJumps (labels : L → Option ℕ) : List UInt8 → List (ℕ × L) → Option (List UInt8)
  | code, [] => some code
  | code, (addr, label) :: jumps =>
    match labels label with
    | none => none
    | some labelAddr =>
      rewriteJumps labels (writeAt code addr (int64 (displacement labelAddr addr))) jumps

/-- `asm_string`. -/
def asmString (tokens : List (Token L)) : Option (List UInt8) :=
  let s := Assembler.run tokens
  rewriteJumps s.labels s.buf s.jumpList

end Insomniac.Asm

import Mathlib.Data.Nat.Notation

/-!
# Asm/Ops — the instruction set

The operations of `ops.h`, in their order: the byte of an operation is its place in the list.
-/

namespace Insomniac.Asm

/-- `op_type`. -/
inductive Op
  | nop
  | litEmpty | litFixnum | litChar
  | litTrue | litFalse
  | litString | litSymbol | makeSymbol
  | cons | car | cdr | setCar | setCdr
  | makeVector | makeByteVector | makeRecord | indexSet | indexRef | vectorLength
  | stringByteVector | byteVectorString
  | call | adopt | proc | jmp | jnf | ret | jin | callIn | tailCallIn
  | «continue» | restore
  | bind | set | read
  | swap | rot | dupRef | drop | depth
  | add | sub | mul | div | mod
  | numericEqual | numericLt | numericGt
  | not
  | eq
  | output | fdRead | fdWrite | «open» | close
  | slurp | asm
  | «import» | callExt
  | isFixnum | isBool | isChar | isString | isSymbol | isVector | isByteVector | isRecord
  | isPair | isEmpty | isClosure | isLibrary
  | isSelf
  | setExit
  | gcStats
  deriving DecidableEq, Repr

/-- What follows an operation in the code. -/
inductive OperandKind
  | none | fixnum | char | string | target
  deriving DecidableEq, Repr

namespace Op

/-- The operations, in order. -/
def all : List Op :=
  [nop, litEmpty, litFixnum, litChar, litTrue, litFalse, litString, litSymbol, makeSymbol, cons, car,
    cdr, setCar, setCdr, makeVector, makeByteVector, makeRecord, indexSet, indexRef, vectorLength,
    stringByteVector, byteVectorString, call, adopt, proc, jmp, jnf, ret, jin, callIn, tailCallIn,
    «continue», restore, bind, set, read, swap, rot, dupRef, drop, depth, add, sub, mul, div, mod,
    numericEqual, numericLt, numericGt, not, eq, output, fdRead, fdWrite, «open», close, slurp, asm,
    «import», callExt, isFixnum, isBool, isChar, isString, isSymbol, isVector, isByteVector, isRecord,
    isPair, isEmpty, isClosure, isLibrary, isSelf, setExit, gcStats]

/-- The byte of an operation. -/
def byte (o : Op) : UInt8 := UInt8.ofNat o.ctorIdx

/-- The operation of a byte. -/
def ofByte? (b : UInt8) : Option Op := all[b.toNat]?

/-- **Every operation is found again from its byte.** -/
@[simp] theorem ofByte?_byte (o : Op) : ofByte? o.byte = some o := by cases o <;> rfl

/-- What the function of an operation reads behind it. -/
def operandKind : Op → OperandKind
  | litFixnum => .fixnum
  | litChar => .char
  | litString | litSymbol => .string
  | call | proc | jmp | jnf | «continue» => .target
  | _ => .none

/-- The proof that stands in a given program at an operation without operand. -/
theorem noOperand : OperandKind.none = .none := rfl

@[inherit_doc noOperand] theorem aTarget : OperandKind.target = .target := rfl

end Op

end Insomniac.Asm

import Insomniac.Asm.Ops
import Insomniac.Machinery.Bytes

/-!
# Asm/Decode — the operand readers of the VM

The functions of the operations read their operands from the code at the instruction pointer and
move it.  Code is memory: a function of the address, whatever lies behind its end.
-/

open Bytes

namespace Insomniac.Asm

/-- The memory a `code_ref` points at. -/
abbrev Code := ℕ → UInt8

/-- `count` bytes from an address on. -/
def Code.slice (code : Code) (ip count : ℕ) : List UInt8 :=
  (List.range count).map fun i => code (ip + i)

/-- `parse_int`. -/
def parseInt (code : Code) (ip : ℕ) : Int64 :=
  Int64.ofBitVec ((code.slice ip 8).foldr (fun byte num => shiftIn num byte) 0)

/-- The loop of `op_lit_char`.  It reads five bytes; the one behind the operand comes in first and
is shifted out again. -/
def parseChar (code : Code) (ip : ℕ) : UInt32 :=
  UInt32.ofBitVec ((code.slice ip 5).foldr (fun byte character => shiftIn character byte) 0)

/-- `parse_string`: the bytes of the string object, and the address behind the operand.  A negative
length has no meaning. -/
def parseString (code : Code) (ip : ℕ) : Option (List UInt8 × ℕ) :=
  let length := parseInt code ip
  if length < 0 then none
  else
    let length := length.toInt.toNat
    some (strncpy (code.slice (ip + 8) length) length, ip + 8 + length)

/-- Adding a displacement to the instruction pointer, a `size_t`. -/
def jumpTo (ip : ℕ) (target : Int64) : ℕ := (ip + target.toUInt64.toNat) % 2 ^ 64

/-- An operand as its operation sees it. -/
inductive Operand
  | none
  | int (i : Int64)
  | char (c : UInt32)
  | string (str : List UInt8)
  deriving DecidableEq

/-- An instruction. -/
structure Instr where
  op : Op
  operand : Operand
  deriving DecidableEq

/-- The instruction at an address, and the address behind it. -/
def decodeAt (code : Code) (ip : ℕ) : Option (Instr × ℕ) := do
  let op ← Op.ofByte? (code ip)
  match op.operandKind with
  | .none => some (⟨op, .none⟩, ip + 1)
  | .fixnum => some (⟨op, .int (parseInt code (ip + 1))⟩, ip + 9)
  | .char => some (⟨op, .char (parseChar code (ip + 1))⟩, ip + 5)
  | .string => do
    let (str, next) ← parseString code (ip + 1)
    some (⟨op, .string str⟩, next)
  | .target => some (⟨op, .int (parseInt code (ip + 1))⟩, ip + 9)

/-- Walk the code from an address to its end, instruction by instruction. -/
def walk (code : Code) (length : ℕ) : (steps ip : ℕ) → Option (List (ℕ × Instr))
  | 0, ip => if ip < length then none else some []
  | steps + 1, ip =>
    if ip < length then do
      let (instr, next) ← decodeAt code ip
      let rest ← walk code length steps next
      some ((ip, instr) :: rest)
    else some []

/-! ## Reading what was written

Code that has some bytes at an address, told byte by byte and in parts; what a reader gives depends on these
alone. -/

/-- The code holds `bytes` from an address on. -/
def Code.Spells (code : Code) (addr : ℕ) (bytes : List UInt8) : Prop :=
  ∀ i (h : i < bytes.length), code (addr + i) = bytes[i]

namespace Code.Spells

variable {code : Code} {addr : ℕ} {bs bs' : List UInt8} {b : UInt8}

/-- Some bytes and others behind them. -/
theorem append_iff : code.Spells addr (bs ++ bs') ↔
    code.Spells addr bs ∧ code.Spells (addr + bs.length) bs' := by
  constructor
  · refine fun h => ⟨fun i hi => ?_, fun i hi => ?_⟩
    · rw [h i (by simp; omega), List.getElem_append_left hi]
    · have hlt : bs.length + i < (bs ++ bs').length := by simp; omega
      rw [Nat.add_assoc, h (bs.length + i) hlt, List.getElem_append_right (by omega)]
      simp
  · rintro ⟨h, h'⟩ i hi
    by_cases hlt : i < bs.length
    · rw [h i hlt, List.getElem_append_left hlt]
    · obtain ⟨j, rfl⟩ := Nat.exists_eq_add_of_le (not_lt.mp hlt)
      have hj : j < bs'.length := by simpa using hi
      rw [← Nat.add_assoc, h' j hj, List.getElem_append_right (by omega)]
      simp

/-- A byte and the others behind it. -/
theorem cons_iff : code.Spells addr (b :: bs) ↔ code addr = b ∧ code.Spells (addr + 1) bs := by
  rw [← List.singleton_append, append_iff]
  refine and_congr_left' ⟨fun h => h 0 (by simp), fun h i hi => ?_⟩
  obtain rfl : i = 0 := by simpa using hi
  exact h

/-- The bytes that are there are what is read. -/
theorem slice_eq (h : code.Spells addr bs) : code.slice addr bs.length = bs := by
  refine List.ext_getElem (by simp [slice]) fun i hi hi' => ?_
  simp only [slice, List.getElem_map, List.getElem_range]
  exact h i hi'

end Code.Spells

end Insomniac.Asm

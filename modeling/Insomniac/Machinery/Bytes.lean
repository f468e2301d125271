import Mathlib.Data.List.TakeWhile
import Mathlib.Data.Nat.Bitwise
import Mathlib.Tactic.Common
import Mathlib.Tactic.Ring

/-!
# Machinery/Bytes — C strings and little-endian numbers

`cstr` is the string at a pointer: the bytes before the first `NUL`.  `leBytes k n` are the `k` low
bytes of `n`, least significant first, and `leNat` reads bytes back.  The shift-and-mask expressions
that C programs take words apart and put them together with are these (`maskByte_toNat`,
`shiftIn_toNat`).
-/

namespace Bytes

/-! ## C strings

What `strlen`, `strcpy` and `strncpy` see of some bytes. -/

/-- The string at a pointer: the bytes before the first `NUL`.  The memory of a C string ends in a
`NUL`, so the end of the list counts as one. -/
def cstr (bytes : List UInt8) : List UInt8 := bytes.takeWhile (· ≠ 0)

@[simp] theorem cstr_nil : cstr [] = [] := rfl

@[simp] theorem cstr_zero (bs : List UInt8) : cstr (0 :: bs) = [] := by simp [cstr]

/-- Any other byte is part of it. -/
theorem cstr_cons {b : UInt8} (hb : b ≠ 0) (bs : List UInt8) : cstr (b :: bs) = b :: cstr bs := by
  simp [cstr, hb]

/-- No byte of a string is `NUL`. -/
theorem ne_zero_of_mem_cstr {bs : List UInt8} {b : UInt8} (h : b ∈ cstr bs) : b ≠ 0 := by
  simpa using List.mem_takeWhile_imp h

/-- A list without `NUL` is its own string. -/
theorem cstr_eq_self {bs : List UInt8} (h : ∀ b ∈ bs, b ≠ 0) : cstr bs = bs :=
  List.takeWhile_eq_self_iff.mpr fun b hb => by simpa using h b hb

/-- The string at a pointer into an array, if the array holds its `NUL`. -/
def cstr? (bytes : List UInt8) : Option (List UInt8) := if 0 ∈ bytes then some (cstr bytes) else none

/-- A terminated string. -/
theorem cstr?_append_zero (bytes : List UInt8) : cstr? (bytes ++ [0]) = some (cstr bytes) := by
  have hcstr : cstr (bytes ++ [0]) = cstr bytes := by
    induction bytes with
    | nil => rfl
    | cons b bs ih =>
      rcases eq_or_ne b 0 with rfl | hb
      · simp
      · rw [List.cons_append, cstr_cons hb, cstr_cons hb, ih]
  simp [cstr?, hcstr]

/-- `strncpy`: the string at the source, cut at `length` and padded with `NUL`. -/
def strncpy (source : List UInt8) (length : ℕ) : List UInt8 :=
  let copied := (cstr source).take length
  copied ++ List.replicate (length - copied.length) 0

/-- `strncpy` writes as many bytes as it is told. -/
theorem strncpy_length (source : List UInt8) (length : ℕ) :
    (strncpy source length).length = length := by
  simp only [strncpy, List.length_append, List.length_replicate, List.length_take]
  omega

/-- Copying a string without `NUL` at its own length. -/
theorem strncpy_self {bs : List UInt8} (h : ∀ b ∈ bs, b ≠ 0) : strncpy bs bs.length = bs := by
  simp [strncpy, cstr_eq_self h]

/-! ## Little-endian numbers

Bytes and numbers in both directions. -/

/-- The `k` low bytes of `n`, least significant first. -/
def leBytes (k n : ℕ) : List UInt8 := (List.range k).map fun i => UInt8.ofNat (n / 256 ^ i)

/-- The number that bytes spell, least significant first. -/
def leNat : List UInt8 → ℕ
  | [] => 0
  | b :: bs => b.toNat + 256 * leNat bs

/-- Bytes behind others count for more. -/
theorem leNat_append (bs bs' : List UInt8) :
    leNat (bs ++ bs') = leNat bs + 256 ^ bs.length * leNat bs' := by
  induction bs with
  | nil => simp [leNat]
  | cons b bs ih =>
    rw [List.cons_append, leNat, leNat, ih, List.length_cons]
    ring

/-- As many bytes as were asked for. -/
@[simp] theorem leBytes_length (k n : ℕ) : (leBytes k n).length = k := by simp [leBytes]

@[simp] theorem leBytes_zero (n : ℕ) : leBytes 0 n = [] := rfl

theorem leBytes_succ (k n : ℕ) : leBytes (k + 1) n = UInt8.ofNat n :: leBytes k (n / 256) := by
  simp only [leBytes, List.range_succ_eq_map, List.map_cons, List.map_map, pow_zero, Nat.div_one]
  congr 1
  refine List.map_congr_left fun i _ => ?_
  change UInt8.ofNat (n / 256 ^ (i + 1)) = _
  rw [Nat.pow_succ', Nat.div_div_eq_div_mul]

/-- **Writing and reading back.** -/
theorem leNat_leBytes (k n : ℕ) : leNat (leBytes k n) = n % 256 ^ k := by
  induction k generalizing n with
  | zero => simp [leNat, Nat.mod_one]
  | succ k ih =>
    have hbyte : (UInt8.ofNat n).toNat = n % 256 := UInt8.toNat_ofNat'
    rw [leBytes_succ, leNat, ih, hbyte, Nat.pow_succ', Nat.mod_mul]

/-! ## Words

Shifts and masks on machine words, by what they do to the number. -/

/-- Mask one byte out of a word and shift it down. -/
def maskByte (i : UInt64) (b : ℕ) : UInt8 :=
  ((((0xFF : UInt64) <<< UInt64.ofNat (b * 8)) &&& i) >>> UInt64.ofNat (b * 8)).toUInt8

/-- A byte of a word, as a number. -/
theorem maskByte_toNat (i : UInt64) {b : ℕ} (hb : b < 8) :
    (maskByte i b).toNat = i.toNat / 256 ^ b % 256 := by
  have hmask : (2 ^ 8 - 1) <<< (b * 8) < 2 ^ 64 := by
    rw [Nat.shiftLeft_eq]
    have hpow : 2 ^ (b * 8) ≤ 2 ^ 56 := Nat.pow_le_pow_right (by omega) (by omega)
    omega
  have h256 : (256 : ℕ) ^ b = 2 ^ (b * 8) := by rw [Nat.mul_comm, Nat.pow_mul]
  have hshift : (UInt64.ofNat (b * 8)).toNat % 64 = b * 8 := by
    rw [UInt64.toNat_ofNat']
    omega
  have h255 : (255 : UInt64).toNat = 2 ^ 8 - 1 := rfl
  rw [maskByte, UInt64.toNat_toUInt8, UInt64.toNat_shiftRight, UInt64.toNat_and,
    UInt64.toNat_shiftLeft, hshift, h255, Nat.mod_eq_of_lt hmask, Nat.shiftRight_and_distrib,
    Nat.shiftLeft_shiftRight, Nat.and_comm, Nat.and_two_pow_sub_one_eq_mod,
    Nat.shiftRight_eq_div_pow, h256]
  omega

theorem maskByte_eq (i : UInt64) {b : ℕ} (hb : b < 8) :
    maskByte i b = UInt8.ofNat (i.toNat / 256 ^ b) :=
  UInt8.toNat_inj.mp ((maskByte_toNat i hb).trans UInt8.toNat_ofNat'.symm)

/-- Shift a word up and put a byte below it. -/
def shiftIn {w : ℕ} (num : BitVec w) (b : UInt8) : BitVec w := (num <<< 8) ||| b.toBitVec.setWidth w

/-- A byte is shifted into a word. -/
theorem shiftIn_toNat {w : ℕ} (hw : 8 ≤ w) (num : BitVec w) (b : UInt8) :
    (shiftIn num b).toNat = (b.toNat + 256 * num.toNat) % 2 ^ w := by
  have hb : b.toNat < 2 ^ 8 := b.toNat_lt
  have hpow : 2 ^ w = 2 ^ 8 * 2 ^ (w - 8) := by
    rw [← Nat.pow_add, Nat.add_sub_cancel' hw]
  have hlow : b.toNat % 2 ^ w = b.toNat :=
    Nat.mod_eq_of_lt (hb.trans_le (Nat.pow_le_pow_right (by omega) hw))
  have hm : num.toNat <<< 8 % 2 ^ w = (num.toNat % 2 ^ (w - 8)) <<< 8 := by
    rw [Nat.shiftLeft_eq, Nat.shiftLeft_eq, hpow, Nat.mul_comm, Nat.mul_mod_mul_left, Nat.mul_comm]
  have hbyte : (b.toBitVec.setWidth w).toNat = b.toNat := by
    rw [BitVec.toNat_setWidth]
    exact hlow
  rw [shiftIn, BitVec.toNat_or, BitVec.toNat_shiftLeft, hbyte, hm,
    ← Nat.shiftLeft_add_eq_or_of_lt hb, Nat.shiftLeft_eq, hpow, Nat.mod_mul]
  have hrem : (b.toNat + 256 * num.toNat) % 2 ^ 8 = b.toNat := by omega
  have hquot : (b.toNat + 256 * num.toNat) / 2 ^ 8 = num.toNat := by omega
  rw [hrem, hquot, Nat.mul_comm, Nat.add_comm]

/-- **Shifting bytes in, the last one first**, reads them as a number. -/
theorem foldr_shiftIn_toNat {w : ℕ} (hw : 8 ≤ w) (bs : List UInt8) :
    (bs.foldr (fun b num => shiftIn num b) (0 : BitVec w)).toNat = leNat bs % 2 ^ w := by
  induction bs with
  | nil => simp [leNat]
  | cons b bs ih =>
    rw [List.foldr_cons, shiftIn_toNat hw, ih, leNat, Nat.add_mod, Nat.mul_mod_mod, ← Nat.add_mod]

end Bytes

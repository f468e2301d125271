import Mathlib.Data.List.Basic
import Mathlib.Data.UInt

/-!
# Vm/Utf8 — the codec of `vm_utf8.c`

A character is written as a head, whose leading ones count the bytes, and tails of six bits, and is
read back head first.

    character ──utf8_encode_char──▸ head · tail · … · tail ──utf8_read_char──▸ character

`char` is signed: a byte is sign-extended before it is masked.
-/

namespace Insomniac.Vm

/-! ## Masks

A mask keeps the low bits of a head, or of a tail. -/

/-- `BIT_MASK`. -/
def bitMask (i : UInt32) : UInt32 := 0xFFFFFFFF >>> (32 - i)

/-- `NOT_MASK`. -/
def notMask (i : UInt32) : UInt32 := 0xFFFFFFFF <<< i

/-- `UTF8_TAIL`. -/
def utf8Tail : UInt32 := 0x80

/-- `UTF8_HEAD`. -/
def utf8Head (i : UInt32) : UInt32 := 0xFE <<< (6 - i)

/-! ## Encoding

A character is split into groups of six bits, the lowest one last. -/

/-- `UTF8_TAIL | (uint8_t)(character & BIT_MASK(6))`. -/
def tailByte (character : UInt32) : UInt8 :=
  (utf8Tail ||| (character &&& bitMask 6).toUInt8.toUInt32).toUInt8

/-- `UTF8_HEAD(i) | (uint8_t)character`. -/
def headByte (i character : UInt32) : UInt8 := (utf8Head i ||| character.toUInt8.toUInt32).toUInt8

/-- The branch that writes some tails, the last one first, and a head before them. -/
def encodeTails : (tails : ℕ) → (i character : UInt32) → (output : List UInt8) → List UInt8
  | 0, i, character, output => headByte i character :: output
  | tails + 1, i, character, output => encodeTails tails i (character >>> 6) (tailByte character :: output)

/-- `utf8_encode_char`, without the zeros behind what it writes. -/
def utf8EncodeChar (character : UInt32) : List UInt8 :=
  if character &&& notMask 7 = 0 then [(character &&& bitMask 7).toUInt8]
  else if character &&& notMask 11 = 0 then encodeTails 1 1 character []
  else if character &&& notMask 16 = 0 then encodeTails 2 2 character []
  else if character &&& notMask 21 = 0 then encodeTails 3 3 character []
  else if character &&& notMask 26 = 0 then encodeTails 4 4 character []
  else if character &&& notMask 31 = 0 then encodeTails 5 5 character []
  else []

/-! ## Decoding

The head says how many tails follow, and each adds its six bits. -/

/-- `getchar`; -1 is the end of the input. -/
def getchar : StateM (List UInt8) Int32
  | [] => (-1, [])
  | b :: input => (b.toUInt32.toInt32, input)

/-- The loop of `utf8_head_count_bytes`. -/
def countHead (c : Int8) (count : ℕ) : (rounds : ℕ) → ℕ
  | 0 => count
  | rounds + 1 => if c.toInt32 &&& 0x80 ≠ 0 then countHead (c.toInt32 <<< 1).toInt8 (count + 1) rounds else count

/-- `utf8_head_count_bytes`. -/
def utf8HeadCountBytes (c : Int8) : ℕ :=
  let count := countHead c 0 6
  if count = 0 then 1 else count

/-- The loop of `utf8_read_char` over the bytes behind the first one. -/
def readTails : (tails : ℕ) → (character : UInt32) → StateM (List UInt8) UInt32
  | 0, character => pure character
  | tails + 1, character => do
    let c := (← getchar).toInt8
    readTails tails (character <<< 6 ||| (c.toInt32.toUInt32 &&& bitMask 6))

/-- `utf8_read_char`. -/
def utf8ReadChar : StateM (List UInt8) UInt32 := do
  let in_c ← getchar
  if in_c = -1 then pure 0xFFFFFFFF
  else
    let c := (in_c &&& 0xFF).toInt8
    let bytes := utf8HeadCountBytes c
    if bytes = 1 then pure c.toInt32.toUInt32
    else
      let c := (c.toInt32 &&& ~~~ (utf8Head (UInt32.ofNat bytes)).toInt32).toInt8
      readTails (bytes - 1) c.toInt32.toUInt32

/-- Calls of `utf8_read_char`, one after another. -/
def utf8ReadChars : (calls : ℕ) → StateM (List UInt8) (List UInt32)
  | 0 => pure []
  | calls + 1 => do
    let character ← utf8ReadChar
    let characters ← utf8ReadChars calls
    pure (character :: characters)

/-! ## A character comes back

The groups are put together in the order in which they were split, so the bits are those of the character. -/

/-- The six bits of a tail are those that were written. -/
theorem tailByte_bits (character : UInt32) :
    (tailByte character).toUInt32.toInt32.toInt8.toInt32.toUInt32 &&& bitMask 6 = character &&& 63 := by
  have hbits : ∀ y : Fin 64, (utf8Tail ||| (UInt32.ofNat y).toUInt8.toUInt32).toUInt8.toUInt32.toInt32.toInt8.toInt32.toUInt32 &&&
      bitMask 6 = UInt32.ofNat y := by decide +kernel
  have hlt : (character &&& 63).toNat < 64 := by
    rw [UInt32.toNat_and]
    exact Nat.lt_of_le_of_lt Nat.and_le_right (by decide)
  have h := hbits ⟨(character &&& 63).toNat, hlt⟩
  rw [UInt32.ofNat_toNat] at h
  exact h

/-- A character is its upper bits and its last six. -/
theorem shift_or (character : UInt32) : (character >>> 6) <<< 6 ||| (character &&& 63) = character := by
  refine UInt32.toNat_inj.mp ?_
  have hlast : character.toNat &&& 63 = character.toNat % 2 ^ 6 := Nat.and_two_pow_sub_one_eq_mod _ 6
  have hupper : (character.toNat >>> 6) <<< 6 < 2 ^ 32 := by
    have := character.toNat_lt
    rw [Nat.shiftLeft_eq, Nat.shiftRight_eq_div_pow]
    omega
  calc ((character >>> 6) <<< 6 ||| (character &&& 63)).toNat
      = (character.toNat >>> 6) <<< 6 ||| (character.toNat % 2 ^ 6) := by
        rw [UInt32.toNat_or, UInt32.toNat_shiftLeft, UInt32.toNat_shiftRight, UInt32.toNat_and]
        change (character.toNat >>> 6) <<< 6 % 2 ^ 32 ||| (character.toNat &&& 63) = _
        rw [Nat.mod_eq_of_lt hupper, hlast]
    _ = (character.toNat >>> 6) <<< 6 + character.toNat % 2 ^ 6 :=
        (Nat.shiftLeft_add_eq_or_of_lt (Nat.mod_lt _ (by decide)) _).symm
    _ = character.toNat := by
        rw [Nat.shiftLeft_eq, Nat.shiftRight_eq_div_pow]
        omega

/-- **Reading tails undoes writing them**: with the bits behind them, the bits before them are the
character. -/
theorem readTails_encodeTails (rest : List UInt8) :
    ∀ (tails m : ℕ) (i character : UInt32) (output : List UInt8),
      ∃ upper written, encodeTails tails i character output = headByte i upper :: written ∧
        upper.toNat = character.toNat / 64 ^ tails ∧
        readTails (tails + m) upper (written ++ rest) = readTails m character (output ++ rest)
  | 0, m, i, character, output => ⟨character, output, rfl, by simp, by rw [Nat.zero_add]⟩
  | tails + 1, m, i, character, output => by
      obtain ⟨upper, written, hwritten, hupper, hread⟩ :=
        readTails_encodeTails rest tails (m + 1) i (character >>> 6) (tailByte character :: output)
      refine ⟨upper, written, hwritten, ?_, ?_⟩
      · have hshift : (character >>> 6).toNat = character.toNat / 64 := by
          rw [UInt32.toNat_shiftRight]
          exact Nat.shiftRight_eq_div_pow _ 6
        rw [hupper, hshift, Nat.div_div_eq_div_mul, pow_succ']
      · have hnext : tails + 1 + m = tails + (m + 1) := by omega
        rw [hnext, hread]
        change readTails m ((character >>> 6) <<< 6 ||| ((tailByte character).toUInt32.toInt32.toInt8.toInt32.toUInt32 &&&
          bitMask 6)) (output ++ rest) = _
        rw [tailByte_bits, shift_or]

/-- **The head of some tails** counts them, and gives its bits back. -/
theorem headByte_read (tails : Fin 6) (upper : Fin 32) (htails : 0 < tails.val)
    (hupper : upper.val < 2 ^ (6 - tails.val)) :
    let b := (headByte (UInt32.ofNat tails) (UInt32.ofNat upper)).toUInt32.toInt32
    let c := (b &&& 0xFF).toInt8
    b ≠ -1 ∧ utf8HeadCountBytes c = tails + 1 ∧
      (c.toInt32 &&& ~~~ (utf8Head (UInt32.ofNat (tails + 1))).toInt32).toInt8.toInt32.toUInt32 =
        UInt32.ofNat upper := by
  revert tails upper
  decide +kernel

/-- **A byte below 128** stands for itself. -/
theorem asciiByte_read (character : Fin 128) :
    let b := (UInt32.ofNat character &&& bitMask 7).toUInt8.toUInt32.toInt32
    let c := (b &&& 0xFF).toInt8
    b ≠ -1 ∧ utf8HeadCountBytes c = 1 ∧ c.toInt32.toUInt32 = UInt32.ofNat character := by
  revert character
  decide +kernel

/-- One more byte is read, with its sign. -/
theorem utf8ReadChar_cons (b : UInt8) (input : List UInt8) : utf8ReadChar (b :: input) =
    (if b.toUInt32.toInt32 = -1 then pure 0xFFFFFFFF
      else if utf8HeadCountBytes (b.toUInt32.toInt32 &&& 0xFF).toInt8 = 1 then
        pure (b.toUInt32.toInt32 &&& 0xFF).toInt8.toInt32.toUInt32
      else readTails (utf8HeadCountBytes (b.toUInt32.toInt32 &&& 0xFF).toInt8 - 1)
        ((b.toUInt32.toInt32 &&& 0xFF).toInt8.toInt32 &&&
          ~~~ (utf8Head (UInt32.ofNat (utf8HeadCountBytes (b.toUInt32.toInt32 &&& 0xFF).toInt8))).toInt32).toInt8.toInt32.toUInt32)
      input := rfl

/-- **A character of some tails is read back.** -/
theorem read_encodeTails (tails : Fin 6) (htails : 0 < tails.val) {character : UInt32}
    (hcharacter : character.toNat < 2 ^ (6 - tails.val) * 64 ^ tails.val) (rest : List UInt8) :
    utf8ReadChar (encodeTails tails (UInt32.ofNat tails) character [] ++ rest) = (character, rest) := by
  obtain ⟨upper, written, hwritten, hupper, hread⟩ :=
    readTails_encodeTails rest tails 0 (UInt32.ofNat tails) character []
  have hlt : upper.toNat < 2 ^ (6 - tails.val) := by
    rw [hupper]
    exact Nat.div_lt_of_lt_mul (by rwa [mul_comm])
  have hpow : 2 ^ (6 - tails.val) ≤ 2 ^ 5 := Nat.pow_le_pow_right (by decide) (by omega)
  have hhead := headByte_read tails ⟨upper.toNat, hlt.trans_le hpow⟩ htails hlt
  simp only [UInt32.ofNat_toNat] at hhead
  obtain ⟨heof, hcount, hbits⟩ := hhead
  have hbytes : utf8HeadCountBytes ((headByte (UInt32.ofNat tails) upper).toUInt32.toInt32 &&& 0xFF).toInt8 ≠ 1 := by
    rw [hcount]
    omega
  rw [hwritten, List.cons_append, utf8ReadChar_cons, if_neg heof, if_neg hbytes, hcount, hbits, Nat.add_sub_cancel]
  exact hread

/-- The bits that `NOT_MASK` leaves are those from a place on. -/
theorem and_notMask_eq_zero (k : Fin 32) (character : UInt32) :
    character &&& notMask (UInt32.ofNat k) = 0 ↔ character.toNat < 2 ^ k.val := by
  have hmask : ∀ k : Fin 32, notMask (UInt32.ofNat k) = UInt32.ofNat ((2 ^ (32 - k.val) - 1) <<< k.val) := by decide
  have hfits : ∀ k : Fin 32, (2 ^ (32 - k.val) - 1) <<< k.val % 2 ^ 32 = (2 ^ (32 - k.val) - 1) <<< k.val := by decide
  have hupper : character.toNat &&& (2 ^ (32 - k.val) - 1) <<< k.val = (character.toNat >>> k.val) <<< k.val := by
    refine Nat.eq_of_testBit_eq fun i => ?_
    rw [Nat.testBit_and, Nat.testBit_shiftLeft, Nat.testBit_shiftLeft, Nat.testBit_two_pow_sub_one, Nat.testBit_shiftRight]
    rcases Nat.lt_or_ge i k.val with hlt | hle
    · simp [Nat.not_le.mpr hlt]
    · rcases Nat.lt_or_ge i 32 with hi | hi
      · simp [hle, Nat.add_sub_cancel' hle, show i - k.val < 32 - k.val by omega]
      · have hzero := Nat.testBit_lt_two_pow (character.toNat_lt.trans_le (Nat.pow_le_pow_right (by decide) hi))
        simp [Nat.add_sub_cancel' hle, hzero]
  rw [hmask k, ← UInt32.toNat_inj, UInt32.toNat_and, UInt32.toNat_ofNat', hfits, hupper, Nat.shiftLeft_eq,
    Nat.shiftRight_eq_div_pow, UInt32.toNat_zero, Nat.mul_eq_zero, Nat.div_eq_zero_iff]
  have hpos := Nat.two_pow_pos k.val
  omega

/-- **A character is read back.** -/
theorem read_utf8EncodeChar {character : UInt32} (h : character < 2 ^ 31) (rest : List UInt8) :
    utf8ReadChar (utf8EncodeChar character ++ rest) = (character, rest) := by
  have hmask : ∀ k : Fin 32, character &&& notMask (UInt32.ofNat k) = 0 ↔ character.toNat < 2 ^ k.val := fun k =>
    and_notMask_eq_zero k character
  unfold utf8EncodeChar
  split
  · next h7 =>
    have hlt : character.toNat < 128 := (hmask 7).mp h7
    have hone := asciiByte_read ⟨character.toNat, hlt⟩
    simp only [UInt32.ofNat_toNat] at hone
    obtain ⟨heof, hcount, hbits⟩ := hone
    rw [List.cons_append, List.nil_append, utf8ReadChar_cons, if_neg heof, if_pos hcount, hbits]
    rfl
  · split
    · next h11 => exact read_encodeTails 1 (by decide) ((hmask 11).mp h11) rest
    · split
      · next h16 => exact read_encodeTails 2 (by decide) ((hmask 16).mp h16) rest
      · split
        · next h21 => exact read_encodeTails 3 (by decide) ((hmask 21).mp h21) rest
        · split
          · next h26 => exact read_encodeTails 4 (by decide) ((hmask 26).mp h26) rest
          · split
            · next h31 => exact read_encodeTails 5 (by decide) ((hmask 31).mp h31) rest
            · next h31 => exact absurd ((hmask 31).mpr h) h31

/-- One more character is read, from what the one before it left. -/
theorem utf8ReadChars_succ (calls : ℕ) (input : List UInt8) : utf8ReadChars (calls + 1) input =
    ((utf8ReadChar input).1 :: (utf8ReadChars calls (utf8ReadChar input).2).1,
      (utf8ReadChars calls (utf8ReadChar input).2).2) := rfl

/-- **Decoding undoes encoding**, for any characters and whatever follows them. -/
theorem utf8_read_chars : ∀ (characters : List UInt32) (rest : List UInt8), (∀ c ∈ characters, c < 2 ^ 31) →
    utf8ReadChars characters.length (characters.flatMap utf8EncodeChar ++ rest) = (characters, rest)
  | [], _, _ => rfl
  | c :: characters, rest, h => by
      have hread := read_utf8EncodeChar (h c List.mem_cons_self) (characters.flatMap utf8EncodeChar ++ rest)
      have hrest := utf8_read_chars characters rest fun d hd => h d (List.mem_cons_of_mem _ hd)
      rw [List.flatMap_cons, List.append_assoc, List.length_cons]
      rw [utf8ReadChars_succ, hread, hrest]

/-- Characters of one, four and six bytes. -/
theorem utf8_read_chars_witness : utf8ReadChars 3 ([65, 0x1F600, 0x7FFFFFFF].flatMap utf8EncodeChar ++ [66, 128]) =
    ([65, 0x1F600, 0x7FFFFFFF], [66, 128]) :=
  utf8_read_chars [65, 0x1F600, 0x7FFFFFFF] [66, 128] fun c hc => by
    simp only [List.mem_cons, List.not_mem_nil, or_false] at hc
    rcases hc with rfl | rfl | rfl <;> decide

end Insomniac.Vm

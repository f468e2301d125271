import Insomniac.Hash.Table
import Insomniac.Machinery.Bytes

/-!
# Hash/Keys — the two kinds of key

A string key is the memory from the key pointer on, read up to its `NUL`; a pointer key is the
address itself.  For both, `EQ` is an equivalence that the hash function respects
(`HashFns.Lawful`): it is all a table needs from them.
-/

open Bytes

namespace Insomniac.Hash

/-- **What a table needs from its two functions**: `EQ` is an equivalence, and equal keys hash
alike. -/
structure HashFns.Lawful {K : Type} (F : HashFns K) : Prop where
  refl : ∀ k, F.compare k k = .eq
  symm : ∀ {k l}, F.compare k l = .eq → F.compare l k = .eq
  trans : ∀ {k l m}, F.compare k l = .eq → F.compare l m = .eq → F.compare k m = .eq
  hash_eq : ∀ {k l}, F.compare k l = .eq → F.calcHash k = F.calcHash l

/-- Functions that compare and hash a key through its identity `f` are lawful. -/
theorem HashFns.Lawful.of_identity {K : Type} {F : HashFns K} {ι : Sort*} (f : K → ι)
    (hcmp : ∀ k l, F.compare k l = .eq ↔ f k = f l)
    (hhash : ∀ k l, f k = f l → F.calcHash k = F.calcHash l) : F.Lawful where
  refl k := (hcmp k k).mpr rfl
  symm h := (hcmp _ _).mpr ((hcmp _ _).mp h).symm
  trans h h' := (hcmp _ _).mpr (((hcmp _ _).mp h).trans ((hcmp _ _).mp h'))
  hash_eq h := hhash _ _ ((hcmp _ _).mp h)

/-! ## Strings

The comparison goes byte by byte up to the first difference or to the `NUL`, so strings are equal where their
bytes are. -/

/-- `hash_string`. -/
def hashString : (hash : UInt32) → List UInt8 → UInt32
  | hash, [] => hash
  | hash, b :: bs =>
    if b = 0 then hash
    else hashString (b.toUInt32 + (hash <<< 6) + (hash <<< 16) - hash) bs

/-- The last line of `hash_string_cmp`. -/
def byteOrder (b c : UInt8) : Cmp :=
  if b = c then .eq else if b > c then .gt else .lt

/-- `hash_string_cmp`. -/
def hashStringCmp : List UInt8 → List UInt8 → Cmp
  | b :: bs, c :: cs =>
    if b = c ∧ b ≠ 0 ∧ c ≠ 0 then hashStringCmp bs cs else byteOrder b c
  | [], cs => byteOrder 0 (cs.headD 0)
  | bs, [] => byteOrder (bs.headD 0) 0

/-- Two bytes compare `EQ` where they are equal. -/
@[simp] theorem byteOrder_eq_iff (b c : UInt8) : byteOrder b c = .eq ↔ b = c := by
  unfold byteOrder
  split
  · simpa
  · split <;> simpa

/-- **`hash_string` reads the string and nothing behind it.** -/
theorem hashString_cstr (hash : UInt32) (bs : List UInt8) :
    hashString hash (cstr bs) = hashString hash bs := by
  induction bs generalizing hash with
  | nil => rfl
  | cons b bs ih =>
    by_cases hb : b = 0
    · subst hb
      rw [cstr_zero, hashString, hashString, if_pos rfl]
    · rw [cstr_cons hb, hashString, hashString, if_neg hb, if_neg hb, ih]

/-- **`hash_string_cmp` says `EQ` exactly for equal strings.** -/
theorem hashStringCmp_eq_iff (bs cs : List UInt8) :
    hashStringCmp bs cs = .eq ↔ cstr bs = cstr cs := by
  induction bs generalizing cs with
  | nil =>
    cases cs with
    | nil => simp [hashStringCmp]
    | cons c cs =>
      rw [hashStringCmp, byteOrder_eq_iff, List.headD_cons]
      by_cases hc : c = 0
      · subst hc
        simp
      · rw [cstr_cons hc]
        simpa using Ne.symm hc
  | cons b bs ih =>
    cases cs with
    | nil =>
      rw [hashStringCmp, byteOrder_eq_iff, List.headD_cons]
      · by_cases hb : b = 0
        · subst hb
          simp
        · rw [cstr_cons hb]
          simpa using hb
      · exact List.cons_ne_nil _ _
    | cons c cs =>
      rw [hashStringCmp]
      by_cases hb : b = 0
      · subst hb
        rw [if_neg (by simp), byteOrder_eq_iff, cstr_zero]
        by_cases hc : c = 0
        · subst hc
          simp
        · rw [cstr_cons hc]
          simpa using Ne.symm hc
      · by_cases hbc : b = c
        · subst hbc
          rw [if_pos ⟨rfl, hb, hb⟩, ih, cstr_cons hb, cstr_cons hb]
          simp
        · rw [if_neg (fun h => hbc h.1), byteOrder_eq_iff, cstr_cons hb]
          by_cases hc : c = 0
          · subst hc
            simpa using hb
          · rw [cstr_cons hc]
            simp [hbc]

/-- `hash_create_string`'s functions. -/
def stringFns : HashFns (List UInt8) where
  calcHash := hashString 0
  compare := hashStringCmp

/-- **String keys are lawful.** -/
theorem stringFns_lawful : stringFns.Lawful :=
  .of_identity cstr hashStringCmp_eq_iff fun k l h => by
    change hashString 0 k = hashString 0 l
    rw [← hashString_cstr 0 k, h, hashString_cstr]

/-! ## Pointers

Two pointers are compared as numbers. -/

/-- Byte `i` of a pointer as it lies in memory, least significant first. -/
def pointerByte (key : UInt64) (i : ℕ) : UInt8 := (key >>> (8 * UInt64.ofNat i)).toUInt8

/-- `hash_pointer`. -/
def hashPointer (key : UInt64) : UInt32 :=
  (List.range 8).foldl (fun hash i => hash * 32 + (pointerByte key i).toUInt32) 0

/-- `hash_pointer_cmp`. -/
def hashPointerCmp (key1 key2 : UInt64) : Cmp :=
  if key1 > key2 then .gt else if key1 < key2 then .lt else .eq

/-- Two addresses compare `EQ` where they are equal. -/
theorem hashPointerCmp_eq_iff (k l : UInt64) : hashPointerCmp k l = .eq ↔ k = l := by
  unfold hashPointerCmp
  split
  · next h => simpa using fun hkl : k = l => UInt64.lt_irrefl k (hkl ▸ h)
  · next h =>
    split
    · next h' => simpa using fun hkl : k = l => UInt64.lt_irrefl k (hkl ▸ h')
    · next h' => simpa using UInt64.le_antisymm (UInt64.not_lt.mp h) (UInt64.not_lt.mp h')

/-- `hash_create_pointer`'s functions. -/
def pointerFns : HashFns UInt64 where
  calcHash := hashPointer
  compare := hashPointerCmp

/-- **Pointer keys are lawful.** -/
theorem pointerFns_lawful : pointerFns.Lawful :=
  .of_identity id hashPointerCmp_eq_iff fun _ _ h => congrArg hashPointer h

end Insomniac.Hash

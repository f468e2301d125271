import Insomniac.Asm.Assemble
import Insomniac.Asm.Decode
import Mathlib.Data.List.Forall2
import Mathlib.Data.List.Induction

/-!
# Asm/Agree — the assembler and the decoder agree

`encode labels addr t` is the code of a token with its displacement in place.  The assembler's output
is the concatenation of the encodings (`rewriteJumps_run`), and the decoder reads an encoding back
(`decodeAt_encode`), so walking the code visits the tokens' instructions (`walk_final`).

    tokens ──run──▸ buffer, jumps ──rewrite_jumps──▸ code ──walk──▸ instructions
-/

open Bytes

namespace Insomniac.Asm

variable {L : Type}

/-! ## What a token takes

The size of a token does not depend on the labels, so the addresses of all tokens are known before any
displacement is. -/

namespace Token

/-- Whether a token is an instruction: all but label definitions are. -/
def isInstr : Token L → Bool
  | label _ => false
  | _ => true

/-- The code of a token at `addr`, once the labels have their addresses. -/
def encode (labels : L → Option ℕ) (addr : ℕ) : Token L → List UInt8
  | op o _ => [o.byte]
  | fixnum i => Op.litFixnum.byte :: int64 i
  | char c => Op.litChar.byte :: char32 c
  | string str => Op.litString.byte :: litString str
  | symbol str => Op.litSymbol.byte :: litString str
  | jump o _ l => o.byte :: int64 (displacement ((labels l).getD 0) (addr + 1))
  | label _ => []

/-- How long the code of a token is. -/
def size : Token L → ℕ
  | op _ _ => 1
  | fixnum _ => 9
  | char _ => 5
  | string str => 9 + (cstr str).length
  | symbol str => 9 + (cstr str).length
  | jump _ _ _ => 9
  | label _ => 0

/-- An encoding is as long as its token says. -/
@[simp] theorem encode_length (labels : L → Option ℕ) (addr : ℕ) (t : Token L) :
    (t.encode labels addr).length = t.size := by
  cases t <;> simp [encode, size, int64, char32, litString]
  all_goals omega

/-- The instruction of a token at `addr`. -/
def instr? (labels : L → Option ℕ) (addr : ℕ) : Token L → Option Instr
  | op o _ => some ⟨o, .none⟩
  | fixnum i => some ⟨.litFixnum, .int i⟩
  | char c => some ⟨.litChar, .char c⟩
  | string str => some ⟨.litString, .string (cstr str)⟩
  | symbol str => some ⟨.litSymbol, .string (cstr str)⟩
  | jump o _ l => some ⟨o, .int (displacement ((labels l).getD 0) (addr + 1))⟩
  | label _ => none

end Token

/-- How long the code of some tokens is. -/
def codeSize (tokens : List (Token L)) : ℕ := (tokens.map Token.size).sum

@[simp] theorem codeSize_nil : codeSize ([] : List (Token L)) = 0 := rfl

/-- The room of some tokens, by the first. -/
@[simp] theorem codeSize_cons (t : Token L) (ts : List (Token L)) :
    codeSize (t :: ts) = t.size + codeSize ts := by simp [codeSize]

/-- The room of two sequences of tokens. -/
@[simp] theorem codeSize_append (ts ts' : List (Token L)) :
    codeSize (ts ++ ts') = codeSize ts + codeSize ts' := by simp [codeSize]

/-- The code of some tokens from `addr` on. -/
def final (labels : L → Option ℕ) : (addr : ℕ) → List (Token L) → List UInt8
  | _, [] => []
  | addr, t :: ts => t.encode labels addr ++ final labels (addr + t.size) ts

/-- The code of some tokens is as long as they say. -/
@[simp] theorem final_length (labels : L → Option ℕ) (ts : List (Token L)) (addr : ℕ) :
    (final labels addr ts).length = codeSize ts := by
  induction ts generalizing addr with
  | nil => rfl
  | cons t ts ih => simp [final, ih]

/-- The code of two sequences, the second one behind the first. -/
theorem final_append (labels : L → Option ℕ) (ts ts' : List (Token L)) (addr : ℕ) :
    final labels addr (ts ++ ts') =
      final labels addr ts ++ final labels (addr + codeSize ts) ts' := by
  induction ts generalizing addr with
  | nil => simp [final]
  | cons t ts ih => simp [final, ih, Nat.add_assoc]

/-! ## The assembler

The buffer has zeros where a displacement goes, and `rewrite_jumps` writes into it jump by jump.  The induction
takes the tokens off at the end, where the last jump noted is the first one rewritten. -/

/-- Writing into the code at the end of a prefix. -/
theorem writeAt_append (pre old new post : List UInt8) (h : old.length = new.length) :
    writeAt (pre ++ old ++ post) pre.length new = pre ++ new ++ post := by
  induction new generalizing pre old with
  | nil =>
    obtain rfl := List.length_eq_zero_iff.mp h
    rfl
  | cons b new ih =>
    obtain ⟨c, old, rfl⟩ := List.exists_cons_of_length_eq_add_one h
    have hset : (pre ++ c :: old ++ post).set pre.length b = pre ++ [b] ++ old ++ post := by
      simp
    have hlen : pre.length + 1 = (pre ++ [b]).length := by simp
    rw [writeAt, hset, hlen, ih (pre ++ [b]) old (by simpa using h)]
    simp

section Assembler

variable [DecidableEq L]

namespace Assembler

/-- The last token is assembled last. -/
theorem run_append (ts : List (Token L)) (t : Token L) :
    run (ts ++ [t]) = (run ts).token t := by
  simp [run]

/-- The buffer after a token: its code, with zeros for a displacement. -/
theorem token_buf_length (s : Assembler L) (t : Token L) :
    (s.token t).buf.length = s.buf.length + t.size := by
  cases t <;> simp [token, emit, Token.size, int64, char32, litString]
  all_goals omega

/-- The buffer is as long as the code will be. -/
@[simp] theorem run_buf_length (ts : List (Token L)) : (run ts).buf.length = codeSize ts := by
  induction ts using List.reverseRecOn with
  | nil => rfl
  | append_singleton ts t ih => rw [run_append, token_buf_length, ih]; simp

/-- **The label table**: each name has the address of its last definition. -/
theorem run_labels (ts : List (Token L)) (l : L) (a : ℕ) :
    (run ts).labels l = some a ↔
      ∃ pre post, ts = pre ++ .label l :: post ∧ .label l ∉ post ∧ a = codeSize pre := by
  induction ts using List.reverseRecOn with
  | nil => simp [run, init]
  | append_singleton ts t ih =>
    rw [run_append]
    by_cases ht : t = .label l
    · subst ht
      have hlabels : ((run ts).token (.label l)).labels l = some (codeSize ts) := by
        simp [token]
      rw [hlabels]
      constructor
      · intro ha
        exact ⟨ts, [], rfl, by simp, (Option.some.inj ha).symm⟩
      · rintro ⟨pre, post, he, hpost, rfl⟩
        rcases List.eq_nil_or_concat post with rfl | ⟨post, t, rfl⟩
        · rw [(List.append_inj' he rfl).1]
        · rw [List.concat_eq_append, ← List.cons_append, ← List.append_assoc] at he
          obtain ⟨-, ht⟩ := List.append_inj' he rfl
          exact absurd (by simp_all) hpost
    · have hlabels : ((run ts).token t).labels l = (run ts).labels l := by
        cases t with
        | label name =>
          have hne : l ≠ name := fun h => ht (h ▸ rfl)
          simp [token, hne]
        | _ => rfl
      rw [hlabels, ih]
      constructor
      · rintro ⟨pre, post, rfl, hpost, rfl⟩
        refine ⟨pre, post ++ [t], by simp, ?_, rfl⟩
        simpa [hpost] using Ne.symm ht
      · rintro ⟨pre, post, he, hpost, rfl⟩
        rcases List.eq_nil_or_concat post with rfl | ⟨post, t', rfl⟩
        · obtain ⟨-, ht'⟩ := List.append_inj' he rfl
          exact absurd (by simpa using ht') ht
        · rw [List.concat_eq_append, ← List.cons_append, ← List.append_assoc] at he
          obtain ⟨rfl, -⟩ := List.append_inj' he rfl
          exact ⟨pre, post, rfl, fun h => hpost (by simp [h]), rfl⟩

end Assembler

/-- **`rewrite_jumps`** turns the buffer into the encodings.  The induction takes the tokens from the
last one, whose jump is rewritten first. -/
theorem rewriteJumps_run (labels : L → Option ℕ) (ts : List (Token L))
    (hdef : ∀ o h l, Token.jump o h l ∈ ts → labels l ≠ none) (tail : List UInt8) :
    rewriteJumps labels ((Assembler.run ts).buf ++ tail) (Assembler.run ts).jumpList =
      some (final labels 0 ts ++ tail) := by
  induction ts using List.reverseRecOn generalizing tail with
  | nil => rfl
  | append_singleton ts t ih =>
    have hdef' : ∀ o h l, Token.jump o h l ∈ ts → labels l ≠ none := fun o h l hmem =>
      hdef o h l (by simp [hmem])
    have hfinal : final labels 0 (ts ++ [t]) = final labels 0 ts ++ t.encode labels (codeSize ts) := by
      simp [final_append, final]
    rw [Assembler.run_append, hfinal]
    cases t with
    | jump o h l =>
      obtain ⟨a, ha⟩ := Option.ne_none_iff_exists'.mp (hdef o h l (by simp))
      have hwrite := writeAt_append ((Assembler.run ts).buf ++ [o.byte]) (int64 0)
        (int64 (displacement a (codeSize ts + 1))) tail (by simp [int64])
      have haddr : ((Assembler.run ts).buf ++ [o.byte]).length = codeSize ts + 1 := by simp
      rw [haddr] at hwrite
      simp only [Assembler.token, Assembler.emit, rewriteJumps, haddr, ha, hwrite, Token.encode,
        Option.getD_some]
      have := ih hdef' (o.byte :: int64 (displacement a (codeSize ts + 1)) ++ tail)
      simpa using this
    | label name => simpa [Assembler.token, Token.encode] using ih hdef' tail
    | op o h => simpa [Assembler.token, Assembler.emit, Token.encode] using ih hdef' ([o.byte] ++ tail)
    | fixnum i =>
      simpa [Assembler.token, Assembler.emit, Token.encode] using
        ih hdef' (Op.litFixnum.byte :: int64 i ++ tail)
    | char c =>
      simpa [Assembler.token, Assembler.emit, Token.encode] using
        ih hdef' (Op.litChar.byte :: char32 c ++ tail)
    | string str =>
      simpa [Assembler.token, Assembler.emit, Token.encode] using
        ih hdef' (Op.litString.byte :: litString str ++ tail)
    | symbol str =>
      simpa [Assembler.token, Assembler.emit, Token.encode] using
        ih hdef' (Op.litSymbol.byte :: litString str ++ tail)

end Assembler

/-! ## The decoder

Each of the readers takes back what the macro of its kind wrote; the decoder is put together from them as the
encoding was. -/

/-- `INT_64` writes the eight bytes of a number. -/
theorem int64_eq (i : Int64) : int64 i = leBytes 8 i.toUInt64.toNat :=
  List.map_congr_left fun _ hb => maskByte_eq _ (List.mem_range.mp hb)

/-- `LIT_CHAR` writes the four bytes of a character. -/
theorem char32_eq (c : UInt32) : char32 c = leBytes 4 c.toNat := by
  refine List.map_congr_left fun b hb => ?_
  rw [maskByte_eq _ (by have := List.mem_range.mp hb; omega), UInt32.toNat_toUInt64]

section Decoder

variable {code : Code} {addr : ℕ}

/-- **`parse_int` reads what `INT_64` wrote.** -/
theorem parseInt_int64 {i : Int64} (h : code.Spells addr (int64 i)) : parseInt code addr = i := by
  have hslice : code.slice addr 8 = int64 i := by simpa [int64] using h.slice_eq
  have hnat : (parseInt code addr).toBitVec.toNat = i.toBitVec.toNat := by
    change ((code.slice addr 8).foldr (fun byte num => shiftIn num byte) (0 : BitVec 64)).toNat = _
    rw [foldr_shiftIn_toNat (by omega), hslice, int64_eq, leNat_leBytes]
    exact (congrArg (· % 2 ^ 64) (Nat.mod_eq_of_lt i.toUInt64.toNat_lt)).trans
      (Nat.mod_eq_of_lt i.toBitVec.isLt)
  exact Int64.toBitVec_inj.mp (BitVec.eq_of_toNat_eq hnat)

/-- **`op_lit_char` reads what `LIT_CHAR` wrote**, whatever the fifth byte is. -/
theorem parseChar_char32 {c : UInt32} (h : code.Spells addr (char32 c)) :
    parseChar code addr = c := by
  have hslice : code.slice addr 5 = char32 c ++ [code (addr + 4)] := by
    have hfour : code.slice addr 4 = char32 c := by simpa [char32] using h.slice_eq
    rw [← hfour]
    rfl
  have hnat : (parseChar code addr).toBitVec.toNat = c.toBitVec.toNat := by
    change ((code.slice addr 5).foldr (fun byte num => shiftIn num byte) (0 : BitVec 32)).toNat = _
    have hwidth : 256 ^ 4 = 2 ^ 32 := by norm_num
    rw [foldr_shiftIn_toNat (by omega), hslice, char32_eq, leNat_append, leNat_leBytes,
      leBytes_length, hwidth, Nat.add_mul_mod_self_left]
    exact (congrArg (· % 2 ^ 32) (Nat.mod_eq_of_lt c.toNat_lt)).trans
      (Nat.mod_eq_of_lt c.toBitVec.isLt)
  exact UInt32.toBitVec_inj.mp (BitVec.eq_of_toNat_eq hnat)

/-- **`parse_string` reads what `EMIT_LIT_STRING` wrote.** -/
theorem parseString_litString {str : List UInt8} (hlen : (cstr str).length < 2 ^ 63)
    (h : code.Spells addr (litString str)) :
    parseString code addr = some (cstr str, addr + 8 + (cstr str).length) := by
  obtain ⟨hint, hstr⟩ := Code.Spells.append_iff.mp h
  have hlen64 : (int64 (Int64.ofNat (cstr str).length)).length = 8 := by simp [int64]
  have hparse := parseInt_int64 hint
  have hint' : (Int64.ofNat (cstr str).length).toInt = (cstr str).length :=
    Int64.toInt_ofNat_of_lt hlen
  have hnonneg : ¬ Int64.ofNat (cstr str).length < 0 := by
    rw [Int64.lt_iff_toInt_lt, hint']
    exact not_lt.mpr (Int.natCast_nonneg _)
  rw [hlen64] at hstr
  simp only [parseString, hparse, if_neg hnonneg, hint', Int.toNat_natCast, hstr.slice_eq]
  rw [strncpy_self fun _ => ne_zero_of_mem_cstr]

/-- **The decoder reads a token's code back.** -/
theorem decodeAt_encode {labels : L → Option ℕ} {t : Token L} {i : Instr}
    (hsize : t.size < 2 ^ 63) (hi : t.instr? labels addr = some i)
    (h : code.Spells addr (t.encode labels addr)) : decodeAt code addr = some (i, addr + t.size) := by
  cases t with
  | op o ho =>
    obtain ⟨hop, -⟩ := Code.Spells.cons_iff.mp h
    cases hi
    simp [decodeAt, hop, ho, Token.size]
  | fixnum n =>
    obtain ⟨hop, hn⟩ := Code.Spells.cons_iff.mp h
    cases hi
    simp [decodeAt, hop, Op.operandKind, Token.size, parseInt_int64 hn]
  | char c =>
    obtain ⟨hop, hc⟩ := Code.Spells.cons_iff.mp h
    cases hi
    simp [decodeAt, hop, Op.operandKind, Token.size, parseChar_char32 hc]
  | string str =>
    obtain ⟨hop, hstr⟩ := Code.Spells.cons_iff.mp h
    cases hi
    have hlen : (cstr str).length < 2 ^ 63 := by
      simp only [Token.size] at hsize
      omega
    simp [decodeAt, hop, Op.operandKind, Token.size, parseString_litString hlen hstr]
    omega
  | symbol str =>
    obtain ⟨hop, hstr⟩ := Code.Spells.cons_iff.mp h
    cases hi
    have hlen : (cstr str).length < 2 ^ 63 := by
      simp only [Token.size] at hsize
      omega
    simp [decodeAt, hop, Op.operandKind, Token.size, parseString_litString hlen hstr]
    omega
  | jump o ho l =>
    obtain ⟨hop, hd⟩ := Code.Spells.cons_iff.mp h
    cases hi
    simp [decodeAt, hop, ho, Token.size, parseInt_int64 hd]
  | label name => cases hi

/-- The instructions of some tokens, with their addresses. -/
def listing (labels : L → Option ℕ) : (addr : ℕ) → List (Token L) → List (ℕ × Instr)
  | _, [] => []
  | addr, t :: ts =>
    match t.instr? labels addr with
    | none => listing labels (addr + t.size) ts
    | some i => (addr, i) :: listing labels (addr + t.size) ts

/-- **Walking the code of some tokens visits their instructions.** -/
theorem walk_final {labels : L → Option ℕ} {length : ℕ} : ∀ {ts : List (Token L)} {addr steps : ℕ},
    codeSize ts < 2 ^ 63 → addr + codeSize ts = length → codeSize ts ≤ steps →
    code.Spells addr (final labels addr ts) →
    walk code length steps addr = some (listing labels addr ts)
  | [], addr, steps, _, hend, _, _ => by
      have hnot : ¬ addr < length := by simp at hend; omega
      cases steps <;> simp [walk, hnot, listing]
  | t :: ts, addr, steps, hsize, hend, hsteps, h => by
      rw [codeSize_cons] at hsize hend hsteps
      obtain ⟨ht, hts⟩ := Code.Spells.append_iff.mp h
      rw [Token.encode_length] at hts
      cases hi : t.instr? labels addr with
      | none =>
        have hzero : t.size = 0 := by cases t <;> simp [Token.instr?, Token.size] at hi ⊢
        have hrest : walk code length steps (addr + t.size) =
            some (listing labels (addr + t.size) ts) :=
          walk_final (by omega) (by omega) (by omega) hts
        simp only [listing, hi]
        rwa [hzero] at hrest ⊢
      | some i =>
        have hpos : 0 < t.size := by cases t <;> simp [Token.instr?, Token.size] at hi ⊢
        obtain ⟨steps, rfl⟩ := Nat.exists_eq_add_of_le' (Nat.le_trans (by omega : 1 ≤ _) hsteps)
        have hrest : walk code length steps (addr + t.size) =
            some (listing labels (addr + t.size) ts) :=
          walk_final (by omega) (by omega) (by omega) hts
        have hlt : addr < length := by omega
        rw [listing, hi, walk, if_pos hlt, decodeAt_encode (by omega) hi ht]
        simp [hrest]

end Decoder

/-! ## Jump targets

A displacement is added to the address behind it modulo `2⁶⁴`, so backward jumps are sums that wrap.  What is
said of a jump is not an address but an instruction: the one that the label stands in front of. -/

/-- **Adding a displacement** to the address behind it gives the label's address. -/
theorem jumpTo_displacement {labelAddr addr : ℕ} (hlabel : labelAddr < 2 ^ 63)
    (haddr : addr < 2 ^ 63) : jumpTo (addr + 8) (displacement labelAddr addr) = labelAddr := by
  have hd : (displacement labelAddr addr).toUInt64 =
      UInt64.ofNat labelAddr - UInt64.ofNat addr - 8 := rfl
  have h8 : (8 : UInt64).toNat = 8 := rfl
  rw [jumpTo, hd, UInt64.toNat_sub, UInt64.toNat_sub, UInt64.toNat_ofNat', UInt64.toNat_ofNat', h8]
  omega

/-- The address of the instruction number `k` of a walk, or the end of the code. -/
def entry (ws : List (ℕ × Instr)) (length k : ℕ) : ℕ := (ws[k]?.map Prod.fst).getD length

/-- The number of instructions among some tokens. -/
def instrCount (tokens : List (Token L)) : ℕ := tokens.countP Token.isInstr

/-- The instructions among some tokens, by the first. -/
theorem instrCount_cons (t : Token L) (ts : List (Token L)) :
    instrCount (t :: ts) = instrCount ts + if t.isInstr then 1 else 0 := List.countP_cons

section Listing

variable (labels : L → Option ℕ)

/-- The listing of two sequences, the second one behind the first. -/
theorem listing_append (ts ts' : List (Token L)) (addr : ℕ) :
    listing labels addr (ts ++ ts') =
      listing labels addr ts ++ listing labels (addr + codeSize ts) ts' := by
  induction ts generalizing addr with
  | nil => rfl
  | cons t ts ih =>
    rw [List.cons_append, listing, listing, codeSize_cons, ← Nat.add_assoc]
    cases t.instr? labels addr with
    | none => exact ih _
    | some i => rw [ih, List.cons_append]

/-- A listing has one entry for each instruction. -/
theorem listing_length (ts : List (Token L)) (addr : ℕ) :
    (listing labels addr ts).length = instrCount ts := by
  induction ts generalizing addr with
  | nil => rfl
  | cons t ts ih =>
    rw [instrCount_cons]
    cases t <;> simp [listing, Token.instr?, Token.isInstr, ih]

/-- A listing starts where its tokens start, unless it is empty. -/
theorem entry_listing_zero (ts : List (Token L)) (addr : ℕ) :
    entry (listing labels addr ts) (addr + codeSize ts) 0 = addr := by
  induction ts generalizing addr with
  | nil => rfl
  | cons t ts ih =>
    cases t with
    | label l => simpa [listing, Token.instr?, Token.size] using ih addr
    | _ => rfl

/-- **The instruction behind some tokens** is where their code ends. -/
theorem entry_listing (pre post : List (Token L)) (addr : ℕ) :
    entry (listing labels addr (pre ++ post)) (addr + codeSize (pre ++ post)) (instrCount pre) =
      addr + codeSize pre := by
  have hskip : (listing labels addr (pre ++ post))[instrCount pre]? =
      (listing labels (addr + codeSize pre) post)[0]? := by
    rw [listing_append, ← listing_length labels pre addr, List.getElem?_append_right (le_refl _),
      Nat.sub_self]
  rw [entry, hskip, codeSize_append, ← Nat.add_assoc]
  exact entry_listing_zero labels post _

/-- The entries of a listing lie in the code of its tokens. -/
theorem listing_lt (ts : List (Token L)) (addr : ℕ) :
    ∀ w ∈ listing labels addr ts, addr ≤ w.1 ∧ w.1 < addr + codeSize ts := by
  induction ts generalizing addr with
  | nil => simp [listing]
  | cons t ts ih =>
    intro w hw
    have hrest : w ∈ listing labels (addr + t.size) ts →
        addr ≤ w.1 ∧ w.1 < addr + codeSize (t :: ts) := fun h => by
      have := ih _ w h
      rw [codeSize_cons]
      omega
    cases t with
    | label l => exact hrest (by simpa [listing, Token.instr?] using hw)
    | _ =>
      rcases List.mem_cons.mp hw with rfl | hw
      · simp [Token.size]
      · exact hrest hw

end Listing

/-- What a walk `ws` of `length` bytes of code shows of one of the `tokens`: its operation with its
operand.  The operand of a jump leads to the instruction that follows the last definition of its
label. -/
def Realizes (tokens : List (Token L)) (ws : List (ℕ × Instr)) (length : ℕ) :
    Token L → ℕ × Instr → Prop
  | .op o _, (_, i) => i = ⟨o, .none⟩
  | .fixnum n, (_, i) => i = ⟨.litFixnum, .int n⟩
  | .char c, (_, i) => i = ⟨.litChar, .char c⟩
  | .string str, (_, i) => i = ⟨.litString, .string (cstr str)⟩
  | .symbol str, (_, i) => i = ⟨.litSymbol, .string (cstr str)⟩
  | .jump o _ l, (addr, i) => ∃ d pre post, i = ⟨o, .int d⟩ ∧
      tokens = pre ++ .label l :: post ∧ .label l ∉ post ∧
      jumpTo (addr + 9) d = entry ws length (instrCount pre)
  | .label _, _ => False

/-- **The listing realizes its tokens**, for a relation that holds of each of their instructions. -/
theorem forall₂_listing {labels : L → Option ℕ} {R : Token L → ℕ × Instr → Prop} {n : ℕ} :
    ∀ {ts : List (Token L)} {addr : ℕ}, addr + codeSize ts ≤ n →
      (∀ t ∈ ts, ∀ a i, a + t.size ≤ n → t.instr? labels a = some i → R t (a, i)) →
      List.Forall₂ R (ts.filter Token.isInstr) (listing labels addr ts)
  | [], _, _, _ => .nil
  | t :: ts, addr, hn, hR => by
      rw [codeSize_cons] at hn
      have hrest : List.Forall₂ R (ts.filter Token.isInstr) (listing labels (addr + t.size) ts) :=
        forall₂_listing (by omega) fun t' ht' => hR t' (List.mem_cons_of_mem _ ht')
      have hhead : ∀ i, t.instr? labels addr = some i → R t (addr, i) := fun i =>
        hR t List.mem_cons_self addr i (by omega)
      cases t with
      | label l => exact hrest
      | _ => exact .cons (hhead _ rfl) hrest

variable [DecidableEq L]

/-- A defined label has a last definition, and its address is in the table. -/
theorem last_definition {tokens : List (Token L)} {l : L} (h : Token.label l ∈ tokens) :
    ∃ pre post, tokens = pre ++ .label l :: post ∧ .label l ∉ post ∧
      (Assembler.run tokens).labels l = some (codeSize pre) := by
  obtain ⟨post, pre, he, hpost⟩ := List.eq_append_cons_of_mem (List.mem_reverse.mpr h)
  have htokens : tokens = pre.reverse ++ .label l :: post.reverse := by
    simpa using congrArg List.reverse he
  have hlast : .label l ∉ post.reverse := fun h => hpost (List.mem_reverse.mp h)
  exact ⟨_, _, htokens, hlast, (Assembler.run_labels tokens l _).mpr ⟨_, _, htokens, hlast, rfl⟩⟩

/-- **Every token is realized** where its instruction stands, a jump with the displacement to its label. -/
theorem realizes_token {tokens : List (Token L)} (hsize : codeSize tokens < 2 ^ 63)
    (hdef : ∀ o h l, Token.jump o h l ∈ tokens → Token.label l ∈ tokens) {t : Token L}
    (ht : t ∈ tokens) {a : ℕ} {i : Instr} (ha : a + t.size ≤ codeSize tokens)
    (hi : t.instr? (Assembler.run tokens).labels a = some i) :
    Realizes tokens (listing (Assembler.run tokens).labels 0 tokens) (codeSize tokens) t (a, i) := by
  cases t with
  | label l => cases hi
  | jump o h l =>
    obtain ⟨pre, post, hsplit, hlast, hl⟩ := last_definition (hdef o h l ht)
    have hpre : codeSize pre ≤ codeSize tokens := by rw [hsplit, codeSize_append]; omega
    have hjump : jumpTo (a + 9) (displacement (codeSize pre) (a + 1)) = codeSize pre :=
      jumpTo_displacement (by omega) (by simp only [Token.size] at ha; omega)
    have hentry := entry_listing (Assembler.run tokens).labels pre (.label l :: post) 0
    rw [← hsplit, Nat.zero_add, Nat.zero_add] at hentry
    refine ⟨displacement (codeSize pre) (a + 1), pre, post, ?_, hsplit, hlast, ?_⟩
    · cases hi
      rw [hl, Option.getD_some]
    · rw [hjump, hentry]
  | _ => exact (Option.some.inj hi).symm

/-- **The assembler and the decoder agree.**  When every label that is used is defined, `asm_string`
produces code.  In any memory that holds the code, walking it from address 0 visits the instructions
of the tokens in order, with their operands; each is inside of the code, and each jump leads to the
instruction that follows the last definition of its label, or to the end of the code.  (An object in
memory is shorter than 2^63 bytes.) -/
theorem asm_string_walk (tokens : List (Token L)) (hsize : codeSize tokens < 2 ^ 63)
    (hdef : ∀ o h l, Token.jump o h l ∈ tokens → Token.label l ∈ tokens) :
    ∃ bytes, asmString tokens = some bytes ∧ bytes.length = codeSize tokens ∧
      ∀ code : Code, code.Spells 0 bytes →
        ∃ ws, walk code bytes.length bytes.length 0 = some ws ∧
          List.Forall₂ (Realizes tokens ws bytes.length) (tokens.filter Token.isInstr) ws ∧
          ∀ w ∈ ws, w.1 < bytes.length := by
  have hdef' : ∀ o h l, Token.jump o h l ∈ tokens → (Assembler.run tokens).labels l ≠ none := by
    intro o h l hmem
    obtain ⟨_, _, -, -, hl⟩ := last_definition (hdef o h l hmem)
    simp [hl]
  have hcode := rewriteJumps_run _ tokens hdef' []
  rw [List.append_nil, List.append_nil] at hcode
  have hlength := final_length (Assembler.run tokens).labels tokens 0
  refine ⟨_, hcode, hlength, fun code hspells =>
    ⟨listing (Assembler.run tokens).labels 0 tokens, ?_, ?_, ?_⟩⟩
  · exact walk_final hsize (by omega) (by omega) hspells
  · rw [hlength]
    exact forall₂_listing (by omega) fun t ht a i => realizes_token hsize hdef ht
  · intro w hw
    have := listing_lt _ _ _ w hw
    omega

/-- A loop over a forward and a backward label, one of them defined twice. -/
theorem asm_string_walk_loop :
    let tokens : List (Token ℕ) := [.label 0, .fixnum (-1), .jump .jnf rfl 1, .label 1, .char 955,
      .string [104, 105], .label 1, .jump .jmp rfl 0]
    ∃ bytes, asmString tokens = some bytes ∧ bytes.length = codeSize tokens ∧
      ∀ code : Code, code.Spells 0 bytes →
        ∃ ws, walk code bytes.length bytes.length 0 = some ws ∧
          List.Forall₂ (Realizes tokens ws bytes.length) (tokens.filter Token.isInstr) ws ∧
          ∀ w ∈ ws, w.1 < bytes.length :=
  asm_string_walk _ (by decide) (by
    intro o h l hmem
    simp at hmem
    rcases hmem with hmem | hmem <;> cases hmem <;> simp)

end Insomniac.Asm

import Insomniac.Bootstrap.Lines
import Insomniac.Vm.Literals
import Insomniac.Vm.Print

/-!
# Bootstrap/Characters — character literals

    #\c ──lexer──▸ (OP_LIT_CHAR, yytext) ──asm_lit_char──▸ 4 bytes ──op_lit_char──▸ CHAR ──out──▸ UTF-8

A literal `Denotes` its code point when every stage keeps it (`char_literal_denotes_iff`): the bytes that
the class `[^{WS}]` leaves out are passed over, a character of more than one byte is cut after the first,
and the character of the code point 0 is printed as an empty C string.
-/

open Bytes Munch RegularExpression Insomniac.Asm Insomniac.Vm

namespace Insomniac.Bootstrap

/-! ## UTF-8

The encoder shifts the code point six bits at a time, and what it has left over goes into the head.  So the
bytes are told by division, the last one first. -/

/-- **UTF-8**, up to six bytes: the leading ones of the head count the bytes, a tail has six bits. -/
def utf8 (n : ℕ) : List UInt8 :=
  let tail (i : ℕ) : UInt8 := UInt8.ofNat (0x80 + n / 64 ^ i % 64)
  if n < 2 ^ 7 then [UInt8.ofNat n]
  else if n < 2 ^ 11 then [UInt8.ofNat (0xC0 + n / 64), tail 0]
  else if n < 2 ^ 16 then [UInt8.ofNat (0xE0 + n / 64 ^ 2), tail 1, tail 0]
  else if n < 2 ^ 21 then [UInt8.ofNat (0xF0 + n / 64 ^ 3), tail 2, tail 1, tail 0]
  else if n < 2 ^ 26 then [UInt8.ofNat (0xF8 + n / 64 ^ 4), tail 3, tail 2, tail 1, tail 0]
  else [UInt8.ofNat (0xFC + n / 64 ^ 5), tail 4, tail 3, tail 2, tail 1, tail 0]

/-- A tail has the last six bits. -/
theorem tailByte_eq (character : UInt32) : tailByte character = UInt8.ofNat (0x80 + character.toNat % 64) := by
  have hbits : ∀ y : Fin 64, (utf8Tail ||| (UInt32.ofNat y).toUInt8.toUInt32).toUInt8 = UInt8.ofNat (0x80 + y) := by
    decide +kernel
  have hmod : (character &&& bitMask 6).toNat = character.toNat % 64 := by
    rw [UInt32.toNat_and]
    exact Nat.and_two_pow_sub_one_eq_mod _ 6
  have h := hbits ⟨(character &&& bitMask 6).toNat, hmod ▸ Nat.mod_lt _ (by decide)⟩
  rw [UInt32.ofNat_toNat] at h
  rw [← hmod]
  exact h

/-- A head says how many tails follow, and has the bits that are left. -/
theorem headByte_eq (i : Fin 6) {upper : UInt32} (h : upper.toNat < 2 ^ (6 - i.val)) (hi : 0 < i.val) :
    headByte (UInt32.ofNat i) upper = UInt8.ofNat ((0xFE <<< (6 - i.val)) % 256 + upper.toNat) := by
  have hbits : ∀ i : Fin 6, ∀ y : Fin 32, 0 < i.val → y.val < 2 ^ (6 - i.val) →
      headByte (UInt32.ofNat i) (UInt32.ofNat y) = UInt8.ofNat ((0xFE <<< (6 - i.val)) % 256 + y) := by decide +kernel
  have hpow : 2 ^ (6 - i.val) ≤ 2 ^ 5 := Nat.pow_le_pow_right (by decide) (by omega)
  have hy := hbits i ⟨upper.toNat, h.trans_le hpow⟩ hi h
  rwa [UInt32.ofNat_toNat] at hy

/-- Six bits less is division by 64. -/
theorem toNat_shiftRight_six (character : UInt32) : (character >>> 6).toNat = character.toNat / 64 := by
  rw [UInt32.toNat_shiftRight]
  exact Nat.shiftRight_eq_div_pow _ 6

/-- The bytes of a character with some tails. -/
def tailed (tails n : ℕ) : List UInt8 :=
  UInt8.ofNat ((0xFE <<< (6 - tails)) % 256 + n / 64 ^ tails) ::
    (List.range tails).reverse.map fun i => UInt8.ofNat (0x80 + n / 64 ^ i % 64)

/-- The loop puts one tail after the other in front of what it has. -/
theorem encodeTails_eq (i : UInt32) : ∀ (tails : ℕ) (character : UInt32) (output : List UInt8),
    ∃ upper, upper.toNat = character.toNat / 64 ^ tails ∧ encodeTails tails i character output =
      headByte i upper :: ((List.range tails).reverse.map fun j => UInt8.ofNat (0x80 + character.toNat / 64 ^ j % 64)) ++
        output
  | 0, character, output => ⟨character, by simp, rfl⟩
  | tails + 1, character, output => by
      obtain ⟨upper, hupper, hwritten⟩ := encodeTails_eq i tails (character >>> 6) (tailByte character :: output)
      refine ⟨upper, ?_, ?_⟩
      · rw [hupper, toNat_shiftRight_six, Nat.div_div_eq_div_mul, pow_succ']
      · rw [encodeTails, hwritten, tailByte_eq, toNat_shiftRight_six, List.range_succ_eq_map]
        simp [Nat.div_div_eq_div_mul, pow_succ']

/-- What the loop has put down for a character that fits. -/
theorem encodeTails_tailed (tails : Fin 6) (htails : 0 < tails.val) {character : UInt32}
    (h : character.toNat < 2 ^ (6 - tails.val) * 64 ^ tails.val) :
    encodeTails tails (UInt32.ofNat tails) character [] = tailed tails character.toNat := by
  obtain ⟨upper, hupper, hwritten⟩ := encodeTails_eq (UInt32.ofNat tails) tails character []
  have hlt : upper.toNat < 2 ^ (6 - tails.val) := by
    rw [hupper]
    exact Nat.div_lt_of_lt_mul (by rwa [mul_comm])
  rw [hwritten, List.append_nil, headByte_eq tails hlt htails, hupper, tailed]

/-- **The encoder writes UTF-8.** -/
theorem utf8EncodeChar_eq {character : UInt32} (h : character < 2 ^ 31) :
    utf8EncodeChar character = utf8 character.toNat := by
  have hmask : ∀ k : Fin 32, character &&& notMask (UInt32.ofNat k) = 0 ↔ character.toNat < 2 ^ k.val := fun k =>
    and_notMask_eq_zero k character
  have h7 : character &&& notMask 7 = 0 ↔ character.toNat < 2 ^ 7 := hmask 7
  have h11 : character &&& notMask 11 = 0 ↔ character.toNat < 2 ^ 11 := hmask 11
  have h16 : character &&& notMask 16 = 0 ↔ character.toNat < 2 ^ 16 := hmask 16
  have h21 : character &&& notMask 21 = 0 ↔ character.toNat < 2 ^ 21 := hmask 21
  have h26 : character &&& notMask 26 = 0 ↔ character.toNat < 2 ^ 26 := hmask 26
  have h31 : character &&& notMask 31 = 0 ↔ character.toNat < 2 ^ 31 := hmask 31
  have hascii : ∀ y : Fin 128, (UInt32.ofNat y &&& bitMask 7).toUInt8 = UInt8.ofNat y := by decide +kernel
  have hlt : character.toNat < 2 ^ 31 := h
  unfold utf8EncodeChar utf8
  simp only [h7, h11, h16, h21, h26, h31, if_pos hlt]
  split
  · next hlt =>
    have hbyte := hascii ⟨character.toNat, hlt⟩
    rw [UInt32.ofNat_toNat] at hbyte
    rw [hbyte]
  · split
    · next hlt => exact (encodeTails_tailed 1 (by decide) hlt).trans (by simp [tailed])
    · split
      · next hlt => exact encodeTails_tailed 2 (by decide) hlt
      · split
        · next hlt => exact encodeTails_tailed 3 (by decide) hlt
        · split
          · next hlt => exact encodeTails_tailed 4 (by decide) hlt
          · exact encodeTails_tailed 5 (by decide) hlt

/-- **A character that is not one byte** has no byte below 128. -/
theorem utf8_wide {n : ℕ} (h : 2 ^ 7 ≤ n) (hlt : n < 2 ^ 31) :
    ∃ b c rest, utf8 n = b :: c :: rest ∧ ∀ a ∈ b :: c :: rest, 128 ≤ a.toNat := by
  unfold utf8
  rw [if_neg (Nat.not_lt.mpr h)]
  split
  · exact ⟨_, _, _, rfl, by simp; omega⟩
  · split
    · exact ⟨_, _, _, rfl, by simp; omega⟩
    · split
      · exact ⟨_, _, _, rfl, by simp; omega⟩
      · split
        · exact ⟨_, _, _, rfl, by simp; omega⟩
        · exact ⟨_, _, _, rfl, by simp; omega⟩

/-- **A character is printed in UTF-8**, but for the one of the code point 0: `output_char` prints the encoding as a
C string. -/
theorem outputChar_run {character : UInt32} (h : character < 2 ^ 31) (hne : character ≠ 0) (out : Out) :
    outputChar character out = .ok ((), { out with text := out.text ++ utf8 character.toNat }) := by
  refine congrArg (fun str => Except.ok ((), ({ out with text := out.text ++ str } : Out))) ?_
  have hlt : character.toNat < 2 ^ 31 := h
  have hpos : character.toNat ≠ 0 := fun hzero => hne (UInt32.toNat_inj.mp hzero)
  rw [utf8EncodeChar_eq h]
  refine cstr_eq_self fun b hb hzero => ?_
  rcases Nat.lt_or_ge character.toNat (2 ^ 7) with h7 | h7
  · rw [utf8, if_pos h7, List.mem_singleton] at hb
    have hmod := UInt8.toNat_inj.mpr (hb.symm.trans hzero)
    rw [UInt8.toNat_ofNat', UInt8.toNat_zero] at hmod
    omega
  · obtain ⟨_, _, _, heq, hge⟩ := utf8_wide h7 hlt
    rw [heq] at hb
    have hb := hge b hb
    rw [hzero] at hb
    exact absurd hb (by decide)

/-! ## Literals

The tokens of the Scheme lexer, each with the code point that it writes down. -/

/-- **A character literal** behind its `#\`: a printable ASCII character, a name, a code point in
hexadecimal, or another character in UTF-8. -/
inductive CharLiteral
  | printable (b : UInt8) (h : 0x20 ≤ b ∧ b ≤ 0x7E)
  | newline
  | space
  | hex (str : List UInt8) (hne : str ≠ []) (h : ∀ b ∈ str, b ∈ xdigit) (hlt : numeral 16 str < 2 ^ 31)
  | wide (n : ℕ) (h : 2 ^ 7 ≤ n) (hlt : n < 2 ^ 31)

/-- How a literal is written. -/
def CharLiteral.str : CharLiteral → List UInt8
  | printable b _ => [b]
  | newline => text "newline"
  | space => text "space"
  | hex str _ _ _ => 120 :: str
  | wide n _ _ => utf8 n

/-- The code point that it names. -/
def CharLiteral.codePoint : CharLiteral → ℕ
  | printable b _ => b.toNat
  | newline => 10
  | space => 32
  | hex str _ _ _ => numeral 16 str
  | wide n _ _ => n

/-- **A literal denotes a character**: its line is lexed as one character, which is assembled, pushed
and printed as what it is. -/
structure Denotes (lit : CharLiteral) (character : UInt32) : Prop where
  value : character.toNat = lit.codePoint
  lexed : ∀ rest, lexFrom .initial (emitOp (streamChar lit.str) ++ rest) =
    (.op .litChar, lit.str) :: lexFrom .initial rest
  assembled : ∀ debug rest, readText debug (emitOp (streamChar lit.str) ++ rest) =
    (readText debug rest).map (.char character :: ·)
  pushed : ∀ host, Pushes host ((Token.char character : Token (List UInt8)).encode (fun _ => none) 0) fun vm r =>
    vm.deref r = some (.char character)
  printed : ∀ out, outputChar character out = .ok ((), { out with text := out.text ++ utf8 lit.codePoint })

/-- A literal that comes through: none of the bytes that the class leaves out, not more than one byte,
not the code point 0. -/
def CharLiteral.Kept : CharLiteral → Prop
  | printable b _ => b ∉ text "\x7bWS\x7d"
  | newline => True
  | space => True
  | hex str _ _ _ => numeral 16 str ≠ 0
  | wide _ _ _ => False

/-! ### The lexer -/

/-- `#\` takes the lexer to the state in which a character is expected. -/
theorem lex_marker (s : List UInt8) : lexFrom .initial (text "#\\" ++ s) = lexFrom .expectChar s := by
  have hstuck : ∀ r ∈ lexRules .initial, stuck (behind r.pattern (text "#\\")) = true := by decide +kernel
  exact lex_eq (atMost_of_stuck hstuck) (r := ⟨word (text "#\\"), 0, some .expectChar, none⟩) rfl rfl (by decide)

/-- What the rule of characters matches. -/
theorem mem_charVal {w : List UInt8} : w ∈ charVal.matches' ↔
    w = text "newline" ∨ w = text "space" ∨ w = text "eof" ∨ ∃ b, b ∉ text "\x7bWS\x7d" ∧ w = [b] := by
  simp only [charVal, matches'_add, Language.mem_add, mem_word, mem_oneOf, mem_except, or_assoc]

/-- What the rule of hexadecimal numbers matches. -/
theorem mem_hex {w : List UInt8} : w ∈ (word (text "x") * many (oneOf xdigit)).matches' ↔
    ∃ str, str ≠ [] ∧ (∀ b ∈ str, b ∈ xdigit) ∧ w = 120 :: str := by
  rw [matches'_mul, Language.mem_mul]
  constructor
  · rintro ⟨_, hx, str, hstr, rfl⟩
    obtain ⟨hne, h⟩ := mem_many_oneOf.mp hstr
    rw [mem_word.mp hx]
    exact ⟨str, hne, h, rfl⟩
  · rintro ⟨str, hne, h, rfl⟩
    exact ⟨text "x", mem_word.mpr rfl, str, mem_many_oneOf.mpr ⟨hne, h⟩, rfl⟩

/-- The letters behind the first one of what the rules match. -/
def inner : List UInt8 := text "epo" ++ xdigit

/-- No rule of characters goes on with a letter that is not an inner one. -/
theorem second_of_match {r : LexRule} (hr : r ∈ lexRules .expectChar) {b c : UInt8} {u : List UInt8}
    (hu : b :: c :: u ∈ r.pattern.matches') : c ∈ inner := by
  rcases List.mem_pair.mp hr with rfl | rfl
  · obtain ⟨str, -, hxdigit, heq⟩ := mem_hex.mp hu
    obtain ⟨-, rfl⟩ := List.cons_eq_cons.mp heq
    exact List.mem_append_right _ (hxdigit c List.mem_cons_self)
  · rcases mem_charVal.mp hu with heq | heq | heq | ⟨d, -, heq⟩
    · obtain ⟨-, heq⟩ := List.cons_eq_cons.mp heq
      obtain ⟨rfl, -⟩ := List.cons_eq_cons.mp heq
      decide
    · obtain ⟨-, heq⟩ := List.cons_eq_cons.mp heq
      obtain ⟨rfl, -⟩ := List.cons_eq_cons.mp heq
      decide
    · obtain ⟨-, heq⟩ := List.cons_eq_cons.mp heq
      obtain ⟨rfl, -⟩ := List.cons_eq_cons.mp heq
      decide
    · cases heq

/-- What the rules match before a letter that is not an inner one is at most one letter. -/
theorem atMost_single {b c : UInt8} (hc : c ∉ inner) (rest : List UInt8) :
    AtMost (lexRules .expectChar) (b :: c :: rest) [b] := by
  rintro r hr (_ | ⟨x, _ | ⟨y, u⟩⟩) hu hmem
  · exact Nat.zero_le _
  · exact le_rfl
  · obtain ⟨-, hu⟩ := List.cons_prefix_cons.mp hu
    obtain ⟨rfl, -⟩ := List.cons_prefix_cons.mp hu
    exact absurd (second_of_match hr hmem) hc

/-- No hexadecimal number is one byte long. -/
theorem hex_not_single (b : UInt8) : (word (text "x") * many (oneOf xdigit)).rmatch [b] = false := by
  rw [← Bool.not_eq_true, rmatch_iff_matches', mem_hex]
  rintro ⟨str, hne, -, heq⟩
  exact hne (List.cons_eq_cons.mp heq).2.symm

/-- **One letter is one character.** -/
theorem lex_single {b c : UInt8} (hb : b ∉ text "\x7bWS\x7d") (hc : c ∉ inner) (rest : List UInt8) :
    lexFrom .expectChar (b :: c :: rest) = (.op .litChar, [b]) :: lexFrom .initial (c :: rest) := by
  have hfind : (lexRules .expectChar).find? (·.pattern.rmatch [b]) = some (begins charVal .initial (.op .litChar)) := by
    have hmatch := (rmatch_iff_matches' charVal [b]).mpr (mem_charVal.mpr (.inr (.inr (.inr ⟨b, hb, rfl⟩))))
    rw [lexRules, List.find?_cons_of_neg (by rw [begins, hex_not_single]; decide)]
    exact List.find?_cons_of_pos hmatch
  exact lex_eq (w := [b]) (atMost_single hc rest) hfind rfl (List.cons_ne_nil b [])

/-- **A letter that the class leaves out is passed over**, and the next one is the character. -/
theorem lex_left_out {b : UInt8} (hb : b ∈ text "\x7bWS\x7d") (s : List UInt8) :
    lexFrom .expectChar (b :: s) = lexFrom .expectChar s := by
  have hdead : ∀ b ∈ text "\x7bWS\x7d", ∀ r ∈ lexRules .expectChar, dead (behind r.pattern [b]) = true := by
    decide +kernel
  exact lex_skip (atMost_of_dead (w := []) (hdead b hb))

/-- **A hexadecimal code point is one character.** -/
theorem lex_hex {str : List UInt8} (hne : str ≠ []) (h : ∀ b ∈ str, b ∈ xdigit) (rest : List UInt8) :
    lexFrom .expectChar (120 :: str ++ 10 :: rest) = (.op .litChar, 120 :: str) :: lexFrom .initial (10 :: rest) := by
  have hmost : AtMost (lexRules .expectChar) (120 :: str ++ 10 :: rest) (120 :: str) := by
    rintro r hr (_ | ⟨b, _ | ⟨c, u⟩⟩) hu hmem
    · exact Nat.zero_le _
    · exact Nat.succ_le_succ (Nat.zero_le _)
    · rcases List.mem_pair.mp hr with rfl | rfl
      · obtain ⟨str', -, h', heq⟩ := mem_hex.mp hmem
        have hnewline : (10 : UInt8) ∉ 120 :: xdigit := by decide
        refine length_le_of_class hnewline hu fun a ha => ?_
        rw [heq] at ha
        exact List.mem_cons.mpr ((List.mem_cons.mp ha).imp id (h' a))
      · -- no name begins with the letter of hexadecimal code points
        have hx : b = 120 := (List.cons_prefix_cons.mp hu).1
        rcases mem_charVal.mp hmem with heq | heq | heq | ⟨d, -, heq⟩
        · exact absurd (hx.symm.trans (List.cons_eq_cons.mp heq).1) (by decide)
        · exact absurd (hx.symm.trans (List.cons_eq_cons.mp heq).1) (by decide)
        · exact absurd (hx.symm.trans (List.cons_eq_cons.mp heq).1) (by decide)
        · cases heq
  have hmatch := (rmatch_iff_matches' _ _).mpr (mem_hex.mpr ⟨str, hne, h, rfl⟩)
  exact lex_eq hmost (List.find?_cons_of_pos hmatch) rfl (List.cons_ne_nil 120 str)

/-- A name of a character is lexed as that name. -/
theorem lex_name {name : List UInt8} (hname : name = text "newline" ∨ name = text "space") (rest : List UInt8) :
    lexFrom .expectChar (name ++ rest) = (.op .litChar, name) :: lexFrom .initial rest := by
  have hstuck : ∀ name ∈ [text "newline", text "space"], ∀ r ∈ lexRules .expectChar,
      stuck (behind r.pattern name) = true := by decide +kernel
  have hmost : AtMost (lexRules .expectChar) (name ++ rest) name :=
    atMost_of_stuck (hstuck name (List.mem_pair.mpr hname))
  rcases hname with rfl | rfl
  · exact lex_eq hmost (r := begins charVal .initial (.op .litChar)) rfl rfl (by decide)
  · exact lex_eq hmost (r := begins charVal .initial (.op .litChar)) rfl rfl (by decide)

/-! ### The assembler -/

/-- Hexadecimal digits have values below 16. -/
theorem digit_of_xdigit : ∀ b ∈ xdigit, ∃ d, digitValue b = some d ∧ d < 16 := by decide +kernel

/-- A hexadecimal number is read as its value. -/
theorem asmLitChar_hex {str : List UInt8} (hne : str ≠ []) (h : ∀ b ∈ str, b ∈ xdigit)
    (hlt : numeral 16 str < 2 ^ 31) : (asmLitChar (120 :: str)).toNat = numeral 16 str := by
  have hlen : 1 < (120 :: str).length := by
    have := List.length_pos_of_ne_nil hne
    rw [List.length_cons]
    omega
  have hname : ∀ name : String, text name ≠ [] → (text name).head? ≠ some 120 → 120 :: str ≠ text name := by
    intro name _ hhead heq
    rw [← heq] at hhead
    exact hhead rfl
  rw [asmLitChar, if_neg (hname "newline" (by decide) (by decide)), if_neg (hname "space" (by decide) (by decide)),
    if_neg (hname "eof" (by decide) (by decide)), if_pos ⟨rfl, hlen⟩]
  have hread : readDigits 16 0 str = numeral 16 str := readDigits_eq 0 fun b hb => digit_of_xdigit b (h b hb)
  rw [List.drop_one, List.tail_cons, strtoul, hread, UInt64.toNat_toUInt32, UInt64.toNat_ofNat']
  omega

/-- A printable character is read as itself. -/
theorem asmLitChar_printable {b : UInt8} (h : 0x20 ≤ b ∧ b ≤ 0x7E) : (asmLitChar [b]).toNat = b.toNat := by
  have hall : ∀ b : Fin 128, (asmLitChar [UInt8.ofNat b]).toNat = b := by decide +kernel
  have hlt : b.toNat < 128 := Nat.lt_of_le_of_lt (UInt8.le_iff_toNat_le.mp h.2) (by decide)
  have hb := hall ⟨b.toNat, hlt⟩
  rwa [UInt8.ofNat_toNat] at hb

/-- The character of a literal's line. -/
theorem readText_char {str : List UInt8} (debug : Bool) {rest : List UInt8}
    (h : lexFrom .initial (emitOp (streamChar str) ++ rest) = (.op .litChar, str) :: lexFrom .initial rest) :
    readText debug (emitOp (streamChar str) ++ rest) = (readText debug rest).map (.char (asmLitChar str) :: ·) := by
  rw [readText, h, readTokens]
  rfl

/-! ## What literals denote

The stages one after the other: a literal is kept when the assembler's lexer, `asm_lit_char` and the encoder
each keep it, and every literal that is not kept is lost in exactly one of them. -/

/-- The line of a literal, up to its character. -/
theorem lex_literal (str rest : List UInt8) :
    lexFrom .initial (emitOp (streamChar str) ++ rest) = lexFrom .expectChar (str ++ 10 :: rest) := by
  rw [lex_line, streamChar, List.append_assoc, lex_marker]

/-- **A kept literal is lexed as it is.** -/
theorem lex_kept : ∀ {lit : CharLiteral}, lit.Kept → ∀ rest,
    lexFrom .initial (emitOp (streamChar lit.str) ++ rest) = (.op .litChar, lit.str) :: lexFrom .initial rest
  | .printable b h, hkept, rest => by
      rw [lex_literal]
      exact (lex_single hkept (by decide) rest).trans (congrArg _ (lex_newline rest))
  | .newline, _, rest => by
      rw [lex_literal]
      exact (lex_name (.inl rfl) _).trans (congrArg _ (lex_newline rest))
  | .space, _, rest => by
      rw [lex_literal]
      exact (lex_name (.inr rfl) _).trans (congrArg _ (lex_newline rest))
  | .hex str hne h _, _, rest => by
      rw [lex_literal]
      exact (lex_hex hne h rest).trans (congrArg _ (lex_newline rest))

/-- What a literal that is kept is read as. -/
theorem asmLitChar_kept : ∀ {lit : CharLiteral}, lit.Kept →
    (asmLitChar lit.str).toNat = lit.codePoint ∧ lit.codePoint < 2 ^ 31 ∧ lit.codePoint ≠ 0
  | .printable b h, _ => by
      have hge := UInt8.le_iff_toNat_le.mp h.1
      have hle := UInt8.le_iff_toNat_le.mp h.2
      exact ⟨asmLitChar_printable h, Nat.lt_of_le_of_lt hle (by decide), (Nat.lt_of_lt_of_le (by decide) hge).ne'⟩
  | .newline, _ => by decide
  | .space, _ => by decide
  | .hex str hne h hlt, hkept => ⟨asmLitChar_hex hne h hlt, hlt, hkept⟩

/-- A literal that denotes a character is kept. -/
theorem Denotes.kept {character : UInt32} : ∀ {lit : CharLiteral}, Denotes lit character → lit.Kept
  | .printable b hb, h => fun hmem => by
      -- the newline behind the literal becomes the character
      have hlexed := h.lexed [10]
      rw [lex_literal] at hlexed
      have hskip := (lex_left_out hmem (10 :: [10])).symm.trans hlexed
      have hnewline := (lex_single (b := 10) (c := 10) (by decide) (by decide) []).symm.trans hskip
      have hb10 : [10] = [b] := congrArg Prod.snd (List.cons_eq_cons.mp hnewline).1
      rw [← (List.cons_eq_cons.mp hb10).1] at hb
      exact absurd hb (by decide)
  | .newline, _ => trivial
  | .space, _ => trivial
  | .hex str _ _ _, h => by
      intro hzero
      have hprinted := h.printed ⟨[], 0⟩
      have hvalue : character.toNat = 0 := h.value.trans hzero
      rw [UInt32.toNat_inj.mp (hvalue.trans UInt32.toNat_zero.symm), CharLiteral.codePoint, hzero] at hprinted
      have htext := congrArg Out.text (congrArg Prod.snd (Except.ok.inj hprinted))
      exact absurd htext (by decide)
  | .wide n hn hlt, h => by
      obtain ⟨b, c, rest, heq, hge⟩ := utf8_wide hn hlt
      have hlexed := h.lexed []
      rw [lex_literal, CharLiteral.str, heq] at hlexed
      have hascii : ∀ a : UInt8, a ∈ text "\x7bWS\x7d" ++ inner → a.toNat < 128 := by decide
      have hb : b ∉ text "\x7bWS\x7d" := fun hmem =>
        absurd (hge b List.mem_cons_self) (Nat.not_le.mpr (hascii b (List.mem_append_left _ hmem)))
      have hc : c ∉ inner := fun hmem =>
        absurd (hge c (by simp)) (Nat.not_le.mpr (hascii c (List.mem_append_right _ hmem)))
      have hone := (lex_single hb hc _).symm.trans hlexed
      cases (List.cons_eq_cons.mp (congrArg Prod.snd (List.cons_eq_cons.mp hone).1)).2

/-- **A character literal denotes its code point** exactly when it is kept. -/
theorem char_literal_denotes_iff (lit : CharLiteral) : (∃ character, Denotes lit character) ↔ lit.Kept := by
  constructor
  · rintro ⟨_, h⟩
    exact h.kept
  · intro hkept
    obtain ⟨hvalue, hlt, hne⟩ := asmLitChar_kept hkept
    have hchar : asmLitChar lit.str < 2 ^ 31 := by
      rw [UInt32.lt_iff_toNat_lt, hvalue]
      exact hlt
    have hchar' : asmLitChar lit.str ≠ 0 := fun hzero => hne (hvalue.symm.trans (congrArg UInt32.toNat hzero))
    refine ⟨asmLitChar lit.str, hvalue, lex_kept hkept, fun debug rest => readText_char debug (lex_kept hkept rest),
      fun host => pushes_char _ _ host _, fun out => ?_⟩
    rw [outputChar_run hchar hchar', hvalue]

/-- **`#\W` is no character**: the newline behind it is taken for one. -/
theorem char_literal_left_out : ¬ ∃ character, Denotes (.printable 87 (by decide)) character := by
  rintro ⟨_, h⟩
  exact h.kept (by decide)

end Insomniac.Bootstrap

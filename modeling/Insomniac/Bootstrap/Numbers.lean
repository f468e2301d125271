import Insomniac.Bootstrap.Lexer
import Insomniac.Bootstrap.Lines
import Insomniac.Vm.Literals
import Mathlib.Data.Rat.Defs
import Mathlib.Algebra.Order.Field.Rat

/-!
# Bootstrap/Numbers — number literals

    "12"    ──▸ 12                          "010"   ──▸ 8, in base 0
    "1/2"   ──▸ 1, /, 2                     "1.5"   ──▸ 1, 5, and a dot that no rule matches

The compiler writes a number token as it is.  The assembler lexes only `{SIGNS}?{DIGITS}` as one literal,
and `strtoq` finds the base itself: what comes through is what `number_literal_iff` says.
-/

open Munch RegularExpression Insomniac.Asm Insomniac.Vm

namespace Insomniac.Bootstrap

/-! ## Number tokens

The patterns of the three rules, with a word for each: a token that one of them matches is a sign with some
digits, with a point or with a slash in it. -/

/-- A sign, or none. -/
inductive Sign
  | none | plus | minus
  deriving DecidableEq

/-- How a sign is written. -/
def Sign.str : Sign → List UInt8
  | none => []
  | plus => text "+"
  | minus => text "-"

/-- A number with a sign before it. -/
def Sign.apply {α : Type} [Neg α] : Sign → α → α
  | minus, a => -a
  | _, a => a

/-- Digits, at least one. -/
structure Digits where
  str : List UInt8
  ne_nil : str ≠ []
  digits : ∀ b ∈ str, b ∈ digits

/-- The number that digits write. -/
def Digits.number (ds : Digits) : ℕ := numeral 10 ds.str

/-- What may stand before the point. -/
inductive Whole
  | none | digits (ds : Digits) | nan | inf

/-- How it is written. -/
def Whole.str : Whole → List UInt8
  | none => []
  | digits ds => ds.str
  | nan => text "nan"
  | inf => text "inf"

/-- **A number token.** -/
inductive Number
  | fixed (sign : Sign) (ds : Digits)
  | decimal (sign : Sign) (whole : Whole) (fraction : Digits)
  | ratio (sign : Sign) (numerator denominator : Digits)

/-- How a number is written. -/
def Number.str : Number → List UInt8
  | fixed sign ds => sign.str ++ ds.str
  | decimal sign whole fraction => sign.str ++ (whole.str ++ (text "." ++ fraction.str))
  | ratio sign numerator denominator => sign.str ++ (numerator.str ++ (text "/" ++ denominator.str))

/-- **The number that is written**, if it is one. -/
def Number.value : Number → Option ℚ
  | fixed sign ds => some (sign.apply (ds.number : ℚ))
  | decimal sign whole fraction =>
    let part : ℚ := fraction.number / 10 ^ fraction.str.length
    match whole with
    | .none => some (sign.apply part)
    | .digits ds => some (sign.apply (ds.number + part))
    | .nan | .inf => Option.none
  | ratio sign numerator denominator =>
    if denominator.number = 0 then none else some (sign.apply (numerator.number / denominator.number : ℚ))

theorem mem_sign {w : List UInt8} : w ∈ (opt (oneOf signs)).matches' ↔ ∃ sign : Sign, sign.str = w := by
  have hsigns : ∀ b ∈ signs, b = 43 ∨ b = 45 := by decide
  rw [mem_opt, mem_oneOf]
  constructor
  · rintro (⟨b, hb, rfl⟩ | rfl)
    · rcases hsigns b hb with rfl | rfl
      · exact ⟨.plus, rfl⟩
      · exact ⟨.minus, rfl⟩
    · exact ⟨.none, rfl⟩
  · rintro ⟨_ | _ | _, rfl⟩
    · exact .inr rfl
    · exact .inl ⟨43, by decide, rfl⟩
    · exact .inl ⟨45, by decide, rfl⟩

theorem mem_digitRun {w : List UInt8} : w ∈ digitRun.matches' ↔ ∃ ds : Digits, ds.str = w := by
  rw [digitRun, mem_many_oneOf]
  constructor
  · rintro ⟨hne, h⟩
    exact ⟨⟨w, hne, h⟩, rfl⟩
  · rintro ⟨ds, rfl⟩
    exact ⟨ds.ne_nil, ds.digits⟩

/-- The integers of the assembler are those of the Scheme lexer. -/
theorem mem_fixnum {w : List UInt8} : w ∈ Asm.fixnum.matches' ↔ ∃ sign ds, (Number.fixed sign ds).str = w := by
  rw [Asm.fixnum, matches'_mul, Language.mem_mul]
  constructor
  · rintro ⟨u, hu, v, hv, rfl⟩
    obtain ⟨sign, rfl⟩ := mem_sign.mp hu
    obtain ⟨ds, rfl⟩ := mem_digitRun.mp hv
    exact ⟨sign, ds, rfl⟩
  · rintro ⟨sign, ds, rfl⟩
    exact ⟨_, mem_sign.mpr ⟨sign, rfl⟩, _, mem_digitRun.mpr ⟨ds, rfl⟩, rfl⟩

/-- What may stand in front of a point. -/
theorem mem_whole {w : List UInt8} :
    w ∈ (opt (digitRun + word (text "nan") + word (text "inf"))).matches' ↔ ∃ whole : Whole, whole.str = w := by
  rw [mem_opt, matches'_add, matches'_add, Language.mem_add, Language.mem_add, mem_digitRun, mem_word, mem_word]
  constructor
  · rintro (((⟨ds, rfl⟩ | rfl) | rfl) | rfl)
    · exact ⟨.digits ds, rfl⟩
    · exact ⟨.nan, rfl⟩
    · exact ⟨.inf, rfl⟩
    · exact ⟨.none, rfl⟩
  · rintro ⟨_ | ds | _ | _, rfl⟩
    · exact .inr rfl
    · exact .inl (.inl (.inl ⟨ds, rfl⟩))
    · exact .inl (.inl (.inr rfl))
    · exact .inl (.inr rfl)

theorem mem_decimal {w : List UInt8} : w ∈ Bootstrap.decimal.matches' ↔
    ∃ sign whole fraction, (Number.decimal sign whole fraction).str = w := by
  rw [Bootstrap.decimal, matches'_mul, Language.mem_mul]
  constructor
  · rintro ⟨u, hu, _, ⟨v, hv, _, ⟨x, hx, y, hy, rfl⟩, rfl⟩, rfl⟩
    obtain ⟨sign, rfl⟩ := mem_sign.mp hu
    obtain ⟨whole, rfl⟩ := mem_whole.mp hv
    obtain ⟨ds, rfl⟩ := mem_digitRun.mp hy
    obtain rfl := mem_word.mp hx
    exact ⟨sign, whole, ds, rfl⟩
  · rintro ⟨sign, whole, ds, rfl⟩
    exact ⟨_, mem_sign.mpr ⟨sign, rfl⟩, _, ⟨_, mem_whole.mpr ⟨whole, rfl⟩, _,
      ⟨_, mem_word.mpr rfl, _, mem_digitRun.mpr ⟨ds, rfl⟩, rfl⟩, rfl⟩, rfl⟩

theorem mem_ratio {w : List UInt8} : w ∈ Bootstrap.ratio.matches' ↔
    ∃ sign numerator denominator, (Number.ratio sign numerator denominator).str = w := by
  rw [Bootstrap.ratio, matches'_mul, Language.mem_mul]
  constructor
  · rintro ⟨u, hu, _, ⟨v, hv, _, ⟨x, hx, y, hy, rfl⟩, rfl⟩, rfl⟩
    obtain ⟨sign, rfl⟩ := mem_sign.mp hu
    obtain ⟨numerator, rfl⟩ := mem_digitRun.mp hv
    obtain ⟨denominator, rfl⟩ := mem_digitRun.mp hy
    obtain rfl := mem_word.mp hx
    exact ⟨sign, numerator, denominator, rfl⟩
  · rintro ⟨sign, numerator, denominator, rfl⟩
    exact ⟨_, mem_sign.mpr ⟨sign, rfl⟩, _, ⟨_, mem_digitRun.mpr ⟨numerator, rfl⟩, _,
      ⟨_, mem_word.mpr rfl, _, mem_digitRun.mpr ⟨denominator, rfl⟩, rfl⟩, rfl⟩, rfl⟩

/-- **Every number token of the lexer** is such a number. -/
theorem number_of_token {token : SchemeToken} {str rest : List UInt8} (h : IsToken .initial token str rest)
    (htoken : token = .fixedNumber ∨ token = .floatNumber) : ∃ n : Number, n.str = str := by
  obtain ⟨r, hr, hreturns, hmem, -⟩ := h.matches
  have hothers : ∀ r ∈ schemeLeading ++ schemeTrailing, r.token ≠ some .fixedNumber ∧ r.token ≠ some .floatNumber := by
    decide
  have hnumber : r ∈ numberRules := by
    rcases List.mem_append.mp hr with hr | hr
    · have hother := hothers r (List.mem_append_left _ hr)
      rcases htoken with rfl | rfl
      · exact absurd hreturns hother.1
      · exact absurd hreturns hother.2
    · rcases List.mem_append.mp hr with hr | hr
      · exact hr
      · have hother := hothers r (List.mem_append_right _ hr)
        rcases htoken with rfl | rfl
        · exact absurd hreturns hother.1
        · exact absurd hreturns hother.2
  simp only [numberRules, List.mem_cons, List.not_mem_nil, or_false] at hnumber
  rcases hnumber with rfl | rfl | rfl
  · obtain ⟨sign, ds, rfl⟩ := mem_fixnum.mp hmem
    exact ⟨_, rfl⟩
  · obtain ⟨sign, whole, ds, rfl⟩ := mem_decimal.mp hmem
    exact ⟨_, rfl⟩
  · obtain ⟨sign, numerator, denominator, rfl⟩ := mem_ratio.mp hmem
    exact ⟨_, rfl⟩

/-! ## Lexing a number again

The assembler has a rule for a sign and digits and none for the rest, so the longest matches cut a number into
pieces.  A label would take everything up to a colon, but there is none in the line. -/

/-- The pattern of the rule of labels. -/
def labelPattern : RegularExpression UInt8 := Asm.label * word (text ":")

/-- The rules but that of labels. -/
def plainRules : List LexRule := leading ++ returns Asm.fixnum (.op .litFixnum) :: (keywords ++ trailing)

/-- The rules that can match in a line, but for the one of labels, are plain ones. -/
theorem mem_lexRules {r : LexRule} (hr : r ∈ lexRules .initial) : r ∈ plainRules ∨ r.pattern = labelPattern := by
  simp only [lexRules, plainRules, List.mem_append, List.mem_cons] at hr ⊢
  rcases hr with hr | hr | hr | rfl | hr
  · exact .inl (.inl hr)
  · exact .inl (.inr (.inl hr))
  · exact .inl (.inr (.inr (.inl hr)))
  · exact .inr rfl
  · exact .inl (.inr (.inr (.inr hr)))

/-- **There is no label** where a letter that is neither in one nor a colon comes before the first colon. -/
theorem no_label {v rest u : List UInt8} {c : UInt8} (hv : ∀ b ∈ v, b ≠ 58) (hc : c ∉ ident ++ text ":")
    (hu : u <+: v ++ c :: rest) : u ∉ labelPattern.matches' := by
  rw [labelPattern, matches'_mul, Language.mem_mul]
  rintro ⟨name, hname, _, hcolon, rfl⟩
  obtain ⟨-, hname⟩ := mem_many_oneOf.mp hname
  obtain rfl := mem_word.mp hcolon
  have hident : ∀ b ∈ name ++ text ":", b ∈ ident ++ text ":" := by
    intro b hb
    rcases List.mem_append.mp hb with hb | hb
    · exact List.mem_append_left _ (hname b hb)
    · exact List.mem_append_right _ hb
  have hlen := length_le_of_class hc hu hident
  rcases List.prefix_or_prefix_of_prefix hu (List.prefix_append v (c :: rest)) with hu | ⟨w, hw⟩
  · exact hv 58 (hu.subset (List.mem_append_right _ (List.mem_singleton.mpr rfl))) rfl
  · have hnil : w = [] := by
      have := congrArg List.length hw
      rw [List.length_append] at this
      exact List.length_eq_zero_iff.mp (by omega)
    rw [hnil, List.append_nil] at hw
    exact hv 58 (hw ▸ List.mem_append_right _ (List.mem_singleton.mpr rfl)) rfl

/-- No rule matches more than a text when those but the one of labels are dead behind it and the next
letter, and there is no label. -/
theorem atMost_plain {w rest : List UInt8} {c : UInt8}
    (hdead : ∀ r ∈ plainRules, dead (behind r.pattern (w ++ [c])) = true)
    (hlabel : ∀ u, u <+: w ++ c :: rest → u ∉ labelPattern.matches') :
    AtMost (lexRules .initial) (w ++ c :: rest) w := by
  intro r hr u hu hmem
  rcases mem_lexRules hr with hr | hr
  · exact length_le_of_dead (hdead r hr) hu hmem
  · exact absurd (hr ▸ hmem) (hlabel u hu)

/-- **A letter is passed over** where no rule matches it, nor it and the next one. -/
theorem lex_passed {b c : UInt8} {rest : List UInt8} (hone : ∀ r ∈ lexRules .initial, r.pattern.rmatch [b] = false)
    (hdead : ∀ r ∈ plainRules, dead (behind r.pattern [b, c]) = true)
    (hlabel : ∀ u, u <+: b :: c :: rest → u ∉ labelPattern.matches') :
    lexFrom .initial (b :: c :: rest) = lexFrom .initial (c :: rest) := by
  refine lex_skip fun r hr u hu hmem => ?_
  have hle := atMost_plain (w := [b]) hdead hlabel r hr u hu hmem
  rcases u with _ | ⟨x, _ | ⟨y, u⟩⟩
  · exact le_rfl
  · obtain ⟨rfl, -⟩ := List.cons_prefix_cons.mp hu
    exact absurd ((rmatch_iff_matches' _ _).mpr hmem) (by rw [hone r hr]; exact Bool.false_ne_true)
  · exact absurd hle (by simp)

/-- **A sign and digits are one literal.** -/
theorem lex_fixnum {w rest : List UInt8} {c : UInt8} (hw : w ∈ Asm.fixnum.matches') (hc : c ∉ signs ++ digits)
    (hlabel : ∀ u, u <+: w ++ c :: rest → u ∉ labelPattern.matches') :
    lexFrom .initial (w ++ c :: rest) = (.op .litFixnum, w) :: lexFrom .initial (c :: rest) := by
  have hletters : ∀ {u : List UInt8}, u ∈ Asm.fixnum.matches' → ∀ b ∈ u, b ∈ signs ++ digits := by
    intro u hu b hb
    obtain ⟨sign, ds, rfl⟩ := mem_fixnum.mp hu
    rcases List.mem_append.mp hb with hb | hb
    · have hsign : ∀ sign : Sign, ∀ b ∈ sign.str, b ∈ signs := by rintro (_ | _ | _) <;> decide
      exact List.mem_append_left _ (hsign sign b hb)
    · exact List.mem_append_right _ (ds.digits b hb)
  obtain ⟨b, w, rfl⟩ : ∃ b v, w = b :: v := by
    obtain ⟨sign, ds, rfl⟩ := mem_fixnum.mp hw
    refine List.exists_cons_of_ne_nil fun hnil => ds.ne_nil ?_
    exact (List.append_eq_nil_iff.mp hnil).2
  have hb := hletters hw b List.mem_cons_self
  have hstuck : ∀ b ∈ signs ++ digits, ∀ r ∈ leading ++ (keywords ++ trailing), stuck (behind r.pattern [b]) = true := by
    decide +kernel
  have hleading : ∀ b ∈ signs ++ digits, ∀ r ∈ leading, dead (behind r.pattern [b]) = true := by decide +kernel
  have hmost : AtMost (lexRules .initial) (b :: w ++ c :: rest) (b :: w) := by
    intro r hr u hu hmem
    rcases mem_lexRules hr with hr | hr
    · simp only [plainRules, List.mem_append, List.mem_cons] at hr
      by_cases hfixnum : r = returns Asm.fixnum (.op .litFixnum)
      · rw [hfixnum] at hmem
        exact length_le_of_class hc hu (hletters hmem)
      · have hr : r ∈ leading ++ (keywords ++ trailing) := by
          simp only [List.mem_append]
          rcases hr with hr | hr | hr | hr
          · exact .inl hr
          · exact absurd hr hfixnum
          · exact .inr (.inl hr)
          · exact .inr (.inr hr)
        exact (length_le_of_stuck (w := [b]) (hstuck b hb r hr) hu hmem).trans (Nat.succ_le_succ (Nat.zero_le _))
    · exact absurd (hr ▸ hmem) (hlabel u hu)
  have hnone : leading.find? (·.pattern.rmatch (b :: w)) = none := by
    refine List.find?_eq_none.mpr fun r hr hmatch => ?_
    have hmem := mem_behind.mpr ((rmatch_iff_matches' r.pattern ([b] ++ w)).mp hmatch)
    exact not_mem_of_dead (hleading b hb r hr) hmem
  have hfind : (lexRules .initial).find? (·.pattern.rmatch (b :: w)) = some (returns Asm.fixnum (.op .litFixnum)) := by
    rw [lexRules, List.find?_append, hnone, Option.none_or]
    exact List.find?_cons_of_pos ((rmatch_iff_matches' _ _).mpr hw)
  exact lex_eq hmost hfind rfl (List.cons_ne_nil b w)

/-- What a sign that no digit follows is lexed as. -/
def Sign.op : Sign → List (LexToken × List UInt8)
  | none => []
  | plus => [(.op .add, text "+")]
  | minus => [(.op .sub, text "-")]

/-- **What a number is lexed as.** -/
def Number.lexed : Number → List (LexToken × List UInt8)
  | fixed sign ds => [(.op .litFixnum, sign.str ++ ds.str)]
  | decimal sign whole fraction =>
    (match whole with
      | .digits ds => [(.op .litFixnum, sign.str ++ ds.str)]
      | _ => sign.op) ++ [(.op .litFixnum, fraction.str)]
  | ratio sign numerator denominator =>
    [(.op .litFixnum, sign.str ++ numerator.str), (.op .div, text "/"), (.op .litFixnum, denominator.str)]

section Line

variable {rest v : List UInt8} {b c : UInt8}

/-- The letters behind a number's beginning, up to its newline. -/
def NoColon (v : List UInt8) : Prop := ∀ b ∈ v, b ≠ 58

theorem NoColon.append {u : List UInt8} (hu : NoColon u) (hv : NoColon v) : NoColon (u ++ v) := fun b hb =>
  (List.mem_append.mp hb).elim (hu b) (hv b)

/-- No colon in a byte and a text. -/
theorem NoColon.cons (hv : NoColon v) (hb : b ≠ 58) : NoColon (b :: v) := List.forall_mem_cons.mpr ⟨hb, hv⟩

theorem Digits.noColon (ds : Digits) : NoColon ds.str := fun b hb => by
  have hall : ∀ b ∈ Asm.digits, b ≠ 58 := by decide
  exact hall b (ds.digits b hb)

theorem Sign.noColon : ∀ sign : Sign, NoColon sign.str := by
  rintro (_ | _ | _) <;> unfold NoColon <;> decide

/-- The last digits of a line. -/
theorem lex_last (sign : Sign) (ds : Digits) (rest : List UInt8) :
    lexFrom .initial (sign.str ++ ds.str ++ 10 :: rest) =
      (.op .litFixnum, sign.str ++ ds.str) :: lexFrom .initial rest := by
  have hlabel : ∀ u, u <+: sign.str ++ ds.str ++ 10 :: rest → u ∉ labelPattern.matches' := fun u hu =>
    no_label (sign.noColon.append ds.noColon) (by decide) hu
  exact (lex_fixnum (mem_fixnum.mpr ⟨sign, ds, rfl⟩) (by decide) hlabel).trans (congrArg _ (lex_newline rest))

/-- Digits that something else of the number follows. -/
theorem lex_digits (sign : Sign) (ds : Digits) (hc : c ∉ signs ++ digits) (hv : NoColon (c :: v)) (rest : List UInt8) :
    lexFrom .initial (sign.str ++ ds.str ++ (c :: v ++ 10 :: rest)) =
      (.op .litFixnum, sign.str ++ ds.str) :: lexFrom .initial (c :: v ++ 10 :: rest) := by
  refine lex_fixnum (mem_fixnum.mpr ⟨sign, ds, rfl⟩) hc fun u hu => ?_
  have hsplit : sign.str ++ ds.str ++ c :: (v ++ 10 :: rest) = (sign.str ++ ds.str ++ c :: v) ++ 10 :: rest := by simp
  exact no_label ((sign.noColon.append ds.noColon).append hv) (by decide) (hsplit ▸ hu)

/-- What is passed over in a number: a point before digits, and `nan` and `inf`. -/
def passed : List (UInt8 × UInt8) :=
  digits.map (46, ·) ++ [(110, 97), (97, 110), (110, 46), (105, 110), (110, 102), (102, 46)]

/-- Bytes that no rule matches are passed over, one at a time. -/
theorem lex_pass (hbc : (b, c) ∈ passed) (hv : NoColon (b :: c :: v)) (rest : List UInt8) :
    lexFrom .initial (b :: c :: v ++ 10 :: rest) = lexFrom .initial (c :: v ++ 10 :: rest) := by
  have hone : ∀ p ∈ passed, ∀ r ∈ lexRules .initial, r.pattern.rmatch [p.1] = false := by decide +kernel
  have hdead : ∀ p ∈ passed, ∀ r ∈ plainRules, dead (behind r.pattern [p.1, p.2]) = true := by decide +kernel
  exact lex_passed (hone _ hbc) (hdead _ hbc) fun u hu => no_label hv (by decide) hu

/-- An operation in a number: a sign before what is no digit, and the slash before a digit. -/
def operations : List (UInt8 × UInt8 × Op) :=
  [(43, 46, .add), (43, 110, .add), (43, 105, .add), (45, 46, .sub), (45, 110, .sub), (45, 105, .sub)] ++
    digits.map (47, ·, .div)

/-- A byte that is an operation of the assembler is lexed as one. -/
theorem lex_operation {o : Op} (hbc : (b, c, o) ∈ operations) (hv : NoColon (b :: c :: v)) (rest : List UInt8) :
    lexFrom .initial (b :: c :: v ++ 10 :: rest) = (.op o, [b]) :: lexFrom .initial (c :: v ++ 10 :: rest) := by
  have hdead : ∀ p ∈ operations, ∀ r ∈ plainRules, dead (behind r.pattern [p.1, p.2.1]) = true := by decide +kernel
  have hfind : ∀ p ∈ operations, ((lexRules .initial).find? (·.pattern.rmatch [p.1])).map (fun r =>
      (r.trail, r.next.isNone, r.token)) = some (0, true, some (.op p.2.2)) := by decide +kernel
  obtain ⟨r, hr, hvalues⟩ := Option.map_eq_some_iff.mp (hfind _ hbc)
  simp only [Prod.mk.injEq, Option.isNone_iff_eq_none] at hvalues
  obtain ⟨htrail, hnext, htoken⟩ := hvalues
  have hmost : AtMost (lexRules .initial) ([b] ++ c :: (v ++ 10 :: rest)) [b] :=
    atMost_plain (hdead _ hbc) fun u hu => no_label hv (by decide) hu
  have hlex := lex_eq hmost hr htrail (List.cons_ne_nil b [])
  rw [hnext, htoken] at hlex
  exact hlex

/-- Digits begin with a digit. -/
theorem Digits.exists_cons (ds : Digits) : ∃ d v, ds.str = d :: v ∧ d ∈ Asm.digits := by
  obtain ⟨d, v, hcons⟩ := List.exists_cons_of_ne_nil ds.ne_nil
  exact ⟨d, v, hcons, ds.digits d (by rw [hcons]; exact List.mem_cons_self)⟩

/-- A point is passed over, and the digits behind it are an integer. -/
theorem lex_point (fraction : Digits) (rest : List UInt8) :
    lexFrom .initial (46 :: fraction.str ++ 10 :: rest) = (.op .litFixnum, fraction.str) :: lexFrom .initial rest := by
  have hlast := lex_last .none fraction rest
  have hcolon := fraction.noColon
  obtain ⟨d, v, hcons, hd⟩ := fraction.exists_cons
  rw [hcons] at hcolon hlast ⊢
  have hpair : ((46 : UInt8), d) ∈ passed := List.mem_append_left _ (List.mem_map.mpr ⟨d, hd, rfl⟩)
  exact (lex_pass hpair (hcolon.cons (by decide)) rest).trans hlast

/-- A slash is a division, and the digits behind it are an integer. -/
theorem lex_slash (denominator : Digits) (rest : List UInt8) :
    lexFrom .initial (47 :: denominator.str ++ 10 :: rest) =
      (.op .div, text "/") :: (.op .litFixnum, denominator.str) :: lexFrom .initial rest := by
  have hlast := lex_last .none denominator rest
  have hcolon := denominator.noColon
  obtain ⟨d, v, hcons, hd⟩ := denominator.exists_cons
  rw [hcons] at hcolon hlast ⊢
  have hpair : ((47 : UInt8), d, Op.div) ∈ operations := List.mem_append_right _ (List.mem_map.mpr ⟨d, hd, rfl⟩)
  exact (lex_operation hpair (hcolon.cons (by decide)) rest).trans (congrArg _ hlast)

/-- A sign before what is no digit. -/
theorem lex_sign (sign : Sign) (hc : c ∈ [46, 110, 105]) (hv : NoColon (c :: v)) (rest : List UInt8) :
    lexFrom .initial (sign.str ++ (c :: v) ++ 10 :: rest) = sign.op ++ lexFrom .initial (c :: v ++ 10 :: rest) := by
  have hpairs : ∀ c ∈ [46, 110, 105], ((43 : UInt8), c, Op.add) ∈ operations ∧ ((45 : UInt8), c, Op.sub) ∈ operations := by
    decide
  cases sign with
  | none => rfl
  | plus => exact lex_operation (hpairs c hc).1 (hv.cons (by decide)) rest
  | minus => exact lex_operation (hpairs c hc).2 (hv.cons (by decide)) rest

/-- `nan` and `inf` are passed over. -/
theorem lex_letters (hv : NoColon v) (rest : List UInt8) :
    lexFrom .initial (text "nan" ++ (46 :: v) ++ 10 :: rest) = lexFrom .initial (46 :: v ++ 10 :: rest) ∧
      lexFrom .initial (text "inf" ++ (46 :: v) ++ 10 :: rest) = lexFrom .initial (46 :: v ++ 10 :: rest) := by
  have hpoint : NoColon (46 :: v) := hv.cons (by decide)
  have hn : NoColon (110 :: 46 :: v) := hpoint.cons (by decide)
  have han : NoColon (97 :: 110 :: 46 :: v) := hn.cons (by decide)
  have hf : NoColon (102 :: 46 :: v) := hpoint.cons (by decide)
  have hnf : NoColon (110 :: 102 :: 46 :: v) := hf.cons (by decide)
  constructor
  · calc lexFrom .initial (110 :: 97 :: (110 :: 46 :: v) ++ 10 :: rest)
        = lexFrom .initial (97 :: 110 :: (46 :: v) ++ 10 :: rest) :=
          lex_pass (by decide) (han.cons (by decide)) rest
      _ = lexFrom .initial (110 :: 46 :: v ++ 10 :: rest) := lex_pass (by decide) han rest
      _ = lexFrom .initial (46 :: v ++ 10 :: rest) := lex_pass (by decide) hn rest
  · calc lexFrom .initial (105 :: 110 :: (102 :: 46 :: v) ++ 10 :: rest)
        = lexFrom .initial (110 :: 102 :: (46 :: v) ++ 10 :: rest) :=
          lex_pass (by decide) (hnf.cons (by decide)) rest
      _ = lexFrom .initial (102 :: 46 :: v ++ 10 :: rest) := lex_pass (by decide) hnf rest
      _ = lexFrom .initial (46 :: v ++ 10 :: rest) := lex_pass (by decide) hf rest

end Line

/-- **The line of a number** is lexed as its parts, whatever follows it. -/
theorem lex_number (n : Number) (rest : List UInt8) :
    lexFrom .initial (emitOp n.str ++ rest) = n.lexed ++ lexFrom .initial rest := by
  rw [lex_line]
  cases n with
  | fixed sign ds => exact lex_last sign ds rest
  | ratio sign numerator denominator =>
    have hdigits := lex_digits sign numerator (c := 47) (by decide)
      (denominator.noColon.cons (by decide)) rest
    rw [lex_slash] at hdigits
    simp only [Number.str, List.append_assoc] at hdigits ⊢
    exact hdigits
  | decimal sign whole fraction =>
    have hpoint : NoColon (46 :: fraction.str) := fraction.noColon.cons (by decide)
    obtain ⟨hnan, hinf⟩ := lex_letters fraction.noColon rest
    rw [lex_point] at hnan hinf
    cases whole with
    | none =>
      have hsign := lex_sign sign (c := 46) (by decide) hpoint rest
      rw [lex_point] at hsign
      simp only [Number.str, Number.lexed, List.append_assoc] at hsign ⊢
      exact hsign
    | digits ds =>
      have hdigits := lex_digits sign ds (c := 46) (by decide) hpoint rest
      rw [lex_point] at hdigits
      simp only [Number.str, List.append_assoc] at hdigits ⊢
      exact hdigits
    | nan =>
      have hletters : NoColon (text "nan" ++ 46 :: fraction.str) :=
        ((hpoint.cons (by decide)).cons (by decide)).cons (by decide)
      have hsign : lexFrom .initial (sign.str ++ (text "nan" ++ 46 :: fraction.str) ++ 10 :: rest) =
          sign.op ++ lexFrom .initial (text "nan" ++ 46 :: fraction.str ++ 10 :: rest) :=
        lex_sign sign (c := 110) (by decide) hletters rest
      rw [hnan] at hsign
      simp only [Number.str, Number.lexed, List.append_assoc] at hsign ⊢
      exact hsign
    | inf =>
      have hletters : NoColon (text "inf" ++ 46 :: fraction.str) :=
        ((hpoint.cons (by decide)).cons (by decide)).cons (by decide)
      have hsign : lexFrom .initial (sign.str ++ (text "inf" ++ 46 :: fraction.str) ++ 10 :: rest) =
          sign.op ++ lexFrom .initial (text "inf" ++ 46 :: fraction.str ++ 10 :: rest) :=
        lex_sign sign (c := 105) (by decide) hletters rest
      rw [hinf] at hsign
      simp only [Number.str, Number.lexed, List.append_assoc] at hsign ⊢
      exact hsign

/-! ## Reading digits in two bases

The value that is written is in base 10.  `strtoq` reads in base 8 behind a zero, stops at the first digit that
base does not have, and what it has read is never more than the decimal value. -/

/-- Decimal digits have values below 10. -/
theorem digit_lt : ∀ b ∈ Asm.digits, ∃ d, digitValue b = some d ∧ d < 10 := by decide

/-- Reading on makes no number smaller. -/
theorem le_foldl (base : ℕ) (hbase : 0 < base) : ∀ (str : List UInt8) (value : ℕ),
    value ≤ str.foldl (fun n d => n * base + (digitValue d).getD 0) value
  | [], _ => le_rfl
  | _ :: str, value =>
      (Nat.le_mul_of_pos_right value hbase).trans ((Nat.le_add_right _ _).trans (le_foldl base hbase str _))

/-- **Octal reading falls behind**, by as much as it is behind already. -/
theorem octal_add_le : ∀ {str : List UInt8} (v v' : ℕ), (∀ b ∈ str, b ∈ Asm.digits) → v ≤ v' →
    readDigits 8 v str + (v' - v) ≤ str.foldl (fun n d => n * 10 + (digitValue d).getD 0) v'
  | [], v, v', _, h => by
      rw [readDigits, List.foldl_nil]
      omega
  | b :: str, v, v', hdigits, h => by
      obtain ⟨d, hd, hlt⟩ := digit_lt b (hdigits b List.mem_cons_self)
      have hrest : ∀ c ∈ str, c ∈ Asm.digits := fun c hc => hdigits c (List.mem_cons_of_mem b hc)
      have hstop := le_foldl 10 (by decide) str (v' * 10 + d)
      simp only [readDigits, hd, List.foldl_cons, Option.getD_some]
      split
      · have hle := octal_add_le (v * 8 + d) (v' * 10 + d) hrest (by omega)
        omega
      · omega

/-- **The two readings agree** on numbers of one octal digit only. -/
theorem octal_eq_iff : ∀ {str : List UInt8}, (∀ b ∈ str, b ∈ Asm.digits) →
    (readDigits 8 0 str = numeral 10 str ↔ numeral 10 str < 8)
  | [], _ => by decide
  | b :: str, hdigits => by
      obtain ⟨d, hd, hlt⟩ := digit_lt b (hdigits b List.mem_cons_self)
      have hrest : ∀ c ∈ str, c ∈ Asm.digits := fun c hc => hdigits c (List.mem_cons_of_mem b hc)
      have hstop := le_foldl 10 (by decide) str d
      simp only [readDigits, numeral, hd, List.foldl_cons, Option.getD_some, Nat.zero_mul, Nat.zero_add]
      rcases Nat.eq_zero_or_pos d with rfl | hpos
      · rw [if_pos (by decide)]
        exact octal_eq_iff hrest
      · split
        · next h8 =>
          cases str with
          | nil => simp [readDigits, h8]
          | cons c str =>
            obtain ⟨e, he, hlt'⟩ := digit_lt c (hrest c List.mem_cons_self)
            have hrest' : ∀ a ∈ str, a ∈ Asm.digits := fun a ha => hrest a (List.mem_cons_of_mem c ha)
            have hle := octal_add_le (d * 8 + e) (d * 10 + e) hrest' (by omega)
            have hstop' := le_foldl 10 (by decide) str (d * 10 + e)
            simp only [readDigits, he, List.foldl_cons, Option.getD_some]
            split <;> omega
        · omega

/-- All digits are read in base 10. -/
theorem Digits.decimal_eq (ds : Digits) : readDigits 10 0 ds.str = ds.number :=
  readDigits_eq 0 fun b hb => digit_lt b (ds.digits b hb)

/-- What `strtoq` makes of digits: a leading zero makes them octal. -/
theorem Digits.magnitude_eq (ds : Digits) :
    magnitude ds.str = if ds.str.head? = some 48 then readDigits 8 0 ds.str else ds.number := by
  have hx : ∀ b ∈ Asm.digits, b ∉ text "xX" := by decide
  rw [← ds.decimal_eq]
  have hdigits := ds.digits
  generalize ds.str = str at hdigits
  unfold magnitude
  split
  · next x d bs =>
    rw [if_neg fun h => hx x (hdigits x (by simp)) h.1]
    exact (if_pos rfl).symm
  · exact (if_pos rfl).symm
  · next h =>
    rw [if_neg]
    intro hhead
    obtain ⟨bs, hcons⟩ := List.head?_eq_some_iff.mp hhead
    exact h bs hcons

/-- **What `strtoq` reads of some digits is never more than they say.** -/
theorem Digits.magnitude_le (ds : Digits) : magnitude ds.str ≤ ds.number := by
  rw [ds.magnitude_eq]
  split
  · exact (Nat.le_add_right _ _).trans (octal_add_le 0 0 ds.digits le_rfl)
  · exact le_rfl

/-- **The magnitude is the number** unless a leading zero stands before more than one octal digit. -/
theorem Digits.magnitude_eq_iff (ds : Digits) :
    magnitude ds.str = ds.number ↔ ds.str.head? ≠ some 48 ∨ ds.number < 8 := by
  rw [ds.magnitude_eq]
  split
  · next hhead =>
    rw [Digits.number, octal_eq_iff ds.digits]
    simp [hhead]
  · next hhead => simp [hhead]

/-- A value outside of the range of 64 bits is the nearest one in it. -/
theorem toInt_clamp (i : ℤ) : (clamp i).toInt = max (-2 ^ 63) (min i (2 ^ 63 - 1)) := by
  rw [clamp]
  split
  · change (-2 ^ 63 : ℤ) = _
    omega
  · split
    · change (2 ^ 63 - 1 : ℤ) = _
      omega
    · rw [Int64.toInt_ofInt_of_le (by omega) (by omega)]
      omega

/-- `strtoq` of a sign and digits. -/
theorem strtoq_eq (sign : Sign) (ds : Digits) :
    strtoq (sign.str ++ ds.str) = clamp (sign.apply (magnitude ds.str : ℤ)) := by
  have hspace : ∀ b ∈ signs ++ Asm.digits, b ∉ text "\n\r \t\x0b\x0c" := by decide
  have hnosign : ∀ b ∈ Asm.digits, b ≠ 45 ∧ b ≠ 43 := by decide
  obtain ⟨d, v, hcons, hd⟩ := ds.exists_cons
  cases sign with
  | none =>
    change strtoq ds.str = clamp (magnitude ds.str)
    have hdrop : ds.str.dropWhile (· ∈ text "\n\r \t\x0b\x0c") = ds.str := by
      rw [hcons]
      exact List.dropWhile_cons_of_neg (by simpa using hspace d (List.mem_append_right _ hd))
    rw [strtoq, hdrop, hcons]
    split
    · next heq => exact absurd (List.cons_eq_cons.mp heq).1 (hnosign d hd).1
    · next heq => exact absurd (List.cons_eq_cons.mp heq).1 (hnosign d hd).2
    · rfl
  | plus => rfl
  | minus => rfl

/-! ## What comes through

The tokens of a line are the pieces of the number.  One literal with the right value is left over only for an
integer that is read in base 10, or is too small for the base to matter. -/

/-- What a sign that no digit follows is assembled to. -/
def Sign.token : Sign → List (Token (List UInt8))
  | none => []
  | plus => [.op .add rfl]
  | minus => [.op .sub rfl]

/-- What a number is assembled to. -/
def Number.tokens : Number → List (Token (List UInt8))
  | fixed sign ds => [.fixnum (strtoq (sign.str ++ ds.str))]
  | decimal sign whole fraction =>
    (match whole with
      | .digits ds => [.fixnum (strtoq (sign.str ++ ds.str))]
      | _ => sign.token) ++ [.fixnum (strtoq fraction.str)]
  | ratio sign numerator denominator =>
    [.fixnum (strtoq (sign.str ++ numerator.str)), .op .div rfl, .fixnum (strtoq denominator.str)]

/-- An integer token is a literal. -/
theorem readTokens_fixnum (debug : Bool) (str : List UInt8) (more : List (LexToken × List UInt8)) :
    readTokens debug ((.op .litFixnum, str) :: more) = (readTokens debug more).map (.fixnum (strtoq str) :: ·) := by
  rw [readTokens]
  rfl

/-- A token of an operation without operand is that operation. -/
theorem readTokens_op (debug : Bool) {o : Op} (ho : o.operandKind = .none) (str : List UInt8)
    (more : List (LexToken × List UInt8)) :
    readTokens debug ((.op o, str) :: more) = (readTokens debug more).map (.op o ho :: ·) := by
  rw [readTokens, dif_pos ho]

/-- **The line of a number** is read as the pieces of the number. -/
theorem readText_number (n : Number) (debug : Bool) (rest : List UInt8) :
    readText debug (emitOp n.str ++ rest) = (readText debug rest).map (n.tokens ++ ·) := by
  rw [readText, lex_number, readText]
  generalize lexFrom .initial rest = more
  have hsign : ∀ (sign : Sign) more, readTokens debug (sign.op ++ more) = (readTokens debug more).map (sign.token ++ ·) := by
    rintro (_ | _ | _) more
    · simp [Sign.op, Sign.token]
    · exact readTokens_op debug rfl _ _
    · exact readTokens_op debug rfl _ _
  have hdiv : ∀ more, readTokens debug ((.op .div, text "/") :: more) = (readTokens debug more).map (.op .div rfl :: ·) :=
    fun more => readTokens_op debug rfl _ _
  cases n with
  | fixed sign ds => exact readTokens_fixnum debug _ _
  | ratio sign numerator denominator =>
    simp only [Number.lexed, Number.tokens, List.cons_append, List.nil_append, readTokens_fixnum, hdiv, Option.map_map]
    rfl
  | decimal sign whole fraction =>
    cases whole with
    | digits ds =>
      simp only [Number.lexed, Number.tokens, List.cons_append, List.nil_append, readTokens_fixnum, Option.map_map]
      rfl
    | _ =>
      simp only [Number.lexed, Number.tokens, List.append_assoc, List.cons_append, List.nil_append, hsign, readTokens_fixnum,
        Option.map_map]
      rfl

/-- **A number is what a line pushes**: it becomes one instruction, which pushes one fixnum of its value. -/
structure Becomes (n : Number) (i : Int64) : Prop where
  value : n.value = some (i.toInt : ℚ)
  assembled : ∀ debug rest, readText debug (emitOp n.str ++ rest) = (readText debug rest).map (.fixnum i :: ·)
  pushed : ∀ host, Pushes host ((Token.fixnum i : Token (List UInt8)).encode (fun _ => none) 0) fun vm r =>
    vm.deref r = some (.fixnum i)

/-- **A number keeps its value**: its line is rejected, or becomes one instruction that pushes it. -/
def Keeps (n : Number) : Prop :=
  (∀ debug rest, readText debug (emitOp n.str ++ rest) = none) ∨ ∃ i, Becomes n i

/-- A number that comes through: an integer that there is, without a zero before more than one octal
digit; or a point and zeros. -/
def Number.Kept : Number → Prop
  | fixed sign ds =>
    -2 ^ 63 ≤ sign.apply (ds.number : ℤ) ∧ sign.apply (ds.number : ℤ) < 2 ^ 63 ∧
      (ds.str.head? ≠ some 48 ∨ ds.number < 8)
  | decimal sign whole fraction => sign = .none ∧ whole = .none ∧ fraction.number = 0
  | ratio _ _ _ => False


/-- A sign applies to a whole number as it does to a fraction. -/
theorem toRat_apply (sign : Sign) (n : ℕ) : sign.apply (n : ℚ) = ((sign.apply (n : ℤ) : ℤ) : ℚ) := by
  cases sign <;> simp [Sign.apply]

/-- A number is its one instruction. -/
theorem Becomes.tokens {n : Number} {i : Int64} (h : Becomes n i) : n.tokens = [.fixnum i] := by
  have hempty : readText false [] = some [] := by
    rw [readText, lexFrom, lex_nil, readTokens]
  have hline := (readText_number n false []).symm.trans (h.assembled false [])
  rw [hempty] at hline
  simpa using hline

/-- A number of one instruction is what it pushes, if that is its value. -/
theorem becomes_of_tokens {n : Number} {i : Int64} (htokens : n.tokens = [.fixnum i])
    (hvalue : n.value = some (i.toInt : ℚ)) : Becomes n i where
  value := hvalue
  assembled debug rest := by rw [readText_number, htokens]; rfl
  pushed host := pushes_fixnum _ _ host i

/-- **An integer keeps its value** exactly when it is one that there is, in the base that is found. -/
theorem fixed_iff (sign : Sign) (ds : Digits) : (∃ i, Becomes (.fixed sign ds) i) ↔ (Number.fixed sign ds).Kept := by
  have hle := ds.magnitude_le
  have hvalue : ∀ i : Int64, (Number.fixed sign ds).value = some (i.toInt : ℚ) ↔ i.toInt = sign.apply (ds.number : ℤ) := by
    intro i
    rw [Number.value, toRat_apply, Option.some.injEq, Int.cast_inj, eq_comm]
  have hkept : (strtoq (sign.str ++ ds.str)).toInt = sign.apply (ds.number : ℤ) ↔ (Number.fixed sign ds).Kept := by
    rw [strtoq_eq, toInt_clamp, Number.Kept, ← ds.magnitude_eq_iff]
    cases sign <;> simp only [Sign.apply] <;> omega
  constructor
  · rintro ⟨i, h⟩
    have htokens := h.tokens
    rw [Number.tokens, List.cons.injEq, Token.fixnum.injEq] at htokens
    rw [← hkept, htokens.1]
    exact (hvalue i).mp h.value
  · intro h
    exact ⟨_, becomes_of_tokens rfl ((hvalue _).mpr (hkept.mpr h))⟩

/-- A number is below the power of its digits. -/
theorem Digits.number_lt (ds : Digits) : ds.number < 10 ^ ds.str.length := by
  have hfold : ∀ {str : List UInt8} {v k : ℕ}, (∀ b ∈ str, b ∈ Asm.digits) → v < 10 ^ k →
      str.foldl (fun n d => n * 10 + (digitValue d).getD 0) v < 10 ^ (k + str.length) := by
    intro str
    induction str with
    | nil => exact fun _ h => h
    | cons b str ih =>
      intro v k hdigits hv
      obtain ⟨d, hd, hlt⟩ := digit_lt b (hdigits b List.mem_cons_self)
      have hrest := ih (v := v * 10 + d) (k := k + 1) (fun c hc => hdigits c (List.mem_cons_of_mem b hc))
        (by rw [pow_succ]; omega)
      rw [List.foldl_cons, hd, Option.getD_some, List.length_cons]
      rwa [Nat.add_right_comm, Nat.add_assoc] at hrest
  have h := hfold (v := 0) (k := 0) ds.digits (by decide)
  rwa [Nat.zero_add] at h

/-- **A fraction below one keeps its value** exactly when it is zero. -/
theorem fraction_iff (fraction : Digits) :
    (∃ i, Becomes (.decimal .none .none fraction) i) ↔ fraction.number = 0 := by
  constructor
  · rintro ⟨i, h⟩
    have hvalue : (fraction.number : ℚ) / 10 ^ fraction.str.length = (i.toInt : ℚ) := Option.some.inj h.value
    have hpow : (10 : ℚ) ^ fraction.str.length ≠ 0 := pow_ne_zero _ (by decide)
    rw [div_eq_iff hpow] at hvalue
    have hint : (fraction.number : ℤ) = i.toInt * (10 ^ fraction.str.length : ℕ) := by exact_mod_cast hvalue
    have hdvd : (10 ^ fraction.str.length : ℕ) ∣ fraction.number :=
      Int.natCast_dvd_natCast.mp ⟨i.toInt, by rw [hint, mul_comm]⟩
    exact Nat.eq_zero_of_dvd_of_lt hdvd fraction.number_lt
  · intro hzero
    have hmagnitude := fraction.magnitude_le
    rw [hzero, Nat.le_zero] at hmagnitude
    have hread : strtoq fraction.str = 0 := by
      have hstrtoq := strtoq_eq .none fraction
      rw [hmagnitude] at hstrtoq
      exact hstrtoq
    refine ⟨0, becomes_of_tokens ?_ ?_⟩
    · simp [Number.tokens, Sign.token, hread]
    · simp [Number.value, Sign.apply, hzero]

/-- No line of a number is rejected. -/
theorem keeps_iff_becomes (n : Number) : Keeps n ↔ ∃ i, Becomes n i := by
  refine ⟨fun h => h.resolve_left fun hrejected => ?_, .inr⟩
  have hempty : readText false [] = some [] := by
    rw [readText, lexFrom, lex_nil, readTokens]
  have hline := (readText_number n false []).symm.trans (hrejected false [])
  rw [hempty] at hline
  cases hline

/-- A number keeps its value exactly when it comes through. -/
theorem keeps_iff (n : Number) : Keeps n ↔ n.Kept := by
  rw [keeps_iff_becomes]
  cases n with
  | fixed sign ds => exact fixed_iff sign ds
  | ratio sign numerator denominator =>
    refine iff_of_false ?_ id
    rintro ⟨i, h⟩
    simpa [Number.tokens] using h.tokens
  | decimal sign whole fraction =>
    cases whole with
    | none =>
      cases sign with
      | none => simpa [Number.Kept] using fraction_iff fraction
      | _ =>
        refine iff_of_false ?_ fun h => by cases h.1
        rintro ⟨i, h⟩
        simpa [Number.tokens, Sign.token] using h.tokens
    | digits ds =>
      refine iff_of_false ?_ fun h => by cases h.2.1
      rintro ⟨i, h⟩
      simpa [Number.tokens] using h.tokens
    | nan =>
      refine iff_of_false ?_ fun h => by cases h.2.1
      rintro ⟨i, h⟩
      cases h.value
    | inf =>
      refine iff_of_false ?_ fun h => by cases h.2.1
      rintro ⟨i, h⟩
      cases h.value

/-- **Number literals keep their value** exactly when they come through: whatever number a text writes, and each text
that the Scheme lexer takes for a number token writes one. -/
theorem number_literal_iff (str : List UInt8) : (∀ n : Number, n.str = str → (Keeps n ↔ n.Kept)) ∧
    ∀ token rest, IsToken .initial token str rest → token = .fixedNumber ∨ token = .floatNumber →
      ∃ n : Number, n.str = str :=
  ⟨fun n _ => keeps_iff n, fun _ _ htoken hnumber => number_of_token htoken hnumber⟩

/-- **`010` does not keep its value.** -/
theorem number_literal_octal :
    ¬ Keeps (.fixed .none ⟨text "010", by decide, by decide⟩) := by
  rw [keeps_iff_becomes, fixed_iff]
  rintro ⟨-, -, h⟩
  revert h
  decide

end Insomniac.Bootstrap

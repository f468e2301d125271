import Insomniac.Machinery.Munch
import Insomniac.Vm.Memory

/-!
# Asm/Lexer — the lexer of the assembler

The rules of `lexer.l`, in their order, and how `asm_string` reads what they return.

    text ──lex──▸ (token, yytext), (token, yytext), … ──readTokens──▸ Token, Token, …

A character class of flex takes no names: `[^{WS}]` is every byte but `{`, `W`, `S` and `}`.
-/

open Munch RegularExpression Insomniac.Vm

namespace Insomniac.Asm

/-! ## Classes

A class of flex is a list of bytes or what is not in one.  Ranges are spelled out, so that membership can be
computed. -/

/-- What holds of the letters of a class is decided on these, not on all letters there are. -/
instance (priority := 2000) decidableMembers {α : Type} (p : α → Prop) [DecidablePred p] (l : List α) :
    Decidable (∀ a ∈ l, p a) :=
  List.decidableBAll p l

/-- `[:digit:]`. -/
def digits : List UInt8 := text "0123456789"

/-- `[:alnum:]`. -/
def alnum : List UInt8 := digits ++ text "ABCDEFGHIJKLMNOPQRSTUVWXYZabcdefghijklmnopqrstuvwxyz"

/-- `[:xdigit:]`. -/
def xdigit : List UInt8 := digits ++ text "ABCDEFabcdef"

/-- A class of all bytes but some, `[^…]`. -/
def except (bs : List UInt8) : List UInt8 := ((List.range 256).map UInt8.ofNat).filter (· ∉ bs)

/-- A complement has what the class has not. -/
@[simp] theorem mem_except {b : UInt8} {bs : List UInt8} : b ∈ except bs ↔ b ∉ bs := by
  have hb : b ∈ (List.range 256).map UInt8.ofNat :=
    List.mem_map.mpr ⟨b.toNat, List.mem_range.mpr b.toNat_lt, UInt8.ofNat_toNat⟩
  simp [except, hb]

/-- `WS`. -/
def ws : List UInt8 := text "\n\r \t"

/-- `IDENT`. -/
def ident : List UInt8 := text "!$%&*+-./<=>?@^_~" ++ alnum

/-- `SIGNS`. -/
def signs : List UInt8 := text "-+"

/-- `LABEL`. -/
def label : RegularExpression UInt8 := many (oneOf ident)

/-- `{SIGNS}?{DIGITS}`. -/
def fixnum : RegularExpression UInt8 := opt (oneOf signs) * many (oneOf digits)

/-- `CHAR_VAL`. -/
def charVal : RegularExpression UInt8 :=
  word (text "newline") + word (text "space") + word (text "eof") + oneOf (except (text "\x7bWS\x7d"))

/-- `([^\"]|\\\")*`. -/
def stringBody : RegularExpression UInt8 := RegularExpression.star (oneOf (except (text "\"")) + word (text "\\\""))

/-! ## Rules

In the order of the file, since of two longest matches flex takes the rule that comes first; a start condition
has the rules that its state allows. -/

/-- The start conditions. -/
inductive Start
  | initial | expectChar | expectString | expectTarget | expectLabel

/-- What the lexer returns. -/
inductive LexToken
  | op (o : Op)
  | label | stringStart | symbolStart | stringEnd | directiveFile
  deriving DecidableEq

/-- A rule of the lexer. -/
abbrev LexRule := Rule UInt8 Start LexToken

/-- A rule that only returns. -/
def returns (pattern : RegularExpression UInt8) (token : LexToken) : LexRule := ⟨pattern, 0, none, some token⟩

/-- A rule whose action is empty. -/
def ignore (pattern : RegularExpression UInt8) : LexRule := ⟨pattern, 0, none, none⟩

/-- A rule that goes to another start condition and returns. -/
def begins (pattern : RegularExpression UInt8) (start : Start) (token : LexToken) : LexRule :=
  ⟨pattern, 0, some start, some token⟩

/-- The name of an instruction. -/
def keyword (name : String) (o : Op) : LexRule := returns (word (text name)) (.op o)

/-- The name of an instruction that a label follows. -/
def jumpKeyword (name : String) (o : Op) : LexRule := begins (word (text name)) .expectTarget (.op o)

/-- The rules before the names. -/
def leading : List LexRule :=
  [ignore (oneOf ws),
    ⟨word (text ";") * RegularExpression.star (oneOf (except (text "\n"))) * word (text "\n"), 1, none, none⟩]

/-- The names. -/
def keywords : List LexRule :=
  [keyword "#t" .litTrue, keyword "#f" .litFalse, keyword "()" .litEmpty,
    keyword "fixnum?" .isFixnum, keyword "bool?" .isBool, keyword "char?" .isChar,
    keyword "string?" .isString, keyword "symbol?" .isSymbol, keyword "vector?" .isVector,
    keyword "vector-u8?" .isByteVector, keyword "record?" .isRecord, keyword "pair?" .isPair,
    keyword "null?" .isEmpty, keyword "proc?" .isClosure, keyword "self?" .isSelf,
    keyword "vector" .makeVector, keyword "vector-u8" .makeByteVector, keyword "record" .makeRecord,
    keyword "idx@" .indexRef, keyword "idx!" .indexSet, keyword "vec-len" .vectorLength,
    keyword "str->u8" .stringByteVector, keyword "u8->str" .byteVectorString,
    keyword "out" .output, keyword "read" .fdRead, keyword "write" .fdWrite, keyword "open" .open,
    keyword "close" .close, keyword "slurp" .slurp, keyword "asm" .asm, keyword "import" .import,
    keyword "nop" .nop, keyword "dup" .dupRef, keyword "depth" .depth, keyword "drop" .drop,
    keyword "swap" .swap, keyword "rot" .rot, keyword "sym" .makeSymbol,
    keyword "cons" .cons, keyword "car" .car, keyword "cdr" .cdr, keyword "set-car" .setCar,
    keyword "set-cdr" .setCdr,
    keyword "bind" .bind, keyword "!" .set, keyword "@" .read,
    keyword "+" .add, keyword "-" .sub, keyword "*" .mul, keyword "/" .div, keyword "%" .mod,
    keyword "=" .numericEqual, keyword "<" .numericLt, keyword ">" .numericGt,
    keyword "eq" .eq, keyword "not" .not,
    keyword "restore" .restore, keyword "set-exit" .setExit,
    keyword "adopt" .adopt, jumpKeyword "proc" .proc, jumpKeyword "call" .call,
    jumpKeyword "continue" .continue, jumpKeyword "jnf" .jnf, jumpKeyword "jmp" .jmp,
    keyword "gc-stats" .gcStats,
    returns (word (text ".file")) .directiveFile,
    keyword "jin" .jin, keyword "ret" .ret, keyword "call_in" .callIn, keyword "tail_call_in" .tailCallIn,
    keyword "call_ext" .callExt]

/-- The rules behind the rule of labels; a backslash alone is ignored. -/
def trailing : List LexRule :=
  [⟨word (text "#\\"), 0, some .expectChar, none⟩,
    begins (oneOf (text "sS") * word (text "\"")) .expectString .symbolStart,
    ignore (word (text "\\")),
    begins (word (text "\"")) .expectString .stringStart]

/-- **The rules of the lexer.** -/
def lexRules : Start → List LexRule
  | .initial =>
    leading ++ returns fixnum (.op .litFixnum) :: (keywords ++ ⟨label * word (text ":"), 1, some .expectLabel,
      some .label⟩ :: trailing)
  | .expectTarget => [begins label .initial .label, ignore (oneOf ws)]
  | .expectLabel => [⟨word (text ":"), 0, some .initial, none⟩]
  | .expectChar =>
    [begins (word (text "x") * many (oneOf xdigit)) .initial (.op .litChar), begins charVal .initial (.op .litChar)]
  | .expectString =>
    [returns stringBody (.op .litString), begins (word (text "\"")) .initial .stringEnd]

/-- `yyasmlex` until the end of the text. -/
def lexFrom (start : Start) (input : List UInt8) : List (LexToken × List UInt8) := lex lexRules start input

/-! ## Texts of literals

`strtoq` with the base 0 and the readers of characters, as the C library has them. -/

/-- The value of a digit. -/
def digitValue (b : UInt8) : Option ℕ :=
  if b ∈ digits then some (b.toNat - 48)
  else if 97 ≤ b ∧ b ≤ 122 then some (b.toNat - 87)
  else if 65 ≤ b ∧ b ≤ 90 then some (b.toNat - 55)
  else none

/-- The number that the digits at the beginning of a text go on to. -/
def readDigits (base : ℕ) : (value : ℕ) → List UInt8 → ℕ
  | value, [] => value
  | value, b :: bs =>
    match digitValue b with
    | some d => if d < base then readDigits base (value * base + d) bs else value
    | none => value

/-- The number that some digits write. -/
def numeral (base : ℕ) (str : List UInt8) : ℕ := str.foldl (fun n d => n * base + (digitValue d).getD 0) 0

/-- **Digits are read** to their end. -/
theorem readDigits_eq {base : ℕ} : ∀ {str : List UInt8} (value : ℕ), (∀ b ∈ str, ∃ d, digitValue b = some d ∧ d < base) →
    readDigits base value str = str.foldl (fun n d => n * base + (digitValue d).getD 0) value
  | [], _, _ => rfl
  | b :: str, value, h => by
      obtain ⟨d, hd, hlt⟩ := h b List.mem_cons_self
      have hrest := readDigits_eq (value * base + d) fun c hc => h c (List.mem_cons_of_mem b hc)
      simp only [readDigits, hd, if_pos hlt, List.foldl_cons, Option.getD_some]
      exact hrest

/-- The magnitude that a text without its sign has in base 0: `0x` is base 16, `0` base 8. -/
def magnitude : List UInt8 → ℕ
  | 48 :: x :: d :: bs =>
    if x ∈ text "xX" ∧ d ∈ xdigit then readDigits 16 0 (d :: bs) else readDigits 8 0 (48 :: x :: d :: bs)
  | 48 :: bs => readDigits 8 0 (48 :: bs)
  | bs => readDigits 10 0 bs

/-- The nearest number that there is. -/
def clamp (i : ℤ) : Int64 :=
  if i < -2 ^ 63 then Int64.minValue else if 2 ^ 63 ≤ i then Int64.maxValue else Int64.ofInt i

/-- `strtoq` in base 0. -/
def strtoq (str : List UInt8) : Int64 :=
  match str.dropWhile (· ∈ text "\n\r \t\x0b\x0c") with
  | 45 :: bs => clamp (-magnitude bs)
  | 43 :: bs => clamp (magnitude bs)
  | bs => clamp (magnitude bs)

/-- `strtoul` in base 16 of a text of hexadecimal digits. -/
def strtoul (str : List UInt8) : UInt64 := UInt64.ofNat (min (readDigits 16 0 str) (2 ^ 64 - 1))

/-- The character of `asm_lit_char`; `char` is signed. -/
def asmLitChar (str : List UInt8) : UInt32 :=
  if str = text "newline" then 10
  else if str = text "space" then 32
  else if str = text "eof" then -1
  else if str.head? = some 120 ∧ 1 < str.length then (strtoul (str.drop 1)).toUInt32
  else (str.headD 0).toInt8.toInt32.toUInt32

/-! ## What `asm_string` makes of the tokens

A literal takes the tokens up to its closing quote and a directive those behind it, so the recursion is on the
number of tokens left. -/

/-- Behind a start token: the text of `asm_lit_string`, and what is left; nothing on a syntax error. -/
def asmLitString : List (LexToken × List UInt8) → Option (List UInt8 × List (LexToken × List UInt8))
  | (.op .litString, str) :: (.stringEnd, _) :: more => some (str, more)
  | (.stringEnd, _) :: more => some ([], more)
  | _ => none

/-- `add_debug_file`: what is left behind a file and two numbers.  A file without a name is undefined. -/
def addDebugFile (more : List (LexToken × List UInt8)) : Option (List (LexToken × List UInt8)) :=
  match more with
  | (.stringStart, _) :: more =>
    match asmLitString more with
    | some (_ :: _, (.op .litFixnum, _) :: (.op .litFixnum, _) :: more) => some more
    | _ => none
  | _ => none

/-- A string literal takes some of the tokens. -/
theorem asmLitString_length {more rest : List (LexToken × List UInt8)} {str : List UInt8}
    (h : asmLitString more = some (str, rest)) : rest.length < more.length := by
  unfold asmLitString at h
  split at h <;> cases h <;> simp only [List.length_cons] <;> omega

theorem addDebugFile_length {more rest : List (LexToken × List UInt8)} (h : addDebugFile more = some rest) :
    rest.length < more.length := by
  unfold addDebugFile at h
  split at h
  · split at h
    · next h' =>
      cases h
      have := asmLitString_length h'
      simp only [List.length_cons] at this ⊢
      omega
    · cases h
  · cases h

/-- **The loop of `asm_string`**, with or without debugging information; nothing on a syntax error. -/
def readTokens (debug : Bool) : List (LexToken × List UInt8) → Option (List (Token (List UInt8)))
  | [] => some []
  | (.op o, str) :: more =>
    if ho : o.operandKind = .none then (readTokens debug more).map (.op o ho :: ·)
    else if ht : o.operandKind = .target then
      -- `asm_jump`
      match more with
      | (.label, name) :: more => (readTokens debug more).map (.jump o ht name :: ·)
      | _ => none
    else
      match o with
      | .litFixnum => (readTokens debug more).map (.fixnum (strtoq str) :: ·)
      | .litChar => (readTokens debug more).map (.char (asmLitChar str) :: ·)
      -- only `asm_lit_string` comes upon the others
      | _ => none
  | (.stringStart, _) :: more =>
    match h : asmLitString more with
    | some (str, rest) =>
      have := asmLitString_length h
      (readTokens debug rest).map (.string str :: ·)
    | none => none
  | (.symbolStart, _) :: more =>
    match h : asmLitString more with
    | some (str, rest) =>
      have := asmLitString_length h
      (readTokens debug rest).map (.symbol str :: ·)
    | none => none
  | (.label, name) :: more => (readTokens debug more).map (.label name :: ·)
  | (.directiveFile, _) :: more =>
    if debug then
      match h : addDebugFile more with
      | some rest =>
        have := addDebugFile_length h
        readTokens debug rest
      | none => none
    else readTokens debug more
  | (.stringEnd, _) :: more => readTokens debug more
  termination_by more => more.length

/-- **What `asm_string` reads** from a text. -/
def readText (debug : Bool) (str : List UInt8) : Option (List (Token (List UInt8))) :=
  readTokens debug (lexFrom .initial str)

end Insomniac.Asm

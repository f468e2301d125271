import Insomniac.Asm.Lexer

/-!
# Bootstrap/Lexer — the lexer of the compiler

The rules of the Scheme `lexer.l`, in their order.  A text `IsToken` when it is the next piece of some
source: the longest match, by the first rule that has it.

    source = str ++ rest        str ──rule──▸ token

`{WS}*` matches nothing as well: where no other rule matches, it is taken again and again, and no token
comes.
-/

open Munch RegularExpression Insomniac.Asm Insomniac.Vm

namespace Insomniac.Bootstrap

/-- The start conditions. -/
inductive SchemeStart
  | initial | expectChar | expectString

/-- The tokens of `scheme.y`. -/
inductive SchemeToken
  | openParen | closeParen | startVector | startByteVector | dot | quote | trueObj | falseObj
  | primBegin | primQuote | primDefine | primLambda | primSet | primIf | primCond | primRecordType
  | primLetStar | primAnd | primOr | primInclude | primAsm
  | fixedNumber | floatNumber | astSymbol | mathOps | charConstant | doubleQuote | stringConstant
  deriving DecidableEq

/-- A rule of the lexer. -/
abbrev SchemeRule := Rule UInt8 SchemeStart SchemeToken

/-- A rule that only returns. -/
def gives (pattern : RegularExpression UInt8) (token : SchemeToken) : SchemeRule := ⟨pattern, 0, none, some token⟩

/-- A rule that goes to another start condition and returns. -/
def enters (pattern : RegularExpression UInt8) (start : SchemeStart) (token : SchemeToken) : SchemeRule :=
  ⟨pattern, 0, some start, some token⟩

/-- A rule that returns nothing. -/
def drops (pattern : RegularExpression UInt8) : SchemeRule := ⟨pattern, 0, none, none⟩

/-- `WS`: an end of a line, or a blank. -/
def schemeWs : RegularExpression UInt8 :=
  word (text "\n") + word (text "\r\n") + word (text "\n\r") + word (text "\r") + oneOf (text " \t")

/-- `IDENT`. -/
def schemeIdent : List UInt8 := text "-!$%&*+./:<=>?@^_~" ++ alnum

/-- `{DIGITS}`. -/
def digitRun : RegularExpression UInt8 := many (oneOf digits)

/-- `{SIGNS}?({DIGITS}|nan|inf)?"."{DIGITS}`. -/
def decimal : RegularExpression UInt8 :=
  opt (oneOf signs) * (opt (digitRun + word (text "nan") + word (text "inf")) * (word (text ".") * digitRun))

/-- `{SIGNS}?{DIGITS}[/]{DIGITS}`. -/
def ratio : RegularExpression UInt8 := opt (oneOf signs) * (digitRun * (word (text "/") * digitRun))

/-- `CHAR_VAL`. -/
def schemeCharVal : RegularExpression UInt8 :=
  word (text "newline") + word (text "space") + oneOf (except (text "\x7bWS\x7d")) +
    word (text "x") * many (oneOf (digits ++ text "ABCDEF"))

/-- The rules before those of numbers. -/
def schemeLeading : List SchemeRule :=
  [gives (word (text "(") + word (text "[")) .openParen, gives (word (text ")") + word (text "]")) .closeParen,
    gives (word (text "#(")) .startVector, gives (word (text "#u8(")) .startByteVector,
    gives (word (text ".")) .dot, gives (word (text "'")) .quote,
    gives (word (text "#t")) .trueObj, gives (word (text "#f")) .falseObj,
    drops (RegularExpression.star schemeWs),
    gives (word (text "begin")) .primBegin, gives (word (text "quote")) .primQuote,
    gives (word (text "define")) .primDefine, gives (word (text "lambda")) .primLambda,
    gives (word (text "set!")) .primSet,
    gives (word (text "if")) .primIf, gives (word (text "cond")) .primCond,
    gives (word (text "define-record-type")) .primRecordType,
    gives (word (text "let*")) .primLetStar,
    gives (word (text "and")) .primAnd, gives (word (text "or")) .primOr,
    gives (word (text "include")) .primInclude, gives (word (text "asm")) .primAsm]

/-- The rules of numbers. -/
def numberRules : List SchemeRule :=
  [gives Asm.fixnum .fixedNumber, gives decimal .floatNumber, gives ratio .floatNumber]

/-- The rules behind those of numbers. -/
def schemeTrailing : List SchemeRule :=
  [gives (many (oneOf schemeIdent)) .astSymbol,
    gives (oneOf (text "-+*/%><=") * schemeWs) .mathOps,
    ⟨word (text "#\\"), 0, some .expectChar, none⟩,
    enters (word (text "\"")) .expectString .doubleQuote,
    drops (word (text ";") * RegularExpression.star (oneOf (except (text "\n")))),
    drops (word (text "#!r6rs"))]

/-- **The rules of the lexer.** -/
def schemeRules : SchemeStart → List SchemeRule
  | .initial => schemeLeading ++ (numberRules ++ schemeTrailing)
  | .expectChar => [enters schemeCharVal .initial .charConstant]
  | .expectString => [gives Asm.stringBody .stringConstant, enters (word (text "\"")) .initial .doubleQuote]

/-- **A text is a token** of a source that goes on with `rest`. -/
def IsToken (start : SchemeStart) (token : SchemeToken) (str rest : List UInt8) : Prop :=
  ∃ r, munch (schemeRules start) (str ++ rest) = some (str, r, rest) ∧ r.token = some token

/-- No rule gives anything back. -/
theorem trail_eq_zero {start : SchemeStart} {r : SchemeRule} (hr : r ∈ schemeRules start) : r.trail = 0 := by
  have hall : ∀ start, ∀ r ∈ schemeRules start, r.trail = 0 := by
    rintro (_ | _ | _) <;> decide
  exact hall start r hr

/-- **What a token is**: it matches a rule that returns it, and no rule matches more. -/
theorem IsToken.matches {start : SchemeStart} {token : SchemeToken} {str rest : List UInt8}
    (h : IsToken start token str rest) : ∃ r ∈ schemeRules start, r.token = some token ∧ str ∈ r.pattern.matches' ∧
      AtMost (schemeRules start) (str ++ rest) str := by
  obtain ⟨r, hmunch, htoken⟩ := h
  have hr := munch_mem hmunch
  obtain ⟨-, hmem, hmost⟩ := munch_some hmunch (trail_eq_zero hr)
  exact ⟨r, hr, htoken, hmem, hmost⟩

end Insomniac.Bootstrap

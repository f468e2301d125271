import Insomniac.Bootstrap.Lexer
import Insomniac.Bootstrap.Lines
import Insomniac.Vm.Literals
import Insomniac.Vm.Runs

/-!
# Bootstrap/Texts — string and symbol literals

    "abc\"d"  ──STRING_CONSTANT──▸ abc\"d ──emit_string──▸ "abc\"d" ──OP_LIT_STRING──▸ abc\"d

Both lexers read a string with the same pattern, in which a backslash stands for itself or for the first
byte of an escaped quote.  A text matches it when each of its quotes is right behind a backslash, so the
longest match ends at the first other quote, and a text that was taken so is taken again.
-/

open Bytes Munch RegularExpression Insomniac.Asm Insomniac.Vm Run

namespace Insomniac.Bootstrap

/-! ## The pattern of strings

A text is escaped when no quote is in it but behind a backslash.  It falls apart into single bytes and escaped
quotes, which is how the pattern matches it. -/

/-- Each quote is right behind a backslash. -/
def Escaped (w : List UInt8) : Prop := ∀ pre post, w = pre ++ 34 :: post → pre.getLast? = some 92

/-- The empty text is escaped. -/
theorem escaped_nil : Escaped [] := fun pre post h => by simp at h

/-- Two escaped texts, one behind the other. -/
theorem Escaped.append {u w : List UInt8} (hu : Escaped u) (hw : Escaped w) : Escaped (u ++ w) := by
  intro pre post h
  rcases List.append_eq_append_iff.mp h with ⟨v, hpre, hw'⟩ | ⟨v, hu', hpost⟩
  · have hlast := hw v post hw'
    rw [hpre, List.getLast?_append, hlast]
    rfl
  · cases v with
    | nil =>
      have hlast := hw [] post hpost.symm
      cases hlast
    | cons b v =>
      obtain ⟨rfl, -⟩ := List.cons_eq_cons.mp hpost
      exact hu pre v hu'

/-- What is left behind some letters of an escaped text is escaped, if it does not begin with a quote. -/
theorem Escaped.drop {u w : List UInt8} (h : Escaped (u ++ w)) (hw : w.head? ≠ some 34) : Escaped w := by
  intro pre post heq
  have hlast := h (u ++ pre) post (by rw [heq, List.append_assoc])
  cases pre with
  | nil =>
    rw [heq] at hw
    exact absurd rfl hw
  | cons b pre =>
    rw [List.getLast?_append_cons] at hlast
    exact hlast

/-- What the star of the pattern goes around. -/
theorem mem_stringPiece {w : List UInt8} : w ∈ (oneOf (except (text "\"")) + word (text "\\\"")).matches' ↔
    (∃ b, b ≠ 34 ∧ w = [b]) ∨ w = [92, 34] := by
  rw [matches'_add, Language.mem_add, mem_oneOf, mem_word]
  have hquote : ∀ b : UInt8, b ∉ text "\"" ↔ b ≠ 34 := fun b => List.mem_singleton.not
  simp only [mem_except, hquote]
  rfl

/-- The pieces of an escaped text. -/
theorem exists_pieces : ∀ {w : List UInt8}, Escaped w → ∃ pieces : List (List UInt8), w = pieces.flatten ∧
    ∀ piece ∈ pieces, (∃ b, b ≠ 34 ∧ piece = [b]) ∨ piece = [92, 34]
  | [], _ => ⟨[], rfl, by simp⟩
  | [b], h => by
      have hb : b ≠ 34 := by
        rintro rfl
        cases h [] [] rfl
      exact ⟨[[b]], rfl, by simpa using hb⟩
  | b :: c :: w, h => by
      have hb : b ≠ 34 := by
        rintro rfl
        cases h [] (c :: w) rfl
      by_cases hc : c = 34
      · have hb92 : b = 92 := by
          rw [hc] at h
          exact Option.some.inj (h [b] w rfl)
        have hw : w.head? ≠ some 34 := by
          intro hhead
          obtain ⟨v, rfl⟩ := List.head?_eq_some_iff.mp hhead
          have hlast := h [b, c] v rfl
          rw [hc] at hlast
          cases hlast
        obtain ⟨pieces, rfl, hpieces⟩ := exists_pieces (h.drop (u := [b, c]) hw)
        refine ⟨[b, c] :: pieces, rfl, List.forall_mem_cons.mpr ⟨.inr ?_, hpieces⟩⟩
        rw [hb92, hc]
      · have hrest : Escaped (c :: w) := h.drop (u := [b]) (by simpa using hc)
        obtain ⟨pieces, heq, hpieces⟩ := exists_pieces hrest
        exact ⟨[b] :: pieces, by rw [heq]; rfl, List.forall_mem_cons.mpr ⟨.inl ⟨b, hb, rfl⟩, hpieces⟩⟩

/-- **What the pattern matches**: texts whose quotes are all escaped. -/
theorem mem_stringBody {w : List UInt8} : w ∈ stringBody.matches' ↔ Escaped w := by
  rw [stringBody, matches'_star, Language.mem_kstar]
  simp only [mem_stringPiece]
  refine ⟨?_, exists_pieces⟩
  rintro ⟨pieces, rfl, hpieces⟩
  induction pieces with
  | nil => exact escaped_nil
  | cons piece pieces ih =>
    obtain ⟨hpiece, hpieces⟩ := List.forall_mem_cons.mp hpieces
    refine Escaped.append ?_ (ih hpieces)
    rcases hpiece with ⟨b, hb, rfl⟩ | rfl
    · rintro (_ | ⟨c, pre⟩) post heq
      · exact absurd (List.cons_eq_cons.mp heq).1 hb
      · simp at heq
    · rintro (_ | ⟨c, _ | ⟨d, pre⟩⟩) post heq
      · cases heq
      · obtain ⟨rfl, -⟩ := List.cons_eq_cons.mp heq
        rfl
      · simp at heq

/-- An escaped text that does not end in a backslash. -/
structure Closed (w : List UInt8) : Prop where
  escaped : Escaped w
  last : w.getLast? ≠ some 92

/-- **A string ends at the first quote** that no backslash is before. -/
theorem Closed.length_le {w u rest : List UInt8} (h : Closed w) (hu : u <+: w ++ 34 :: rest)
    (hescaped : Escaped u) : u.length ≤ w.length := by
  rcases List.prefix_or_prefix_of_prefix hu (List.prefix_append w (34 :: rest)) with hu | ⟨v, rfl⟩
  · exact hu.length_le
  · cases v with
    | nil => simp
    | cons b v =>
      obtain ⟨rfl, -⟩ := List.cons_prefix_cons.mp ((List.prefix_append_right_inj w).mp hu)
      exact absurd (hescaped w v rfl) h.last

/-- **A text that was taken as a string** is closed. -/
theorem closed_of_token {str rest : List UInt8} (h : IsToken .expectString .stringConstant str (34 :: rest)) :
    Closed str := by
  obtain ⟨r, hr, htoken, hmem, hmost⟩ := h.matches
  have hbody : gives stringBody .stringConstant ∈ schemeRules .expectString := List.mem_cons_self
  have hescaped : Escaped str := by
    rcases List.mem_pair.mp hr with rfl | rfl
    · exact mem_stringBody.mp hmem
    · cases htoken
  refine ⟨hescaped, fun hlast => ?_⟩
  -- a longer match: the backslash at the end escapes the quote
  have hlonger : str ++ [34] ∈ stringBody.matches' := by
    refine mem_stringBody.mpr fun pre post heq => ?_
    rcases List.append_eq_append_iff.mp heq with ⟨v, hpre, hv⟩ | ⟨v, hstr, hv⟩
    · cases v with
      | nil => rw [hpre, List.append_nil, hlast]
      | cons b v => simp at hv
    · cases v with
      | nil => rw [hstr, List.append_nil] at hlast; exact hlast
      | cons b v =>
        obtain ⟨rfl, -⟩ := List.cons_eq_cons.mp hv
        exact hescaped pre v hstr
  have hle := hmost _ hbody (str ++ [34]) (by rw [List.prefix_append_right_inj]; simp) hlonger
  simp at hle

/-! ## Literals

What the two rules of the Scheme lexer return as a text: a string without its quotes, or a symbol, neither with
a `NUL` in it. -/

/-- **A string literal that the compiler accepts**: what is between two quotes, a token or nothing. -/
structure StringLiteral where
  str : List UInt8
  token : str = [] ∨ ∃ rest, IsToken .expectString .stringConstant str (34 :: rest)
  /-- There is no `NUL` in a source, and a string fits in memory. -/
  noNul : 0 ∉ str
  fits : str.length < 2 ^ 63

/-- **A symbol token.** -/
structure SymbolToken where
  str : List UInt8
  token : ∃ rest, IsToken .initial .astSymbol str rest
  fits : str.length < 2 ^ 63

/-- A string constant is a closed text. -/
theorem StringLiteral.closed (l : StringLiteral) : Closed l.str := by
  rcases l.token with hnil | ⟨rest, htoken⟩
  · rw [hnil]
    exact ⟨escaped_nil, by decide⟩
  · exact closed_of_token htoken

/-- The letters of a symbol. -/
theorem SymbolToken.letters (t : SymbolToken) : t.str ≠ [] ∧ ∀ b ∈ t.str, b ∈ schemeIdent := by
  obtain ⟨rest, htoken⟩ := t.token
  obtain ⟨r, hr, hreturns, hmem, -⟩ := htoken.matches
  have hothers : ∀ r ∈ schemeLeading ++ (numberRules ++ schemeTrailing.tail), r.token ≠ some .astSymbol := by
    decide +kernel
  have hsymbol : r = gives (many (oneOf schemeIdent)) .astSymbol := by
    by_contra hne
    refine hothers r ?_ hreturns
    simp only [schemeRules, schemeTrailing, List.mem_append, List.mem_cons, List.tail_cons] at hr ⊢
    rcases hr with hr | hr | hr | hr
    · exact .inl hr
    · exact .inr (.inl hr)
    · exact absurd hr hne
    · exact .inr (.inr hr)
  rw [hsymbol] at hmem
  exact mem_many_oneOf.mp hmem

theorem SymbolToken.closed (t : SymbolToken) : Closed t.str where
  escaped pre post heq := by
    have hall : ∀ b ∈ schemeIdent, b ≠ 34 := by decide
    exact absurd rfl (hall 34 (t.letters.2 34 (by rw [heq]; simp)))
  last hlast := by
    have hall : ∀ b ∈ schemeIdent, b ≠ 92 := by decide
    exact absurd rfl (hall 92 (t.letters.2 92 (List.mem_of_getLast? hlast)))

/-- No symbol has a `NUL` in it. -/
theorem SymbolToken.noNul (t : SymbolToken) : 0 ∉ t.str := by
  have hall : ∀ b ∈ schemeIdent, b ≠ 0 := by decide
  exact fun h => hall 0 (t.letters.2 0 h) rfl

/-! ## Lexing a literal again

The assembler opens a string at a quote and a symbol at `s"`, and then has one rule for what is inside.  As the
text is escaped and the quote behind it is not, the longest match is the text. -/

/-- Inside of a string, a rule matches an escaped text or the quote. -/
theorem mem_lexString {r : LexRule} (hr : r ∈ lexRules .expectString) {u : List UInt8} (hu : u ∈ r.pattern.matches') :
    Escaped u ∨ u = [34] := by
  rcases List.mem_pair.mp hr with rfl | rfl
  · exact .inl (mem_stringBody.mp hu)
  · exact .inr (mem_word.mp hu)

/-- The closing quote. -/
theorem lex_close (s : List UInt8) :
    lexFrom .expectString (34 :: s) = (.stringEnd, text "\"") :: lexFrom .initial s := by
  have hmost : AtMost (lexRules .expectString) ([34] ++ s) [34] := by
    intro r hr u hu hmem
    rcases mem_lexString hr hmem with hescaped | rfl
    · exact (Closed.length_le ⟨escaped_nil, by decide⟩ hu hescaped).trans (Nat.zero_le _)
    · exact le_rfl
  have hbody : ¬ stringBody.rmatch [34] = true := fun hmatch => by
    cases mem_stringBody.mp ((rmatch_iff_matches' _ _).mp hmatch) [] [] rfl
  have hend : (word (text "\"")).rmatch [34] = true := (rmatch_iff_matches' _ _).mpr (mem_word.mpr rfl)
  have hfind : (lexRules .expectString).find? (·.pattern.rmatch [34]) =
      some (begins (word (text "\"")) .initial .stringEnd) :=
    (List.find?_cons_of_neg (a := returns stringBody (.op .litString)) (p := fun r : LexRule => r.pattern.rmatch [34])
      hbody).trans (List.find?_cons_of_pos (p := fun r : LexRule => r.pattern.rmatch [34]) hend)
  exact lex_eq hmost hfind rfl (List.cons_ne_nil _ _)

/-- **The body of a string is lexed whole**, up to the closing quote. -/
theorem lex_body {w : List UInt8} (hw : Closed w) (hne : w ≠ []) (s : List UInt8) :
    lexFrom .expectString (w ++ 34 :: s) = (.op .litString, w) :: (.stringEnd, text "\"") :: lexFrom .initial s := by
  have hmost : AtMost (lexRules .expectString) (w ++ 34 :: s) w := by
    intro r hr u hu hmem
    rcases mem_lexString hr hmem with hescaped | rfl
    · exact hw.length_le hu hescaped
    · exact List.length_pos_of_ne_nil hne
  have hfind := List.find?_cons_of_pos (l := [begins (word (text "\"")) .initial .stringEnd])
    (a := returns stringBody (.op .litString)) (p := fun r : LexRule => r.pattern.rmatch w)
    ((rmatch_iff_matches' _ _).mpr (mem_stringBody.mpr hw.escaped))
  exact (lex_eq hmost hfind rfl hne).trans (congrArg _ (lex_close s))

/-- **The rest of a string literal**, behind its first quote. -/
theorem read_rest {w : List UInt8} (hw : Closed w) (s : List UInt8) :
    asmLitString (lexFrom .expectString (w ++ 34 :: s)) = some (w, lexFrom .initial s) := by
  rcases eq_or_ne w [] with rfl | hne
  · rw [List.nil_append, lex_close]
    rfl
  · rw [lex_body hw hne]
    rfl

theorem lex_open (s : List UInt8) :
    lexFrom .initial (text "\"" ++ s) = (.stringStart, text "\"") :: lexFrom .expectString s := by
  have hstuck : ∀ r ∈ lexRules .initial, stuck (behind r.pattern (text "\"")) = true := by decide +kernel
  exact lex_eq (atMost_of_stuck hstuck) (r := begins (word (text "\"")) .expectString .stringStart) rfl rfl (by decide)

/-- An `s` and a quote open a symbol. -/
theorem lex_symbol (s : List UInt8) :
    lexFrom .initial (text "s\"" ++ s) = (.symbolStart, text "s\"") :: lexFrom .expectString s := by
  have hstuck : ∀ r ∈ lexRules .initial, stuck (behind r.pattern (text "s\"")) = true := by decide +kernel
  exact lex_eq (atMost_of_stuck hstuck)
    (r := begins (oneOf (text "sS") * word (text "\"")) .expectString .symbolStart) rfl rfl (by decide)

/-- **A string's line is one string**, whatever follows it. -/
theorem readText_string (l : StringLiteral) (debug : Bool) (rest : List UInt8) :
    readText debug (emitString l.str ++ rest) = (readText debug rest).map (.string l.str :: ·) := by
  have hline : emitString l.str = emitOp (text "\"" ++ (l.str ++ [34])) := by
    simp [emitString, emitOp, text]
  have hlexed : lexFrom .initial (emitString l.str ++ rest) =
      (.stringStart, text "\"") :: lexFrom .expectString (l.str ++ 34 :: 10 :: rest) := by
    rw [hline, lex_line, List.append_assoc, lex_open, List.append_assoc]
    rfl
  have hbody := (read_rest l.closed (10 :: rest)).trans (by rw [lex_newline])
  rw [readText, hlexed, readTokens]
  split
  · next str more heq =>
    cases hbody.symm.trans heq
    rfl
  · next heq => cases hbody.symm.trans heq

/-- **A symbol's line is one symbol**, whatever follows it. -/
theorem readText_symbol (t : SymbolToken) (debug : Bool) (rest : List UInt8) :
    readText debug (emitOp (streamSymbol t.str) ++ rest) = (readText debug rest).map (.symbol t.str :: ·) := by
  have hlexed : lexFrom .initial (emitOp (streamSymbol t.str) ++ rest) =
      (.symbolStart, text "s\"") :: lexFrom .expectString (t.str ++ 34 :: 10 :: rest) := by
    have hquote : text "\"" = [34] := by decide
    rw [lex_line, streamSymbol, List.append_assoc, List.append_assoc, lex_symbol, hquote]
    rfl
  have hbody := (read_rest t.closed (10 :: rest)).trans (by rw [lex_newline])
  rw [readText, hlexed, readTokens]
  split
  · next str more heq =>
    cases hbody.symm.trans heq
    rfl
  · next heq => cases hbody.symm.trans heq

/-! ## What is pushed

A string is always a new object with its text.  A symbol is what the symbol table has under its name, and that
is the right one unless another symbol has been written under that name before. -/

/-- A literal that has a text. -/
inductive TextLiteral
  | string (l : StringLiteral)
  | symbol (t : SymbolToken)

/-- The text of a literal. -/
def TextLiteral.str : TextLiteral → List UInt8
  | .string l => l.str
  | .symbol t => t.str

/-- The line that is written for a literal. -/
def TextLiteral.line : TextLiteral → List UInt8
  | .string l => emitString l.str
  | .symbol t => emitOp (streamSymbol t.str)

/-- The literal of the assembler with the same text. -/
def TextLiteral.token {L : Type} : TextLiteral → Token L
  | .string l => .string l.str
  | .symbol t => .symbol t.str

/-- The object has the type, the length and the bytes of a literal. -/
def TextLiteral.Made (vm : VmInternal) (r : Ref) : TextLiteral → Prop
  | .string l => ∃ a, vm.deref r = some (.string (Int64.ofNat l.str.length) a) ∧ ∃ rest, vm.bytes[a]? = some (l.str ++ rest)
  | .symbol t => IsSymbol vm r t.str

/-- **A literal survives** in a state where it is next: its line is that literal, whatever follows it, and a
round pushes an object with its text. -/
structure Survives (host : Host) (debug : Bool) (lit : TextLiteral) (vm : VmInternal) : Prop where
  read : ∀ rest, readText debug (lit.line ++ rest) = (readText debug rest).map (lit.token :: ·)
  pushed : ∃ vm' r, Step host vm vm' ∧ vm'.Top r vm.stackRoot ∧ vm'.depth = vm.depth + 1 ∧ lit.Made vm' r

/-- What the symbol table has under the text of a symbol, if anything, is a symbol of that text. -/
def TextLiteral.Free (host : Host) (vm : VmInternal) (env : Env) : TextLiteral → Prop
  | .string _ => True
  | .symbol t => ∀ r, (vm.parsed env t.str).interned host t.str = some r → IsSymbol (vm.parsed env t.str) r t.str

/-- The line of a literal is read as the literal. -/
theorem readText_line (debug : Bool) (rest : List UInt8) : ∀ lit : TextLiteral,
    readText debug (lit.line ++ rest) = (readText debug rest).map (lit.token :: ·)
  | .string l => readText_string l debug rest
  | .symbol t => readText_symbol t debug rest

/-- **A string or symbol survives** exactly when no other symbol has its name. -/
theorem text_literal_survives_iff {L : Type} {labels : L → Option ℕ} {addr : ℕ} {host : Host} {debug : Bool}
    (lit : TextLiteral) {vm : VmInternal} {env : Env} {code : Code} (hreach : Reachable host vm)
    (h : vm.Ahead env code ((lit.token : Token L).encode labels addr)) :
    Survives host debug lit vm ↔ lit.Free host vm env := by
  cases lit with
  | string l =>
    have hcstr : cstr l.str = l.str := cstr_eq_self fun b hb h0 => l.noNul (h0 ▸ hb)
    obtain ⟨vm', r, hstep, htop, hdepth, a, hobj, hbytes⟩ :=
      pushes_string labels addr host (hcstr.symm ▸ l.fits) vm env code h
    rw [hcstr] at hobj hbytes
    exact iff_of_true ⟨fun rest => readText_line debug rest _, vm', r, hstep, htop, hdepth, a, hobj, [0], hbytes⟩ trivial
  | symbol t =>
    obtain ⟨entries, ht⟩ : ∃ entries, vm.tables[vm.symbolTable]? = some entries := by
      rw [hreach.sound.symbolTable]
      exact ⟨_, List.getElem?_eq_getElem (Nat.lt_of_succ_lt hreach.sound.tables)⟩
    have hpushed := @litSymbol_iff host _ _ _ _ _ _ _ _ (fun b hb h0 => t.noNul (h0 ▸ hb)) t.fits ht h
    exact ⟨fun hsurvives => hpushed.mp hsurvives.pushed,
      fun hfree => ⟨fun rest => readText_line debug rest _, hpushed.mpr hfree⟩⟩

/-- The symbol `a`. -/
def symbolA : SymbolToken where
  str := text "a"
  token := by
    have hmunch : (munch (schemeRules .initial) (text "a")).map (fun p => (p.1, p.2.1.token, p.2.2)) =
        some (text "a", some .astSymbol, []) := by decide +kernel
    obtain ⟨⟨str, r, rest⟩, hmunch, hp⟩ := Option.map_eq_some_iff.mp hmunch
    simp only [Prod.mk.injEq] at hp
    obtain ⟨hstr, htoken, hrest⟩ := hp
    rw [hstr, hrest] at hmunch
    exact ⟨[], r, hmunch, htoken⟩
  fits := by decide

/-- The state that a program comes to, and the literal `a` is next there. -/
theorem reaches_symbolA {tokens : List (Token ℕ)} {rounds : ℕ} {test : VmInternal → Env → Bool}
    (h : passes (vmLoop Host.bare rounds) (startBytes ((asmString tokens).getD []) vmCreate) (fun vm =>
      vm.isAhead ((Token.symbol (text "a") : Token ℕ).encode some 0) && vm.envs[vm.env]?.any (test vm)) = true) :
    ∃ vm env code, Reachable Host.bare vm ∧
      vm.Ahead env code ((TextLiteral.symbol symbolA).token.encode (some : ℕ → Option ℕ) 0) ∧ test vm env = true := by
  obtain ⟨⟨⟩, vm, hrun, hvm⟩ := exists_of_passes h
  obtain ⟨hahead, htest⟩ := Bool.and_eq_true_iff.mp hvm
  obtain ⟨env, code, hahead⟩ := VmInternal.ahead_of_isAhead hahead
  rw [hahead.current] at htest
  exact ⟨vm, env, code, (later_startBytes _ rfl).trans (later_vmLoop hrun), hahead, htest⟩

/-- The string `"a"` is made a symbol, and the literal `a` is met twice. -/
def metBefore : List (Token ℕ) :=
  [.string "a", .op .makeSymbol Op.noOperand, .string "b", .symbol "a", .symbol "a"]

/-- The literal `a` where the symbol table has a symbol of that name already. -/
theorem text_literal_survives_again : ∃ vm env code, Reachable Host.bare vm ∧
    vm.Ahead env code ((TextLiteral.symbol symbolA).token.encode (some : ℕ → Option ℕ) 0) ∧
      (vm.parsed env (text "a")).interned Host.bare (text "a") = some (.obj 3) ∧
        Survives Host.bare false (.symbol symbolA) vm := by
  obtain ⟨vm, env, code, hreach, hahead, htest⟩ := @reaches_symbolA metBefore 4 (fun vm env =>
    (vm.parsed env (text "a")).interned Host.bare (text "a") = some (.obj 3) &&
      (vm.parsed env (text "a")).deref (.obj 3) = some (.symbol 1 0) &&
        (vm.parsed env (text "a")).bytes[0]? = some (text "a" ++ [0])) (by decide +kernel)
  simp only [Bool.and_eq_true, decide_eq_true_eq] at htest
  obtain ⟨⟨hinterned, hobj⟩, hbytes⟩ := htest
  refine ⟨vm, env, code, hreach, hahead, hinterned,
    (text_literal_survives_iff (.symbol symbolA) hreach hahead).mpr fun r hr => ?_⟩
  cases hinterned.symm.trans hr
  exact ⟨0, hobj, [0], hbytes⟩

/-- A `NUL` is written into a string before `sym` of it. -/
def takenName : List (Token ℕ) :=
  [.string "ab", .op .dupRef Op.noOperand, .op .stringByteVector Op.noOperand, .fixnum 1, .op .swap Op.noOperand,
    .fixnum 0, .op .swap Op.noOperand,
    .op .indexSet Op.noOperand, .op .makeSymbol Op.noOperand, .symbol "a"]

/-- **A symbol that is longer than its name** is pushed for the literal of that name. -/
theorem text_literal_taken : ∃ vm env code, Reachable Host.bare vm ∧
    vm.Ahead env code ((TextLiteral.symbol symbolA).token.encode (some : ℕ → Option ℕ) 0) ∧
      ¬ Survives Host.bare false (.symbol symbolA) vm := by
  obtain ⟨vm, env, code, hreach, hahead, htest⟩ := @reaches_symbolA takenName 9 (fun vm env =>
    (vm.tables[vm.symbolTable]?).isSome && (vm.parsed env (text "a")).interned Host.bare (text "a") = some (.obj 3) &&
      (vm.parsed env (text "a")).deref (.obj 3) = some (.symbol 2 0)) (by decide +kernel)
  simp only [Bool.and_eq_true, decide_eq_true_eq] at htest
  obtain ⟨⟨htable, hinterned⟩, hobj⟩ := htest
  obtain ⟨entries, ht⟩ := Option.isSome_iff_exists.mp htable
  refine ⟨vm, env, code, hreach, hahead, fun hsurvives => ?_⟩
  have hfree := (litSymbol_iff (fun b hb h0 => symbolA.noNul (h0 ▸ hb)) symbolA.fits ht hahead).mp hsurvives.pushed
  obtain ⟨a, hsymbol, -⟩ := hfree _ hinterned
  cases hobj.symm.trans hsymbol

end Insomniac.Bootstrap

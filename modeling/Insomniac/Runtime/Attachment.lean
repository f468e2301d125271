import Insomniac.Asm.Lexer
import Insomniac.Vm.Lengths

/-!
# Runtime/Attachment — compiled programs

    code ──buildAttachment──▸ text ──assembler, linker──▸ scheme_code, scheme_code_size ──run_scheme──▸ …

The text lists the bytes of the code, and these are what the assembler lays down (`bytesAt_attachment`).
But the size that is written is one less than their number: what `run_scheme` executes is what the
interpreter does unless that comes to the last byte (`attachment_runs_iff`).
-/

open Bytes Insomniac.Asm Insomniac.Vm

namespace Insomniac.Runtime

/-! ## `buildAttachment`

The writer of the compiler: the rows are eight bytes wide, and the size is what is left of the count. -/

/-- A number as `printf` writes it. -/
def decimal (n : ℕ) : List UInt8 :=
  if n < 10 then [48 + UInt8.ofNat n] else decimal (n / 10) ++ [48 + UInt8.ofNat (n % 10)]

/-- `target_preamble`. -/
def targetPreamble : List UInt8 := text <|
  "   .text\n" ++ "   .globl main\n" ++ "main:\n" ++ "   pushq %rbp\n" ++ "   movq %rsp, %rbp\n" ++
    "   call run_scheme@PLT\n" ++ "   popq %rbp\n" ++ "   ret\n" ++ "   .data\n" ++ "meta:\n" ++
    "   .quad 0 # meta_obj.next\n" ++ "   .long 0 # meta_obj.mark\n" ++ "   .long 0 # meta_obj.size\n" ++
    "   .long 0 # meta_obj.type_def\n" ++ "str:\n"

/-- `target_postamble`. -/
def targetPostamble : List UInt8 := "\n"

/-- `writeGlobalSymbol`. -/
def writeGlobalSymbol (name : String) : List UInt8 := text (".globl " ++ name ++ "\n" ++ name ++ ":\n")

/-- `line_prefix`. -/
def linePrefix : List UInt8 := "\n    .byte "

/-- The loop over the bytes of the code, from the byte number `i` on. -/
def writeBytes (length : ℕ) : (i : ℕ) → List UInt8 → List UInt8
  | _, [] => []
  | i, byte :: bytes =>
    let separator :=
      if i + 1 < length then if i % 50 = 0 ∧ 0 < i then linePrefix else text ", " else []
    decimal byte.toNat ++ separator ++ writeBytes length (i + 1) bytes

/-- `buildAttachment` of assembled code; `debugInfo` is what `writeDebugInfo` writes. -/
def buildAttachment (code debugInfo : List UInt8) : List UInt8 :=
  targetPreamble ++ writeGlobalSymbol "scheme_code" ++ linePrefix ++ writeBytes code.length 0 code ++ text "\n\n" ++
    writeGlobalSymbol "scheme_code_size" ++ text "    .quad " ++ decimal (code.length - 1) ++ text "\n\n" ++
    debugInfo ++ targetPostamble

/-! ## What the assembler makes of it

The text goes through the assembler and the linker, and `run_scheme` reads the two symbols that it declares.  Of
their language the text needs four forms of a line in the data that these symbols stand for: a label, which ends in
`:` and names the place behind it, `.globl`, which lays down nothing, `.byte` with decimal numbers below 256 between
commas, and `.quad` with one decimal number. -/

/-- A number in the text, decimal and without a sign, after blanks. -/
def readNumber (str : List UInt8) : Option ℕ :=
  let str := str.dropWhile (· = 32)
  if str ≠ [] ∧ ∀ b ∈ str, b ∈ digits then some (numeral 10 str) else none

/-- A number that is a byte. -/
def readByte (str : List UInt8) : Option UInt8 :=
  (readNumber str).bind fun n => if n < 256 then some (UInt8.ofNat n) else none

/-- The operands of a directive, when a line is one. -/
def operandsOf (directive line : List UInt8) : Option (List UInt8) :=
  let line := line.dropWhile (· = 32)
  if directive <+: line then some (line.drop directive.length) else none

/-- The bytes that a line lays down: those of `.byte`, one for each of its operands, and none for an empty line and for
`.globl`.  Any other line is not read. -/
def bytesOf (line : List UInt8) : Option (List UInt8) :=
  match operandsOf ".byte " line with
  | some operands => (operands.splitOn 44).mapM readByte
  | none => if line = [] ∨ (operandsOf ".globl " line).isSome then some [] else none

/-- Whether a line is a label. -/
def isLabel (line : List UInt8) : Bool := line.getLast? = some 58

/-- The lines between a label and the next one. -/
def linesAt (label : List UInt8) (str : List UInt8) : List (List UInt8) :=
  (((str.splitOn 10).dropWhile (· ≠ label)).drop 1).takeWhile fun line => !isLabel line

/-- The bytes at a label: what the lines of `.byte` between it and the next label lay down, one behind the other. -/
def bytesAt (label : List UInt8) (str : List UInt8) : Option (List UInt8) :=
  ((linesAt label str).mapM bytesOf).map List.flatten

/-- The number at a label: the operand of the `.quad` in the line behind it. -/
def quadAt (label : List UInt8) (str : List UInt8) : Option ℕ :=
  (((linesAt label str).head?).bind (operandsOf ".quad ")).bind readNumber

/-- `run_scheme` of a text that was assembled and linked: the machine when the loop of `vm_eval` begins. -/
def runScheme (str : List UInt8) : Option VmInternal := do
  let schemeCode ← bytesAt "scheme_code:" str
  let schemeCodeSize ← quadAt "scheme_code_size:" str
  pure (startEval vmCreate.codes.length schemeCodeSize (loadCode (fun i => schemeCode.getD i 0) vmCreate))

/-! ## Numbers

`printf` writes a byte in decimal, and the assembler reads it back, with what blanks stand before it. -/

/-- The digits of two texts in a row are read one after the other. -/
theorem numeral_append (u v : List UInt8) :
    numeral 10 (u ++ v) = v.foldl (fun n d => n * 10 + (digitValue d).getD 0) (numeral 10 u) := List.foldl_append ..

/-- **Numbers are read back.** -/
theorem decimal_spec (n : ℕ) : decimal n ≠ [] ∧ (∀ b ∈ decimal n, b ∈ digits) ∧ numeral 10 (decimal n) = n := by
  have hdigit : ∀ d < 10, (48 + UInt8.ofNat d) ∈ digits ∧ (digitValue (48 + UInt8.ofNat d)).getD 0 = d := by decide
  induction n using Nat.strong_induction_on with
  | _ n ih =>
    rw [decimal]
    split
    · next hlt =>
      obtain ⟨hmem, hvalue⟩ := hdigit n hlt
      refine ⟨List.cons_ne_nil _ _, fun b hb => List.mem_singleton.mp hb ▸ hmem, ?_⟩
      simp [numeral, hvalue]
    · next hge =>
      obtain ⟨hmem, hvalue⟩ := hdigit (n % 10) (Nat.mod_lt _ (by omega))
      obtain ⟨-, hdigits, hnumeral⟩ := ih (n / 10) (Nat.div_lt_self (by omega) (by omega))
      refine ⟨List.append_ne_nil_of_right_ne_nil _ (List.cons_ne_nil _ _), fun b hb => ?_, ?_⟩
      · rcases List.mem_append.mp hb with hb | hb
        · exact hdigits b hb
        · exact List.mem_singleton.mp hb ▸ hmem
      · rw [numeral_append, hnumeral, List.foldl_cons, List.foldl_nil, hvalue]
        omega

/-- A decimal number has digits only. -/
theorem not_mem_decimal {n : ℕ} {b : UInt8} (hb : b ∉ digits) : b ∉ decimal n := fun h =>
  hb ((decimal_spec n).2.1 b h)

/-- A number behind blanks. -/
theorem readNumber_decimal (n : ℕ) {pad : List UInt8} (hpad : ∀ b ∈ pad, b = 32) :
    readNumber (pad ++ decimal n) = some n := by
  obtain ⟨hne, hdigits, hnumeral⟩ := decimal_spec n
  have hdrop : (pad ++ decimal n).dropWhile (fun b => b = 32) = decimal n := by
    rw [List.dropWhile_append_of_pos fun b hb => decide_eq_true (hpad b hb)]
    obtain ⟨d, ds, hds⟩ := List.exists_cons_of_ne_nil hne
    have hd : d ≠ 32 := by
      rintro rfl
      exact absurd (hdigits 32 (hds ▸ List.mem_cons_self)) (by decide)
    rw [hds, List.dropWhile_cons_of_neg]
    simpa using hd
  simp only [readNumber, hdrop]
  rw [if_pos ⟨hne, hdigits⟩, hnumeral]

/-- **A byte in decimal is read back**, blanks before it or not. -/
theorem readByte_decimal (b : UInt8) {pad : List UInt8} (hpad : ∀ b ∈ pad, b = 32) :
    readByte (pad ++ decimal b.toNat) = some b := by
  rw [readByte, readNumber_decimal _ hpad, Option.bind_some, if_pos b.toNat_lt, UInt8.ofNat_toNat]

/-! ## Rows of bytes

What stands between the commas is read number by number, so a row gives back the bytes that it was written from. -/

/-- The operands of a row. -/
def commas : List UInt8 → List UInt8
  | [] => []
  | [byte] => decimal byte.toNat
  | byte :: bytes => decimal byte.toNat ++ text ", " ++ commas bytes

/-- The text of a row, one byte at a time. -/
theorem commas_cons (byte : UInt8) {bytes : List UInt8} (h : bytes ≠ []) :
    commas (byte :: bytes) = decimal byte.toNat ++ text ", " ++ commas bytes := by
  cases bytes with
  | nil => exact absurd rfl h
  | cons b bytes => rfl

/-- **The operands of a row** are read back. -/
theorem read_commas : ∀ {bytes pad : List UInt8}, bytes ≠ [] → (∀ b ∈ pad, b = 32) →
    ((pad ++ commas bytes).splitOn 44).mapM readByte = some bytes
  | [byte], pad, _, hpad => by
      have hcomma : 44 ∉ pad ++ decimal byte.toNat := fun h => by
        rcases List.mem_append.mp h with h | h
        · exact absurd (hpad 44 h) (by decide)
        · exact not_mem_decimal (by decide) h
      rw [commas, List.splitOn_eq_singleton hcomma, List.mapM_cons, readByte_decimal byte hpad]
      rfl
  | byte :: b :: bytes, pad, _, hpad => by
      have hcomma : 44 ∉ pad ++ decimal byte.toNat := fun h => by
        rcases List.mem_append.mp h with h | h
        · exact absurd (hpad 44 h) (by decide)
        · exact not_mem_decimal (by decide) h
      have hsplit : pad ++ commas (byte :: b :: bytes) =
          (pad ++ decimal byte.toNat) ++ 44 :: ([32] ++ commas (b :: bytes)) := by
        rw [commas_cons byte (List.cons_ne_nil _ _)]
        simp [text]
      have hrest : (([32] ++ commas (b :: bytes)).splitOn 44).mapM readByte = some (b :: bytes) :=
        read_commas (List.cons_ne_nil _ _) (by simp)
      rw [hsplit, List.splitOn_append_cons_self_of_not_mem hcomma, List.mapM_cons, readByte_decimal byte hpad, hrest]
      rfl

/-- The line of a row. -/
def rowLine (row : List UInt8) : List UInt8 := text "    .byte " ++ commas row

/-- **A row is read back.** -/
theorem bytesOf_rowLine {row : List UInt8} (hrow : row ≠ []) : bytesOf (rowLine row) = some row := by
  have hoperands : operandsOf ".byte " (rowLine row) = some (commas row) := by
    have hdrop : (rowLine row).dropWhile (fun b => b = 32) = text ".byte " ++ commas row := rfl
    rw [operandsOf]
    simp only [hdrop]
    rw [if_pos (List.prefix_append _ _), List.drop_left]
  rw [bytesOf, hoperands]
  exact @read_commas row [] hrow (by simp)

/-- **The loop writes rows**: lines that lay down all bytes, the first one behind what is there already. -/
theorem writeBytes_lines (length : ℕ) : ∀ {bytes : List UInt8} {i : ℕ}, bytes ≠ [] → i + bytes.length = length →
    ∃ row rows, (row :: rows).flatten = bytes ∧ (∀ r ∈ row :: rows, r ≠ []) ∧
      ∀ w rest : List UInt8, 10 ∉ w → (w ++ writeBytes length i bytes ++ 10 :: rest).splitOn 10 =
        (w ++ commas row) :: rows.map rowLine ++ rest.splitOn 10
  | [byte], i, _, hi => by
      refine ⟨[byte], [], rfl, by simp, fun w rest hw => ?_⟩
      have hlast : ¬ i + 1 < length := by
        rw [← hi]
        simp
      have hline : 10 ∉ w ++ decimal byte.toNat := fun h => by
        rcases List.mem_append.mp h with h | h
        · exact hw h
        · exact not_mem_decimal (by decide) h
      simp only [writeBytes, if_neg hlast, List.append_nil]
      rw [List.splitOn_append_cons_self_of_not_mem hline]
      rfl
  | byte :: b :: bytes, i, _, hi => by
      have hmore : i + 1 < length := by
        rw [← hi]
        simp
      obtain ⟨row, rows, hflat, hne, hlines⟩ :=
        writeBytes_lines length (i := i + 1) (List.cons_ne_nil b bytes) (by
          rw [← hi, List.length_cons (a := byte)]
          omega)
      have hdecimal : 10 ∉ decimal byte.toNat := not_mem_decimal (by decide)
      rw [writeBytes]
      simp only [if_pos hmore]
      split
      · refine ⟨[byte], row :: rows, by rw [List.flatten_cons, hflat]; rfl, ?_, fun w rest hw => ?_⟩
        · exact List.forall_mem_cons.mpr ⟨List.cons_ne_nil _ _, hne⟩
        · have hline : 10 ∉ w ++ decimal byte.toNat := fun h => (List.mem_append.mp h).elim hw hdecimal
          have hsplit : w ++ (decimal byte.toNat ++ linePrefix ++ writeBytes length (i + 1) (b :: bytes)) ++ 10 :: rest =
              (w ++ decimal byte.toNat) ++ 10 ::
                (text "    .byte " ++ writeBytes length (i + 1) (b :: bytes) ++ 10 :: rest) := by
            simp [linePrefix, text]
          rw [hsplit, List.splitOn_append_cons_self_of_not_mem hline, hlines _ rest (by decide)]
          rfl
      · refine ⟨byte :: row, rows, by rw [← hflat]; rfl, ?_, fun w rest hw => ?_⟩
        · exact List.forall_mem_cons.mpr ⟨List.cons_ne_nil _ _, (List.forall_mem_cons.mp hne).2⟩
        · have hpad : 10 ∉ w ++ decimal byte.toNat ++ text ", " := fun h => by
            rcases List.mem_append.mp h with h | h
            · exact (List.mem_append.mp h).elim hw hdecimal
            · exact absurd h (by decide)
          have hcommas := commas_cons byte (hne row List.mem_cons_self)
          have hassoc : w ++ (decimal byte.toNat ++ text ", " ++ writeBytes length (i + 1) (b :: bytes)) ++ 10 :: rest =
              (w ++ decimal byte.toNat ++ text ", ") ++ writeBytes length (i + 1) (b :: bytes) ++ 10 :: rest := by
            simp
          rw [hassoc, hlines _ rest hpad, hcommas]
          simp

/-! ## The sections

No line of data looks like a label, so what lies between the two symbols is the bytes and nothing else. -/

/-- No row is a label. -/
theorem colon_not_mem_rowLine : ∀ row : List UInt8, 58 ∉ rowLine row := by
  have hcommas : ∀ row : List UInt8, 58 ∉ commas row := by
    intro row
    induction row with
    | nil => exact List.not_mem_nil
    | cons byte bytes ih =>
      have hdecimal : 58 ∉ decimal byte.toNat := not_mem_decimal (by decide)
      cases bytes with
      | nil => exact hdecimal
      | cons b bytes =>
        intro h
        rcases List.mem_append.mp h with h | h
        · exact (List.mem_append.mp h).elim hdecimal fun h => absurd h (by decide)
        · exact ih h
  intro row h
  exact (List.mem_append.mp h).elim (fun h => absurd h (by decide)) (hcommas row)

/-- A row does not end in a colon. -/
theorem isLabel_rowLine (row : List UInt8) : isLabel (rowLine row) = false :=
  decide_eq_false fun h => colon_not_mem_rowLine row (List.mem_of_getLast? h)

/-- The lines up to `scheme_code`. -/
def linesBefore : List (List UInt8) := (targetPreamble ++ text ".globl scheme_code").splitOn 10

/-- **The lines of an attachment.** -/
theorem attachment_lines {code : List UInt8} (hcode : code ≠ []) (debugInfo : List UInt8) :
    ∃ rows more : List (List UInt8), rows.flatten = code ∧ (∀ r ∈ rows, r ≠ []) ∧
      (buildAttachment code debugInfo).splitOn 10 =
      linesBefore ++ text "scheme_code:" :: [] :: (rows.map rowLine ++ [] :: text ".globl scheme_code_size" ::
        text "scheme_code_size:" :: (text "    .quad " ++ decimal (code.length - 1)) :: more) := by
  obtain ⟨row, rows, hflat, hne, hlines⟩ := writeBytes_lines code.length hcode (Nat.zero_add _)
  have hquad : 10 ∉ text "    .quad " ++ decimal (code.length - 1) := fun h =>
    (List.mem_append.mp h).elim (fun h => absurd h (by decide)) (not_mem_decimal (by decide))
  refine ⟨row :: rows, (text "\n" ++ debugInfo ++ targetPostamble).splitOn 10, hflat, hne, ?_⟩
  have hsplit : buildAttachment code debugInfo = (targetPreamble ++ text ".globl scheme_code") ++ 10 ::
      (text "scheme_code:" ++ 10 :: ([] ++ 10 :: (text "    .byte " ++ writeBytes code.length 0 code ++ 10 ::
        ([] ++ 10 :: (text ".globl scheme_code_size" ++ 10 :: (text "scheme_code_size:" ++ 10 ::
          ((text "    .quad " ++ decimal (code.length - 1)) ++ 10 :: (text "\n" ++ debugInfo ++ targetPostamble)))))))) := by
    simp [buildAttachment, writeGlobalSymbol, linePrefix, text]
  rw [hsplit, List.splitOn_append_cons_self, List.splitOn_append_cons_self_of_not_mem (by decide),
    List.splitOn_append_cons_self_of_not_mem List.not_mem_nil, hlines _ _ (by decide),
    List.splitOn_append_cons_self_of_not_mem List.not_mem_nil,
    List.splitOn_append_cons_self_of_not_mem (by decide), List.splitOn_append_cons_self_of_not_mem (by decide),
    List.splitOn_append_cons_self_of_not_mem hquad]
  rfl

/-- **The bytes at `scheme_code`** are those of the code. -/
theorem bytesAt_attachment {code : List UInt8} (hcode : code ≠ []) (debugInfo : List UInt8) :
    bytesAt "scheme_code:" (buildAttachment code debugInfo) = some code := by
  obtain ⟨rows, more, hflat, hne, hlines⟩ := attachment_lines hcode debugInfo
  have hbefore : ∀ line ∈ linesBefore, line ≠ text "scheme_code:" := by decide +kernel
  have hsection : linesAt (text "scheme_code:") (buildAttachment code debugInfo) =
      [] :: (rows.map rowLine ++ [[], text ".globl scheme_code_size"]) := by
    have hrows : ∀ line ∈ rows.map rowLine, !isLabel line := fun line hline => by
      obtain ⟨row, -, rfl⟩ := List.mem_map.mp hline
      rw [isLabel_rowLine]
      rfl
    rw [linesAt, hlines, List.dropWhile_append_of_pos fun line hline => decide_eq_true (hbefore line hline),
      List.dropWhile_cons_of_neg (by simp), List.drop_one, List.tail_cons, List.takeWhile_cons_of_pos (by decide),
      List.takeWhile_append_of_pos hrows, List.takeWhile_cons_of_pos (by decide), List.takeWhile_cons_of_pos (by decide),
      List.takeWhile_cons_of_neg (by decide)]
  have hread : ∀ rows : List (List UInt8), (∀ r ∈ rows, r ≠ []) →
      (rows.map rowLine ++ [[], text ".globl scheme_code_size"]).mapM bytesOf = some (rows ++ [[], []]) := by
    intro rows
    induction rows with
    | nil =>
      intro _
      decide +kernel
    | cons row rows ih =>
      intro hne
      obtain ⟨hrow, hrows⟩ := List.forall_mem_cons.mp hne
      rw [List.map_cons, List.cons_append, List.mapM_cons, bytesOf_rowLine hrow, ih hrows]
      rfl
  have hempty : bytesOf [] = some [] := by decide
  rw [bytesAt, hsection, List.mapM_cons, hempty, hread rows hne]
  simp [hflat]

/-- **The number at `scheme_code_size`** is one less than their number. -/
theorem quadAt_attachment {code : List UInt8} (hcode : code ≠ []) (debugInfo : List UInt8) :
    quadAt "scheme_code_size:" (buildAttachment code debugInfo) = some (code.length - 1) := by
  obtain ⟨rows, more, -, -, hlines⟩ := attachment_lines hcode debugInfo
  have hbefore : ∀ line ∈ linesBefore, line ≠ text "scheme_code_size:" := by decide +kernel
  have hrows : ∀ line ∈ rows.map rowLine, line ≠ text "scheme_code_size:" := by
    rintro line hline rfl
    obtain ⟨row, -, hrow⟩ := List.mem_map.mp hline
    exact colon_not_mem_rowLine row (hrow ▸ by decide)
  have hnolabel : isLabel (text "    .quad " ++ decimal (code.length - 1)) = false := decide_eq_false fun h =>
    (List.mem_append.mp (List.mem_of_getLast? h)).elim (fun h => absurd h (by decide)) (not_mem_decimal (by decide))
  have hhead : (linesAt (text "scheme_code_size:") (buildAttachment code debugInfo)).head? =
      some (text "    .quad " ++ decimal (code.length - 1)) := by
    rw [linesAt, hlines, List.dropWhile_append_of_pos fun line hline => decide_eq_true (hbefore line hline),
      List.dropWhile_cons_of_pos (by decide), List.dropWhile_cons_of_pos (by decide),
      List.dropWhile_append_of_pos fun line hline => decide_eq_true (hrows line hline),
      List.dropWhile_cons_of_pos (by decide), List.dropWhile_cons_of_pos (by decide),
      List.dropWhile_cons_of_neg (by simp), List.drop_one, List.tail_cons, List.takeWhile_cons_of_pos (by rw [hnolabel]; rfl)]
    rfl
  have hoperands : operandsOf (text ".quad ") (text "    .quad " ++ decimal (code.length - 1)) =
      some (decimal (code.length - 1)) := by
    have hdrop : (text "    .quad " ++ decimal (code.length - 1)).dropWhile (fun b => b = 32) =
        text ".quad " ++ decimal (code.length - 1) := rfl
    rw [operandsOf]
    simp only [hdrop]
    rw [if_pos (List.prefix_append _ _), List.drop_left]
  rw [quadAt, hhead, Option.bind_some, hoperands, Option.bind_some]
  exact @readNumber_decimal _ [] (by simp)

/-! ## What the two execute

The interpreter executes the whole code, `run_scheme` all but its last byte.  Both fetch in the same way, so
they agree up to the round that asks for that byte. -/

/-- The machine of `run_scheme`. -/
theorem runScheme_attachment {code : List UInt8} (hcode : code ≠ []) (debugInfo : List UInt8) :
    runScheme (buildAttachment code debugInfo) =
      some (startEval 0 (code.length - 1) (loadCode (fun i => code.getD i 0) vmCreate)) := by
  rw [runScheme, bytesAt_attachment hcode, quadAt_attachment hcode]
  rfl

/-- **A compiled attachment**: its bytes are those of the code, and `run_scheme` executes what `vm_eval` of the code
and its length does, exactly if that never executes an instruction at the last byte. -/
theorem attachment_runs_iff {host : Host} (hhost : host.Blind) {code : List UInt8} (hlength : 1 ≤ code.length)
    (debugInfo : List UInt8) :
    bytesAt "scheme_code:" (buildAttachment code debugInfo) = some code ∧
      ∃ vm, runScheme (buildAttachment code debugInfo) = some vm ∧
        ((∀ rounds, executes host rounds vm = executes host rounds (startBytes code vmCreate)) ↔
          ∀ rounds, (some 0, code.length - 1) ∉ executes host rounds (startBytes code vmCreate)) := by
  have hcode : code ≠ [] := List.ne_nil_of_length_pos hlength
  refine ⟨bytesAt_attachment hcode debugInfo, _, runScheme_attachment hcode debugInfo, ?_⟩
  -- the machine of both, but for the length
  let base := startEval 0 0 (loadCode (fun i => code.getD i 0) vmCreate)
  have hsound : Sound True base :=
    Call.sound (.eval 0 rfl Nat.one_pos) (Call.sound (.load vmCreate _) (sound_vmCreate True))
  have hsized : ∀ n, base.resized 0 n = startEval 0 n (loadCode (fun i => code.getD i 0) vmCreate) := fun _ => rfl
  have hiff : ∀ rounds, executes host rounds (base.resized 0 (code.length - 1)) =
      executes host rounds (base.resized 0 code.length) ↔
        ∀ ip, code.length - 1 ≤ ip → (some 0, ip) ∉ executes host rounds (base.resized 0 code.length) := fun _ =>
    executes_resized_iff hhost (Nat.sub_le code.length 1) hsound Nat.one_pos
  refine (forall_congr' hiff).trans (forall_congr' fun rounds => ⟨fun h => h _ (Nat.le_refl _), fun h ip hip hmem => ?_⟩)
  have hlt : ip < code.length := executes_resized_lt hhost hsound Nat.one_pos hmem
  obtain rfl : ip = code.length - 1 := by omega
  exact h hmem

/-- An outside that shows nothing does not look at lengths. -/
theorem bare_blind : Host.bare.Blind where
  closure _ _ _ := rfl
  library _ _ _ := rfl
  debug _ _ _ := rfl
  exports _ _ _ := by rintro exports ⟨⟩
  gcStats _ _ _ := rfl
  rawString _ _ _ := rfl
  staleGet _ _ _ := rfl
  staleSet _ _ _ := rfl

/-- `#t jmp done #f done:`, where the last byte is jumped over. -/
def jumpOver : List UInt8 := [Op.litTrue.byte, Op.jmp.byte, 1, 0, 0, 0, 0, 0, 0, 0, Op.litFalse.byte]

/-- It is executed alike. -/
theorem attachment_runs_iff_jump :
    bytesAt "scheme_code:" (buildAttachment jumpOver []) = some jumpOver ∧
      ∃ vm, runScheme (buildAttachment jumpOver []) = some vm ∧
        ((∀ rounds, executes Host.bare rounds vm = executes Host.bare rounds (startBytes jumpOver vmCreate)) ↔
          ∀ rounds, (some 0, jumpOver.length - 1) ∉ executes Host.bare rounds (startBytes jumpOver vmCreate)) :=
  attachment_runs_iff bare_blind (by decide) []

/-- `1 drop`: `run_scheme` does not come to `drop`. -/
theorem attachment_short :
    ∃ code vm, asmString [(.fixnum 1 : Token ℕ), .op .drop rfl] = some code ∧
      runScheme (buildAttachment code []) = some vm ∧ executes Host.bare 3 vm = [(some 0, 0)] ∧
      executes Host.bare 3 (startBytes code vmCreate) = [(some 0, 0), (some 0, 9)] :=
  ⟨Op.litFixnum.byte :: int64 1 ++ [Op.drop.byte], _, by decide +kernel, runScheme_attachment (List.cons_ne_nil _ _) [],
    by decide +kernel, by decide +kernel⟩

end Insomniac.Runtime

import Insomniac.Asm.Agree
import Insomniac.Asm.Lexer

/-!
# Asm/Debug — where an instruction comes from

    .file "f" 1 1    car    cdr    .file "f" 2 5    cons        text
        │                              │
        ▾                              ▾
     record at 0                    record at 2                 records, by address
                     car    cdr               cons              code

`asm_string` keeps a record for each directive that changes something, `find_source_location` looks an
address up.  The record that should be found is the last one at or before the instruction (`sourceOf`);
the one that is found lies behind it (`find_source_location_iff`).
-/

namespace Insomniac.Asm

/-! ## Records

Addresses and positions of a text go in pairs: a record says that from its address on the code comes from its
position. -/

/-- `debug_state_type`, and `debug_range_type` as well. -/
structure DebugState where
  file : List UInt8
  line : Int64
  column : Int64
  startAddr : ℕ
  deriving DecidableEq

/-- `debug_info_type`: the names of the files, and the records from `head` to `tail`. -/
structure DebugInfo where
  files : List (List UInt8) := []
  records : List DebugState := []

/-- `push_debug`. -/
def DebugInfo.pushDebug (debug : DebugInfo) (file : List UInt8) (line column : Int64) (addr : ℕ) : DebugInfo :=
  if debug.records.getLast?.any fun tail => tail.file = file ∧ tail.line = line ∧ tail.column = column then debug
  else { debug with records := debug.records ++ [{ file, line, column, startAddr := addr }] }

/-- `get_debug_num`, which is an `int`. -/
def getDebugNum (str : List UInt8) : Int64 := (strtoq str).toInt32.toInt64

/-- `add_debug_file`, behind the tokens.  When the name is looked up the scanner has moved on, and the quote
that ends it has become a part of it. -/
def DebugInfo.addDebugFile (debug : DebugInfo) (name line column : List UInt8) (addr : ℕ) : DebugInfo :=
  let filename := name ++ [34]
  if filename ∈ debug.files then debug.pushDebug filename (getDebugNum line) (getDebugNum column) addr
  else
    let value := filename.take (filename.length - 1)
    { debug with files := value :: debug.files }.pushDebug value (getDebugNum line) (getDebugNum column) addr

/-! ## The assembler

With debugging on, the assembler reads items, tokens and directives alike.  Its code is that of the tokens
alone, so what has been proved of `asm_string` without directives goes on to hold. -/

/-- What `asm_string` meets: a token, or a `.file` with a name and the texts of two numbers. -/
inductive Item (L : Type)
  | token (t : Token L)
  | file (name : List UInt8) (named : name ≠ []) (line column : List UInt8)

/-- The tokens. -/
def tokensOf {L : Type} (items : List (Item L)) : List (Token L) :=
  items.filterMap fun
    | .token t => some t
    | .file .. => none

/-- The state of `asm_string`, with debugging information. -/
structure DebugAssembler (L : Type) where
  asm : Assembler L
  debug : DebugInfo

variable {L : Type} [DecidableEq L]

/-- One round of the loop of `asm_string`. -/
def DebugAssembler.item (s : DebugAssembler L) : Item L → DebugAssembler L
  | .token t => { s with asm := s.asm.token t }
  | .file name _ line column => { s with debug := s.debug.addDebugFile name line column s.asm.buf.length }

/-- All of the loop. -/
def DebugAssembler.run (items : List (Item L)) : DebugAssembler L := items.foldl .item ⟨.init, {}⟩

/-- `asm_string`, asked for debugging information. -/
def asmStringDebug (items : List (Item L)) : Option (List UInt8 × List DebugState) :=
  let s := DebugAssembler.run items
  (rewriteJumps s.asm.labels s.asm.buf s.asm.jumpList).map fun code => (code, s.debug.records)

omit [DecidableEq L] in
/-- The tokens of two sequences of items. -/
@[simp] theorem tokensOf_append (items items' : List (Item L)) :
    tokensOf (items ++ items') = tokensOf items ++ tokensOf items' := List.filterMap_append

namespace DebugAssembler

/-- The last item is assembled last. -/
theorem run_append (items : List (Item L)) (i : Item L) : run (items ++ [i]) = (run items).item i := by
  simp [run]

/-- **Directives leave the code alone.** -/
theorem run_asm (items : List (Item L)) : (run items).asm = Assembler.run (tokensOf items) := by
  induction items using List.reverseRecOn with
  | nil => rfl
  | append_singleton items i ih =>
    rw [run_append, tokensOf_append]
    cases i with
    | token t =>
      change (run items).asm.token t = Assembler.run (tokensOf items ++ [t])
      rw [ih, Assembler.run_append]
    | file name named line column =>
      change (run items).asm = Assembler.run (tokensOf items ++ [])
      rw [ih, List.append_nil]

end DebugAssembler

/-- **Directives make no code**: the code is that of the tokens among the items. -/
theorem asmStringDebug_eq (items : List (Item L)) : asmStringDebug items =
    (asmString (tokensOf items)).map fun code => (code, (DebugAssembler.run items).debug.records) := by
  rw [asmStringDebug, asmString, DebugAssembler.run_asm]

/-! ## The records of a program

`add_debug` makes a record only where the position changes, and the address of a record is the length of the
code so far; so the addresses never go down. -/

/-- The records that some items leave. -/
def recordsOf (items : List (Item L)) : List DebugState := (DebugAssembler.run items).debug.records

/-- The address behind some items. -/
def addrOf (items : List (Item L)) : ℕ := codeSize (tokensOf items)

/-- `push_debug` adds at most one record, and the last one is then that of the place. -/
theorem pushDebug_records (debug : DebugInfo) (file : List UInt8) (line column : Int64) (addr : ℕ) :
    ((debug.pushDebug file line column addr).records = debug.records ∨
      (debug.pushDebug file line column addr).records = debug.records ++ [{ file, line, column, startAddr := addr }]) ∧
    ∃ r, (debug.pushDebug file line column addr).records.getLast? = some r ∧
      r.file = file ∧ r.line = line ∧ r.column = column := by
  unfold DebugInfo.pushDebug
  split
  · next hsame =>
    refine ⟨Or.inl rfl, ?_⟩
    cases htail : debug.records.getLast? with
    | none =>
      rw [htail] at hsame
      cases hsame
    | some tail =>
      rw [htail] at hsame
      exact ⟨tail, rfl, of_decide_eq_true hsame⟩
  · exact ⟨Or.inr rfl, _, List.getLast?_concat, rfl, rfl, rfl⟩

/-- **One item** adds at most one record, at the address that has been reached. -/
theorem recordsOf_concat (items : List (Item L)) (i : Item L) : recordsOf (items ++ [i]) = recordsOf items ∨
    ∃ r, recordsOf (items ++ [i]) = recordsOf items ++ [r] ∧ r.startAddr = addrOf items := by
  rw [recordsOf, DebugAssembler.run_append]
  cases i with
  | token t => exact Or.inl rfl
  | file name named line column =>
    have haddr : (DebugAssembler.run items).asm.buf.length = addrOf items := by
      rw [DebugAssembler.run_asm, Assembler.run_buf_length, addrOf]
    simp only [DebugAssembler.item, DebugInfo.addDebugFile, haddr]
    split
    · exact (pushDebug_records ..).1.imp_right fun h => ⟨_, h, rfl⟩
    · exact (pushDebug_records ..).1.imp_right fun h => ⟨_, h, rfl⟩

/-- **What the items behind some others add**: records in order, between the two addresses. -/
theorem recordsOf_append (pre post : List (Item L)) : ∃ later, recordsOf (pre ++ post) = recordsOf pre ++ later ∧
    later.Pairwise (fun r r' => r.startAddr ≤ r'.startAddr) ∧
      ∀ r ∈ later, addrOf pre ≤ r.startAddr ∧ r.startAddr ≤ addrOf (pre ++ post) := by
  induction post using List.reverseRecOn with
  | nil => exact ⟨[], by simp, .nil, by simp⟩
  | append_singleton post i ih =>
    obtain ⟨later, hlater, hsorted, hbounds⟩ := ih
    have hgrows : addrOf (pre ++ post) ≤ addrOf (pre ++ (post ++ [i])) := by
      simp only [addrOf, tokensOf_append, codeSize_append]
      omega
    have hstart : addrOf pre ≤ addrOf (pre ++ post) := by
      simp only [addrOf, tokensOf_append, codeSize_append]
      omega
    have hbounds' : ∀ r ∈ later, addrOf pre ≤ r.startAddr ∧ r.startAddr ≤ addrOf (pre ++ (post ++ [i])) :=
      fun r hr => ⟨(hbounds r hr).1, (hbounds r hr).2.trans hgrows⟩
    rcases recordsOf_concat (pre ++ post) i with hsame | ⟨r, hr, haddr⟩
    · rw [← List.append_assoc, hsame]
      exact ⟨later, hlater, hsorted, by rwa [← List.append_assoc] at hbounds'⟩
    · refine ⟨later ++ [r], ?_, List.pairwise_append.mpr ⟨hsorted, List.pairwise_singleton .., ?_⟩, ?_⟩
      · rw [← List.append_assoc, hr, hlater, List.append_assoc]
      · intro r' hr' s hs
        obtain rfl := List.mem_singleton.mp hs
        exact haddr ▸ (hbounds r' hr').2
      · intro r' hr'
        rcases List.mem_append.mp hr' with hr' | hr'
        · exact hbounds' r' hr'
        · obtain rfl := List.mem_singleton.mp hr'
          exact ⟨haddr ▸ hstart, haddr ▸ hgrows⟩

/-- **The records of a program are sorted.** -/
theorem recordsOf_sorted (items : List (Item L)) :
    (recordsOf items).Pairwise fun r r' => r.startAddr ≤ r'.startAddr := by
  obtain ⟨later, hlater, hsorted, -⟩ := recordsOf_append [] items
  rw [List.nil_append] at hlater
  rw [hlater]
  exact hsorted

/-! ## The lookup

The loop compares with the address behind the instruction and stops at the first record that is not before it. -/

/-- What `find_source_location` prints. -/
inductive Report
  /-- `No debugging info found.` -/
  | noDebuggingInfo
  /-- `[Preamble code.]` -/
  | preamble
  /-- `At File: …, Line: … Col: … Addr: … Real Addr: …` -/
  | location (record : DebugState) (realAddr : ℕ)
  /-- `Uknown location!` -/
  | unknown
  deriving DecidableEq

/-- `find_source_location`. -/
def findSourceLocation (debug : List DebugState) (ip : ℕ) : Report :=
  match debug with
  | [] => .noDebuggingInfo
  | first :: _ =>
    if ip < first.startAddr then .preamble
    else
      match debug.dropWhile (·.startAddr < ip) with
      | record :: _ => .location record ip
      | [] => .unknown

/-- **What should be printed** for an instruction at an address, with the pointer behind it: the last record that
does not lie behind the instruction. -/
def sourceOf (debug : List DebugState) (addr ip : ℕ) : Report :=
  match (debug.filter (·.startAddr ≤ addr)).getLast? with
  | some record => .location record ip
  | none => .preamble

/-- The record that is found does not lie before the pointer. -/
theorem le_of_findSourceLocation {debug : List DebugState} {ip realAddr : ℕ} {record : DebugState}
    (h : findSourceLocation debug ip = .location record realAddr) : ip ≤ record.startAddr := by
  cases debug with
  | nil => cases h
  | cons first rest =>
    simp only [findSourceLocation] at h
    split at h
    · cases h
    · split at h
      · next hdrop =>
        cases h
        have hne : (first :: rest).dropWhile (fun r => r.startAddr < ip) ≠ [] := hdrop ▸ List.cons_ne_nil _ _
        have hhead := List.head_dropWhile_not (fun r : DebugState => r.startAddr < ip) hne
        simp only [hdrop, List.head_cons, decide_eq_false_iff_not] at hhead
        exact Nat.le_of_not_lt hhead
      · cases h

/-- The record that should be found does not lie behind the instruction. -/
theorem le_of_sourceOf {debug : List DebugState} {addr ip realAddr : ℕ} {record : DebugState}
    (h : sourceOf debug addr ip = .location record realAddr) : record.startAddr ≤ addr := by
  unfold sourceOf at h
  split at h
  · next hlast =>
    cases h
    exact of_decide_eq_true (List.mem_filter.mp (List.mem_of_getLast? hlast)).2
  · cases h

/-- **The right record is found** exactly when the first one lies behind the pointer, and it is none. -/
theorem findSourceLocation_iff {debug : List DebugState} {addr ip : ℕ} (hip : addr < ip) (hne : debug ≠ [])
    (hsorted : debug.Pairwise fun r r' => r.startAddr ≤ r'.startAddr) :
    findSourceLocation debug ip = sourceOf debug addr ip ↔ ∀ first ∈ debug.head?, ip < first.startAddr := by
  obtain ⟨first, rest, rfl⟩ := List.exists_cons_of_ne_nil hne
  constructor
  · rintro h _ ⟨⟩
    by_contra hlate
    cases hfound : findSourceLocation (first :: rest) ip with
    | location record realAddr =>
      have hle := le_of_findSourceLocation hfound
      have hle' := le_of_sourceOf (h.symm.trans hfound)
      omega
    | preamble =>
      simp only [findSourceLocation, if_neg hlate] at hfound
      split at hfound <;> cases hfound
    | noDebuggingInfo | unknown =>
      rw [hfound, sourceOf] at h
      split at h <;> cases h
  · intro h
    have hfirst : ip < first.startAddr := h first rfl
    have hnone : (first :: rest).filter (·.startAddr ≤ addr) = [] := List.filter_eq_nil_iff.mpr fun r hr => by
      have hle : first.startAddr ≤ r.startAddr := by
        rcases List.mem_cons.mp hr with rfl | hr
        · exact Nat.le_refl _
        · exact (List.pairwise_cons.mp hsorted).1 r hr
      simp only [decide_eq_true_eq]
      omega
    rw [findSourceLocation, if_pos hfirst, sourceOf, hnone]
    rfl

/-! ## Every instruction

Put together: which record the lookup finds for the instruction at an address, and which one it should find. -/

/-- **The source of an instruction** is the last record of what stands before it. -/
theorem sourceOf_pre {items pre post : List (Item L)} {t : Token L} (hitems : items = pre ++ .token t :: post)
    (ht : t.isInstr = true) (ip : ℕ) : sourceOf (recordsOf items) (addrOf pre) ip =
      match (recordsOf pre).getLast? with
      | some record => .location record ip
      | none => .preamble := by
  obtain ⟨before, hbefore, -, hle⟩ := recordsOf_append [] pre
  obtain ⟨later, hlater, -, hge⟩ := recordsOf_append (pre ++ [.token t]) post
  have hnone : recordsOf (pre ++ [.token t]) = recordsOf pre := by
    rw [recordsOf, DebugAssembler.run_append]
    rfl
  have hsize : 0 < t.size := by cases t <;> simp [Token.isInstr, Token.size] at ht ⊢
  obtain rfl : before = recordsOf pre := hbefore.symm
  rw [List.nil_append] at hle
  have hkeep : (recordsOf pre).filter (·.startAddr ≤ addrOf pre) = recordsOf pre :=
    List.filter_eq_self.mpr fun r hr => decide_eq_true (hle r hr).2
  have hdrop : later.filter (·.startAddr ≤ addrOf pre) = [] := List.filter_eq_nil_iff.mpr fun r hr => by
    have haddr : addrOf (pre ++ [.token t]) = addrOf pre + t.size := by simp [addrOf, tokensOf]
    have hafter := (hge r hr).1
    simp only [decide_eq_true_eq]
    omega
  rw [sourceOf, hitems, ← List.singleton_append, ← List.append_assoc, hlater, hnone, List.filter_append, hkeep, hdrop,
    List.append_nil]

/-- **Where exceptions are reported.**  The records of a program are sorted, and the source of an instruction is the
last record that the directives before it have left, or the preamble if there is none.  The instruction is reported
there exactly if the first record lies behind the pointer that has gone past the instruction. -/
theorem source_location_iff {items pre post : List (Item L)} {t : Token L} {code : List UInt8}
    {debug : List DebugState} (hasm : asmStringDebug items = some (code, debug))
    (hfile : ∃ name named line column, Item.file name named line column ∈ items)
    (hitems : items = pre ++ .token t :: post) (ht : t.isInstr = true) :
    debug.Pairwise (fun r r' => r.startAddr ≤ r'.startAddr) ∧
      (∀ ip, sourceOf debug (addrOf pre) ip = match (recordsOf pre).getLast? with
        | some record => .location record ip
        | none => .preamble) ∧
      (findSourceLocation debug (addrOf pre + t.size) = sourceOf debug (addrOf pre) (addrOf pre + t.size) ↔
        ∀ first ∈ debug.head?, addrOf pre + t.size < first.startAddr) := by
  have hdebug : recordsOf items = debug := by
    rw [asmStringDebug_eq] at hasm
    obtain ⟨code', -, hcode⟩ := Option.map_eq_some_iff.mp hasm
    exact (Prod.mk.inj hcode).2
  have hsize : 0 < t.size := by cases t <;> simp [Token.isInstr, Token.size] at ht ⊢
  subst hdebug
  have hsorted := recordsOf_sorted items
  refine ⟨hsorted, sourceOf_pre hitems ht, findSourceLocation_iff (by omega) ?_ hsorted⟩
  obtain ⟨name, named, line, column, hmem⟩ := hfile
  obtain ⟨before, after, hsplit⟩ := List.append_of_mem hmem
  obtain ⟨later, hlater, -⟩ := recordsOf_append (before ++ [.file name named line column]) after
  have hlast : recordsOf (before ++ [.file name named line column]) ≠ [] := by
    rw [recordsOf, DebugAssembler.run_append]
    intro hnil
    simp only [DebugAssembler.item, DebugInfo.addDebugFile] at hnil
    split at hnil
    all_goals
      obtain ⟨r, hr, -⟩ := (pushDebug_records ..).2
      rw [hnil] at hr
      cases hr
  rw [hsplit, ← List.singleton_append, ← List.append_assoc, hlater]
  exact fun hnil => hlast (List.append_eq_nil_iff.mp hnil).1

/-- `nop nop .file "f" 1 1 nop`. -/
def lateDirective : List (Item ℕ) :=
  [.token (.op .nop rfl), .token (.op .nop rfl), .file [102] (by decide) [49] [49], .token (.op .nop rfl)]

/-- The first `nop` is reported right, as preamble. -/
theorem source_location_iff_first :
    asmStringDebug lateDirective = some ([0, 0, 0], [⟨[102], 1, 1, 2⟩]) ∧
      [(⟨[102], 1, 1, 2⟩ : DebugState)].Pairwise (fun r r' => r.startAddr ≤ r'.startAddr) ∧
        (∀ ip, sourceOf [⟨[102], 1, 1, 2⟩] 0 ip = .preamble) ∧
        (findSourceLocation [⟨[102], 1, 1, 2⟩] 1 = sourceOf [⟨[102], 1, 1, 2⟩] 0 1 ↔
          ∀ first ∈ [(⟨[102], 1, 1, 2⟩ : DebugState)].head?, 1 < first.startAddr) :=
  have hasm : asmStringDebug lateDirective = some ([0, 0, 0], [⟨[102], 1, 1, 2⟩]) := by decide +kernel
  ⟨hasm, @source_location_iff ℕ _ lateDirective [] (lateDirective.drop 1) (.op .nop rfl) _ _ hasm
    ⟨[102], by decide, [49], [49], by simp [lateDirective]⟩ rfl rfl⟩

/-- `.file "f" 1 1 car .file "f" 2 5 cons`: `car` is reported on the second line, and `cons` nowhere. -/
theorem source_location_wrong :
    let items : List (Item ℕ) := [.file [102] (by decide) [49] [49], .token (.op .car rfl),
      .file [102] (by decide) [50] [53], .token (.op .cons rfl)]
    asmStringDebug items = some ([10, 9], [⟨[102], 1, 1, 0⟩, ⟨[102], 2, 5, 1⟩]) ∧
      sourceOf (recordsOf items) 0 1 = .location ⟨[102], 1, 1, 0⟩ 1 ∧
      findSourceLocation (recordsOf items) 1 = .location ⟨[102], 2, 5, 1⟩ 1 ∧
      sourceOf (recordsOf items) 1 2 = .location ⟨[102], 2, 5, 1⟩ 2 ∧
      findSourceLocation (recordsOf items) 2 = .unknown := by
  decide +kernel

end Insomniac.Asm

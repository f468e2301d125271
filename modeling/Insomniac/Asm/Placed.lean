import Insomniac.Asm.Agree

/-!
# Asm/Placed — code in its place

    addr ──▸ token ──▸ token ──▸ … ──▸ addr + codeSize

Some tokens are `Placed` at an address when their encodings are there and their labels lead to where
they stand.  The tokens of a whole program are placed at 0 (`asm_string_placed`), and what is placed
falls apart at any token (`placed_append`), so a part of a program can be followed without the rest.
-/

open Bytes

namespace Insomniac.Asm

variable {L : Type}

/-- The labels that some tokens define, in order. -/
def definedLabels (tokens : List (Token L)) : List L :=
  tokens.filterMap fun
    | .label l => some l
    | _ => none

/-- A label is defined where a token defines it. -/
theorem mem_definedLabels {l : L} {tokens : List (Token L)} :
    l ∈ definedLabels tokens ↔ Token.label l ∈ tokens := by
  simp only [definedLabels, List.mem_filterMap]
  constructor
  · rintro ⟨t, ht, hl⟩
    cases t <;> cases hl
    exact ht
  · exact fun h => ⟨_, h, rfl⟩

/-- The labels of two sequences of tokens. -/
@[simp] theorem definedLabels_append (ts ts' : List (Token L)) :
    definedLabels (ts ++ ts') = definedLabels ts ++ definedLabels ts' := List.filterMap_append

/-- **Some tokens at an address.**  A label leads to where it stands, unless a later definition of it
wins. -/
def Placed (labels : L → Option ℕ) (code : Code) : (addr : ℕ) → List (Token L) → Prop
  | _, [] => True
  | addr, t :: ts => code.Spells addr (t.encode labels addr) ∧ addr + t.size < 2 ^ 63 ∧
      (∀ l, t = .label l → .label l ∉ ts → labels l = some addr) ∧ Placed labels code (addr + t.size) ts

section

variable {labels : L → Option ℕ} {code : Code} {addr : ℕ} {t : Token L} {ts ts' : List (Token L)}

/-- What is behind the first token is placed behind it. -/
theorem Placed.rest (h : Placed labels code addr (t :: ts)) : Placed labels code (addr + t.size) ts :=
  h.2.2.2

/-- The instruction of the first token is at the address. -/
theorem Placed.decode (h : Placed labels code addr (t :: ts)) {i : Instr}
    (hi : t.instr? labels addr = some i) : decodeAt code addr = some (i, addr + t.size) :=
  decodeAt_encode (by have := h.2.1; omega) hi h.1

/-- What comes after some tokens is placed behind their code. -/
theorem Placed.append_right : ∀ {ts : List (Token L)} {addr : ℕ}, Placed labels code addr (ts ++ ts') →
    Placed labels code (addr + codeSize ts) ts'
  | [], _, h => h
  | t :: ts, addr, h => by
      rw [codeSize_cons, ← Nat.add_assoc]
      have hrest : Placed labels code (addr + t.size) (ts ++ ts') := h.rest
      exact hrest.append_right

end

section

variable [DecidableEq L]

/-- The tokens of a program are placed from any of them on. -/
theorem placed_of_final (tokens : List (Token L)) {code : Code} (hsize : codeSize tokens < 2 ^ 63) :
    ∀ {pre ts : List (Token L)}, tokens = pre ++ ts →
      code.Spells (codeSize pre) (final (Assembler.run tokens).labels (codeSize pre) ts) →
      Placed (Assembler.run tokens).labels code (codeSize pre) ts
  | _, [], _, _ => trivial
  | pre, t :: ts, htokens, h => by
      obtain ⟨ht, hts⟩ := Code.Spells.append_iff.mp h
      have hsum : codeSize pre + t.size = codeSize (pre ++ [t]) := by simp
      refine ⟨ht, ?_, ?_, ?_⟩
      · rw [htokens, codeSize_append, codeSize_cons] at hsize
        omega
      · rintro l rfl hlast
        exact (Assembler.run_labels tokens l _).mpr ⟨pre, ts, htokens, hlast, rfl⟩
      · rw [Token.encode_length] at hts
        rw [hsum] at hts ⊢
        exact placed_of_final tokens hsize (by rw [htokens]; simp) hts

omit [DecidableEq L] in
/-- Where the displacements could be written, every jump has its label. -/
theorem labels_of_rewriteJumps {labels : L → Option ℕ} {bytes : List UInt8} : ∀ {jumps : List (ℕ × L)}
    {code : List UInt8}, rewriteJumps labels code jumps = some bytes → ∀ addr l, (addr, l) ∈ jumps → labels l ≠ none
  | (addr, l) :: jumps, code, h, addr', l', hmem => by
      rw [rewriteJumps] at h
      split at h
      · cases h
      · next labelAddr hl =>
        rcases List.mem_cons.mp hmem with heq | hmem
        · cases heq
          rw [hl]
          exact Option.some_ne_none labelAddr
        · exact labels_of_rewriteJumps h addr' l' hmem

/-- The assembler notes every jump. -/
theorem mem_jumpList {o : Op} {takes : o.operandKind = .target} {l : L} {tokens : List (Token L)}
    (h : Token.jump o takes l ∈ tokens) : ∃ addr, (addr, l) ∈ (Assembler.run tokens).jumpList := by
  induction tokens using List.reverseRecOn with
  | nil => cases h
  | append_singleton ts t ih =>
    rw [Assembler.run_append]
    rcases List.mem_append.mp h with h | h
    · obtain ⟨addr, hmem⟩ := ih h
      refine ⟨addr, ?_⟩
      cases t with
      | jump => exact .tail _ hmem
      | _ => exact hmem
    · obtain rfl := List.mem_singleton.mp h
      exact ⟨_, .head _⟩

/-- **A program that assembles defines the labels of its jumps.** -/
theorem label_mem_of_asmString {tokens : List (Token L)} {bytes : List UInt8} (h : asmString tokens = some bytes)
    (o : Op) (takes : o.operandKind = .target) (l : L) (hjump : Token.jump o takes l ∈ tokens) :
    Token.label l ∈ tokens := by
  obtain ⟨addr, hmem⟩ := mem_jumpList hjump
  obtain ⟨a, ha⟩ := Option.ne_none_iff_exists'.mp (labels_of_rewriteJumps h addr l hmem)
  obtain ⟨pre, post, rfl, -, -⟩ := (Assembler.run_labels tokens l a).mp ha
  simp

/-- **The tokens of a program are placed at 0** in any memory that holds its code. -/
theorem asm_string_placed {tokens : List (Token L)} {bytes : List UInt8} {code : Code}
    (hsize : codeSize tokens < 2 ^ 63)
    (hdef : ∀ o h l, Token.jump o h l ∈ tokens → Token.label l ∈ tokens)
    (hbytes : asmString tokens = some bytes) (hcode : code.Spells 0 bytes) :
    bytes.length = codeSize tokens ∧ Placed (Assembler.run tokens).labels code 0 tokens := by
  have hdef' : ∀ o h l, Token.jump o h l ∈ tokens → (Assembler.run tokens).labels l ≠ none := by
    intro o h l hmem
    obtain ⟨_, _, -, -, hl⟩ := last_definition (hdef o h l hmem)
    simp [hl]
  have hrun := rewriteJumps_run _ tokens hdef' []
  rw [List.append_nil, List.append_nil] at hrun
  obtain rfl := Option.some.inj (hrun.symm.trans hbytes)
  exact ⟨final_length _ _ _, placed_of_final tokens hsize (List.nil_append _).symm hcode⟩

end

end Insomniac.Asm

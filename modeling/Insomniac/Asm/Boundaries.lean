import Insomniac.Asm.Placed

/-!
# Asm/Boundaries — where the instructions of some code begin

    0 ──decode──▸ · ──decode──▸ · ──decode──▸ …

An address is entered when decoding one instruction after another, from 0 on, comes by.  In the code of
some tokens these are the addresses of the tokens (`Entered.token`), and jumps lead to such ones again
(`entered_target`), whatever lies behind the code.
-/

open Bytes

namespace Insomniac.Asm

/-- **An address that is come by** when some code is decoded from 0 on. -/
inductive Entered (code : Code) : ℕ → Prop
  | zero : Entered code 0
  | next {ip next : ℕ} {i : Instr} : Entered code ip → decodeAt code ip = some (i, next) → Entered code next

/-- An instruction takes room. -/
theorem lt_of_decodeAt {code : Code} {ip next : ℕ} {i : Instr} (h : decodeAt code ip = some (i, next)) : ip < next := by
  obtain ⟨o, -, h⟩ := Option.bind_eq_some_iff.mp h
  cases hkind : o.operandKind with
  | string =>
    rw [hkind] at h
    obtain ⟨⟨str, next'⟩, hparse, hend⟩ := Option.bind_eq_some_iff.mp h
    cases hend
    unfold parseString at hparse
    dsimp only at hparse
    split at hparse
    · cases hparse
    · cases hparse
      omega
  | _ =>
    rw [hkind] at h
    cases h
    omega

/-- What is decoded has the operation that the first byte says. -/
theorem ofByte?_of_decodeAt {code : Code} {ip next : ℕ} {i : Instr} (h : decodeAt code ip = some (i, next)) :
    Op.ofByte? (code ip) = some i.op := by
  obtain ⟨o, ho, h⟩ := Option.bind_eq_some_iff.mp h
  rw [ho]
  cases hkind : o.operandKind with
  | string =>
    rw [hkind] at h
    obtain ⟨_, -, hend⟩ := Option.bind_eq_some_iff.mp h
    cases hend
    rfl
  | _ =>
    rw [hkind] at h
    cases h
    rfl

/-- Bytes are where they were put. -/
theorem spells_getD (bytes : List UInt8) : Code.Spells (fun i => bytes.getD i 0) 0 bytes := by
  intro i hi
  change bytes.getD (0 + i) 0 = bytes[i]
  rw [Nat.zero_add, List.getD_eq_getElem _ _ hi]

section

variable {L : Type}

/-- The first instruction of some tokens, behind the labels in front of it. -/
theorem exists_instr (labels : L → Option ℕ) : ∀ (ts : List (Token L)) (addr : ℕ), codeSize ts = 0 ∨
    ∃ pre t post i, ts = pre ++ t :: post ∧ codeSize pre = 0 ∧ t.instr? labels addr = some i
  | [], _ => .inl rfl
  | t :: ts, addr => by
      cases hi : t.instr? labels addr with
      | some i => exact .inr ⟨[], t, ts, i, rfl, rfl, hi⟩
      | none =>
        have hzero : t.size = 0 := by cases t <;> simp [Token.instr?, Token.size] at hi ⊢
        rcases exists_instr labels ts addr with hts | ⟨pre, t', post, i, rfl, hpre, hi'⟩
        · exact .inl (by rw [codeSize_cons, hzero, hts])
        · exact .inr ⟨t :: pre, t', post, i, rfl, by rw [codeSize_cons, hzero, hpre], hi'⟩

variable [DecidableEq L] {tokens : List (Token L)} {bytes : List UInt8} {code : Code}

/-- The code of some tokens is as long as they say. -/
theorem length_of_asmString (h : asmString tokens = some bytes) : bytes.length = codeSize tokens := by
  have hdef : ∀ o takes l, Token.jump o takes l ∈ tokens → (Assembler.run tokens).labels l ≠ none := by
    intro o takes l hmem
    obtain ⟨_, _, -, -, hl⟩ := last_definition (label_mem_of_asmString h o takes l hmem)
    rw [hl]
    exact Option.some_ne_none _
  have hrun := rewriteJumps_run _ tokens hdef []
  rw [List.append_nil, List.append_nil] at hrun
  obtain rfl := Option.some.inj (hrun.symm.trans h)
  exact final_length _ _ _

variable (htokens : asmString tokens = some bytes) (hsize : bytes.length < 2 ^ 63) (hcode : code.Spells 0 bytes)

include htokens hsize hcode

/-- Assembled code has its tokens in place, whatever memory holds it. -/
theorem placed_of_asmString : Placed (Assembler.run tokens).labels code 0 tokens := by
  rw [length_of_asmString htokens] at hsize
  exact (asm_string_placed hsize (label_mem_of_asmString htokens) htokens hcode).2

/-- **The instruction of a token** is decoded where it begins. -/
theorem decodeAt_token {pre post : List (Token L)} {t : Token L} {i : Instr} (hsplit : tokens = pre ++ t :: post)
    (hi : t.instr? (Assembler.run tokens).labels (codeSize pre) = some i) :
    decodeAt code (codeSize pre) = some (i, codeSize pre + t.size) := by
  have hplaced := placed_of_asmString htokens hsize hcode
  generalize (Assembler.run tokens).labels = labels at hplaced hi
  rw [hsplit] at hplaced
  have hat := hplaced.append_right
  rw [Nat.zero_add] at hat
  exact hat.decode hi

/-- **Tokens begin at addresses that are entered.** -/
theorem entered_token {pre post : List (Token L)} (hsplit : tokens = pre ++ post) : Entered code (codeSize pre) := by
  induction pre using List.reverseRecOn generalizing post with
  | nil => exact .zero
  | append_singleton pre t ih =>
    rw [List.append_assoc] at hsplit
    have hpre := ih hsplit
    cases hi : t.instr? (Assembler.run tokens).labels (codeSize pre) with
    | some i =>
      have hdecode := decodeAt_token htokens hsize hcode hsplit hi
      rw [codeSize_append, codeSize_cons, codeSize_nil, Nat.add_zero]
      exact hpre.next hdecode
    | none =>
      have hzero : t.size = 0 := by cases t <;> simp [Token.instr?, Token.size] at hi ⊢
      rw [codeSize_append, codeSize_cons, codeSize_nil, hzero, Nat.add_zero]
      exact hpre

/-- **An address that is entered** is in front of some tokens, or not in the code. -/
theorem Entered.split {ip : ℕ} (h : Entered code ip) :
    (∃ pre post, tokens = pre ++ post ∧ codeSize pre = ip) ∨ bytes.length ≤ ip := by
  have hlength := length_of_asmString htokens
  induction h with
  | zero => exact .inl ⟨[], tokens, rfl, rfl⟩
  | @next ip next i hip hdecode ih =>
    have hlt := lt_of_decodeAt hdecode
    rcases ih with ⟨pre, post, hsplit, rfl⟩ | hle
    · rcases exists_instr (Assembler.run tokens).labels post (codeSize pre) with hnone |
        ⟨pre', t, post', i', rfl, hpre', hi'⟩
      · have hsum : codeSize tokens = codeSize pre + codeSize post := by rw [hsplit, codeSize_append]
        exact .inr (by omega)
      · have hat : codeSize (pre ++ pre') = codeSize pre := by rw [codeSize_append, hpre', Nat.add_zero]
        rw [← List.append_assoc] at hsplit
        rw [← hat] at hi' hdecode
        obtain ⟨-, rfl⟩ := Prod.mk.inj (Option.some.inj
          ((decodeAt_token htokens hsize hcode hsplit hi').symm.trans hdecode))
        refine .inl ⟨pre ++ pre' ++ [t], post', by rw [hsplit, List.append_assoc _ [t], List.singleton_append], ?_⟩
        rw [codeSize_append, codeSize_cons, codeSize_nil, Nat.add_zero]
    · exact .inr (by omega)

/-- **An address inside of the code that is entered** is that of an instruction that was written. -/
theorem Entered.token {ip : ℕ} (h : Entered code ip) (hlt : ip < bytes.length) : ∃ pre t post i,
    tokens = pre ++ t :: post ∧ codeSize pre = ip ∧ t.instr? (Assembler.run tokens).labels ip = some i := by
  rcases h.split htokens hsize hcode with ⟨pre, post, hsplit, rfl⟩ | hle
  · rcases exists_instr (Assembler.run tokens).labels post (codeSize pre) with hnone | ⟨pre', t, post', i, rfl, hpre', hi⟩
    · have hlength := length_of_asmString htokens
      have hsum : codeSize tokens = codeSize pre + codeSize post := by rw [hsplit, codeSize_append]
      omega
    · exact ⟨pre ++ pre', t, post', i, by rw [hsplit, List.append_assoc], by rw [codeSize_append, hpre', Nat.add_zero],
        hi⟩
  · omega

/-- **A jump leads to an address that is entered.** -/
theorem entered_target {pre post : List (Token L)} {t : Token L} {o : Op} {d : Int64}
    (hsplit : tokens = pre ++ t :: post) (hkind : o.operandKind = .target)
    (hi : t.instr? (Assembler.run tokens).labels (codeSize pre) = some ⟨o, .int d⟩) :
    Entered code (jumpTo (codeSize pre + 9) d) := by
  have hlength := length_of_asmString htokens
  cases t with
  | jump o' takes l =>
    cases hi
    have hmem : Token.jump o takes l ∈ tokens := by
      rw [hsplit]
      simp
    obtain ⟨pre', post', hsplit', -, hl⟩ := last_definition (label_mem_of_asmString htokens o takes l hmem)
    have hpre' : codeSize pre' ≤ codeSize tokens := by
      rw [hsplit', codeSize_append]
      omega
    have hpre : codeSize pre + 9 ≤ codeSize tokens := by
      rw [hsplit, codeSize_append, codeSize_cons, Token.size]
      omega
    have hjump : jumpTo (codeSize pre + 1 + 8) (displacement (codeSize pre') (codeSize pre + 1)) = codeSize pre' :=
      jumpTo_displacement (by omega) (by omega)
    rw [hl, Option.getD_some, hjump]
    exact entered_token htokens hsize hcode hsplit'
  | _ => cases hi <;> cases hkind

end

end Insomniac.Asm

import Insomniac.Abstract.Code
import Insomniac.Compile.Emit

/-!
# Compile/Sits — emitted code in its place

    a ──▸ t ──▸ a' ──▸ t' ──▸ … ──▸ b          Sits p a [t, t', …] b

What is emitted is followed from an address to an address.  Code sits there when its bytes do and all of
its labels lead to where they stand; such code falls apart at any token (`sits_append`), and so do the
runs through it.  The rules are one for each kind of token.
-/

open Insomniac.Asm Insomniac.Vm Insomniac.Abstract Insomniac.Lib

namespace Insomniac.Compile

/-- An assembled program. -/
structure Program where
  labels : List UInt8 → Option ℕ
  code : Code
  length : ℕ

/-- **Some tokens are in a program**, from `a` on and up to `b`. -/
def Sits (p : Program) : (a : ℕ) → List Tok → (b : ℕ) → Prop
  | a, [], b => a = b
  | a, t :: ts, b => p.code.Spells a (t.encode p.labels a) ∧ a + t.size < 2 ^ 63 ∧ a + t.size ≤ p.length ∧
      (∀ l, t = .label l → p.labels l = some a) ∧ Sits p (a + t.size) ts b

/-- A state that runs a program. -/
abbrev Executing (m : Machine) (p : Program) : Prop := Executes m p.code p.length

section

variable {p : Program} {a b c : ℕ} {t : Tok} {ts ts' : List Tok} {m m' : Machine} {s : List Val}

/-! ## Falling apart

Code sits at an address token by token, so it sits there in parts. -/

theorem sits_append : ∀ {ts : List Tok} {a : ℕ}, Sits p a (ts ++ ts') c ↔ ∃ b, Sits p a ts b ∧ Sits p b ts' c
  | [], a => ⟨fun h => ⟨a, rfl, h⟩, fun ⟨_, hab, h⟩ => hab ▸ h⟩
  | t :: ts, a => by
      constructor
      · rintro ⟨ht, hlt, hle, hlabel, hts⟩
        obtain ⟨b, hts, hts'⟩ := sits_append.mp hts
        exact ⟨b, ⟨ht, hlt, hle, hlabel, hts⟩, hts'⟩
      · rintro ⟨b, ⟨ht, hlt, hle, hlabel, hts⟩, hts'⟩
        exact ⟨ht, hlt, hle, hlabel, sits_append.mpr ⟨b, hts, hts'⟩⟩

namespace Sits

/-- What is behind the first token. -/
theorem rest (h : Sits p a (t :: ts) b) : Sits p (a + t.size) ts b := h.2.2.2.2

/-- Where some tokens end. -/
theorem end_eq : ∀ {ts : List Tok} {a : ℕ}, Sits p a ts b → b = a + codeSize ts
  | [], _, h => h.symm
  | t :: ts, a, h => by
      rw [codeSize_cons, ← Nat.add_assoc]
      exact h.rest.end_eq

/-- Code that sits somewhere is placed there. -/
theorem placed : ∀ {ts : List Tok} {a : ℕ}, Sits p a ts b → Placed p.labels p.code a ts
  | [], _, _ => trivial
  | _ :: _, _, h => ⟨h.1, h.2.1, fun l hl _ => h.2.2.2.1 l hl, h.rest.placed⟩

/-- The first token, to be run. -/
theorem holds (h : Sits p a (t :: ts) b) : Holds p.labels p.code p.length a [t] where
  placed := ⟨h.1, h.2.1, fun l hl _ => h.2.2.2.1 l hl, trivial⟩
  room := by
    rw [codeSize_cons, codeSize_nil]
    exact h.2.2.1

/-! ## Labels

The labels of a program that has each of them once lead to where they stand. -/

/-- A label leads to where it stands, which is an address. -/
theorem label {l : List UInt8} (h : Sits p a (.label l :: ts) b) : p.labels l = some a ∧ a < 2 ^ 63 :=
  ⟨h.2.2.2.1 l rfl, h.2.1⟩

/-! ## Running

One rule for each kind of token.  The address behind the token is a variable of the rule, so that a run through
some code needs no arithmetic. -/

/-- An operation without operand. -/
theorem op {o : Op} {plain : o.operandKind = .none} (h : Sits p a (.op o plain :: ts) b) (hm : Executing m p)
    (hx : (m.at (a + 1) s).exec o .none = some m') : Runs (m.at a s) m' := h.holds.step hm rfl hx

/-- A jump goes to its label. -/
theorem jmp {l : List UInt8} (h : Sits p a (jumpLabel l .jmp :: ts) b) (hm : Executing m p) (s : List Val) {d : ℕ}
    (hd : p.labels l = some d ∧ d < 2 ^ 63) : Runs (m.at a s) (m.at d s) := h.holds.jmp hm hd.1 hd.2

/-- `jnf` goes on behind itself with `#f`. -/
theorem jnf {l : List UInt8} (h : Sits p a (jumpLabel l .jnf :: ts) b) (hm : Executing m p) (s : List Val) {d : ℕ}
    (hd : p.labels l = some d ∧ d < 2 ^ 63) {v : Val} {isFalse : Bool} (hv : v.isFalse = some isFalse) :
    Runs (m.at a (v :: s)) (m.at (if isFalse then a + 9 else d) s) := h.holds.jnf hm hd.1 hd.2 hv

/-- `proc` makes a closure of its label. -/
theorem proc {l : List UInt8} (h : Sits p a (jumpLabel l .proc :: ts) b) (hm : Executing m p) (s : List Val) {d : ℕ}
    (hd : p.labels l = some d ∧ d < 2 ^ 63) :
    Runs (m.at a s) (m.at (a + 9) (.closure { m.here with ip := d } m.outer :: s)) := h.holds.proc hm hd.1 hd.2

/-- `call` goes on in a new scope, with what it returns to on the stack. -/
theorem call {l : List UInt8} (h : Sits p a (jumpLabel l .call :: ts) b) (hm : Executing m p) (s : List Val) {d : ℕ}
    (hd : p.labels l = some d ∧ d < 2 ^ 63) :
    Runs (m.at a s) ((m.at (a + 9) (.closure { m.here with ip := a + 9 } m.outer :: s)).child.at d
      (.closure { m.here with ip := a + 9 } m.outer :: s)) := by
  refine h.holds.step hm rfl ?_
  have htarget := h.holds.target rfl hd.1 hd.2
  change some ((m.at (a + 9) s).call (displacement ((p.labels l).getD 0) (a + 1))) = _
  rw [Machine.call]
  change some (((m.at (a + 9) (.closure { m.here with ip := a + 9 } m.outer :: s)).child).goto
    (jumpTo (a + 9) (displacement ((p.labels l).getD 0) (a + 1)))) = _
  rw [htarget]
  rfl

theorem symbol {name : Text} (h : Sits p a (.symbol name.bytes :: ts) b) (hm : Executing m p) (s : List Val) :
    Runs (m.at a s) (m.at (a + (Token.symbol name.bytes : Tok).size) (.symbol name.bytes :: s)) := by
  have hcstr : Bytes.cstr name.bytes = name.bytes :=
    Bytes.cstr_eq_self fun b hb hzero => name.noNul (hzero ▸ hb)
  refine h.holds.step hm rfl ?_
  rw [hcstr]
  exact if_neg name.noNul

end Sits

end

/-! ## Where emitted code sits

The tokens of a program sit at 0, and emitted code among them sits behind those in front of it. -/

/-- **Tokens that define no label twice sit where they are placed**, when what comes behind them defines
none of theirs again. -/
theorem sits_of_placed {p : Program} {rest : List Tok} : ∀ {ts : List Tok} {a : ℕ},
    Placed p.labels p.code a (ts ++ rest) → a + codeSize (ts ++ rest) ≤ p.length → (definedLabels ts).Nodup →
      (∀ l ∈ definedLabels ts, l ∉ definedLabels rest) → Sits p a ts (a + codeSize ts)
  | [], _, _, _, _, _ => rfl
  | t :: ts, a, h, hroom, hnodup, hrest => by
      have hsplit : definedLabels (t :: ts) = definedLabels [t] ++ definedLabels ts := definedLabels_append [t] ts
      rw [hsplit] at hnodup hrest
      rw [List.cons_append, codeSize_cons] at hroom
      obtain ⟨ht, hlt, hlabel, hts⟩ := h
      rw [codeSize_cons, ← Nat.add_assoc]
      refine ⟨ht, hlt, by omega, ?_, sits_of_placed hts (by omega) (List.nodup_append.mp hnodup).2.1
        fun l hl => hrest l (List.mem_append_right _ hl)⟩
      rintro l rfl
      refine hlabel l rfl fun hmem => ?_
      rcases List.mem_append.mp hmem with hmem | hmem
      · exact (List.nodup_append.mp hnodup).2.2 l (.head _) l (mem_definedLabels.mpr hmem) rfl
      · exact hrest l (.head _) (mem_definedLabels.mpr hmem)

end Insomniac.Compile

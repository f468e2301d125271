import Insomniac.Abstract.Machine
import Insomniac.Asm.Placed

/-!
# Abstract/Code — running code that is in its place

    ip ──▸ t ──▸ t' ──▸ …          m.at ip s  ──▸  m.at (ip + t.size) s'

A run is followed token by token: `Holds.step` is the rule for one, and the others are its instances
at the tokens whose result is not at the next address, or depends on bindings.
-/

open Insomniac.Asm Insomniac.Vm

namespace Insomniac.Abstract

variable {L : Type} {labels : L → Option ℕ} {code : Code} {length ip : ℕ} {t : Token L}
  {ts ts' : List (Token L)} {m m' : Machine} {s : List Val}

/-- A state at an address, with a stack. -/
def Machine.at (m : Machine) (ip : ℕ) (s : List Val) : Machine :=
  { m with here := { m.here with ip }, stack := s }

/-- A state with other bindings in a table. -/
def Machine.setTable (m : Machine) (table : ℕ) (b : Bindings) : Machine :=
  { m with tables := Function.update m.tables table (some b) }

/-- A machine is where it is. -/
theorem Machine.at_self (m : Machine) : m.at m.here.ip m.stack = m := rfl

/-- Some tokens are at an address of a code of a length. -/
structure Holds (labels : L → Option ℕ) (code : Code) (length ip : ℕ) (ts : List (Token L)) : Prop where
  placed : Placed labels code ip ts
  room : ip + codeSize ts ≤ length

/-- A state runs a code of a length. -/
def Executes (m : Machine) (code : Code) (length : ℕ) : Prop :=
  m.here.codeRef >>= m.codes = some code ∧ m.here.length = length

namespace Holds

/-- What holds of a program holds of it behind its first token. -/
theorem rest (h : Holds labels code length ip (t :: ts)) : Holds labels code length (ip + t.size) ts where
  placed := h.placed.rest
  room := by
    have := h.room
    rw [codeSize_cons] at this
    omega

/-- **One token.** -/
theorem step (h : Holds labels code length ip (t :: ts)) (hm : Executes m code length) {i : Instr}
    (hi : t.instr? labels ip = some i)
    (hx : (m.at (ip + t.size) s).exec i.op i.operand = some m') : Runs (m.at ip s) m' := by
  have hpos : 0 < t.size := by cases t <;> simp [Token.instr?, Token.size] at hi ⊢
  have hlt : (m.at ip s).here.ip < (m.at ip s).here.length := by
    have hroom := h.room
    rw [codeSize_cons] at hroom
    have hlength : m.here.length = length := hm.2
    simp only [Machine.at]
    omega
  refine .single ?_
  have hcode : (m.at ip s).here.codeRef >>= (m.at ip s).codes = some code := hm.1
  rw [Machine.step, hcode]
  change (if (m.at ip s).here.ip < (m.at ip s).here.length then _ else _) = _
  rw [if_pos hlt]
  change decodeAt code ip >>= _ = _
  rw [h.placed.decode hi]
  exact hx

/-- The address that a jump leads to. -/
theorem target (h : Holds labels code length ip (t :: ts)) (ht : t.size = 9) {l : L} {a : ℕ}
    (hl : labels l = some a) (ha : a < 2 ^ 63) :
    jumpTo (ip + 9) (displacement ((labels l).getD 0) (ip + 1)) = a := by
  rw [hl]
  have hlt := h.placed.2.1
  exact jumpTo_displacement ha (by omega)

theorem jmp {l : L} {ho : Op.jmp.operandKind = .target} (h : Holds labels code length ip (.jump .jmp ho l :: ts))
    (hm : Executes m code length) {a : ℕ} (hl : labels l = some a) (ha : a < 2 ^ 63) :
    Runs (m.at ip s) (m.at a s) := by
  refine h.step hm rfl ?_
  have htarget := h.target rfl hl ha
  change some ((m.at (ip + 9) s).goto (jumpTo (ip + 9) (displacement ((labels l).getD 0) (ip + 1)))) = _
  rw [htarget]
  rfl

/-- `jnf` jumps unless `#f` is on top. -/
theorem jnf {l : L} {ho : Op.jnf.operandKind = .target} (h : Holds labels code length ip (.jump .jnf ho l :: ts))
    (hm : Executes m code length) {a : ℕ} (hl : labels l = some a) (ha : a < 2 ^ 63) {v : Val} {b : Bool}
    (hv : v.isFalse = some b) :
    Runs (m.at ip (v :: s)) (m.at (if b then ip + 9 else a) s) := by
  refine h.step hm rfl ?_
  have htarget := h.target rfl hl ha
  change v.isFalse.map _ = _
  rw [hv, Option.map_some]
  cases b with
  | true => rfl
  | false =>
    change some ((m.at (ip + 9) s).goto (jumpTo (ip + 9) (displacement ((labels l).getD 0) (ip + 1)))) = _
    rw [htarget]
    rfl

/-- `proc` makes a closure of where its label is and goes on behind it. -/
theorem proc {l : L} {ho : Op.proc.operandKind = .target} (h : Holds labels code length ip (.jump .proc ho l :: ts))
    (hm : Executes m code length) {a : ℕ} (hl : labels l = some a) (ha : a < 2 ^ 63) :
    Runs (m.at ip s) (m.at (ip + 9) (.closure { m.here with ip := a } m.outer :: s)) := by
  refine h.step hm rfl ?_
  have htarget := h.target rfl hl ha
  change some ((m.at (ip + 9) s).proc (displacement ((labels l).getD 0) (ip + 1))) = _
  rw [Machine.proc]
  change some ((m.at (ip + 9) s).push (.closure { m.here with
    ip := jumpTo (ip + 9) (displacement ((labels l).getD 0) (ip + 1)) } m.outer)) = _
  rw [htarget]
  rfl

/-- A symbol literal without `NUL` in it. -/
theorem symbol {name : List UInt8} (h : Holds labels code length ip (.symbol name :: ts))
    (hm : Executes m code length) (hname : 0 ∉ name) :
    Runs (m.at ip s) (m.at (ip + (9 + name.length)) (.symbol name :: s)) := by
  have hcstr : Bytes.cstr name = name := Bytes.cstr_eq_self fun b hb h => hname (h ▸ hb)
  have hsize : (Token.symbol name : Token L).size = 9 + name.length := by rw [Token.size, hcstr]
  refine h.step hm rfl ?_
  rw [hsize, hcstr]
  exact if_neg hname

/-- **A name is read.** -/
theorem read {name : List UInt8} {ho : Op.read.operandKind = .none}
    (h : Holds labels code length ip (.symbol name :: .op .read ho :: ts)) (hm : Executes m code length)
    (hname : 0 ∉ name) {table : ℕ} {v : Val}
    (hfind : findFrame m.tables name (m.here :: m.outer) = some (table, v)) :
    Runs (m.at ip s) (m.at (ip + (9 + name.length) + 1) (v :: s)) := by
  have hcstr : Bytes.cstr name = name := Bytes.cstr_eq_self fun b hb h => hname (h ▸ hb)
  have hrest := h.rest
  rw [Token.size, hcstr] at hrest
  refine (h.symbol hm hname).trans (hrest.step hm rfl ?_)
  change (findFrame m.tables name ({ m.here with ip := _ } :: m.outer)).map _ = _
  have hhere : ∀ ip, findFrame m.tables name ({ m.here with ip } :: m.outer) =
      findFrame m.tables name (m.here :: m.outer) := fun _ => rfl
  rw [hhere, hfind]
  rfl

/-- **A name is bound** in the current frame. -/
theorem bind {name : List UInt8} {ho : Op.bind.operandKind = .none}
    (h : Holds labels code length ip (.symbol name :: .op .bind ho :: ts)) (hm : Executes m code length)
    (hname : 0 ∉ name) {b : Bindings} (hb : m.tables m.here.bindings = some b) (v : Val) :
    Runs (m.at ip (v :: s)) ((m.setTable m.here.bindings (Function.update b name (some v))).at
      (ip + (9 + name.length) + 1) s) := by
  have hcstr : Bytes.cstr name = name := Bytes.cstr_eq_self fun b hb h => hname (h ▸ hb)
  have hrest := h.rest
  rw [Token.size, hcstr] at hrest
  refine (h.symbol hm hname).trans (hrest.step hm rfl ?_)
  change Machine.setIn _ m.here.bindings name v = _
  rw [Machine.setIn]
  change m.tables m.here.bindings >>= _ = _
  rw [hb]
  rfl

/-- **A name is set** where it is bound. -/
theorem set {name : List UInt8} {ho : Op.set.operandKind = .none}
    (h : Holds labels code length ip (.symbol name :: .op .set ho :: ts)) (hm : Executes m code length)
    (hname : 0 ∉ name) {table : ℕ} {v' : Val}
    (hfind : findFrame m.tables name (m.here :: m.outer) = some (table, v')) {b : Bindings}
    (hb : m.tables table = some b) (v : Val) :
    Runs (m.at ip (v :: s)) ((m.setTable table (Function.update b name (some v))).at
      (ip + (9 + name.length) + 1) s) := by
  have hcstr : Bytes.cstr name = name := Bytes.cstr_eq_self fun b hb h => hname (h ▸ hb)
  have hrest := h.rest
  rw [Token.size, hcstr] at hrest
  refine (h.symbol hm hname).trans (hrest.step hm rfl ?_)
  change (findFrame m.tables name ({ m.here with ip := _ } :: m.outer)) >>= _ = _
  have hhere : ∀ ip, findFrame m.tables name ({ m.here with ip } :: m.outer) =
      findFrame m.tables name (m.here :: m.outer) := fun _ => rfl
  rw [hhere, hfind]
  change Machine.setIn _ table name v = _
  rw [Machine.setIn]
  change m.tables table >>= _ = _
  rw [hb]
  rfl

end Holds

end Insomniac.Abstract

import Insomniac.Abstract.Machine

/-!
# Abstract/Known — values of which everything is known

    begun ──step──▸ … ──step──▸ m          ref r, obj r o ∉ stack, tables

A value may be a reference of which nothing is known.  No instruction makes such a value, so a machine that has none
when it begins has none in any state that it comes to (`Machine.Known.step`), and each value that it prints has a
text.
-/

open Insomniac.Asm Insomniac.Vm

namespace Insomniac.Abstract

/-! ## Values

What is known is computed, by recursion over pairs.  A closure is known whatever its frames have bound, since it
is printed by where it is. -/

namespace Val

/-- Whether it is known what a value is, down to the elements of lists. -/
def known : Val → Bool
  | .ref _ | .obj _ _ => false
  | .pair car cdr => car.known && cdr.known
  | _ => true

/-- A pair is known when both of its parts are. -/
@[simp] theorem known_pair (car cdr : Val) : (pair car cdr).known = true ↔ car.known = true ∧ cdr.known = true :=
  Bool.and_eq_true_iff

end Val

/-! ## States

The stack and every binding of every table: nothing else of a state holds values that an instruction could get
at. -/

namespace Machine

/-- All values that names are bound to are known. -/
def BindingsKnown (bindings : Bindings) : Prop := ∀ name v, bindings name = some v → v.known = true

/-- **All values of a state are known.** -/
structure Known (m : Machine) : Prop where
  stack : ∀ v ∈ m.stack, v.known = true
  tables : ∀ t bindings, m.tables t = some bindings → BindingsKnown bindings

variable {m m' : Machine}

/-- What is looked up in known bindings is known. -/
theorem findFrame_known {tables : ℕ → Option Bindings}
    (h : ∀ t bindings, tables t = some bindings → BindingsKnown bindings) {name : List UInt8} {found : ℕ × Val} :
    ∀ {frames : List Frame}, findFrame tables name frames = some found → found.2.known = true
  | [], hfind => nomatch hfind
  | f :: outer, hfind => by
    obtain ⟨bindings, hbindings, hfind⟩ := Option.bind_eq_some_iff.mp hfind
    split at hfind
    · next v hv =>
      cases hfind
      exact h f.bindings bindings hbindings name v hv
    · exact findFrame_known h hfind

/-! ## Parts of instructions

One lemma for each of the parts that instructions are made of; the lemmas about instructions put them together
without looking at the state. -/

namespace Known

/-- Moving the instruction pointer makes no value. -/
theorem goto (h : m.Known) (ip : ℕ) : (m.goto ip).Known := ⟨h.stack, h.tables⟩

/-- A known value may be pushed. -/
theorem push (h : m.Known) {v : Val} (hv : v.known = true) : (m.push v).Known :=
  ⟨List.forall_mem_cons.mpr ⟨hv, h.stack⟩, h.tables⟩

/-- Nor does going on in other frames. -/
theorem switch (h : m.Known) (here : Frame) (outer : List Frame) : (m.switch here outer).Known := ⟨h.stack, h.tables⟩

/-- A stack of known values in place of another. -/
theorem withStack (h : m.Known) {s : List Val} (hs : ∀ v ∈ s, v.known = true) : Known { m with stack := s } :=
  ⟨hs, h.tables⟩

/-- The value on top, and the values below it. -/
theorem cons (h : m.Known) {v : Val} {s : List Val} (hstack : m.stack = v :: s) :
    v.known = true ∧ ∀ w ∈ s, w.known = true :=
  List.forall_mem_cons.mp (hstack ▸ h.stack)

/-- A table whose values are known is written. -/
theorem update (h : m.Known) {t : ℕ} {bindings : Bindings} (hb : BindingsKnown bindings) :
    Known { m with tables := Function.update m.tables t (some bindings) } := by
  refine ⟨h.stack, fun t' bindings' ht' => ?_⟩
  dsimp only at ht'
  rw [Function.update_apply] at ht'
  split at ht'
  · cases ht'
    exact hb
  · exact h.tables t' bindings' ht'

/-- A new frame has no bindings yet. -/
theorem child (h : m.Known) : m.child.Known :=
  have hnew : Known { m with tables := Function.update m.tables m.next (some fun _ => none) } :=
    h.update fun _ _ hv => nomatch hv
  ⟨h.stack, hnew.tables⟩

/-- A known value may be bound. -/
theorem setIn (h : m.Known) {t : ℕ} {name : List UInt8} {v : Val} (hv : v.known = true)
    (hset : m.setIn t name v = some m') : m'.Known := by
  obtain ⟨old, hold, hset⟩ := Option.bind_eq_some_iff.mp hset
  cases hset
  refine h.update fun name' v' hv' => ?_
  rw [Function.update_apply] at hv'
  split at hv'
  · cases hv'
    exact hv
  · exact h.tables t old hold name' v' hv'

/-! ## Instructions

Constants, closures and pairs of known values are known, and what else an instruction leaves on the stack or binds
was there before. -/

/-- An instruction of one operand, which makes a known value of a known one. -/
theorem top₁ (h : m.Known) {f : Val → Option Val} (hf : ∀ a v, a.known = true → f a = some v → v.known = true)
    (hrun : m.top₁ f = some m') : m'.Known := by
  rw [Machine.top₁] at hrun
  split at hrun
  · next a s hstack =>
    obtain ⟨ha, hs⟩ := h.cons hstack
    obtain ⟨v, hv, rfl⟩ := Option.map_eq_some_iff.mp hrun
    exact h.withStack (List.forall_mem_cons.mpr ⟨hf a v ha hv, hs⟩)
  · cases hrun

/-- An instruction of two operands, which makes a known value of known ones. -/
theorem top₂ (h : m.Known) {f : Val → Val → Option Val}
    (hf : ∀ a b v, a.known = true → b.known = true → f a b = some v → v.known = true)
    (hrun : m.top₂ f = some m') : m'.Known := by
  rw [Machine.top₂] at hrun
  split at hrun
  · next a b s hstack =>
    obtain ⟨ha, hrest⟩ := h.cons hstack
    obtain ⟨hb, hs⟩ := List.forall_mem_cons.mp hrest
    obtain ⟨v, hv, rfl⟩ := Option.map_eq_some_iff.mp hrun
    exact h.withStack (List.forall_mem_cons.mpr ⟨hf a b v ha hb hv, hs⟩)
  · cases hrun

/-- A calculation gives a number or a truth value. -/
theorem arith (h : m.Known) {f : Int64 → Int64 → Option Val} (hf : ∀ x y v, f x y = some v → v.known = true)
    (hrun : m.top₂ (Machine.arith f) = some m') : m'.Known := by
  refine h.top₂ (fun a b v _ _ hv => ?_) hrun
  unfold Machine.arith at hv
  split at hv
  · exact hf _ _ v hv
  · cases hv

theorem divide (h : m.Known) {op : Int64 → Int64 → Int64}
    (hrun : m.top₂ (Machine.arith (Machine.divide op)) = some m') : m'.Known := by
  refine h.arith (fun x y v hv => ?_) hrun
  rw [Machine.divide] at hv
  split at hv <;> cases hv
  rfl

/-- A test gives a truth value. -/
theorem test (h : m.Known) {f : Val → Option Bool} (hrun : m.top₁ (fun v => (f v).map .bool) = some m') :
    m'.Known := by
  refine h.top₁ (fun a v _ hv => ?_) hrun
  obtain ⟨b, -, rfl⟩ := Option.map_eq_some_iff.mp hv
  rfl

/-- `jnf`, `ret`, `call_in` and `tail_call_in` take values off the stack and put closures there. -/
theorem jnf (h : m.Known) {target : Int64} (hrun : m.jnf target = some m') : m'.Known := by
  rw [Machine.jnf] at hrun
  split at hrun
  · next v s hstack =>
    obtain ⟨isFalse, -, rfl⟩ := Option.map_eq_some_iff.mp hrun
    have hs := h.withStack (h.cons hstack).2
    dsimp only
    split
    · exact hs
    · exact hs.goto _
  · cases hrun

/-- `ret` takes a closure off the stack and goes on in its frames. -/
theorem ret (h : m.Known) (hrun : m.ret = some m') : m'.Known := by
  rw [Machine.ret] at hrun
  split at hrun
  · next here outer s hstack =>
    cases hrun
    exact (h.withStack (h.cons hstack).2).switch here outer
  · cases hrun

/-- `call_in` leaves a closure and the arguments. -/
theorem callIn (h : m.Known) (hrun : m.callIn = some m') : m'.Known := by
  rw [Machine.callIn] at hrun
  split at hrun
  · next here outer s hstack =>
    cases hrun
    have hs := h.withStack (List.forall_mem_cons.mpr ⟨(rfl : (Val.closure m.here m.outer).known = true), (h.cons hstack).2⟩)
    exact (hs.switch here outer).child
  · cases hrun

theorem tailCallIn (h : m.Known) (hrun : m.tailCallIn = some m') : m'.Known := by
  rw [Machine.tailCallIn] at hrun
  split at hrun
  · next here outer a b s hstack =>
    cases hrun
    obtain ⟨-, hrest⟩ := h.cons hstack
    obtain ⟨ha, hrest⟩ := List.forall_mem_cons.mp hrest
    obtain ⟨hb, hs⟩ := List.forall_mem_cons.mp hrest
    have hswapped := h.withStack (List.forall_mem_cons.mpr ⟨hb, List.forall_mem_cons.mpr ⟨ha, hs⟩⟩)
    exact (hswapped.switch here outer).child
  · cases hrun

/-- What is bound was on the stack, and what is read was bound. -/
theorem bind (h : m.Known) (hrun : m.bind = some m') : m'.Known := by
  rw [Machine.bind] at hrun
  split at hrun
  · next name v s hstack =>
    obtain ⟨hv, hs⟩ := List.forall_mem_cons.mp (h.cons hstack).2
    exact (h.withStack hs).setIn hv hrun
  · cases hrun

theorem read (h : m.Known) (hrun : m.read = some m') : m'.Known := by
  rw [Machine.read] at hrun
  split at hrun
  · next name s hstack =>
    obtain ⟨found, hfound, rfl⟩ := Option.map_eq_some_iff.mp hrun
    exact h.withStack (List.forall_mem_cons.mpr ⟨findFrame_known h.tables hfound, (h.cons hstack).2⟩)
  · cases hrun

/-- `!` binds what was on the stack. -/
theorem set (h : m.Known) (hrun : m.set = some m') : m'.Known := by
  rw [Machine.set] at hrun
  split at hrun
  · next name v s hstack =>
    obtain ⟨found, -, hset⟩ := Option.bind_eq_some_iff.mp hrun
    obtain ⟨hv, hs⟩ := List.forall_mem_cons.mp (h.cons hstack).2
    exact (h.withStack hs).setIn hv hset
  · cases hrun

/-- **What an instruction leaves is known.** -/
theorem exec (h : m.Known) {o : Op} {operand : Operand} (hrun : m.exec o operand = some m') : m'.Known := by
  cases o with
  | litEmpty | litTrue | litFalse | depth =>
    cases hrun
    exact h.push rfl
  | litFixnum | litChar | proc | call | jmp =>
    cases operand <;> cases hrun
    first | exact h.push rfl | exact h.goto _ | exact (h.push rfl).child.goto _
  | litString | litSymbol =>
    cases operand with
    | string str =>
      simp only [Machine.exec] at hrun
      split at hrun <;> cases hrun
      exact h.push rfl
    | _ => cases hrun
  | cons =>
    refine h.top₂ (fun a b v ha hb hv => ?_) hrun
    cases hv
    exact (Val.known_pair a b).mpr ⟨ha, hb⟩
  | car | cdr =>
    refine h.top₁ (fun a v ha hv => ?_) hrun
    split at hv <;> cases hv
    first | exact ((Val.known_pair _ _).mp ha).1 | exact ((Val.known_pair _ _).mp ha).2
  | swap =>
    simp only [Machine.exec] at hrun
    split at hrun
    · next a b s hstack =>
      cases hrun
      obtain ⟨ha, hrest⟩ := h.cons hstack
      obtain ⟨hb, hs⟩ := List.forall_mem_cons.mp hrest
      exact h.withStack (List.forall_mem_cons.mpr ⟨hb, List.forall_mem_cons.mpr ⟨ha, hs⟩⟩)
    · cases hrun
  | dupRef =>
    simp only [Machine.exec] at hrun
    split at hrun
    · next a s hstack =>
      cases hrun
      obtain ⟨ha, hs⟩ := h.cons hstack
      exact h.withStack (List.forall_mem_cons.mpr ⟨ha, List.forall_mem_cons.mpr ⟨ha, hs⟩⟩)
    · cases hrun
  | drop =>
    simp only [Machine.exec] at hrun
    split at hrun
    · next a s hstack =>
      cases hrun
      exact h.withStack (h.cons hstack).2
    · cases hrun
  | add | sub | mul | numericEqual | numericLt | numericGt =>
    refine h.arith (fun x y v hv => ?_) hrun
    cases hv
    rfl
  | div | mod => exact h.divide hrun
  | not | isEmpty => exact h.test hrun
  | jnf =>
    cases operand with
    | int target => exact h.jnf hrun
    | _ => cases hrun
  | ret => exact h.ret hrun
  | callIn => exact h.callIn hrun
  | tailCallIn => exact h.tailCallIn hrun
  | bind => exact h.bind hrun
  | read => exact h.read hrun
  | set => exact h.set hrun
  | _ => cases hrun

/-- **A step keeps it.** -/
theorem step (h : m.Known) (hrun : m.step = some m') : m'.Known := by
  obtain ⟨code, -, hrun⟩ := Option.bind_eq_some_iff.mp hrun
  split at hrun
  · obtain ⟨⟨instr, next⟩, -, hexec⟩ := Option.bind_eq_some_iff.mp hrun
    exact (h.goto next).exec hexec
  · cases hrun

end Known

end Machine

end Insomniac.Abstract

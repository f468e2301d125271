import Insomniac.Compile.Evaluate
import Insomniac.Compile.Sits
import Mathlib.Data.Option.Basic

/-!
# Compile/Agrees — evaluated values and values of the machine

    closure formals body env  ~  closure here outer        env = the scopes of here :: outer
                                    └──▸ procedure formals body

A scope of the evaluator is the table of the same number, so that an environment is the list of the tables
of a chain of frames, whatever else is in these.  A store agrees with a state when each scope that the
store has is a table with the same names, bound to values that mean the same.
-/

open Insomniac.Asm Insomniac.Vm Insomniac.Abstract Insomniac.Lib Run

namespace Insomniac.Compile

/-! ## Values

`Denotes` is read at the code that a closure's frame runs: the procedure that the compiler emits for the formals
and the body has to be there, at the place of the closure. -/

/-- The scopes of some frames. -/
def scopesOf (frames : List Frame) : List ℕ := frames.map Frame.bindings

/-- **A frame stands before the code of a procedure.** -/
def Entry (codes : ℕ → Option Code) (here : Frame) (formals : Formals) (body : Stream) : Prop :=
  ∃ (p : Program) (k b : ℕ), here.codeRef >>= codes = some p.code ∧ here.length = p.length ∧
    Sits p here.ip (procedure formals (emitStream body true k).1) b

/-- **What a value is on the machine.** -/
inductive Denotes (codes : ℕ → Option Code) : Value → Val → Prop
  | fixnum (i : Int64) : Denotes codes (.fixnum i) (.fixnum i)
  | bool (b : Bool) : Denotes codes (.bool b) (.bool b)
  | char (c : UInt32) : Denotes codes (.char c) (.char c)
  | string (str : List UInt8) : Denotes codes (.string str) (.string str)
  | symbol (name : List UInt8) : Denotes codes (.symbol name) (.symbol name)
  | empty : Denotes codes .empty .empty
  | pair {car cdr : Value} {a d : Val} : Denotes codes car a → Denotes codes cdr d →
      Denotes codes (.pair car cdr) (.pair a d)
  | closure {formals : Formals} {body : Stream} {here : Frame} {outer : List Frame} :
      Entry codes here formals body →
      Denotes codes (.closure formals body (scopesOf (here :: outer))) (.closure here outer)
  | other (v : Val) : Denotes codes (.other v) v

/-- A value is `#f` on the machine where it is for the evaluator. -/
theorem Denotes.isFalse {codes : ℕ → Option Code} {v : Value} {w : Val} (h : Denotes codes v w) :
    w.isFalse = v.isFalse := by cases h <;> rfl

/-- A literal pushes what it is evaluated to. -/
theorem Literal.denotes (codes : ℕ → Option Code) (l : Literal) : ∃ w, Denotes codes l.value w ∧
    ∀ (p : Program) (a b : ℕ) (ts : List Tok) (m : Machine) (s : List Val), Sits p a (l.token :: ts) b →
      Executing m p → Runs (m.at a s) (m.at (a + l.token.size) (w :: s)) := by
  cases l with
  | empty => exact ⟨_, .empty, fun p a b ts m s h hm => h.op hm rfl⟩
  | boolean v =>
    refine ⟨_, .bool v, fun p a b ts m s h hm => ?_⟩
    cases v with
    | true => exact h.op hm rfl
    | false => exact h.op hm rfl
  | fixnum i => exact ⟨_, .fixnum i, fun p a b ts m s h hm => h.holds.step hm rfl rfl⟩
  | char c => exact ⟨_, .char c, fun p a b ts m s h hm => h.holds.step hm rfl rfl⟩
  | string str =>
    refine ⟨_, .string str.bytes, fun p a b ts m s h hm => h.holds.step hm rfl ?_⟩
    have hcstr : Bytes.cstr str.bytes = str.bytes :=
      Bytes.cstr_eq_self fun b hb hzero => str.noNul (hzero ▸ hb)
    rw [hcstr]
    exact if_neg str.noNul
  | symbol name => exact ⟨_, .symbol name.bytes, fun p a b ts m s h hm => h.symbol hm s⟩

/-! ## States

The scopes of a store are the tables of a state, under the same numbers; a state may have more tables, as the
library has. -/

/-- **A store agrees with a state.** -/
structure Agrees (store : Store) (m : Machine) : Prop where
  next : store.next = m.next
  scopes : ∀ t bindings, store.scopes t = some bindings → ∃ table, m.tables t = some table ∧
    ∀ name, Option.Rel (Denotes m.codes) (bindings name) (table name)

/-- **Two states with the same code and frames.** -/
structure Same (m m' : Machine) : Prop where
  codes : m'.codes = m.codes
  here : m'.here = m.here
  outer : m'.outer = m.outer

theorem Same.refl (m : Machine) : Same m m := ⟨rfl, rfl, rfl⟩

section

variable {m m' m'' : Machine} {store store' : Store} {p : Program}

/-- What changes nothing twice changes nothing. -/
theorem Same.trans (h : Same m m') (h' : Same m' m'') : Same m m'' :=
  ⟨h'.codes.trans h.codes, h'.here.trans h.here, h'.outer.trans h.outer⟩

theorem Same.executing (h : Same m m') (hm : Executing m p) : Executing m' p := by
  obtain ⟨hcode, hlength⟩ := hm
  exact ⟨by rw [h.codes, h.here]; exact hcode, by rw [h.here]; exact hlength⟩

/-- The scopes are the same ones. -/
theorem Same.scopes (h : Same m m') : scopesOf (m'.here :: m'.outer) = scopesOf (m.here :: m.outer) := by
  rw [h.here, h.outer]

/-- Going back to the frames of a state. -/
theorem Same.back (h : Same m m') (ip : ℕ) (s : List Val) :
    (m'.switch { m.here with ip } m.outer).at ip s = m'.at ip s := by
  obtain ⟨-, hhere, houter⟩ := h
  rw [← hhere, ← houter]
  rfl

/-- **A name is found in the scope that the evaluator finds it in.** -/
theorem Agrees.find (h : Agrees store m) {name : List UInt8} {t : ℕ} {v : Value} : ∀ {frames : List Frame},
    store.find name (scopesOf frames) = some (t, v) →
      ∃ w table, findFrame m.tables name frames = some (t, w) ∧ Denotes m.codes v w ∧ m.tables t = some table
  | [], hfind => by cases hfind
  | f :: outer, hfind => by
      obtain ⟨bindings, hbindings, hfind⟩ := Option.bind_eq_some_iff.mp hfind
      obtain ⟨table, htable, hrel⟩ := h.scopes _ _ hbindings
      have hname := hrel name
      rw [findFrame, htable, Option.bind_eq_bind, Option.bind_some]
      cases hv : bindings name with
      | some v' =>
        rw [hv] at hname hfind
        cases hfind
        cases hw : table name with
        | none =>
          rw [hw] at hname
          cases hname
        | some w =>
          rw [hw] at hname
          cases hname with
          | some hdenotes => exact ⟨w, table, rfl, hdenotes, htable⟩
      | none =>
        rw [hv] at hname hfind
        cases hw : table name with
        | some w =>
          rw [hw] at hname
          cases hname
        | none => exact h.find hfind

/-- A value that was asked for is there, and nothing has changed. -/
theorem known_ok {α : Type} {a : Option α} {b : α} (h : known a store = .ok (b, store')) :
    a = some b ∧ store' = store := by
  cases a with
  | none => cases h
  | some a =>
    cases h
    exact ⟨rfl, rfl⟩

/-- What it takes to set a name in a scope. -/
theorem setIn_ok {t : ℕ} {name : List UInt8} {v : Value} {u : Unit} (h : setIn t name v store = .ok (u, store')) :
    ∃ bindings, store.scopes t = some bindings ∧ store' = { store with
      scopes := Function.update store.scopes t (some (Function.update bindings name (some v))) } := by
  obtain ⟨_, _, ⟨⟩, h⟩ := bind_ok h
  obtain ⟨bindings, _, hknown, h⟩ := bind_ok h
  obtain ⟨hbindings, rfl⟩ := known_ok hknown
  cases h
  exact ⟨bindings, hbindings, rfl⟩

/-- **A name is set in the table of the scope.** -/
theorem Agrees.set (h : Agrees store m) {t : ℕ} {name : List UInt8} {v : Value} {w : Val} {table : Bindings}
    {u : Unit} (hset : setIn t name v store = .ok (u, store')) (hw : Denotes m.codes v w)
    (htable : m.tables t = some table) :
    Agrees store' (m.setTable t (Function.update table name (some w))) := by
  obtain ⟨bindings, hbindings, rfl⟩ := setIn_ok hset
  obtain ⟨table', htable', hrel⟩ := h.scopes t bindings hbindings
  obtain rfl : table' = table := Option.some.inj (htable'.symm.trans htable)
  refine ⟨h.next, fun t' bindings' ht' => ?_⟩
  dsimp only at ht'
  rcases eq_or_ne t' t with rfl | hne
  · rw [Function.update_self] at ht'
    cases ht'
    refine ⟨_, Function.update_self .., fun name' => ?_⟩
    rcases eq_or_ne name' name with rfl | hname
    · rw [Function.update_self, Function.update_self]
      exact .some hw
    · rw [Function.update_of_ne hname, Function.update_of_ne hname]
      exact hrel name'
  · rw [Function.update_of_ne hne] at ht'
    obtain ⟨table', htable', hrel'⟩ := h.scopes t' bindings' ht'
    exact ⟨table', (Function.update_of_ne hne ..).trans htable', hrel'⟩

/-- The store with a new scope. -/
def Store.child (store : Store) : Store :=
  { scopes := Function.update store.scopes store.next (some fun _ => none), next := store.next + 1 }

/-- A new scope has the next number, and no bindings. -/
theorem newScope_run (store : Store) : newScope store = .ok (store.next, store.child) := rfl

/-- **A new scope is the table of the new frame.** -/
theorem Agrees.child (h : Agrees store m) : Agrees store.child m.child := by
  refine ⟨congrArg (· + 1) h.next, fun t bindings ht => ?_⟩
  change Function.update store.scopes store.next (some fun _ => none) t = some bindings at ht
  change ∃ table, Function.update m.tables m.next (some fun _ => none) t = some table ∧ _
  rw [h.next] at ht
  rcases eq_or_ne t m.next with rfl | hne
  · rw [Function.update_self] at ht
    cases ht
    exact ⟨_, Function.update_self .., fun _ => .none⟩
  · rw [Function.update_of_ne hne] at ht ⊢
    exact h.scopes t bindings ht

/-- Agreement is about code and tables. -/
theorem Agrees.congr (h : Agrees store m) (hcodes : m'.codes = m.codes) (htables : m'.tables = m.tables)
    (hnext : m'.next = m.next) : Agrees store m' where
  next := h.next.trans hnext.symm
  scopes := by
    rw [hcodes, htables]
    exact h.scopes

end

end Insomniac.Compile

import Insomniac.Abstract.Machine
import Insomniac.Vm.Symbols
import Insomniac.Vm.Grown
import Mathlib.Data.List.Forall2
import Mathlib.Data.Option.Basic

/-!
# Abstract/Shows — what a state of the virtual machine shows

    vm.stackRoot ──▸ r ──▸ r' ──▸ … ──▸ empty          vm.env ──▸ parent ──▸ …
                     ⟦ ⟧   ⟦ ⟧                          frame      frame
                     v     v'                           here       outer

A reference means a value, the stack means a list of them, and the chain of environments is a list of
frames.  All of this stays when memory is only added to (`Kept`).
-/

open Bytes Insomniac.Asm Insomniac.Vm Run

namespace Insomniac.Abstract

/-! ## Environments as frames

A chain of environments is followed through `parent`, and each gives a frame: its code, its place and the table
of its bindings. -/

/-- What is in an environment besides its parent. -/
def frameOf (env : Env) : Frame where
  codeRef := env.codeRef
  length := env.length
  ip := env.ip
  bindings := env.bindings
  handler := env.handler
  handlerAddr := env.handlerAddr

/-- **The frames from an environment on.** -/
inductive Scope (envs : List Env) : Option ℕ → List Frame → Prop
  | nil : Scope envs none []
  | cons {e : ℕ} {env : Env} {fs : List Frame} : envs[e]? = some env → Scope envs env.parent fs →
      Scope envs (some e) (frameOf env :: fs)

/-! ## Objects as values

By recursion over the value, so that a pair means what its parts mean; a circle of pairs means no value. -/

/-- **What a reference means.** -/
inductive Means (vm : VmInternal) : Ref → Val → Prop
  | ref (r : Ref) : Means vm r (.ref r)
  | obj {r : Ref} {o : Obj} : vm.deref r = some o → Means vm r (.obj r o)
  | fixnum {r : Ref} {integer : Int64} : vm.deref r = some (.fixnum integer) → Means vm r (.fixnum integer)
  | bool {r : Ref} {boolean : Bool} : vm.deref r = some (.bool boolean) → Means vm r (.bool boolean)
  | char {r : Ref} {character : UInt32} : vm.deref r = some (.char character) → Means vm r (.char character)
  | string {r : Ref} {bytes : ℕ} {str : List UInt8} :
      vm.deref r = some (.string (Int64.ofNat str.length) bytes) → vm.name bytes = some str →
      Means vm r (.string str)
  | symbol {r : Ref} {length : Int64} {bytes : ℕ} {name : List UInt8} :
      vm.deref r = some (.symbol length bytes) → vm.name bytes = some name → Means vm r (.symbol name)
  | empty {r : Ref} : vm.deref r = some .empty → Means vm r .empty
  | pair {r car cdr : Ref} {a d : Val} : vm.deref r = some (.pair (some car) (some cdr)) →
      Means vm car a → Means vm cdr d → Means vm r (.pair a d)
  | closure {r : Ref} {e : ℕ} {here : Frame} {outer : List Frame} : vm.deref r = some (.closure e) →
      Scope vm.envs (some e) (here :: outer) → Means vm r (.closure here outer)

/-- A table has given bindings, under keys that are what they were. -/
def HasBindings (vm : VmInternal) (t : ℕ) (bindings : Bindings) : Prop :=
  ∃ entries, vm.tables[t]? = some entries ∧ vm.keysKept entries = true ∧
    ∀ name, Option.Rel (Means vm) (lookup entries name) (bindings name)

/-- **What a state shows.** -/
structure Shows (vm : VmInternal) (m : Machine) : Prop where
  codes : ∀ c code, m.codes c = some code → vm.codes[c]? = some code
  scope : Scope vm.envs (some vm.env) (m.here :: m.outer)
  stack : ∃ refs : List Ref, vm.StackIs (refs.map some) ∧ List.Forall₂ (Means vm) refs m.stack
  depth : vm.depth = m.stack.length
  tables : ∀ t bindings, m.tables t = some bindings → t ≠ 0 ∧ HasBindings vm t bindings
  next : m.next = vm.tables.length

/-! ## What stays

Memory that is only added to goes on to show what it showed.  The lemmas go through the ways in which the parts
of an instruction add to it. -/

/-- **Memory is added to**, but for the tables and the instruction pointer. -/
structure Kept (vm vm' : VmInternal) : Prop where
  objs : vm.objs <+: vm'.objs
  cells : vm.cells <+: vm'.cells
  bytes : vm.bytes <+: vm'.bytes
  codes : vm.codes <+: vm'.codes
  arrays : vm'.arrays = vm.arrays
  envs : ∀ (e : ℕ) (env : Env), e ≠ vm.env → vm.envs[e]? = some env → vm'.envs[e]? = some env
  current : vm'.env = vm.env ∨ vm.envs.length ≤ vm'.env
  grown : vm.envs.length ≤ vm'.envs.length
  empty : vm'.empty = vm.empty
  booleans : vm'.vmTrue = vm.vmTrue ∧ vm'.vmFalse = vm.vmFalse
  calls : vm'.calls = vm.calls
  exitStatus : vm'.exitStatus = vm.exitStatus
  outputDepth : vm'.outputDepth = vm.outputDepth

namespace Kept

variable {vm vm' vm'' : VmInternal}

theorem refl (vm : VmInternal) : Kept vm vm where
  objs := List.prefix_rfl
  cells := List.prefix_rfl
  bytes := List.prefix_rfl
  codes := List.prefix_rfl
  arrays := rfl
  envs _ _ _ h := h
  current := .inl rfl
  grown := le_rfl
  empty := rfl
  booleans := ⟨rfl, rfl⟩
  calls := rfl
  exitStatus := rfl
  outputDepth := rfl

/-- What is added twice is added. -/
theorem trans (h : Kept vm vm') (h' : Kept vm' vm'') : Kept vm vm'' where
  objs := h.objs.trans h'.objs
  cells := h.cells.trans h'.cells
  bytes := h.bytes.trans h'.bytes
  codes := h.codes.trans h'.codes
  arrays := h'.arrays.trans h.arrays
  envs e env hne he := by
    refine h'.envs e env ?_ (h.envs e env hne he)
    obtain ⟨hlt, -⟩ := List.getElem?_eq_some_iff.mp he
    rcases h.current with hcurrent | hcurrent
    · rwa [hcurrent]
    · exact (hlt.trans_le hcurrent).ne
  current := by
    rcases h'.current with hcurrent | hcurrent
    · rw [hcurrent]
      exact h.current
    · exact .inr (h.grown.trans hcurrent)
  grown := h.grown.trans h'.grown
  empty := h'.empty.trans h.empty
  booleans := ⟨h'.booleans.1.trans h.booleans.1, h'.booleans.2.trans h.booleans.2⟩
  calls := h'.calls.trans h.calls
  exitStatus := h'.exitStatus.trans h.exitStatus
  outputDepth := h'.outputDepth.trans h.outputDepth

/-- The stack may lose its top. -/
theorem pop (vm : VmInternal) (cdr : Ref) : Kept vm (vm.pop cdr) := { refl vm with }

theorem push (vm : VmInternal) (obj : Ptr) : Kept vm (vm.push obj) :=
  { refl vm with cells := List.prefix_append _ _ }

theorem alloc (vm : VmInternal) (o : Obj) : Kept vm { vm with objs := vm.objs ++ [o] } :=
  { refl vm with objs := List.prefix_append _ _ }

/-- An array of bytes may be made. -/
theorem newBytes (vm : VmInternal) (bs : List UInt8) : Kept vm { vm with bytes := vm.bytes ++ [bs] } :=
  { refl vm with bytes := List.prefix_append _ _ }

theorem tables (vm : VmInternal) (tables : List (List Entry)) : Kept vm { vm with tables } :=
  { refl vm with }

theorem newEnv (vm : VmInternal) (env : Env) : Kept vm { vm with envs := vm.envs ++ [env] } :=
  { refl vm with
    envs := fun _ _ _ h => getElem?_append_of_some h
    grown := by simp }

theorem enter (vm : VmInternal) (env : Env) : Kept vm (vm.enter env) :=
  { refl vm with
    envs := fun _ _ _ h => getElem?_append_of_some h
    current := .inr le_rfl
    grown := by simp [VmInternal.enter] }

/-- Only the current environment is written to. -/
theorem updateEnv (vm : VmInternal) (f : Env → Env) : Kept vm (vm.updateEnv f) :=
  { refl vm with
    envs := fun e env hne h => (List.getElem?_modify_ne f vm.envs hne.symm).trans h
    grown := by simp [VmInternal.updateEnv] }

/-- An object stays what it is. -/
theorem deref (h : Kept vm vm') {r : Ref} {o : Obj} (hr : vm.deref r = some o) : vm'.deref r = some o := by
  cases r with
  | obj n => exact getElem?_of_isPrefix h.objs hr
  | cell n =>
    obtain ⟨c, hc, rfl⟩ := Option.map_eq_some_iff.mp hr
    rw [VmInternal.deref, getElem?_of_isPrefix h.cells hc, Option.map_some]

/-- A name stays what it is. -/
theorem name (h : Kept vm vm') {bytes : ℕ} {name : List UInt8} (hname : vm.name bytes = some name) :
    vm'.name bytes = some name := by
  obtain ⟨bs, hbs, hcstr⟩ := Option.bind_eq_some_iff.mp hname
  rw [VmInternal.name, getElem?_of_isPrefix h.bytes hbs]
  exact hcstr

/-- The keys of a table keep their names. -/
theorem keysKept (h : Kept vm vm') {entries : List Entry} (hkept : vm.keysKept entries = true) :
    vm'.keysKept entries = true :=
  List.all_eq_true.mpr fun e he =>
    decide_eq_true (h.name (of_decide_eq_true (List.all_eq_true.mp hkept e he)))

/-- A stack stays what it is. -/
theorem listAt (h : Kept vm vm') {r : Ref} {l : List Ptr} (hl : vm.ListAt r l) : vm'.ListAt r l := by
  induction hl with
  | nil => exact h.empty ▸ .nil
  | cons hr _ ih => exact .cons (h.deref hr) ih

/-- The frames from an environment on stay, when none of them is current. -/
theorem scope (h : Kept vm vm') (hs : Sound True vm) {p : Option ℕ} {fs : List Frame}
    (hscope : Scope vm.envs p fs) (hp : p ≠ some vm.env) : Scope vm'.envs p fs := by
  induction hscope with
  | nil => exact .nil
  | @cons e env fs he _ ih =>
    refine .cons (h.envs e env (fun heq => hp (congrArg some heq)) he) (ih fun hparent => ?_)
    exact (hs.parents e env vm.env he hparent).2 rfl

/-- **A reference goes on to mean the value it meant.** -/
theorem means (h : Kept vm vm') (hs : Sound True vm) {r : Ref} {v : Val} (hr : Means vm r v) :
    Means vm' r v := by
  induction hr with
  | ref r => exact .ref r
  | obj ho => exact .obj (h.deref ho)
  | fixnum ho => exact .fixnum (h.deref ho)
  | bool ho => exact .bool (h.deref ho)
  | char ho => exact .char (h.deref ho)
  | string ho hname => exact .string (h.deref ho) (h.name hname)
  | symbol ho hname => exact .symbol (h.deref ho) (h.name hname)
  | empty ho => exact .empty (h.deref ho)
  | pair ho _ _ iha ihd => exact .pair (h.deref ho) iha ihd
  | @closure r e here outer ho hscope =>
    refine .closure (h.deref ho) (h.scope hs hscope ?_)
    rintro ⟨⟩
    cases r with
    | obj n => exact (hs.closures n _ ho).2 rfl
    | cell n =>
      obtain ⟨c, -, hc⟩ := Option.map_eq_some_iff.mp ho
      cases hc

/-- So do the references of a stack. -/
theorem forall₂ (h : Kept vm vm') (hs : Sound True vm) {refs : List Ref} {s : List Val}
    (hrefs : List.Forall₂ (Means vm) refs s) : List.Forall₂ (Means vm') refs s :=
  hrefs.imp fun _ _ => h.means hs

theorem optionRel (h : Kept vm vm') (hs : Sound True vm) {r : Option Ref} {v : Option Val}
    (hr : Option.Rel (Means vm) r v) : Option.Rel (Means vm') r v := by
  cases hr with
  | some hr => exact .some (h.means hs hr)
  | none => exact .none

/-- A table that stays has the bindings it had. -/
theorem hasBindings (h : Kept vm vm') (hs : Sound True vm) {t t' : ℕ} {bindings : Bindings}
    (ht : HasBindings vm t bindings) (htable : vm'.tables[t']? = vm.tables[t]?) :
    HasBindings vm' t' bindings := by
  obtain ⟨entries, hentries, hkept, hlookup⟩ := ht
  exact ⟨entries, htable.trans hentries, h.keysKept hkept, fun name => h.optionRel hs (hlookup name)⟩

end Kept

/-! ## States in order

The invariants that reading a name or a binding rests on, which every change allowed here keeps. -/

/-- **A state in order**: its symbols are interned, and the two booleans are what they are called. -/
structure Ordered (vm : VmInternal) : Prop where
  sound : Sound True vm
  interned : ∃ entries, InternedIn entries vm
  vmTrue : vm.deref vm.vmTrue = some (.bool true)
  vmFalse : vm.deref vm.vmFalse = some (.bool false)

/-- **Order is kept** by the changes that a round makes. -/
theorem Ordered.changes {vm vm' : VmInternal} (h : Ordered vm) (hchanges : Changes Allow.names vm vm')
    (hkept : Kept vm vm') : Ordered vm' where
  sound := hchanges.sound h.sound
  interned := by
    obtain ⟨entries, hin⟩ := h.interned
    exact (hchanges.interned h.sound hin).2
  vmTrue := hkept.booleans.1 ▸ hkept.deref h.vmTrue
  vmFalse := hkept.booleans.2 ▸ hkept.deref h.vmFalse

end Insomniac.Abstract

import Insomniac.Vm.Runs

/-!
# Vm/Grown — memory that is added to

    vm ──alloc, push, clone_env, …──▸ vm'        what `vm` has at a place, `vm'` has there too

Most of what the machine does only adds to its memory (`Grown`): an object that is there stays (`Grown.deref`), and
so does an environment.  `handle_exception` is one such function (`handleException_grown`), whatever it is called
with; where it comes back at all, the machine goes on in a copy of an environment with a handler (`dispatch_ok`).
-/

open Bytes Insomniac.Asm Run

namespace Insomniac.Vm

/-! ## Memory that is added to

One prefix for each kind of block.  The tables are not among them: `hash_set` writes to them in place. -/

/-- What is in memory stays. -/
structure Grown (vm vm' : VmInternal) : Prop where
  objs : vm.objs <+: vm'.objs
  cells : vm.cells <+: vm'.cells
  bytes : vm.bytes <+: vm'.bytes
  arrays : vm.arrays <+: vm'.arrays
  envs : vm.envs <+: vm'.envs
  tables : vm'.tables = vm.tables
  empty : vm'.empty = vm.empty

/-- What a list has, every list that it begins has too. -/
theorem getElem?_of_isPrefix {α : Type} {l l' : List α} (h : l <+: l') {n : ℕ} {a : α}
    (ha : l[n]? = some a) : l'[n]? = some a := by
  obtain ⟨rest, rfl⟩ := h
  exact getElem?_append_of_some ha

namespace Grown

variable {vm vm' vm'' : VmInternal}

theorem refl (vm : VmInternal) : Grown vm vm :=
  ⟨List.prefix_rfl, List.prefix_rfl, List.prefix_rfl, List.prefix_rfl, List.prefix_rfl, rfl, rfl⟩

/-- What is added is added to. -/
theorem trans (h : Grown vm vm') (h' : Grown vm' vm'') : Grown vm vm'' where
  objs := h.objs.trans h'.objs
  cells := h.cells.trans h'.cells
  bytes := h.bytes.trans h'.bytes
  arrays := h.arrays.trans h'.arrays
  envs := h.envs.trans h'.envs
  tables := h'.tables.trans h.tables
  empty := h'.empty.trans h.empty

/-- An object stays what it is. -/
theorem deref (h : Grown vm vm') {r : Ref} {o : Obj} (hr : vm.deref r = some o) :
    vm'.deref r = some o := by
  cases r with
  | obj n => exact getElem?_of_isPrefix h.objs hr
  | cell n =>
    obtain ⟨c, hc, rfl⟩ := Option.map_eq_some_iff.mp hr
    rw [VmInternal.deref, getElem?_of_isPrefix h.cells hc, Option.map_some]

theorem alloc (vm : VmInternal) (o : Obj) : Grown vm { vm with objs := vm.objs ++ [o] } :=
  { refl vm with objs := List.prefix_append _ _ }

/-- A new row of bytes adds one. -/
theorem newBytes (vm : VmInternal) (bs : List UInt8) : Grown vm { vm with bytes := vm.bytes ++ [bs] } :=
  { refl vm with bytes := List.prefix_append _ _ }

theorem newEnv (vm : VmInternal) (env : Env) : Grown vm { vm with envs := vm.envs ++ [env] } :=
  { refl vm with envs := List.prefix_append _ _ }

/-- Entering an environment makes a copy of it. -/
theorem enter (vm : VmInternal) (env : Env) : Grown vm (vm.enter env) :=
  { refl vm with envs := List.prefix_append _ _ }

/-- The stack grows by a pair. -/
theorem push (vm : VmInternal) (obj : Ptr) : Grown vm (vm.push obj) :=
  { refl vm with cells := List.prefix_append _ _ }

theorem pop (vm : VmInternal) (cdr : Ref) : Grown vm (vm.pop cdr) := { refl vm with }

theorem ask (vm : VmInternal) (call : HostCall) : Grown vm { vm with calls := call :: vm.calls } :=
  { refl vm with }

end Grown

/-! ## Lists in memory

A list of the machine is read along its pairs; the stack is the list from `stack_root` on. -/

/-- The list from a pair on. -/
inductive VmInternal.ListAt (vm : VmInternal) : Ref → List Ptr → Prop
  | nil : vm.ListAt vm.empty []
  | cons {r cdr : Ref} {car : Ptr} {l : List Ptr} : vm.deref r = some (.pair car (some cdr)) →
      vm.ListAt cdr l → vm.ListAt r (car :: l)

/-- The stack is a list. -/
def VmInternal.StackIs (vm : VmInternal) (s : List Ptr) : Prop := vm.ListAt vm.stackRoot s

/-! ## Programs that only add

One rule for each construct and each primitive; a program that is put together from them needs no proof of its own
about states. -/

/-- **A program that only adds to memory**, whenever it comes to an end. -/
def Adds {α : Type} (m : VmM α) : Prop := ∀ vm a vm', m vm = .ok (a, vm') → Grown vm vm'

section

variable {α β : Type} {m : VmM α} {f : α → VmM β}

theorem Adds.pure (a : α) : Adds (Pure.pure a : VmM α) := by
  rintro vm _ _ ⟨⟩
  exact .refl vm

/-- **A sequence** only adds when its parts do. -/
theorem Adds.bind (hm : Adds m) (hf : ∀ a, Adds (f a)) : Adds (m >>= f) := by
  intro vm b vm' hrun
  obtain ⟨a, vm₁, hfirst, hrest⟩ := bind_ok hrun
  exact (hm vm a vm₁ hfirst).trans (hf a vm₁ b vm' hrest)

/-- Looking at the state adds nothing. -/
theorem adds_get : Adds (get : VmM VmInternal) := by
  rintro vm _ _ ⟨⟩
  exact .refl vm

/-- Nor does looking at a part of it. -/
theorem adds_ofOption {f : VmInternal → Option α} : Adds (ofOption f) := by
  intro vm a vm' hrun
  obtain ⟨-, rfl⟩ := ofOption_ok hrun
  exact .refl vm'

theorem adds_undefined : Adds (undefined : VmM α) := by
  rintro vm a vm' ⟨⟩

theorem adds_alloc (o : Obj) : Adds (alloc o) := by
  rintro vm _ _ ⟨⟩
  exact .alloc vm o

theorem adds_newBytes (bs : List UInt8) : Adds (newBytes bs) := by
  rintro vm _ _ ⟨⟩
  exact .newBytes vm bs

theorem adds_newEnv (env : Env) : Adds (newEnv env) := by
  rintro vm _ _ ⟨⟩
  exact .newEnv vm env

/-- A new pair of the stack. -/
theorem adds_push (obj : Ptr) : Adds (vmPush obj) := by
  rintro vm _ _ ⟨⟩
  exact .push vm obj

theorem adds_vmMakeString (buf : List UInt8) (length : Int64) : Adds (vmMakeString buf length) := by
  unfold vmMakeString
  split
  · exact adds_undefined
  · exact (adds_newBytes _).bind fun _ => adds_alloc _

/-- Objects are put in front of a list one after another. -/
theorem adds_conses : ∀ (args : List Ref) (exception : Ref),
    Adds (args.foldlM (fun exception obj => cons obj exception) exception)
  | [], exception => .pure exception
  | _ :: args, _ => by
      rw [List.foldlM_cons]
      exact (adds_alloc _).bind fun exception => adds_conses args exception

end

/-! ## Exceptions

`handle_exception` makes its list of arguments, looks for a handler, and copies an environment: all of it adds. -/

/-- The object that is thrown, with its arguments. -/
theorem adds_makeException (msg : List UInt8) (args : List Ref) : Adds (makeException msg args) :=
  adds_get.bind fun vm => (adds_conses args vm.empty).bind fun _ => adds_get.bind fun _ =>
    Adds.bind (adds_ofOption.bind fun env => adds_newEnv env) fun _ => (adds_alloc _).bind fun _ =>
      (adds_alloc _).bind fun _ => (adds_vmMakeString _ _).bind fun _ => adds_alloc _

/-- **Where an exception goes on**: in a copy of the innermost environment with a handler, at its handler. -/
theorem dispatch_ok {msg : List UInt8} {vm vm' : VmInternal} (h : dispatch msg vm = .ok ((), vm')) :
    ∃ (e : ℕ) (env : Env), vm.envs[e]? = some env ∧ env.handler = true ∧
      vm' = vm.enter { env with handler := false, ip := env.handlerAddr } := by
  have hrun : dispatch msg vm = _ := run_bind rfl
  rw [hrun] at h
  cases he : vm.findHandler with
  | none =>
    simp only [he] at h
    cases h
  | some e =>
    obtain ⟨env, henv, hhandler⟩ := exists_of_findHandler he
    simp only [he] at h
    have hswitch := (run_bind (switchEnv_run henv)).symm.trans h
    refine ⟨e, env, henv, hhandler, ?_⟩
    cases hswitch
    simp only [updateEnv_enter]

/-- **An exception only adds to memory**: it makes its object, pushes it, and enters a new environment. -/
theorem handleException_grown {msg : List UInt8} {args : List Ref} {vm vm' : VmInternal}
    (h : handleException msg args vm = .ok ((), vm')) : Grown vm vm' := by
  obtain ⟨exception, vm₁, hmake, hrest⟩ := bind_ok h
  obtain ⟨⟨⟩, vm₂, hpush, hdispatch⟩ := bind_ok hrest
  obtain ⟨e, env, -, -, rfl⟩ := dispatch_ok hdispatch
  exact (adds_makeException msg args vm exception vm₁ hmake).trans
    ((adds_push _ vm₁ () vm₂ hpush).trans (.enter vm₂ _))

end Insomniac.Vm

import Insomniac.Vm.Runs

/-!
# Vm/Closures — closures can be entered again and again

Nothing refers to the current environment, and only the current environment is written to.  So what
a closure saved stays as it was.

    closure ──▸ env ──clone──▸ current          closure ──▸ env ──clone──▸ current
-/

open Bytes Insomniac.Asm Run

namespace Insomniac.Vm

/-! ## What a closure saved

The environment of a closure is one that exists and is not current, so no instruction writes to it. -/

/-- A closure of an environment with a given content. -/
structure Saved (n e : ℕ) (env : Env) (vm : VmInternal) : Prop where
  closure : vm.objs[n]? = some (.closure e)
  env : vm.envs[e]? = some env

section

variable {n e : ℕ} {env : Env} {null : Prop} {vm : VmInternal}

/-- What is saved is not the current environment. -/
theorem Saved.ne (h : Saved n e env vm) (hs : Sound null vm) : e ≠ vm.env := (hs.closures n e h.closure).2

/-- Writing to an object that is not a closure. -/
theorem Saved.setObj (h : Saved n e env vm) {m : ℕ} {o o' : Obj} (ho : vm.objs[m]? = some o)
    (hne : ∀ e, o ≠ .closure e) : (vm.objs.set m o')[n]? = some (.closure e) := by
  have hmn : m ≠ n := by
    rintro rfl
    exact hne e (Option.some.inj (ho.symm.trans h.closure))
  rw [List.getElem?_set_ne hmn, h.closure]

/-- Writing to the current environment leaves it alone. -/
theorem Saved.updateEnv (h : Saved n e env vm) (hs : Sound null vm) (f : Env → Env) :
    Saved n e env (vm.updateEnv f) where
  closure := h.closure
  env := by
    rw [VmInternal.updateEnv, List.getElem?_modify, h.env]
    simp [(h.ne hs).symm]

end

/-- **A change leaves what closures saved as it is.** -/
theorem Change.saved {A : Allow} {n e : ℕ} {env : Env} {vm vm' : VmInternal} (hchange : Change A vm vm')
    (hs : Sound A.null vm) (h : Saved n e env vm) : Saved n e env vm' := by
  cases hchange with
  | setPair hpair hcar hcdr hallowed => exact ⟨h.setObj hpair (by rintro e ⟨⟩), h.env⟩
  | intern ho hstring hname hold hnew hvalues =>
    exact ⟨h.setObj ho (by rintro e rfl; cases hstring), h.env⟩
  | setIp henv hplace => exact h.updateEnv hs _
  | setHandler henv hok => exact h.updateEnv hs _
  | alloc ho => exact ⟨getElem?_append_of_some h.closure, h.env⟩
  | allocBytes bs ho howns => exact ⟨getElem?_append_of_some h.closure, h.env⟩
  | allocArray ho hps howns => exact ⟨getElem?_append_of_some h.closure, h.env⟩
  | slice hn => exact ⟨getElem?_append_of_some h.closure, h.env⟩
  | closure hok hplaced hbindings hparent =>
    exact ⟨getElem?_append_of_some h.closure, getElem?_append_of_some h.env⟩
  | enter hok hplaced hbindings hparent => exact ⟨h.closure, getElem?_append_of_some h.env⟩
  | call hok hplaced hbindings hparent =>
    exact ⟨getElem?_append_of_some h.closure, getElem?_append_of_some h.env⟩
  | _ => exact ⟨h.closure, h.env⟩

/-- **Changes leave alone what is saved.** -/
theorem Changes.saved {A : Allow} {n e : ℕ} {env : Env} {vm vm' : VmInternal} (h : Changes A vm vm')
    (hs : Sound A.null vm) (hsaved : Saved n e env vm) : Saved n e env vm' := by
  induction h with
  | refl => exact hsaved
  | tail hchanges hchange ih => exact hchange.saved (Changes.sound hchanges hs) ih

/-- So does a call from outside. -/
theorem Call.saved {n e : ℕ} {env : Env} {vm vm' : VmInternal} (h : Call vm vm') (hs : Sound True vm)
    (hsaved : Saved n e env vm) : Saved n e env vm' := by
  cases h with
  | load code => exact ⟨hsaved.closure, hsaved.env⟩
  | eval length hrunning hcode => exact hsaved.updateEnv hs _
  | reset hrunning => exact ⟨hsaved.closure, getElem?_append_of_some hsaved.env⟩

theorem Later.saved {host : Host} {n e : ℕ} {env : Env} {vm vm' : VmInternal} (h : Later host vm vm')
    (hs : Sound True vm) (hsaved : Saved n e env vm) : Saved n e env vm' := by
  induction h with
  | refl => exact hsaved
  | @tail vm₁ _ hlater hnext ih =>
    have hs₁ := Later.sound hlater hs
    cases hnext with
    | step h hc => exact (h.changes (A := Allow.all) hs₁ (permits_all _ vm₁)).saved hs₁ ih
    | call h => exact h.saved hs₁ ih

/-! ## Entering it

`ret` and `jin` copy what the closure saved, and go on in the copy. -/

theorem load_run {vm : VmInternal} {n e : ℕ} {env : Env} (h : Saved n e env vm) (cdr : Ref) :
    load (.obj n) (vm.pop cdr) = .ok (.closure e, vm.pop cdr) := ofOption_run h.closure

/-- The current environment is a child of a copy of an environment with a given content. -/
def VmInternal.Inside (vm : VmInternal) (env : Env) : Prop :=
  ∃ p bindings, vm.envs[p]? = some env ∧ vm.envs[vm.env]? =
    some { env with bindings, handler := false, handlerAddr := 0, parent := some p }

/-- **A call enters a child of a copy.** -/
theorem enter_run {vm : VmInternal} {e : ℕ} {env : Env} (h : vm.envs[e]? = some env) :
    ∃ vm', enter e vm = .ok ((), vm') ∧ vm'.Inside env := by
  refine ⟨_, (run_bind (switchEnv_run h)).trans (pushEnv_run (getElem?_enter vm env)),
    vm.envs.length, vm.tables.length, getElem?_append_of_some ?_, getElem?_enter _ _⟩
  exact getElem?_enter vm env

/-- **What using a closure does**: it goes on from what was saved. -/
structure Resumes (n : ℕ) (env : Env) (vm : VmInternal) : Prop where
  ret : ∀ throw cdr, vm.Top (.obj n) cdr → opRet throw vm = .ok ((), (vm.pop cdr).enter env)
  callIn : ∀ throw cdr, vm.Top (.obj n) cdr →
    ∃ vm', opCallIn throw vm = .ok ((), vm') ∧ vm'.Inside env
  tailCallIn : ∀ throw cdr vm', vm.Top (.obj n) cdr →
    opTailCallIn throw vm = .ok ((), vm') → vm'.Inside env
  jin : ∀ throw cdr old, vm.Top (.obj n) cdr → vm.envs[vm.env]? = some old →
    opJin throw vm = .ok ((), (vm.pop cdr).enter
      { env with bindings := old.bindings, parent := old.parent })

section

variable {throw : Throw} {n e : ℕ} {env : Env} {vm : VmInternal} {cdr : Ref}

/-- `ret` goes on in a copy of what was saved. -/
theorem opRet_run (h : Saved n e env vm) (htop : vm.Top (.obj n) cdr) :
    opRet throw vm = .ok ((), (vm.pop cdr).enter env) :=
  (run_bind (vmPop_run htop)).trans ((run_bind (load_run h cdr)).trans (switchEnv_run h.env))

/-- The closure of the caller is pushed before the closure's environment is entered. -/
theorem opCallIn_run (h : Saved n e env vm) (htop : vm.Top (.obj n) cdr) :
    ∃ vm', opCallIn throw vm = .ok ((), vm') ∧ vm'.Inside env := by
  let vm₁ : VmInternal := { vm.pop cdr with objs := vm.objs ++ [.closure vm.env] }
  have henv : (vm₁.push (some (.obj vm.objs.length))).envs[e]? = some env := h.env
  obtain ⟨vm', hrun, hinside⟩ := enter_run henv
  refine ⟨vm', ?_, hinside⟩
  exact (run_bind (vmPop_run htop)).trans ((run_bind (load_run h cdr)).trans ((run_bind rfl).trans
    ((run_bind rfl).trans ((run_bind rfl).trans hrun))))

/-- Two operands change places, and both pops may fail. -/
theorem opTailCallIn_ends (hs : Sound True vm) (h : Saved n e env vm) (htop : vm.Top (.obj n) cdr) :
    Ends Allow.all.Stops (opTailCallIn throw) vm fun _ vm' => vm'.Inside env := by
  have hpop : Changes Allow.all vm (vm.pop cdr) := .single (.pop htop)
  refine ends_bind.mpr (ends_of_eq (vmPop_run htop) (ends_bind.mpr (ends_of_eq (load_run h cdr) ?_)))
  refine Ends.bind (built_pop.does hs hpop) fun reg2 vm₂ ⟨h2, hreg2⟩ => ?_
  refine Ends.bind (built_pop.does hs h2) fun reg3 vm₃ ⟨h3, hreg3⟩ => ?_
  refine Ends.bind ((built_pushRef hreg2).does hs h3) fun _ vm₄ ⟨h4, _⟩ => ?_
  refine Ends.bind ((built_pushRef hreg3).does hs h4) fun _ vm₅ ⟨h5, _⟩ => ?_
  obtain ⟨vm', hrun, hinside⟩ := enter_run (h5.saved hs h).env
  exact ends_of_eq hrun hinside

/-- `jin` keeps the bindings of the caller. -/
theorem opJin_run {old : Env} (h : Saved n e env vm) (htop : vm.Top (.obj n) cdr)
    (hold : vm.envs[vm.env]? = some old) :
    opJin throw vm = .ok ((), (vm.pop cdr).enter
      { env with bindings := old.bindings, parent := old.parent }) := by
  have hold' : currentEnv (vm.pop cdr) = .ok (old, vm.pop cdr) := ofOption_run hold
  have hswitch : switchEnv e (vm.pop cdr) = .ok ((), (vm.pop cdr).enter env) := switchEnv_run h.env
  refine (run_bind (vmPop_run htop)).trans ((run_bind (load_run h cdr)).trans
    ((run_bind hold').trans ((run_bind hswitch).trans ?_)))
  rw [updateEnv, updateEnv_enter]

/-- Both enter what the closure saved. -/
theorem Saved.resumes (hs : Sound True vm) (h : Saved n e env vm) : Resumes n env vm where
  ret _ _ := opRet_run h
  callIn _ _ := opCallIn_run h
  tailCallIn _ _ _ htop hrun := (opTailCallIn_ends hs h htop).of_ok hrun
  jin _ _ _ := opJin_run h

end

/-- **Closures can be entered again and again**: no closure and no environment refers to the current
environment, and what a closure saved is what it still has, and what using it goes on from, in every
later state. -/
theorem closures_reenterable {host : Host} {vm : VmInternal} (h : Reachable host vm) :
    (∀ n e : ℕ, vm.objs[n]? = some (.closure e) → e ≠ vm.env) ∧
      (∀ (i : ℕ) (env : Env), vm.envs[i]? = some env → env.parent ≠ some vm.env) ∧
      ∀ n e : ℕ, vm.objs[n]? = some (.closure e) → ∃ env, vm.envs[e]? = some env ∧
        ∀ vm', Later host vm vm' → vm'.objs[n]? = some (.closure e) ∧ vm'.envs[e]? = some env ∧
          Resumes n env vm' := by
  have hs := h.sound
  refine ⟨fun n e hn => (hs.closures n e hn).2, fun i env hi hp => (hs.parents i env _ hi hp).2 rfl,
    fun n e hn => ?_⟩
  have henv := List.getElem?_eq_getElem (hs.closures n e hn).1
  refine ⟨_, henv, fun vm' hlater => ?_⟩
  have hsaved : Saved n e _ vm' := hlater.saved hs ⟨hn, henv⟩
  exact ⟨hsaved.closure, hsaved.env, hsaved.resumes (hlater.sound hs)⟩

/-- A closure of the end of a program that makes it. -/
theorem closures_reenterable_proc : ∃ vm, Reachable Host.bare vm ∧
    vm.objs[3]? = some (.closure 1) ∧ ∃ env, vm.envs[1]? = some env ∧ env.ip = 9 ∧
      ∀ vm', Later Host.bare vm vm' → vm'.envs[1]? = some env := by
  have hpasses : passes (vmLoop Host.bare 1) (startBytes (Op.proc.byte :: int64 0) vmCreate) (fun vm =>
      vm.objs[3]? = some (.closure 1) ∧ vm.envs[1]?.map Env.ip = some 9) = true := by decide
  obtain ⟨⟨⟩, vm, hrun, hvm⟩ := exists_of_passes hpasses
  obtain ⟨hclosure, hip⟩ := of_decide_eq_true hvm
  have h : Reachable Host.bare vm := (later_startBytes _ rfl).trans (later_vmLoop hrun)
  obtain ⟨-, -, hclosures⟩ := closures_reenterable h
  obtain ⟨env, henv, hlater⟩ := hclosures 3 1 hclosure
  exact ⟨vm, h, hclosure, env, henv, by simpa [henv] using hip, fun vm' hvm' => (hlater vm' hvm').2.1⟩

end Insomniac.Vm

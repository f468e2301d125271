import Insomniac.Vm.Grown

/-!
# Vm/Handlers — where handlers come from

    continue L   in code c   ──▸   established (c, L)   ──throw──▸   code c, at L

A run is told together with the pairs of code and address that its `continue`s have named.  An environment takes its
handler from another one with its code, unless `asm` or `vm_eval` puts other code in, or `restore` brings a handler
back that is not there.

Where an exception goes on is told of the exceptions that a round throws itself: the round is run with a `throw` that
stops at an address that was not established (`checked`), and that makes no difference (`DispatchesNamed`).
-/

open Bytes Insomniac.Asm Run

namespace Insomniac.Vm

/-! ## Runs with what they established

A run keeps a list of the pairs of code and address that its `continue`s have named so far; the owner's calls
add nothing to it. -/

/-- A piece of code and an address in it. -/
abbrev CodeAddr := Option ℕ × ℕ

/-- What a round establishes: the target of `continue`. -/
def VmInternal.establishes (vm : VmInternal) : List CodeAddr :=
  if vm.nextOp = some .continue then vm.target.toList else []

/-- **A run**, with what was established, newest first; `C` holds before every round, and `D` before
every call of the owner. -/
inductive Traced (host : Host) (C : List CodeAddr → VmInternal → Prop)
    (D : List CodeAddr → VmInternal → VmInternal → Prop) : List CodeAddr → VmInternal → Prop
  | start : Traced host C D [] vmCreate
  | step {established : List CodeAddr} {vm vm' : VmInternal} : Traced host C D established vm →
      Step host vm vm' → C established vm → Traced host C D (vm.establishes ++ established) vm'
  | call {established : List CodeAddr} {vm vm' : VmInternal} : Traced host C D established vm →
      Call vm vm' → D established vm vm' → Traced host C D established vm'

/-- Every handler was named by a `continue` in its code. -/
def HandlersNamed (established : List CodeAddr) (vm : VmInternal) : Prop :=
  ∀ env ∈ vm.envs, env.handler = true → (env.codeRef, env.handlerAddr) ∈ established

/-- `handle_exception`, and then a look at where the machine goes on: it stops when that was not established. -/
def checked (established : List CodeAddr) : Throw := fun msg args => do
  handleException msg args
  let env ← currentEnv
  if (env.codeRef, env.ip) ∈ established then pure ()
  else raise msg args

/-- **Where the exceptions of a round go on**: each of them at an address that was established, in its code.  No round
stops with `raised` by itself, so that a look at an exception that goes on elsewhere is a difference. -/
def DispatchesNamed (host : Host) (established : List CodeAddr) (vm : VmInternal) : Prop :=
  evalStepWith host (checked established) vm = evalStep host vm

/-! ## Handlers that stay named

An environment gets its handler from `continue`, or from the environment that it was copied from.  As long as
the code is copied with it, the pair is one that was named. -/

/-- **A round leaves handlers named**: a string is assembled where there is no handler, and `restore` brings back
a handler that was established. -/
structure KeepsHandlers (established : List CodeAddr) (vm : VmInternal) : Prop where
  asm : vm.Assembles → ∀ env, vm.envs[vm.env]? = some env → env.handler = false
  restore : vm.nextOp = some .restore → ∀ env, vm.envs[vm.env]? = some env →
    (env.codeRef, env.handlerAddr) ∈ established

/-- **A call of the owner leaves handlers named**: `vm_eval` puts its code where there is no handler,
or where that handler was established. -/
def CallKeepsHandlers (established : List CodeAddr) (_ vm' : VmInternal) : Prop :=
  ∀ env, vm'.envs[vm'.env]? = some env → env.handler = true → (env.codeRef, env.handlerAddr) ∈ established

/-- Handlers may be set where they are established. -/
def Allow.named (established : List CodeAddr) : Allow where
  null := True
  write _ _ := True
  handler _ env := (env.codeRef, env.handlerAddr) ∈ established
  sized := False

section

variable {host : Host} {established : List CodeAddr} {vm vm' : VmInternal}

/-- A new environment. -/
theorem HandlersNamed.concat {env : Env} (h : HandlersNamed established vm)
    (henv : EnvAllowed (Allow.named established) vm env) (henvs : vm'.envs = vm.envs ++ [env]) :
    HandlersNamed established vm' := by
  intro env' hmem hhandler
  rw [henvs] at hmem
  rcases List.mem_append.mp hmem with hmem | hmem
  · exact h env' hmem hhandler
  · obtain rfl := List.mem_singleton.mp hmem
    rcases henv hhandler with ⟨old, hold, hhandler', hcode, -, haddr⟩ | hnamed
    · rw [← hcode, ← haddr]
      exact h old hold hhandler'
    · exact hnamed

/-- Writing to the current environment. -/
theorem HandlersNamed.update {f : Env → Env} (h : HandlersNamed established vm)
    (hf : ∀ env, vm.envs[vm.env]? = some env → (f env).handler = true →
      ((f env).codeRef, (f env).handlerAddr) ∈ established) : HandlersNamed established (vm.updateEnv f) := by
  intro env hmem hhandler
  obtain ⟨i, hi⟩ := List.mem_iff_getElem?.mp hmem
  rw [VmInternal.updateEnv, List.getElem?_modify] at hi
  obtain ⟨old, hold, rfl⟩ := Option.map_eq_some_iff.mp hi
  split at hhandler
  · next hcurrent =>
    rw [if_pos hcurrent]
    exact hf old (hcurrent ▸ hold) hhandler
  · next hother =>
    rw [if_neg hother]
    exact h old (List.mem_of_getElem? hold) hhandler

/-- **A change keeps handlers named.** -/
theorem Change.named (hchange : Change (Allow.named established) vm vm') (h : HandlersNamed established vm) :
    HandlersNamed established vm' := by
  cases hchange with
  | setIp henv hplace => exact h.update fun env henv hhandler => h env (List.mem_of_getElem? henv) hhandler
  | @setHandler env addr henv hok =>
    refine h.update fun env' henv' _ => ?_
    cases henv.symm.trans henv'
    rcases hok rfl with ⟨old, hold, hhandler, hcode, -, haddr⟩ | hnamed
    · have hnamed := h old hold hhandler
      rw [hcode, haddr] at hnamed
      exact hnamed
    · exact hnamed
  | closure hok hplaced hbindings hparent => exact h.concat hok rfl
  | enter hok hplaced hbindings hparent => exact h.concat hok rfl
  | @call env hok hplaced hbindings hparent => exact @HandlersNamed.concat _ _ _ env h hok rfl
  | _ => exact h

/-- **Changes keep handlers named**, where they are allowed to. -/
theorem Changes.named (hchanges : Changes (Allow.named established) vm vm')
    (h : HandlersNamed established vm) : HandlersNamed established vm' := by
  induction hchanges with
  | refl => exact h
  | tail _ hchange ih => exact hchange.named ih

/-- A round that meets the condition makes only such changes. -/
theorem permits_named (h : KeepsHandlers established vm) :
    Permits (Allow.named (vm.establishes ++ established)) host vm where
  null _ _ := trivial
  write _ _ _ _ _ := trivial
  asm hnext env henv hhandler := absurd hhandler (by rw [h.asm hnext env henv]; exact Bool.false_ne_true)
  cont hnext vm₁ env' htarget := by
    refine List.mem_append_left _ ?_
    rw [VmInternal.establishes, if_pos hnext, htarget]
    exact List.mem_singleton_self _
  restore hnext env henv vm₁ env' hcode _ haddr := by
    refine List.mem_append_right _ ?_
    rw [hcode, haddr]
    exact h.restore hnext env henv
  sized := False.elim

/-- What the owner does keeps handlers named. -/
theorem Call.named (hcall : Call vm vm') (hkeeps : CallKeepsHandlers established vm vm')
    (h : HandlersNamed established vm) : HandlersNamed established vm' := by
  cases hcall with
  | load code => exact h
  | eval length hrunning hcode =>
    exact h.update fun env henv hhandler => hkeeps _ (getElem?_updateEnv henv _) hhandler
  | reset hrunning =>
    refine h.concat (?_ : EnvAllowed _ vm (rootEnv vm.tables.length)) rfl
    rintro ⟨⟩

/-- At the start there is no handler. -/
theorem handlersNamed_vmCreate : HandlersNamed [] vmCreate := by
  intro env hmem hhandler
  obtain rfl := List.mem_singleton.mp hmem
  cases hhandler

/-- A run keeps the state in order. -/
theorem Traced.sound {C : List CodeAddr → VmInternal → Prop} {D : List CodeAddr → VmInternal → VmInternal → Prop}
    (h : Traced host C D established vm) : Sound True vm := by
  induction h with
  | start => exact sound_vmCreate True
  | step _ h _ ih => exact (h.changes (A := Allow.all) ih (permits_all host _)).sound ih
  | call _ h _ ih => exact h.sound ih

/-- **In every state of such a run, handlers are named.** -/
theorem Traced.named (h : Traced host KeepsHandlers CallKeepsHandlers established vm) :
    HandlersNamed established vm := by
  induction h with
  | start => exact handlersNamed_vmCreate
  | @step established vm vm' htraced h hc ih =>
    have hmore : HandlersNamed (vm.establishes ++ established) vm := fun env hmem hhandler =>
      List.mem_append_right _ (ih env hmem hhandler)
    exact (h.changes (A := Allow.named _) htraced.sound (permits_named hc)).named hmore
  | call _ h hd ih => exact h.named hd ih

end

/-! ## The exceptions of a round

An instruction is the same program with `checked` as with `handle_exception` (`Same`): what comes before a throw keeps
handlers named, and the throw finds one of them.  There is one rule for each construct, as for `Built`. -/

/-- **Looking at the exceptions makes no difference**, where handlers are named. -/
def Same (established : List CodeAddr) {α : Type} (m : Throw → VmM α) : Prop :=
  ∀ vm, Sound True vm → HandlersNamed established vm → m (checked established) vm = m handleException vm

section

variable {α β : Type} {host : Host} {established : List CodeAddr} {Q : α → Prop}

/-- A program that does not throw. -/
theorem Same.const (m : VmM α) : Same established fun _ => m := fun _ _ _ => rfl

/-- **An exception goes on at a handler**, and handlers are named. -/
theorem Same.throw (msg : List UInt8) {args : List Ref} (hargs : ∀ r ∈ args, r.IsObj) :
    Same established fun throw => throw msg args := by
  intro vm hs h
  cases hrun : handleException msg args vm with
  | error e => exact (bind_error _ hrun : checked established msg args vm = _).trans hrun.symm
  | ok r =>
    obtain ⟨⟨⟩, vm'⟩ := r
    obtain ⟨exception, vm₁, hmake, hrest⟩ := bind_ok hrun
    obtain ⟨⟨⟩, vm₂, hpush, hdispatch⟩ := bind_ok hrest
    cases hpush
    obtain ⟨e, env, henv, hhandler, rfl⟩ := dispatch_ok hdispatch
    have hchanges := (Ends.of_ok (built_makeException (A := Allow.named established) msg hargs vm hs) hmake).1
    have hnamed : (env.codeRef, env.handlerAddr) ∈ established :=
      hchanges.named h env (List.mem_of_getElem? henv) hhandler
    have hcheck : checked established msg args vm = _ :=
      (run_bind hrun).trans (run_bind (ofOption_run (getElem?_enter _ _)))
    exact hcheck.trans ((congrFun (if_pos hnamed) _).trans hrun.symm)

theorem Same.throw₁ (msg : List UInt8) {r : Ref} (hr : r.IsObj) : Same established fun throw => throw msg [r] :=
  .throw msg (by simpa using hr)

theorem Same.throw₂ (msg : List UInt8) {r r' : Ref} (hr : r.IsObj) (hr' : r'.IsObj) :
    Same established fun throw => throw msg [r, r'] :=
  .throw msg (by simpa using ⟨hr, hr'⟩)

/-- **A sequence**: its first part keeps handlers named. -/
theorem Same.bind_throw {m : Throw → VmM α} {f : α → Throw → VmM β} (hm : Same established m)
    (hbuilt : Built (Allow.named established) (m handleException) Q) (hf : ∀ a, Q a → Same established (f a)) :
    Same established fun throw => m throw >>= fun a => f a throw := by
  intro vm hs h
  refine (bind_congr_run _ (hm vm hs h)).trans ?_
  rcases hbuilt vm hs with ⟨a, vm', hrun, hchanges, ha⟩ | ⟨e, hrun, -⟩
  · have hnext := hf a ha vm' (hchanges.sound hs) (hchanges.named h)
    have hrest : (m handleException >>= fun a => f a handleException) vm = _ := run_bind hrun
    exact (run_bind hrun).trans (hnext.trans hrest.symm)
  · exact (bind_error _ hrun).trans (bind_error _ hrun).symm

/-- A part that does not throw. -/
theorem Same.bind {m : VmM α} {f : α → Throw → VmM β} (hbuilt : Built (Allow.named established) m Q)
    (hf : ∀ a, Q a → Same established (f a)) : Same established fun throw => m >>= fun a => f a throw :=
  .bind_throw (.const m) hbuilt hf

/-- A rest that does not throw. -/
theorem Same.bind_const {m : Throw → VmM α} {f : α → VmM β} (hm : Same established m) :
    Same established fun throw => m throw >>= f :=
  fun vm hs h => bind_congr_run _ (hm vm hs h)

/-- A look at the state, and what follows it. -/
theorem Same.get {f : VmInternal → Throw → VmM β} (hf : ∀ vm, Same established (f vm)) :
    Same established fun throw => get >>= fun vm => f vm throw :=
  fun vm hs h => hf vm vm hs h

/-- A look at a part of it. -/
theorem Same.ofOption {f : VmInternal → Option α} {g : α → Throw → VmM β} (hg : ∀ a, Same established (g a)) :
    Same established fun throw => ofOption f >>= fun a => g a throw :=
  .bind (Q := fun _ => True) (.ofOption fun _ _ _ _ => trivial) fun a _ => hg a

/-- A test, and what follows in either case. -/
theorem Same.ite {p : Prop} [Decidable p] {m m' : Throw → VmM α} (hm : Same established m)
    (hm' : Same established m') : Same established fun throw => if p then m throw else m' throw := by
  split
  · exact hm
  · exact hm'

/-- An operand. -/
theorem Same.pop {f : Ref → Throw → VmM β} (hf : ∀ obj, obj.IsObj → Same established (f obj)) :
    Same established fun throw => vmPop >>= fun obj => f obj throw :=
  .bind built_pop hf

/-- A look at the type of an object. -/
theorem Same.load {f : Obj → Throw → VmM β} {r : Ref} (hf : ∀ o, Same established (f o)) :
    Same established fun throw => Vm.load r >>= fun o => f o throw :=
  .ofOption hf

/-! ### Lists and vectors

Instructions that look at what they pop, and throw where it is of another type. -/

theorem same_makeSymbol : Same established (opMakeSymbol host) := .pop fun obj hobj => by
  have hcheck : Same established fun throw => checkString throw obj := .load fun o => by
    cases o with
    | string length bytes => exact .const _
    | _ => exact .throw₁ _ hobj
  exact hcheck.bind_const

theorem same_car : Same established opCar := .pop fun obj hobj => .load fun o => by
  cases o with
  | pair car cdr => exact .const _
  | _ => exact .throw₁ _ hobj

theorem same_cdr : Same established opCdr := .pop fun obj hobj => .load fun o => by
  cases o with
  | pair car cdr => exact .const _
  | _ => exact .throw₁ _ hobj

/-- `set-car!` and `set-cdr!`: the first operand is stored, the second one must be a pair. -/
theorem same_setPair (set : Ref → Ptr → Ptr → Obj) (msg : List UInt8) :
    Same established fun throw => setPair throw set msg :=
  .pop fun obj hobj => .pop fun pair hpair => .load fun o => by
    cases o with
    | pair car cdr => exact .const _
    | _ => exact .throw₂ _ hobj hpair

/-- The instructions that make a block of a length. -/
theorem same_makeSized (make : Int64 → VmM Ref) (msg : List UInt8) :
    Same established fun throw => makeSized throw make msg := .pop fun obj hobj => .load fun o => by
  cases o with
  | fixnum length => exact .const _
  | _ => exact .throw₁ _ hobj

theorem same_vectorLength : Same established opVectorLength := .pop fun obj hobj => .load fun o => by
  cases o with
  | vector length slots => exact .const _
  | byteVector length bytes => exact .const _
  | _ => exact .throw₁ _ hobj

theorem same_stringByteVector : Same established opStringByteVector := .pop fun obj hobj => .load fun o => by
  cases o with
  | string length bytes => exact .const _
  | _ => exact .throw₁ _ hobj

theorem same_byteVectorString : Same established opByteVectorString := .pop fun obj hobj => .load fun o => by
  cases o with
  | byteVector length bytes => exact .const _
  | _ => exact .throw₁ _ hobj

/-- `idx!` throws on three kinds of operands. -/
theorem same_indexSet : Same established opIndexSet :=
  .pop fun vector hvector => .pop fun obj hobj => .pop fun objIndex hindex => .load fun o => by
    cases o with
    | fixnum index =>
      refine .load fun o => ?_
      cases o with
      | vector length slots => exact .ite (.const _) (.throw₁ _ hvector)
      | record length slots => exact .ite (.const _) (.throw₁ _ hvector)
      | byteVector length bytes =>
        refine .ite (.load fun o => ?_) (.throw₁ _ hvector)
        cases o with
        | fixnum integer => exact .const _
        | _ => exact .throw₁ _ hobj
      | _ => exact .throw₁ _ hvector
    | _ => exact .throw₁ _ hindex

theorem same_indexRef : Same established opIndexRef :=
  .pop fun vector hvector => .pop fun objIndex hindex => .load fun o => by
    cases o with
    | fixnum index =>
      refine .load fun o => ?_
      cases o with
      | vector length slots => exact .ite (.const _) (.throw₁ _ hvector)
      | record length slots => exact .ite (.const _) (.throw₁ _ hvector)
      | byteVector length bytes => exact .ite (.const _) (.throw₁ _ hvector)
      | _ => exact .throw₁ _ hvector
    | _ => exact .throw₁ _ hindex

/-! ### Jumps and locations

An unbound symbol is thrown by `read` and `set`; the calls and the returns throw where there is no closure. -/

theorem same_adopt : Same established opAdopt :=
  .pop fun parent hparent => .pop fun child hchild => .load fun o => by
    cases o with
    | closure parent' =>
      refine .load fun o => ?_
      cases o with
      | closure child' => exact .const _
      | _ => exact .throw₁ _ hchild
    | _ => exact .throw₁ _ hparent

/-- The instructions that jump to a closure throw with it when it is none. -/
theorem same_closure (msg : List UInt8) (go : ℕ → VmM Unit) : Same established fun throw => vmPop >>= fun closure =>
    load closure >>= fun o => match o with
      | .closure closure => go closure
      | _ => throw msg [closure] := .pop fun closure hclosure => .load fun o => by
  cases o with
  | closure closure => exact .const _
  | _ => exact .throw₁ _ hclosure

theorem same_bind : Same established (opBind host) := .pop fun key hkey => .pop fun value hvalue => .load fun o => by
  cases o with
  | symbol length bytes => exact .const _
  | _ => exact .throw₂ _ hkey hvalue

theorem same_read : Same established (opRead host) := .pop fun key hkey => .load fun o => by
  cases o with
  | symbol length bytes =>
    refine .get fun vm => .bind (built_findBinding bytes vm.scopes) fun found _ => ?_
    cases found with
    | some found => exact .const _
    | none => exact .throw₁ _ hkey
  | _ => exact .throw₁ _ hkey

theorem same_set : Same established (opSet host) := .pop fun key hkey => .pop fun value hvalue => .load fun o => by
  cases o with
  | symbol length bytes =>
    refine .get fun vm => .bind (built_findBinding bytes vm.scopes) fun found _ => ?_
    cases found with
    | some found => exact .const _
    | none => exact .throw₂ _ hkey hvalue
  | _ => exact .throw₂ _ hkey hvalue

theorem same_setExit : Same established opSetExit := .pop fun value hvalue => .load fun o => by
  cases o with
  | fixnum integer => exact .const _
  | _ => exact .throw₁ _ hvalue

/-! ### Numbers

One rule for each macro of the source. -/

/-- The five operators throw on what is not a number. -/
theorem same_numericOp (op : Int64 → Int64 → VmM Int64) : Same established fun throw => numericOp throw op :=
  .pop fun num2 h2 => .pop fun num1 h1 => .load fun o1 => .load fun o2 => by
    cases o1 with
    | fixnum integer1 =>
      cases o2 with
      | fixnum integer2 => exact .const _
      | _ => exact .throw₂ _ h1 h2
    | _ => exact .throw₂ _ h1 h2

theorem same_numericLogic (op : Int64 → Int64 → Bool) : Same established fun throw => numericLogic throw op :=
  .pop fun num2 h2 => .pop fun num1 h1 => .load fun o1 => .load fun o2 => by
    cases o1 with
    | fixnum integer1 =>
      cases o2 with
      | fixnum integer2 => exact .const _
      | _ => exact .throw₂ _ h1 h2
    | _ => exact .throw₂ _ h1 h2

/-! ### Input and output

What the system refuses is thrown, with its number. -/

/-- What the system answers is put into the exception. -/
theorem same_throwErrno (msg : List UInt8) (err : HostError) :
    Same established fun throw => throwErrno throw msg err :=
  .bind (built_alloc trivial) fun _ h1 => .bind (built_vmMakeCString _) fun _ h2 => .throw₂ _ h1 h2

theorem same_slurp : Same established (opSlurp host) := .pop fun obj hobj => .load fun o => by
  cases o with
  | string length bytes => exact .const _
  | _ => exact .throw₁ _ hobj

theorem same_open : Same established (opOpen host) := .pop fun write hwrite => .pop fun path hpath => .load fun o => by
  cases o with
  | bool boolean =>
    refine .load fun o => ?_
    cases o with
    | string length bytes =>
      refine .ofOption fun path => .bind (built_ask _ host.open) fun answer _ => ?_
      cases answer with
      | ok fd => exact .const _
      | error err => exact same_throwErrno _ _
    | _ => exact .throw₁ _ hpath
  | _ => exact .throw₁ _ hwrite

theorem same_close : Same established (opClose host) := .pop fun fdObj hfd => .load fun o => by
  cases o with
  | fixnum fd =>
    refine .bind (built_ask _ host.close) fun answer _ => ?_
    cases answer with
    | ok r => exact .const _
    | error err => exact same_throwErrno _ _
  | _ => exact .throw₁ _ hfd

theorem same_fdWrite : Same established (opFdWrite host) :=
  .pop fun fd hfd => .pop fun num hnum => .pop fun u8 hu8 => .load fun o => by
    cases o with
    | fixnum fdInt =>
      refine .load fun o => ?_
      cases o with
      | fixnum count =>
        refine .load fun o => ?_
        cases o with
        | byteVector length vector =>
          refine .ofOption fun bytes => .bind (built_ask _ host.write) fun answer _ => ?_
          cases answer with
          | ok written => exact .bind (built_alloc trivial) fun reg1 h1 => .ite (.throw₁ _ h1) (.const _)
          | error err => exact same_throwErrno _ _
        | _ => exact .throw₁ _ hu8
      | _ => exact .throw₁ _ hnum
    | _ => exact .throw₁ _ hfd

theorem same_fdRead : Same established (opFdRead host) := .pop fun fd hfd => .pop fun num hnum => .load fun o => by
  cases o with
  | fixnum fdInt =>
    refine .load fun o => ?_
    cases o with
    | fixnum count =>
      refine .bind (built_vmMakeByteVector False.elim) fun u8 _ => .bind (built_ask _ host.read) fun answer _ => ?_
      cases answer with
      | ok input => exact .const _
      | error err => exact same_throwErrno _ _
    | _ => exact .throw₁ _ hnum
  | _ => exact .throw₁ _ hfd

/-! ### Libraries and code

`import` throws where a library cannot be loaded, and `asm` where it is given no string. -/

/-- A library that was not loaded before. -/
theorem same_importNew {obj : Ref} (hobj : obj.IsObj) (path : ℕ) (name : List UInt8) :
    Same established fun throw => importNew host throw obj path name := by
  refine .bind (built_ask _ host.dlopen) fun answer _ => ?_
  cases answer with
  | error msg => exact (Same.throw₁ msg hobj).bind_const
  | ok handle =>
    dsimp only
    cases host.exports handle with
    | error msg => exact .bind (built_alloc trivial) fun lib _ => (Same.throw₁ msg hobj).bind_const
    | ok exports => exact .const _

theorem same_import : Same established (opImport host) := .pop fun obj hobj => .load fun o => by
  cases o with
  | string length bytes =>
    refine .ofOption fun name => .bind (built_newBytes _) fun path _ => Same.bind_const ?_
    refine .get fun vm => .bind (built_hashGet _ _) fun found _ => ?_
    cases found with
    | some lib => exact .const _
    | none => exact same_importNew hobj path _
  | _ => exact .throw₁ _ hobj

/-- What is called keeps handlers named, since it goes through the interface. -/
theorem built_callExt {obj lib : Ref} (hobj : obj.IsObj) (hlib : lib.IsObj) :
    Built (Allow.named established) (callExt host handleException obj lib) fun _ => True := by
  refine (built_load hobj).bind fun o1 _ => (built_load hlib).bind fun o2 _ => ?_
  split
  · split
    · exact keeps_throw₂ hobj hlib
    · refine .ofOption_bind fun vm exports hs _ => .ofOption_bind fun p _ => ?_
      exact does_ext hs .refl (p.2.keeps vm)
  · exact keeps_throw₂ hobj hlib

/-- `call_ext` throws on its operands, or behind the call when the depth is not what it was. -/
theorem same_callExt : Same established (opCallExt host) := .pop fun obj hobj => .pop fun lib hlib => .get fun vm => by
  have hcall : Same established fun throw => callExt host throw obj lib := .load fun o1 => .load fun o2 => by
    cases o1 with
    | fixnum func =>
      cases o2 with
      | library functions funcCount => exact .ite (.throw₂ _ hobj hlib) (.const _)
      | _ => exact .throw₂ _ hobj hlib
    | _ => exact .throw₂ _ hobj hlib
  exact hcall.bind_throw (built_callExt hobj hlib) fun _ _ => .get fun vm' =>
    .ite (.throw _ (List.forall_mem_nil _)) (.const _)

/-- `asm` throws before the code is assembled. -/
theorem same_asm : Same established (opAsm host) := .pop fun obj hobj => .load fun o => by
  cases o with
  | string length bytes => exact .const _
  | _ => exact .throw₁ _ hobj

/-! ### A round

The round fetches and goes on with the instruction, so it is the same with either `throw`. -/

/-- What a round runs for the byte that it has read. -/
def dispatchOp (host : Host) (opCode : UInt8) (throw : Throw) : VmM Unit :=
  match (Op.ofByte? opCode).bind (ops host throw) with
  | some opCall => opCall
  | none => throwThe Stop (.fatal "Found Undefined instrution.")

/-- **Every instruction**: those that are not named here do not throw. -/
theorem same_dispatchOp (host : Host) (opCode : UInt8) : Same established (dispatchOp host opCode) := by
  unfold dispatchOp
  cases Op.ofByte? opCode with
  | none => exact .const _
  | some o =>
    cases o with
    | makeSymbol => exact same_makeSymbol
    | makeVector | makeByteVector | makeRecord => exact same_makeSized _ _
    | indexSet => exact same_indexSet
    | indexRef => exact same_indexRef
    | vectorLength => exact same_vectorLength
    | stringByteVector => exact same_stringByteVector
    | byteVectorString => exact same_byteVectorString
    | car => exact same_car
    | cdr => exact same_cdr
    | setCar | setCdr => exact same_setPair _ _
    | bind => exact same_bind
    | set => exact same_set
    | read => exact same_read
    | fdRead => exact same_fdRead
    | fdWrite => exact same_fdWrite
    | «open» => exact same_open
    | close => exact same_close
    | slurp => exact same_slurp
    | asm => exact same_asm
    | add | sub | mul | div | mod => exact same_numericOp _
    | numericEqual | numericLt | numericGt => exact same_numericLogic _
    | adopt => exact same_adopt
    | ret | jin | callIn | tailCallIn => exact same_closure _ _
    | «import» => exact same_import
    | callExt => exact same_callExt
    | setExit => exact same_setExit
    | _ => exact .const _

/-- **Exceptions go on where a `continue` said**, when handlers are named. -/
theorem HandlersNamed.dispatches {vm : VmInternal} (h : HandlersNamed established vm) (hs : Sound True vm) :
    DispatchesNamed host established vm := by
  rcases hfetch : fetch vm with e | ⟨opCode, vm'⟩
  · exact (bind_error _ hfetch).trans (bind_error _ hfetch).symm
  · obtain ⟨env, vm₁, henv, hcode⟩ := bind_ok hfetch
    obtain ⟨-, rfl⟩ := ofOption_ok henv
    obtain ⟨code, vm₂, hcode, hskip⟩ := bind_ok hcode
    obtain ⟨-, rfl⟩ := ofOption_ok hcode
    cases hskip
    have hfetched : HandlersNamed established vm₂.fetched := h.update fun env henv hhandler =>
      h env (List.mem_of_getElem? henv) hhandler
    have hsame := same_dispatchOp host (code env.ip) vm₂.fetched (hs.updateEnv (fun _ => rfl) fun _ => rfl) hfetched
    have hround : evalStep host vm₂ = dispatchOp host (code env.ip) handleException vm₂.fetched := run_bind hfetch
    exact (run_bind hfetch).trans (hsame.trans hround.symm)

end

/-! ## Runs

In a run, what was established before the round is what its exceptions may find. -/

/-- A handler is set, and code is assembled. -/
def asmUnderHandler : List (Token ℕ) :=
  [.jump .continue Op.aTarget 0, .string "", .op .asm Op.noOperand, .label 0, .op .drop Op.noOperand]

/-- **`asm` copies the handler into new code**, where no `continue` has named anything. -/
theorem handler_of_asm : ∃ established vm,
    Traced Host.bare (fun _ _ => True) (fun _ _ _ => True) established vm ∧ ¬ HandlersNamed established vm := by
  let vm₀ := startBytes ((asmString asmUnderHandler).getD []) vmCreate
  have hpasses : passes (evalStep Host.bare) vm₀ (fun vm₁ => vm₁.running && vm₁.nextOp = some .litString &&
      passes (evalStep Host.bare) vm₁ fun vm₂ => vm₂.running && vm₂.nextOp = some .asm &&
        passes (evalStep Host.bare) vm₂ fun vm₃ =>
          vm₃.envs.any fun env => env.handler && env.codeRef = some 1) = true := by
    decide +kernel
  obtain ⟨⟨⟩, vm₁, hrun₁, hvm₁⟩ := exists_of_passes hpasses
  simp only [Bool.and_eq_true, decide_eq_true_eq] at hvm₁
  obtain ⟨⟨hrunning₁, hnext₁⟩, hpasses₂⟩ := hvm₁
  obtain ⟨⟨⟩, vm₂, hrun₂, hvm₂⟩ := exists_of_passes hpasses₂
  simp only [Bool.and_eq_true, decide_eq_true_eq] at hvm₂
  obtain ⟨⟨hrunning₂, hnext₂⟩, hpasses₃⟩ := hvm₂
  obtain ⟨⟨⟩, vm₃, hrun₃, hvm₃⟩ := exists_of_passes hpasses₃
  have he₀ : vm₀.establishes = [(some 0, 19)] := by decide +kernel
  have he₁ : vm₁.establishes = [] := if_neg (by rw [hnext₁]; decide)
  have he₂ : vm₂.establishes = [] := if_neg (by rw [hnext₂]; decide)
  have h₀ : Traced Host.bare (fun _ _ => True) (fun _ _ _ => True) [] vm₀ :=
    .call (.call .start (.load _ _) trivial) (.eval _ rfl (by simp [loadCode])) trivial
  have h₃ := ((h₀.step ⟨by decide +kernel, hrun₁⟩ trivial).step ⟨hrunning₁, hrun₂⟩ trivial).step
    ⟨hrunning₂, hrun₃⟩ trivial
  refine ⟨_, vm₃, h₃, fun hnamed => ?_⟩
  obtain ⟨env, hmem, henv⟩ := List.any_eq_true.mp hvm₃
  obtain ⟨hhandler, hcode⟩ := Bool.and_eq_true_iff.mp henv
  have hnamed := hnamed env hmem hhandler
  rw [of_decide_eq_true hcode, he₀, he₁, he₂] at hnamed
  simp at hnamed

/-- **Handlers stay named, and exceptions go on where a `continue` said**, in runs where `asm` of a string meets no
handler, `restore` brings back what was established, and `vm_eval` starts where there is none. -/
theorem handlers_stay_named {host : Host} {established : List CodeAddr} {vm : VmInternal}
    (h : Traced host KeepsHandlers CallKeepsHandlers established vm) :
    HandlersNamed established vm ∧ DispatchesNamed host established vm :=
  ⟨h.named, h.named.dispatches h.sound⟩

/-- A handler is set, and the `car` of a number is read. -/
def carUnderHandler : List (Token ℕ) :=
  [.jump .continue Op.aTarget 0, .fixnum 5, .op .car Op.noOperand, .label 0, .op .drop Op.noOperand]

/-- The `car` of a number throws, and the machine goes on at the `drop`. -/
theorem handlers_stay_named_continue : ∃ established vm,
    Traced Host.bare KeepsHandlers CallKeepsHandlers established vm ∧ vm.nextOp = some .car ∧
      (vm.envs.any fun env => env.handler) = true ∧ HandlersNamed established vm ∧
      evalStepWith Host.bare (checked established) vm = evalStep Host.bare vm ∧
      ∃ vm', evalStep Host.bare vm = .ok ((), vm') ∧ vm'.nextOp = some .drop := by
  let vm₀ := startBytes ((asmString carUnderHandler).getD []) vmCreate
  have hpasses : passes (evalStep Host.bare) vm₀ (fun vm₁ => vm₁.running && vm₁.nextOp = some .litFixnum &&
      passes (evalStep Host.bare) vm₁ fun vm₂ => vm₂.nextOp = some .car &&
        vm₂.envs.any (fun env => env.handler) &&
        passes (evalStep Host.bare) vm₂ fun vm₃ => vm₃.nextOp = some .drop) = true := by
    decide +kernel
  obtain ⟨⟨⟩, vm₁, hrun₁, hvm₁⟩ := exists_of_passes hpasses
  simp only [Bool.and_eq_true, decide_eq_true_eq] at hvm₁
  obtain ⟨⟨hrunning₁, hnext₁⟩, hpasses₂⟩ := hvm₁
  obtain ⟨⟨⟩, vm₂, hrun₂, hvm₂⟩ := exists_of_passes hpasses₂
  simp only [Bool.and_eq_true, decide_eq_true_eq] at hvm₂
  obtain ⟨⟨hnext₂, hhandler⟩, hpasses₃⟩ := hvm₂
  obtain ⟨⟨⟩, vm₃, hrun₃, hnext₃⟩ := exists_of_passes hpasses₃
  have hstart : ∀ env, vm₀.envs[vm₀.env]? = some env → env.handler = true → False := by
    have hnone : (vm₀.envs[vm₀.env]?.map Env.handler) = some false := by decide +kernel
    intro env henv htrue
    rw [henv, Option.map_some, htrue] at hnone
    cases hnone
  have h₀ : Traced Host.bare KeepsHandlers CallKeepsHandlers [] vm₀ := by
    refine .call (.call .start (.load _ _) ?_) (.eval _ rfl (by simp [loadCode])) fun env henv h =>
      (hstart env henv h).elim
    rintro env henv hhandler
    obtain rfl : rootEnv 2 = env := Option.some.inj henv
    cases hhandler
  have hkeeps : ∀ {established vm o}, vm.nextOp = some o → o ≠ .asm → o ≠ .restore → KeepsHandlers established vm :=
    fun hnext hasm hrestore =>
      { asm := fun h => absurd (Option.some.inj (hnext.symm.trans h.1)) hasm
        restore := fun h => absurd (Option.some.inj (hnext.symm.trans h)) hrestore }
  have hnext₀ : vm₀.nextOp = some .continue := by decide +kernel
  have h := (h₀.step ⟨by decide +kernel, hrun₁⟩ (hkeeps hnext₀ (by decide) (by decide))).step
    ⟨hrunning₁, hrun₂⟩ (hkeeps hnext₁ (by decide) (by decide))
  obtain ⟨hnamed, hdispatches⟩ := handlers_stay_named h
  exact ⟨_, vm₂, h, hnext₂, hhandler, hnamed, hdispatches, vm₃, hrun₃, of_decide_eq_true hnext₃⟩

end Insomniac.Vm

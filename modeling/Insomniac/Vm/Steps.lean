import Insomniac.Vm.Built

/-!
# Vm/Steps — a round of the loop is built of changes

One statement for each instruction, and for `vm_eval`'s round (`evalStep_changes`).  Only five
instructions ask that something be allowed (`Permits`).
-/

open Bytes Insomniac.Asm Run

namespace Insomniac.Vm

section

variable {A : Allow} {host : Host}

/-! ## Exceptions

A throw adds the exception to the stack and goes on in a copy, which is a row of changes. -/

/-- A throw with one object keeps the order. -/
theorem keeps_throw₁ {msg : List UInt8} {r : Ref} (hr : r.IsObj) :
    Keeps A (handleException msg [r]) :=
  built_handleException msg (by simpa using hr)

theorem keeps_throw₂ {msg : List UInt8} {r r' : Ref} (hr : r.IsObj) (hr' : r'.IsObj) :
    Keeps A (handleException msg [r, r']) :=
  built_handleException msg (by simpa using ⟨hr, hr'⟩)

/-! ## The instruction pointer

A round moves the pointer of the current environment, and the moves of one round come to one. -/

/-- To change the current environment is to set it. -/
theorem updateEnv_eq {vm : VmInternal} {env : Env} (h : vm.envs[vm.env]? = some env) (f : Env → Env) :
    vm.updateEnv f = { vm with envs := vm.envs.set vm.env (f env) } := by
  rw [VmInternal.updateEnv, modify_of_getElem? h]

theorem updateEnv_updateEnv (vm : VmInternal) (f g : Env → Env) :
    (vm.updateEnv f).updateEnv g = vm.updateEnv fun env => g (f env) := by
  simp only [VmInternal.updateEnv, List.modify_modify_eq]
  rfl

/-- What is written depends on the current environment only. -/
theorem updateEnv_congr {vm : VmInternal} {env : Env} (h : vm.envs[vm.env]? = some env) {f g : Env → Env}
    (hfg : f env = g env) : vm.updateEnv f = vm.updateEnv g := by
  rw [updateEnv_eq h, updateEnv_eq h, hfg]

/-- The current environment is the changed one. -/
theorem getElem?_updateEnv {vm : VmInternal} {env : Env} (h : vm.envs[vm.env]? = some env)
    (f : Env → Env) : (vm.updateEnv f).envs[(vm.updateEnv f).env]? = some (f env) := by
  obtain ⟨hlt, -⟩ := List.getElem?_eq_some_iff.mp h
  rw [updateEnv_eq h]
  exact List.getElem?_set_self hlt

/-- What is written to the instruction pointer depends on the current environment only. -/
theorem updateEnv_ip {vm : VmInternal} {env : Env} (h : vm.envs[vm.env]? = some env) (f : Env → ℕ) :
    (vm.updateEnv fun env => { env with ip := f env }) = vm.goto (f env) :=
  updateEnv_congr h rfl

theorem goto_goto (vm : VmInternal) (ip ip' : ℕ) : (vm.goto ip).goto ip' = vm.goto ip' :=
  updateEnv_updateEnv vm _ _

/-- The code of an environment is found. -/
theorem codeOf_run {vm : VmInternal} {env : Env} {c : ℕ} {code : Code} (hc : env.codeRef = some c)
    (hcode : vm.codes[c]? = some code) : codeOf env vm = .ok (code, vm) :=
  ofOption_run (by rw [hc]; exact hcode)

section

variable {vm : VmInternal} {env : Env} {c : ℕ} {code : Code} (henv : vm.envs[vm.env]? = some env)
  (hc : env.codeRef = some c) (hcode : vm.codes[c]? = some code)

include henv

/-- The environment goes on where it was told to. -/
theorem getElem?_goto (ip : ℕ) : (vm.goto ip).envs[(vm.goto ip).env]? = some { env with ip } :=
  getElem?_updateEnv henv _

theorem skip_run (count : ℕ) : skip count vm = .ok ((), vm.goto (env.ip + count)) := by
  rw [← updateEnv_ip henv fun env => env.ip + count]
  rfl

/-- `jump` moves by the distance that is given. -/
theorem jump_run (target : Int64) : jump target vm = .ok ((), vm.goto (jumpTo env.ip target)) := by
  rw [← updateEnv_ip henv fun env => jumpTo env.ip target]
  rfl

include hc hcode

/-- What `parse_int` reads. -/
theorem parseInt_run : parseInt vm = .ok (Asm.parseInt code env.ip, vm.goto (env.ip + 8)) :=
  (run_bind (ofOption_run henv)).trans ((run_bind (codeOf_run hc hcode)).trans (run_bind (skip_run henv 8)))

/-- **`parse_string`** makes a string and goes on behind it. -/
theorem parseString_run {str : List UInt8} {next : ℕ} (h : Asm.parseString code env.ip = some (str, next)) :
    parseString vm = .ok (.obj vm.objs.length, { vm.goto next with
      bytes := vm.bytes ++ [str ++ [0]]
      objs := vm.objs ++ [.string (Int64.ofNat str.length) vm.bytes.length] }) := by
  unfold Asm.parseString at h
  dsimp only at h
  split at h
  · cases h
  · next hlength =>
    cases h
    have hparse := parseInt_run henv hc hcode
    generalize Asm.parseInt code env.ip = length at *
    have henv₁ := getElem?_goto henv (env.ip + 8)
    have hcodeOf : codeOf { env with ip := env.ip + 8 } (vm.goto (env.ip + 8)) = _ := codeOf_run hc hcode
    have hnat : Int64.ofNat length.toInt.toNat = length := by
      have hnonneg : 0 ≤ length.toInt := by
        rw [Int64.lt_iff_toInt_lt] at hlength
        exact Int.not_lt.mp hlength
      have hlt := length.toInt_lt
      refine Int64.toInt_inj.mp ?_
      rw [toInt_ofNat (by omega)]
      omega
    rw [strncpy_length, hnat]
    let str := strncpy (code.slice (env.ip + 8) length.toInt.toNat) length.toInt.toNat
    let vm₁ : VmInternal := { vm.goto (env.ip + 8) with
      bytes := vm.bytes ++ [str ++ [0]], objs := vm.objs ++ [.string length vm.bytes.length] }
    have hmake : vmMakeString (code.slice (env.ip + 8) length.toInt.toNat) length (vm.goto (env.ip + 8)) =
        .ok (.obj vm.objs.length, vm₁) := by
      rw [vmMakeString, if_neg hlength]
      rfl
    have hskip : skip length.toInt.toNat vm₁ = .ok ((), vm₁.goto (env.ip + 8 + length.toInt.toNat)) :=
      @skip_run vm₁ _ henv₁ _
    have hvm : vm₁.goto (env.ip + 8 + length.toInt.toNat) = { vm.goto (env.ip + 8 + length.toInt.toNat) with
        bytes := vm.bytes ++ [str ++ [0]], objs := vm.objs ++ [.string length vm.bytes.length] } := by
      rw [← goto_goto vm (env.ip + 8)]
      rfl
    rw [hvm] at hskip
    exact (run_bind hparse).trans ((run_bind (ofOption_run henv₁)).trans ((run_bind hcodeOf).trans
      ((run_bind hmake).trans (run_bind hskip))))

/-- A string that ends behind the code is not read. -/
theorem parseString_run_none (h : Asm.parseString code env.ip = none) : parseString vm = .error .undefined := by
  unfold Asm.parseString at h
  dsimp only at h
  split at h
  · next hlength =>
    have henv₁ := getElem?_goto henv (env.ip + 8)
    have hcodeOf : codeOf { env with ip := env.ip + 8 } (vm.goto (env.ip + 8)) = _ := codeOf_run hc hcode
    refine (run_bind (parseInt_run henv hc hcode)).trans ((run_bind (ofOption_run henv₁)).trans
      ((run_bind hcodeOf).trans ?_))
    rw [vmMakeString, if_pos hlength]
    rfl
  · cases h

end

/-- The string of an operand is not longer than its length says. -/
theorem length_of_parseString {code : Code} {ip next : ℕ} {str : List UInt8}
    (h : Asm.parseString code ip = some (str, next)) : str.length < 2 ^ 63 := by
  unfold Asm.parseString at h
  dsimp only at h
  split at h
  · cases h
  · cases h
    rw [strncpy_length]
    have hlt := (Asm.parseInt code ip).toInt_lt
    omega

/-! ## Literals

The three constants are objects, and the rest of the literals are made anew. -/

theorem keeps_litEmpty : Keeps A opLitEmpty := built_constant fun _ hs => hs.isObj_empty

theorem keeps_litTrue : Keeps A opLitTrue := built_constant fun _ hs => hs.booleans.1

theorem keeps_litFalse : Keeps A opLitFalse := built_constant fun _ hs => hs.booleans.2

theorem keeps_makeSymbol : Keeps A (opMakeSymbol host handleException) := by
  have hcheck : ∀ obj : Ref, obj.IsObj → Keeps A (checkString handleException obj) := by
    refine fun obj hobj => (built_load hobj).bind fun o _ => ?_
    split
    · exact .pure trivial
    · exact keeps_throw₁ hobj
  exact built_pop.bind fun obj hobj => (hcheck obj hobj).bind fun _ _ =>
    (built_makeSymbol hobj).bind fun _ hobj => built_push hobj

/-! ## Lists

What is popped are objects, so what is put into a pair are objects too. -/

theorem keeps_cons : Keeps A opCons :=
  built_pop.bind fun _ hcar => built_pop.bind fun _ hcdr => (built_cons hcar hcdr).bind fun _ hobj =>
    built_push hobj

/-- An object may always be in a slot. -/
theorem isSlot_of_false {null : Prop} {p : Ptr} (h : IsSlot False p) : IsSlot null p := by
  cases p with
  | none => exact h.elim
  | some r => exact h

theorem keeps_car : Keeps A (opCar handleException) := by
  refine built_pop.bind fun obj hobj => (built_load hobj).bind fun o ho => ?_
  split
  · exact built_push (isSlot_of_false ho.1)
  · exact keeps_throw₁ hobj

theorem keeps_cdr : Keeps A (opCdr handleException) := by
  refine built_pop.bind fun obj hobj => (built_load hobj).bind fun o ho => ?_
  split
  · exact built_push (isSlot_of_false ho.2)
  · exact keeps_throw₁ hobj

/-- The first operand is on top. -/
theorem operandFrom_zero {vm : VmInternal} {r obj : Ref} {cdr : Ptr}
    (h : vm.deref r = some (.pair (some obj) cdr)) : vm.operandFrom r 0 = some obj := by
  simp [VmInternal.operandFrom, h, Obj.car?]

theorem operandFrom_succ {vm : VmInternal} {r cdr : Ref} {car : Ptr} (k : ℕ)
    (h : vm.deref r = some (.pair car (some cdr))) :
    vm.operandFrom r (k + 1) = vm.operandFrom cdr k := by
  simp [VmInternal.operandFrom, h, Obj.cdr?]

/-- A pair that may be written to is written to. -/
theorem does_setPair {vm : VmInternal} (hs : Sound A.null vm) {set : Ref → Ptr → Ptr → Obj} {msg : List UInt8}
    (hset : ∀ (obj : Ref) (car cdr : Ptr), obj.IsObj → IsSlot False car → IsSlot False cdr →
      ∃ car' cdr', set obj car cdr = .pair car' cdr' ∧ IsSlot False car' ∧ IsSlot False cdr')
    (hallowed : ∀ n, vm.operand 1 = some (.obj n) → A.pair n) :
    Does A vm (setPair handleException set msg) vm fun _ => True := by
  refine .pop_bind hs .refl fun obj cdr hobj hroot h1 => .pop_bind hs h1 fun pair cdr' hpair hroot' h2 =>
    .ofOption_bind fun o ho => ?_
  have hfields := (h2.sound hs).fields_of_deref hpair ho
  have hop1 : vm.operand 1 = some pair := (operandFrom_succ 0 hroot).trans (operandFrom_zero hroot')
  split
  · next car cdr =>
    obtain ⟨n, rfl⟩ := hpair.exists_obj
    obtain ⟨car', cdr', hpair', hcar, hcdr⟩ := hset obj car cdr hobj hfields.1 hfields.2
    rw [hpair']
    exact .step rfl ((built_pushRef hpair).does hs (h2.tail (.setPair ho hcar hcdr (hallowed n hop1))))
  · exact (keeps_throw₂ hobj hpair).does hs h2

/-- `set-car!` asks for the pair that is its second operand. -/
theorem does_setCar {vm : VmInternal} (hs : Sound A.null vm)
    (hallowed : ∀ n, vm.operand 1 = some (.obj n) → A.pair n) :
    Does A vm (opSetCar handleException) vm fun _ => True :=
  does_setPair hs (fun obj _ cdr hobj _ hcdr => ⟨some obj, cdr, rfl, hobj, hcdr⟩) hallowed

theorem does_setCdr {vm : VmInternal} (hs : Sound A.null vm)
    (hallowed : ∀ n, vm.operand 1 = some (.obj n) → A.pair n) :
    Does A vm (opSetCdr handleException) vm fun _ => True :=
  does_setPair hs (fun obj car _ hobj hcar _ => ⟨car, some obj, rfl, hcar, hobj⟩) hallowed

/-! ## Vectors

A slot may be null, and what is read of it may then be pushed only where nulls are allowed. -/

/-- What is made depends on the number on top of the stack. -/
theorem does_makeSized {vm : VmInternal} (hs : Sound A.null vm) {make : Int64 → VmM Ref} {msg : List UInt8}
    (hmake : ∀ length, vm.Asks length → Built A (make length) Ref.IsObj) :
    Does A vm (makeSized handleException make msg) vm fun _ => True := by
  refine .pop_bind hs .refl fun obj cdr hobj hroot h1 => .ofOption_bind fun o ho => ?_
  split
  · next length =>
    have hasks : vm.Asks length := ⟨obj, operandFrom_zero hroot, ho⟩
    exact ((hmake length hasks).bind fun _ hobj => built_pushRef hobj).does hs h1
  · exact (keeps_throw₁ hobj).does hs h1

theorem keeps_vectorLength : Keeps A (opVectorLength handleException) := by
  refine built_pop.bind fun obj hobj => (built_load hobj).bind fun o _ => ?_
  split
  · exact .bind (built_alloc trivial) fun _ hobj => built_push hobj
  · exact .bind (built_alloc trivial) fun _ hobj => built_push hobj
  · exact keeps_throw₁ hobj

/-- `idx!` into a vector stores an object. -/
theorem keeps_setSlot (a : ℕ) (index : Int64) {obj : Ref} (hobj : obj.IsObj) :
    Keeps A (setSlot a index obj) := by
  refine .ofOption_bind fun vm slots hs hslots => .ofOption_bind fun i hi =>
    .last rfl (.single (.setSlots a hslots List.length_set fun p hp => ?_)) trivial
  rcases mem_set hp with hp | rfl
  · exact hs.slots slots (List.mem_of_getElem? hslots) p hp
  · exact hobj

/-- A byte is read without a change. -/
theorem built_getByte (bs : ℕ) (index : Int64) : Built A (getByte bs index) fun _ => True :=
  .bind (.ofOption fun _ _ _ _ => trivial) fun _ (_ : True) => .ofOption fun _ _ _ _ => trivial

theorem keeps_stringByteVector : Keeps A (opStringByteVector handleException) := by
  refine built_pop.bind fun obj hobj => .ofOption_bind fun vm o hs ho => ?_
  split
  · obtain ⟨n, rfl⟩ := hobj.exists_obj
    exact .step rfl ((built_pushRef (isObj_obj _)).does hs (.single (.slice ho)))
  · exact keeps_throw₁ hobj vm hs

theorem keeps_byteVectorString : Keeps A (opByteVectorString handleException) := by
  refine built_pop.bind fun obj hobj => (built_load hobj).bind fun o _ => ?_
  split
  · exact .bind (.ofOption fun _ _ _ _ => trivial) fun _ (_ : True) =>
      (built_vmMakeString _ _).bind fun _ hobj => built_push hobj
  · exact keeps_throw₁ hobj

/-! ## Jumps and calls

A call makes a closure of the environment that calls, and enters a copy of the one that is called. -/

theorem keeps_adopt : Keeps A (opAdopt handleException) := by
  refine built_pop.bind fun parent hparent => built_pop.bind fun child hchild =>
    .ofOption_bind fun vm o hs ho => ?_
  split
  · next parent' =>
    refine .ofOption_bind fun o' ho' => ?_
    split
    · next child' =>
      obtain ⟨child, hchild'⟩ := hs.closureEnv ho'
      obtain ⟨parentEnv, hparentEnv⟩ := hs.closureEnv ho
      have hbindings := hs.bindings_ne hparentEnv
      cases htable : vm.tables[child.bindings]? with
      | none => exact .stop_bind (cloneEnv_cow_run_none hchild' htable) trivial
      | some entries =>
        let vm₁ : VmInternal := { vm with tables := vm.tables ++ [entries] }
        have hchange : Change A vm vm₁ := .newTable (hs.values entries (List.mem_of_getElem? htable))
        refine .step (cloneEnv_cow_run hchild' htable)
          (.step (ofOption_run (getElem?_append_of_some hparentEnv)) (.step (editEnv_run vm₁ _ _) ?_))
        exact does_closure hs (.single hchange) (envAllowed_like hchild' rfl rfl rfl rfl)
          (envPlaced_like hchild' rfl rfl rfl) hbindings
          fun p hp => hs.parent hparentEnv hp
    · exact keeps_throw₁ hchild vm hs
  · exact keeps_throw₁ hparent vm hs

theorem keeps_jin : Keeps A (opJin handleException) := by
  refine built_pop.bind fun closure hclosure => .ofOption_bind fun vm o hs ho => ?_
  split
  · next e =>
    obtain ⟨env, henv⟩ := hs.closureEnv ho
    refine .ofOption_bind fun current hcurrent => .step (switchEnv_run henv) (.last rfl ?_ trivial)
    have hbindings := hs.bindings_ne hcurrent
    rw [updateEnv_enter]
    exact .single (.enter (envAllowed_like henv rfl rfl rfl rfl) (envPlaced_like henv rfl rfl rfl) hbindings
      fun p hp => (hs.parent hcurrent hp).1)
  · exact keeps_throw₁ hclosure vm hs

theorem keeps_ret : Keeps A (opRet handleException) := by
  refine built_pop.bind fun closure hclosure => .ofOption_bind fun vm o hs ho => ?_
  split
  · next e =>
    obtain ⟨env, henv⟩ := hs.closureEnv ho
    exact .last (switchEnv_run henv) (.single (hs.switch henv)) trivial
  · exact keeps_throw₁ hclosure vm hs

theorem keeps_callIn : Keeps A (opCallIn handleException) := by
  refine built_pop.bind fun closure hclosure => .ofOption_bind fun vm o hs ho => ?_
  split
  · next e =>
    obtain ⟨env, henv⟩ := hs.closureEnv ho
    have hcall : Change A vm ((({ vm with objs := vm.objs ++ [Obj.closure vm.env] } :
        VmInternal).push (some (.obj vm.objs.length))).enter env) :=
      .call (envAllowed_of_mem henv) (envPlaced_of_mem henv) (hs.bindings_ne henv) fun _ hp =>
        (hs.parent henv hp).1
    exact .step rfl (.step rfl (.step rfl (.step (switchEnv_run henv) (does_pushEnv hs (.single hcall)))))
  · exact keeps_throw₁ hclosure vm hs

theorem keeps_tailCallIn : Keeps A (opTailCallIn handleException) := by
  refine built_pop.bind fun closure hclosure => .ofOption_bind fun vm o hs ho => ?_
  split
  · next e =>
    obtain ⟨env, henv⟩ := hs.closureEnv ho
    refine .pop_bind hs .refl fun reg2 cdr2 h2 _ hchanges2 => .pop_bind hs hchanges2 fun reg3 cdr3 h3 _
      hchanges3 => .step rfl (.step rfl ?_)
    exact does_enter hs ((hchanges3.tail (.push (isSlot_some.mpr h2))).tail
      (.push (isSlot_some.mpr h3))) henv
  · exact keeps_throw₁ hclosure vm hs

/-! ## Locations

A table of bindings holds objects, and `set` writes to the table where it finds the name. -/

/-- `bind` asks for the name and for the bindings that it goes into. -/
theorem does_bind {vm : VmInternal} (hs : Sound A.null vm) (hallowed : ∀ (key : Ref) (length : Int64) (bytes : ℕ)
    (env : Env) (name : List UInt8), vm.operand 0 = some key → vm.deref key = some (.symbol length bytes) →
      vm.name bytes = some name → vm.envs[vm.env]? = some env → A.name env.bindings name) :
    Does A vm (opBind host handleException) vm fun _ => True := by
  refine .pop_bind hs .refl fun key cdr hkey hroot h1 => .pop_bind hs h1 fun value cdr' hvalue _ h2 =>
    .ofOption_bind fun o ho => ?_
  split
  · next length bytes =>
    obtain ⟨n, rfl⟩ := hkey.exists_obj
    refine .ofOption_bind fun env henv => does_hashSet hs h2 (hs.bindings_ne henv) hvalue
      (fun _ => ⟨n, length, ho⟩) fun name hname => ?_
    exact hallowed _ length bytes env name (operandFrom_zero hroot) ho hname henv
  · exact (keeps_throw₂ hkey hvalue).does hs h2

/-- What `op_read` and `op_set` find. -/
theorem built_findBinding (bytes : ℕ) : ∀ scopes : List ℕ, Built A (findBinding host bytes scopes)
    fun found => ∀ p, found = some p → p.1.bindings ≠ 0 ∧ p.2.IsObj
  | [] => .pure (by rintro p ⟨⟩)
  | e :: parents => by
      refine (built_getEnv e).bind fun env henv => (built_hashGet _ _).bind fun found hfound => ?_
      cases found with
      | none => exact built_findBinding bytes parents
      | some value =>
        refine .pure ?_
        rintro p ⟨⟩
        exact ⟨henv, hfound value rfl⟩

/-- Looking changes nothing. -/
theorem hashGet_state {vm vm' : VmInternal} {t key : ℕ} {found : Option Ref}
    (h : hashGet host t key vm = .ok (found, vm')) : vm' = vm := by
  obtain ⟨name, vm₁, hname, h₁⟩ := bind_ok h
  obtain ⟨-, rfl⟩ := ofOption_ok hname
  obtain ⟨entries, vm₂, hentries, h₂⟩ := bind_ok h₁
  obtain ⟨-, rfl⟩ := ofOption_ok hentries
  exact (ofOption_ok h₂).2

@[inherit_doc hashGet_state] theorem findBinding_state {vm : VmInternal} {bytes : ℕ} :
    ∀ {scopes : List ℕ} {found : Option (Env × Ref)} {vm' : VmInternal},
      findBinding host bytes scopes vm = .ok (found, vm') → vm' = vm
  | [], _, _, h => by
      cases h
      rfl
  | e :: parents, found, vm', h => by
      obtain ⟨env, vm₁, henv, h₁⟩ := bind_ok h
      obtain ⟨-, rfl⟩ := ofOption_ok henv
      obtain ⟨value, vm₂, hget, h₂⟩ := bind_ok h₁
      obtain rfl := hashGet_state hget
      cases value with
      | none => exact findBinding_state h₂
      | some value =>
        cases h₂
        rfl

theorem keeps_read : Keeps A (opRead host handleException) := by
  refine built_pop.bind fun key hkey => (built_load hkey).bind fun o _ => ?_
  split
  · refine .get_bind fun vm hs => (built_findBinding _ _).bind (fun found hfound => ?_) vm hs
    cases found with
    | none => exact keeps_throw₁ hkey
    | some p => exact built_pushRef (hfound p rfl).2
  · exact keeps_throw₁ hkey

/-- `set` asks for the bindings where the name is found. -/
theorem does_set {vm : VmInternal} (hs : Sound A.null vm) (hallowed : ∀ (key value r : Ref) (length : Int64)
    (bytes : ℕ) (env : Env) (name : List UInt8) (vm₁ vm₂ vm₃ : VmInternal), vmPop vm = .ok (key, vm₁) →
      vmPop vm₁ = .ok (value, vm₂) → vm₂.deref key = some (.symbol length bytes) → vm₂.name bytes = some name →
      findBinding host bytes vm₂.scopes vm₂ = .ok (some (env, r), vm₃) → A.name env.bindings name) :
    Does A vm (opSet host handleException) vm fun _ => True := by
  refine .pop_bind hs .refl fun key cdr hkey hroot h1 => .pop_bind hs h1 fun value cdr' hvalue hroot' h2 =>
    .ofOption_bind fun o ho => ?_
  split
  · next length bytes =>
    refine .step rfl ?_
    rcases (built_findBinding bytes _).does hs h2 with ⟨found, vm₃, hfind, h3, hfound⟩ | ⟨e, hstop, he⟩
    · refine .step hfind ?_
      cases found with
      | none => exact (keeps_throw₂ hkey hvalue).does hs h3
      | some p =>
        obtain ⟨n, rfl⟩ := hkey.exists_obj
        obtain rfl := findBinding_state hfind
        refine does_hashSet hs h3 (hfound p rfl).1 hvalue (fun _ => ⟨n, length, ho⟩) fun name hname => ?_
        exact hallowed _ value p.2 length bytes p.1 name _ _ _ (vmPop_run hroot) (vmPop_run hroot') ho hname hfind
    · exact .stop_bind hstop he
  · exact (keeps_throw₂ hkey hvalue).does hs h2

theorem keeps_setExit : Keeps A (opSetExit handleException) := by
  refine built_pop.bind fun value hvalue => (built_load hvalue).bind fun o _ => ?_
  split
  · exact .one (fun _ => rfl) fun vm _ => ⟨.setExit vm _, trivial⟩
  · exact keeps_throw₁ hvalue

/-! ## The stack

What is moved around are objects that were on the stack. -/

theorem keeps_swap : Keeps A opSwap :=
  built_pop.bind fun _ h1 => built_pop.bind fun _ h2 => (built_pushRef h1).bind fun _ _ =>
    built_pushRef h2

theorem keeps_rot : Keeps A opRot :=
  built_pop.bind fun _ h1 => built_pop.bind fun _ h2 => built_pop.bind fun _ h3 =>
    (built_pushRef h1).bind fun _ _ => (built_pushRef h3).bind fun _ _ => built_pushRef h2

theorem keeps_dupRef : Keeps A opDupRef :=
  built_pop.bind fun _ h1 => (built_pushRef h1).bind fun _ _ => built_pushRef h1

theorem keeps_depth : Keeps A opDepth :=
  .get_bind fun vm hs =>
    Built.bind (built_alloc (o := Obj.fixnum _) trivial) (fun _ hobj => built_pushRef hobj) vm hs

theorem keeps_drop : Keeps A opDrop := built_pop.bind fun _ _ => .pure trivial

/-! ## Numbers and logic

What is pushed is a number or one of the two booleans. -/

theorem keeps_numericOp {op : Int64 → Int64 → VmM Int64}
    (hop : ∀ a b, Built A (op a b) fun _ => True) : Keeps A (numericOp handleException op) := by
  refine built_pop.bind fun num2 h2 => built_pop.bind fun num1 h1 =>
    (built_load h1).bind fun o1 _ => (built_load h2).bind fun o2 _ => ?_
  split
  · exact (hop _ _).bind fun _ _ => .bind (built_alloc trivial) fun _ hobj => built_pushRef hobj
  · exact keeps_throw₂ h1 h2

/-- A division that traps stops, and makes no change. -/
theorem built_divide (op : Int64 → Int64 → Int64) (a b : Int64) :
    Built A (divide op a b) fun _ => True := by
  unfold divide
  split
  · exact .undefined
  · exact .pure trivial

theorem keeps_numericLogic (op : Int64 → Int64 → Bool) : Keeps A (numericLogic handleException op) := by
  refine built_pop.bind fun num2 h2 => built_pop.bind fun num1 h1 =>
    (built_load h1).bind fun o1 _ => (built_load h2).bind fun o2 _ => ?_
  split
  · exact built_pushBool _
  · exact keeps_throw₂ h1 h2

/-- What `eq` reads is read without a change. -/
theorem built_rawBytes (obj : Ref) (o : Obj) : Built A (rawBytes host obj o) fun _ => True := by
  cases o with
  | string length bytes => exact built_cstring bytes
  | symbol length bytes => exact built_cstring bytes
  | byteVector length bytes => exact built_cstring bytes
  | pair car cdr => exact .ofOption fun _ _ _ _ => trivial
  | vector length slots => exact .ofOption fun _ _ _ _ => trivial
  | record length slots => exact .ofOption fun _ _ _ _ => trivial
  | library functions count => exact .ofOption fun _ _ _ _ => trivial
  | _ => exact .undefined

theorem keeps_eq : Keeps A (opEq host) := by
  refine built_pop.bind fun obj1 h1 => built_pop.bind fun obj2 h2 =>
    (built_load h1).bind fun o1 _ => (built_load h2).bind fun o2 _ => ?_
  split
  · exact built_pushBool _
  · exact built_pushBool _
  · exact built_pushBool _
  · exact (built_cstring _).bind fun _ _ => (built_rawBytes obj2 o2).bind fun _ _ => built_pushBool _
  · exact built_pushBool _

theorem keeps_not : Keeps A opNot := by
  refine built_pop.bind fun obj hobj => (built_load hobj).bind fun o _ => ?_
  split
  · exact built_pushBool true
  · exact built_pushBool false

theorem keeps_typeOp (test : CellType → Bool) : Keeps A (typeOp test) :=
  built_pop.bind fun _ hobj => (built_load hobj).bind fun _ _ => built_pushBool _

/-! ## Input and output

What the system answers becomes a number, a string or a row of bytes. -/

theorem keeps_output : Keeps A (opOutput host) := built_pop.bind fun obj _ => built_printObject _ obj

theorem keeps_slurp : Keeps A (opSlurp host handleException) := by
  refine built_pop.bind fun obj hobj => (built_load hobj).bind fun o _ => ?_
  split
  · refine (built_cstring _).bind fun path _ => (built_ask _ _).bind fun found _ => ?_
    cases found with
    | none => exact .exited
    | some buf =>
      dsimp only
      split
      · next hlength =>
        refine built_allocBytes_bind _ (fun _ => trivial) (fun _ vm => owns_string vm ?_ ?_) fun _ hobj =>
          built_pushRef hobj
        · exact ofNat_nonneg hlength
        · rw [toInt_ofNat hlength, Int.toNat_natCast]
          exact List.getElem?_concat_length
      · exact .undefined
  · exact keeps_throw₁ hobj

/-- An answer of the system is thrown with its number. -/
theorem keeps_throwErrno (msg : List UInt8) (err : HostError) :
    Keeps A (throwErrno handleException msg err) :=
  .bind (built_alloc trivial) fun _ h1 => (built_vmMakeCString _).bind fun _ h2 => keeps_throw₂ h1 h2

theorem keeps_open : Keeps A (opOpen host handleException) := by
  refine built_pop.bind fun write hwrite => built_pop.bind fun path hpath =>
    (built_load hwrite).bind fun o _ => ?_
  split
  · refine (built_load hpath).bind fun o _ => ?_
    split
    · refine (built_cstring _).bind fun _ _ => (built_ask _ _).bind fun answer _ => ?_
      cases answer with
      | ok fd => exact .bind (built_alloc trivial) fun _ hobj => built_pushRef hobj
      | error err => exact keeps_throwErrno _ err
    · exact keeps_throw₁ hpath
  · exact keeps_throw₁ hwrite

theorem keeps_close : Keeps A (opClose host handleException) := by
  refine built_pop.bind fun fd hfd => (built_load hfd).bind fun o _ => ?_
  split
  · refine (built_ask _ _).bind fun answer _ => ?_
    cases answer with
    | ok _ => exact .pure trivial
    | error err => exact keeps_throwErrno _ err
  · exact keeps_throw₁ hfd

theorem keeps_fdWrite : Keeps A (opFdWrite host handleException) := by
  refine built_pop.bind fun fd hfd => built_pop.bind fun num hnum => built_pop.bind fun u8 hu8 =>
    (built_load hfd).bind fun o _ => ?_
  split
  · refine (built_load hnum).bind fun o _ => ?_
    split
    · refine (built_load hu8).bind fun o _ => ?_
      split
      · refine .bind (.ofOption fun _ _ _ _ => trivial) fun _ (_ : True) =>
          (built_ask _ _).bind fun answer _ => ?_
        cases answer with
        | ok written =>
          refine .bind (built_alloc trivial) fun obj hobj => ?_
          split
          · exact keeps_throw₁ hobj
          · exact built_pushRef hobj
        | error err => exact keeps_throwErrno _ err
      · exact keeps_throw₁ hu8
    · exact keeps_throw₁ hnum
  · exact keeps_throw₁ hfd

/-- `vm_make_byte_vector`, where there is room. -/
theorem vmMakeByteVector_cases (length : Int64) (vm : VmInternal) :
    vmMakeByteVector length vm = .error .undefined ∨
      ∃ room, (length.toUInt64.toNat + 32 < 2 ^ 64 → room = length.toUInt64.toNat) ∧
        vmMakeByteVector length vm = .ok (.obj vm.objs.length, { vm with
          bytes := vm.bytes ++ [List.replicate room 0], objs := vm.objs ++ [.byteVector length vm.bytes.length] }) := by
  unfold vmMakeByteVector roomFor
  split
  · exact .inr ⟨_, fun _ => rfl, rfl⟩
  · split
    · exact .inr ⟨0, fun h => by omega, rfl⟩
    · exact .inl rfl

/-- What was read is in the vector that was made for it. -/
theorem readInto_run {vm : VmInternal} {length : Int64} {room : ℕ} {input : List UInt8} (call : HostCall)
    (h : input.length ≤ room) : readInto (.obj vm.objs.length) input { vm with
        bytes := vm.bytes ++ [List.replicate room 0], objs := vm.objs ++ [.byteVector length vm.bytes.length]
        calls := call :: vm.calls } =
      .ok ((), { vm with
        bytes := vm.bytes ++ [input ++ List.replicate (room - input.length) 0]
        objs := vm.objs ++ [.byteVector (Int64.ofNat input.length) vm.bytes.length]
        calls := call :: vm.calls }) := by
  have hbytes : (vm.bytes ++ [List.replicate room 0]).getD vm.bytes.length [] = List.replicate room 0 := by simp
  simp only [readInto, VmInternal.deref, List.getElem?_concat_length, hbytes, List.length_replicate, if_pos h,
    List.drop_replicate]
  simp

/-- What does not fit into the block is written behind it. -/
theorem readInto_stops {vm : VmInternal} {length : Int64} {room : ℕ} {input : List UInt8} (call : HostCall)
    (h : ¬ input.length ≤ room) : readInto (.obj vm.objs.length) input { vm with
        bytes := vm.bytes ++ [List.replicate room 0], objs := vm.objs ++ [.byteVector length vm.bytes.length]
        calls := call :: vm.calls } = .error .undefined := by
  have hbytes : (vm.bytes ++ [List.replicate room 0]).getD vm.bytes.length [] = List.replicate room 0 := by simp
  simp only [readInto, VmInternal.deref, List.getElem?_concat_length, hbytes, List.length_replicate, if_neg h]

/-- **`op_fd_read`** makes a vector as long as it is asked for, and gives it another length when it has read. -/
theorem does_fdRead {vm : VmInternal} (hs : Sound A.null vm)
    (hread : A.sized → ∀ count, vm.AsksRead count → 0 ≤ count) :
    Does A vm (opFdRead host handleException) vm fun _ => True := by
  refine .pop_bind hs .refl fun fd cdr hfd hroot h1 => .pop_bind hs h1 fun num cdr' hnum hroot' h2 =>
    .ofOption_bind fun o ho => ?_
  have hop0 : vm.operand 0 = some fd := operandFrom_zero hroot
  have hop1 : vm.operand 1 = some num := (operandFrom_succ 0 hroot).trans (operandFrom_zero hroot')
  split
  · next fdInt =>
    refine .ofOption_bind fun o' ho' => ?_
    split
    · next count =>
      have hcount : A.sized → 0 ≤ count := fun hsized => hread hsized count ⟨fd, num, fdInt, hop0, ho, hop1, ho'⟩
      rcases vmMakeByteVector_cases count ((vm.pop cdr).pop cdr') with hstop | ⟨room, hroom, hmake⟩
      · exact .stop_bind hstop trivial
      · refine .step hmake (.step rfl ?_)
        have h3 := h2.tail (.ask _ (.read fdInt count))
        have hlength : count.toInt < 2 ^ 63 := count.toInt_lt
        cases host.read (.read fdInt count :: ((vm.pop cdr).pop cdr').calls) with
        | ok input =>
          by_cases hle : input.length ≤ room
          · refine .step (readInto_run _ hle) ((built_pushRef (isObj_obj _)).does hs (h3.tail ?_))
            refine .allocBytes (o := .byteVector (Int64.ofNat input.length) vm.bytes.length) _ trivial fun hsized => ?_
            have hsize := toNat_toUInt64 (hcount hsized)
            have hinput : input.length < 2 ^ 63 := by
              rw [hsize] at hroom
              have := hroom (by omega)
              omega
            refine owns_byteVector _ (ofNat_nonneg hinput) ?_
            rw [toInt_ofNat hinput, List.length_append]
            omega
          · exact .stop_bind (readInto_stops _ hle) trivial
        | error err =>
          refine (keeps_throwErrno _ err).does hs (.tail (.tail h2 ?_) (.ask _ (.read fdInt count)))
          refine .allocBytes (o := .byteVector count vm.bytes.length) _ trivial fun hsized =>
            owns_byteVector _ (hcount hsized) ?_
          have hsize := toNat_toUInt64 (hcount hsized)
          rw [hsize] at hroom
          rw [List.length_replicate, hroom (by omega)]
          omega
    · exact (keeps_throw₁ hnum).does hs h2
  · exact (keeps_throw₁ hfd).does hs h2

/-! ## Libraries

Loading a library binds its functions; calling one runs code that is not known, through the interface of `vm.h`. -/

/-- The functions of a library are bound one by one. -/
theorem built_bindExports : ∀ (exports : List (List UInt8 × ExtFunc)) (funcCount : ℕ)
    (r : Ref), r.IsObj →
      Built A (bindExports host exports funcCount r) Ref.IsObj
  | [], _, _, h => .pure h
  | (symbol, _) :: exports, funcCount, _, h =>
    (built_vmMakeCString symbol).bind fun _ hobj => (built_makeSymbol hobj).bind fun _ hobj =>
      .bind (built_alloc trivial) fun _ hobj2 => (built_cons hobj hobj2).bind fun _ hreg1 =>
        (built_cons hreg1 h).bind fun reg2 hreg2 => built_bindExports exports (funcCount + 1) reg2 hreg2

/-- A library that is new asks for the names that it binds. -/
theorem built_importNew (hallowed : ∀ name, A.name 1 name) {obj : Ref} (hobj : obj.IsObj) (path : ℕ)
    (name : List UInt8) :
    Built A (importNew host handleException obj path name) fun _ => True := by
  have hdone : ∀ (msg : List UInt8) (lib : Option Ref),
      Built A (handleException msg [obj] >>= fun _ => pure lib) fun _ => True := fun msg lib =>
    (keeps_throw₁ hobj).bind fun _ _ => .pure trivial
  refine (built_ask _ _).bind fun answer _ => ?_
  cases answer with
  | error msg => exact hdone msg none
  | ok handle =>
    dsimp only
    cases host.exports handle with
    | error msg => exact .bind (built_alloc trivial) fun lib _ => hdone msg (some lib)
    | ok exports =>
      refine .bind (built_alloc trivial) fun lib hlib => .get_bind fun vm hs => ?_
      have himport : vm.importTable = 1 := hs.importTable
      refine (does_hashSet hs .refl (by rw [himport]; exact one_ne_zero) hlib (fun hne => absurd rfl hne)
        fun name _ => himport ▸ hallowed name).bind fun _ vm' h' _ => ?_
      exact Built.does ((built_pushRef hlib).bind fun _ _ => .pure trivial) hs h'

/-- So does one that may have been loaded. -/
theorem built_importLib (hallowed : ∀ name, A.name 1 name) {obj : Ref} (hobj : obj.IsObj) (path : ℕ)
    (name : List UInt8) :
    Built A (importLib host handleException obj path name) fun _ => True := by
  refine .get_bind fun vm hs => (built_hashGet _ _).bind (fun found hfound => ?_) vm hs
  cases found with
  | some lib => exact (built_pushRef (hfound lib rfl)).bind fun _ _ => .pure trivial
  | none => exact built_importNew hallowed hobj path name

/-- `import`, where every name is allowed. -/
theorem keeps_import (hallowed : ∀ name, A.name 1 name) : Keeps A (opImport host handleException) := by
  refine built_pop.bind fun obj hobj => (built_load hobj).bind fun o _ => ?_
  split
  · refine (built_cstring _).bind fun name _ => (built_newBytes _).bind fun path _ =>
      (built_importLib hallowed hobj _ _).bind fun lib _ => ?_
    cases lib with
    | none => exact .pure trivial
    | some lib =>
      refine .bind (.ofOption fun _ _ _ _ => trivial) fun exports (_ : True) => .get_bind fun vm hs => ?_
      exact (built_bindExports _ _ _ hs.isObj_empty).bind (fun _ hobj => built_pushRef hobj) vm hs
  · exact keeps_throw₁ hobj

/-- A vector of a possible length owns its block. -/
theorem owns_slots {vm : VmInternal} {length : Int64} {room : ℕ} {ps : List Ptr} (hlength : Possible length)
    (hs : Sound A.null vm) (hroom : roomFor (arrayBytes length) vm = .ok (room, vm)) (hps : ps.length = room / 8) :
    length.toInt ≤ ps.length := by
  obtain ⟨-, -, hsize⟩ := Ends.of_ok (built_roomFor (arrayBytes length) vm hs) hroom
  have hbytes : arrayBytes length = 8 * length.toInt.toNat := by
    have hle := hlength.2
    rw [arrayBytes, toNat_toUInt64 hlength.1]
    omega
  have hle := hlength.2
  rw [hps, hsize (by omega), hbytes]
  omega

/-- **What the interface does** is a sequence of changes. -/
theorem ExtStep.changes {vm vm' : VmInternal} (h : ExtStep A.null A.sized vm vm') (hs : Sound A.null vm) :
    Changes A vm vm' := by
  cases h with
  | pop hrun =>
    rcases pop_cases hs with ⟨e, he, -⟩ | ⟨obj, cdr, hpop, hderef, -⟩
    · cases he.symm.trans hrun
    · cases hpop.symm.trans hrun
      exact .single (.pop hderef)
  | push hobj => exact .single (.push hobj)
  | @alloc o r vm' ho hrun =>
    cases o with
    | empty =>
      cases hrun
      exact .refl
    | fixnum | bool | char | pair | library =>
      cases hrun
      exact .single (.alloc ho)
    | _ => exact ho.elim
  | string hrun => exact (Ends.of_ok (built_vmMakeString _ _ vm hs) hrun).1
  | @byteVector length bs hlength hroom =>
    refine .single (.allocBytes bs trivial fun hsized => owns_byteVector vm (hlength hsized) ?_)
    obtain ⟨-, -, hsize⟩ := Ends.of_ok (built_roomFor _ vm hs) hroom
    have hlt := length.toInt_lt
    rw [toNat_toUInt64 (hlength hsized)] at hsize
    have := hsize (by omega)
    omega
  | vector hlength hroom hps hslots =>
    refine .single (.allocArray trivial hslots fun hsized => ?_)
    have hpossible := hlength hsized
    exact ⟨hpossible.1, hpossible.2, _, List.getElem?_concat_length, owns_slots hpossible hs hroom hps⟩
  | record hlength hroom hps hslots =>
    refine .single (.allocArray trivial hslots fun hsized => ?_)
    have hpossible := hlength hsized
    exact ⟨hpossible.1, hpossible.2, _, List.getElem?_concat_length, owns_slots hpossible hs hroom hps⟩
  | output text depth => exact .single (.print vm text depth)
  | ask call => exact .single (.ask vm call)

/-- The calls that code of a library makes are changes. -/
theorem extSteps_changes {vm vm' : VmInternal} (h : Relation.ReflTransGen (ExtStep A.null A.sized) vm vm')
    (hs : Sound A.null vm) : Changes A vm vm' := by
  induction h with
  | refl => exact .refl
  | tail _ hstep ih => exact ih.trans (hstep.changes (ih.sound hs))

/-- **An external function** is built of changes. -/
theorem does_ext {base vm : VmInternal} {run : VmM Unit} (hbase : Sound A.null base) (h : Changes A base vm)
    (hrun : GoesThrough A.null A.sized run vm) : Does A base run vm fun _ => True := by
  have hs := h.sound hbase
  cases hend : run vm with
  | ok r => exact .last hend (h.trans (extSteps_changes (hrun.ends hend) hs)) trivial
  | error e =>
    refine .stop hend ?_
    rcases hrun.stops hend with rfl | rfl | ⟨vm', hsteps, hpop⟩
    · trivial
    · trivial
    · rcases pop_cases ((extSteps_changes hsteps hs).sound hs) with ⟨e', he', hstops⟩ | ⟨obj, cdr, hpop', -⟩
      · cases he'.symm.trans hpop
        exact hstops
      · cases hpop'.symm.trans hpop

/-- A library has the functions that it was loaded with. -/
theorem exportsOf_ok {host : Host} {vm vm' : VmInternal} {lib : Ref} {functions : Option ℕ} {funcCount : Int64}
    {exports : List (List UInt8 × ExtFunc)} (hlib : vm.deref lib = some (.library functions funcCount))
    (h : exportsOf host lib vm = .ok (exports, vm')) :
    ∃ handle, functions = some handle ∧ host.exports handle = .ok exports := by
  obtain ⟨h, -⟩ := ofOption_ok h
  rw [hlib] at h
  cases functions with
  | none => cases h
  | some handle =>
    refine ⟨handle, rfl, ?_⟩
    cases hlist : host.exports handle with
    | error msg =>
      simp only [hlist] at h
      cases h
    | ok exports' =>
      simp only [hlist] at h
      cases h
      rfl

/-- **`op_call_ext`** does what the external function does. -/
theorem does_callExt {vm : VmInternal} (hs : Sound A.null vm) (hext : ∀ (funcPtr : ExtFunc) (vm₂ : VmInternal),
      vm.CallsExt host funcPtr vm₂ → GoesThrough A.null A.sized funcPtr.run vm₂) :
    Does A vm (opCallExt host handleException) vm fun _ => True := by
  refine .pop_bind hs .refl fun obj cdr hobj hroot h1 => .pop_bind hs h1 fun lib cdr' hlib hroot' h2 =>
    .step rfl ?_
  have hcall : Does A vm (callExt host handleException obj lib) ((vm.pop cdr).pop cdr') fun _ => True := by
    refine .ofOption_bind fun o1 ho1 => .ofOption_bind fun o2 ho2 => ?_
    split
    · next func functions funcCount =>
      split
      · exact (keeps_throw₂ hobj hlib).does hs h2
      · refine .ofOption_bind fun exports hexports => .ofOption_bind fun p hp => ?_
        obtain ⟨i, hi, hp⟩ := Option.bind_eq_some_iff.mp hp
        obtain ⟨handle, rfl, hhost⟩ := exportsOf_ok ho2 (ofOption_run hexports)
        exact does_ext hs h2 (hext p.2 _ ⟨obj, lib, func, funcCount, handle, i, exports, p.1, _, vmPop_run hroot,
          vmPop_run hroot', ho1, ho2, hhost, hi, hp⟩)
    · exact (keeps_throw₂ hobj hlib).does hs h2
  refine hcall.bind fun _ vm' h' _ => Built.does (.get_bind fun vm hs => ?_) hs h'
  split
  · exact built_handleException _ (by simp) vm hs
  · exact .last rfl .refl trivial

/-! ## The instructions that ask for something

Five instructions make a change that is not always allowed; what they make it with is in the condition. -/

/-- **What a round asks for is there**: the lengths of what it makes are possible, and what it stores
does not take the end of a string away. -/
structure VmInternal.AsksPossible (host : Host) (vm : VmInternal) : Prop where
  vector : vm.nextOp = some .makeVector → ∀ length, vm.Asks length → Possible length
  record : vm.nextOp = some .makeRecord → ∀ length, vm.Asks length → Possible (length + 1)
  byteVector : vm.nextOp = some .makeByteVector → ∀ length, vm.Asks length → 0 ≤ length
  ends : vm.nextOp = some .indexSet → ¬ vm.WritesEnd
  read : vm.nextOp = some .fdRead → ∀ count, vm.AsksRead count → 0 ≤ count
  ext : vm.nextOp = some .callExt → ∀ (funcPtr : ExtFunc) (vm₂ : VmInternal), vm.fetched.CallsExt host funcPtr vm₂ →
    GoesThrough True True funcPtr.run vm₂

/-- **What a round asks for**: reading a null slot asks that null may be pushed, writing to a byte
array that this is allowed, the three instructions that set or move a handler that the handler is,
writing to a pair or a table that this is, and going on that the place is. -/
structure Permits (A : Allow) (host : Host) (vm : VmInternal) : Prop where
  null : vm.nextOp = some .indexRef → vm.ReadsNull → A.null
  write : vm.nextOp = some .indexSet → ∀ bs, vm.WritesTo bs → ∀ vm₁ : VmInternal,
    vm₁.objs = vm.objs → A.write vm₁ bs
  asm : vm.Assembles → ∀ env, vm.envs[vm.env]? = some env → env.handler = true →
    ∀ vm₁ env', A.handler vm₁ env'
  cont : vm.nextOp = some .continue → ∀ (vm₁ : VmInternal) (env' : Env),
    vm.target = some (env'.codeRef, env'.handlerAddr) → A.handler vm₁ env'
  restore : vm.nextOp = some .restore → ∀ env, vm.envs[vm.env]? = some env →
    ∀ (vm₁ : VmInternal) (env' : Env), env'.codeRef = env.codeRef → env'.length = env.length →
      env'.handlerAddr = env.handlerAddr → A.handler vm₁ env'
  sized : A.sized → vm.AsksPossible host
  ext : vm.nextOp = some .callExt → ∀ (funcPtr : ExtFunc) (vm₂ : VmInternal), vm.fetched.CallsExt host funcPtr vm₂ →
    GoesThrough A.null A.sized funcPtr.run vm₂ := by exact fun _ funcPtr vm₂ _ => funcPtr.keeps vm₂
  pair : ∀ n, vm.WritesPair n → A.pair n := by exact fun _ _ => trivial
  name : ∀ t name, vm.WritesName host t name → A.name t name := by exact fun _ _ _ => trivial
  next : ∀ (env : Env) (code : Code) (instr : Instr) (next : ℕ), vm.envs[vm.env]? = some env →
    env.codeRef.bind (vm.codes[·]?) = some code → decodeAt code env.ip = some (instr, next) →
    A.place vm.codes env.codeRef env.length next := by exact fun _ _ _ _ _ _ _ => trivial
  target : ∀ (env : Env) (code : Code) (o : Op) (target : Int64) (next : ℕ), vm.envs[vm.env]? = some env →
    env.codeRef.bind (vm.codes[·]?) = some code → decodeAt code env.ip = some (⟨o, .int target⟩, next) →
    o.operandKind = .target → A.place vm.codes env.codeRef env.length (jumpTo next target) := by
      exact fun _ _ _ _ _ _ _ _ _ => trivial
  start : vm.nextOp = some .asm → ∀ bytes, (∃ str tokens, host.lex str = some tokens ∧ asmString tokens = some bytes) →
    A.place (vm.codes ++ [fun i => bytes.getD i 0]) (some vm.codes.length) bytes.length 0 := by
      exact fun _ _ _ => trivial

/-- An index that is one of an array, as a number. -/
theorem indexOf_some {index : Int64} {size n : ℕ} (h : indexOf index size = some n) :
    0 ≤ index.toInt ∧ index.toInt.toNat = n := by
  unfold indexOf at h
  split at h
  · next hindex => exact ⟨hindex.1, Option.some.inj h⟩
  · cases h

/-- A slot that is read was stored to, or is null. -/
theorem does_getSlot {base vm : VmInternal} (hbase : Sound A.null base) (h : Changes A base vm) (a : ℕ)
    (index : Int64) : Does A base (getSlot a index) vm fun p => IsSlot True p ∧ ∃ ps n,
      vm.arrays[a]? = some ps ∧ indexOf index ps.length = some n ∧ ps[n]? = some p := by
  refine .ofOption_bind fun ps hps => ?_
  cases hn : indexOf index ps.length with
  | none => exact .stop rfl trivial
  | some n =>
    cases hp : ps[n]? with
    | none => exact .stop (ofOption_run_none hp) trivial
    | some p =>
      have hslot := (h.sound hbase).slots ps (List.mem_of_getElem? hps) p (List.mem_of_getElem? hp)
      exact .last (ofOption_run hp) h ⟨hslot, ps, n, hps, hn, hp⟩

/-- A null is allowed where it is asked for. -/
theorem isSlot_of_imp {null : Prop} {p : Ptr} (h : IsSlot True p) (hnull : p = none → null) :
    IsSlot null p := by
  cases p with
  | none => exact hnull rfl
  | some r => exact h

/-- **`op_index_ref`** pushes a null only where it reads one. -/
theorem does_indexRef {vm : VmInternal} (hs : Sound A.null vm) (hnull : vm.ReadsNull → A.null) :
    Does A vm (opIndexRef handleException) vm fun _ => True := by
  refine .pop_bind hs .refl fun v cdr hv hroot h1 => .pop_bind hs h1 fun i cdr' hi hroot' h2 => ?_
  have hs2 := h2.sound hs
  have hop0 : vm.operand 0 = some v := operandFrom_zero hroot
  have hop1 : vm.operand 1 = some i := (operandFrom_succ 0 hroot).trans (operandFrom_zero hroot')
  refine .ofOption_bind fun o ho => ?_
  split
  · next index =>
    refine .ofOption_bind fun o' ho' => ?_
    have hread : ∀ length slots, o'.slots? = some (length, slots) → index ≤ length →
        Does A vm (getSlot slots index >>= fun obj => vmPush obj) ((vm.pop cdr).pop cdr') fun _ => True := by
      intro length slots hslots hle
      refine (does_getSlot hs h2 slots index).bind fun p vm' hchanges hp => ?_
      obtain ⟨hslot, ps, n, hps, hn, hp⟩ := hp
      refine (built_push (isSlot_of_imp hslot ?_)).does hs hchanges
      rintro rfl
      refine hnull ⟨v, i, o', length, index, slots, hop0, ho', hslots, hop1, ho, hle, ?_⟩
      rintro ⟨ps', r, -, -, hps', hr⟩
      cases hps.symm.trans hps'
      rw [(indexOf_some hn).2] at hr
      cases hr.symm.trans hp
    have hthrow : Does A vm (handleException "Read by index requires a vector." [v])
        ((vm.pop cdr).pop cdr') fun _ => True := (keeps_throw₁ hv).does hs h2
    split
    · split
      · exact hread _ _ rfl ‹_›
      · exact hthrow
    · split
      · exact hread _ _ rfl ‹_›
      · exact hthrow
    · split
      · exact Built.does ((built_getByte _ _).bind fun byte _ => .bind (built_alloc trivial)
          fun _ hobj => built_pushRef hobj) hs h2
      · exact hthrow
    · exact hthrow
  · exact (keeps_throw₁ hi).does hs h2

/-- An index is its number. -/
theorem index_eq {index l : Int64} {size n : ℕ} (h : indexOf index size = some n) (hn : n = l.toInt.toNat)
    (hl : 0 ≤ l) : index = l := by
  unfold indexOf at h
  split at h
  · next hindex =>
    cases h
    rw [Int64.le_iff_toInt_le] at hl
    refine Int64.toInt_inj.mp ?_
    have hzero : (0 : Int64).toInt = 0 := rfl
    omega
  · cases h

/-- **`op_index_set`** writes to the byte array of its first operand only. -/
theorem does_indexSet {vm : VmInternal} (hs : Sound A.null vm)
    (hwrite : ∀ bs, vm.WritesTo bs → ∀ vm₁ : VmInternal, vm₁.objs = vm.objs → A.write vm₁ bs)
    (hends : A.sized → ¬ vm.WritesEnd) :
    Does A vm (opIndexSet handleException) vm fun _ => True := by
  refine .pop_bind hs .refl fun v cdr hv hroot h1 => .pop_bind hs h1 fun obj cdr' hobj hroot' h2 =>
    .pop_bind hs h2 fun i cdr'' hi hroot'' h3 => .ofOption_bind fun o ho => ?_
  have hop0 : vm.operand 0 = some v := operandFrom_zero hroot
  have hop1 : vm.operand 1 = some obj := (operandFrom_succ 0 hroot).trans (operandFrom_zero hroot')
  have hop2 : vm.operand 2 = some i :=
    (operandFrom_succ 1 hroot).trans ((operandFrom_succ 0 hroot').trans (operandFrom_zero hroot''))
  have hthrow : Does A vm (handleException "Set by index requires a vector." [v])
      (((vm.pop cdr).pop cdr').pop cdr'') fun _ => True := (keeps_throw₁ hv).does hs h3
  split
  · next index =>
    refine .ofOption_bind fun o' ho' => ?_
    split
    · split
      · exact (keeps_setSlot _ _ hobj).does hs h3
      · exact hthrow
    · split
      · exact (keeps_setSlot _ _ hobj).does hs h3
      · exact hthrow
    · next length bytes =>
      split
      · next hle =>
        refine .ofOption_bind fun o'' ho'' => ?_
        split
        · next integer =>
          refine .ofOption_bind fun old hold => .ofOption_bind fun n hn => .last rfl ?_ trivial
          have hwrites : vm.WritesTo bytes :=
            ⟨v, obj, i, length, integer, index, hop0, ho', hop1, ho'', hop2, ho, hle⟩
          refine h3.tail (.setByte hold (hwrite bytes hwrites _ rfl) fun hsized m l hstring hnonneg hnl => ?_)
          by_contra hb
          obtain rfl : index = l := index_eq hn hnl hnonneg
          exact hends hsized ⟨v, obj, i, length, integer, index, bytes, m, hop0, ho', hop1, ho'', hop2, ho, hle, hstring, hb⟩
        · exact (keeps_throw₁ hobj).does hs h3
      · exact hthrow
    · exact hthrow
  · exact (keeps_throw₁ hi).does hs h3

/-- **`op_asm`** copies the handler into new code. -/
theorem does_asm {vm : VmInternal} (hs : Sound A.null vm)
    (hasm : ∀ (obj : Ref) (length : Int64) (bytes : ℕ), vm.operand 0 = some obj →
      vm.deref obj = some (.string length bytes) → ∀ env, vm.envs[vm.env]? = some env → env.handler = true →
        ∀ vm₁ env', A.handler vm₁ env')
    (hstart : ∀ bytes, (∃ str tokens, host.lex str = some tokens ∧ asmString tokens = some bytes) →
      A.place (vm.codes ++ [fun i => bytes.getD i 0]) (some vm.codes.length) bytes.length 0) :
    Does A vm (opAsm host handleException) vm fun _ => True := by
  refine .pop_bind hs .refl fun obj cdr hobj hroot h1 => .ofOption_bind fun o ho => ?_
  split
  · next length bytes =>
    refine .ofOption_bind fun str hstr => ?_
    cases hwritten : (host.lex str).bind asmString with
    | none => exact .stop rfl trivial
    | some written =>
      obtain ⟨tokens, hlex, htokens⟩ := Option.bind_eq_some_iff.mp hwritten
      obtain ⟨env, henv⟩ := hs.currentEnv
      let vm₁ : VmInternal := { vm.pop cdr with codes := vm.codes ++ [fun i => written.getD i 0] }
      have h2 : Changes A vm vm₁ := h1.tail (.newCode _ _)
      have hbindings := hs.bindings_ne henv
      have henv₁ : vm₁.envs[vm₁.env]? = some env := henv
      refine .step rfl (.step rfl (.step (cloneEnv_run henv₁) (.step (editEnv_run vm₁ _ _) ?_)))
      exact does_closure hs h2
        (fun h => .inr (hasm obj length bytes (operandFrom_zero hroot) ho env henv h _ _))
        (.inr (hstart written ⟨str, tokens, hlex, htokens⟩))
        hbindings fun p hp => hs.parent henv hp
  · exact (keeps_throw₁ hobj).does hs h1

/-- `restore` asks for the handler that it brings back. -/
theorem does_restore {vm : VmInternal} {env : Env}
    (henv : vm.envs[vm.env]? = some env) (hrestore : ∀ vm₁ : VmInternal, ∀ env' : Env,
      env'.codeRef = env.codeRef → env'.length = env.length → env'.handlerAddr = env.handlerAddr →
        A.handler vm₁ env') :
    Does A vm opRestore vm fun _ => True := by
  refine .last rfl (.single ?_) trivial
  have hchange : Change A vm (vm.updateEnv fun e => { e with handler := true, handlerAddr := env.handlerAddr }) :=
    .setHandler henv fun _ => .inr (hrestore _ _ rfl rfl rfl)
  rw [updateEnv_eq henv] at hchange ⊢
  exact hchange

/-! ## The instructions with an operand

The operand stands behind the instruction, and a label is an address in the same code. -/

section

variable {vm : VmInternal} {env : Env} {c : ℕ} {code : Code} (hs : Sound A.null vm)
  (henv : vm.envs[vm.env]? = some env) (hc : env.codeRef = some c) (hcode : vm.codes[c]? = some code)

include henv hc hcode

/-- The operand is read behind the instruction. -/
theorem parseInt_fetched :
    parseInt (vm.goto (env.ip + 1)) = .ok (Asm.parseInt code (env.ip + 1), vm.goto (env.ip + 9)) := by
  have hrun := parseInt_run (getElem?_goto henv (env.ip + 1)) hc hcode
  rwa [goto_goto] at hrun

/-- **The string of an operand** is made. -/
theorem does_parseString (hplace : ∀ str next, Asm.parseString code (env.ip + 1) = some (str, next) →
      A.place vm.codes env.codeRef env.length next) :
    Does A vm parseString (vm.goto (env.ip + 1)) Ref.IsObj := by
  have henv₁ := getElem?_goto henv (env.ip + 1)
  cases hparse : Asm.parseString code (env.ip + 1) with
  | none => exact .stop (parseString_run_none henv₁ hc hcode hparse) trivial
  | some p =>
    obtain ⟨str, next⟩ := p
    have hrun := parseString_run henv₁ hc hcode hparse
    rw [goto_goto] at hrun
    have hlength := length_of_parseString hparse
    refine .last hrun (.tail (.single (.setIp henv (hplace str next hparse))) ?_) trivial
    refine .allocBytes (str ++ [0]) trivial fun _ => owns_string _ (ofNat_nonneg hlength) ?_
    rw [toInt_ofNat hlength, Int.toNat_natCast]
    exact List.getElem?_concat_length

/-- A jump asks for the place that it names. -/
theorem does_jmp (hplace : A.place vm.codes env.codeRef env.length (env.ip + 9))
    (htarget : A.place vm.codes env.codeRef env.length (jumpTo (env.ip + 9) (Asm.parseInt code (env.ip + 1)))) :
    Does A vm opJmp (vm.goto (env.ip + 1)) fun _ => True := by
  have henv₁ := getElem?_goto henv (env.ip + 9)
  exact .step (parseInt_fetched henv hc hcode)
    (.last (jump_run henv₁ _) (.tail (.single (.setIp henv hplace)) (.setIp henv₁ htarget)) trivial)

/-- `continue` asks for the handler that it names. -/
theorem does_continue (hplace : A.place vm.codes env.codeRef env.length (env.ip + 9))
    (hcont : ∀ vm₁ : VmInternal, ∀ env' : Env, env'.codeRef = env.codeRef → env'.length = env.length →
      env'.handlerAddr = jumpTo (env.ip + 9) (Asm.parseInt code (env.ip + 1)) → A.handler vm₁ env') :
    Does A vm opContinue (vm.goto (env.ip + 1)) fun _ => True := by
  have henv₁ := getElem?_goto henv (env.ip + 9)
  refine .step (parseInt_fetched henv hc hcode) (.step rfl (.last rfl (.tail (.single (.setIp henv hplace)) ?_) trivial))
  rw [updateEnv_updateEnv, updateEnv_congr henv₁]
  · exact .setHandler henv₁ fun _ => .inr (hcont _ _ rfl rfl rfl)
  · rfl

include hs

/-- A number asks for the place behind it. -/
theorem does_litFixnum (hplace : A.place vm.codes env.codeRef env.length (env.ip + 9)) :
    Does A vm opLit64bit (vm.goto (env.ip + 1)) fun _ => True :=
  .step (parseInt_fetched henv hc hcode) (Built.does (.bind (built_alloc trivial) fun _ hobj => built_push hobj) hs
    (.single (.setIp henv hplace)))

theorem does_litChar (hplace : A.place vm.codes env.codeRef env.length (env.ip + 5)) :
    Does A vm opLitChar (vm.goto (env.ip + 1)) fun _ => True := by
  have henv₁ := getElem?_goto henv (env.ip + 1)
  have hcodeOf : codeOf { env with ip := env.ip + 1 } (vm.goto (env.ip + 1)) = _ := codeOf_run hc hcode
  have hskip := skip_run henv₁ 4
  rw [goto_goto] at hskip
  exact .step (ofOption_run henv₁) (.step hcodeOf (.step hskip
    (Built.does (.bind (built_alloc trivial) fun _ hobj => built_push hobj) hs (.single (.setIp henv hplace)))))

/-- A conditional jump asks for both places. -/
theorem does_jnf (hplace : A.place vm.codes env.codeRef env.length (env.ip + 9))
    (htarget : A.place vm.codes env.codeRef env.length (jumpTo (env.ip + 9) (Asm.parseInt code (env.ip + 1)))) :
    Does A vm opJnf (vm.goto (env.ip + 1)) fun _ => True := by
  have henv₁ := getElem?_goto henv (env.ip + 9)
  refine .step (parseInt_fetched henv hc hcode) (.pop_bind hs (.single (.setIp henv hplace))
    fun obj cdr hobj hroot h2 => .ofOption_bind fun o ho => ?_)
  split
  · exact .last rfl h2 trivial
  · exact .last (@jump_run ((vm.goto (env.ip + 9)).pop cdr) _ henv₁ _) (h2.tail (.setIp henv₁ htarget)) trivial

/-- A call asks for the place that it names, and for the place behind it. -/
theorem does_call (hplace : A.place vm.codes env.codeRef env.length (env.ip + 9))
    (htarget : A.place vm.codes env.codeRef env.length (jumpTo (env.ip + 9) (Asm.parseInt code (env.ip + 1)))) :
    Does A vm opCall (vm.goto (env.ip + 1)) fun _ => True := by
  have henv₁ := getElem?_goto henv (env.ip + 9)
  have h1 : Changes A vm (vm.goto (env.ip + 9)) := .single (.setIp henv hplace)
  have hs₁ := h1.sound hs
  let vm₁ : VmInternal := { vm.goto (env.ip + 9) with objs := vm.objs ++ [.closure vm.env] }
  let vm₂ : VmInternal := { vm₁.push (some (.obj vm.objs.length)) with tables := vm.tables ++ [[]] }
  let child : Env := childEnv (vm.goto (env.ip + 9)) { env with ip := env.ip + 9 }
  have hpush : pushEnv (vm₁.push (some (.obj vm.objs.length))) = .ok ((), vm₂.enter child) := pushEnv_run henv₁
  have h2 : Changes A vm (vm₂.enter child) := by
    refine .tail (.tail h1 (.newTable (List.forall_mem_nil _))) (.call ?_ (envPlaced_like henv₁ rfl rfl rfl) ?_ ?_)
    · rintro ⟨⟩
    · exact (Nat.lt_of_succ_lt hs₁.tables).ne'
    · rintro p ⟨⟩
      exact hs₁.current
  have hchild := getElem?_enter vm₂ child
  exact .step (parseInt_fetched henv hc hcode) (.step rfl (.step rfl (.step rfl (.step hpush
    (.last (jump_run hchild _) (h2.tail (.setIp hchild htarget)) trivial)))))

theorem does_proc (hplace : A.place vm.codes env.codeRef env.length (env.ip + 9))
    (htarget : A.place vm.codes env.codeRef env.length (jumpTo (env.ip + 9) (Asm.parseInt code (env.ip + 1)))) :
    Does A vm opProc (vm.goto (env.ip + 1)) fun _ => True := by
  have henv₁ := getElem?_goto henv (env.ip + 9)
  have h1 : Changes A vm (vm.goto (env.ip + 9)) := .single (.setIp henv hplace)
  have hs₁ := h1.sound hs
  have hbindings := hs₁.bindings_ne henv₁
  refine .step (parseInt_fetched henv hc hcode) (.step rfl (.step (cloneEnv_run henv₁)
    (.step (editEnv_run (vm.goto (env.ip + 9)) _ _) ?_)))
  exact does_closure hs h1 (envAllowed_like henv₁ rfl rfl rfl rfl) (.inr htarget) hbindings
    fun p hp => hs₁.parent henv₁ hp

end

/-! ## A round

The round fetches and dispatches, so it is built as its instruction is. -/

/-- The next instruction is read, and the pointer moves behind it. -/
theorem fetch_run {vm : VmInternal} {env : Env} {c : ℕ} {code : Code}
    (henv : vm.envs[vm.env]? = some env) (hc : env.codeRef = some c) (hcode : vm.codes[c]? = some code) :
    fetch vm = .ok (code env.ip, vm.fetched) := by
  have hcodeOf : codeOf env vm = .ok (code, vm) := ofOption_run (by rw [hc]; exact hcode)
  exact (run_bind (ofOption_run henv)).trans ((run_bind hcodeOf).trans (run_bind rfl))

/-- A round may use what was fetched. -/
theorem does_fetch {vm : VmInternal} (hs : Sound A.null vm) {f : UInt8 → VmM Unit}
    (h : ∀ env c code, vm.envs[vm.env]? = some env → env.codeRef = some c → vm.codes[c]? = some code →
      Does A vm (f (code env.ip)) vm.fetched fun _ => True) :
    Does A vm (fetch >>= f) vm fun _ => True := by
  obtain ⟨env, henv⟩ := hs.currentEnv
  cases hcode : env.codeRef.bind (vm.codes[·]?) with
  | none =>
    have hstop : fetch vm = .error .undefined := by
      refine (run_bind (ofOption_run henv)).trans ?_
      change codeOf env vm >>= _ = _
      rw [codeOf, ofOption_run_none hcode]
      rfl
    exact .stop_bind hstop trivial
  | some code =>
    obtain ⟨c, hc, hcode⟩ := Option.bind_eq_some_iff.mp hcode
    exact .step (fetch_run henv hc hcode) (h env c code henv hc hcode)

/-- What a round does once the operation has been read. -/
theorem evalStepWith_run {vm : VmInternal} {o : Op} {m : Throw → VmM Unit} (hnext : vm.nextOp = some o)
    (hop : ∀ throw, ops host throw o = some (m throw)) (throw : Throw) :
    evalStepWith host throw vm = m throw vm.fetched := by
  obtain ⟨env, henv, hnext⟩ := Option.bind_eq_some_iff.mp hnext
  obtain ⟨c, hc, hnext⟩ := Option.bind_eq_some_iff.mp hnext
  obtain ⟨code, hcode, hbyte⟩ := Option.bind_eq_some_iff.mp hnext
  refine (run_bind (fetch_run henv hc hcode)).trans ?_
  rw [hbyte, Option.bind_some, hop]

/-- What an operation with a known operand decodes to. -/
theorem decodeAt_of_op {code : Code} {ip : ℕ} {o : Op} (hop : Op.ofByte? (code ip) = some o) :
    decodeAt code ip = match o.operandKind with
      | .none => some (⟨o, .none⟩, ip + 1)
      | .fixnum => some (⟨o, .int (Asm.parseInt code (ip + 1))⟩, ip + 9)
      | .char => some (⟨o, .char (parseChar code (ip + 1))⟩, ip + 5)
      | .string => (Asm.parseString code (ip + 1)).bind fun (str, next) => some (⟨o, .string str⟩, next)
      | .target => some (⟨o, .int (Asm.parseInt code (ip + 1))⟩, ip + 9) := by
  rw [decodeAt, hop]
  rfl

/-- **A round of `vm_eval` is built of changes.** -/
theorem evalStep_changes {vm : VmInternal} (hs : Sound A.null vm) (hpermits : Permits A host vm) :
    Does A vm (evalStep host) vm fun _ => True := by
  refine does_fetch hs fun env c code henv hc hcode => ?_
  have hat : vm.fetched = vm.goto (env.ip + 1) := updateEnv_ip henv fun env => env.ip + 1
  have hs₁ : Sound A.null vm.fetched := hs.updateEnv (fun _ => rfl) fun _ => rfl
  have hcodeRef : env.codeRef.bind (vm.codes[·]?) = some code := by rw [hc]; exact hcode
  have hnext : vm.nextOp = Op.ofByte? (code env.ip) := by
    simp [VmInternal.nextOp, henv, hc, hcode]
  cases hop : Op.ofByte? (code env.ip) with
  | none => exact .stop rfl (.inr (by decide))
  | some o =>
    rw [hop] at hnext
    have hdecode := decodeAt_of_op hop
    have hfetched : o.operandKind = .none → Changes A vm vm.fetched := fun hkind => by
      rw [hkind] at hdecode
      rw [hat]
      exact .single (.setIp henv (hpermits.next env code _ _ henv hcodeRef hdecode))
    have hdone : ∀ {m : VmM Unit}, o.operandKind = .none → Does A vm.fetched m vm.fetched (fun _ => True) →
        Does A vm m vm.fetched fun _ => True := fun hkind h =>
      Ends.mono h fun _ _ h => ⟨(hfetched hkind).trans h.1, h.2⟩
    have hnine : ∀ {operand : Operand}, decodeAt code env.ip = some (⟨o, operand⟩, env.ip + 9) →
        A.place vm.codes env.codeRef env.length (env.ip + 9) := hpermits.next env code _ _ henv hcodeRef
    have hstring : ∀ str next, Asm.parseString code (env.ip + 1) = some (str, next) → o.operandKind = .string →
        A.place vm.codes env.codeRef env.length next := fun str next hparse hkind => by
      rw [hkind] at hdecode
      simp only [hparse, Option.bind_some] at hdecode
      exact hpermits.next env code _ _ henv hcodeRef hdecode
    have htarget : o.operandKind = .target →
        A.place vm.codes env.codeRef env.length (jumpTo (env.ip + 9) (Asm.parseInt code (env.ip + 1))) :=
      fun hkind => by
        rw [hkind] at hdecode
        exact hpermits.target env code o _ _ henv hcodeRef hdecode hkind
    cases o with
    | nop => exact .stop rfl (.inr (by decide))
    | isLibrary => exact .stop rfl (.inr (by decide))
    | litEmpty => exact keeps_litEmpty.does hs (hfetched rfl)
    | litFixnum =>
      rw [hat]
      exact does_litFixnum hs henv hc hcode (hnine hdecode)
    | litChar =>
      rw [hat]
      exact does_litChar hs henv hc hcode (hpermits.next env code _ _ henv hcodeRef hdecode)
    | litTrue => exact keeps_litTrue.does hs (hfetched rfl)
    | litFalse => exact keeps_litFalse.does hs (hfetched rfl)
    | litString =>
      rw [hat]
      exact (does_parseString henv hc hcode fun str next hparse => hstring str next hparse rfl).bind
        fun obj vm' h' hobj => (built_pushRef hobj).does hs h'
    | litSymbol =>
      rw [hat]
      exact (does_parseString henv hc hcode fun str next hparse => hstring str next hparse rfl).bind fun obj vm' h' hobj =>
        Built.does ((built_makeSymbol hobj).bind fun _ hobj => built_push hobj) hs h'
    | makeSymbol => exact keeps_makeSymbol.does hs (hfetched rfl)
    | cons => exact keeps_cons.does hs (hfetched rfl)
    | car => exact keeps_car.does hs (hfetched rfl)
    | cdr => exact keeps_cdr.does hs (hfetched rfl)
    | setCar => exact hdone rfl (does_setCar hs₁ fun n hn => hpermits.pair n ⟨.inl hnext, hn⟩)
    | setCdr => exact hdone rfl (does_setCdr hs₁ fun n hn => hpermits.pair n ⟨.inr hnext, hn⟩)
    | makeVector =>
      exact hdone rfl (does_makeSized hs₁ fun length hasks =>
        built_vmMakeVector fun hsized => (hpermits.sized hsized).vector hnext length hasks)
    | makeByteVector =>
      exact hdone rfl (does_makeSized hs₁ fun length hasks =>
        built_vmMakeByteVector fun hsized => (hpermits.sized hsized).byteVector hnext length hasks)
    | makeRecord =>
      exact hdone rfl (does_makeSized hs₁ fun length hasks =>
        built_vmMakeRecord fun hsized => (hpermits.sized hsized).record hnext length hasks)
    | indexSet =>
      exact hdone rfl (does_indexSet hs₁ (hpermits.write hnext) fun hsized => (hpermits.sized hsized).ends hnext)
    | indexRef => exact hdone rfl (does_indexRef hs₁ (hpermits.null hnext))
    | vectorLength => exact keeps_vectorLength.does hs (hfetched rfl)
    | stringByteVector => exact keeps_stringByteVector.does hs (hfetched rfl)
    | byteVectorString => exact keeps_byteVectorString.does hs (hfetched rfl)
    | call =>
      rw [hat]
      exact does_call hs henv hc hcode (hnine hdecode) (htarget rfl)
    | adopt => exact keeps_adopt.does hs (hfetched rfl)
    | proc =>
      rw [hat]
      exact does_proc hs henv hc hcode (hnine hdecode) (htarget rfl)
    | jmp =>
      rw [hat]
      exact does_jmp henv hc hcode (hnine hdecode) (htarget rfl)
    | jnf =>
      rw [hat]
      exact does_jnf hs henv hc hcode (hnine hdecode) (htarget rfl)
    | ret => exact keeps_ret.does hs (hfetched rfl)
    | jin => exact keeps_jin.does hs (hfetched rfl)
    | callIn => exact keeps_callIn.does hs (hfetched rfl)
    | tailCallIn => exact keeps_tailCallIn.does hs (hfetched rfl)
    | «continue» =>
      rw [hat]
      refine does_continue henv hc hcode (hnine hdecode) fun vm₁ env' h1 hlength h2 => ?_
      refine hpermits.cont hnext vm₁ env' ?_
      simp [VmInternal.target, henv, hc, hcode, h1, h2]
    | restore => exact hdone rfl (does_restore (getElem?_updateEnv henv _) (hpermits.restore hnext env henv))
    | bind =>
      refine hdone rfl (does_bind hs₁ fun key length bytes env' name hkey ho hname henv' => ?_)
      obtain rfl := Option.some.inj ((getElem?_updateEnv henv _).symm.trans henv')
      exact hpermits.name _ _ (.inl ⟨hnext, key, length, bytes, env, hkey, ho, hname, henv, rfl⟩)
    | set =>
      refine hdone rfl (does_set hs₁ fun key value r length bytes env' name vm₁ vm₂ vm₃ h1 h2 ho hname hfind => ?_)
      exact hpermits.name _ _ (.inr (.inl
        ⟨hnext, key, value, r, length, bytes, env', vm₁, vm₂, vm₃, h1, h2, ho, hname, hfind, rfl⟩))
    | read => exact keeps_read.does hs (hfetched rfl)
    | swap => exact keeps_swap.does hs (hfetched rfl)
    | rot => exact keeps_rot.does hs (hfetched rfl)
    | dupRef => exact keeps_dupRef.does hs (hfetched rfl)
    | drop => exact keeps_drop.does hs (hfetched rfl)
    | depth => exact keeps_depth.does hs (hfetched rfl)
    | add => exact (keeps_numericOp fun _ _ => .pure trivial).does hs (hfetched rfl)
    | sub => exact (keeps_numericOp fun _ _ => .pure trivial).does hs (hfetched rfl)
    | mul => exact (keeps_numericOp fun _ _ => .pure trivial).does hs (hfetched rfl)
    | div => exact (keeps_numericOp (built_divide _)).does hs (hfetched rfl)
    | mod => exact (keeps_numericOp (built_divide _)).does hs (hfetched rfl)
    | numericEqual => exact (keeps_numericLogic _).does hs (hfetched rfl)
    | numericLt => exact (keeps_numericLogic _).does hs (hfetched rfl)
    | numericGt => exact (keeps_numericLogic _).does hs (hfetched rfl)
    | not => exact keeps_not.does hs (hfetched rfl)
    | eq => exact keeps_eq.does hs (hfetched rfl)
    | output => exact keeps_output.does hs (hfetched rfl)
    | fdRead =>
      exact hdone rfl (does_fdRead hs₁ fun hsized => (hpermits.sized hsized).read hnext)
    | fdWrite => exact keeps_fdWrite.does hs (hfetched rfl)
    | «open» => exact keeps_open.does hs (hfetched rfl)
    | close => exact keeps_close.does hs (hfetched rfl)
    | slurp => exact keeps_slurp.does hs (hfetched rfl)
    | asm =>
      refine hdone rfl (does_asm hs₁ (fun obj length bytes hop ho env' henv' hhandler => ?_) (hpermits.start hnext))
      obtain rfl := Option.some.inj ((getElem?_updateEnv henv _).symm.trans henv')
      exact hpermits.asm ⟨hnext, obj, length, bytes, hop, ho⟩ env henv hhandler
    | «import» =>
      refine Built.does (keeps_import fun name => ?_) hs (hfetched rfl)
      exact hs.importTable ▸ hpermits.name vm.importTable name (.inr (.inr ⟨hnext, rfl⟩))
    | callExt =>
      exact hdone rfl (does_callExt hs₁ (hpermits.ext hnext))
    | isFixnum | isBool | isChar | isString | isSymbol | isVector | isByteVector | isRecord | isPair
      | isEmpty | isClosure | isSelf => exact (keeps_typeOp _).does hs (hfetched rfl)
    | setExit => exact keeps_setExit.does hs (hfetched rfl)
    | gcStats => exact (built_print _).does hs (hfetched rfl)

end

end Insomniac.Vm

import Insomniac.Machinery.Mirror
import Insomniac.Vm.Runs
import Mathlib.Data.List.Find

/-!
# Vm/Lengths — the length of the code

    while (env->ip < env->length) …

Only the loop of `vm_eval` looks at the length of the code.  So a machine does the same when the
environments of one piece of code are given another length (`Alike`), for as long as the loop goes on.
-/

open Bytes Insomniac.Asm Mirror Run

namespace Insomniac.Vm

/-! ## Another length

The environments of one piece of code are given another length; nothing else of the machine is touched. -/

/-- Another length for the code number `c`. -/
def Env.resized (c m : ℕ) (env : Env) : Env := if env.codeRef = some c then { env with length := m } else env

/-- Another length for the code number `c`, in all environments. -/
def VmInternal.resized (c m : ℕ) (vm : VmInternal) : VmInternal :=
  { vm with envs := vm.envs.map (Env.resized c m) }

/-- **What is not asked for by a program** stays out of its way: the functions of the outside that are handed a
state, those of libraries among them, do not look at the lengths in it. -/
structure Host.Blind (host : Host) : Prop where
  closure (c m : ℕ) (vm : VmInternal) : host.printer.closure (vm.resized c m) = host.printer.closure vm
  library (c m : ℕ) (vm : VmInternal) : host.printer.library (vm.resized c m) = host.printer.library vm
  debug (c m : ℕ) (vm : VmInternal) : host.printer.debug (vm.resized c m) = host.printer.debug vm
  exports (c m handle : ℕ) : ∀ exports, host.exports handle = .ok exports → ∀ p ∈ exports,
    Copies (VmInternal.resized c m) id p.2.run p.2.run
  gcStats (c m : ℕ) (vm : VmInternal) : host.gcStats (vm.resized c m) = host.gcStats vm
  rawString (c m : ℕ) (vm : VmInternal) : host.rawString (vm.resized c m) = host.rawString vm
  staleGet (c m : ℕ) (vm : VmInternal) : host.staleGet (vm.resized c m) = host.staleGet vm
  staleSet (c m : ℕ) (vm : VmInternal) : host.staleSet (vm.resized c m) = host.staleSet vm

section

variable {c m : ℕ} {env : Env} {vm : VmInternal}

/-- The fields that are kept. -/
theorem Env.resized_eq (c m : ℕ) (env : Env) : ∃ length, env.resized c m = { env with length } := by
  unfold Env.resized
  split
  · exact ⟨m, rfl⟩
  · exact ⟨env.length, rfl⟩

@[simp] theorem Env.resized_codeRef : (env.resized c m).codeRef = env.codeRef := by
  unfold Env.resized
  split <;> rfl

@[simp] theorem Env.resized_ip : (env.resized c m).ip = env.ip := by
  unfold Env.resized
  split <;> rfl

@[simp] theorem Env.resized_bindings : (env.resized c m).bindings = env.bindings := by
  unfold Env.resized
  split <;> rfl

@[simp] theorem Env.resized_handler : (env.resized c m).handler = env.handler := by
  unfold Env.resized
  split <;> rfl

@[simp] theorem Env.resized_parent : (env.resized c m).parent = env.parent := by
  unfold Env.resized
  split <;> rfl

/-- An environment is where it was, with the other length. -/
theorem VmInternal.resized_env (e : ℕ) : (vm.resized c m).envs[e]? = (vm.envs[e]?).map (Env.resized c m) :=
  List.getElem?_map ..

/-- The parents of an environment are the same. -/
theorem VmInternal.resized_chain : ∀ (fuel e : ℕ), (vm.resized c m).chain fuel e = vm.chain fuel e
  | 0, _ => rfl
  | fuel + 1, e => by
      rw [chain, chain, resized_env]
      cases vm.envs[e]? with
      | none => rfl
      | some env =>
        simp only [Option.map_some, Env.resized_parent]
        cases env.parent with
        | none => rfl
        | some p => simp only [Option.map_some, resized_chain fuel p]

/-- So is the order in which locations are looked for. -/
@[simp] theorem VmInternal.resized_scopes : (vm.resized c m).scopes = vm.scopes := by
  rw [scopes, scopes, resized_chain]
  congr 1
  exact List.length_map ..

/-- And the handler that is found. -/
@[simp] theorem VmInternal.resized_findHandler : (vm.resized c m).findHandler = vm.findHandler := by
  rw [findHandler, findHandler, resized_scopes]
  refine List.find?_congr fun e _ => ?_
  rw [resized_env]
  cases vm.envs[e]? with
  | none => rfl
  | some env => simp

end

/-! ## Programs that do not look

A program that does the same on both machines is `Alike`.  There is a rule for each construct and for each
primitive, as for `Built`. -/

/-- **A program that does the same** when a piece of code has another length. -/
abbrev Alike {α : Type} (c m : ℕ) (x : VmM α) : Prop := Copies (VmInternal.resized c m) id x x

section

variable {α β : Type} {c m : ℕ} {host : Host}

theorem Alike.pure (a : α) : Alike c m (Pure.pure a : VmM α) := copies_pure rfl

theorem Alike.bind {x : VmM α} {f : α → VmM β} (hx : Alike c m x) (hf : ∀ a, Alike c m (f a)) :
    Alike c m (x >>= f) := copies_bind hx hf

theorem Alike.ite {p : Prop} [Decidable p] {x y : VmM α} (hx : Alike c m x) (hy : Alike c m y) :
    Alike c m (if p then x else y) := by
  split
  · exact hx
  · exact hy

/-- What stops in one way stops so on both. -/
theorem alike_error (e : Stop) : Alike c m (fun _ => .error e : VmM α) := copies_error e

theorem alike_undefined : Alike c m (undefined : VmM α) := alike_error .undefined

/-- A step that goes through and leaves the environments. -/
theorem alike_step {a : VmInternal → α} {u : VmInternal → VmInternal} (ha : ∀ vm, a (vm.resized c m) = a vm)
    (hu : ∀ vm, u (vm.resized c m) = (u vm).resized c m) : Alike c m (fun vm => .ok (a vm, u vm) : VmM α) :=
  copies_step ha hu

/-- A look at something else than lengths. -/
theorem alike_ofOption {f : VmInternal → Option α} (hf : ∀ vm, f (vm.resized c m) = f vm) :
    Alike c m (ofOption f) := fun vm => by
  simp only [ofOption, hf]
  cases f vm <;> rfl

/-- What is looked up may be something else. -/
theorem Alike.get {f : VmInternal → VmM α} (hsame : ∀ vm, f (vm.resized c m) = f vm) (hf : ∀ vm, Alike c m (f vm)) :
    Alike c m (get >>= f) :=
  copies_bind copies_get fun vm => by
    rw [hsame vm]
    exact hf vm

theorem alike_load (r : Ref) : Alike c m (load r) := alike_ofOption fun _ => rfl

theorem alike_cstring (bs : ℕ) : Alike c m (cstring bs) := alike_ofOption fun _ => rfl

theorem alike_alloc (o : Obj) : Alike c m (alloc o) := alike_step (fun _ => rfl) fun _ => rfl

theorem alike_newBytes (bs : List UInt8) : Alike c m (newBytes bs) := alike_step (fun _ => rfl) fun _ => rfl

theorem alike_newArray (ps : List Ptr) : Alike c m (newArray ps) := alike_step (fun _ => rfl) fun _ => rfl

theorem alike_newTable (entries : List Entry) : Alike c m (newTable entries) :=
  alike_step (fun _ => rfl) fun _ => rfl

theorem alike_ask {call : HostCall} {answer : List HostCall → α} : Alike c m (ask call answer) :=
  alike_step (fun _ => rfl) fun _ => rfl

/-! ### Printing

An object is printed from the memory alone, and a closure by its code and the place where it goes on. -/

theorem VmInternal.resized_deref (vm : VmInternal) : (vm.resized c m).deref = vm.deref := rfl

/-- The parts of a list are printed alike. -/
theorem outputTail_resized (vm : VmInternal) (out : Ptr → OutM Unit) (pair : Ptr) :
    outputTail (vm.resized c m) out pair = outputTail vm out pair := by
  simp only [outputTail, VmInternal.resized_deref]

/-- So is each pair of it. -/
theorem outputPairFrom_resized (vm : VmInternal) (out : Ptr → OutM Unit) : ∀ (left : ℕ) (flag : Bool) (car pair : Ptr),
    outputPairFrom (vm.resized c m) out left flag car pair = outputPairFrom vm out left flag car pair
  | 0, _, _, _ => by simp only [outputPairFrom, outputTail_resized]
  | left + 1, _, _, _ => by
      simp only [outputPairFrom, outputTail_resized, VmInternal.resized_deref, outputPairFrom_resized vm out left]

/-- The scopes of a closure are found in both alike. -/
theorem outputEnvs_resized (hhost : host.Blind) (vm : VmInternal) (obj : Ref) : ∀ (fuel : ℕ) (env : Option ℕ),
    outputEnvs host.printer (vm.resized c m) obj fuel env = outputEnvs host.printer vm obj fuel env
  | 0, none | 0, some _ | _ + 1, none => rfl
  | fuel + 1, some e => by
      simp only [outputEnvs, VmInternal.resized_env, hhost.closure, hhost.debug, outputEnvs_resized hhost vm obj fuel]
      cases vm.envs[e]? with
      | none => rfl
      | some env => simp only [Option.map_some, Env.resized_ip, Env.resized_parent]

/-- **Printing** does not look at lengths. -/
theorem outputObject_resized (hhost : host.Blind) (vm : VmInternal) : ∀ fuel : ℕ,
    outputObject host.printer (vm.resized c m) fuel = outputObject host.printer vm fuel
  | 0 => rfl
  | fuel + 1 => by
      funext obj
      have hlength : (vm.resized c m).envs.length = vm.envs.length := List.length_map ..
      have hvalue : ∀ (r : Ref) (o : Obj), outputValue host.printer (vm.resized c m)
          (outputObject host.printer vm fuel) r o = outputValue host.printer vm (outputObject host.printer vm fuel) r o := by
        intro r o
        cases o with
        | pair car cdr => simp only [outputValue, outputPair, outputPairFrom_resized]
        | closure env => simp only [outputValue, hlength, outputEnvs_resized hhost]
        | library functions funcCount => simp only [outputValue, hhost.library]
        | _ => rfl
      simp only [outputObject, outputObject_resized hhost vm fuel, VmInternal.resized_deref, hvalue]

/-- **Printing looks at no length.** -/
theorem alike_printObject (hhost : host.Blind) (obj : Ref) : Alike c m (printObject host.printer obj) := fun vm => by
  have hdepth : (vm.resized c m).outputDepth = vm.outputDepth := rfl
  simp only [printObject, outputObject_resized hhost, hdepth]
  cases outputObject host.printer vm outputMaxDepth (some obj) ⟨[], vm.outputDepth⟩ with
  | error e => rfl
  | ok r => rfl

theorem alike_print {f : VmInternal → List UInt8} (hf : ∀ vm, f (vm.resized c m) = f vm) : Alike c m (print f) :=
  alike_step (fun _ => rfl) fun vm => by
    rw [hf]
    rfl

/-- A change of something else than lengths. -/
theorem alike_modify {u : VmInternal → VmInternal} (hu : ∀ vm, u (vm.resized c m) = (u vm).resized c m) :
    Alike c m (modify u : VmM Unit) := alike_step (fun _ => rfl) hu

theorem alike_push (obj : Ptr) : Alike c m (vmPush obj) := alike_step (fun _ => rfl) fun _ => rfl

theorem alike_pop : Alike c m vmPop := fun vm => by
  have hroot : (vm.resized c m).deref (vm.resized c m).stackRoot = vm.deref vm.stackRoot := rfl
  simp only [vmPop, hroot]
  split <;> rfl

theorem Alike.pop {f : Ref → VmM α} (hf : ∀ obj, Alike c m (f obj)) : Alike c m (vmPop >>= f) :=
  alike_pop.bind hf

theorem Alike.load {f : Obj → VmM α} (r : Ref) (hf : ∀ o, Alike c m (f o)) : Alike c m (load r >>= f) :=
  (alike_load r).bind hf

theorem Alike.alloc {f : Ref → VmM α} (o : Obj) (hf : ∀ obj, Alike c m (f obj)) : Alike c m (alloc o >>= f) :=
  (alike_alloc o).bind hf

/-- Making an object and pushing it. -/
theorem alike_result (o : Obj) : Alike c m (Vm.alloc o >>= fun obj => vmPush (some obj)) :=
  .alloc o fun _ => alike_push _

/-- An object is written where it is. -/
theorem alike_store (obj : Ref) (o : Obj) : Alike c m (store obj o) := fun vm => by
  cases obj <;> rfl

/-! ### Environments

What is copied is copied with its length; so the two machines stay apart by the lengths only. -/

/-- The content of an environment, of which all but the length is used. -/
theorem Alike.ofEnv {x : VmM Env} {f : Env → VmM α} (hx : Copies (VmInternal.resized c m) (Env.resized c m) x x)
    (hsame : ∀ env, f (env.resized c m) = f env) (hf : ∀ env, Alike c m (f env)) : Alike c m (x >>= f) :=
  copies_bind hx fun env => by
    rw [hsame env]
    exact hf env

/-- An environment is read with its length. -/
theorem copies_getEnv (e : ℕ) : Copies (VmInternal.resized c m) (Env.resized c m) (getEnv e) (getEnv e) := fun vm => by
  simp only [getEnv, ofOption, VmInternal.resized_env]
  cases vm.envs[e]? <;> rfl

/-- So is the current one. -/
theorem copies_currentEnv :
    Copies (VmInternal.resized c m) (Env.resized c m) currentEnv currentEnv := fun vm => copies_getEnv vm.env vm

/-- And it is put back with it. -/
theorem copies_newEnv {env env' : Env} (h : env' = env.resized c m) :
    Copies (VmInternal.resized c m) id (newEnv env) (newEnv env') := by
  refine copies_step (fun vm => List.length_map ..) fun vm => ?_
  rw [h]
  simp [VmInternal.resized]

theorem alike_setEnv (e : ℕ) : Alike c m (setEnv e) := alike_step (fun _ => rfl) fun _ => rfl

/-- Writing to an environment, but for its code and its length. -/
theorem resized_of_same {f : Env → Env} (hcode : ∀ env, (f env).codeRef = env.codeRef)
    (hf : ∀ env length, f { env with length } = { f env with length }) (env : Env) :
    f (env.resized c m) = (f env).resized c m := by
  by_cases h : env.codeRef = some c
  · rw [Env.resized, if_pos h, Env.resized, if_pos ((hcode env).trans h)]
    exact hf env m
  · rw [Env.resized, if_neg h, Env.resized, if_neg fun h' => h ((hcode env).symm.trans h')]

/-- Lengths are given before a change or after it. -/
theorem resized_modify (vm : VmInternal) (e : ℕ) {f : Env → Env}
    (hf : ∀ env, f (env.resized c m) = (f env).resized c m) :
    (vm.envs.map (Env.resized c m)).modify e f = (vm.envs.modify e f).map (Env.resized c m) := by
  refine List.ext_getElem? fun i => ?_
  rw [List.getElem?_modify, List.getElem?_map, List.getElem?_map, List.getElem?_modify]
  rcases eq_or_ne e i with rfl | hne
  · simp only [if_true]
    cases vm.envs[e]? with
    | none => rfl
    | some env => exact congrArg some (hf env)
  · simp only [if_neg hne]
    cases vm.envs[i]? <;> rfl

/-- A change of an environment that keeps its length. -/
theorem alike_edit (e : ℕ) {f : Env → Env} (hf : ∀ env, f (env.resized c m) = (f env).resized c m) :
    Alike c m (editEnv e f) :=
  alike_step (fun _ => rfl) fun vm => congrArg (fun envs => { vm with envs }) (resized_modify vm e hf)

/-- One that keeps its code. -/
theorem alike_editEnv (e : ℕ) {f : Env → Env} (hcode : ∀ env, (f env).codeRef = env.codeRef)
    (hf : ∀ env length, f { env with length } = { f env with length }) : Alike c m (editEnv e f) :=
  alike_edit e (resized_of_same hcode hf)

/-- The same for the current one. -/
theorem alike_updateEnv {f : Env → Env} (hcode : ∀ env, (f env).codeRef = env.codeRef)
    (hf : ∀ env length, f { env with length } = { f env with length }) : Alike c m (updateEnv f) := fun vm =>
  alike_editEnv vm.env hcode hf vm

theorem alike_skip (count : ℕ) : Alike c m (skip count) := alike_updateEnv (fun _ => rfl) fun _ _ => rfl

theorem alike_jump (target : Int64) : Alike c m (jump target) := alike_updateEnv (fun _ => rfl) fun _ _ => rfl

/-- The copy of an environment has the length of the environment. -/
theorem alike_cloneEnv (e : ℕ) (cow : Bool) : Alike c m (cloneEnv e cow) :=
  copies_bind (copies_getEnv e) fun env => by
    cases cow with
    | false => exact copies_newEnv rfl
    | true =>
      simp only [if_true, Env.resized_bindings]
      refine copies_bind (alike_ofOption fun _ => rfl) fun entries => copies_bind (alike_newTable entries) fun bindings => ?_
      exact copies_newEnv (resized_of_same (f := fun env => { env with bindings }) (fun _ => rfl) (fun _ _ => rfl) env)

theorem alike_switchEnv (e : ℕ) : Alike c m (switchEnv e) := (alike_cloneEnv e false).bind fun env => alike_setEnv env

theorem alike_pushEnv : Alike c m pushEnv :=
  (alike_newTable []).bind fun bindings => copies_bind copies_currentEnv fun env =>
    copies_bind copies_get fun vm => by
      refine copies_bind (copies_newEnv ?_) alike_setEnv
      exact resized_of_same (f := fun env => { env with bindings, handler := false, handlerAddr := 0, parent := some vm.env })
        (fun _ => rfl) (fun _ _ => rfl) env

/-! ### Exceptions

The search for a handler looks at flags, and goes on in a copy. -/

theorem alike_cons (car cdr : Ref) : Alike c m (cons car cdr) := alike_alloc _

theorem alike_vmMakeString (buf : List UInt8) (length : Int64) : Alike c m (vmMakeString buf length) :=
  .ite alike_undefined ((alike_newBytes _).bind fun _ => alike_alloc _)

theorem alike_conses : ∀ (args : List Ref) (exception : Ref),
    Alike c m (args.foldlM (fun exception obj => cons obj exception) exception)
  | [], _ => .pure _
  | obj :: args, exception => by
      rw [List.foldlM_cons]
      exact (alike_cons obj exception).bind fun _ => alike_conses args _

/-- An exception is a list of objects. -/
theorem alike_makeException (msg : List UInt8) (args : List Ref) : Alike c m (makeException msg args) :=
  .get (fun _ => rfl) fun vm => (alike_conses args vm.empty).bind fun exception => .get (fun _ => rfl) fun vm' =>
    (alike_cloneEnv vm'.env false).bind fun _ => .alloc _ fun obj => (alike_cons obj exception).bind fun exception =>
      (alike_vmMakeString _ _).bind fun obj => alike_cons obj exception

/-- **`handle_exception`.** -/
theorem alike_throw (msg : List UInt8) (args : List Ref) : Alike c m (handleException msg args) := by
  refine (alike_makeException msg args).bind fun exception => (alike_push _).bind fun _ => ?_
  refine .get (fun vm => ?_) fun vm => ?_
  · rw [VmInternal.resized_findHandler]
  · cases vm.findHandler with
    | none => exact alike_error _
    | some env =>
      exact (alike_switchEnv env).bind fun _ =>
        .bind (alike_updateEnv (fun _ => rfl) fun _ _ => rfl) fun _ => alike_updateEnv (fun _ => rfl) fun _ _ => rfl

/-! ## The instructions

One lemma for each, in the order of the source; the proofs follow the programs. -/

theorem alike_codeOf (env : Env) : Alike c m (codeOf env) := alike_ofOption fun _ => rfl

theorem alike_hashGet (hhost : host.Blind) (t key : ℕ) : Alike c m (hashGet host t key) :=
  (alike_cstring key).bind fun name => (alike_ofOption fun _ => rfl).bind fun entries => alike_ofOption fun vm => by
    have hkept : (vm.resized c m).keysKept entries = vm.keysKept entries := rfl
    simp only [getEntry, hkept, hhost.staleGet]

theorem alike_hashSet (hhost : host.Blind) (t key : ℕ) (value : Ref) : Alike c m (hashSet host t key value) :=
  (alike_cstring key).bind fun name => (alike_ofOption fun _ => rfl).bind fun entries => alike_modify fun vm => by
    have hkept : (vm.resized c m).keysKept entries = vm.keysKept entries := rfl
    simp only [setEntries, hkept, hhost.staleSet]
    rfl

theorem alike_parseInt : Alike c m parseInt :=
  .ofEnv copies_currentEnv (fun env => by simp [codeOf]) fun env => (alike_codeOf env).bind fun code =>
    (alike_skip 8).bind fun _ => .pure _

theorem alike_parseString : Alike c m parseString :=
  alike_parseInt.bind fun length => .ofEnv copies_currentEnv (fun env => by simp [codeOf]) fun env =>
    (alike_codeOf env).bind fun code => (alike_vmMakeString _ _).bind fun obj => (alike_skip _).bind fun _ => .pure _

theorem alike_stringFields (obj : Ref) : Alike c m (stringFields obj) := alike_ofOption fun _ => rfl

theorem alike_makeSymbol (hhost : host.Blind) (obj : Ref) : Alike c m (makeSymbol host obj) :=
  (alike_stringFields obj).bind fun fields => .get (fun _ => rfl) fun vm =>
    (alike_hashGet hhost _ _).bind fun found => by
      cases found with
      | some symbol => exact .pure _
      | none => exact (alike_store _ _).bind fun _ => (alike_hashSet hhost _ _ _).bind fun _ => .pure _

theorem alike_constant {f : VmInternal → Ref} (hf : ∀ vm, f (vm.resized c m) = f vm) : Alike c m (pushConstant f) :=
  .get (fun vm => by rw [hf]) fun _ => alike_push _

theorem alike_bool (b : Bool) : Alike c m (pushBool b) := alike_constant fun _ => by cases b <;> rfl

theorem alike_car : Alike c m (opCar handleException) := .pop fun obj => .load obj fun o => by
  cases o with
  | pair car cdr => exact alike_push _
  | _ => exact alike_throw _ _

theorem alike_cdr : Alike c m (opCdr handleException) := .pop fun obj => .load obj fun o => by
  cases o with
  | pair car cdr => exact alike_push _
  | _ => exact alike_throw _ _

theorem alike_checkString (obj : Ref) : Alike c m (checkString handleException obj) := .load obj fun o => by
  cases o with
  | string length bytes => exact .pure _
  | _ => exact alike_throw _ _

theorem alike_opMakeSymbol (hhost : host.Blind) : Alike c m (opMakeSymbol host handleException) :=
  .pop fun obj => (alike_checkString obj).bind fun _ => (alike_makeSymbol hhost obj).bind fun _ => alike_push _

theorem alike_setPair (set : Ref → Ptr → Ptr → Obj) (msg : List UInt8) :
    Alike c m (setPair handleException set msg) := .pop fun obj => .pop fun pair => .load pair fun o => by
  cases o with
  | pair car cdr => exact (alike_store _ _).bind fun _ => alike_push _
  | _ => exact alike_throw _ _

theorem alike_makeSized {make : Int64 → VmM Ref} (hmake : ∀ length, Alike c m (make length)) (msg : List UInt8) :
    Alike c m (makeSized handleException make msg) := .pop fun obj => .load obj fun o => by
  cases o with
  | fixnum length => exact (hmake length).bind fun _ => alike_push _
  | _ => exact alike_throw _ _

theorem alike_roomFor (size : ℕ) : Alike c m (roomFor size) := .ite (.pure _) (.ite (.pure _) alike_undefined)

theorem alike_makeSlots (length : Int64) : Alike c m (makeSlots length) :=
  (alike_roomFor _).bind fun _ => alike_newArray _

theorem alike_vmMakeByteVector (length : Int64) : Alike c m (vmMakeByteVector length) :=
  (alike_roomFor _).bind fun _ => (alike_newBytes _).bind fun _ => alike_alloc _

theorem alike_vmMakeVector (length : Int64) : Alike c m (vmMakeVector length) :=
  (alike_makeSlots _).bind fun _ => alike_alloc _

theorem alike_vmMakeRecord (length : Int64) : Alike c m (vmMakeRecord length) :=
  (alike_makeSlots _).bind fun _ => alike_alloc _

theorem alike_vectorLength : Alike c m (opVectorLength handleException) := .pop fun obj => .load obj fun o => by
  cases o with
  | vector length slots | byteVector length slots => exact alike_result _
  | _ => exact alike_throw _ _

theorem alike_setSlot (a : ℕ) (index : Int64) (obj : Ref) : Alike c m (setSlot a index obj) :=
  (alike_ofOption fun _ => rfl).bind fun _ => (alike_ofOption fun _ => rfl).bind fun _ => alike_modify fun _ => rfl

theorem alike_getSlot (a : ℕ) (index : Int64) : Alike c m (getSlot a index) :=
  (alike_ofOption fun _ => rfl).bind fun _ => alike_ofOption fun _ => rfl

theorem alike_setByte (bs : ℕ) (index integer : Int64) : Alike c m (setByte bs index integer) :=
  (alike_ofOption fun _ => rfl).bind fun _ => (alike_ofOption fun _ => rfl).bind fun _ => alike_modify fun _ => rfl

theorem alike_getByte (bs : ℕ) (index : Int64) : Alike c m (getByte bs index) :=
  (alike_ofOption fun _ => rfl).bind fun _ => alike_ofOption fun _ => rfl

theorem alike_indexSet : Alike c m (opIndexSet handleException) :=
  .pop fun vector => .pop fun obj => .pop fun objIndex => .load objIndex fun o => by
    cases o with
    | fixnum index =>
      refine .load vector fun v => ?_
      cases v with
      | vector length slots | record length slots => exact .ite (alike_setSlot _ _ _) (alike_throw _ _)
      | byteVector length bytes =>
        refine .ite (.load obj fun o => ?_) (alike_throw _ _)
        cases o with
        | fixnum integer => exact alike_setByte _ _ _
        | _ => exact alike_throw _ _
      | _ => exact alike_throw _ _
    | _ => exact alike_throw _ _

theorem alike_indexRef : Alike c m (opIndexRef handleException) :=
  .pop fun vector => .pop fun objIndex => .load objIndex fun o => by
    cases o with
    | fixnum index =>
      refine .load vector fun v => ?_
      cases v with
      | vector length slots | record length slots =>
        exact .ite ((alike_getSlot _ _).bind fun _ => alike_push _) (alike_throw _ _)
      | byteVector length bytes => exact .ite ((alike_getByte _ _).bind fun _ => alike_result _) (alike_throw _ _)
      | _ => exact alike_throw _ _
    | _ => exact alike_throw _ _

theorem alike_stringByteVector : Alike c m (opStringByteVector handleException) := .pop fun obj => .load obj fun o => by
  cases o with
  | string length bytes => exact alike_result _
  | _ => exact alike_throw _ _

theorem alike_byteVectorString : Alike c m (opByteVectorString handleException) := .pop fun obj => .load obj fun o => by
  cases o with
  | byteVector length bytes =>
    exact (alike_ofOption fun _ => rfl).bind fun _ => (alike_vmMakeString _ _).bind fun _ => alike_push _
  | _ => exact alike_throw _ _

theorem alike_jnf : Alike c m opJnf := alike_parseInt.bind fun target => .pop fun obj => .load obj fun o => by
  cases o with
  | bool b =>
    cases b with
    | false => exact .pure _
    | true => exact alike_jump _
  | _ => exact alike_jump _

theorem alike_call : Alike c m opCall :=
  alike_parseInt.bind fun target => .get (fun _ => rfl) fun _ => .alloc _ fun _ => (alike_push _).bind fun _ =>
    alike_pushEnv.bind fun _ => alike_jump target

theorem alike_adopt : Alike c m (opAdopt handleException) :=
  .pop fun parent => .pop fun child => .load parent fun o => by
    cases o with
    | closure parent' =>
      refine .load child fun o => ?_
      cases o with
      | closure child' =>
        refine (alike_cloneEnv child' true).bind fun env => .ofEnv (copies_getEnv parent') (fun env => by simp) fun _ => ?_
        exact .bind (alike_editEnv env (fun _ => rfl) fun _ _ => rfl) fun _ => alike_result _
      | _ => exact alike_throw _ _
    | _ => exact alike_throw _ _

theorem alike_proc : Alike c m opProc :=
  alike_parseInt.bind fun _ => .get (fun _ => rfl) fun _ => (alike_cloneEnv _ _).bind fun env =>
    .bind (alike_editEnv env (fun _ => rfl) fun _ _ => rfl) fun _ => alike_result _

theorem alike_jin : Alike c m (opJin handleException) := .pop fun closure => .load closure fun o => by
  cases o with
  | closure closure =>
    exact .ofEnv copies_currentEnv (fun env => by simp) fun _ => (alike_switchEnv closure).bind fun _ =>
      alike_updateEnv (fun _ => rfl) fun _ _ => rfl
  | _ => exact alike_throw _ _

theorem alike_ret : Alike c m (opRet handleException) := .pop fun closure => .load closure fun o => by
  cases o with
  | closure closure => exact alike_switchEnv closure
  | _ => exact alike_throw _ _

theorem alike_enter (closure : ℕ) : Alike c m (enter closure) := (alike_switchEnv closure).bind fun _ => alike_pushEnv

theorem alike_callIn : Alike c m (opCallIn handleException) := .pop fun closure => .load closure fun o => by
  cases o with
  | closure closure =>
    exact .get (fun _ => rfl) fun _ => .alloc _ fun _ => (alike_push _).bind fun _ => alike_enter closure
  | _ => exact alike_throw _ _

theorem alike_tailCallIn : Alike c m (opTailCallIn handleException) := .pop fun closure => .load closure fun o => by
  cases o with
  | closure closure =>
    exact .pop fun _ => .pop fun _ => (alike_push _).bind fun _ => (alike_push _).bind fun _ => alike_enter closure
  | _ => exact alike_throw _ _

theorem alike_continue : Alike c m opContinue := alike_parseInt.bind fun _ =>
  .bind (alike_updateEnv (fun _ => rfl) fun _ _ => rfl) fun _ => alike_updateEnv (fun _ => rfl) fun _ _ => rfl

theorem alike_restore : Alike c m opRestore := alike_updateEnv (fun _ => rfl) fun _ _ => rfl

theorem alike_bind (hhost : host.Blind) : Alike c m (opBind host handleException) :=
  .pop fun key => .pop fun value => .load key fun o => by
    cases o with
    | symbol length bytes =>
      exact .ofEnv copies_currentEnv (fun env => by simp) fun env => alike_hashSet hhost _ _ _
    | _ => exact alike_throw _ _

/-- What is found, with the environment. -/
theorem copies_findBinding (hhost : host.Blind) (bytes : ℕ) : ∀ scopes : List ℕ,
    Copies (VmInternal.resized c m) (Option.map (Prod.map (Env.resized c m) id)) (findBinding host bytes scopes)
      (findBinding host bytes scopes)
  | [] => copies_pure rfl
  | e :: parents => copies_bind (copies_getEnv e) fun env => by
      rw [Env.resized_bindings]
      refine copies_bind (alike_hashGet hhost env.bindings bytes) fun found => ?_
      cases found with
      | some value => exact copies_pure rfl
      | none => exact copies_findBinding hhost bytes parents

theorem alike_read (hhost : host.Blind) : Alike c m (opRead host handleException) := .pop fun key => .load key fun o => by
  cases o with
  | symbol length bytes =>
    refine .get (fun vm => by rw [VmInternal.resized_scopes]) fun vm =>
      copies_bind (copies_findBinding hhost bytes vm.scopes) fun found => ?_
    cases found with
    | some found => exact alike_push _
    | none => exact alike_throw _ _
  | _ => exact alike_throw _ _

theorem alike_set (hhost : host.Blind) : Alike c m (opSet host handleException) :=
  .pop fun key => .pop fun value => .load key fun o => by
    cases o with
    | symbol length bytes =>
      refine .get (fun vm => by rw [VmInternal.resized_scopes]) fun vm =>
        copies_bind (copies_findBinding hhost bytes vm.scopes) fun found => ?_
      cases found with
      | some found =>
        have hset := alike_hashSet (c := c) (m := m) hhost found.1.bindings bytes value
        simpa using hset
      | none => exact alike_throw _ _
    | _ => exact alike_throw _ _

theorem alike_setExit : Alike c m (opSetExit handleException) := .pop fun value => .load value fun o => by
  cases o with
  | fixnum integer => exact alike_modify fun _ => rfl
  | _ => exact alike_throw _ _

theorem alike_numericOp {op : Int64 → Int64 → VmM Int64} (hop : ∀ a b, Alike c m (op a b)) :
    Alike c m (numericOp handleException op) :=
  .pop fun num2 => .pop fun num1 => .load num1 fun o1 => .load num2 fun o2 => by
    split
    · exact (hop _ _).bind fun _ => alike_result _
    · exact alike_throw _ _

theorem alike_divide (op : Int64 → Int64 → Int64) (a b : Int64) : Alike c m (divide op a b) :=
  .ite alike_undefined (.pure _)

theorem alike_numericLogic (op : Int64 → Int64 → Bool) : Alike c m (numericLogic handleException op) :=
  .pop fun num2 => .pop fun num1 => .load num1 fun o1 => .load num2 fun o2 => by
    split
    · exact alike_bool _
    · exact alike_throw _ _

theorem alike_rawBytes (hhost : host.Blind) (obj : Ref) (o : Obj) : Alike c m (rawBytes host obj o) := by
  cases o with
  | string length bytes | symbol length bytes | byteVector length bytes => exact alike_cstring _
  | pair car cdr | vector length slots | record length slots | library functions count =>
    exact alike_ofOption fun vm => by rw [hhost.rawString]
  | _ => exact alike_undefined

theorem alike_eq (hhost : host.Blind) : Alike c m (opEq host) :=
  .pop fun obj1 => .pop fun obj2 => .load obj1 fun o1 => .load obj2 fun o2 => by
    cases o1 with
    | string length bytes =>
      exact (alike_cstring _).bind fun _ => (alike_rawBytes hhost _ _).bind fun _ => alike_bool _
    | _ => exact alike_bool _

theorem alike_not : Alike c m opNot := .pop fun obj => .load obj fun o => by
  cases o with
  | bool b => cases b <;> exact alike_bool _
  | _ => exact alike_bool _

theorem alike_typeOp (test : CellType → Bool) : Alike c m (typeOp test) := .pop fun obj => .load obj fun _ => alike_bool _

theorem alike_slurp : Alike c m (opSlurp host handleException) := .pop fun obj => .load obj fun o => by
  cases o with
  | string length bytes =>
    refine (alike_cstring _).bind fun path => alike_ask.bind fun answer => ?_
    cases answer with
    | some buf => exact .ite ((alike_newBytes _).bind fun _ => alike_result _) alike_undefined
    | none => exact alike_error _
  | _ => exact alike_throw _ _

theorem alike_throwErrno (msg : List UInt8) (err : HostError) : Alike c m (throwErrno handleException msg err) :=
  .alloc _ fun _ => (alike_vmMakeString _ _).bind fun _ => alike_throw _ _

theorem alike_open : Alike c m (opOpen host handleException) :=
  .pop fun write => .pop fun path => .load write fun o => by
    cases o with
    | bool boolean =>
      refine .load path fun o => ?_
      cases o with
      | string length bytes =>
        refine (alike_cstring _).bind fun path => alike_ask.bind fun answer => ?_
        cases answer with
        | ok fd => exact alike_result _
        | error err => exact alike_throwErrno _ _
      | _ => exact alike_throw _ _
    | _ => exact alike_throw _ _

theorem alike_close : Alike c m (opClose host handleException) := .pop fun fdObj => .load fdObj fun o => by
  cases o with
  | fixnum fd =>
    refine alike_ask.bind fun answer => ?_
    cases answer with
    | ok u => exact .pure _
    | error err => exact alike_throwErrno _ _
  | _ => exact alike_throw _ _

theorem alike_fdWrite : Alike c m (opFdWrite host handleException) :=
  .pop fun fd => .pop fun num => .pop fun u8 => .load fd fun o => by
    cases o with
    | fixnum fdInt =>
      refine .load num fun o => ?_
      cases o with
      | fixnum count =>
        refine .load u8 fun o => ?_
        cases o with
        | byteVector length vector =>
          refine (alike_ofOption fun _ => rfl).bind fun bytes => alike_ask.bind fun answer => ?_
          cases answer with
          | ok written => exact .alloc _ fun _ => .ite (alike_throw _ _) (alike_push _)
          | error err => exact alike_throwErrno _ _
        | _ => exact alike_throw _ _
      | _ => exact alike_throw _ _
    | _ => exact alike_throw _ _

/-- What was read is put into the block that was made. -/
theorem alike_readInto (u8 : Ref) (input : List UInt8) : Alike c m (readInto u8 input) := fun vm => by
  simp only [readInto, VmInternal.resized_deref]
  split
  · change (if input.length ≤ (vm.bytes.getD _ []).length then _ else _) = _
    split
    · rfl
    · rfl
  · rfl

theorem alike_fdRead : Alike c m (opFdRead host handleException) :=
  .pop fun fd => .pop fun num => .load fd fun o => by
    cases o with
    | fixnum fdInt =>
      refine .load num fun o => ?_
      cases o with
      | fixnum count =>
        refine (alike_vmMakeByteVector count).bind fun u8 => alike_ask.bind fun answer => ?_
        cases answer with
        | ok input => exact (alike_readInto u8 input).bind fun _ => alike_push _
        | error err => exact alike_throwErrno _ _
      | _ => exact alike_throw _ _
    | _ => exact alike_throw _ _

/-- The functions of a library become bindings one by one. -/
theorem alike_bindExports (hhost : host.Blind) : ∀ (exports : List (List UInt8 × ExtFunc)) (funcCount : ℕ)
    (bindingAlist : Ref), Alike c m (bindExports host exports funcCount bindingAlist)
  | [], _, _ => .pure _
  | (_, _) :: exports, _, _ =>
    (alike_vmMakeString _ _).bind fun _ => (alike_makeSymbol hhost _).bind fun _ => .alloc _ fun _ =>
      (alike_cons _ _).bind fun _ => (alike_cons _ _).bind fun _ => alike_bindExports hhost exports _ _

theorem alike_importNew (hhost : host.Blind) (obj : Ref) (path : ℕ) (name : List UInt8) :
    Alike c m (importNew host handleException obj path name) := alike_ask.bind fun answer => by
  cases answer with
  | error msg => exact (alike_throw _ _).bind fun _ => .pure _
  | ok handle =>
    cases hexports : host.exports handle with
    | error msg =>
      simp only [hexports]
      exact .alloc _ fun _ => (alike_throw _ _).bind fun _ => .pure _
    | ok exports =>
      simp only [hexports]
      exact .alloc _ fun _ => .get (fun _ => rfl) fun _ => (alike_hashSet hhost _ _ _).bind fun _ =>
        (alike_push _).bind fun _ => .pure _

theorem alike_importLib (hhost : host.Blind) (obj : Ref) (path : ℕ) (name : List UInt8) :
    Alike c m (importLib host handleException obj path name) :=
  .get (fun _ => rfl) fun vm => (alike_hashGet hhost _ _).bind fun found => by
    cases found with
    | some lib => exact (alike_push _).bind fun _ => .pure _
    | none => exact alike_importNew hhost obj path name

theorem alike_exportsOf (lib : Ref) : Alike c m (exportsOf host lib) := alike_ofOption fun _ => rfl

theorem alike_import (hhost : host.Blind) : Alike c m (opImport host handleException) :=
  .pop fun obj => .load obj fun o => by
    cases o with
    | string length bytes =>
      refine (alike_cstring _).bind fun name => (alike_newBytes _).bind fun path =>
        (alike_importLib hhost _ _ _).bind fun found => ?_
      cases found with
      | some lib =>
        exact (alike_exportsOf lib).bind fun exports => .get (fun _ => rfl) fun vm =>
          (alike_bindExports hhost exports 0 vm.empty).bind fun _ => alike_push _
      | none => exact .pure _
    | _ => exact alike_throw _ _

/-- The functions of a library that is looked up. -/
theorem alike_exports {host : Host} {vm vm' : VmInternal} {lib : Ref} {exports : List (List UInt8 × ExtFunc)}
    (hhost : host.Blind) (h : exportsOf host lib vm = .ok (exports, vm')) : ∀ p ∈ exports, Alike c m p.2.run := by
  obtain ⟨h, -⟩ := ofOption_ok h
  split at h
  · next handle _ _ =>
    cases hlist : host.exports handle with
    | error msg =>
      simp only [hlist] at h
      cases h
    | ok exports' =>
      simp only [hlist] at h
      cases h
      exact hhost.exports c m handle exports hlist
  · cases h

theorem alike_callExt (hhost : host.Blind) (obj lib : Ref) : Alike c m (callExt host handleException obj lib) :=
  .load obj fun o => .load lib fun l => by
    split
    · refine .ite (alike_throw _ _) fun vm => copies_bind_at (alike_exportsOf lib vm) fun exports vm₁ hexports => ?_
      refine copies_bind_at (alike_ofOption (fun _ => rfl) vm₁) fun p vm₂ hp => ?_
      obtain ⟨hp, -⟩ := ofOption_ok hp
      obtain ⟨i, -, hi⟩ := Option.bind_eq_some_iff.mp hp
      exact alike_exports hhost hexports p (List.mem_of_getElem? hi) vm₂
    · exact alike_throw _ _

theorem alike_opCallExt (hhost : host.Blind) : Alike c m (opCallExt host handleException) :=
  .pop fun obj => .pop fun lib => .get (fun _ => rfl) fun _ => (alike_callExt hhost obj lib).bind fun _ =>
    .get (fun _ => rfl) fun _ => .ite (alike_throw _ _) (.pure _)

theorem alike_litFixnum : Alike c m opLit64bit := alike_parseInt.bind fun _ => alike_result _

theorem alike_litChar : Alike c m opLitChar :=
  .ofEnv copies_currentEnv (fun env => by simp [codeOf]) fun env => (alike_codeOf env).bind fun _ =>
    (alike_skip 4).bind fun _ => alike_result _

theorem alike_litString : Alike c m opLitString := alike_parseString.bind fun _ => alike_push _

theorem alike_litSymbol (hhost : host.Blind) : Alike c m (opLitSymbol host) :=
  alike_parseString.bind fun obj => (alike_makeSymbol hhost obj).bind fun _ => alike_push _

/-- **Every instruction but `asm`.** -/
theorem alike_ops (hhost : host.Blind) : ∀ {o : Op} {x : VmM Unit}, o ≠ .asm →
    ops host handleException o = some x → Alike c m x
  | .asm, _, h, _ => absurd rfl h
  | .litFixnum, _, _, rfl => alike_litFixnum
  | .litChar, _, _, rfl => alike_litChar
  | .litString, _, _, rfl => alike_litString
  | .litSymbol, _, _, rfl => alike_litSymbol hhost
  | .litEmpty, _, _, rfl | .litTrue, _, _, rfl | .litFalse, _, _, rfl => alike_constant fun _ => rfl
  | .makeSymbol, _, _, rfl => alike_opMakeSymbol hhost
  | .makeVector, _, _, rfl => alike_makeSized alike_vmMakeVector _
  | .makeByteVector, _, _, rfl => alike_makeSized alike_vmMakeByteVector _
  | .makeRecord, _, _, rfl => alike_makeSized alike_vmMakeRecord _
  | .indexSet, _, _, rfl => alike_indexSet
  | .indexRef, _, _, rfl => alike_indexRef
  | .vectorLength, _, _, rfl => alike_vectorLength
  | .stringByteVector, _, _, rfl => alike_stringByteVector
  | .byteVectorString, _, _, rfl => alike_byteVectorString
  | .cons, _, _, rfl => .pop fun _ => .pop fun _ => alike_result _
  | .car, _, _, rfl => alike_car
  | .cdr, _, _, rfl => alike_cdr
  | .setCar, _, _, rfl | .setCdr, _, _, rfl => alike_setPair _ _
  | .bind, _, _, rfl => alike_bind hhost
  | .set, _, _, rfl => alike_set hhost
  | .read, _, _, rfl => alike_read hhost
  | .swap, _, _, rfl => .pop fun _ => .pop fun _ => (alike_push _).bind fun _ => alike_push _
  | .rot, _, _, rfl => .pop fun _ => .pop fun _ => .pop fun _ => (alike_push _).bind fun _ =>
      (alike_push _).bind fun _ => alike_push _
  | .dupRef, _, _, rfl => .pop fun _ => (alike_push _).bind fun _ => alike_push _
  | .drop, _, _, rfl => .pop fun _ => .pure _
  | .depth, _, _, rfl => .get (fun _ => rfl) fun _ => alike_result _
  | .output, _, _, rfl => .pop fun obj => alike_printObject hhost obj
  | .fdRead, _, _, rfl => alike_fdRead
  | .fdWrite, _, _, rfl => alike_fdWrite
  | .open, _, _, rfl => alike_open
  | .close, _, _, rfl => alike_close
  | .slurp, _, _, rfl => alike_slurp
  | .add, _, _, rfl | .sub, _, _, rfl | .mul, _, _, rfl => alike_numericOp fun _ _ => .pure _
  | .div, _, _, rfl | .mod, _, _, rfl => alike_numericOp (alike_divide _)
  | .numericEqual, _, _, rfl | .numericLt, _, _, rfl | .numericGt, _, _, rfl => alike_numericLogic _
  | .not, _, _, rfl => alike_not
  | .eq, _, _, rfl => alike_eq hhost
  | .jmp, _, _, rfl => alike_parseInt.bind alike_jump
  | .jnf, _, _, rfl => alike_jnf
  | .call, _, _, rfl => alike_call
  | .adopt, _, _, rfl => alike_adopt
  | .proc, _, _, rfl => alike_proc
  | .ret, _, _, rfl => alike_ret
  | .jin, _, _, rfl => alike_jin
  | .callIn, _, _, rfl => alike_callIn
  | .tailCallIn, _, _, rfl => alike_tailCallIn
  | .import, _, _, rfl => alike_import hhost
  | .callExt, _, _, rfl => alike_opCallExt hhost
  | .continue, _, _, rfl => alike_continue
  | .restore, _, _, rfl => alike_restore
  | .setExit, _, _, rfl => alike_setExit
  | .isFixnum, _, _, rfl | .isBool, _, _, rfl | .isChar, _, _, rfl | .isString, _, _, rfl | .isSymbol, _, _, rfl
  | .isVector, _, _, rfl | .isByteVector, _, _, rfl | .isRecord, _, _, rfl | .isPair, _, _, rfl
  | .isEmpty, _, _, rfl | .isClosure, _, _, rfl | .isSelf, _, _, rfl => alike_typeOp _
  | .gcStats, _, _, rfl => alike_print (hhost.gcStats c m)
  | .nop, _, _, h | .isLibrary, _, _, h => nomatch h

/-- Code that is added is given its own length. -/
theorem alike_newCode (bytes : List UInt8) : Alike c m (newCode bytes) := alike_step (fun _ => rfl) fun _ => rfl

/-- **`asm`** makes an environment with code of its own. -/
theorem resized_asm {vm : VmInternal} (hc : c < vm.codes.length) : opAsm host handleException (vm.resized c m) =
    (opAsm host handleException vm).map (Prod.map id (VmInternal.resized c m)) := by
  refine copies_bind_at (alike_pop vm) fun obj vm₁ hpop => copies_bind_at (alike_load obj vm₁) fun o vm₂ hload => ?_
  obtain ⟨-, rfl⟩ := ofOption_ok hload
  have hcodes : vm₂.codes = vm.codes := by
    unfold vmPop at hpop
    split at hpop <;> cases hpop
    rfl
  cases o with
  | string length bytes =>
    refine copies_bind_at (alike_cstring bytes vm₂) fun str vm₃ hstr => ?_
    obtain ⟨-, rfl⟩ := ofOption_ok hstr
    simp only [id_eq]
    cases (host.lex str).bind asmString with
    | none => rfl
    | some written =>
      refine copies_bind_at (alike_newCode written vm₃) fun codeRef vm₄ hcode => ?_
      cases hcode
      have hne : vm₃.codes.length ≠ c := by
        rw [hcodes]
        omega
      refine Alike.get (fun _ => rfl) (fun vm => (alike_cloneEnv vm.env false).bind fun env => .bind (alike_edit env ?_)
        fun _ => alike_result _) _
      intro env
      simp only [id_eq]
      have hown : ∀ env : Env, ({ env with codeRef := some vm₃.codes.length, ip := 0, length := written.length } : Env).resized c m =
          { env with codeRef := some vm₃.codes.length, ip := 0, length := written.length } := fun env =>
        if_neg fun h => hne (Option.some.inj h)
      rw [hown]
      obtain ⟨length, h⟩ := Env.resized_eq c m env
      rw [h]
  | _ => exact alike_throw _ _ vm₂

/-! ## Rounds

The test of the loop is what looks at the length.  Where it lets both machines go on, they do the same. -/

/-- **The next instruction is the same**: it is read at the place where the environment goes on. -/
theorem alike_fetch : Alike c m fetch :=
  .ofEnv copies_currentEnv (fun env => by simp [codeOf]) fun env => (alike_codeOf env).bind fun code =>
    (alike_skip 1).bind fun _ => .pure _

/-- **A round of the loop** does the same. -/
theorem resized_evalStep (hhost : host.Blind) {vm : VmInternal} (hc : c < vm.codes.length) :
    evalStep host (vm.resized c m) = (evalStep host vm).map (Prod.map id (VmInternal.resized c m)) := by
  refine copies_bind_at (alike_fetch vm) fun byte vm₁ hfetch => ?_
  have hcodes : vm₁.codes = vm.codes := by
    obtain ⟨env, vm₂, henv, hrest⟩ := bind_ok hfetch
    obtain ⟨code, vm₃, hcode, hrest⟩ := bind_ok hrest
    obtain ⟨u, vm₄, hskip, hrest⟩ := bind_ok hrest
    obtain ⟨-, rfl⟩ := ofOption_ok henv
    obtain ⟨-, rfl⟩ := ofOption_ok hcode
    cases hskip
    cases hrest
    rfl
  simp only [id_eq]
  cases hop : Op.ofByte? byte with
  | none => rfl
  | some o =>
    simp only [Option.bind_some]
    cases hx : ops host handleException o with
    | none => rfl
    | some x =>
      by_cases ho : o = .asm
      · subst ho
        cases hx
        exact resized_asm (hcodes ▸ hc)
      · exact alike_ops hhost ho hx vm₁

/-- Pieces of code are only added. -/
theorem Changes.codes {A : Allow} {vm vm' : VmInternal} (h : Changes A vm vm') : vm.codes.length ≤ vm'.codes.length := by
  induction h with
  | refl => exact Nat.le_refl _
  | tail _ hchange ih =>
    refine Nat.le_trans ih ?_
    cases hchange with
    | newCode code => simp
    | _ => exact Nat.le_refl _

/-- **The instructions that are executed** in some rounds: their code and their addresses. -/
def executes (host : Host) : (rounds : ℕ) → VmInternal → List (Option ℕ × ℕ)
  | 0, _ => []
  | rounds + 1, vm =>
    if vm.running then
      ((vm.envs[vm.env]?).map fun env => (env.codeRef, env.ip)).toList ++
        match evalStep host vm with
        | .ok (_, vm') => executes host rounds vm'
        | .error _ => []
    else []

/-- One more round: the same but for the length that the pointer is compared with. -/
theorem executes_resized_succ (hhost : host.Blind) (rounds : ℕ) {vm : VmInternal} (hc : c < vm.codes.length) {env : Env}
    (henv : vm.envs[vm.env]? = some env) (k : ℕ) : executes host (rounds + 1) (vm.resized c k) =
      if env.ip < (env.resized c k).length then
        (env.codeRef, env.ip) :: match evalStep host vm with
          | .ok (_, vm') => executes host rounds (vm'.resized c k)
          | .error _ => []
      else [] := by
  have henv' : (vm.resized c k).envs[(vm.resized c k).env]? = some (env.resized c k) :=
    (VmInternal.resized_env vm.env).trans (henv ▸ rfl)
  simp only [executes, VmInternal.running, henv', Env.resized_ip, Env.resized_codeRef, decide_eq_true_eq,
    Option.map_some, Option.toList_some, List.singleton_append, resized_evalStep hhost hc]
  cases evalStep host vm <;> rfl

/-- A round leaves a state in order, with the pieces of code it had. -/
theorem sound_evalStep {vm vm' : VmInternal} (hs : Sound True vm) (hc : c < vm.codes.length)
    (hstep : evalStep host vm = .ok ((), vm')) : Sound True vm' ∧ c < vm'.codes.length := by
  obtain ⟨hchanges, -⟩ := (evalStep_changes (A := Allow.all) hs (permits_all host vm)).of_ok hstep
  exact ⟨hchanges.sound hs, Nat.lt_of_lt_of_le hc hchanges.codes⟩

/-- Nothing behind the length is executed. -/
theorem executes_resized_lt (hhost : host.Blind) {n ip : ℕ} : ∀ {rounds : ℕ} {vm : VmInternal}, Sound True vm →
    c < vm.codes.length → (some c, ip) ∈ executes host rounds (vm.resized c n) → ip < n
  | 0, _, _, _, h => absurd h List.not_mem_nil
  | rounds + 1, vm, hs, hc, h => by
      obtain ⟨env, henv⟩ := hs.currentEnv
      rw [executes_resized_succ hhost rounds hc henv] at h
      split at h
      · next hlt =>
        rcases List.mem_cons.mp h with hhead | h
        · obtain ⟨hcode, rfl⟩ := Prod.mk.inj hhead
          rwa [Env.resized, if_pos hcode.symm] at hlt
        · cases hstep : evalStep host vm with
          | error e =>
            rw [hstep] at h
            cases h
          | ok r =>
            rw [hstep] at h
            obtain ⟨hs', hc'⟩ := sound_evalStep hs hc hstep
            exact executes_resized_lt hhost hs' hc' h
      · cases h

/-- **A shorter length** changes what is executed exactly when an instruction behind it is. -/
theorem executes_resized_iff (hhost : host.Blind) {n : ℕ} (hmn : m ≤ n) : ∀ {rounds : ℕ} {vm : VmInternal},
    Sound True vm → c < vm.codes.length →
      (executes host rounds (vm.resized c m) = executes host rounds (vm.resized c n) ↔
        ∀ ip, m ≤ ip → (some c, ip) ∉ executes host rounds (vm.resized c n))
  | 0, vm, _, _ => iff_of_true rfl fun _ _ => List.not_mem_nil
  | rounds + 1, vm, hs, hc => by
      obtain ⟨env, henv⟩ := hs.currentEnv
      have hone := executes_resized_succ hhost rounds hc henv
      have hrest : ∀ vm', evalStep host vm = .ok ((), vm') →
          (executes host rounds (vm'.resized c m) = executes host rounds (vm'.resized c n) ↔
            ∀ ip, m ≤ ip → (some c, ip) ∉ executes host rounds (vm'.resized c n)) := by
        intro vm' hstep
        obtain ⟨hs', hc'⟩ := sound_evalStep hs hc hstep
        exact executes_resized_iff hhost hmn hs' hc'
      -- an instruction that is executed in both, and not behind the shorter length
      have hboth : env.ip < (env.resized c m).length → env.ip < (env.resized c n).length →
          (∀ ip, m ≤ ip → (some c, ip) ≠ (env.codeRef, env.ip)) →
          (executes host (rounds + 1) (vm.resized c m) = executes host (rounds + 1) (vm.resized c n) ↔
            ∀ ip, m ≤ ip → (some c, ip) ∉ executes host (rounds + 1) (vm.resized c n)) := by
        intro hm hn hhead
        rw [hone m, hone n, if_pos hm, if_pos hn, List.cons_inj_right]
        cases hstep : evalStep host vm with
        | error e => exact iff_of_true rfl fun ip hip hmem => hhead ip hip (List.mem_singleton.mp hmem)
        | ok r =>
          refine (hrest r.2 hstep).trans (forall_congr' fun ip => imp_congr_right fun hip => not_congr ?_)
          rw [List.mem_cons]
          exact ⟨Or.inr, fun h => h.resolve_left (hhead ip hip)⟩
      by_cases hcode : env.codeRef = some c
      · have hlength : ∀ k, (env.resized c k).length = k := fun k => by rw [Env.resized, if_pos hcode]
        rcases Nat.lt_or_ge env.ip m with hlt | hge
        · refine hboth (by rw [hlength]; exact hlt) (by rw [hlength]; omega) fun ip hip h => ?_
          have hsame : ip = env.ip := (Prod.mk.inj h).2
          omega
        · rw [hone m, hone n, hlength, hlength, if_neg (Nat.not_lt.mpr hge)]
          by_cases hn : env.ip < n
          · rw [if_pos hn]
            exact iff_of_false (List.cons_ne_nil _ _).symm fun h => h env.ip hge (hcode ▸ List.mem_cons_self)
          · rw [if_neg hn]
            exact iff_of_true rfl fun _ _ => List.not_mem_nil
      · have hlength : ∀ k, (env.resized c k).length = env.length := fun k => by rw [Env.resized, if_neg hcode]
        by_cases hlt : env.ip < env.length
        · exact hboth (by rw [hlength]; exact hlt) (by rw [hlength]; exact hlt) fun ip _ h =>
            hcode (Prod.mk.inj h).1.symm
        · rw [hone m, hone n, hlength, hlength, if_neg hlt, if_neg hlt]
          exact iff_of_true rfl fun _ _ => List.not_mem_nil

end

end Insomniac.Vm

import Insomniac.Vm.Instructions
import Insomniac.Machinery.Run
import Mathlib.Logic.Relation

/-!
# Vm/Eval — `vm_eval` and the states it reaches

    vm_create ──vm_eval──▸ step ──▸ step ──▸ … ──▸ step ──vm_reset──▸ …

A state is reached by a sequence of rounds of the loop of `vm_eval`, of calls of `vm_eval` and
`vm_reset` in between, and of code being put into memory for them.
-/

open Bytes Insomniac.Asm Run

namespace Insomniac.Vm

/-! ## The machine at the start

`vm_create`: an empty stack, the two booleans, and a root environment with no code in it. -/

/-- The environment that `push_env` makes when there is no parent. -/
def rootEnv (bindings : ℕ) : Env where
  codeRef := none
  length := 0
  ip := 0
  bindings
  handler := false
  handlerAddr := 0
  parent := none

/-- `vm_create`. -/
def vmCreate : VmInternal where
  stackRoot := .obj 0
  depth := 0
  objs := [.empty, .bool true, .bool false]
  cells := []
  envs := [rootEnv 2]
  tables := [[], [], []]
  bytes := []
  arrays := []
  codes := []
  empty := .obj 0
  vmTrue := .obj 1
  vmFalse := .obj 2
  symbolTable := 0
  importTable := 1
  env := 0
  exitStatus := 0
  calls := []
  outputDepth := 0

/-- `vm_reset`. -/
def vmReset (vm : VmInternal) : VmInternal :=
  { vm with
    stackRoot := vm.empty
    depth := 0
    tables := vm.tables ++ [[]]
    envs := vm.envs ++ [rootEnv vm.tables.length]
    env := vm.envs.length }

/-- What `vm_eval` does before its loop. -/
def startEval (codeRef : ℕ) (length : ℕ) (vm : VmInternal) : VmInternal :=
  vm.updateEnv fun env => { env with ip := 0, codeRef := some codeRef, length }

/-- Code in memory. -/
def loadCode (code : Code) (vm : VmInternal) : VmInternal := { vm with codes := vm.codes ++ [code] }

/-- `vm_eval` of bytes that are put into memory for it, before its loop. -/
def startBytes (bytes : List UInt8) (vm : VmInternal) : VmInternal :=
  startEval vm.codes.length bytes.length (loadCode (fun i => bytes.getD i 0) vm)

/-! ## The loop

`vm_eval` is a loop of rounds.  How many there are is not known before, so the loop is given a number of rounds
that it may take. -/

section

variable (host : Host) (throw : Throw)

/-- `setup_instructions`. -/
def ops : Op → Option (VmM Unit)
  | .litFixnum => opLit64bit
  | .litEmpty => opLitEmpty
  | .litChar => opLitChar
  | .litString => opLitString
  | .litSymbol => opLitSymbol host
  | .makeSymbol => opMakeSymbol host throw
  | .litTrue => opLitTrue
  | .litFalse => opLitFalse
  | .makeVector => opMakeVector throw
  | .makeByteVector => opMakeByteVector throw
  | .makeRecord => opMakeRecord throw
  | .indexSet => opIndexSet throw
  | .indexRef => opIndexRef throw
  | .vectorLength => opVectorLength throw
  | .stringByteVector => opStringByteVector throw
  | .byteVectorString => opByteVectorString throw
  | .cons => opCons
  | .car => opCar throw
  | .cdr => opCdr throw
  | .setCar => opSetCar throw
  | .setCdr => opSetCdr throw
  | .bind => opBind host throw
  | .set => opSet host throw
  | .read => opRead host throw
  | .swap => opSwap
  | .rot => opRot
  | .dupRef => opDupRef
  | .drop => opDrop
  | .depth => opDepth
  | .output => opOutput host
  | .fdRead => opFdRead host throw
  | .fdWrite => opFdWrite host throw
  | .open => opOpen host throw
  | .close => opClose host throw
  | .slurp => opSlurp host throw
  | .asm => opAsm host throw
  | .add => opAdd throw
  | .sub => opSub throw
  | .mul => opMul throw
  | .div => opDiv throw
  | .mod => opMod throw
  | .numericEqual => opNumericEqual throw
  | .numericLt => opNumericLt throw
  | .numericGt => opNumericGt throw
  | .not => opNot
  | .eq => opEq host
  | .jmp => opJmp
  | .jnf => opJnf
  | .call => opCall
  | .adopt => opAdopt throw
  | .proc => opProc
  | .ret => opRet throw
  | .jin => opJin throw
  | .callIn => opCallIn throw
  | .tailCallIn => opTailCallIn throw
  | .import => opImport host throw
  | .callExt => opCallExt host throw
  | .continue => opContinue
  | .restore => opRestore
  | .setExit => opSetExit throw
  | .isFixnum => opIsFixnum
  | .isBool => opIsBool
  | .isChar => opIsChar
  | .isString => opIsString
  | .isSymbol => opIsSymbol
  | .isVector => opIsVector
  | .isByteVector => opIsByteVector
  | .isRecord => opIsRecord
  | .isPair => opIsPair
  | .isEmpty => opIsEmpty
  | .isClosure => opIsClosure
  | .isSelf => opIsSelf
  | .gcStats => opGcStats host
  -- these two have no function
  | .nop => none
  | .isLibrary => none

end

/-- The byte at the instruction pointer, and the pointer moved behind it. -/
def fetch : VmM UInt8 := do
  let env ← currentEnv
  let code ← codeOf env
  skip 1
  pure (code env.ip)

/-- One round of the loop of `vm_eval`. -/
def evalStep (host : Host) : VmM Unit := do
  let opCode ← fetch
  match (Op.ofByte? opCode).bind (ops host handleException) with
  | some opCall => opCall
  | none => throwThe Stop (.fatal "Found Undefined instrution.")

/-- The same round with another `throw`. -/
def evalStepWith (host : Host) (throw : Throw) : VmM Unit := do
  let opCode ← fetch
  match (Op.ofByte? opCode).bind (ops host throw) with
  | some opCall => opCall
  | none => throwThe Stop (.fatal "Found Undefined instrution.")

/-- Whether the loop goes on. -/
def VmInternal.running (vm : VmInternal) : Bool :=
  match vm.envs[vm.env]? with
  | some env => env.ip < env.length
  | none => false

/-- The loop of `vm_eval`, for a number of rounds. -/
def vmLoop (host : Host) : (rounds : ℕ) → VmM Unit
  | 0 => pure ()
  | rounds + 1 => do
    if (← get).running then
      evalStep host
      vmLoop host rounds

/-- The operation at the instruction pointer. -/
def VmInternal.nextOp (vm : VmInternal) : Option Op := do
  let env ← vm.envs[vm.env]?
  let codeRef ← env.codeRef
  let code ← vm.codes[codeRef]?
  Op.ofByte? (code env.ip)

/-! ## Looking at a state

What a condition on a round is about: the instruction that comes next, and the operands on the stack. -/

/-- The first field of a pair, when it is not null. -/
def Obj.car? : Obj → Ptr
  | .pair car _ => car
  | _ => none

/-- The second field of a pair, when it is not null. -/
def Obj.cdr? : Obj → Ptr
  | .pair _ cdr => cdr
  | _ => none

/-- The object in the pair number `k` from a pair on. -/
def VmInternal.operandFrom (vm : VmInternal) : Ref → (k : ℕ) → Option Ref
  | r, 0 => (vm.deref r).bind Obj.car?
  | r, k + 1 => ((vm.deref r).bind Obj.cdr?).bind fun cdr => vm.operandFrom cdr k

/-- The object at a place of the stack. -/
def VmInternal.operand (vm : VmInternal) (k : ℕ) : Option Ref := vm.operandFrom vm.stackRoot k

/-- The text in a byte array. -/
def VmInternal.name (vm : VmInternal) (bytes : ℕ) : Option (List UInt8) := vm.bytes[bytes]?.bind cstr?

/-- The length and the array of a vector or record. -/
def Obj.slots? : Obj → Option (Int64 × ℕ)
  | .vector length slots | .record length slots => some (length, slots)
  | _ => none

/-- **No object is read**: the operands are a vector or record and a number that `op_index_ref` lets pass, but that is
not an index of an object in it.  The slot holds null, or there is no slot. -/
def VmInternal.ReadsNull (vm : VmInternal) : Prop :=
  ∃ (v i : Ref) (o : Obj) (length index : Int64) (slots : ℕ),
    vm.operand 0 = some v ∧ vm.deref v = some o ∧ o.slots? = some (length, slots) ∧
      vm.operand 1 = some i ∧ vm.deref i = some (.fixnum index) ∧ index ≤ length ∧
      ¬ ∃ (ps : List Ptr) (r : Ref), 0 ≤ index ∧ index < length ∧ vm.arrays[slots]? = some ps ∧
        ps[index.toInt.toNat]? = some (some r)

/-- The operands are a byte vector over an array, a number and an index of it. -/
def VmInternal.WritesTo (vm : VmInternal) (bs : ℕ) : Prop :=
  ∃ (v obj i : Ref) (length integer index : Int64),
    vm.operand 0 = some v ∧ vm.deref v = some (.byteVector length bs) ∧
      vm.operand 1 = some obj ∧ vm.deref obj = some (.fixnum integer) ∧
      vm.operand 2 = some i ∧ vm.deref i = some (.fixnum index) ∧ index ≤ length

/-- A byte other than `NUL` is stored behind a string. -/
def VmInternal.WritesEnd (vm : VmInternal) : Prop :=
  ∃ (v obj i : Ref) (length integer index : Int64) (bytes n : ℕ),
    vm.operand 0 = some v ∧ vm.deref v = some (.byteVector length bytes) ∧
      vm.operand 1 = some obj ∧ vm.deref obj = some (.fixnum integer) ∧
      vm.operand 2 = some i ∧ vm.deref i = some (.fixnum index) ∧
      index ≤ length ∧ vm.objs[n]? = some (.string index bytes) ∧ integer.toUInt64.toUInt8 ≠ 0

/-- The number on top of the stack. -/
def VmInternal.Asks (vm : VmInternal) (length : Int64) : Prop :=
  ∃ r, vm.operand 0 = some r ∧ vm.deref r = some (.fixnum length)

/-- The number of bytes that `read` is asked for, behind a descriptor. -/
def VmInternal.AsksRead (vm : VmInternal) (count : Int64) : Prop :=
  ∃ (fd num : Ref) (fdInt : Int64), vm.operand 0 = some fd ∧ vm.deref fd = some (.fixnum fdInt) ∧
    vm.operand 1 = some num ∧ vm.deref num = some (.fixnum count)

/-- **The external function that the operands lead to**, and the state in which it is called. -/
def VmInternal.CallsExt (host : Host) (vm : VmInternal) (funcPtr : ExtFunc) (vm₂ : VmInternal) : Prop :=
  ∃ (obj lib : Ref) (func funcCount : Int64) (handle i : ℕ) (exports : List (List UInt8 × ExtFunc))
    (name : List UInt8) (vm₁ : VmInternal), vmPop vm = .ok (obj, vm₁) ∧ vmPop vm₁ = .ok (lib, vm₂) ∧
      vm₂.deref obj = some (.fixnum func) ∧ vm₂.deref lib = some (.library (some handle) funcCount) ∧
      host.exports handle = .ok exports ∧ indexOf func exports.length = some i ∧ exports[i]? = some (name, funcPtr)

/-- The next round assembles: the operand of `asm` is a string. -/
def VmInternal.Assembles (vm : VmInternal) : Prop :=
  vm.nextOp = some .asm ∧ ∃ (obj : Ref) (length : Int64) (bytes : ℕ),
    vm.operand 0 = some obj ∧ vm.deref obj = some (.string length bytes)

/-- The code and the address that the operand of an instruction leads to. -/
def VmInternal.target (vm : VmInternal) : Option (Option ℕ × ℕ) := do
  let env ← vm.envs[vm.env]?
  let code ← env.codeRef >>= fun codeRef => vm.codes[codeRef]?
  some (env.codeRef, jumpTo (env.ip + 9) (Asm.parseInt code (env.ip + 1)))

/-- The state once the operation has been read. -/
def VmInternal.fetched (vm : VmInternal) : VmInternal := vm.updateEnv fun env => { env with ip := env.ip + 1 }

/-- The next round writes to a pair. -/
def VmInternal.WritesPair (vm : VmInternal) (n : ℕ) : Prop :=
  (vm.nextOp = some .setCar ∨ vm.nextOp = some .setCdr) ∧ vm.operand 1 = some (.obj n)

/-- The next round is a `bind` of a name in a table. -/
def VmInternal.Binds (vm : VmInternal) (t : ℕ) (name : List UInt8) : Prop :=
  vm.nextOp = some .bind ∧ ∃ (key : Ref) (length : Int64) (bytes : ℕ) (env : Env),
    vm.operand 0 = some key ∧ vm.deref key = some (.symbol length bytes) ∧ vm.name bytes = some name ∧
      vm.envs[vm.env]? = some env ∧ env.bindings = t

/-- The next round is a `!` of a name, which is found in a table. -/
def VmInternal.Sets (host : Host) (vm : VmInternal) (t : ℕ) (name : List UInt8) : Prop :=
  vm.nextOp = some .set ∧ ∃ (key value r : Ref) (length : Int64) (bytes : ℕ) (env : Env)
    (vm₁ vm₂ vm₃ : VmInternal), vmPop vm.fetched = .ok (key, vm₁) ∧ vmPop vm₁ = .ok (value, vm₂) ∧
      vm₂.deref key = some (.symbol length bytes) ∧ vm₂.name bytes = some name ∧
      findBinding host bytes vm₂.scopes vm₂ = .ok (some (env, r), vm₃) ∧ env.bindings = t

/-- The next round writes a name in a table. -/
def VmInternal.WritesName (host : Host) (vm : VmInternal) (t : ℕ) (name : List UInt8) : Prop :=
  vm.Binds t name ∨ vm.Sets host t name ∨ vm.nextOp = some .import ∧ t = vm.importTable

/-! ## Runs

The owner of a machine may run it, reset it, and run it again with other code.  A run is any sequence of such
calls and of the rounds that they consist of. -/

/-- A round of the loop of a `vm_eval` that is not done. -/
def Step (host : Host) (vm vm' : VmInternal) : Prop :=
  vm.running = true ∧ evalStep host vm = .ok ((), vm')

/-- What the owner of a machine may do with it. -/
inductive Call : VmInternal → VmInternal → Prop
  | load (vm : VmInternal) (code : Code) : Call vm (loadCode code vm)
  | eval {vm : VmInternal} {codeRef : ℕ} (length : ℕ) : vm.running = false →
      codeRef < vm.codes.length → Call vm (startEval codeRef length vm)
  | reset {vm : VmInternal} : vm.running = false → Call vm (vmReset vm)

/-- **What may happen to a machine** whose rounds are taken in states that satisfy `C`. -/
inductive NextIf (host : Host) (C : VmInternal → Prop) (vm vm' : VmInternal) : Prop
  | step (h : Step host vm vm') (hc : C vm)
  | call (h : Call vm vm')

/-- The states that a state leads to, through rounds where `C` holds. -/
abbrev LaterIf (host : Host) (C : VmInternal → Prop) : VmInternal → VmInternal → Prop :=
  Relation.ReflTransGen (NextIf host C)

/-- The states that a state leads to. -/
abbrev Later (host : Host) : VmInternal → VmInternal → Prop := LaterIf host fun _ => True

/-- The states that are reached. -/
def Reachable (host : Host) (vm : VmInternal) : Prop := Later host vmCreate vm

/-- Starting code that was put into memory is a run. -/
theorem later_startBytes {host : Host} {C : VmInternal → Prop} {vm : VmInternal} (bytes : List UInt8)
    (h : vm.running = false) : LaterIf host C vm (startBytes bytes vm) := by
  refine .tail (.single (.call (.load vm _))) (.call (.eval _ h ?_))
  simp [loadCode]

/-- **What the loop does** is a sequence of steps. -/
theorem steps_of_vmLoop {host : Host} : ∀ {rounds : ℕ} {vm vm' : VmInternal},
    vmLoop host rounds vm = .ok ((), vm') → Relation.ReflTransGen (Step host) vm vm'
  | 0, _, _, h => by
      cases h
      exact .refl
  | rounds + 1, vm, vm', h => by
      cases hrunning : vm.running with
      | false =>
        have hstop : vmLoop host (rounds + 1) vm = .ok ((), vm) := by
          refine (run_bind rfl).trans ?_
          simp only [hrunning]
          rfl
        cases hstop.symm.trans h
        exact .refl
      | true =>
        have hgo : vmLoop host (rounds + 1) vm = (evalStep host >>= fun _ => vmLoop host rounds) vm := by
          refine (run_bind rfl).trans ?_
          simp only [hrunning]
          rfl
        cases hstep : evalStep host vm with
        | error e =>
          rw [hgo] at h
          change evalStep host vm >>= _ = _ at h
          rw [hstep] at h
          cases h
        | ok r =>
          rw [hgo, run_bind hstep] at h
          exact .head ⟨hrunning, hstep⟩ (steps_of_vmLoop h)

/-- So are the rounds that the loop takes. -/
theorem later_vmLoop {host : Host} {rounds : ℕ} {vm vm' : VmInternal}
    (h : vmLoop host rounds vm = .ok ((), vm')) : Later host vm vm' :=
  Relation.ReflTransGen.mono (fun _ _ h => .step h trivial) _ _ (steps_of_vmLoop h)

/-- The loop of `vm_eval` for a number of rounds, in states that pass a test. -/
def vmLoopIf (host : Host) (test : VmInternal → Bool) : (rounds : ℕ) → VmM Unit
  | 0 => pure ()
  | rounds + 1 => fun vm =>
    if vm.running && test vm then (evalStep host >>= fun _ => vmLoopIf host test rounds) vm
    else .error .undefined

/-- And rounds that are tested one by one meet what the test says. -/
theorem laterIf_vmLoopIf {host : Host} {test : VmInternal → Bool} {C : VmInternal → Prop}
    (hC : ∀ vm, test vm = true → C vm) : ∀ {rounds : ℕ} {vm vm' : VmInternal},
      vmLoopIf host test rounds vm = .ok ((), vm') → LaterIf host C vm vm'
  | 0, _, _, h => by
      cases h
      exact .refl
  | rounds + 1, vm, vm', h => by
      unfold vmLoopIf at h
      split at h
      · next hgo =>
        obtain ⟨hrunning, htest⟩ := Bool.and_eq_true_iff.mp hgo
        obtain ⟨⟨⟩, vm₁, hstep, hrest⟩ := bind_ok h
        exact .head (.step ⟨hrunning, hstep⟩ (hC vm htest)) (laterIf_vmLoopIf hC hrest)
      · cases h

/-- A state of such a run, found by carrying it out. -/
theorem reachedIf {host : Host} {test : VmInternal → Bool} {C : VmInternal → Prop} (hC : ∀ vm, test vm = true → C vm)
    {tokens : List (Token ℕ)} {rounds : ℕ} {test' : VmInternal → Bool}
    (h : passes (vmLoopIf host test rounds) (startBytes ((asmString tokens).getD []) vmCreate) test' = true) :
    ∃ vm, LaterIf host C vmCreate vm ∧ test' vm = true := by
  obtain ⟨⟨⟩, vm, hrun, htest⟩ := exists_of_passes h
  exact ⟨vm, (later_startBytes _ rfl).trans (laterIf_vmLoopIf hC hrun), htest⟩

/-- Two states of a run, found by carrying it out. -/
theorem reached {host : Host} {tokens : List (Token ℕ)} {rounds rest : ℕ} {test test' : VmInternal → Bool}
    (h : passes (vmLoop host rounds) (startBytes ((asmString tokens).getD []) vmCreate) (fun vm =>
      test vm && passes (vmLoop host rest) vm test') = true) :
    ∃ vm vm', Reachable host vm ∧ Later host vm vm' ∧ test vm = true ∧ test' vm' = true := by
  obtain ⟨⟨⟩, vm, hrun, hvm⟩ := exists_of_passes h
  obtain ⟨htest, hrest⟩ := Bool.and_eq_true_iff.mp hvm
  obtain ⟨⟨⟩, vm', hrun', htest'⟩ := exists_of_passes hrest
  exact ⟨vm, vm', (later_startBytes _ rfl).trans (later_vmLoop hrun), later_vmLoop hrun', htest, htest'⟩

end Insomniac.Vm

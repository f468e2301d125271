import Insomniac.Asm.Debug
import Insomniac.Vm.Memory
import Mathlib.Logic.Relation

/-!
# Vm/State — what the machine is handed, and what its functions do to it

    vm_internal_type ──hash_set, push_env, clone_env, handle_exception──▸ vm_internal_type
                     ──call_ext──▸ code of a library ──▸
                     ──open, read, write, …──▸ the outside

The outside (`Host`) is a parameter: the operating system, the libraries that are loaded, and what C leaves to
memory.
-/

open Bytes Insomniac.Asm

namespace Insomniac.Vm

/-! ## External functions

`call_ext` runs code that `dlopen` brought in and that is handed the machine.  That code is a parameter here: a
program, of which it is known that it goes through the interface of `vm.h` (`ExtFunc.keeps`) and writes to no
object that it did not make. -/

/-- An object of programs, not a pair of the stack. -/
def Ref.IsObj : Ref → Prop
  | .obj _ => True
  | .cell _ => False

/-- A pointer that is an object of programs, or null where that is allowed. -/
def IsSlot (null : Prop) : Ptr → Prop
  | none => null
  | some r => r.IsObj

/-- An object that `vm_alloc` makes, with no block behind it. -/
def Obj.Plain : Obj → Prop
  | .pair car cdr => IsSlot False car ∧ IsSlot False cdr
  | .fixnum _ | .bool _ | .char _ | .empty | .library _ _ => True
  | _ => False

/-- A length that a vector can have: it is one, and the size of the block does not wrap. -/
def Possible (length : Int64) : Prop := 0 ≤ length ∧ 8 * length.toInt + 96 ≤ 2 ^ 64

/-- **What a function of the interface does** to the machine when an external function calls it.  What is made is
filled before anything else sees it.  `null` tells whether null may be pushed, and `sized` whether the lengths that
are asked for have to be possible ones. -/
inductive ExtStep (null sized : Prop) (vm : VmInternal) : VmInternal → Prop
  | pop {obj : Ref} {vm' : VmInternal} : vmPop vm = .ok (obj, vm') → ExtStep null sized vm vm'
  | push {obj : Ptr} : IsSlot null obj → ExtStep null sized vm (vm.push obj)
  | alloc {o : Obj} {r : Ref} {vm' : VmInternal} : o.Plain → vmAlloc o vm = .ok (r, vm') →
      ExtStep null sized vm vm'
  | string {buf : List UInt8} {length : Int64} {r : Ref} {vm' : VmInternal} :
      vmMakeString buf length vm = .ok (r, vm') → ExtStep null sized vm vm'
  | byteVector {length : Int64} {bs : List UInt8} : (sized → 0 ≤ length) →
      roomFor length.toUInt64.toNat vm = .ok (bs.length, vm) →
      ExtStep null sized vm
        { vm with bytes := vm.bytes ++ [bs], objs := vm.objs ++ [.byteVector length vm.bytes.length] }
  | vector {length : Int64} {room : ℕ} {ps : List Ptr} : (sized → Possible length) →
      roomFor (arrayBytes length) vm = .ok (room, vm) → ps.length = room / 8 → (∀ p ∈ ps, IsSlot True p) →
      ExtStep null sized vm
        { vm with arrays := vm.arrays ++ [ps], objs := vm.objs ++ [.vector length vm.arrays.length] }
  | record {length : Int64} {room : ℕ} {ps : List Ptr} : (sized → Possible (length + 1)) →
      roomFor (arrayBytes (length + 1)) vm = .ok (room, vm) → ps.length = room / 8 → (∀ p ∈ ps, IsSlot True p) →
      ExtStep null sized vm
        { vm with arrays := vm.arrays ++ [ps], objs := vm.objs ++ [.record (length + 1) vm.arrays.length] }
  /-- What `vm_output_object` prints. -/
  | output (text : List UInt8) (depth : ℕ) :
      ExtStep null sized vm { vm with calls := .print text :: vm.calls, outputDepth := depth }
  /-- What else it has to do with the outside. -/
  | ask (call : HostCall) : ExtStep null sized vm { vm with calls := call :: vm.calls }

/-- **A program that goes through the interface** from a state on, and stops where `vm_pop` stops it. -/
structure GoesThrough (null sized : Prop) (run : VmM Unit) (vm : VmInternal) : Prop where
  ends {vm' : VmInternal} : run vm = .ok ((), vm') → Relation.ReflTransGen (ExtStep null sized) vm vm'
  stops {e : Stop} : run vm = .error e → e = .undefined ∨ e = .exited ∨
    ∃ vm', Relation.ReflTransGen (ExtStep null sized) vm vm' ∧ vmPop vm' = .error e

/-- `ext_call_type`: a function of a library. -/
structure ExtFunc where
  run : VmM Unit
  keeps (vm : VmInternal) : GoesThrough True False run vm

/-! ## The outside

Every answer of the outside may depend on all that it was asked before. -/

/-- Blocks that have an address. -/
inductive Block
  | ref (r : Ref)
  | env (e : ℕ)
  | library (l : ℕ)

/-- A number and a text: `errno` and `strerror`. -/
structure HostError where
  errno : Int64
  message : List UInt8

/-- What is printed with addresses in it, an environment of a closure and a library, and the records in which the
source location of an environment is looked up. -/
structure Printer where
  closure : VmInternal → Ref → ℕ → List UInt8
  library : VmInternal → Ref → List UInt8
  debug : VmInternal → ℕ → List DebugState

/-- The outside.  Answers may depend on all that was asked before, with the question first. -/
structure Host where
  «open» : List HostCall → Except HostError Int64
  close : List HostCall → Except HostError Unit
  write : List HostCall → Except HostError Int64
  read : List HostCall → Except HostError (List UInt8)
  /-- Nothing when the file cannot be read. -/
  slurp : List HostCall → Option (List UInt8)
  /-- The text of `dlerror`, or the library. -/
  dlopen : List HostCall → Except (List UInt8) ℕ
  /-- `export_list`: the text of `dlerror`, or the names and functions. -/
  exports : ℕ → Except (List UInt8) (List (List UInt8 × ExtFunc))
  /-- The lexer of the assembler. -/
  lex : List UInt8 → Option (List (Token (List UInt8)))
  printer : Printer
  /-- `gc_stats`: the text. -/
  gcStats : VmInternal → List UInt8
  address : Block → UInt64
  /-- The C string in the memory that the second word of a pair, a vector, a record or a library
  points at, if it has an end. -/
  rawString : VmInternal → Ref → Option (List UInt8)
  /-- The number of the entry that `hash_find` comes upon in a table whose keys were written to since
  they were entered: it depends on the buckets. -/
  staleGet : VmInternal → ℕ → List UInt8 → Option ℕ
  /-- The entries that remain when such a table is written to, by their numbers; the new one is
  `none`. -/
  staleSet : VmInternal → ℕ → List UInt8 → List (Option ℕ)

/-- An outside with no files, no libraries and no code to assemble. -/
def Host.bare : Host where
  «open» _ := .error ⟨2, "No such file or directory"⟩
  close _ := .error ⟨9, "Bad file descriptor"⟩
  write _ := .error ⟨9, "Bad file descriptor"⟩
  read _ := .error ⟨9, "Bad file descriptor"⟩
  slurp _ := none
  dlopen _ := .error "cannot open shared object file: No such file or directory"
  exports _ := .error "undefined symbol: export_list"
  lex _ := some []
  printer := ⟨fun _ _ _ => [], fun _ _ => [], fun _ _ => []⟩
  gcStats _ := []
  address _ := 0
  rawString _ _ := none
  staleGet _ _ _ := none
  staleSet _ _ _ := []

/-! ## Hash tables

As `Hash/Runs` has it, a table whose keys stay what they were is a finite map. -/

/-- Whether the keys of a table are what they were when they were entered. -/
def VmInternal.keysKept (vm : VmInternal) (entries : List Entry) : Bool :=
  entries.all fun e => vm.bytes[e.key]?.bind cstr? = some e.name

/-- The value of a name in a table. -/
def lookup (entries : List Entry) (name : List UInt8) : Option Ref :=
  (entries.find? fun e => e.name = name).map Entry.value

/-- A table with the value of a name set; the key of an entry that is there stays. -/
def insert (entries : List Entry) (key : ℕ) (name : List UInt8) (value : Ref) : List Entry :=
  if entries.any (fun e => e.name = name) then
    entries.map fun e => if e.name = name then { e with value } else e
  else ⟨key, name, value⟩ :: entries

variable (host : Host)

/-- What `hash_get` finds in the entries of a table. -/
def getEntry (vm : VmInternal) (t : ℕ) (name : List UInt8) (entries : List Entry) : Option Ref :=
  if vm.keysKept entries then lookup entries name
  else ((host.staleGet vm t name).bind (entries[·]?)).map Entry.value

/-- `hash_get`. -/
def hashGet (t key : ℕ) : VmM (Option Ref) := do
  let name ← cstring key
  let entries ← ofOption (·.tables[t]?)
  ofOption fun vm => some (getEntry host vm t name entries)

/-- The entries of a table after `hash_set`. -/
def setEntries (vm : VmInternal) (t key : ℕ) (name : List UInt8) (value : Ref)
    (entries : List Entry) : List Entry :=
  if vm.keysKept entries then insert entries key name value
  else (host.staleSet vm t name).filterMap fun
    | some i => entries[i]?
    | none => some ⟨key, name, value⟩

/-- `hash_set`. -/
def hashSet (t key : ℕ) (value : Ref) : VmM Unit := do
  let name ← cstring key
  let entries ← ofOption (·.tables[t]?)
  modify fun vm => { vm with tables := vm.tables.set t (setEntries host vm t key name value entries) }

/-! ## Environments

An environment is copied whole.  With the flag, its bindings are copied on write; what it runs is never copied. -/

/-- A new environment with given content. -/
def newEnv (env : Env) : VmM ℕ := fun vm =>
  .ok (vm.envs.length, { vm with envs := vm.envs ++ [env] })

/-- The content of an environment. -/
def getEnv (e : ℕ) : VmM Env := ofOption (·.envs[e]?)

/-- Make an environment the current one. -/
def setEnv (e : ℕ) : VmM Unit := fun vm => .ok ((), { vm with env := e })

/-- Write to the current environment. -/
def VmInternal.updateEnv (vm : VmInternal) (f : Env → Env) : VmInternal := { vm with envs := vm.envs.modify vm.env f }

/-- The current environment. -/
def currentEnv : VmM Env := ofOption fun vm => vm.envs[vm.env]?

/-- Write to the current environment. -/
def updateEnv (f : Env → Env) : VmM Unit := fun vm => .ok ((), vm.updateEnv f)

/-- Write to an environment. -/
def editEnv (e : ℕ) (f : Env → Env) : VmM Unit := fun vm =>
  .ok ((), { vm with envs := vm.envs.modify e f })

/-- `push_env`, with a parent. -/
def pushEnv : VmM Unit := do
  let bindings ← newTable []
  let env ← currentEnv
  let vm ← get
  let e ← newEnv { env with bindings, handler := false, handlerAddr := 0, parent := some vm.env }
  setEnv e

/-- `clone_env`.  With `cow` the bindings are copied as well. -/
def cloneEnv (e : ℕ) (cow : Bool) : VmM ℕ := do
  let env ← getEnv e
  if cow then
    let entries ← ofOption (·.tables[env.bindings]?)
    let bindings ← newTable entries
    newEnv { env with bindings }
  else newEnv env

/-- A new environment becomes the current one. -/
def VmInternal.enter (vm : VmInternal) (env : Env) : VmInternal :=
  { vm with envs := vm.envs ++ [env], env := vm.envs.length }

/-- `clone_env` into `vm->env`. -/
def switchEnv (e : ℕ) : VmM Unit := do
  let env ← cloneEnv e false
  setEnv env

/-- An environment and its parents, innermost first.  A parent is older than its children. -/
def VmInternal.chain (vm : VmInternal) : (fuel : ℕ) → ℕ → List ℕ
  | 0, _ => []
  | fuel + 1, e =>
    match vm.envs[e]? with
    | none => []
    | some env => e :: (env.parent.map (vm.chain fuel)).getD []

/-- The current environment and its parents. -/
def VmInternal.scopes (vm : VmInternal) : List ℕ := vm.chain vm.envs.length vm.env

/-! ## Exceptions

`handle_exception` looks through the parents for a handler, and goes on there in a copy; where there is none,
the process ends. -/

/-- What an instruction throws with. -/
abbrev Throw := (msg : List UInt8) → (args : List Ref) → VmM Unit

/-- `find` of `handle_exception`: the innermost environment with a handler. -/
def VmInternal.findHandler (vm : VmInternal) : Option ℕ :=
  vm.scopes.find? fun e => (vm.envs[e]?.map Env.handler).getD false

/-- The exception object: the message, a closure of the current environment, and the arguments, the
last one first. -/
def makeException (msg : List UInt8) (args : List Ref) : VmM Ref := do
  let exception ← args.foldlM (fun exception obj => cons obj exception) (← get).empty
  let env ← cloneEnv (← get).env false
  let obj ← alloc (.closure env)
  let exception ← cons obj exception
  let obj ← vmMakeCString msg
  cons obj exception

/-- Go on in a copy of the environment with the handler. -/
def dispatch (msg : List UInt8) : VmM Unit := do
  let vm ← get
  match vm.findHandler with
  | some env =>
    switchEnv env
    updateEnv fun env => { env with handler := false }
    updateEnv fun env => { env with ip := env.handlerAddr }
  | none => throw (.unhandled msg)

/-- `handle_exception` of an exception that is not fatal. -/
def handleException : Throw := fun msg args => do
  let exception ← makeException msg args
  vmPush (some exception)
  dispatch msg

/-- Stop where an exception is about to be thrown. -/
def raise : Throw := fun msg args vm => .error (.raised msg args vm)

end Insomniac.Vm

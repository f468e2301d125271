import Insomniac.Asm.Decode
import Insomniac.Asm.Assemble
import Mathlib.Data.Int.Notation

/-!
# Vm/Memory — objects, environments and the virtual machine

The memory of the virtual machine, one list per kind of block (objects, environments, hash tables,
arrays of bytes and of pointers, code): a reference is a place in its list, a number.
The pairs that `vm_push` makes the operand stack of are kept apart from the objects that programs
make, so that it can be said that no program gets hold of one; both are read and written alike.

    stack_root ──▸ cell ──▸ cell ──▸ empty          env ──▸ parent ──▸ root
                    │        │                       │        │
                   obj      obj                   bindings bindings

The collector never frees what can be reached (`Gc/Runs`), so nothing is ever removed here.
-/

open Bytes Insomniac.Asm

namespace Insomniac.Vm

/-! ## Memory

Blocks are numbered in the order in which they are made, and none is ever taken away. -/

/-- A pointer at an object, `object_type *`: one of the objects, or one of the pairs of the stack. -/
inductive Ref
  | obj (n : ℕ)
  | cell (n : ℕ)
  deriving DecidableEq

/-- A pointer that may be null. -/
abbrev Ptr := Option Ref

/-- `object_type`. -/
inductive Obj
  | fixnum (integer : Int64)
  | bool (boolean : Bool)
  | char (character : UInt32)
  | string (length : Int64) (bytes : ℕ)
  | symbol (length : Int64) (bytes : ℕ)
  | vector (length : Int64) (vector : ℕ)
  | byteVector (length : Int64) (vector : ℕ)
  | record (length : Int64) (vector : ℕ)
  | pair (car cdr : Ptr)
  | empty
  | closure (closure : ℕ)
  | library (functions : Option ℕ) (funcCount : Int64)
  deriving DecidableEq

/-- `cell_type`. -/
inductive CellType
  | fixnum | bool | char | string | symbol | vector | byteVector | record | pair | empty | closure
  | library
  deriving DecidableEq

/-- The `type` of an object. -/
def Obj.type : Obj → CellType
  | .fixnum _ => .fixnum
  | .bool _ => .bool
  | .char _ => .char
  | .string _ _ => .string
  | .symbol _ _ => .symbol
  | .vector _ _ => .vector
  | .byteVector _ _ => .byteVector
  | .record _ _ => .record
  | .pair _ _ => .pair
  | .empty => .empty
  | .closure _ => .closure
  | .library _ _ => .library

/-- The `value.string` of an object that has bytes there. -/
def Obj.stringFields : Obj → Option (Int64 × ℕ)
  | .string length bytes | .symbol length bytes | .byteVector length bytes => some (length, bytes)
  | _ => none

/-- A pair that `vm_push` made. -/
structure Cell where
  car : Ptr
  cdr : Ref
  deriving DecidableEq

/-- `env_type`, without the source positions. -/
structure Env where
  codeRef : Option ℕ
  length : ℕ
  ip : ℕ
  bindings : ℕ
  handler : Bool
  handlerAddr : ℕ
  parent : Option ℕ
  deriving DecidableEq

/-- An entry of a hash table of strings: the pointer at its key, the text that was there when the
entry was made, and the value. -/
structure Entry where
  key : ℕ
  name : List UInt8
  value : Ref
  deriving DecidableEq

/-- What the machine asked of the outside. -/
inductive HostCall
  | «open» (path : List UInt8) (write : Bool)
  | close (fd : Int64)
  | write (fd : Int64) (bytes : List UInt8) (count : Int64)
  | read (fd count : Int64)
  | slurp (path : List UInt8)
  | dlopen (path : List UInt8)
  | print (text : List UInt8)
  deriving DecidableEq

/-- `vm_internal_type`, with the memory it works on and what it asked of the outside so far. -/
structure VmInternal where
  stackRoot : Ref
  depth : ℤ
  objs : List Obj
  cells : List Cell
  envs : List Env
  tables : List (List Entry)
  bytes : List (List UInt8)
  arrays : List (List Ptr)
  codes : List Code
  empty : Ref
  vmTrue : Ref
  vmFalse : Ref
  symbolTable : ℕ
  importTable : ℕ
  env : ℕ
  exitStatus : Int32
  calls : List HostCall
  /-- The static `depth` of `output_object`. -/
  outputDepth : ℕ

/-- The object at a reference. -/
def VmInternal.deref (vm : VmInternal) : Ref → Option Obj
  | .obj n => vm.objs[n]?
  | .cell n => vm.cells[n]?.map fun c => .pair c.car (some c.cdr)

/-! ## Texts

Names and messages of the source are rows of bytes. -/

/-- The bytes of a text. -/
def text (s : String) : List UInt8 := s.toList.map fun c => UInt8.ofNat c.toNat

/-- A text of the source may be written where bytes are wanted. -/
instance coeText : Coe String (List UInt8) := ⟨text⟩

/-! ## Programs

A function of the machine takes the state and gives one back, or it stops: the process ends, or C says no more
about it. -/

/-- How a run may stop. -/
inductive Stop
  /-- `throw_fatal`. -/
  | fatal (msg : List UInt8)
  /-- An exception without handler. -/
  | unhandled (msg : List UInt8)
  /-- The process ended itself. -/
  | exited
  /-- C gives no meaning to what would come next. -/
  | undefined
  /-- An exception was about to be thrown (only where `throw` is `raise`). -/
  | raised (msg : List UInt8) (args : List Ref) (vm : VmInternal)

/-- Whether a run stopped at `throw_fatal`, with a message. -/
def Stop.isFatal (msg : List UInt8) : Stop → Bool
  | .fatal msg' => msg' = msg
  | _ => false

/-- A fatal error is known by its message. -/
theorem Stop.eq_of_isFatal {msg : List UInt8} {e : Stop} (h : e.isFatal msg = true) : e = .fatal msg := by
  cases e with
  | fatal msg' => exact congrArg Stop.fatal (of_decide_eq_true h)
  | _ => cases h

/-- The programs of the machine. -/
abbrev VmM := StateT VmInternal (Except Stop)

section Primitives

variable {α : Type}

/-- Stop where C gives no meaning. -/
def undefined : VmM α := fun _ => .error .undefined

/-- A value that has to be there. -/
def ofOption (f : VmInternal → Option α) : VmM α := fun vm =>
  match f vm with
  | some a => .ok (a, vm)
  | none => .error .undefined

end Primitives

/-- The object at a reference. -/
def load (r : Ref) : VmM Obj := ofOption (·.deref r)

/-- A new object. -/
def alloc (o : Obj) : VmM Ref := fun vm => .ok (.obj vm.objs.length, { vm with objs := vm.objs ++ [o] })

/-- `vm_alloc`, with the value filled in. -/
def vmAlloc : Obj → VmM Ref
  | .empty => fun vm => .ok (vm.empty, vm)
  | o => alloc o

/-- A new array of bytes. -/
def newBytes (bs : List UInt8) : VmM ℕ := fun vm =>
  .ok (vm.bytes.length, { vm with bytes := vm.bytes ++ [bs] })

/-- A new array of pointers. -/
def newArray (ps : List Ptr) : VmM ℕ := fun vm =>
  .ok (vm.arrays.length, { vm with arrays := vm.arrays ++ [ps] })

/-- A new hash table. -/
def newTable (entries : List Entry) : VmM ℕ := fun vm =>
  .ok (vm.tables.length, { vm with tables := vm.tables ++ [entries] })

/-- The C string in an array of bytes. -/
def cstring (bs : ℕ) : VmM (List UInt8) := ofOption fun vm => vm.bytes[bs]?.bind cstr?

/-- Ask the outside, and note what was asked. -/
def ask {α : Type} (call : HostCall) (answer : List HostCall → α) : VmM α := fun vm =>
  .ok (answer (call :: vm.calls), { vm with calls := call :: vm.calls })

/-- Print a text. -/
def print (f : VmInternal → List UInt8) : VmM Unit := fun vm =>
  .ok ((), { vm with calls := .print (f vm) :: vm.calls })

/-! ## The stack

`vm_push` and `vm_pop`, as `vm_core.c` has them. -/

/-- Put a pair on top of the stack. -/
def VmInternal.push (vm : VmInternal) (obj : Ptr) : VmInternal :=
  { vm with
    cells := vm.cells ++ [⟨obj, vm.stackRoot⟩]
    stackRoot := .cell vm.cells.length
    depth := vm.depth + 1 }

/-- `vm_push`. -/
def vmPush (obj : Ptr) : VmM Unit := fun vm => .ok ((), vm.push obj)

/-- Take the top pair off the stack, with what follows it. -/
def VmInternal.pop (vm : VmInternal) (cdr : Ref) : VmInternal :=
  { vm with stackRoot := cdr, depth := vm.depth - 1 }

/-- `vm_pop`. -/
def vmPop : VmM Ref := fun vm =>
  match vm.deref vm.stackRoot with
  | some .empty => .error (.fatal "Stack Under Run!")
  | some (.pair none _) => .error (.fatal "Null found in pop.")
  | some (.pair (some obj) (some cdr)) => .ok (obj, vm.pop cdr)
  | _ => .error .undefined

/-- `cons`. -/
def cons (car cdr : Ref) : VmM Ref := alloc (.pair (some car) (some cdr))

/-! ## Strings and vectors

An object is made after its block, with the length that was asked for. -/

/-- `vm_make_string`: the array is one longer than the string, and starts as zeros.  A negative length
lets `strncpy` write through all of memory. -/
def vmMakeString (buf : List UInt8) (length : Int64) : VmM Ref :=
  if length < 0 then undefined
  else do
    let bytes ← newBytes (strncpy buf length.toInt.toNat ++ [0])
    alloc (.string length bytes)

/-- `vm_make_string` on a C string. -/
def vmMakeCString (s : List UInt8) : VmM Ref := vmMakeString s (Int64.ofNat (cstr s).length)

/-- The room behind a block of a size, a `size_t`.  `internal_alloc` adds the size of its header: a sum
that wraps asks for a block that holds the header and nothing else.  No memory has a block of half the
address space, and that there is none is not looked at. -/
def roomFor (size : ℕ) : VmM ℕ :=
  if size < 2 ^ 63 then pure size
  else if 2 ^ 64 ≤ size + 32 then pure 0
  else undefined

/-- `vm_make_byte_vector`. -/
def vmMakeByteVector (length : Int64) : VmM Ref := do
  let room ← roomFor length.toUInt64.toNat
  let vector ← newBytes (List.replicate room 0)
  alloc (.byteVector length vector)

/-- The bytes that `gc_alloc_pointer_array` asks for, a `size_t`. -/
def arrayBytes (length : Int64) : ℕ := 8 * length.toUInt64.toNat % 2 ^ 64

/-- The array behind a vector. -/
def makeSlots (length : Int64) : VmM ℕ := do
  let room ← roomFor (arrayBytes length)
  newArray (List.replicate (room / 8) none)

/-- `vm_make_vector`. -/
def vmMakeVector (length : Int64) : VmM Ref := do
  let vector ← makeSlots length
  alloc (.vector length vector)

/-- `vm_make_record`: a vector that is called a record. -/
def vmMakeRecord (length : Int64) : VmM Ref := do
  let vector ← makeSlots (length + 1)
  alloc (.record (length + 1) vector)

end Insomniac.Vm

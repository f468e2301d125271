import Mathlib.Algebra.Group.Nat.Defs
import Mathlib.Data.Int.Notation
import Mathlib.Data.Nat.Notation
import Mathlib.Logic.Function.Basic
import Mathlib.Tactic.Common

/-!
# Gc/Heap — the mark and sweep collector of `libinsomniac_gc`

Every object is on one of three lists.  A sweep flips the colour, marks from the permanent objects
and the roots, and takes off the active list whatever does not carry the new colour: cells go to
the dead list, everything else is freed.

    gc_alloc ──▸ internal_alloc ──▸ sweep ──▸ mark_list, mark_root, sweep_list ──▸ pre_alloc ──▸ gc_alloc …

A request is rounded up to the collector's granularity in `size_t` arithmetic before `calloc` sees
it, so a request that wraps gets a block smaller than the object its header describes.  Every object
therefore carries the bytes of its block, and an access behind them has no meaning:

    block      │ header, 28 bytes │ offset 0 … the object … │ slack │
    real_size    = 32 + size,  up to a multiple of 32 + cell_size,  all modulo 2^64

A run carries a log of what was collected and handed out; no function reads it except the `calloc`
of the C library, which may depend on the whole history.
-/

namespace Insomniac.Gc

/-- The address of a `meta_obj`; `obj_from_meta` and `meta_from_obj` are a constant apart, so it
names the object too. -/
abbrev Addr := ℕ

/-- A pointer variable of the program. -/
abbrev Var := ℕ

/-- `mark_type`. -/
inductive Mark
  | red | black | perm | dead
  deriving DecidableEq, Repr

/-- `meta_ptr_type`. -/
inductive PtrKind
  | ptr | array
  deriving DecidableEq, Repr

/-- `meta_obj_ptr_def`. -/
structure PtrDef where
  type : PtrKind
  offset : ℕ
  deriving DecidableEq, Repr

/-- `meta_obj_def`. -/
structure TypeDef where
  size : ℕ
  rootList : List PtrDef
  deriving DecidableEq, Repr

/-- A `meta_obj`: its header, the bytes of the block it lies in, and the pointers in the object by
their offset. -/
structure MetaObj where
  mark : Mark
  size : ℕ
  typeDef : ℤ
  block : ℕ
  slots : ℕ → Option Addr

/-- `gc_ms`, with the memory it manages and the variables that may be roots. -/
structure GcMs where
  heap : Addr → MetaObj
  activeList : List Addr
  deadList : List Addr
  permList : List Addr
  rootList : List Var
  vars : Var → Option Addr
  typeDefs : List TypeDef
  cellSize : ℕ
  protectCount : ℤ
  currentMark : Mark
  arrayType : ℕ

/-- What happened to the heap: a mark phase and its `sweep_list` took it from one state to another,
or an allocation was about to hand out an object. -/
inductive Event
  | swept (before after : GcMs)
  | handed (before : GcMs) (obj : Addr)

/-- Why a run stops.  `marking` is a mark phase that does not come to its end, `outOfBlock` an access
behind the end of a block; the others are the aborts of the code and the reads that have no
meaning. -/
inductive Stop
  | marking | activeObjectInDeadList | assertion | useAfterFree | badType | nesting | outOfBlock
  | divisionByZero
  deriving DecidableEq, Repr

/-- The collector, with the log of what has happened to its heap; the log is there to speak about, no function
reads it. -/
structure World where
  gc : GcMs
  log : List Event

/-- The functions of the collector. -/
abbrev GcM := StateT World (Except Stop)

/-- The C library's `calloc`: for a number of bytes, an address that no block in use has.  Memory does
not run out; `internal_alloc` writes the header before it tests for that. -/
structure Calloc where
  pick : List Event → List Addr → (bytes : ℕ) → Addr
  fresh : ∀ log blocks bytes, pick log blocks bytes ∉ blocks

/-- `sizeof(void *)`. -/
def ptrSize : ℕ := 8

/-- `sizeof(meta_obj_type)`, which is padded. -/
def sizeofMetaObj : ℕ := 32

/-- `OBJECT_OFFSET`: the object begins right behind its type. -/
def objectOffset : ℕ := 28

/-- The collector as it stands. -/
def getGc : GcM GcMs := return (← get).gc

/-- A change of the collector; the log stays as it is. -/
def modifyGc (f : GcMs → GcMs) : GcM Unit := modify fun w => { w with gc := f w.gc }

/-- An event is put in front of the log. -/
def logEvent (e : Event) : GcM Unit := modify fun w => { w with log := e :: w.log }

/-- Every block of the collector is on one of its lists. -/
def GcMs.blocks (g : GcMs) : List Addr := g.activeList ++ g.deadList ++ g.permList

/-- Follow a pointer to a block. -/
def load (a : Addr) : GcM MetaObj := do
  let g ← getGc
  if a ∈ g.blocks then pure (g.heap a) else throw .useAfterFree

/-- Read the pointer at `offset` of an object. -/
def loadPtr (a : Addr) (offset : ℕ) : GcM (Option Addr) := do
  let o ← load a
  if objectOffset + offset + ptrSize ≤ o.block then pure (o.slots offset) else throw .outOfBlock

/-- Write back a block. -/
def GcMs.put (g : GcMs) (a : Addr) (o : MetaObj) : GcMs :=
  { g with heap := Function.update g.heap a o }

/-! ## Types

A type is a number, and `register` only ever adds to the list behind it, so that the number of an object goes on
to mean what it meant when the object was made. -/

/-- `gc_register_type`. -/
def gcRegisterType (size : ℕ) : GcM ℕ := do
  let newType := (← getGc).typeDefs.length
  modifyGc fun g => { g with typeDefs := g.typeDefs ++ [{ size, rootList := [] }] }
  pure newType

/-- The common body of `gc_register_pointer` and `gc_register_array`. -/
def registerPtr (kind : PtrKind) (type offset : ℕ) : GcM Unit :=
  modifyGc fun g => { g with
    typeDefs := g.typeDefs.modify type fun d =>
      { d with rootList := { type := kind, offset } :: d.rootList } }

/-- `gc_register_pointer`. -/
def gcRegisterPointer (type offset : ℕ) : GcM Unit := registerPtr .ptr type offset

/-- `gc_register_array`. -/
def gcRegisterArray (type offset : ℕ) : GcM Unit := registerPtr .array type offset

/-- The zeroed `gc_ms` that `gc_create` starts from, and the memory it finds. -/
def zeroed (cellSize : ℕ) (vars : Var → Option Addr) (heap : Addr → MetaObj) : GcMs where
  heap := heap
  activeList := []
  deadList := []
  permList := []
  rootList := []
  vars := vars
  typeDefs := []
  cellSize := cellSize
  protectCount := 0
  currentMark := .red
  arrayType := 0

/-- `gc_create`, on the zeroed block. -/
def gcCreate : GcM Unit := do
  let arrayType ← gcRegisterType ptrSize
  modifyGc fun g => { g with arrayType }
  gcRegisterArray arrayType 0

/-! ## Marking

The recursion of `mark_graph` is over the depth `n`, for which the C stack stands.  Fields are handed their
continuation `next` as an argument, so that what happens at one object can be said without the recursion. -/

/-- `mark_object`. -/
def markObject (a : Addr) (mark : Mark) : GcM Unit := do
  let o ← load a
  if o.mark = .perm then pure () else modifyGc (·.put a { o with mark })

/-- The `switch` in `mark_graph`: hand the pointers of one registered field to `next`. -/
def markField (next : Option Addr → GcM Unit) (a : Addr) (o : MetaObj) (p : PtrDef) : GcM Unit :=
  match p.type with
  | .ptr => do next (← loadPtr a p.offset)
  | .array => do
    let g ← getGc
    match g.typeDefs[g.arrayType]? with
    | none => throw .badType
    | some arrayDef => (List.range (o.size / arrayDef.size)).forM fun size => do
      next (← loadPtr a (p.offset + ptrSize * size))

/-- The `root_list` loop of `mark_graph`. -/
def markFields (next : Option Addr → GcM Unit) (a : Addr) (o : MetaObj) : GcM Unit := do
  if o.typeDef ≥ 0 then
    match (← getGc).typeDefs[o.typeDef.toNat]? with
    | none => throw .badType
    | some d => d.rootList.forM (markField next a o)
  else
    pure ()

/-- `mark_graph`, to a depth of `n` objects. -/
def markGraph : ℕ → Option Addr → Mark → GcM Unit
  | _, none, _ => pure ()
  | 0, some _, _ => throw .marking
  | n + 1, some a, mark => do
    let o ← load a
    if o.mark = mark then
      pure ()
    else if o.mark = .dead then
      throw .activeObjectInDeadList
    else
      markObject a mark
      markFields (fun p => markGraph n p mark) a o

/-- `mark_list`. -/
def markList (n : ℕ) (list : List Addr) (mark : Mark) : GcM Unit :=
  list.forM fun a => markGraph n (some a) mark

/-- `mark_root`. -/
def markRoot (n : ℕ) (list : List Var) (mark : Mark) : GcM Unit :=
  list.forM fun v => do markGraph n ((← getGc).vars v) mark

/-! ## Sweeping

The functions call one another in a circle: `sweep`, `pre_alloc`, `gc_alloc`, `internal_alloc` and `sweep`
again, besides `gc_unprotect`.  Each of them takes the sweep that it calls as an argument, and the knot is tied
in `sweep`, which bounds how deep it nests. -/

/-- The loop of `sweep_list`: the rest of the active list, the new active list, the dead list. -/
def sweepLoop (mark : Mark) (cellSize : ℕ) :
    List Addr → (newActive dead : List Addr) → (heap : Addr → MetaObj) →
      List Addr × List Addr × (Addr → MetaObj)
  | [], newActive, dead, heap => (newActive, dead, heap)
  | a :: next, newActive, dead, heap =>
    if (heap a).mark = mark then
      sweepLoop mark cellSize next (a :: newActive) dead heap
    else if (heap a).size = cellSize then
      sweepLoop mark cellSize next newActive (a :: dead)
        (Function.update heap a { heap a with mark := .dead })
    else
      sweepLoop mark cellSize next newActive dead heap

/-- `sweep_list`. -/
def sweepList (mark : Mark) : GcM Unit := do
  let g ← getGc
  if g.protectCount ≠ 0 then
    pure ()
  else
    let (activeList, deadList, heap) := sweepLoop mark g.cellSize g.activeList [] g.deadList g.heap
    modifyGc fun g => { g with activeList, deadList, heap }

/-- `set_next_mark`. -/
def setNextMark : GcM Mark := do
  let g ← getGc
  let mark : Mark := if g.currentMark = .red then .black else .red
  modifyGc fun g => { g with currentMark := mark }
  pure mark

section Nested

variable (C : Calloc) (n : ℕ)

/-- `gc_protect`. -/
def gcProtect : GcM Unit := modifyGc fun g => { g with protectCount := g.protectCount + 1 }

/-- `gc_unprotect`, calling `sweep`. -/
def gcUnprotectWith (sweep : GcM Unit) : GcM Unit := do
  modifyGc fun g => { g with protectCount := g.protectCount - 1 }
  let g ← getGc
  if g.protectCount < 0 then
    throw .assertion
  else if g.protectCount = 0 ∧ g.deadList = [] then
    sweep
  else
    pure ()

/-- A zeroed block: `calloc`, or `bzero` on a recycled cell. -/
def zeroedObj : MetaObj where
  mark := .red
  size := 0
  typeDef := 0
  block := 0
  slots := fun _ => none

/-- `real_size` of `internal_alloc`, a `size_t`. -/
def realSize (size : ℕ) : ℕ := (sizeofMetaObj + size) % 2 ^ 64

/-- `size_granularity`, which `gc_create` computes from the cell size. -/
def GcMs.sizeGranularity (g : GcMs) : ℕ := realSize g.cellSize

/-- What `gc_malloc` makes of a size: up to the next multiple of the granularity, as a `size_t`. -/
def GcMs.mallocSize (g : GcMs) (size : ℕ) : ℕ :=
  (size + (g.sizeGranularity - size % g.sizeGranularity)) % 2 ^ 64

/-- The `MALLOC` of `internal_alloc`: a block and its bytes.  The header is written into it whatever
it came to. -/
def mallocBlock (size : ℕ) : GcM (Addr × ℕ) := do
  let w ← get
  if w.gc.sizeGranularity = 0 then
    throw .divisionByZero
  else
    let bytes := w.gc.mallocSize (realSize size)
    if bytes < objectOffset then throw .outOfBlock else pure (C.pick w.log w.gc.blocks bytes, bytes)

/-- The block `internal_alloc` is going to use, with its bytes: the head of the dead list for a cell,
if there is one, and else a new one. -/
def takeBlock (size : ℕ) : GcM (Addr × ℕ) := do
  let g ← getGc
  match g.deadList with
  | a :: deadList =>
    if size = g.cellSize then
      modifyGc fun g => { g with deadList }
      pure (a, (g.heap a).block)
    else
      mallocBlock C size
  | [] => mallocBlock C size

/-- Hang a block on the active or the permanent list. -/
def GcMs.attach (g : GcMs) (perm : Bool) (a : Addr) (o : MetaObj) : GcMs :=
  if perm then
    { g.put a { o with mark := .perm } with permList := a :: g.permList }
  else
    { g.put a { o with mark := g.currentMark } with activeList := a :: g.activeList }

/-- The end of `internal_alloc`: take a block and hang it on its list. -/
def newObject (perm : Bool) (size : ℕ) : GcM Addr := do
  let before ← getGc
  let (a, block) ← takeBlock C size
  logEvent (.handed before a)
  modifyGc fun g => g.attach perm a { zeroedObj with size, block }
  pure a

/-- `internal_alloc`, calling `sweep`. -/
def internalAllocWith (sweep : GcM Unit) (perm : Bool) (size : ℕ) : GcM Addr := do
  let g ← getGc
  if size = g.cellSize ∧ g.deadList = [] then
    sweep
  newObject C perm size

/-- `meta->type_def = type`, on an object just allocated. -/
def setType (a : Addr) (typeDef : ℤ) : GcM Unit := modifyGc fun g =>
  g.put a { g.heap a with typeDef }

/-- What the three allocation functions do, calling `sweep`. -/
def allocWith (sweep : GcM Unit) (perm : Bool) (size : ℕ) (typeDef : ℤ) : GcM Addr := do
  let a ← internalAllocWith C sweep perm size
  setType a typeDef
  pure a

/-- `gc_alloc`, calling `sweep`: the object is untyped. -/
def gcAllocWith (sweep : GcM Unit) (perm : Bool) (size : ℕ) : GcM Addr :=
  allocWith C sweep perm size (-1)

/-- How many cells `pre_alloc` makes. -/
def preAllocCells : ℕ := 1000

/-- `pre_alloc`, calling `sweep`. -/
def preAllocWith (sweep : GcM Unit) : GcM Unit := do
  gcProtect
  (List.range preAllocCells).forM fun _ => do
    let _ ← gcAllocWith C sweep false (← getGc).cellSize
  gcUnprotectWith sweep
  sweep

/-- The part of `sweep` between its two tests of the lists. -/
def markAndSweep : GcM Unit := do
  let before ← getGc
  let mark ← setNextMark
  markList n before.permList mark
  markRoot n before.rootList mark
  sweepList mark
  logEvent (.swept before (← getGc))

/-- `sweep`.  It nests through `pre_alloc`; `depth` bounds how deep. -/
def sweep : (depth : ℕ) → GcM Unit
  | 0 => throw .nesting
  | depth + 1 => do
    if (← getGc).protectCount ≠ 0 then
      pure ()
    else
      markAndSweep n
      if (← getGc).deadList = [] then
        preAllocWith C (sweep depth)
      else
        pure ()

/-- How deep the sweeps may nest. -/
def sweepDepth : ℕ := 2

/-- `gc_sweep`. -/
def gcSweep : GcM Unit := sweep C n sweepDepth

/-- `gc_unprotect`. -/
def gcUnprotect : GcM Unit := gcUnprotectWith (gcSweep C n)

/-- `gc_alloc`. -/
def gcAlloc (perm : Bool) (size : ℕ) : GcM Addr := gcAllocWith C (gcSweep C n) perm size

/-- `gc_alloc_type`. -/
def gcAllocType (perm : Bool) (type : ℕ) : GcM Addr := do
  match (← getGc).typeDefs[type]? with
  | none => throw .badType
  | some d => allocWith C (gcSweep C n) perm d.size type

/-- `gc_alloc_pointer_array`; the size is a `size_t`. -/
def gcAllocPointerArray (perm : Bool) (cells : ℕ) : GcM Addr := do
  let g ← getGc
  match g.typeDefs[g.arrayType]? with
  | none => throw .badType
  | some d => allocWith C (gcSweep C n) perm (d.size * cells % 2 ^ 64) g.arrayType

end Nested

/-! ## Roots and permanent objects

Both lists are walked by the same loop, which takes off the first element it finds; an element that is not there
ends it at a null pointer. -/

/-- The loop both `gc_unregister_root` and `gc_de_perm` take an element off their list with: the
first one that is sought, or else the last. -/
def unlink (sought : ℕ) : List ℕ → Option (ℕ × List ℕ)
  | [] => none
  | [a] => some (a, [])
  | a :: b :: next =>
    if a = sought then some (a, b :: next)
    else (unlink sought (b :: next)).map fun r => (r.1, a :: r.2)

/-- `gc_register_root`. -/
def gcRegisterRoot (root : Var) : GcM Unit :=
  modifyGc fun g => { g with rootList := root :: g.rootList }

/-- `gc_unregister_root`. -/
def gcUnregisterRoot (root : Var) : GcM Unit := do
  match unlink root (← getGc).rootList with
  | none => throw .useAfterFree
  | some (found, rootList) =>
    if found = root then modifyGc fun g => { g with rootList } else throw .assertion

/-- `gc_de_perm`. -/
def gcDePerm (obj : Addr) : GcM Unit := do
  let o ← load obj
  if o.mark ≠ .perm then
    pure ()
  else
    modifyGc fun g => g.put obj { o with mark := g.currentMark }
    match unlink obj (← getGc).permList with
    | none => throw .useAfterFree
    | some (found, permList) =>
      modifyGc fun g => { g with permList, activeList := found :: g.activeList }

/-! ## Calls of the collector

What a program may do, as one type, so that a run is a list of these and an invariant needs one case for each. -/

/-- Where a program keeps a pointer: in a variable or in a field of an object. -/
inductive Place
  | var (v : Var)
  | field (obj : Addr) (offset : ℕ)

/-- Store a pointer. -/
def store : Place → Option Addr → GcM Unit
  | .var v, p => modifyGc fun g => { g with vars := Function.update g.vars v p }
  | .field a offset, p => do
    let o ← load a
    if objectOffset + offset + ptrSize ≤ o.block then
      modifyGc fun g => g.put a { o with slots := Function.update o.slots offset p }
    else
      throw .outOfBlock

/-- What a program does with the collector; an allocation stores its result through `ret`. -/
inductive Op
  | registerType (size : ℕ)
  | registerPointer (type offset : ℕ)
  | registerArray (type offset : ℕ)
  | registerRoot (root : Var)
  | unregisterRoot (root : Var)
  | alloc (perm : Bool) (size : ℕ) (ret : Place)
  | allocType (perm : Bool) (type : ℕ) (ret : Place)
  | allocPointerArray (perm : Bool) (cells : ℕ) (ret : Place)
  | write (place : Place) (p : Option Addr)
  | dePerm (obj : Addr)
  | protect
  | unprotect
  | sweep

/-- The call, with mark phases that go `n` objects deep. -/
def exec (C : Calloc) (n : ℕ) : Op → GcM Unit
  | .registerType size => do let _ ← gcRegisterType size
  | .registerPointer type offset => gcRegisterPointer type offset
  | .registerArray type offset => gcRegisterArray type offset
  | .registerRoot root => gcRegisterRoot root
  | .unregisterRoot root => gcUnregisterRoot root
  | .alloc perm size ret => do store ret (some (← gcAlloc C n perm size))
  | .allocType perm type ret => do store ret (some (← gcAllocType C n perm type))
  | .allocPointerArray perm cells ret => do
    store ret (some (← gcAllocPointerArray C n perm cells))
  | .write place p => store place p
  | .dePerm obj => gcDePerm obj
  | .protect => gcProtect
  | .unprotect => gcUnprotect C n
  | .sweep => gcSweep C n

end Insomniac.Gc

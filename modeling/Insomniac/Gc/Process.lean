import Insomniac.Gc.Heap
import Insomniac.Machinery.Run
import Mathlib.Data.List.Nodup
import Mathlib.Data.List.Perm.Subperm

/-!
# Gc/Process — the type ids of the components, over several collectors

A type id is an index into `type_defs` of one collector.  The components keep their ids in static
variables, which all collectors of the process share:

    hash, assembler, compiler:   register once in the process, on the first collector they are used on
    buffer:                      registers anew for every buffer

`Good` is what holds while each of the former stays on one collector and no collector gets a second
buffer; the first step that leaves this uses a wrong id or registers a type twice (`execAll_typed`).
-/

open Run

namespace Insomniac.Gc

/-! ## The structs and their layout

The ids are compared by what is registered under them, so each struct has its size and the offsets of its
pointers here.  Two ids of one collector may be confused without harm only where the layouts are the same; apart
from two kinds of nodes none are. -/

/-- The structs that the components allocate by type. -/
inductive Struct
  | hashInternal | keyValue | hashIterator | bufferInternal | block | jump | debugInfo | debugState
  | compilerCore | insStream | nodeLiteral | nodeSingle | nodeDouble
  deriving DecidableEq, Repr

/-- The groups of types that are registered together. -/
inductive Family
  | hash | buffer | jump | debugInfo | debugState | compiler
  deriving DecidableEq, Repr

/-- The types of a family, in the order they are registered. -/
def Family.structs : Family → List Struct
  | hash => [.hashInternal, .keyValue, .hashIterator]
  | buffer => [.bufferInternal, .block]
  | jump => [.jump]
  | debugInfo => [.debugInfo]
  | debugState => [.debugState]
  | compiler => [.compilerCore, .insStream, .nodeLiteral, .nodeSingle, .nodeDouble]

/-- The family that registers a type. -/
def Struct.family : Struct → Family
  | hashInternal | keyValue | hashIterator => .hash
  | bufferInternal | block => .buffer
  | jump => .jump
  | debugInfo => .debugInfo
  | debugState => .debugState
  | compilerCore | insStream | nodeLiteral | nodeSingle | nodeDouble => .compiler

/-- `sizeof`, on a machine with pointers of eight bytes and a `PATH_MAX` of 4096. -/
def Struct.size : Struct → ℕ
  | hashInternal => 56
  | keyValue => 24
  | hashIterator => 16
  | bufferInternal => 40
  | block => 4104
  | jump => 32
  | debugInfo => 24
  | debugState => 40
  | compilerCore => 4224
  | insStream => 16
  | nodeLiteral | nodeSingle | nodeDouble => 56

/-- The `offsetof` of the registered pointers, in the order they are registered. -/
def Struct.pointers : Struct → List ℕ
  | hashInternal => [24]
  | keyValue => [0, 8, 16]
  | hashIterator => [8]
  | bufferInternal => [8]
  | block => [4096]
  | jump => [0, 24]
  | debugInfo => [0, 8]
  | debugState => [0, 32]
  | compilerCore => [4216, 4192]
  | insStream => [0]
  | nodeLiteral | nodeSingle => [24, 8, 48]
  | nodeDouble => [24, 8, 16, 48]

/-- **The size and the pointer layout** of a struct, as a type of a collector. -/
def Struct.layout (S : Struct) : TypeDef where
  size := S.size
  rootList := (S.pointers.map fun offset => { type := .ptr, offset }).reverse

/-- The common body of the functions that register a type (`register_hashtable`, `create_buffer_type`,
`register_stream_type` and the others). -/
def registerStruct (S : Struct) : GcM ℕ := do
  let type ← gcRegisterType S.size
  S.pointers.forM (gcRegisterPointer type)
  pure type

/-- The last element of a list is the one that its length without it names. -/
theorem modify_length_append {α : Type} (f : α → α) (d : α) : ∀ l : List α,
    (l ++ [d]).modify l.length f = l ++ [f d]
  | [] => rfl
  | a :: l => congrArg (a :: ·) (modify_length_append f d l)

/-- **Registering a struct** appends its layout to the types of the collector. -/
theorem registerStruct_run (S : Struct) (g : GcMs) : registerStruct S ⟨g, []⟩ =
    .ok (g.typeDefs.length, ⟨{ g with typeDefs := g.typeDefs ++ [S.layout] }, []⟩) := by
  have hloop : ∀ (l : List ℕ) (d : TypeDef),
      l.forM (gcRegisterPointer g.typeDefs.length) ⟨{ g with typeDefs := g.typeDefs ++ [d] }, []⟩ =
        .ok ((), ⟨{ g with typeDefs := g.typeDefs ++
          [{ d with rootList := (l.map fun offset => { type := .ptr, offset }).reverse ++ d.rootList }] }, []⟩) := by
    intro l
    induction l with
    | nil => exact fun d => rfl
    | cons o l ih =>
      intro d
      have hone : gcRegisterPointer g.typeDefs.length o ⟨{ g with typeDefs := g.typeDefs ++ [d] }, []⟩ =
          .ok ((), ⟨{ g with typeDefs := g.typeDefs ++
            [{ d with rootList := { type := .ptr, offset := o } :: d.rootList }] }, []⟩) := by
        have hmodify := modify_length_append (fun d : TypeDef =>
          { d with rootList := { type := .ptr, offset := o } :: d.rootList }) d g.typeDefs
        exact congrArg (fun t => Except.ok ((), (⟨{ g with typeDefs := t }, []⟩ : World))) hmodify
      refine (run_bind hone).trans ((ih _).trans ?_)
      simp
  refine (run_bind rfl).trans ((run_bind (hloop S.pointers ⟨S.size, []⟩)).trans ?_)
  rw [List.append_nil]
  rfl

/-- Different structs have different layouts, but for the two nodes with one stream or literal. -/
theorem family_of_layout {S S' : Struct} (h : S.layout = S'.layout) : S.family = S'.family := by
  cases S <;> cases S' <;> first | rfl | (exact absurd h (by decide))

/-- The type of the arrays, which `gc_create` registers. -/
def arrayLayout : TypeDef := { size := ptrSize, rootList := [{ type := .array, offset := 0 }] }

/-- No struct has the layout of the arrays, so an array type is never taken for one. -/
theorem layout_ne_array (S : Struct) : S.layout ≠ arrayLayout := by
  cases S <;> decide

/-! ## The process

One value for the whole process, since the static variables of the components belong to it and not to a
collector.  Every `gc_alloc_type` is put in a log with the types of its collector, and a right id is a statement
about that log. -/

/-- What a hash table keeps of the types. -/
structure Table where
  gc : ℕ
  keyValue : ℕ

/-- What a buffer keeps of the types. -/
structure Buf where
  gc : ℕ
  blockGcType : ℕ

/-- `node_type`. -/
inductive NodeType
  | streamLiteral | streamSymbol | streamString | streamOp | streamQuoted | streamLoad | streamAsm
  | streamAsmStream | streamBind | streamStore | streamLetStar | streamTwoArg | streamIf | streamCond
  | streamMath | streamRecordType | streamAnd | streamOr | streamLambda | streamCall
  deriving DecidableEq, Repr

/-- The type that `compiler_create` gives to the nodes of a kind. -/
def NodeType.struct : NodeType → Struct
  | streamLiteral | streamSymbol | streamString | streamOp => .nodeLiteral
  | streamQuoted | streamLoad | streamAsm | streamAsmStream | streamCond | streamAnd | streamOr
  | streamRecordType => .nodeSingle
  | streamBind | streamStore | streamLetStar | streamTwoArg | streamIf | streamMath | streamLambda
  | streamCall => .nodeDouble

/-- What a compiler keeps of the types. -/
structure Compiler where
  gc : ℕ
  streamGcType : ℕ
  nodeTypes : NodeType → ℕ

/-- A call of `gc_alloc_type`: the types of the collector, the id, and the struct to be allocated. -/
structure Alloc where
  types : List TypeDef
  type : ℕ
  struct : Struct

/-- **The id is that of the struct**, on the collector it is used on. -/
def Alloc.Right (e : Alloc) : Prop := e.types[e.type]? = some e.struct.layout

/-- The process: its collectors, the static variables of the components, what has been created, and a log of
the types registered and of the objects allocated.  `ids` are the variables that hold a type id, one for
each struct. -/
structure Process where
  collectors : List GcMs := []
  ids : Struct → ℕ := fun _ => 0
  jumpInit : Bool := false
  bufferInit : Bool := false
  tables : List Table := []
  buffers : List Buf := []
  compilers : List Compiler := []
  registered : List (ℕ × Struct) := []
  allocated : List Alloc := []

namespace Process

/-- Register a type and keep its id. -/
def register (p : Process) (gc : ℕ) (S : Struct) : Option Process := do
  let g ← p.collectors[gc]?
  match registerStruct S ⟨g, []⟩ with
  | .error _ => none
  | .ok (type, w) => some { p with
      collectors := p.collectors.set gc w.gc
      ids := Function.update p.ids S type
      registered := p.registered ++ [(gc, S)] }

/-- The guard in front of a registration. -/
def unset (p : Process) : Family → Bool
  | .hash => p.ids .hashInternal = 0
  | .buffer => !p.bufferInit
  | .jump => !p.jumpInit
  | .debugInfo => p.ids .debugInfo = 0
  | .debugState => p.ids .debugState = 0
  | .compiler => p.ids .compilerCore = 0

/-- Register the types of a family, unless the guard says that this is done.  Only `asm_jump` sets an `init`
of its own. -/
def ensure (p : Process) (gc : ℕ) (family : Family) : Option Process :=
  if p.unset family then
    let p := if family = .jump then { p with jumpInit := true } else p
    family.structs.foldlM (fun p S => p.register gc S) p
  else some p

/-- `gc_alloc_type`. -/
def allocType (p : Process) (gc type : ℕ) (S : Struct) : Option Process := do
  let g ← p.collectors[gc]?
  pure { p with allocated := p.allocated ++ [{ types := g.typeDefs, type, struct := S }] }

/-- `gc_create`. -/
def gcCreate (p : Process) (cellSize : ℕ) : Option Process :=
  match Gc.gcCreate ⟨zeroed cellSize (fun _ => none) (fun _ => zeroedObj), []⟩ with
  | .error _ => none
  | .ok (_, w) => some { p with collectors := p.collectors ++ [w.gc] }

/-- `hash_create`. -/
def hashCreate (p : Process) (gc : ℕ) : Option Process := do
  let p ← p.ensure gc .hash
  let p ← p.allocType gc (p.ids .hashInternal) .hashInternal
  pure { p with tables := p.tables ++ [{ gc, keyValue := p.ids .keyValue }] }

/-- `hash_cow`. -/
def hashCow (p : Process) (gc src : ℕ) : Option Process := do
  let table ← p.tables[src]?
  let p ← p.allocType gc (p.ids .hashInternal) .hashInternal
  pure { p with tables := p.tables ++ [table] }

/-- The allocation of an entry in `hash_find`. -/
def hashFind (p : Process) (table : ℕ) : Option Process := do
  let table ← p.tables[table]?
  p.allocType table.gc table.keyValue .keyValue

/-- The allocation of an iterator in `hash_next`. -/
def hashNext (p : Process) (table : ℕ) : Option Process := do
  let table ← p.tables[table]?
  p.allocType table.gc (p.ids .hashIterator) .hashIterator

/-- `buffer_create`. -/
def bufferCreate (p : Process) (gc : ℕ) : Option Process := do
  let p ← p.ensure gc .buffer
  let p ← p.allocType gc (p.ids .bufferInternal) .bufferInternal
  let p ← p.allocType gc (p.ids .block) .block
  pure { p with buffers := p.buffers ++ [{ gc, blockGcType := p.ids .block }] }

/-- `buffer_push`. -/
def bufferPush (p : Process) (buf : ℕ) : Option Process := do
  let buf ← p.buffers[buf]?
  p.allocType buf.gc buf.blockGcType .block

/-- `asm_jump`. -/
def asmJump (p : Process) (gc : ℕ) : Option Process := do
  let p ← p.ensure gc .jump
  p.allocType gc (p.ids .jump) .jump

/-- The debug information of `asm_string`, with `get_debug_info_def`. -/
def debugInfo (p : Process) (gc : ℕ) : Option Process := do
  let p ← p.ensure gc .debugInfo
  p.allocType gc (p.ids .debugInfo) .debugInfo

/-- The record of `push_debug`, with `get_debug_state_def`. -/
def pushDebug (p : Process) (gc : ℕ) : Option Process := do
  let p ← p.ensure gc .debugState
  p.allocType gc (p.ids .debugState) .debugState

/-- `compiler_create`. -/
def compilerCreate (p : Process) (gc : ℕ) : Option Process := do
  let p ← p.ensure gc .compiler
  let p ← p.allocType gc (p.ids .compilerCore) .compilerCore
  let compiler : Compiler :=
    { gc, streamGcType := p.ids .insStream, nodeTypes := fun type => p.ids type.struct }
  let p ← p.allocType gc compiler.streamGcType .insStream
  pure { p with compilers := p.compilers ++ [compiler] }

/-- `stream_create`. -/
def streamCreate (p : Process) (compiler : ℕ) : Option Process := do
  let compiler ← p.compilers[compiler]?
  p.allocType compiler.gc compiler.streamGcType .insStream

/-- `stream_alloc_node`. -/
def streamAllocNode (p : Process) (compiler : ℕ) (type : NodeType) : Option Process := do
  let compiler ← p.compilers[compiler]?
  p.allocType compiler.gc (compiler.nodeTypes type) type.struct

/-- What a process does with its collectors; tables, buffers and compilers are named in the order they were
created in. -/
inductive Op
  | gcCreate (cellSize : ℕ)
  | hashCreate (gc : ℕ)
  | hashCow (gc src : ℕ)
  | hashFind (table : ℕ)
  | hashNext (table : ℕ)
  | bufferCreate (gc : ℕ)
  | bufferPush (buf : ℕ)
  | asmJump (gc : ℕ)
  | debugInfo (gc : ℕ)
  | pushDebug (gc : ℕ)
  | compilerCreate (gc : ℕ)
  | streamCreate (compiler : ℕ)
  | streamAllocNode (compiler : ℕ) (type : NodeType)

/-- One call. -/
def exec (p : Process) : Op → Option Process
  | .gcCreate cellSize => p.gcCreate cellSize
  | .hashCreate gc => p.hashCreate gc
  | .hashCow gc src => p.hashCow gc src
  | .hashFind table => p.hashFind table
  | .hashNext table => p.hashNext table
  | .bufferCreate gc => p.bufferCreate gc
  | .bufferPush buf => p.bufferPush buf
  | .asmJump gc => p.asmJump gc
  | .debugInfo gc => p.debugInfo gc
  | .pushDebug gc => p.pushDebug gc
  | .compilerCreate gc => p.compilerCreate gc
  | .streamCreate compiler => p.streamCreate compiler
  | .streamAllocNode compiler type => p.streamAllocNode compiler type

/-- **Ids belong to their collector, and types are registered once on it.** -/
def Typed (p : Process) : Prop := (∀ e ∈ p.allocated, e.Right) ∧ p.registered.Nodup

/-- The types of the family have been registered on no other collector. -/
def AtHome (p : Process) (family : Family) (gc : ℕ) : Prop :=
  ∀ r ∈ p.registered, r.2.family = family → r.1 = gc

/-- **A step that keeps to the collectors**: no component but the buffers is used on a second collector, and
no collector gets a second buffer. -/
def Keeps (p : Process) : Op → Prop
  | .hashCreate gc | .hashCow gc _ => p.AtHome .hash gc
  | .bufferCreate gc => (gc, Struct.bufferInternal) ∉ p.registered
  | .asmJump gc => p.AtHome .jump gc
  | .debugInfo gc => p.AtHome .debugInfo gc
  | .pushDebug gc => p.AtHome .debugState gc
  | .compilerCreate gc => p.AtHome .compiler gc
  | _ => True

/-- Some calls, one after the other. -/
def execAll (p : Process) (ops : List Op) : Option Process := ops.foldlM exec p

/-- Every step keeps to the collectors. -/
def KeepsAll : Process → List Op → Prop
  | _, [] => True
  | p, op :: ops => p.Keeps op ∧ ∀ p', p.exec op = some p' → KeepsAll p' ops

/-! ## Registering

The ids of a family are given one after the other, each the length of the list of types at that moment, so that
a family registers its structs in a row at the end. -/

section Register

variable {p p' : Process} {gc : ℕ} {g : GcMs} {S : Struct} {Ss : List Struct}

/-- A registration appends one type and keeps its id. -/
theorem register_eq (hg : p.collectors[gc]? = some g) : p.register gc S = some { p with
    collectors := p.collectors.set gc { g with typeDefs := g.typeDefs ++ [S.layout] }
    ids := Function.update p.ids S g.typeDefs.length
    registered := p.registered ++ [(gc, S)] } := by
  simp only [register, hg, Option.bind_eq_bind, Option.bind_some, registerStruct_run]

/-- **Some types have been registered** on the collector `gc`, which was `g`. -/
structure Registers (p p' : Process) (gc : ℕ) (g : GcMs) (Ss : List Struct) : Prop where
  collectors : p'.collectors = p.collectors.set gc { g with typeDefs := g.typeDefs ++ Ss.map Struct.layout }
  others : ∀ S ∉ Ss, p'.ids S = p.ids S
  ids : ∀ S ∈ Ss, g.typeDefs.length ≤ p'.ids S ∧
    (g.typeDefs ++ Ss.map Struct.layout)[p'.ids S]? = some S.layout
  registered : p'.registered = p.registered ++ Ss.map (gc, ·)
  jumpInit : p'.jumpInit = p.jumpInit
  bufferInit : p'.bufferInit = p.bufferInit
  tables : p'.tables = p.tables
  buffers : p'.buffers = p.buffers
  compilers : p'.compilers = p.compilers
  allocated : p'.allocated = p.allocated

/-- A family is registered by registering its structs in a row. -/
theorem registers_of_nodup : ∀ {Ss : List Struct} {p : Process} {g : GcMs}, Ss.Nodup →
    p.collectors[gc]? = some g →
      ∃ p', Ss.foldlM (fun p S => p.register gc S) p = some p' ∧ Registers p p' gc g Ss
  | [], p, g, _, hg => by
      obtain ⟨hlt, rfl⟩ := List.getElem?_eq_some_iff.mp hg
      refine ⟨p, rfl, ?_, fun _ _ => rfl, fun _ h => absurd h List.not_mem_nil, ?_, rfl, rfl, rfl, rfl, rfl, rfl⟩
      · rw [List.map_nil, List.append_nil]
        exact (List.set_getElem_self hlt).symm
      · rw [List.map_nil, List.append_nil]
  | S :: Ss, p, g, hnodup, hg => by
      obtain ⟨hS, hnodup⟩ := List.nodup_cons.mp hnodup
      have hlt := (List.getElem?_eq_some_iff.mp hg).1
      obtain ⟨p', hrun, h⟩ := registers_of_nodup (g := { g with typeDefs := g.typeDefs ++ [S.layout] }) (p := { p with
        collectors := p.collectors.set gc { g with typeDefs := g.typeDefs ++ [S.layout] }
        ids := Function.update p.ids S g.typeDefs.length
        registered := p.registered ++ [(gc, S)] }) hnodup (List.getElem?_set_self hlt)
      have htypes : (g.typeDefs ++ [S.layout]) ++ Ss.map Struct.layout =
          g.typeDefs ++ (S :: Ss).map Struct.layout := by simp
      have hids : p'.ids S = g.typeDefs.length := (h.others S hS).trans (Function.update_self ..)
      refine ⟨p', ?_, ?_, fun S' hS' => ?_, fun S' hS' => ?_, ?_, h.jumpInit, h.bufferInit, h.tables, h.buffers,
        h.compilers, h.allocated⟩
      · rw [List.foldlM_cons, register_eq hg]
        exact hrun
      · rw [h.collectors, List.set_set, htypes]
      · rw [h.others S' fun hmem => hS' (List.mem_cons_of_mem _ hmem)]
        exact Function.update_of_ne (List.ne_of_not_mem_cons hS') _ _
      · rcases List.mem_cons.mp hS' with rfl | hS'
        · rw [hids]
          refine ⟨Nat.le_refl _, ?_⟩
          simp
        · obtain ⟨hle, hget⟩ := h.ids S' hS'
          rw [← htypes]
          refine ⟨Nat.le_trans ?_ hle, hget⟩
          simp
      · rw [h.registered]
        simp

end Register

/-! ## While every step keeps to the collectors

`Good` says what the types of each collector are: the array, and then the families registered there in their
order.  An id is right exactly when it was given by that collector, so a guard that another collector has taken
down leaves wrong ids behind. -/

/-- What the registrations make of the types of a collector. -/
def typesOf (registered : List (ℕ × Struct)) (gc : ℕ) : List TypeDef :=
  arrayLayout :: (registered.filter (·.1 = gc)).map fun r => r.2.layout

section TypesOf

variable {registered : List (ℕ × Struct)} {gc c : ℕ} {Ss : List Struct} {S : Struct}

/-- Registrations on a collector add their types to it. -/
theorem typesOf_append_self :
    typesOf (registered ++ Ss.map (gc, ·)) gc = typesOf registered gc ++ Ss.map Struct.layout := by
  have hall : (Ss.map (gc, ·)).filter (·.1 = gc) = Ss.map (gc, ·) :=
    List.filter_eq_self.mpr fun r hr => by
      obtain ⟨S, -, rfl⟩ := List.mem_map.mp hr
      simp
  simp only [typesOf, List.filter_append, hall, List.map_append, List.map_map, List.cons_append]
  rfl

/-- Registrations on another collector add nothing. -/
theorem typesOf_append_other (h : c ≠ gc) :
    typesOf (registered ++ Ss.map (gc, ·)) c = typesOf registered c := by
  have hnone : (Ss.map (gc, ·)).filter (·.1 = c) = [] := List.filter_eq_nil_iff.mpr fun r hr => by
    obtain ⟨S, -, rfl⟩ := List.mem_map.mp hr
    simpa using h.symm
  simp only [typesOf, List.filter_append, hnone, List.append_nil]

/-- Types stay where they are. -/
theorem typesOf_mono {i : ℕ} {d : TypeDef} (h : (typesOf registered c)[i]? = some d) :
    (typesOf (registered ++ Ss.map (gc, ·)) c)[i]? = some d := by
  rcases eq_or_ne c gc with rfl | hc
  · rw [typesOf_append_self, List.getElem?_append_left (List.getElem?_eq_some_iff.mp h).1, h]
  · rw [typesOf_append_other hc, h]

/-- **A layout among the types of a collector** belongs to a family registered on it. -/
theorem registered_of_layout {i : ℕ} (h : (typesOf registered gc)[i]? = some S.layout) :
    ∃ S', (gc, S') ∈ registered ∧ S'.family = S.family := by
  rcases List.mem_cons.mp (List.mem_of_getElem? h) with harray | hmem
  · exact absurd harray (layout_ne_array S)
  · obtain ⟨⟨c, S'⟩, hr, hlayout⟩ := List.mem_map.mp hmem
    obtain ⟨hreg, hc⟩ := List.mem_filter.mp hr
    obtain rfl : c = gc := of_decide_eq_true hc
    exact ⟨S', hreg, family_of_layout hlayout⟩

end TypesOf

/-- A struct is in the family that registers it. -/
theorem mem_structs {S : Struct} {family : Family} : S ∈ family.structs ↔ S.family = family := by
  cases S <;> cases family <;> decide

/-- All structs. -/
def allStructs : List Struct := [Family.hash, .buffer, .jump, .debugInfo, .debugState, .compiler].flatMap Family.structs

/-- Every struct is in the list of all. -/
theorem mem_allStructs (S : Struct) : S ∈ allStructs := by
  cases S <;> decide

/-- No family registers a struct twice. -/
theorem nodup_structs (family : Family) : family.structs.Nodup := by
  cases family <;> decide

/-- **What holds while every step keeps to the collectors.** -/
structure Good (p : Process) : Prop where
  types : ∀ c g, p.collectors[c]? = some g → g.typeDefs = typesOf p.registered c
  valid : ∀ r ∈ p.registered, r.1 < p.collectors.length
  nodup : p.registered.Nodup
  whole : ∀ c S S', (c, S) ∈ p.registered → S'.family = S.family → (c, S') ∈ p.registered
  home : ∀ c c' S S', (c, S) ∈ p.registered → (c', S') ∈ p.registered → S.family = S'.family →
    S.family ≠ .buffer → c = c'
  ids : ∀ c S, (c, S) ∈ p.registered → S.family ≠ .buffer →
    (typesOf p.registered c)[p.ids S]? = some S.layout
  guards : ∀ family, family ≠ .buffer →
    (p.unset family = true ↔ ∀ r ∈ p.registered, r.2.family ≠ family)
  bufferInit : p.bufferInit = false
  tables : ∀ t ∈ p.tables, (t.gc, Struct.keyValue) ∈ p.registered ∧ t.keyValue = p.ids .keyValue
  buffers : ∀ b ∈ p.buffers, (typesOf p.registered b.gc)[b.blockGcType]? = some Struct.block.layout
  compilers : ∀ c ∈ p.compilers, (c.gc, Struct.insStream) ∈ p.registered ∧
    c.streamGcType = p.ids .insStream ∧ ∀ type, c.nodeTypes type = p.ids type.struct
  allocated : ∀ e ∈ p.allocated, e.Right

section Steps

variable {p p' : Process} {gc : ℕ} {g : GcMs} {family : Family}

/-- The guard of another family is not touched. -/
theorem unset_of_other {q q' : Process} (h : Registers q q' gc g family.structs) {other : Family}
    (hother : other ≠ family) : q'.unset other = q.unset other := by
  have hids : ∀ S : Struct, S.family = other → q'.ids S = q.ids S := fun S hS =>
    h.others S fun hmem => hother (hS.symm.trans (mem_structs.mp hmem))
  cases other with
  | hash => simp only [unset, hids .hashInternal rfl]
  | buffer => simp only [unset, h.bufferInit]
  | jump => simp only [unset, h.jumpInit]
  | debugInfo => simp only [unset, hids .debugInfo rfl]
  | debugState => simp only [unset, hids .debugState rfl]
  | compiler => simp only [unset, hids .compilerCore rfl]

/-- The guard of the family is down. -/
theorem unset_of_registers {q q' : Process} (h : Registers q q' gc g family.structs)
    (hpos : 0 < g.typeDefs.length) (hbuffer : family ≠ .buffer) (hjump : family = .jump → q.jumpInit = true) :
    q'.unset family = false := by
  have hids : ∀ S : Struct, S.family = family → q'.ids S ≠ 0 := fun S hS => by
    have hle := (h.ids S (mem_structs.mpr hS)).1
    omega
  cases family with
  | hash => simpa [unset] using hids .hashInternal rfl
  | buffer => exact absurd rfl hbuffer
  | jump => simp [unset, h.jumpInit, hjump rfl]
  | debugInfo => simpa [unset] using hids .debugInfo rfl
  | debugState => simpa [unset] using hids .debugState rfl
  | compiler => simpa [unset] using hids .compilerCore rfl

/-- **Registering a family that is not registered there** (and but for the buffers, nowhere). -/
theorem Good.registers (h : Good p) (hg : p.collectors[gc]? = some g) {q : Process}
    (hq : q = if family = .jump then { p with jumpInit := true } else p)
    (hreg : Registers q p' gc g family.structs)
    (hnew : ∀ r ∈ p.registered, r.2.family = family → family = .buffer ∧ r.1 ≠ gc) :
    Good p' := by
  have hsame : q.collectors = p.collectors ∧ q.ids = p.ids ∧ q.bufferInit = p.bufferInit ∧ q.tables = p.tables ∧
      q.buffers = p.buffers ∧ q.compilers = p.compilers ∧ q.registered = p.registered ∧
      q.allocated = p.allocated ∧ (family ≠ .jump → q.jumpInit = p.jumpInit) ∧
      (family = .jump → q.jumpInit = true) := by
    rw [hq]
    split
    · exact ⟨rfl, rfl, rfl, rfl, rfl, rfl, rfl, rfl, fun hne => absurd ‹_› hne, fun _ => rfl⟩
    · exact ⟨rfl, rfl, rfl, rfl, rfl, rfl, rfl, rfl, fun _ => rfl, fun he => absurd he ‹_›⟩
  obtain ⟨hcoll, hids, hbuf, htables, hbuffers, hcompilers, hregd, halloc, hjump, hjump'⟩ := hsame
  have htypes := h.types gc g hg
  have hlt := (List.getElem?_eq_some_iff.mp hg).1
  have hregistered : p'.registered = p.registered ++ family.structs.map (gc, ·) := hregd ▸ hreg.registered
  have hmem : ∀ {c S}, (c, S) ∈ p'.registered ↔ (c, S) ∈ p.registered ∨ c = gc ∧ S.family = family := by
    intro c S
    rw [hregistered, List.mem_append, List.mem_map]
    refine or_congr_right ⟨?_, ?_⟩
    · rintro ⟨S', hS', he⟩
      cases he
      exact ⟨rfl, mem_structs.mp hS'⟩
    · rintro ⟨rfl, hS⟩
      exact ⟨S, mem_structs.mpr hS, rfl⟩
  have hold : ∀ {c S}, (c, S) ∈ p.registered → S.family ≠ .buffer → S.family ≠ family ∧ p'.ids S = p.ids S := by
    intro c S hr hS
    have hne : S.family ≠ family := fun he => hS (he.trans (hnew _ hr he).1)
    refine ⟨hne, ?_⟩
    rw [hreg.others S fun hmem => hne (mem_structs.mp hmem), hids]
  have hmono : ∀ {c i : ℕ} {d : TypeDef}, (typesOf p.registered c)[i]? = some d → (typesOf p'.registered c)[i]? = some d := by
    intro c i d hi
    rw [hregistered]
    exact typesOf_mono hi
  refine
    { types := fun c g' hc => ?_
      valid := fun r hr => ?_
      nodup := ?_
      whole := fun c S S' hr hS => ?_
      home := fun c c' S S' hr hr' hS hne => ?_
      ids := fun c S hr hS => ?_
      guards := fun other hother => ?_
      bufferInit := hreg.bufferInit.trans (hbuf.trans h.bufferInit)
      tables := fun t ht => ?_
      buffers := fun b hb => ?_
      compilers := fun c hc => ?_
      allocated := fun e he => h.allocated e (by rwa [hreg.allocated, halloc] at he) }
  · rw [hreg.collectors, hcoll] at hc
    rcases eq_or_ne c gc with rfl | hne
    · rw [List.getElem?_set_self hlt] at hc
      cases hc
      rw [hregistered, typesOf_append_self, htypes]
    · rw [List.getElem?_set_ne hne.symm] at hc
      rw [hregistered, typesOf_append_other hne]
      exact h.types c g' hc
  · rw [hreg.collectors, List.length_set, hcoll]
    rcases hmem.mp hr with hr | ⟨hc, -⟩
    · exact h.valid r hr
    · exact hc ▸ hlt
  · rw [hregistered]
    refine List.nodup_append.mpr ⟨h.nodup, (nodup_structs family).map fun _ _ he => (Prod.mk.inj he).2, ?_⟩
    rintro r hr r' hr' rfl
    obtain ⟨S, hS, rfl⟩ := List.mem_map.mp hr'
    exact (hnew _ hr (mem_structs.mp hS)).2 rfl
  · rcases hmem.mp hr with hr | ⟨rfl, hfam⟩
    · exact hmem.mpr (Or.inl (h.whole c S S' hr hS))
    · exact hmem.mpr (Or.inr ⟨rfl, hS.trans hfam⟩)
  · rcases hmem.mp hr with hr | ⟨rfl, hfam⟩ <;> rcases hmem.mp hr' with hr' | ⟨rfl, hfam'⟩
    · exact h.home c c' S S' hr hr' hS hne
    · exact absurd (hS.trans hfam') (hold hr hne).1
    · exact absurd (hS.symm.trans hfam) (hold hr' (hS ▸ hne)).1
    · rfl
  · rcases hmem.mp hr with hr | ⟨rfl, hfam⟩
    · rw [(hold hr hS).2]
      exact hmono (h.ids c S hr hS)
    · rw [hregistered, typesOf_append_self, ← htypes]
      exact (hreg.ids S (mem_structs.mpr hfam)).2
  · rcases eq_or_ne other family with rfl | hne
    · have hpos : 0 < g.typeDefs.length := by
        rw [htypes]
        exact Nat.succ_pos _
      rw [unset_of_registers hreg hpos hother hjump']
      refine iff_of_false (by simp) fun hall => ?_
      obtain ⟨S, hS⟩ : ∃ S, S ∈ other.structs := by cases other <;> exact ⟨_, List.mem_cons_self⟩
      exact hall (gc, S) (hmem.mpr (Or.inr ⟨rfl, mem_structs.mp hS⟩)) (mem_structs.mp hS)
    · have hunset : p'.unset other = p.unset other := by
        rw [unset_of_other hreg hne, hq]
        split
        · cases other <;> first | rfl | exact absurd (Eq.symm ‹_›) hne
        · rfl
      rw [hunset, h.guards other hother]
      refine ⟨fun hall r hr => ?_, fun hall r hr => hall r (hmem.mpr (Or.inl hr))⟩
      rcases hmem.mp hr with hr | ⟨-, hfam⟩
      · exact hall r hr
      · exact fun he => hne (he.symm.trans hfam)
  · rw [hreg.tables, htables] at ht
    obtain ⟨hr, hid⟩ := h.tables t ht
    exact ⟨hmem.mpr (Or.inl hr), hid.trans (hold hr (by decide)).2.symm⟩
  · rw [hreg.buffers, hbuffers] at hb
    exact hmono (h.buffers b hb)
  · rw [hreg.compilers, hcompilers] at hc
    obtain ⟨hr, hid, hnodes⟩ := h.compilers c hc
    refine ⟨hmem.mpr (Or.inl hr), hid.trans (hold hr (by decide)).2.symm, fun type => (hnodes type).trans ?_⟩
    have hnode : type.struct.family = .compiler := by cases type <;> rfl
    exact (hold (h.whole _ _ type.struct hr hnode) (by rw [hnode]; decide)).2.symm

/-- A registration finds its collector. -/
theorem collector_of_ensure (hrun : p.ensure gc family = some p') (hunset : p.unset family = true) :
    ∃ g, p.collectors[gc]? = some g := by
  rw [ensure, if_pos hunset] at hrun
  obtain ⟨S, Ss, hSs⟩ : ∃ S Ss, family.structs = S :: Ss := by cases family <;> exact ⟨_, _, rfl⟩
  rw [hSs, List.foldlM_cons] at hrun
  obtain ⟨p₁, hfirst, -⟩ := Option.bind_eq_some_iff.mp hrun
  obtain ⟨g, hg, -⟩ := Option.bind_eq_some_iff.mp hfirst
  refine ⟨g, hg ▸ ?_⟩
  split <;> rfl

/-- What `ensure` does when the guard is up. -/
theorem ensure_registers (hrun : p.ensure gc family = some p') (hunset : p.unset family = true) :
    ∃ g, p.collectors[gc]? = some g ∧
      Registers (if family = .jump then { p with jumpInit := true } else p) p' gc g family.structs := by
  obtain ⟨g, hg⟩ := collector_of_ensure hrun hunset
  rw [ensure, if_pos hunset] at hrun
  have hg' : (if family = .jump then { p with jumpInit := true } else p).collectors[gc]? = some g := by
    split <;> exact hg
  obtain ⟨p₁, hrun₁, hreg⟩ := registers_of_nodup (nodup_structs family) hg'
  obtain rfl : p₁ = p' := Option.some.inj (hrun₁.symm.trans hrun)
  exact ⟨g, hg, hreg⟩

/-- **A family that stays on its collector** is registered there afterwards, with the ids it keeps. -/
theorem ensure_good (h : Good p) (hrun : p.ensure gc family = some p')
    (hhome : family ≠ .buffer → p.AtHome family gc)
    (hbuffer : family = .buffer → (gc, Struct.bufferInternal) ∉ p.registered) :
    Good p' ∧ ∀ S : Struct, S.family = family → (gc, S) ∈ p'.registered ∧
      (typesOf p'.registered gc)[p'.ids S]? = some S.layout := by
  by_cases hunset : p.unset family = true
  · obtain ⟨g, hg, hreg⟩ := ensure_registers hrun hunset
    have hregistered : p'.registered = p.registered ++ family.structs.map (gc, ·) := by
      rw [hreg.registered]
      split <;> rfl
    have hnew : ∀ r ∈ p.registered, r.2.family = family → family = .buffer ∧ r.1 ≠ gc := by
      intro r hr hfam
      by_cases hbuf : family = .buffer
      · refine ⟨hbuf, fun hgc => hbuffer hbuf ?_⟩
        subst hgc
        exact h.whole r.1 r.2 .bufferInternal hr (hbuf.symm.trans hfam.symm)
      · exact absurd hfam ((h.guards family hbuf).mp hunset r hr)
    refine ⟨h.registers hg rfl hreg hnew, fun S hS => ⟨?_, ?_⟩⟩
    · rw [hregistered]
      exact List.mem_append_right _ (List.mem_map.mpr ⟨S, mem_structs.mpr hS, rfl⟩)
    · rw [hregistered, typesOf_append_self, ← h.types gc g hg]
      exact (hreg.ids S (mem_structs.mpr hS)).2
  · rw [ensure, if_neg hunset] at hrun
    cases hrun
    have hbuf : family ≠ .buffer := by
      rintro rfl
      exact hunset (by simp [unset, h.bufferInit])
    refine ⟨h, fun S hS => ?_⟩
    have hex : ∃ r ∈ p.registered, r.2.family = family := by
      by_contra hnone
      exact hunset ((h.guards family hbuf).mpr fun r hr he => hnone ⟨r, hr, he⟩)
    obtain ⟨⟨c, S'⟩, hr, hfam⟩ := hex
    obtain rfl : c = gc := hhome hbuf _ hr hfam
    have hreg := h.whole c S' S hr (hS.trans hfam.symm)
    exact ⟨hreg, h.ids c S hreg (hS ▸ hbuf)⟩

/-- **On another collector** the ids that are kept are wrong. -/
theorem wrong_of_away (h : Good p) (hbuffer : family ≠ .buffer) (haway : ¬ p.AtHome family gc) {S : Struct}
    (hS : S.family = family) : (typesOf p.registered gc)[p.ids S]? ≠ some S.layout := by
  intro hlayout
  obtain ⟨S', hr', hfam'⟩ := registered_of_layout hlayout
  refine haway fun r hr hfam => ?_
  exact h.home r.1 gc r.2 S' hr hr' (hfam.trans (hfam'.trans hS).symm) (hfam ▸ hbuffer)

/-- Where the guard of a family is down, nothing is registered, even on a collector without the types. -/
theorem ensure_away (h : Good p) (hrun : p.ensure gc family = some p') (hbuffer : family ≠ .buffer)
    (haway : ¬ p.AtHome family gc) : p' = p := by
  have hunset : ¬ p.unset family = true := fun hup =>
    haway fun r hr hfam => absurd hfam ((h.guards family hbuffer).mp hup r hr)
  rw [ensure, if_neg hunset] at hrun
  exact (Option.some.inj hrun).symm

/-- What an allocation puts in the log. -/
theorem allocType_eq {type : ℕ} {S : Struct} (hrun : p.allocType gc type S = some p') :
    ∃ g, p.collectors[gc]? = some g ∧
      p' = { p with allocated := p.allocated ++ [{ types := g.typeDefs, type, struct := S }] } := by
  obtain ⟨g, hg, hp⟩ := Option.bind_eq_some_iff.mp hrun
  exact ⟨g, hg, (Option.some.inj hp).symm⟩

/-- **An allocation with a right id.** -/
theorem allocType_good {type : ℕ} {S : Struct} (h : Good p) (hrun : p.allocType gc type S = some p')
    (hid : (typesOf p.registered gc)[type]? = some S.layout) :
    Good p' ∧ p'.registered = p.registered ∧ p'.ids = p.ids := by
  obtain ⟨g, hg, rfl⟩ := allocType_eq hrun
  refine ⟨{ h with guards := h.guards, allocated := fun e he => ?_ }, rfl, rfl⟩
  rcases List.mem_append.mp he with he | he
  · exact h.allocated e he
  · obtain rfl := List.mem_singleton.mp he
    change g.typeDefs[type]? = _
    rw [h.types gc g hg, hid]

/-- **An allocation with a wrong id.** -/
theorem allocType_wrong {type : ℕ} {S : Struct} (h : Good p) (hrun : p.allocType gc type S = some p')
    (hid : (typesOf p.registered gc)[type]? ≠ some S.layout) : ∃ e ∈ p'.allocated, ¬ e.Right := by
  obtain ⟨g, hg, rfl⟩ := allocType_eq hrun
  refine ⟨_, List.mem_append_right _ List.mem_cons_self, fun hright => hid ?_⟩
  rw [← h.types gc g hg]
  exact hright

end Steps

/-! ## Calls and runs

The logs only grow, so what is wrong once stays wrong; a run is typed at its end exactly if none of its steps
has done it wrong, and a step does exactly if it does not keep to the collectors. -/

section Calls

variable {p p' : Process} {op : Op}

/-- `gc_create` on a process. -/
theorem gcCreate_good (h : Good p) {cellSize : ℕ} (hrun : p.gcCreate cellSize = some p') : Good p' := by
  obtain ⟨g, htypes, rfl⟩ : ∃ g : GcMs, g.typeDefs = [arrayLayout] ∧
      p' = { p with collectors := p.collectors ++ [g] } := ⟨_, rfl, (Option.some.inj hrun).symm⟩
  refine { h with types := fun c g' hc => ?_, valid := fun r hr => ?_, guards := h.guards }
  · rcases Nat.lt_or_ge c p.collectors.length with hlt | hge
    · rw [List.getElem?_append_left hlt] at hc
      exact h.types c g' hc
    · obtain rfl : g' = g := by
        have hmem := List.mem_of_getElem? hc
        rw [List.getElem?_append_right hge] at hc
        exact List.mem_singleton.mp (List.mem_of_getElem? hc)
      have hnone : p.registered.filter (·.1 = c) = [] := List.filter_eq_nil_iff.mpr fun r hr => by
        have := h.valid r hr
        simp only [decide_eq_true_eq]
        omega
      simp only [typesOf, hnone, List.map_nil]
      exact htypes
  · rw [List.length_append]
    exact Nat.lt_add_right _ (h.valid r hr)

/-- **One call that keeps to the collectors.** -/
theorem exec_good (h : Good p) (hkeeps : p.Keeps op) (hrun : p.exec op = some p') : Good p' := by
  -- an allocation behind a registration
  have hensured : ∀ (S : Struct) {gc : ℕ} {p₁ p₂ : Process}, S.family ≠ .buffer → p.AtHome S.family gc →
      p.ensure gc S.family = some p₁ → p₁.allocType gc (p₁.ids S) S = some p₂ →
      Good p₂ ∧ p₂.registered = p₁.registered ∧ p₂.ids = p₁.ids ∧
        ∀ S' : Struct, S'.family = S.family → (gc, S') ∈ p₁.registered ∧
          (typesOf p₁.registered gc)[p₁.ids S']? = some S'.layout := by
    intro S gc p₁ p₂ hne hhome h₁ h₂
    obtain ⟨hgood, hids⟩ := ensure_good h h₁ (fun _ => hhome) fun he => absurd he hne
    obtain ⟨hgood', hreg, hsame⟩ := allocType_good hgood h₂ (hids S rfl).2
    exact ⟨hgood', hreg, hsame, hids⟩
  cases op with
  | gcCreate cellSize => exact gcCreate_good h hrun
  | hashCreate gc =>
    obtain ⟨p₁, h₁, hrun⟩ := Option.bind_eq_some_iff.mp hrun
    obtain ⟨p₂, h₂, hrun⟩ := Option.bind_eq_some_iff.mp hrun
    obtain ⟨hgood, hreg, hsame, hids⟩ := hensured .hashInternal (by decide) hkeeps h₁ h₂
    cases hrun
    refine { hgood with guards := hgood.guards, tables := fun t ht => ?_ }
    rcases List.mem_append.mp ht with ht | ht
    · exact hgood.tables t ht
    · obtain rfl := List.mem_singleton.mp ht
      exact ⟨hreg ▸ (hids .keyValue rfl).1, rfl⟩
  | hashCow gc src =>
    obtain ⟨table, htable, hrun⟩ := Option.bind_eq_some_iff.mp hrun
    obtain ⟨p₁, h₁, hrun⟩ := Option.bind_eq_some_iff.mp hrun
    obtain ⟨hr, -⟩ := h.tables table (List.mem_of_getElem? htable)
    obtain rfl : table.gc = gc := hkeeps _ hr rfl
    have hlead := h.whole _ _ .hashInternal hr rfl
    obtain ⟨hgood, hreg, hsame⟩ := allocType_good h h₁ (h.ids _ _ hlead (by decide))
    obtain ⟨g, -, rfl⟩ := allocType_eq h₁
    cases hrun
    refine { hgood with guards := hgood.guards, tables := fun t ht => ?_ }
    rcases List.mem_append.mp ht with ht | ht
    · exact hgood.tables t ht
    · obtain rfl := List.mem_singleton.mp ht
      exact hgood.tables _ (List.mem_of_getElem? htable)
  | hashFind table =>
    obtain ⟨table, htable, hrun⟩ := Option.bind_eq_some_iff.mp hrun
    obtain ⟨hr, hid⟩ := h.tables table (List.mem_of_getElem? htable)
    rw [hid] at hrun
    exact (allocType_good h hrun (h.ids _ _ hr (by decide))).1
  | hashNext table =>
    obtain ⟨table, htable, hrun⟩ := Option.bind_eq_some_iff.mp hrun
    obtain ⟨hr, -⟩ := h.tables table (List.mem_of_getElem? htable)
    exact (allocType_good h hrun (h.ids _ _ (h.whole _ _ .hashIterator hr rfl) (by decide))).1
  | bufferCreate gc =>
    obtain ⟨p₁, h₁, hrun⟩ := Option.bind_eq_some_iff.mp hrun
    obtain ⟨p₂, h₂, hrun⟩ := Option.bind_eq_some_iff.mp hrun
    obtain ⟨p₃, h₃, hrun⟩ := Option.bind_eq_some_iff.mp hrun
    obtain ⟨hgood₁, hids⟩ := ensure_good h h₁ (fun hne => absurd rfl hne) fun _ => hkeeps
    obtain ⟨hgood₂, hreg₂, hsame₂⟩ := allocType_good hgood₁ h₂ (hids _ rfl).2
    have hblock : (typesOf p₂.registered gc)[p₂.ids .block]? = some Struct.block.layout := by
      rw [hreg₂, hsame₂]
      exact (hids _ rfl).2
    obtain ⟨hgood₃, hreg₃, hsame₃⟩ := allocType_good hgood₂ h₃ hblock
    cases hrun
    refine { hgood₃ with guards := hgood₃.guards, buffers := fun b hb => ?_ }
    rcases List.mem_append.mp hb with hb | hb
    · exact hgood₃.buffers b hb
    · obtain rfl := List.mem_singleton.mp hb
      change (typesOf p₃.registered gc)[p₃.ids .block]? = _
      rw [hreg₃, hsame₃]
      exact hblock
  | bufferPush buf =>
    obtain ⟨b, hb, hrun⟩ := Option.bind_eq_some_iff.mp hrun
    exact (allocType_good h hrun (h.buffers b (List.mem_of_getElem? hb))).1
  | asmJump gc =>
    obtain ⟨p₁, h₁, hrun⟩ := Option.bind_eq_some_iff.mp hrun
    exact (hensured .jump (by decide) hkeeps h₁ hrun).1
  | debugInfo gc =>
    obtain ⟨p₁, h₁, hrun⟩ := Option.bind_eq_some_iff.mp hrun
    exact (hensured .debugInfo (by decide) hkeeps h₁ hrun).1
  | pushDebug gc =>
    obtain ⟨p₁, h₁, hrun⟩ := Option.bind_eq_some_iff.mp hrun
    exact (hensured .debugState (by decide) hkeeps h₁ hrun).1
  | compilerCreate gc =>
    obtain ⟨p₁, h₁, hrun⟩ := Option.bind_eq_some_iff.mp hrun
    obtain ⟨p₂, h₂, hrun⟩ := Option.bind_eq_some_iff.mp hrun
    obtain ⟨p₃, h₃, hrun⟩ := Option.bind_eq_some_iff.mp hrun
    obtain ⟨hgood₂, hreg₂, hsame₂, hids⟩ := hensured .compilerCore (by decide) hkeeps h₁ h₂
    have hstream : (typesOf p₂.registered gc)[p₂.ids .insStream]? = some Struct.insStream.layout := by
      rw [hreg₂, hsame₂]
      exact (hids .insStream rfl).2
    obtain ⟨hgood₃, hreg₃, hsame₃⟩ := allocType_good hgood₂ h₃ hstream
    cases hrun
    refine { hgood₃ with guards := hgood₃.guards, compilers := fun c hc => ?_ }
    rcases List.mem_append.mp hc with hc | hc
    · exact hgood₃.compilers c hc
    · obtain rfl := List.mem_singleton.mp hc
      refine ⟨?_, (congrFun hsame₃ _).symm, fun type => (congrFun hsame₃ _).symm⟩
      change (gc, Struct.insStream) ∈ p₃.registered
      rw [hreg₃, hreg₂]
      exact (hids .insStream rfl).1
  | streamCreate compiler =>
    obtain ⟨c, hc, hrun⟩ := Option.bind_eq_some_iff.mp hrun
    obtain ⟨hr, hid, -⟩ := h.compilers c (List.mem_of_getElem? hc)
    rw [hid] at hrun
    exact (allocType_good h hrun (h.ids _ _ hr (by decide))).1
  | streamAllocNode compiler type =>
    obtain ⟨c, hc, hrun⟩ := Option.bind_eq_some_iff.mp hrun
    obtain ⟨hr, -, hnodes⟩ := h.compilers c (List.mem_of_getElem? hc)
    rw [hnodes type] at hrun
    have hnode : type.struct.family = .compiler := by cases type <;> rfl
    exact (allocType_good h hrun (h.ids _ _ (h.whole _ _ _ hr hnode) (by rw [hnode]; decide))).1

/-- The logs only grow. -/
def Grows (p p' : Process) : Prop := p.allocated <+: p'.allocated ∧ p.registered <+: p'.registered

theorem Grows.refl (p : Process) : Grows p p := ⟨List.prefix_rfl, List.prefix_rfl⟩

/-- Logs that grow twice have grown. -/
theorem Grows.trans {q : Process} (h : Grows p q) (h' : Grows q p') : Grows p p' :=
  ⟨h.1.trans h'.1, h.2.trans h'.2⟩

/-- **What is wrong stays wrong.** -/
theorem Grows.typed (h : Grows p p') (htyped : p'.Typed) : p.Typed :=
  ⟨fun e he => htyped.1 e (h.1.subset he), htyped.2.sublist h.2.sublist⟩

/-- A registration adds to the logs. -/
theorem ensure_grows {gc : ℕ} {family : Family} (hrun : p.ensure gc family = some p') : Grows p p' := by
  by_cases hunset : p.unset family = true
  · obtain ⟨g, -, hreg⟩ := ensure_registers hrun hunset
    refine ⟨?_, ?_⟩
    · rw [hreg.allocated]
      split <;> exact List.prefix_rfl
    · rw [hreg.registered]
      split <;> exact List.prefix_append ..
  · rw [ensure, if_neg hunset] at hrun
    cases hrun
    exact Grows.refl p

theorem allocType_grows {gc type : ℕ} {S : Struct} (hrun : p.allocType gc type S = some p') : Grows p p' := by
  obtain ⟨g, -, rfl⟩ := allocType_eq hrun
  exact ⟨List.prefix_append .., List.prefix_rfl⟩

theorem exec_grows (hrun : p.exec op = some p') : Grows p p' := by
  cases op with
  | gcCreate cellSize =>
    obtain rfl : { p with collectors := p.collectors ++ [_] } = p' := Option.some.inj hrun
    exact ⟨List.prefix_rfl, List.prefix_rfl⟩
  | hashCreate gc =>
    obtain ⟨p₁, h₁, hrun⟩ := Option.bind_eq_some_iff.mp hrun
    obtain ⟨p₂, h₂, hrun⟩ := Option.bind_eq_some_iff.mp hrun
    cases hrun
    have hgrows := (ensure_grows h₁).trans (allocType_grows h₂)
    exact hgrows
  | hashCow gc src =>
    obtain ⟨table, -, hrun⟩ := Option.bind_eq_some_iff.mp hrun
    obtain ⟨p₁, h₁, hrun⟩ := Option.bind_eq_some_iff.mp hrun
    cases hrun
    have hgrows := allocType_grows h₁
    exact hgrows
  | hashFind table | hashNext table | bufferPush table | streamCreate table =>
    obtain ⟨t, -, hrun⟩ := Option.bind_eq_some_iff.mp hrun
    exact allocType_grows hrun
  | streamAllocNode compiler type =>
    obtain ⟨c, -, hrun⟩ := Option.bind_eq_some_iff.mp hrun
    exact allocType_grows hrun
  | bufferCreate gc | compilerCreate gc =>
    obtain ⟨p₁, h₁, hrun⟩ := Option.bind_eq_some_iff.mp hrun
    obtain ⟨p₂, h₂, hrun⟩ := Option.bind_eq_some_iff.mp hrun
    obtain ⟨p₃, h₃, hrun⟩ := Option.bind_eq_some_iff.mp hrun
    cases hrun
    have hgrows := ((ensure_grows h₁).trans (allocType_grows h₂)).trans (allocType_grows h₃)
    exact hgrows
  | asmJump gc | debugInfo gc | pushDebug gc =>
    obtain ⟨p₁, h₁, hrun⟩ := Option.bind_eq_some_iff.mp hrun
    exact (ensure_grows h₁).trans (allocType_grows hrun)

/-- A second buffer on a collector registers its types once more. -/
theorem ensure_twice (h : Good p) {gc : ℕ} (hreg : (gc, Struct.bufferInternal) ∈ p.registered)
    (hrun : p.ensure gc .buffer = some p') : ¬ p'.registered.Nodup := by
  have hunset : p.unset .buffer = true := by simp [unset, h.bufferInit]
  obtain ⟨g, -, hregisters⟩ := ensure_registers hrun hunset
  rw [hregisters.registered]
  intro hnodup
  have hdisjoint := (List.nodup_append.mp hnodup).2.2
  exact hdisjoint _ hreg (gc, Struct.bufferInternal) List.mem_cons_self rfl

/-- **One call that does not keep to the collectors.** -/
theorem exec_bad (h : Good p) (hkeeps : ¬ p.Keeps op) (hrun : p.exec op = some p') : ¬ p'.Typed := by
  -- an allocation on a collector that the family is not registered on
  have haway : ∀ (S : Struct) {gc : ℕ} {p₁ p₂ : Process}, S.family ≠ .buffer → ¬ p.AtHome S.family gc →
      p.ensure gc S.family = some p₁ → p₁.allocType gc (p₁.ids S) S = some p₂ → ¬ p₂.Typed := by
    intro S gc p₁ p₂ hne haway h₁ h₂ htyped
    obtain rfl := ensure_away h h₁ hne haway
    obtain ⟨e, he, hwrong⟩ := allocType_wrong h h₂ (wrong_of_away h hne haway rfl)
    exact hwrong (htyped.1 e he)
  cases op with
  | hashCreate gc =>
    obtain ⟨p₁, h₁, hrun⟩ := Option.bind_eq_some_iff.mp hrun
    obtain ⟨p₂, h₂, hrun⟩ := Option.bind_eq_some_iff.mp hrun
    cases hrun
    have hwrong := haway .hashInternal (by decide) hkeeps h₁ h₂
    exact hwrong
  | hashCow gc src =>
    obtain ⟨table, -, hrun⟩ := Option.bind_eq_some_iff.mp hrun
    obtain ⟨p₁, h₁, hrun⟩ := Option.bind_eq_some_iff.mp hrun
    obtain ⟨e, he, hwrong⟩ := allocType_wrong h h₁ (wrong_of_away h (by decide) hkeeps rfl)
    cases hrun
    exact fun htyped => hwrong (htyped.1 e he)
  | bufferCreate gc =>
    obtain ⟨p₁, h₁, hrun⟩ := Option.bind_eq_some_iff.mp hrun
    obtain ⟨p₂, h₂, hrun⟩ := Option.bind_eq_some_iff.mp hrun
    obtain ⟨p₃, h₃, hrun⟩ := Option.bind_eq_some_iff.mp hrun
    cases hrun
    intro htyped
    have hgrows := (allocType_grows h₂).trans (allocType_grows h₃)
    exact ensure_twice h (not_not.mp hkeeps) h₁ (hgrows.typed htyped).2
  | asmJump gc =>
    obtain ⟨p₁, h₁, hrun⟩ := Option.bind_eq_some_iff.mp hrun
    exact haway .jump (by decide) hkeeps h₁ hrun
  | debugInfo gc =>
    obtain ⟨p₁, h₁, hrun⟩ := Option.bind_eq_some_iff.mp hrun
    exact haway .debugInfo (by decide) hkeeps h₁ hrun
  | pushDebug gc =>
    obtain ⟨p₁, h₁, hrun⟩ := Option.bind_eq_some_iff.mp hrun
    exact haway .debugState (by decide) hkeeps h₁ hrun
  | compilerCreate gc =>
    obtain ⟨p₁, h₁, hrun⟩ := Option.bind_eq_some_iff.mp hrun
    obtain ⟨p₂, h₂, hrun⟩ := Option.bind_eq_some_iff.mp hrun
    obtain ⟨p₃, h₃, hrun⟩ := Option.bind_eq_some_iff.mp hrun
    cases hrun
    intro htyped
    exact haway .compilerCore (by decide) hkeeps h₁ h₂ ((allocType_grows h₃).typed htyped)
  | gcCreate | hashFind | hashNext | bufferPush | streamCreate | streamAllocNode => exact absurd trivial hkeeps

end Calls

/-- The process at its start. -/
theorem good_start : Good {} where
  types _ _ h := nomatch h
  valid _ h := nomatch h
  nodup := List.nodup_nil
  whole _ _ _ h := nomatch h
  home _ _ _ _ h := nomatch h
  ids _ _ h := nomatch h
  guards family h := by cases family <;> simp [unset] at h ⊢
  bufferInit := rfl
  tables _ h := nomatch h
  buffers _ h := nomatch h
  compilers _ h := nomatch h
  allocated _ h := nomatch h

theorem execAll_grows : ∀ {ops : List Op} {p p' : Process}, execAll p ops = some p' → Grows p p'
  | [], p, p', hrun => by
      cases hrun
      exact Grows.refl p
  | op :: ops, p, p', hrun => by
      obtain ⟨q, hq, hrun⟩ := Option.bind_eq_some_iff.mp (List.foldlM_cons.symm.trans hrun)
      exact (exec_grows hq).trans (execAll_grows hrun)

/-- **Whole runs**: everything is typed at the end exactly if every step keeps to the collectors. -/
theorem execAll_typed : ∀ {ops : List Op} {p p' : Process}, Good p → execAll p ops = some p' →
    (p'.Typed ↔ KeepsAll p ops) ∧ (p'.Typed → Good p')
  | [], p, p', h, hrun => by
      cases hrun
      exact ⟨iff_of_true ⟨h.allocated, h.nodup⟩ trivial, fun _ => h⟩
  | op :: ops, p, p', h, hrun => by
      obtain ⟨q, hq, hrun⟩ := Option.bind_eq_some_iff.mp (List.foldlM_cons.symm.trans hrun)
      by_cases hkeeps : p.Keeps op
      · obtain ⟨hiff, hgood⟩ := execAll_typed (exec_good h hkeeps hq) hrun
        refine ⟨hiff.trans ⟨fun hall => ⟨hkeeps, fun q' hq' => ?_⟩, fun hall => hall.2 q hq⟩, hgood⟩
        obtain rfl : q = q' := Option.some.inj (hq.symm.trans hq')
        exact hall
      · have hwrong : ¬ p'.Typed := fun htyped => exec_bad h hkeeps hq ((execAll_grows hrun).typed htyped)
        exact ⟨iff_of_false hwrong fun hall => hkeeps hall.1, fun htyped => absurd htyped hwrong⟩

/-- **At most fourteen types on a collector**: the array and the thirteen structs. -/
theorem Good.length_le {p : Process} (h : Good p) : ∀ g ∈ p.collectors, g.typeDefs.length ≤ 14 := by
  intro g hg
  obtain ⟨c, hc⟩ := List.getElem?_of_mem hg
  have hnodup : ((p.registered.filter (·.1 = c)).map Prod.snd).Nodup := by
    refine List.Nodup.map_on ?_ (h.nodup.filter _)
    intro r hr r' hr' hsnd
    have hc := of_decide_eq_true (List.mem_filter.mp hr).2
    have hc' := of_decide_eq_true (List.mem_filter.mp hr').2
    exact Prod.ext (hc.trans hc'.symm) hsnd
  have hle : _ ≤ allStructs.length := (List.subperm_of_subset hnodup fun S _ => mem_allStructs S).length_le
  rw [h.types c g hc, typesOf, List.length_cons, List.length_map]
  rw [List.length_map] at hle
  exact Nat.succ_le_succ hle

/-! ## The types of every run

A collector that keeps to its components has at most fourteen types, far fewer than an id can name, so the ids
never wrap. -/

/-- **Ids belong to their collector, and types are registered once on it**: this holds of a run, and the number
of types stays bounded, exactly if every step keeps to the collectors. -/
theorem types_of_their_collector {ops : List Op} {p : Process} (h : execAll {} ops = some p) :
    (p.Typed ∧ ∀ g ∈ p.collectors, g.typeDefs.length ≤ 14) ↔ KeepsAll {} ops := by
  obtain ⟨hiff, hgood⟩ := execAll_typed good_start h
  exact ⟨fun hall => hiff.mp hall.1, fun hkeeps =>
    have htyped := hiff.mpr hkeeps
    ⟨htyped, (hgood htyped).length_le⟩⟩

/-- A run that keeps to its collectors: a table and a compiler on one, a buffer on each of two. -/
theorem types_of_their_collector_two : ∃ p, execAll {} [.gcCreate 40, .gcCreate 40, .hashCreate 0, .hashFind 0,
    .compilerCreate 0, .streamCreate 0, .bufferCreate 0, .bufferCreate 1, .bufferPush 1] = some p ∧
      ((p.Typed ∧ ∀ g ∈ p.collectors, g.typeDefs.length ≤ 14) ↔ KeepsAll {} [.gcCreate 40, .gcCreate 40,
        .hashCreate 0, .hashFind 0, .compilerCreate 0, .streamCreate 0, .bufferCreate 0, .bufferCreate 1,
        .bufferPush 1]) :=
  ⟨_, rfl, types_of_their_collector rfl⟩

/-- A second collector: `hash_create` uses on it the id that the first has given.  A second buffer: `create_buffer_type`
and `create_block_type` run again. -/
theorem types_of_their_collector_failing :
    (∃ p, execAll {} [.gcCreate 40, .gcCreate 40, .hashCreate 0, .hashCreate 1] = some p ∧
      ¬ ∀ e ∈ p.allocated, e.Right) ∧
    ∃ p, execAll {} [.gcCreate 40, .bufferCreate 0, .bufferCreate 0] = some p ∧ ¬ p.registered.Nodup := by
  refine ⟨⟨_, rfl, fun hall => ?_⟩, _, rfl, ?_⟩
  · have hsecond := hall _ (List.mem_cons_of_mem _ List.mem_cons_self)
    exact Option.some_ne_none _ hsecond.symm
  · change ¬ [(0, Struct.bufferInternal), (0, .block), (0, .bufferInternal), (0, .block)].Nodup
    decide

end Process

end Insomniac.Gc

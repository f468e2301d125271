import Insomniac.Machinery.Linked

/-!
# Hash/Table — the chained hash table of `hash_core.c`

A table is an array of bucket heads; a bucket is a chain of `key_value` nodes linked by `next`.
Nodes and bucket arrays live in a store that several tables may share (a `hash_cow` copy starts on
its source's array), so the operations here are the C functions on that store, pointer for pointer.

    hash_set ──▸ hash_find CREATE ──(copy on write)──▸ hash_resize ──▸ hash_find CREATE ──▸ …

`hash_find` and `hash_resize` call each other; the recursion carries a nesting bound and `none` is
the outcome of a call that has no C meaning (`% 0`, a dangling pointer) or nests too deep.
-/

namespace Insomniac.Hash

/-- The address of a node or of a bucket array. -/
abbrev Addr := ℕ

/-- `cmp_type`. -/
inductive Cmp
  | gt | eq | lt
  deriving DecidableEq, Repr

/-- The two functions a table is created with: `hash_fn` and `hash_cmp`. -/
structure HashFns (K : Type) where
  calcHash : K → UInt32
  compare : K → K → Cmp

/-- `hash_action_type`. -/
inductive Action
  | read | delete | create
  deriving DecidableEq, Repr

/-- A `key_value` node. -/
structure KeyValue (K V : Type) where
  key : K
  value : V
  next : Option Addr
  deriving DecidableEq, Repr

/-- The fields of `hash_internal` that its functions read and write. -/
structure Table where
  table : Option Addr
  size : ℕ
  entries : ℕ
  copyOnWrite : Bool
  deriving DecidableEq, Repr

/-- The nodes and bucket arrays allocated so far, and the table an operation works on. -/
structure Store (K V : Type) where
  kvs : List (KeyValue K V)
  arrays : List (List (Option Addr))
  table : Table
  deriving DecidableEq, Repr

/-- When a table is grown and how far: `hash_load(table) > MAX_LOAD`, and
`floor(entries / TARGET_LOAD)`.  Both are floating-point expressions of the two counters; nothing
below depends on how they round. -/
structure LoadRule where
  overloaded : (entries size : ℕ) → Bool
  target : (entries : ℕ) → ℕ

/-- The rule in exact arithmetic: `MAX_LOAD` is `0.9` and `TARGET_LOAD` is `0.6`. -/
def LoadRule.exact : LoadRule where
  overloaded entries size := decide (9 * size < 10 * entries)
  target entries := entries * 10 / 6

/-- `HASH_SIZE`. -/
def hashSize : ℕ := 4

/-- How deep `hash_find` and `hash_resize` are let nest.  A copy-on-write table resizes inside its
first write, and once more inside that; a plain one only at the end of `hash_set`. -/
def nesting : ℕ := 6

abbrev HashM (K V : Type) := StateT (Store K V) Option

section Operations

variable {K V : Type} (F : HashFns K)

/-- The state of a fresh table in the store: `gc_alloc_type` zeroes it and `hash_create` fills it
in. -/
def emptyTable : Table := { table := none, size := 0, entries := 0, copyOnWrite := false }

/-- Read `array[index]`. -/
def readBucket (array : Option Addr) (index : ℕ) : HashM K V (Option Addr) := fun s =>
  match array with
  | none => none
  | some t => ((s.arrays[t]?).bind (·[index]?)).map (·, s)

/-- `table->table[index] = kv`. -/
def setBucket (index : ℕ) (kv : Option Addr) : HashM K V Unit := fun s =>
  match s.table.table with
  | none => none
  | some t => match s.arrays[t]? with
    | none => none
    | some heads =>
      if index < heads.length then
        some ((), { s with arrays := s.arrays.set t (heads.set index kv) })
      else none

/-- Read the node a pointer points at. -/
def readNode (a : Addr) : HashM K V (KeyValue K V) := fun s => s.kvs[a]?.map (·, s)

/-- Write back the node a pointer points at. -/
def writeNode (a : Addr) (kv : KeyValue K V) : HashM K V Unit := fun s =>
  if a < s.kvs.length then some ((), { s with kvs := s.kvs.set a kv }) else none

/-- `kv->value = value`. -/
def setValue (a : Addr) (value : V) : HashM K V Unit := do
  let kv ← readNode a
  writeNode a { kv with value }

/-- The chain walk of `hash_find`: the first node whose key compares `EQ`, with the node before
it. -/
def walkChain (key : K) : ℕ → (prev kv : Option Addr) → HashM K V (Option (Option Addr × Addr))
  | 0, _, _ => fun _ => none
  | _ + 1, _, none => pure none
  | n + 1, prev, some a => do
    let kv ← readNode a
    if F.compare key kv.key = .eq then
      pure (some (prev, a))
    else
      walkChain key n (some a) kv.next

/-- The walk of `hash_resize` along one old chain, handing every entry to `put`. -/
def copyChain (put : K → V → HashM K V Unit) : ℕ → Option Addr → HashM K V Unit
  | 0, _ => fun _ => none
  | _ + 1, none => pure ()
  | n + 1, some a => do
    let kv ← readNode a
    put kv.key kv.value
    copyChain put n kv.next

/-- The end of `hash_find` once its chain has been walked: unlink on `DELETE`, link a zeroed node
in front of the bucket on `CREATE`. -/
def finishFind [Inhabited V] (key : K) (action : Action) (index : ℕ) :
    Option (Option Addr × Addr) → HashM K V (Option Addr)
  | some (prev, a) => do
    if action = .delete then
      let kv ← readNode a
      match prev with
      | some p =>
        let prevKv ← readNode p
        writeNode p { prevKv with next := kv.next }
      | none => setBucket index kv.next
    pure (some a)
  | none => do
    if action = .create then
      let s ← get
      let a := s.kvs.length
      let head ← readBucket s.table.table index
      let kv : KeyValue K V := { key, value := default, next := head }
      set { s with kvs := s.kvs ++ [kv] }
      setBucket index (some a)
      modify fun s : Store K V => { s with table := { s.table with entries := s.table.entries + 1 } }
      pure (some a)
    else
      pure none

mutual

/-- `hash_find`: locate, create or unlink the node of a key.  The index is computed before a
copy-on-write table gets its own array, which has the same size. -/
def hashFind [Inhabited V] : ℕ → K → Action → HashM K V (Option Addr)
  | 0, _, _ => fun _ => none
  | n + 1, key, action => do
    let s ← get
    if s.table.size = 0 then
      fun _ => none
    else
      let index := (F.calcHash key).toNat % s.table.size
      if s.table.copyOnWrite ∧ action ≠ .read then
        hashResize n s.table.size
        modify fun s : Store K V => { s with table := { s.table with copyOnWrite := false } }
      let s ← get
      let kv ← readBucket s.table.table index
      let found ← walkChain F key (s.kvs.length + 1) none kv
      finishFind key action index found

/-- `hash_resize`: a fresh array of `size` empty buckets, refilled from the old one through
`hash_find`.  The code counts the old buckets with an `int` up to the `size_t` of their number; the
loop here runs over all of them, which is what that counter does below `2³¹` buckets. -/
def hashResize [Inhabited V] : ℕ → (size : ℕ) → HashM K V Unit
  | 0, _ => fun _ => none
  | n + 1, size => do
    let s ← get
    let oldTable := s.table.table
    let oldSize := s.table.size
    set { s with
      arrays := s.arrays ++ [List.replicate size none]
      table := { s.table with table := some s.arrays.length, size, entries := 0 } }
    if oldTable.isSome then
      (List.range oldSize).forM fun i => do
        let kv ← readBucket oldTable i
        copyChain (fun key value => do
          match ← hashFind n key .create with
          | some a => setValue a value
          | none => fun _ => none) (s.kvs.length + 1) kv

end

/-- `hash_create`. -/
def hashCreate [Inhabited V] : HashM K V Unit := do
  modify fun s : Store K V => { s with table := emptyTable }
  hashResize F nesting hashSize

variable (R : LoadRule)

/-- `hash_set`. -/
def hashSet [Inhabited V] (key : K) (value : V) : HashM K V Unit := do
  match ← hashFind F nesting key .create with
  | none => fun _ => none
  | some kv =>
    setValue kv value
    let s ← get
    if R.overloaded s.table.entries s.table.size then
      hashResize F nesting (R.target s.table.entries + 1)

/-- `hash_erase`. -/
def hashErase [Inhabited V] (key : K) : HashM K V Unit := do
  let _ ← hashFind F nesting key .delete
  pure ()

/-- `hash_get`: the value, when the key is there. -/
def hashGet [Inhabited V] (key : K) : HashM K V (Option V) := do
  match ← hashFind F nesting key .read with
  | none => pure none
  | some a =>
    let kv ← readNode a
    pure (some kv.value)

end Operations

end Insomniac.Hash

import Insomniac.Machinery.Chunks
import Insomniac.Machinery.Run

/-!
# Buffer/Blocks — the elastic buffer

    buffer { head, tail, used }
               │      └───────────────────┐
               ▼                          ▼
             [ 4096 bytes ] ──next──▸ [ 4096 bytes ] ──▸ 0

`buffer_core.c` over a store of blocks.  Every allocation is a block of its own that starts out zeroed
(`Gc.gc_safe`), and there are no more blocks than the address space holds.  A `size_t` is a natural
number below `2 ^ 64` and an `int` an integer; every conversion between them is written out.  A copy
that leaves its block, or that overlaps its source, is `undefined`.
-/

namespace Insomniac.Buffer

/-! ## Blocks and buffers

Addresses are places in a list, one for the blocks and one for the buffers; nothing is ever taken out, as the
collector keeps what is reachable. -/

/-- `BLOCK_SIZE`. -/
def blockSize : ℕ := 4096

/-- `sizeof(block_type)`: the bytes and the pointer to the next block. -/
def sizeofBlock : ℕ := 4104

/-- The address of a block. -/
abbrev Addr := ℕ

/-- `struct block`. -/
structure Block where
  block : List UInt8
  next : Option Addr
  sized : block.length = blockSize

/-- `struct buffer`. -/
structure BufferInternal where
  head : Addr
  tail : Addr
  used : ℕ

/-- A pointer to a buffer. -/
abbrev Handle := ℕ

/-- The blocks and the buffers allocated so far. -/
structure Store where
  blocks : List Block := []
  buffers : List BufferInternal := []

/-- How a call can fail to return: memory is used up, it copies outside an object, it does not
end. -/
inductive Stop
  | memory
  | undefined
  | unfinished
  deriving DecidableEq

/-- The functions of the buffer, on its store. -/
abbrev BufferM := StateT Store (Except Stop)

/-! ## Machine integers

Sizes and lengths change their type on the way through `buffer_write` and back, and each change has its own name
here. -/

/-- A sum of `size_t`. -/
def addSize (a b : ℕ) : ℕ := (a + b) % 2 ^ 64

/-- A difference of `size_t`. -/
def subSize (a b : ℕ) : ℕ := (a + (2 ^ 64 - b)) % 2 ^ 64

/-- A `size_t` converted to `int`. -/
def toInt (n : ℕ) : ℤ := Int.bmod n (2 ^ 32)

/-- An `int` converted to `size_t`. -/
def toSize (i : ℤ) : ℕ := (i % 2 ^ 64).toNat

/-! ## Reading and writing the store

An access to a block or a buffer that does not exist has no meaning, and neither has a copy that runs over the
end of its block or onto itself. -/

/-- A buffer is followed to its fields. -/
def getBuffer (buf : Handle) : BufferM BufferInternal := do
  match (← get).buffers[buf]? with
  | some b => pure b
  | none => throw .undefined

/-- The fields of a buffer are written back. -/
def setBuffer (buf : Handle) (b : BufferInternal) : BufferM Unit :=
  modify fun st => { st with buffers := st.buffers.set buf b }

/-- A block is followed to its bytes. -/
def getBlock (a : Addr) : BufferM Block := do
  match (← get).blocks[a]? with
  | some b => pure b
  | none => throw .undefined

/-- A block is written back. -/
def setBlock (a : Addr) (b : Block) : BufferM Unit :=
  modify fun st => { st with blocks := st.blocks.set a b }

/-- The number of blocks on a chain, counted along at most `fuel` of them. -/
def Store.chainLength (st : Store) : (fuel : ℕ) → Option Addr → ℕ
  | 0, _ => 0
  | _ + 1, none => 0
  | fuel + 1, some a =>
    match st.blocks[a]? with
    | none => 0
    | some b => 1 + st.chainLength fuel b.next

/-- A zeroed block. -/
def zeroedBlock : Block := ⟨List.replicate blockSize 0, none, List.length_replicate⟩

/-- `gc_alloc_type` for a block that is to be in memory next to `held` others. -/
def gcAllocBlock (held : ℕ) : BufferM Addr := do
  let st ← get
  if 2 ^ 64 ≤ sizeofBlock * (held + 1) then throw .memory
  set { st with blocks := st.blocks ++ [zeroedBlock] }
  pure st.blocks.length

/-- Where the bytes of a write come from: memory of the caller, or a block. -/
inductive Source
  | array (bytes : List UInt8)
  | block (a : Addr)

/-- The `n` bytes at `offset`. -/
def Source.read (src : Source) (offset n : ℕ) : BufferM (List UInt8) := do
  let bytes ← match src with
    | .array bytes => pure bytes
    | .block a => do pure (← getBlock a).block
  if offset + n ≤ bytes.length then pure ((bytes.drop offset).take n) else throw .undefined

/-- Whether a range of a source shares bytes with a range of a block. -/
def Source.overlaps (src : Source) (offset n : ℕ) (a : Addr) (writeOffset : ℕ) : Bool :=
  match src with
  | .array _ => false
  | .block a' => a' = a ∧ offset < writeOffset + n ∧ writeOffset < offset + n

/-- `memcpy` of `n` bytes into a block. -/
def memcpyIn (a : Addr) (writeOffset : ℕ) (src : Source) (offset n : ℕ) : BufferM Unit := do
  let bytes ← src.read offset n
  if src.overlaps offset n a writeOffset then throw .undefined
  let b ← getBlock a
  if h : writeOffset + bytes.length ≤ b.block.length then
    setBlock a { b with
      block := Chunks.splice b.block writeOffset bytes
      sized := (Chunks.splice_length h).trans b.sized }
  else throw .undefined

/-- `memcpy` of the first `n` bytes of a block into memory of the caller. -/
def memcpyOut (dest : List UInt8) (offset : ℕ) (a : Addr) (n : ℕ) : BufferM (List UInt8) := do
  let bytes ← (Source.block a).read 0 n
  if offset + n ≤ dest.length then pure (Chunks.splice dest offset bytes) else throw .undefined

/-! ## The functions of `buffer_core.c`

The loops take fuel, one unit for each block; that it suffices is part of what is proved of them. -/

/-- `buffer_create`. -/
def bufferCreate : BufferM Handle := do
  let tail ← gcAllocBlock 0
  let st ← get
  let b : BufferInternal := { head := tail, tail := tail, used := 0 }
  set { st with buffers := st.buffers ++ [b] }
  pure st.buffers.length

/-- `buffer_reset`. -/
def bufferReset (buf : Handle) : BufferM Unit := do
  let b ← getBuffer buf
  setBuffer buf { b with used := 0, head := b.tail }
  let block ← getBlock b.tail
  setBlock b.tail { block with next := none }

/-- `buffer_push`. -/
def bufferPush (buf : Handle) : BufferM Unit := do
  let b ← getBuffer buf
  let st ← get
  let newTail ← gcAllocBlock (st.chainLength st.blocks.length (some b.head))
  let block ← getBlock b.tail
  setBlock b.tail { block with next := some newTail }
  setBuffer buf { b with tail := newTail }

/-- The loop of `buffer_write`. -/
def bufferWriteLoop (buf : Handle) (bytes : Source) : (fuel : ℕ) → (writeOffset : ℕ) →
    (blockRemaining : ℤ) → (offset length : ℕ) → BufferM Unit
  | fuel, writeOffset, blockRemaining, offset, length =>
    if length = 0 then pure ()
    else match fuel with
    | 0 => throw .unfinished
    | fuel + 1 => do
      let b ← getBuffer buf
      memcpyIn b.tail writeOffset bytes offset (toSize blockRemaining)
      let offset := addSize offset (toSize blockRemaining)
      let used := addSize b.used (toSize blockRemaining)
      setBuffer buf { b with used := used }
      let length := subSize length (toSize blockRemaining)
      let writeOffset ← if used % blockSize = 0 then do
          bufferPush buf
          pure 0
        else pure writeOffset
      let blockRemaining := if blockSize ≤ length then (blockSize : ℤ) else toInt length
      bufferWriteLoop buf bytes fuel writeOffset blockRemaining offset length

/-- `buffer_write`. -/
def bufferWrite (buf : Handle) (bytes : Source) (length : ℕ) : BufferM Unit := do
  let b ← getBuffer buf
  let writeOffset := b.used % blockSize
  let blockRemaining := toInt (subSize blockSize writeOffset)
  if blockRemaining = 0 then bufferPush buf
  let blockRemaining := if length < toSize blockRemaining then toInt length else blockRemaining
  bufferWriteLoop buf bytes length writeOffset blockRemaining 0 length

/-- The loop of `buffer_read`: the destination and the offset it ends with. -/
def bufferReadLoop (length : ℕ) : (fuel : ℕ) → (block : Option Addr) → (offset : ℕ) →
    (dest : List UInt8) → BufferM (ℕ × List UInt8)
  | fuel, block, offset, dest =>
    match block with
    | none => pure (offset, dest)
    | some a =>
      if offset < length then
        match fuel with
        | 0 => throw .unfinished
        | fuel + 1 => do
          let copyAmount := subSize length offset
          let copyAmount := if blockSize ≤ copyAmount then blockSize else copyAmount
          let dest ← memcpyOut dest offset a copyAmount
          let offset := addSize offset copyAmount
          bufferReadLoop length fuel (← getBlock a).next offset dest
      else pure (offset, dest)

/-- `buffer_read`: the number of bytes read, and the destination after it. -/
def bufferRead (buf : Handle) (dest : List UInt8) (length : ℕ) : BufferM (ℕ × List UInt8) := do
  let b ← getBuffer buf
  bufferReadLoop length length (some b.head) 0 dest

/-- `buffer_size`. -/
def bufferSize (buf : Handle) : BufferM ℕ := do
  let b ← getBuffer buf
  pure b.used

/-- The loop of `buffer_append`. -/
def bufferAppendLoop (buf : Handle) (length : ℕ) : (fuel : ℕ) → (block : Option Addr) →
    (offset : ℕ) → BufferM ℕ
  | fuel, block, offset =>
    match block with
    | none => pure offset
    | some a =>
      if offset < length then
        match fuel with
        | 0 => throw .unfinished
        | fuel + 1 => do
          let copyAmount := subSize length offset
          let copyAmount := if blockSize ≤ copyAmount then blockSize else copyAmount
          bufferWrite buf (.block a) copyAmount
          let offset := addSize offset copyAmount
          bufferAppendLoop buf length fuel (← getBlock a).next offset
      else pure offset

/-- `buffer_append`. -/
def bufferAppend (buf src : Handle) (length : ℕ) : BufferM ℕ := do
  let b ← getBuffer src
  let length ← if length = 2 ^ 64 - 1 then bufferSize src else pure length
  bufferAppendLoop buf length length (some b.head) 0

end Insomniac.Buffer

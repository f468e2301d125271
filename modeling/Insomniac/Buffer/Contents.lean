import Insomniac.Buffer.Blocks
import Insomniac.Machinery.Linked

/-!
# Buffer/Contents — the string a chain of blocks holds

    head ─▸ [ full ] ─▸ [ full ] ─▸ [ fill bytes | … ]        used = 4096·2 + fill
                                      ▲ tail

`Filled` describes one buffer: full blocks, then the tail with its first `fill` bytes in use.  Between
two operations `fill < 4096` (`Represents`); a write lets it reach `4096` and then pushes a block.  A
write changes the tail of its own buffer only, and no chain passes through the tail of another one
(`Filled.frame`).
-/

open Linked Run

namespace Insomniac.Buffer

/-! ## Machine integers below their limits

Nothing wraps below the limits, which the number of blocks in the address space keeps well apart. -/

/-- A sum that fits is the sum. -/
theorem addSize_eq {a b : ℕ} (h : a + b < 2 ^ 64) : addSize a b = a + b := Nat.mod_eq_of_lt h

/-- So is a difference that is not negative. -/
theorem subSize_eq {a b : ℕ} (ha : a < 2 ^ 64) (h : b ≤ a) : subSize a b = a - b := by
  unfold subSize
  omega

/-- A size within a block is itself as an `int`. -/
theorem toInt_eq {n : ℕ} (h : n ≤ blockSize) : toInt n = n := by
  unfold blockSize at h
  unfold toInt
  rw [Int.bmod_def]
  omega

theorem toSize_natCast {n : ℕ} (h : n ≤ blockSize) : toSize n = n := by
  unfold blockSize at h
  unfold toSize
  omega

/-! ## One buffer

The chain is told with the bytes of its blocks, so that a block is known by its contents and by what is behind
it.  `fill` is told apart from `used`, which is a number of bytes of the whole string. -/

/-- The node at an address: its bytes and the pointer to the next block. -/
def Store.node (st : Store) (a : Addr) : Option (List UInt8 × Option Addr) :=
  st.blocks[a]?.map fun b => (b.block, b.next)

/-- **The buffer `b` holds `bytes`**: the blocks `full` and the first `fill` bytes of its tail. -/
structure Filled (st : Store) (b : BufferInternal) (full : List (Addr × List UInt8))
    (last : List UInt8) (fill : ℕ) (bytes : List UInt8) : Prop where
  chain : Spells none st.node (some b.head) (full ++ [(b.tail, last)])
  bytes_eq : bytes = (full.map Prod.snd).flatten ++ last.take fill
  used : b.used = bytes.length
  fill_le : fill ≤ blockSize
  room : sizeofBlock * (full.length + 1) < 2 ^ 64

/-- The node at an address is the block there. -/
theorem node_eq_some {st : Store} {a : Addr} {bytes : List UInt8} {n : Option Addr}
    (h : st.node a = some (bytes, n)) :
    ∃ b, st.blocks[a]? = some b ∧ b.block = bytes ∧ b.next = n := by
  unfold Store.node at h
  obtain ⟨b, hb, hab⟩ := Option.map_eq_some_iff.mp h
  exact ⟨b, hb, congrArg Prod.fst hab, congrArg Prod.snd hab⟩

/-- An address with a node is that of a block. -/
theorem node_lt {st : Store} {a : Addr} (h : st.node a ≠ none) : a < st.blocks.length := by
  by_contra hlt
  exact h (by rw [Store.node, List.getElem?_eq_none (Nat.le_of_not_lt hlt), Option.map_none])

/-- Behind the last block there is no node. -/
theorem node_none {st : Store} {a : Addr} (h : st.blocks.length ≤ a) : st.node a = none := by
  rw [Store.node, List.getElem?_eq_none h, Option.map_none]

/-- The blocks on a chain are of one size. -/
theorem length_of_mem {st : Store} {p : Option Addr} {l : List (Addr × List UInt8)}
    (h : Spells none st.node p l) : ∀ c ∈ l.map Prod.snd, c.length = blockSize := by
  intro c hc
  obtain ⟨d, hd, rfl⟩ := List.mem_map.mp hc
  obtain ⟨n, hn⟩ := h.get_of_mem hd
  obtain ⟨b, -, hb, -⟩ := node_eq_some hn
  rw [← hb]
  exact b.sized

namespace Filled

variable {st st' : Store} {b : BufferInternal} {full : List (Addr × List UInt8)}
  {last bytes : List UInt8} {fill : ℕ}

/-- The tail is a whole block, though not all of it is in use. -/
theorem last_length (h : Filled st b full last fill bytes) : last.length = blockSize :=
  length_of_mem h.chain last (by simp)

/-- So are the blocks in front of it. -/
theorem full_length (h : Filled st b full last fill bytes) :
    ∀ c ∈ full.map Prod.snd, c.length = blockSize := fun c hc =>
  length_of_mem h.chain c (by
    rw [List.map_append]
    exact List.mem_append_left _ hc)

/-- The node of the tail. -/
theorem tail_node (h : Filled st b full last fill bytes) : st.node b.tail = some (last, none) :=
  h.chain.last

/-- **The number of bytes** of a buffer. -/
theorem used_eq (h : Filled st b full last fill bytes) :
    b.used = blockSize * full.length + fill := by
  have hfill := h.fill_le
  rw [h.used, h.bytes_eq, List.length_append, Chunks.flatten_length h.full_length, List.length_map,
    List.length_take, h.last_length, Nat.min_eq_left hfill]

/-- Where the tail is not full, what is in use of it is `used` modulo the size of a block. -/
theorem fill_eq (h : Filled st b full last fill bytes) (hfill : fill < blockSize) :
    fill = b.used % blockSize := by
  rw [h.used_eq, Nat.mul_add_mod_self_left, Nat.mod_eq_of_lt hfill]

/-- The number of bytes in use fits into a `size_t`. -/
theorem used_lt (h : Filled st b full last fill bytes) : b.used < 2 ^ 64 := by
  have hused := h.used_eq
  have hfill := h.fill_le
  have hroom := h.room
  unfold blockSize at hused hfill
  unfold sizeofBlock at hroom
  omega

/-- The bytes are the front of all that is in the blocks. -/
theorem bytes_eq_take (h : Filled st b full last fill bytes) :
    bytes = ((full ++ [(b.tail, last)]).map Prod.snd).flatten.take b.used := by
  have hlen : (full.map Prod.snd).length = full.length := List.length_map _
  rw [h.used_eq, ← hlen, List.map_append, List.map_cons, List.map_nil,
    Chunks.take_flatten_concat h.full_length]
  exact h.bytes_eq

/-- The number of blocks of a chain, as `buffer_push` has to find room for them. -/
theorem chainLength (h : Filled st b full last fill bytes) :
    st.chainLength st.blocks.length (some b.head) = full.length + 1 := by
  suffices hlen : ∀ {l : List (Addr × List UInt8)} {p : Option Addr} {fuel : ℕ},
      Spells none st.node p l → l.length ≤ fuel → st.chainLength fuel p = l.length by
    have hle := h.chain.length_le (fun a ha => by cases ha) (fun a => node_lt)
    rw [hlen h.chain hle, List.length_append, List.length_singleton]
  intro l
  induction l with
  | nil =>
    rintro p fuel rfl -
    cases fuel <;> rfl
  | cons c l ih =>
    rintro p fuel ⟨rfl, n, hn, hl⟩ hfuel
    cases fuel with
    | zero => exact absurd hfuel (by simp)
    | succ fuel =>
      obtain ⟨b, hb, -, rfl⟩ := node_eq_some hn
      have hrest := ih hl (Nat.le_of_succ_le_succ hfuel)
      simp only [Store.chainLength, hb, hrest, List.length_cons]
      omega

/-- Blocks that are not on the chain do not matter. -/
theorem mono (h : Filled st b full last fill bytes)
    (hagree : ∀ a, st.node a ≠ none → st'.node a = st.node a) :
    Filled st' b full last fill bytes := by
  refine { h with chain := h.chain.congr fun c hc => ?_ }
  obtain ⟨n, hn⟩ := h.chain.get_of_mem hc
  exact hagree c.1 (by simp [hn])

/-- **A change at the tail of another buffer** leaves a buffer alone. -/
theorem frame (h : Filled st b full last fill bytes) {t : Addr} {content : List UInt8}
    (ht : st.node t = some (content, none)) (hne : b.tail ≠ t)
    (hagree : ∀ a, a ≠ t → st.node a ≠ none → st'.node a = st.node a) :
    Filled st' b full last fill bytes := by
  refine { h with chain := h.chain.congr fun c hc => ?_ }
  obtain ⟨n, hn⟩ := h.chain.get_of_mem hc
  refine hagree c.1 (fun hct => hne ?_) (by simp [hn])
  have hlast := h.chain.eq_last hc (hct ▸ ht)
  rw [← hct, hlast]

/-- **Bytes behind those in use** extend the string. -/
theorem write (h : Filled st b full last fill bytes) {data : List UInt8}
    (hfill : fill + data.length ≤ blockSize)
    (hst : ∀ a, a ≠ b.tail → st'.node a = st.node a)
    (htail : st'.node b.tail = some (Chunks.splice last fill data, none)) :
    Filled st' { b with used := b.used + data.length } full (Chunks.splice last fill data)
      (fill + data.length) (bytes ++ data) := by
  have hlen := h.last_length
  refine ⟨?_, ?_, ?_, hfill, h.room⟩
  · refine h.chain.replace (fun a ha => by cases ha) (fun n hn => ?_) hst
    rw [h.tail_node] at hn
    cases hn
    exact htail
  · rw [Chunks.append_splice _ (by omega), ← h.bytes_eq]
  · rw [List.length_append, h.used]

/-- **A block behind the tail**, when the tail is full. -/
theorem push (h : Filled st b full last blockSize bytes) {a : Addr} {zeros : List UInt8}
    (hroom : sizeofBlock * (full.length + 1 + 1) < 2 ^ 64)
    (hst : ∀ c, c ≠ b.tail → st.node c ≠ none → st'.node c = st.node c)
    (htail : st'.node b.tail = some (last, some a)) (ha : st'.node a = some (zeros, none)) :
    Filled st' { b with tail := a } (full ++ [(b.tail, last)]) zeros 0 bytes := by
  refine ⟨h.chain.concat (fun c hc => ?_) htail ha, ?_, h.used, Nat.zero_le _, ?_⟩
  · obtain ⟨n, hn⟩ := h.chain.get_of_mem (List.mem_append_left _ hc)
    have hnodup := h.chain.nodup fun a ha => by cases ha
    refine hst c.1 (fun hct => ?_) (by simp [hn])
    rw [List.map_append, List.nodup_append] at hnodup
    exact hnodup.2.2 c.1 (List.mem_map_of_mem hc) b.tail (by simp) hct
  · rw [List.take_zero, List.append_nil, List.map_append, List.flatten_append, h.bytes_eq,
      List.take_of_length_le h.last_length.le]
    simp
  · simpa using hroom

/-- **A reset buffer** is its tail. -/
theorem reset (h : Filled st b full last fill bytes) :
    Filled st { b with used := 0, head := b.tail } [] last 0 [] := by
  refine ⟨h.chain.suffix, by simp, rfl, Nat.zero_le _, ?_⟩
  have hroom := h.room
  unfold sizeofBlock at hroom ⊢
  simp only [List.length_nil]
  omega

end Filled

end Insomniac.Buffer

import Insomniac.Buffer.Contents

/-!
# Buffer/Writes — writing a string block by block

    bytes ┊ data                      fill          fill + n
    [ … full … ][ last ‥‥ ]   ──▸   [ … full … ][ last ▪▪▪ ]   ──push, if full──▸   …

One round of `buffer_write` copies what fits behind the bytes in use (`copyIn_run`) and pushes a block
when the tail is full (`bufferPush_ends`).  The source may be a block of the same buffer: its bytes
are in use already, and a write only touches bytes that are not (`Source.Gives`).
-/

open Linked Run

namespace Insomniac.Buffer

/-! ## Several buffers

While a buffer is written its tail may be full, and it is the only one whose blocks change; the others are left
alone because no chain passes through the tail of another one. -/

/-- **The buffers hold `contents`**: each one its string, in blocks of its own. -/
structure Represents (st : Store) (contents : List (List UInt8)) : Prop where
  length : st.buffers.length = contents.length
  holds : ∀ (i : Handle) b bytes, st.buffers[i]? = some b → contents[i]? = some bytes →
    ∃ full last fill, Filled st b full last fill bytes ∧ fill < blockSize
  apart : ∀ (i j : Handle) b b', st.buffers[i]? = some b → st.buffers[j]? = some b' → b.tail = b'.tail → i = j

/-- The buffers while buffer `i` is written: its own tail may be full. -/
structure Writing (st : Store) (contents : List (List UInt8)) (i : Handle) (b : BufferInternal)
    (full : List (Addr × List UInt8)) (last : List UInt8) (fill : ℕ) (bytes : List UInt8) :
    Prop where
  length : st.buffers.length = contents.length
  here : st.buffers[i]? = some b
  filled : Filled st b full last fill bytes
  others : ∀ (j : Handle) b' bytes, j ≠ i → st.buffers[j]? = some b' → contents[j]? = some bytes →
    ∃ full last fill, Filled st b' full last fill bytes ∧ fill < blockSize
  apart : ∀ (j : Handle) b', j ≠ i → st.buffers[j]? = some b' → b'.tail ≠ b.tail
  apart_others : ∀ (j k : Handle) b' b'', j ≠ i → k ≠ i → st.buffers[j]? = some b' →
    st.buffers[k]? = some b'' → b'.tail = b''.tail → j = k

/-- What stays when buffers grow: their heads and the links between blocks. -/
structure Kept (st st' : Store) : Prop where
  links : ∀ a c, next st.node (some a) = some c → next st'.node (some a) = some c
  heads : ∀ (j : Handle) b, st.buffers[j]? = some b → ∃ b', st'.buffers[j]? = some b' ∧ b'.head = b.head

namespace Kept

variable {st st' st'' : Store}

theorem refl (st : Store) : Kept st st := ⟨fun _ _ h => h, fun _ b h => ⟨b, h, rfl⟩⟩

/-- Buffers that grow twice keep what stays. -/
theorem trans (h : Kept st st') (h' : Kept st' st'') : Kept st st'' where
  links a c hac := h'.links a c (h.links a c hac)
  heads j b hb := by
    obtain ⟨b', hb', hhead⟩ := h.heads j b hb
    obtain ⟨b'', hb'', hhead'⟩ := h'.heads j b' hb'
    exact ⟨b'', hb'', hhead'.trans hhead⟩

end Kept

section Writing

variable {st st' : Store} {contents : List (List UInt8)} {i : Handle} {b b' : BufferInternal}
  {full full' : List (Addr × List UInt8)} {last last' bytes bytes' : List UInt8} {fill fill' : ℕ}

/-- A buffer is ready to be written. -/
theorem Represents.writing (h : Represents st contents) (hb : st.buffers[i]? = some b)
    (hbytes : contents[i]? = some bytes) :
    ∃ full last fill, Writing st contents i b full last fill bytes ∧ fill < blockSize := by
  obtain ⟨full, last, fill, hfilled, hlt⟩ := h.holds i b bytes hb hbytes
  exact ⟨full, last, fill,
    { length := h.length
      here := hb
      filled := hfilled
      others := fun j b' bytes _ hb' hbytes => h.holds j b' bytes hb' hbytes
      apart := fun j b' hji hb' heq => hji (h.apart j i b' b hb' hb heq)
      apart_others := fun j k b' b'' _ _ => h.apart j k b' b'' }, hlt⟩

/-- When its tail is not full, a buffer that was written holds its string. -/
theorem Writing.represents (h : Writing st contents i b full last fill bytes)
    (hfill : fill < blockSize) : Represents st (contents.set i bytes) where
  length := by rw [List.length_set, h.length]
  holds j b' bytes' hb' hbytes' := by
    rcases eq_or_ne j i with rfl | hji
    · obtain rfl : b = b' := Option.some.inj (h.here.symm.trans hb')
      obtain ⟨hlt, -⟩ := List.getElem?_eq_some_iff.mp hb'
      rw [List.getElem?_set_self (h.length ▸ hlt)] at hbytes'
      cases hbytes'
      exact ⟨full, last, fill, h.filled, hfill⟩
    · rw [List.getElem?_set_ne hji.symm] at hbytes'
      exact h.others j b' bytes' hji hb' hbytes'
  apart j k b₁ b₂ hb₁ hb₂ heq := by
    rcases eq_or_ne j i with rfl | hj
    · obtain rfl : b = b₁ := Option.some.inj (h.here.symm.trans hb₁)
      by_contra hne
      exact h.apart k b₂ (Ne.symm hne) hb₂ heq.symm
    · rcases eq_or_ne k i with rfl | hk
      · obtain rfl : b = b₂ := Option.some.inj (h.here.symm.trans hb₂)
        exact absurd heq (h.apart j b₁ hj hb₁)
      · exact h.apart_others j k b₁ b₂ hj hk hb₁ hb₂ heq

/-- **A change at the tail of buffer `i`**: the other buffers stay. -/
theorem Writing.change (h : Writing st contents i b full last fill bytes)
    (hbuffers : st'.buffers = st.buffers.set i b')
    (hfilled : Filled st' b' full' last' fill' bytes')
    (hagree : ∀ a, a ≠ b.tail → st.node a ≠ none → st'.node a = st.node a)
    (htail : b'.tail = b.tail ∨ st.node b'.tail = none) :
    Writing st' contents i b' full' last' fill' bytes' := by
  obtain ⟨hlt, -⟩ := List.getElem?_eq_some_iff.mp h.here
  have hback : ∀ {j b₁}, j ≠ i → st'.buffers[j]? = some b₁ → st.buffers[j]? = some b₁ := by
    intro j b₁ hji hb₁
    rwa [hbuffers, List.getElem?_set_ne hji.symm] at hb₁
  refine ⟨?_, ?_, hfilled, fun j b₁ bytes₁ hji hb₁ hbytes₁ => ?_, fun j b₁ hji hb₁ => ?_, ?_⟩
  · rw [hbuffers, List.length_set, h.length]
  · rw [hbuffers, List.getElem?_set_self hlt]
  · obtain ⟨full₁, last₁, fill₁, hfilled₁, hfill₁⟩ := h.others j b₁ bytes₁ hji (hback hji hb₁) hbytes₁
    exact ⟨full₁, last₁, fill₁,
      hfilled₁.frame h.filled.tail_node (h.apart j b₁ hji (hback hji hb₁)) hagree, hfill₁⟩
  · rcases htail with htail | htail
    · rw [htail]
      exact h.apart j b₁ hji (hback hji hb₁)
    · intro heq
      have hj : j < contents.length := by
        rw [← h.length]
        exact (List.getElem?_eq_some_iff.mp (hback hji hb₁)).1
      obtain ⟨_, _, _, hfilled₁, -⟩ :=
        h.others j b₁ _ hji (hback hji hb₁) (List.getElem?_eq_getElem hj)
      rw [← heq, hfilled₁.tail_node] at htail
      cases htail
  · intro j k b₁ b₂ hj hk hb₁ hb₂
    exact h.apart_others j k b₁ b₂ hj hk (hback hj hb₁) (hback hk hb₂)

end Writing

/-- A change at a tail, and a new head-preserving record of the buffer, keep heads and links. -/
theorem Kept.of_tail {st st' : Store} {i : Handle} {b b' : BufferInternal} {last : List UInt8}
    (hb : st.buffers[i]? = some b) (hbuffers : st'.buffers = st.buffers.set i b')
    (hhead : b'.head = b.head) (htail : st.node b.tail = some (last, none))
    (hagree : ∀ a, a ≠ b.tail → st.node a ≠ none → st'.node a = st.node a) : Kept st st' where
  links a c hac := by
    rw [next, Option.bind_some] at hac ⊢
    rw [hagree a, hac]
    · rintro rfl
      rw [htail] at hac
      cases hac
    · intro hnone
      rw [hnone] at hac
      cases hac
  heads j b₁ hb₁ := by
    rcases eq_or_ne j i with rfl | hji
    · obtain rfl : b = b₁ := Option.some.inj (hb.symm.trans hb₁)
      refine ⟨b', ?_, hhead⟩
      rw [hbuffers, List.getElem?_set_self (List.getElem?_eq_some_iff.mp hb).1]
    · exact ⟨b₁, by rw [hbuffers, List.getElem?_set_ne hji.symm, hb₁], rfl⟩

/-! ## The store after an assignment

The functions of the source read a block or a buffer, change a field and write it back; these lemmas read the
store after that. -/

section Store

variable {st : Store} {i : Handle} {b : BufferInternal}

/-- A buffer that exists is read. -/
theorem getBuffer_run (h : st.buffers[i]? = some b) : getBuffer i st = .ok (b, st) := by
  refine (run_bind (t := st) rfl).trans ?_
  rw [h]
  rfl

/-- A block that exists is read. -/
theorem getBlock_run {a : Addr} {block : Block} (h : st.blocks[a]? = some block) :
    getBlock a st = .ok (block, st) := by
  refine (run_bind (t := st) rfl).trans ?_
  rw [h]
  rfl

/-- The nodes after one block was overwritten. -/
theorem node_set {a : Addr} {block : Block} (block' : Block) (buffers : List BufferInternal)
    (h : st.blocks[a]? = some block) (c : Addr) :
    Store.node ⟨st.blocks.set a block', buffers⟩ c =
      if c = a then some (block'.block, block'.next) else st.node c := by
  obtain ⟨hlt, -⟩ := List.getElem?_eq_some_iff.mp h
  unfold Store.node
  split
  · subst c
    rw [List.getElem?_set_self hlt, Option.map_some]
  · rw [List.getElem?_set_ne (Ne.symm ‹_›)]

end Store

/-! ## The source of a write

A write reads from an array of the caller or from a block, and that block may be the tail that is written.  Then
the bytes it reads are in use already, and the ones it writes are not. -/

/-- The object a source points into. -/
def Source.content (st : Store) : Source → Option (List UInt8)
  | .array bytes => some bytes
  | .block a => (st.node a).map Prod.fst

/-- **The source holds `data` at `offset`**, and if it is the tail that is written, among the bytes
already in use. -/
structure Source.Gives (src : Source) (st : Store) (tail : Addr) (fill offset : ℕ)
    (data : List UInt8) : Prop where
  content : ∃ content, src.content st = some content ∧ data <+: content.drop offset
  in_use : ∀ a, src = .block a → a = tail → offset + data.length ≤ fill

/-- **What is left of the source** after a round. -/
theorem Source.Gives.written {src : Source} {st st' : Store} {tail : Addr} {fill offset : ℕ}
    {data rest last : List UInt8} (h : src.Gives st tail fill offset (data ++ rest))
    (htail : st'.node tail = some (Chunks.splice last fill data, none))
    (hagree : ∀ a, a ≠ tail → st'.node a = st.node a) (hlast : st.node tail = some (last, none))
    (hfill : fill ≤ last.length) :
    src.Gives st' tail (fill + data.length) (offset + data.length) rest := by
  obtain ⟨content, hcontent, hprefix⟩ := h.content
  have hrest : rest <+: content.drop (offset + data.length) := by
    have hdrop := List.IsPrefix.drop hprefix data.length
    rwa [List.drop_left, List.drop_drop] at hdrop
  refine ⟨?_, fun a ha hat => ?_⟩
  · cases src with
    | array bytes => exact ⟨content, hcontent, hrest⟩
    | block a =>
      rcases eq_or_ne a tail with rfl | ha
      · have huse := h.in_use a rfl rfl
        rw [List.length_append] at huse
        obtain rfl : last = content := by
          rw [Source.content, hlast] at hcontent
          exact Option.some.inj hcontent
        refine ⟨_, by rw [Source.content, htail, Option.map_some], ?_⟩
        exact Chunks.prefix_drop_of_take_eq (Chunks.splice_take_of_le hfill le_rfl) (by omega) hrest
      · refine ⟨content, ?_, hrest⟩
        rw [Source.content, hagree a ha]
        exact hcontent
  · have huse := h.in_use a ha hat
    rw [List.length_append] at huse
    omega

/-- Reading a part of a source gives these bytes. -/
theorem Source.read_run {src : Source} {st : Store} {offset n : ℕ} {content : List UInt8}
    (h : src.content st = some content) (hn : offset + n ≤ content.length) :
    src.read offset n st = .ok ((content.drop offset).take n, st) := by
  have hresult : (if offset + n ≤ content.length then pure ((content.drop offset).take n)
      else throw Stop.undefined : BufferM (List UInt8)) st =
        .ok ((content.drop offset).take n, st) := by
    rw [if_pos hn]
    rfl
  cases src with
  | array bytes =>
    cases h
    exact hresult
  | block a =>
    obtain ⟨⟨bytes, n⟩, hnode, rfl⟩ := Option.map_eq_some_iff.mp h
    obtain ⟨block, hblock, rfl, -⟩ := node_eq_some hnode
    exact (run_bind (getBlock_run hblock)).trans hresult

/-! ## One round of a write

A round copies what fits into the tail and pushes a block when the tail is full.  Pushing is the one thing that
needs memory, and it fails only when the address space is used up. -/

section Round

variable {st : Store} {contents : List (List UInt8)} {i : Handle} {b : BufferInternal}
  {full : List (Addr × List UInt8)} {last bytes : List UInt8} {fill offset : ℕ} {src : Source}

/-- **Copying behind the bytes in use.** -/
theorem copyIn_run (h : Writing st contents i b full last fill bytes) {data rest : List UInt8}
    (hsrc : src.Gives st b.tail fill offset (data ++ rest)) (hdata : data ≠ [])
    (hfits : fill + data.length ≤ blockSize) :
    ∃ st₁, memcpyIn b.tail fill src offset data.length st = .ok ((), st₁) ∧
      let b' := { b with used := b.used + data.length }
      let st' : Store := { st₁ with buffers := st₁.buffers.set i b' }
      Writing st' contents i b' full (Chunks.splice last fill data) (fill + data.length)
          (bytes ++ data) ∧
        src.Gives st' b'.tail (fill + data.length) (offset + data.length) rest ∧ Kept st st' := by
  obtain ⟨content, hcontent, hprefix⟩ := hsrc.content
  have hpos : 0 < data.length := List.length_pos_iff.mpr hdata
  have hlen := hprefix.length_le
  rw [List.length_append, List.length_drop] at hlen
  have hlast := h.filled.last_length
  obtain ⟨block, hblock, hbytes, hnext⟩ := node_eq_some h.filled.tail_node
  have hread : (content.drop offset).take data.length = data := by
    have htake := List.prefix_iff_eq_take.mp ((List.prefix_append data rest).trans hprefix)
    exact htake.symm
  have hoverlaps : src.overlaps offset data.length b.tail fill = false := by
    cases src with
    | array bytes => rfl
    | block a =>
      have huse := hsrc.in_use a rfl
      rw [List.length_append] at huse
      simp only [Source.overlaps, decide_eq_false_iff_not]
      rintro ⟨ha, hlt, hlt'⟩
      have hfill := huse ha
      omega
  have hroom : fill + data.length ≤ block.block.length := by
    rw [hbytes, hlast]
    exact hfits
  let block' : Block := ⟨Chunks.splice block.block fill data, block.next,
    (Chunks.splice_length hroom).trans block.sized⟩
  refine ⟨{ st with blocks := st.blocks.set b.tail block' }, ?_, ?_⟩
  · refine (run_bind (Source.read_run hcontent (by omega))).trans ?_
    rw [hread, hoverlaps, if_neg Bool.false_ne_true]
    refine (run_bind (getBlock_run hblock)).trans ?_
    rw [dif_pos hroom]
    rfl
  · have hnode := node_set block' (st.buffers.set i { b with used := b.used + data.length }) hblock
    have htail : Store.node ⟨st.blocks.set b.tail block',
        st.buffers.set i { b with used := b.used + data.length }⟩ b.tail =
          some (Chunks.splice last fill data, none) := by
      rw [hnode, if_pos rfl, ← hbytes, ← hnext]
    have hagree : ∀ a, a ≠ b.tail → Store.node ⟨st.blocks.set b.tail block',
        st.buffers.set i { b with used := b.used + data.length }⟩ a = st.node a := by
      intro a ha
      rw [hnode, if_neg ha]
    refine ⟨?_, ?_, ?_⟩
    · exact h.change rfl (h.filled.write hfits hagree htail) (fun a ha _ => hagree a ha) (Or.inl rfl)
    · exact hsrc.written htail hagree h.filled.tail_node (by omega)
    · exact Kept.of_tail h.here rfl rfl h.filled.tail_node fun a ha _ => hagree a ha

/-- Memory is used up by a buffer of `n` bytes. -/
def Exhausted (n : ℕ) (e : Stop) : Prop := e = .memory ∧ 2 ^ 64 ≤ sizeofBlock * (n / blockSize + 1)

/-- A longer string uses memory up where a shorter one does. -/
theorem Exhausted.mono {n m : ℕ} {e : Stop} (h : Exhausted n e) (hle : n ≤ m) : Exhausted m e := by
  have hblocks : n / blockSize ≤ m / blockSize := Nat.div_le_div_right hle
  exact ⟨h.1, h.2.trans (Nat.mul_le_mul_left _ (by omega))⟩

/-- **Pushing a block** behind a full tail. -/
theorem bufferPush_ends (h : Writing st contents i b full last blockSize bytes) :
    Ends (Exhausted bytes.length) (bufferPush i) st fun _ st' => ∃ b' full' last',
      Writing st' contents i b' full' last' 0 bytes ∧ b'.used = b.used ∧
        b'.tail = st.blocks.length ∧ Kept st st' ∧
        (∀ a, a ≠ b.tail → st.node a ≠ none → st'.node a = st.node a) ∧
        (∃ n, st'.node b.tail = some (last, n)) := by
  refine ends_bind.mpr (ends_of_eq (getBuffer_run h.here) ?_)
  refine ends_bind.mpr (ends_of_eq (a := st) (t := st) rfl ?_)
  rw [h.filled.chainLength]
  refine ends_bind.mpr ?_
  by_cases hroom : 2 ^ 64 ≤ sizeofBlock * (full.length + 1 + 1)
  · have hblocks : bytes.length / blockSize = full.length + 1 := by
      rw [← h.filled.used, h.filled.used_eq, ← Nat.mul_succ, Nat.mul_div_cancel_left _ (by decide)]
    refine Or.inr ⟨.memory, ?_, rfl, hblocks.symm ▸ hroom⟩
    refine (run_bind (t := st) rfl).trans ?_
    rw [if_pos hroom]
    rfl
  let st₁ : Store := { st with blocks := st.blocks ++ [zeroedBlock] }
  have halloc : gcAllocBlock (full.length + 1) st = .ok (st.blocks.length, st₁) := by
    refine (run_bind (t := st) rfl).trans ?_
    rw [if_neg hroom]
    rfl
  obtain ⟨block, hblock, hbytes, hnext⟩ := node_eq_some h.filled.tail_node
  have hlt : b.tail < st.blocks.length := (List.getElem?_eq_some_iff.mp hblock).1
  have hblock₁ : st₁.blocks[b.tail]? = some block := by
    rw [List.getElem?_append_left hlt, hblock]
  refine ends_of_eq halloc (ends_bind.mpr (ends_of_eq (getBlock_run hblock₁) ?_))
  have hnode := node_set { block with next := some st.blocks.length }
    (st.buffers.set i { b with tail := st.blocks.length }) hblock₁
  have hold : ∀ a, st.node a ≠ none → st₁.node a = st.node a := by
    intro a ha
    rw [Store.node, List.getElem?_append_left (node_lt ha), Store.node]
  have hnew : st₁.node st.blocks.length = some (List.replicate blockSize 0, none) := by
    rw [Store.node, List.getElem?_concat_length]
    rfl
  have hne : st.blocks.length ≠ b.tail := Ne.symm (Nat.ne_of_lt hlt)
  refine ends_of_eq rfl ⟨{ b with tail := st.blocks.length }, full ++ [(b.tail, last)],
    List.replicate blockSize 0, ?_⟩
  have hagree : ∀ a, a ≠ b.tail → st.node a ≠ none → Store.node ⟨st₁.blocks.set b.tail
      { block with next := some st.blocks.length },
      st.buffers.set i { b with tail := st.blocks.length }⟩ a = st.node a := by
    intro a ha hnode'
    rw [hnode, if_neg ha, hold a hnode']
  have htail : Store.node ⟨st₁.blocks.set b.tail { block with next := some st.blocks.length },
      st.buffers.set i { b with tail := st.blocks.length }⟩ b.tail =
        some (last, some st.blocks.length) := by
    rw [hnode, if_pos rfl, ← hbytes]
  refine ⟨?_, rfl, rfl, Kept.of_tail h.here rfl rfl h.filled.tail_node hagree, hagree, _, htail⟩
  refine h.change rfl (h.filled.push (by omega) hagree htail ?_) hagree (Or.inr ?_)
  · rw [hnode, if_neg hne, hnew]
  · exact node_none le_rfl

end Round

/-! ## The whole write

The induction is on the fuel, which a round uses one unit of; what is left of the data gets shorter by what was
copied. -/

/-- The source behind a pushed block. -/
theorem Source.Gives.pushed {src : Source} {st st' : Store} {tail tail' : Addr}
    {fill offset : ℕ} {data last : List UInt8} (h : src.Gives st tail fill offset data)
    (hlast : st.node tail = some (last, none)) (htail : ∃ n, st'.node tail = some (last, n))
    (hagree : ∀ a, a ≠ tail → st.node a ≠ none → st'.node a = st.node a)
    (hnew : st.node tail' = none) : src.Gives st' tail' 0 offset data := by
  obtain ⟨content, hcontent, hprefix⟩ := h.content
  cases src with
  | array bytes => exact ⟨⟨content, hcontent, hprefix⟩, fun a ha => by cases ha⟩
  | block a =>
    obtain ⟨⟨bytes, n⟩, hnode, rfl⟩ := Option.map_eq_some_iff.mp hcontent
    refine ⟨⟨bytes, ?_, hprefix⟩, fun a' ha' hat => ?_⟩
    · rcases eq_or_ne a tail with rfl | ha
      · obtain ⟨m, hm⟩ := htail
        rw [hlast] at hnode
        cases hnode
        rw [Source.content, hm, Option.map_some]
      · rw [Source.content, hagree a ha (by simp [hnode]), hnode, Option.map_some]
    · cases ha'
      rw [hat, hnew] at hnode
      cases hnode

section Write

variable {contents : List (List UInt8)} {i : Handle} {src : Source}

/-- **The loop of `buffer_write`** appends what the source holds. -/
theorem bufferWriteLoop_ends : ∀ (fuel : ℕ) {st : Store} {b : BufferInternal}
    {full : List (Addr × List UInt8)} {last bytes data : List UInt8} {fill offset : ℕ},
    Writing st contents i b full last fill bytes → fill < blockSize →
    src.Gives st b.tail fill offset data → data.length ≤ fuel → offset + data.length < 2 ^ 64 →
    Ends (Exhausted (bytes.length + data.length)) (bufferWriteLoop i src fuel fill
      ((min data.length (blockSize - fill) : ℕ) : ℤ) offset data.length) st fun _ st' =>
        Represents st' (contents.set i (bytes ++ data)) ∧ Kept st st' := by
  intro fuel
  induction fuel with
  | zero =>
    intro st b full last bytes data fill offset h hfill hsrc hfuel hsize
    obtain rfl : data = [] := List.length_eq_zero_iff.mp (Nat.le_zero.mp hfuel)
    rw [List.append_nil]
    exact ends_pure ⟨h.represents hfill, Kept.refl st⟩
  | succ fuel ih =>
    intro st b full last bytes data fill offset h hfill hsrc hfuel hsize
    rcases eq_or_ne data [] with rfl | hdata
    · rw [List.append_nil]
      exact ends_pure ⟨h.represents hfill, Kept.refl st⟩
    have hpos : 0 < data.length := List.length_pos_iff.mpr hdata
    obtain ⟨n, hn⟩ : ∃ n, n = min data.length (blockSize - fill) := ⟨_, rfl⟩
    have hnle : n ≤ blockSize := by omega
    obtain ⟨chunk, rest, rfl, hchunk⟩ : ∃ chunk rest, data = chunk ++ rest ∧ chunk.length = n :=
      ⟨data.take n, data.drop n, (List.take_append_drop n data).symm, by
        rw [List.length_take]
        omega⟩
    rw [List.length_append] at *
    rw [← hn, bufferWriteLoop, if_neg (by omega), toSize_natCast hnle, ← hchunk]
    obtain ⟨st₁, hrun, hwriting, hsrc₁, hkept⟩ :=
      copyIn_run h hsrc (List.length_pos_iff.mp (by omega)) (by omega)
    refine ends_bind.mpr (ends_of_eq (getBuffer_run h.here) (ends_bind.mpr (ends_of_eq hrun ?_)))
    have hused := h.filled.used_eq
    have hused₁ := hwriting.filled.used_lt
    rw [addSize_eq (by omega), addSize_eq hused₁, subSize_eq (by omega) (by omega)]
    refine ends_bind.mpr (ends_of_eq rfl ?_)
    rw [Nat.add_sub_cancel_left]
    by_cases hfull : fill + chunk.length = blockSize
    · have hmod : (b.used + chunk.length) % blockSize = 0 := by
        rw [hused, Nat.add_assoc, hfull, Nat.mul_add_mod_self_left, Nat.mod_self]
      rw [hfull] at hwriting hsrc₁
      rw [if_pos hmod]
      have hpushed := (bufferPush_ends hwriting).allow fun e he => he.mono
        (show (bytes ++ chunk).length ≤ bytes.length + (chunk.length + rest.length) by
          rw [List.length_append]
          omega)
      refine hpushed.bind fun _ st₂ hpush => ?_
      obtain ⟨b₂, full₂, last₂, hwriting₂, -, htail₂, hkept₂, hagree₂, hlast₂⟩ := hpush
      have hsrc₂ : src.Gives st₂ b₂.tail 0 (offset + chunk.length) rest := by
        refine hsrc₁.pushed hwriting.filled.tail_node hlast₂ hagree₂ ?_
        rw [htail₂]
        exact node_none le_rfl
      have hremaining : (if blockSize ≤ rest.length then (blockSize : ℤ) else toInt rest.length) =
          ((min rest.length (blockSize - 0) : ℕ) : ℤ) := by
        split
        · rw [Nat.min_eq_right (by omega), Nat.sub_zero]
        · rw [toInt_eq (by omega), Nat.min_eq_left (by omega)]
      have hloop := ih hwriting₂ (by decide) hsrc₂ (by omega) (by omega)
      rw [← hremaining, List.append_assoc, List.length_append, Nat.add_assoc] at hloop
      exact hloop.mono fun _ st₃ ⟨hrep, hkept₃⟩ => ⟨hrep, (hkept.trans hkept₂).trans hkept₃⟩
    · have hlt : fill + chunk.length < blockSize := by omega
      obtain rfl : rest = [] := List.length_eq_zero_iff.mp (by omega)
      have hmod : (b.used + chunk.length) % blockSize ≠ 0 := by
        rw [hused, Nat.add_assoc, Nat.mul_add_mod_self_left, Nat.mod_eq_of_lt hlt]
        omega
      rw [if_neg hmod]
      refine ends_of_eq (a := ()) ?_ ⟨?_, hkept⟩
      · cases fuel <;> rfl
      · rw [List.append_nil]
        exact hwriting.represents hlt

/-- **`buffer_write`** appends what the source holds. -/
theorem bufferWrite_ends {st : Store} {b : BufferInternal} {full : List (Addr × List UInt8)}
    {last bytes data : List UInt8} {fill : ℕ} (h : Writing st contents i b full last fill bytes)
    (hfill : fill < blockSize) (hsrc : src.Gives st b.tail fill 0 data)
    (hsize : data.length < 2 ^ 64) :
    Ends (Exhausted (bytes.length + data.length)) (bufferWrite i src data.length) st fun _ st' =>
      Represents st' (contents.set i (bytes ++ data)) ∧ Kept st st' := by
  refine ends_bind.mpr (ends_of_eq (getBuffer_run h.here) ?_)
  have hmod : b.used % blockSize = fill := (h.filled.fill_eq hfill).symm
  have hsub : subSize blockSize fill = blockSize - fill := subSize_eq (by decide) hfill.le
  have hne : ((blockSize - fill : ℕ) : ℤ) ≠ 0 := by omega
  have hremaining : (if data.length < blockSize - fill then toInt data.length
      else ((blockSize - fill : ℕ) : ℤ)) = ((min data.length (blockSize - fill) : ℕ) : ℤ) := by
    split
    · rw [toInt_eq (by omega), Nat.min_eq_left (by omega)]
    · rw [Nat.min_eq_right (by omega)]
  rw [hmod]
  dsimp only
  rw [hsub, toInt_eq (by omega), if_neg hne, toSize_natCast (by omega)]
  have hloop := bufferWriteLoop_ends data.length h hfill hsrc le_rfl (by omega)
  rw [← hremaining] at hloop
  exact hloop

end Write

end Insomniac.Buffer

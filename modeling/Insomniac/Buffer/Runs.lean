import Insomniac.Buffer.Writes

/-!
# Buffer/Runs — the buffer is an append-only string

    create, write, append, reset, …  ──▸  contents : one string for each buffer

`Op` is a call of the interface, `Op.apply` what it does to the strings.  `buffer_is_byte_string`: any
sequence of calls leaves blocks that hold exactly those strings, and returns wherever the strings fit into
the address space (`OutOfMemory`).  `buffer_read` and `buffer_append` walk the chain in step with the string
(`Filled.chunk`); the chain of the source may grow under `buffer_append`, but the links it has passed stay (`Kept`).
-/

open Linked Run

namespace Insomniac.Buffer

/-- **Block `k` of a buffer** holds the string from `4096 * k` on. -/
theorem Filled.chunk {st : Store} {b : BufferInternal} {full : List (Addr × List UInt8)}
    {last bytes : List UInt8} {fill k n : ℕ} (h : Filled st b full last fill bytes)
    (hn : n ≤ blockSize) (hpos : 0 < n) (hk : blockSize * k + n ≤ bytes.length) :
    ∃ a content p, walk st.node k (some b.head) = some a ∧ st.node a = some (content, p) ∧
      walk st.node (k + 1) (some b.head) = p ∧
      content.take n = (bytes.drop (blockSize * k)).take n ∧
      (a, content) ∈ full ++ [(b.tail, last)] ∧ (a = b.tail → n ≤ fill) := by
  have hused := h.used_eq
  have hfill := h.fill_le
  rw [← h.used] at hk
  unfold blockSize at hn hk hfill hused
  have hlt : k < (full ++ [(b.tail, last)]).length := by
    rw [List.length_append, List.length_singleton]
    omega
  obtain ⟨a, ha⟩ : ∃ a, walk st.node k (some b.head) = some a := by
    rw [h.chain.walk_eq, List.getElem?_eq_getElem hlt]
    exact ⟨_, rfl⟩
  obtain ⟨content, p, hget, hnode, hnext⟩ := h.chain.get_of_walk ha
  refine ⟨a, content, p, ha, hnode, hnext, ?_, List.mem_of_getElem? hget, fun hat => ?_⟩
  · have hchunk : ((full ++ [(b.tail, last)]).map Prod.snd)[k]? = some content := by
      rw [List.getElem?_map, hget]
      rfl
    rw [h.bytes_eq_take]
    exact (Chunks.take_chunk (length_of_mem h.chain) hchunk hn hk).symm
  · have hnodup := h.chain.nodup fun a ha => by cases ha
    have hlast : ((full ++ [(b.tail, last)]).map Prod.fst)[full.length]? = some b.tail := by simp
    have hhere : ((full ++ [(b.tail, last)]).map Prod.fst)[k]? = some b.tail := by
      rw [List.getElem?_map, hget, ← hat]
      rfl
    have hk_eq : k = full.length :=
      (List.getElem?_inj (by simpa using hlt) hnodup).mp (hhere.trans hlast.symm)
    omega

/-! ## `buffer_read`

The loop copies block after block, from the front of the string on, so after some rounds the destination has a
prefix of it. -/

/-- A copy out of a block that stays in the block. -/
theorem memcpyOut_run {st : Store} {a : Addr} {content dest : List UInt8} {p : Option Addr}
    {offset n : ℕ} (hnode : st.node a = some (content, p)) (hn : n ≤ content.length)
    (hdest : offset + n ≤ dest.length) :
    memcpyOut dest offset a n st = .ok (Chunks.splice dest offset (content.take n), st) := by
  have hcontent : (Source.block a).content st = some content := by rw [Source.content, hnode]; rfl
  refine (run_bind (Source.read_run hcontent (by omega))).trans ?_
  rw [if_pos hdest, List.drop_zero]
  rfl

/-- The loop of `buffer_read` is over when enough has been read. -/
theorem bufferReadLoop_done {st : Store} {dest : List UInt8} {offset length : ℕ}
    (h : length ≤ offset) (fuel : ℕ) (p : Option Addr) :
    bufferReadLoop length fuel p offset dest st = .ok ((offset, dest), st) := by
  cases p with
  | none => cases fuel <;> rfl
  | some a =>
    rw [bufferReadLoop.eq_def]
    dsimp only
    rw [if_neg (Nat.not_lt.mpr h)]
    rfl

/-- **The loop of `buffer_read`**, in step with the string. -/
theorem bufferReadLoop_run {st : Store} {b : BufferInternal} {full : List (Addr × List UInt8)}
    {last bytes dest : List UInt8} {fill length : ℕ} (h : Filled st b full last fill bytes)
    (hlength : length ≤ bytes.length) (hdest : length ≤ dest.length) (hsize : length < 2 ^ 64) :
    ∀ (fuel k offset : ℕ), offset = min (blockSize * k) length → length - offset ≤ fuel →
      bufferReadLoop length fuel (walk st.node k (some b.head)) offset
          (Chunks.splice dest 0 (bytes.take offset)) st =
        .ok ((length, Chunks.splice dest 0 (bytes.take length)), st) := by
  intro fuel
  induction fuel with
  | zero =>
    intro k offset hoffset hfuel
    obtain rfl : offset = length := by omega
    exact bufferReadLoop_done le_rfl _ _
  | succ fuel ih =>
    intro k offset hoffset hfuel
    rcases Nat.lt_or_ge offset length with hlt | hge
    · obtain rfl : offset = blockSize * k := by omega
      obtain ⟨n, hn⟩ : ∃ n, n = min blockSize (length - blockSize * k) := ⟨_, rfl⟩
      have hblock : 0 < blockSize := by decide
      obtain ⟨a, content, p, hwalk, hnode, hnext, hchunk, hmem, -⟩ :=
        h.chunk (k := k) (n := n) (by omega) (by omega) (by omega)
      obtain ⟨block, hget, -, rfl⟩ := node_eq_some hnode
      have hamount : (if blockSize ≤ length - blockSize * k then blockSize
          else length - blockSize * k) = n := by
        split <;> omega
      have hcontent : content.length = blockSize :=
        length_of_mem h.chain content (List.mem_map_of_mem hmem)
      have htake : (bytes.take (blockSize * k)).length = blockSize * k := by
        rw [List.length_take]
        omega
      have hsplice := Chunks.splice_splice dest 0 (bytes.take (blockSize * k)) (content.take n)
        (by omega)
      rw [Nat.zero_add, htake, hchunk, ← List.take_add] at hsplice
      rw [hwalk, bufferReadLoop, if_pos hlt]
      dsimp only
      rw [subSize_eq hsize hlt.le, hamount, addSize_eq (by omega)]
      have hroom : blockSize * k + n ≤
          (Chunks.splice dest 0 (bytes.take (blockSize * k))).length := by
        rw [Chunks.splice_length (by omega)]
        omega
      have hcopy := memcpyOut_run hnode (by omega) hroom
      rw [hchunk, hsplice] at hcopy
      refine (run_bind hcopy).trans ((run_bind (getBlock_run hget)).trans ?_)
      rw [← hnext]
      exact ih (k + 1) (blockSize * k + n) (by rw [Nat.mul_succ]; omega) (by omega)
    · obtain rfl : offset = length := by omega
      exact bufferReadLoop_done le_rfl _ _

/-- **`buffer_read`** copies the first `length` bytes. -/
theorem bufferRead_run {st : Store} {i : Handle} {b : BufferInternal}
    {full : List (Addr × List UInt8)} {last bytes dest : List UInt8} {fill length : ℕ}
    (hb : st.buffers[i]? = some b) (h : Filled st b full last fill bytes)
    (hlength : length ≤ bytes.length) (hdest : length ≤ dest.length) :
    bufferRead i dest length st = .ok ((length, bytes.take length ++ dest.drop length), st) := by
  have hused := h.used_lt
  have hlen : (bytes.take length).length = length := by
    rw [List.length_take]
    omega
  have hloop := bufferReadLoop_run h hlength hdest (by rw [h.used] at hused; omega) length 0 0
    (by omega) (by omega)
  have hdone : Chunks.splice dest 0 (bytes.take length) = bytes.take length ++ dest.drop length := by
    rw [Chunks.splice, List.take_zero, List.nil_append, Nat.zero_add, hlen]
  have hstart : Chunks.splice dest 0 (bytes.take 0) = dest := by simp [Chunks.splice]
  rw [hstart, hdone] at hloop
  exact (run_bind (getBuffer_run hb)).trans hloop

/-- **`buffer_size`** is the length of the string. -/
theorem bufferSize_run {st : Store} {i : Handle} {b : BufferInternal}
    {full : List (Addr × List UInt8)} {last bytes : List UInt8} {fill : ℕ}
    (hb : st.buffers[i]? = some b) (h : Filled st b full last fill bytes) :
    bufferSize i st = .ok (bytes.length, st) := by
  refine (run_bind (getBuffer_run hb)).trans ?_
  rw [h.used]
  rfl

/-! ## `buffer_append`

A round reads a block of the source and writes it to the destination, which may be the same buffer.  The write
puts its bytes behind those in use and may push blocks behind the tail; what has been read of the source stays
where it is, and the length that was asked for is one it had before. -/

section Append

variable {contents : List (List UInt8)} {i j : Handle} {data dst bytes : List UInt8}

/-- The loop of `buffer_append` is over when enough has been appended. -/
theorem bufferAppendLoop_done {st : Store} {offset length : ℕ} (h : length ≤ offset) (fuel : ℕ)
    (p : Option Addr) : bufferAppendLoop i length fuel p offset st = .ok (offset, st) := by
  cases p with
  | none => cases fuel <;> rfl
  | some a =>
    rw [bufferAppendLoop.eq_def]
    dsimp only
    rw [if_neg (Nat.not_lt.mpr h)]
    rfl

/-- **The source of a round of `buffer_append`**: block `k` of the buffer `j`. -/
theorem Represents.gives {st : Store} (h : Represents st contents) {bi bj : BufferInternal}
    {full full' : List (Addr × List UInt8)} {last last' : List UInt8} {fill fill' : ℕ}
    (hi : Writing st contents i bi full last fill dst) (hj : st.buffers[j]? = some bj)
    (hfilled : Filled st bj full' last' fill' bytes) (hdst : i = j → fill = fill') {k n : ℕ}
    (hn : n ≤ blockSize) (hpos : 0 < n) (hk : blockSize * k + n ≤ bytes.length) :
    ∃ a, walk st.node k (some bj.head) = some a ∧
      (Source.block a).Gives st bi.tail fill 0 ((bytes.drop (blockSize * k)).take n) := by
  obtain ⟨a, content, p, hwalk, hnode, -, hchunk, hmem, htail⟩ := hfilled.chunk hn hpos hk
  refine ⟨a, hwalk, ⟨content, by rw [Source.content, hnode]; rfl, ?_⟩, fun a' ha' hat => ?_⟩
  · rw [← hchunk, List.drop_zero]
    exact List.take_prefix _ _
  · cases ha'
    have hlast : (a, content) = (bj.tail, last') :=
      hfilled.chain.eq_last hmem (hat ▸ hi.filled.tail_node)
    have haj : a = bj.tail := congrArg Prod.fst hlast
    have hij : i = j := h.apart i j bi bj hi.here hj (hat.symm.trans haj)
    have hle := htail haj
    rw [hdst hij, List.length_take]
    omega

/-- To put a string where it is already changes nothing. -/
theorem set_self (h : contents[i]? = some dst) : contents.set i dst = contents := by
  obtain ⟨hlt, rfl⟩ := List.getElem?_eq_some_iff.mp h
  exact List.set_getElem_self hlt

/-- A string is that of a buffer. -/
theorem Represents.buffer {st : Store} (h : Represents st contents) (hdst : contents[i]? = some dst) :
    ∃ b, st.buffers[i]? = some b :=
  ⟨_, List.getElem?_eq_getElem (h.length ▸ (List.getElem?_eq_some_iff.mp hdst).1)⟩

/-- The source after a round: it has grown if it is the destination. -/
theorem prefix_set (chunk : List UInt8) (hdst : contents[i]? = some dst)
    (hsrc : contents[j]? = some bytes) (hdata : data <+: bytes) :
    ∃ bytes', (contents.set i (dst ++ chunk))[j]? = some bytes' ∧ data <+: bytes' := by
  obtain ⟨hlt, -⟩ := List.getElem?_eq_some_iff.mp hdst
  rcases eq_or_ne j i with rfl | hji
  · obtain rfl : dst = bytes := Option.some.inj (hdst.symm.trans hsrc)
    exact ⟨_, List.getElem?_set_self hlt, hdata.trans (List.prefix_append _ _)⟩
  · exact ⟨bytes, by rw [List.getElem?_set_ne hji.symm, hsrc], hdata⟩

/-- **The loop of `buffer_append`**, in step with the string. -/
theorem bufferAppendLoop_ends : ∀ (fuel : ℕ) {st : Store} {contents : List (List UInt8)}
    {dst bytes : List UInt8} {b : BufferInternal} {k offset : ℕ}, Represents st contents →
    contents[i]? = some dst → contents[j]? = some bytes → st.buffers[j]? = some b →
    data <+: bytes → data.length < 2 ^ 64 →
    offset = min (blockSize * k) data.length → data.length - offset ≤ fuel →
    Ends (Exhausted (dst.length + (data.length - offset)))
      (bufferAppendLoop i data.length fuel (walk st.node k (some b.head)) offset) st
      fun n st' => n = data.length ∧ Represents st' (contents.set i (dst ++ data.drop offset)) := by
  have hdone : ∀ {st : Store} {contents : List (List UInt8)} {dst : List UInt8} (fuel : ℕ)
      (p : Option Addr), Represents st contents → contents[i]? = some dst →
      Ends (Exhausted (dst.length + (data.length - data.length)))
        (bufferAppendLoop i data.length fuel p data.length) st
        fun n st' => n = data.length ∧ Represents st' (contents.set i (dst ++ data.drop data.length)) := by
    intro st contents dst fuel p h hdst
    refine ends_of_eq (bufferAppendLoop_done le_rfl fuel p) ⟨rfl, ?_⟩
    rwa [List.drop_length, List.append_nil, set_self hdst]
  intro fuel
  induction fuel with
  | zero =>
    intro st contents dst bytes b k offset h hdst hsrc hb hdata hsize hoffset hfuel
    obtain rfl : offset = data.length := by omega
    exact hdone _ _ h hdst
  | succ fuel ih =>
    intro st contents dst bytes b k offset h hdst hsrc hb hdata hsize hoffset hfuel
    rcases Nat.lt_or_ge offset data.length with hlt | hge
    · obtain rfl : offset = blockSize * k := by omega
      obtain ⟨n, hn⟩ : ∃ n, n = min blockSize (data.length - blockSize * k) := ⟨_, rfl⟩
      have hblock : 0 < blockSize := by decide
      have hprefix := hdata.length_le
      obtain ⟨bi, hbi⟩ := h.buffer hdst
      obtain ⟨full, last, fill, hi, hfill⟩ := h.writing hbi hdst
      obtain ⟨full', last', fill', hfilled, hfill'⟩ := h.holds j b bytes hb hsrc
      have hsame : i = j → fill = fill' := by
        rintro rfl
        obtain rfl : bi = b := Option.some.inj (hbi.symm.trans hb)
        rw [hi.filled.fill_eq hfill, hfilled.fill_eq hfill']
      obtain ⟨a, hwalk, hgives⟩ := h.gives (k := k) (n := n) hi hb hfilled hsame (by omega)
        (by omega) (by omega)
      obtain ⟨chunk, hchunk⟩ : ∃ chunk, chunk = (bytes.drop (blockSize * k)).take n := ⟨_, rfl⟩
      have hlen : chunk.length = n := by
        rw [hchunk, List.length_take, List.length_drop]
        omega
      have hdrop : data.drop (blockSize * k) = chunk ++ data.drop (blockSize * k + n) := by
        obtain ⟨t, rfl⟩ := hdata
        rw [hchunk, List.drop_append_of_le_length (by omega),
          List.take_append_of_le_length (by rw [List.length_drop]; omega), ← List.drop_drop,
          List.take_append_drop]
      have hamount : (if blockSize ≤ data.length - blockSize * k then blockSize
          else data.length - blockSize * k) = n := by
        split <;> omega
      rw [← hchunk] at hgives
      rw [hwalk, bufferAppendLoop, if_pos hlt]
      dsimp only
      rw [subSize_eq hsize hlt.le, hamount, addSize_eq (by omega), ← hlen]
      have hwrite := (bufferWrite_ends hi hfill hgives (by omega)).allow fun e he => he.mono
        (show dst.length + chunk.length ≤ dst.length + (data.length - blockSize * k) by omega)
      refine hwrite.bind fun _ st₁ ⟨hrep, hkept⟩ => ?_
      obtain ⟨b₁, hb₁, hhead⟩ := hkept.heads j b hb
      obtain ⟨bytes₁, hsrc₁, hdata₁⟩ := prefix_set chunk hdst hsrc hdata
      have hdst₁ : (contents.set i (dst ++ chunk))[i]? = some (dst ++ chunk) :=
        List.getElem?_set_self (List.getElem?_eq_some_iff.mp hdst).1
      have hwalk₁ : walk st₁.node k (some b₁.head) = some a := by
        rw [hhead]
        exact walk_of_grown hkept.links hwalk
      obtain ⟨_, _, _, hfilled₁, -⟩ := hrep.holds j b₁ bytes₁ hb₁ hsrc₁
      obtain ⟨content, p, -, hnode, hnext⟩ := hfilled₁.chain.get_of_walk hwalk₁
      obtain ⟨block, hget, -, rfl⟩ := node_eq_some hnode
      refine ends_bind.mpr (ends_of_eq (getBlock_run hget) ?_)
      rw [← hnext]
      have hless : (dst ++ chunk).length + (data.length - (blockSize * k + chunk.length)) ≤
          dst.length + (data.length - blockSize * k) := by
        rw [List.length_append]
        omega
      have hstep : blockSize * k + chunk.length = min (blockSize * (k + 1)) data.length := by
        rw [Nat.mul_succ]
        omega
      have hrest := ih hrep hdst₁ hsrc₁ hb₁ hdata₁ hsize hstep (by omega)
      refine (hrest.allow fun e he => he.mono hless).mono ?_
      rintro m st₂ ⟨rfl, hrep₂⟩
      refine ⟨rfl, ?_⟩
      rwa [hdrop, ← List.append_assoc, ← hlen, ← List.set_set (dst ++ chunk)]
    · obtain rfl : offset = data.length := by omega
      exact hdone _ _ h hdst

/-- **`buffer_append`** appends the front of the source as it was. -/
theorem bufferAppend_ends {st : Store} {length : ℕ} (h : Represents st contents)
    (hdst : contents[i]? = some dst) (hsrc : contents[j]? = some bytes)
    (hlength : length = 2 ^ 64 - 1 ∨ length ≤ bytes.length) :
    Ends (Exhausted (dst ++ bytes.take (if length = 2 ^ 64 - 1 then bytes.length else length)).length)
      (bufferAppend i j length) st fun _ st' => Represents st' (contents.set i
        (dst ++ bytes.take (if length = 2 ^ 64 - 1 then bytes.length else length))) := by
  obtain ⟨b, hb⟩ := h.buffer hsrc
  obtain ⟨full, last, fill, hfilled, -⟩ := h.holds j b bytes hb hsrc
  have hused := hfilled.used_lt
  rw [hfilled.used] at hused
  obtain ⟨n, hn⟩ : ∃ n, n = if length = 2 ^ 64 - 1 then bytes.length else length := ⟨_, rfl⟩
  have hle : n ≤ bytes.length := by
    rw [hn]
    split <;> omega
  have hlen : (bytes.take n).length = n := by
    rw [List.length_take]
    omega
  have hstart : 0 = min (blockSize * 0) (bytes.take n).length := by omega
  have hloop := bufferAppendLoop_ends n h hdst hsrc hb (List.take_prefix n bytes) (by omega) hstart
    (by omega)
  rw [hlen, List.drop_zero, Nat.sub_zero] at hloop
  rw [← hn, List.length_append, hlen]
  refine ends_bind.mpr (ends_of_eq (getBuffer_run hb) ?_)
  by_cases hmax : length = 2 ^ 64 - 1
  · rw [if_pos hmax] at hn
    rw [if_pos hmax]
    refine ends_bind.mpr (ends_of_eq (bufferSize_run hb hfilled) ?_)
    rw [← hn]
    exact hloop.mono fun _ _ h => h.2
  · rw [if_neg hmax] at hn
    rw [if_neg hmax, ← hn]
    exact hloop.mono fun _ _ h => h.2

end Append

/-! ## `buffer_create` and `buffer_reset`

A buffer has a block from its beginning on; a reset keeps the tail and forgets the blocks in front of it. -/

section Create

variable {contents : List (List UInt8)} {st : Store}

/-- **A new buffer** is empty. -/
theorem bufferCreate_run (h : Represents st contents) :
    ∃ st', bufferCreate st = .ok (contents.length, st') ∧ Represents st' (contents ++ [[]]) := by
  let b : BufferInternal := ⟨st.blocks.length, st.blocks.length, 0⟩
  let st' : Store := ⟨st.blocks ++ [zeroedBlock], st.buffers ++ [b]⟩
  have hrun : bufferCreate st = .ok (st.buffers.length, st') := rfl
  refine ⟨st', h.length ▸ hrun, ?_⟩
  have hnew : st'.node st.blocks.length = some (List.replicate blockSize 0, none) := by
    rw [Store.node, List.getElem?_concat_length]
    rfl
  have hagree : ∀ a, st.node a ≠ none → st'.node a = st.node a := by
    intro a ha
    rw [Store.node, List.getElem?_append_left (node_lt ha), Store.node]
  have hfilled : Filled st' b [] (List.replicate blockSize 0) 0 [] :=
    ⟨⟨rfl, _, hnew, rfl⟩, rfl, rfl, Nat.zero_le _, by decide⟩
  have hold : ∀ {j : Handle} {b₁ : BufferInternal}, st.buffers[j]? = some b₁ →
      b₁.tail ≠ st.blocks.length := by
    intro j b₁ hb₁ heq
    have hj : j < contents.length := h.length ▸ (List.getElem?_eq_some_iff.mp hb₁).1
    obtain ⟨_, _, _, hfilled₁, -⟩ := h.holds j b₁ _ hb₁ (List.getElem?_eq_getElem hj)
    have hnode := hfilled₁.tail_node
    rw [heq, node_none le_rfl] at hnode
    cases hnode
  have hback : ∀ {j : Handle} {b₁ : BufferInternal}, st'.buffers[j]? = some b₁ →
      st.buffers[j]? = some b₁ ∧ j < contents.length ∨ j = contents.length ∧ b₁ = b := by
    intro j b₁ hb₁
    rw [← h.length]
    rcases lt_trichotomy j st.buffers.length with hlt | rfl | hgt
    · rw [List.getElem?_append_left hlt] at hb₁
      exact Or.inl ⟨hb₁, hlt⟩
    · rw [List.getElem?_concat_length] at hb₁
      cases hb₁
      exact Or.inr ⟨rfl, rfl⟩
    · rw [List.getElem?_eq_none (by rw [List.length_append]; exact hgt)] at hb₁
      cases hb₁
  refine ⟨by simp [st', h.length], fun j b₁ bytes hb₁ hbytes => ?_, fun j k b₁ b₂ hb₁ hb₂ heq => ?_⟩
  · rcases hback hb₁ with ⟨hb₁, hj⟩ | ⟨rfl, rfl⟩
    · rw [List.getElem?_append_left hj] at hbytes
      obtain ⟨full, last, fill, hfilled₁, hfill⟩ := h.holds j b₁ bytes hb₁ hbytes
      exact ⟨full, last, fill, hfilled₁.mono hagree, hfill⟩
    · rw [List.getElem?_concat_length] at hbytes
      cases hbytes
      exact ⟨_, _, _, hfilled, by decide⟩
  · rcases hback hb₁ with ⟨hb₁, hj⟩ | ⟨rfl, rfl⟩ <;> rcases hback hb₂ with ⟨hb₂, hk⟩ | ⟨rfl, rfl⟩
    · exact h.apart j k b₁ b₂ hb₁ hb₂ heq
    · exact absurd heq (hold hb₁)
    · exact absurd heq.symm (hold hb₂)
    · rfl

/-- A new buffer holds the empty string, beside those that were there. -/
theorem bufferCreate_ends {stop : Stop → Prop} (h : Represents st contents) :
    Ends stop bufferCreate st fun _ st' => Represents st' (contents ++ [[]]) := by
  obtain ⟨st', hrun, hrep⟩ := bufferCreate_run h
  exact ends_of_eq hrun hrep

/-- **A reset buffer** is empty. -/
theorem bufferReset_ends {stop : Stop → Prop} {i : Handle} {bytes : List UInt8} (h : Represents st contents)
    (hbytes : contents[i]? = some bytes) :
    Ends stop (bufferReset i) st fun _ st' => Represents st' (contents.set i []) := by
  obtain ⟨b, hb⟩ := h.buffer hbytes
  obtain ⟨full, last, fill, hwriting, -⟩ := h.writing hb hbytes
  obtain ⟨block, hblock, hlast, hnext⟩ := node_eq_some hwriting.filled.tail_node
  refine ends_bind.mpr (ends_of_eq (getBuffer_run hb) ?_)
  refine ends_bind.mpr (ends_of_eq rfl (ends_bind.mpr (ends_of_eq (getBlock_run hblock) ?_)))
  refine ends_of_eq rfl ?_
  have hagree : ∀ a, Store.node ⟨st.blocks.set b.tail { block with next := none },
      st.buffers.set i { b with used := 0, head := b.tail }⟩ a = st.node a := by
    intro a
    rw [node_set _ _ hblock]
    split
    · subst a
      rw [hwriting.filled.tail_node, ← hlast]
    · rfl
  have hreset := hwriting.filled.reset.mono fun a _ => hagree a
  have hwriting' := hwriting.change rfl hreset (fun a _ _ => hagree a) (Or.inl rfl)
  exact hwriting'.represents (by decide)

end Create

/-! ## Sequences of calls

The store follows the strings call by call.  A call stops only where the string it writes to would not fit, and
the run lemma keeps that reason (`runOps_ends`), so a sequence whose strings all fit ends. -/

/-- A call of the interface. -/
inductive Op
  | create
  | write (buf : Handle) (bytes : List UInt8) (length : ℕ)
  | append (buf src : Handle) (length : ℕ)
  | reset (buf : Handle)

/-- The call on the store. -/
def Op.run : Op → BufferM Unit
  | .create => do let _ ← bufferCreate
  | .write buf bytes length => bufferWrite buf (.array bytes) length
  | .append buf src length => do let _ ← bufferAppend buf src length
  | .reset buf => bufferReset buf

/-- **What a call does to the strings.** -/
def Op.apply (contents : List (List UInt8)) : Op → List (List UInt8)
  | .create => contents ++ [[]]
  | .write buf bytes length => contents.set buf (contents.getD buf [] ++ bytes.take length)
  | .append buf src length =>
    let bytes := contents.getD src []
    contents.set buf (contents.getD buf [] ++
      bytes.take (if length = 2 ^ 64 - 1 then bytes.length else length))
  | .reset buf => contents.set buf []

/-- A call on buffers that exist, with an array as long as it says; a length to append is `-1` or at
most the size of the source. -/
def Op.Allowed (contents : List (List UInt8)) : Op → Prop
  | .create => True
  | .write buf bytes length => buf < contents.length ∧ length ≤ bytes.length ∧ length < 2 ^ 64
  | .append buf src length => buf < contents.length ∧ src < contents.length ∧
      (length = 2 ^ 64 - 1 ∨ length ≤ (contents.getD src []).length)
  | .reset buf => buf < contents.length

/-- A sequence of allowed calls. -/
def Allowed : List (List UInt8) → List Op → Prop
  | _, [] => True
  | contents, o :: ops => o.Allowed contents ∧ Allowed (o.apply contents) ops

/-- Whether a call is allowed can be computed. -/
instance decidableOpAllowed (contents : List (List UInt8)) : (o : Op) → Decidable (o.Allowed contents)
  | .create => inferInstanceAs (Decidable True)
  | .write _ _ _ => inferInstanceAs (Decidable (_ ∧ _ ∧ _))
  | .append _ _ _ => inferInstanceAs (Decidable (_ ∧ _ ∧ (_ ∨ _)))
  | .reset _ => inferInstanceAs (Decidable (_ < _))

/-- So it can be for a sequence of calls. -/
instance decidableAllowed :
    (contents : List (List UInt8)) → (ops : List Op) → Decidable (Allowed contents ops)
  | _, [] => inferInstanceAs (Decidable True)
  | contents, o :: ops =>
    have := decidableAllowed (o.apply contents) ops
    inferInstanceAs (Decidable (_ ∧ _))

/-- **The buffers implement the strings `contents`**: size, reads, and the chain of blocks. -/
def Implements (st : Store) (contents : List (List UInt8)) : Prop :=
  st.buffers.length = contents.length ∧ ∀ i bytes, contents[i]? = some bytes →
    bufferSize i st = .ok (bytes.length, st) ∧
    (∀ n dest, n ≤ bytes.length → n ≤ dest.length →
      bufferRead i dest n st = .ok ((n, bytes.take n ++ dest.drop n), st)) ∧
    ∃ b chain, st.buffers[i]? = some b ∧ Spells none st.node (some b.head) chain ∧
      chain.length = b.used / blockSize + 1 ∧ chain.getLast?.map Prod.fst = some b.tail

/-- **Blocks that hold the strings implement them**: the size, the reads and the chain are read off them. -/
theorem Represents.implements {st : Store} {contents : List (List UInt8)}
    (h : Represents st contents) : Implements st contents := by
  refine ⟨h.length, fun i bytes hbytes => ?_⟩
  obtain ⟨b, hb⟩ := h.buffer hbytes
  obtain ⟨full, last, fill, hfilled, hfill⟩ := h.holds i b bytes hb hbytes
  refine ⟨bufferSize_run hb hfilled, fun n dest => bufferRead_run hb hfilled,
    b, _, hb, hfilled.chain, ?_, ?_⟩
  · rw [hfilled.used_eq, Nat.mul_add_div (by decide), Nat.div_eq_of_lt hfill, List.length_append,
      List.length_singleton, Nat.add_zero]
  · rw [List.getLast?_concat]
    rfl

/-- A buffer that exists has its string. -/
theorem Represents.getD {st : Store} {contents : List (List UInt8)} {i : Handle}
    (_ : Represents st contents) (hi : i < contents.length) :
    contents[i]? = some (contents.getD i []) := by
  rw [List.getD_eq_getElem?_getD, List.getElem?_eq_getElem hi, Option.getD_some]

/-- **A write** of the front of an array. -/
theorem Represents.write_ends {st : Store} {contents : List (List UInt8)} (h : Represents st contents)
    {i : Handle} {dst bytes data : List UInt8} (hdst : contents[i]? = some dst) (hdata : data <+: bytes)
    (hsize : data.length < 2 ^ 64) :
    Ends (Exhausted (dst.length + data.length)) (bufferWrite i (.array bytes) data.length) st
      fun _ st' => Represents st' (contents.set i (dst ++ data)) := by
  obtain ⟨b, hb⟩ := h.buffer hdst
  obtain ⟨full, last, fill, hwriting, hfill⟩ := h.writing hb hdst
  have hgives : (Source.array bytes).Gives st b.tail fill 0 data :=
    ⟨⟨bytes, rfl, hdata⟩, fun a ha => by cases ha⟩
  exact (bufferWrite_ends hwriting hfill hgives hsize).mono fun _ _ h => h.1

/-- **Memory is used up on the way**: after some of the calls, one of the strings would need more blocks than the
address space holds.  A string of `n` bytes needs `n / 4096 + 1` of them. -/
def OutOfMemory (contents : List (List UInt8)) (ops : List Op) (e : Stop) : Prop :=
  ∃ done, done <+: ops ∧ ∃ bytes ∈ done.foldl Op.apply contents, Exhausted bytes.length e

/-- **One call** stops only where the string that it writes to would not fit. -/
theorem Op.run_ends {st : Store} {contents : List (List UInt8)} (h : Represents st contents)
    (o : Op) (ho : o.Allowed contents) :
    Ends (fun e => ∃ bytes ∈ o.apply contents, Exhausted bytes.length e) o.run st fun _ st' =>
      Represents st' (o.apply contents) := by
  cases o with
  | create => exact (bufferCreate_ends h).bind fun _ _ h => ends_pure h
  | write buf bytes length =>
    obtain ⟨hbuf, hle, hsize⟩ := ho
    have hlen : (bytes.take length).length = length := by
      rw [List.length_take]
      omega
    have hwrite := h.write_ends (h.getD hbuf) (List.take_prefix length bytes) (by omega)
    rw [← List.length_append, hlen] at hwrite
    exact hwrite.allow fun _ he => ⟨_, List.mem_set hbuf _, he⟩
  | append buf src length =>
    obtain ⟨hbuf, hsrc, hlength⟩ := ho
    have happend := bufferAppend_ends h (h.getD hbuf) (h.getD hsrc) hlength
    exact (happend.allow fun _ he => ⟨_, List.mem_set hbuf _, he⟩).bind fun _ _ h => ends_pure h
  | reset buf => exact bufferReset_ends h (h.getD ho)

/-- **A sequence of calls**, by induction over the calls from any strings that the store holds. -/
theorem runOps_ends : ∀ (ops : List Op) {st : Store} {contents : List (List UInt8)},
    Represents st contents → Allowed contents ops →
    Ends (OutOfMemory contents ops) (ops.forM Op.run) st fun _ st' =>
      Represents st' (ops.foldl Op.apply contents)
  | [], _, _, h, _ => ends_pure h
  | o :: ops, st, contents, h, ⟨ho, hops⟩ => by
    have hfirst : Ends (OutOfMemory contents (o :: ops)) o.run st fun _ st' =>
        Represents st' (o.apply contents) :=
      (o.run_ends h ho).allow fun e ⟨bytes, hbytes, he⟩ => ⟨[o], List.prefix_append [o] ops, bytes, hbytes, he⟩
    refine hfirst.bind fun _ st' h' => (runOps_ends ops h' hops).allow ?_
    rintro e ⟨done, hdone, bytes, hbytes, he⟩
    exact ⟨o :: done, List.cons_prefix_cons.mpr ⟨rfl, hdone⟩, bytes, hbytes, he⟩

/-- **The block buffer is an append-only string**: every sequence of calls ends with buffers that implement what was
appended since the last reset.  It stops before only where one of these strings would not fit into memory. -/
theorem buffer_is_byte_string (ops : List Op) (h : Allowed [] ops) :
    Ends (OutOfMemory [] ops) (ops.forM Op.run) {} fun _ st => Implements st (ops.foldl Op.apply []) :=
  (runOps_ends ops ⟨rfl, fun _ _ _ hb => by simp at hb, fun _ _ _ _ hb => by simp at hb⟩ h).mono
    fun _ _ h => h.implements

/-- A buffer that is filled to the end of its first block and beyond, and appended to itself; a copy of its front,
also of a whole block. -/
def fillsBlocks : List Op :=
  [.create, .write 0 (List.replicate 4096 1) 4096, .write 0 (List.replicate 5000 2) 5000, .append 0 0 (2 ^ 64 - 1),
    .create, .append 1 0 4096, .append 1 1 4096, .reset 0, .write 0 [4] 0]

/-- Every one of these strings fits, so the calls end, and the two buffers hold what they should. -/
theorem buffer_is_byte_string_blocks : ∃ st, fillsBlocks.forM Op.run {} = .ok ((), st) ∧
    Implements st [[], List.replicate 8192 1] := by
  have hallowed : Allowed [] fillsBlocks := by
    simp [fillsBlocks, Allowed, Op.Allowed, Op.apply, -List.reduceReplicate]
  have hfits : ∀ done ∈ fillsBlocks.inits, ∀ bytes ∈ done.foldl Op.apply [], bytes.length < 2 ^ 16 := by
    simp [fillsBlocks, Op.apply, -List.reduceReplicate]
  have hcontents : fillsBlocks.foldl Op.apply [] = [[], List.replicate 8192 1] := by
    simp [fillsBlocks, Op.apply, -List.reduceReplicate]
  have hends := buffer_is_byte_string fillsBlocks hallowed
  rw [hcontents] at hends
  rcases hends with ⟨⟨⟩, st, hst, himplements⟩ | ⟨e, -, done, hdone, bytes, hbytes, -, hfull⟩
  · exact ⟨st, hst, himplements⟩
  · have hlt := hfits done ((List.mem_inits done fillsBlocks).mpr hdone) bytes hbytes
    unfold sizeofBlock blockSize at hfull
    omega

end Insomniac.Buffer

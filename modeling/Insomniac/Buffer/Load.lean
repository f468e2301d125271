import Insomniac.Buffer.Runs
import Insomniac.Machinery.Fuel

/-!
# Buffer/Load — reading a file into a buffer

`open` and `read` are whatever the system makes of them: `open` fails, or each `read` gives some bytes, the
end of the file or a failure.  `buffer_load` keeps the result of `read` in a `size_t`:

    read = 0  ⟶  done        read = n  ⟶  buffer_write … n        read = −1  ⟶  buffer_write … 2⁶⁴ − 1

so a read that fails is taken for one that gave more bytes than the array holds.
-/

open Run Fuel

namespace Insomniac.Buffer

/-! ## Files

A file is the sequence of the results of its reads, since `buffer_load` asks for nothing else.  The bytes that
are read are those in front of the first end or failure. -/

/-- `char bytes[BLOCK_SIZE]`. -/
structure StackArray where
  bytes : List UInt8
  sized : bytes.length = blockSize

/-- The bytes that one `read` gives: some, and no more than it was asked for. -/
structure Piece where
  bytes : List UInt8
  some : bytes ≠ []
  fits : bytes.length ≤ blockSize

/-- What one `read` does. -/
inductive ReadResult
  | data (piece : Piece)
  | eof
  | error

/-- A file: the results of its reads, if it can be opened. -/
abbrev File := Option (ℕ → ReadResult)

/-- `read(fd, bytes, BLOCK_SIZE)`: its result, and the array behind it. -/
def ReadResult.read (r : ReadResult) (array : StackArray) : ℤ × StackArray :=
  match r with
  | data piece =>
    (piece.bytes.length, ⟨Chunks.splice array.bytes 0 piece.bytes,
      (Chunks.splice_length (by rw [array.sized, Nat.zero_add]; exact piece.fits)).trans array.sized⟩)
  | eof => (0, array)
  | error => (-1, array)

/-- **What the reads give** from the `k`-th on: some pieces, and then the end of the file or a failure. -/
inductive Reads (reads : ℕ → ReadResult) : ℕ → List Piece → (failed : Bool) → Prop
  | eof {k : ℕ} : reads k = .eof → Reads reads k [] false
  | error {k : ℕ} : reads k = .error → Reads reads k [] true
  | data {k : ℕ} {piece : Piece} {pieces : List Piece} {failed : Bool} : reads k = .data piece →
    Reads reads (k + 1) pieces failed → Reads reads k (piece :: pieces) failed

/-- The bytes of some pieces. -/
def joined (pieces : List Piece) : List UInt8 := pieces.flatMap Piece.bytes

/-- **The bytes read from a file**, and whether a call fails. -/
inductive Gives : File → List UInt8 → (failed : Bool) → Prop
  | unopened : Gives none [] true
  | opened {reads : ℕ → ReadResult} {pieces : List Piece} {failed : Bool} : Reads reads 0 pieces failed →
    Gives (some reads) (joined pieces) failed

/-! ## The functions of `buffer_load.c` -/

/-- The loop of `buffer_load`, from the `k`-th read on. -/
def bufferLoadLoop (buf : Handle) (reads : ℕ → ReadResult) : (fuel : ℕ) → (k : ℕ) → StackArray →
    (loaded : ℕ) → BufferM ℕ
  | 0, _, _, _ => throw .unfinished
  | fuel + 1, k, array, loaded => do
    let (result, bytes) := (reads k).read array
    let count := toSize result
    if count = 0 then pure loaded
    else
      bufferWrite buf (.array bytes.bytes) count
      bufferLoadLoop buf reads fuel (k + 1) bytes (addSize loaded count)

/-- `buffer_load`; the array starts with what is on the stack. -/
def bufferLoad (fuel : ℕ) (buf : Handle) (file : File) (array : StackArray) : BufferM ℕ :=
  match file with
  | none => pure (toSize (-1))
  | some reads => bufferLoadLoop buf reads fuel 0 array 0

/-- `gc_alloc` of a string that is to be in memory next to `held` blocks. -/
def gcAllocString (held size : ℕ) : BufferM (List UInt8) := do
  if 2 ^ 64 ≤ sizeofBlock * held + size then throw .memory
  pure (List.replicate size 0)

/-- `buffer_load_string`: the string and its length, or none for its `exit(-2)`. -/
def bufferLoadString (fuel : ℕ) (file : File) (array : StackArray) : BufferM (Option (ℕ × List UInt8)) := do
  let buf ← bufferCreate
  let count ← bufferLoad fuel buf file array
  if count = toSize (-1) then pure none
  else
    let st ← get
    let b ← getBuffer buf
    let str ← gcAllocString (st.chainLength st.blocks.length (some b.head)) (addSize count 1)
    let (_, str) ← bufferRead buf str count
    pure (some (count, str))

/-! ## A read that fails

The `-1` of a failed `read` is kept in a `size_t`, where it is the greatest length there is.  What
`buffer_write` then copies is what fits into the tail, and for the rest it pushes blocks until no more can be
had. -/

section Overrun

variable {st : Store} {contents : List (List UInt8)} {i : Handle} {dst : List UInt8} {array : StackArray}

/-- **A write of more than the array holds** copies what fits into the tail, and then leaves the array. -/
theorem bufferWrite_overruns (h : Represents st contents) (hdst : contents[i]? = some dst) {length : ℕ}
    (hlong : 2 * blockSize ≤ length) (hsize : length < 2 ^ 64) :
    Ends (fun _ => True) (bufferWrite i (.array array.bytes) length) st fun _ _ => False := by
  obtain ⟨b, hb⟩ := h.buffer hdst
  obtain ⟨full, last, fill, hwriting, hfill⟩ := h.writing hb hdst
  have hmod : b.used % blockSize = fill := (hwriting.filled.fill_eq hfill).symm
  have hsized := array.sized
  have hsub : subSize blockSize fill = blockSize - fill := subSize_eq (by decide) hfill.le
  have hne : ((blockSize - fill : ℕ) : ℤ) ≠ 0 := by omega
  obtain ⟨chunk, hchunk⟩ : ∃ chunk, chunk = array.bytes.take (blockSize - fill) := ⟨_, rfl⟩
  have hlen : chunk.length = blockSize - fill := by
    rw [hchunk, List.length_take]
    omega
  have hgives : (Source.array array.bytes).Gives st b.tail fill 0 (chunk ++ []) :=
    ⟨⟨_, rfl, by rw [List.append_nil, hchunk]; exact List.take_prefix _ _⟩, fun a ha => by cases ha⟩
  obtain ⟨st₁, hrun, hwriting₁, -, -⟩ :=
    copyIn_run hwriting hgives (List.length_pos_iff.mp (by omega)) (by omega)
  have hused := hwriting.filled.used_eq
  have hused₁ := hwriting₁.filled.used_lt
  have hsum : fill + chunk.length = blockSize := by omega
  have hfull : (b.used + chunk.length) % blockSize = 0 := by
    rw [hused, Nat.add_assoc, hsum, Nat.mul_add_mod_self_left, Nat.mod_self]
  rw [hsum] at hwriting₁
  rw [hlen] at hrun
  refine ends_bind.mpr (ends_of_eq (getBuffer_run hb) ?_)
  rw [hmod]
  dsimp only
  rw [hsub, toInt_eq (by omega), if_neg hne, toSize_natCast (by omega), if_neg (by omega)]
  obtain ⟨fuel, rfl⟩ : ∃ fuel, length = fuel + 1 + 1 := ⟨length - 2, by unfold blockSize at hlong; omega⟩
  -- the first round fills the tail
  rw [bufferWriteLoop, if_neg (by omega), toSize_natCast (by omega)]
  refine ends_bind.mpr (ends_of_eq (getBuffer_run hb) (ends_bind.mpr (ends_of_eq hrun ?_)))
  rw [← hlen, addSize_eq (by omega), addSize_eq hused₁, subSize_eq hsize (by omega), Nat.zero_add]
  refine ends_bind.mpr (ends_of_eq rfl ?_)
  rw [if_pos hfull]
  refine ((bufferPush_ends hwriting₁).allow fun _ _ => trivial).bind fun _ st₂ hpush => ?_
  obtain ⟨b₂, full₂, last₂, hwriting₂, -⟩ := hpush
  -- and the second one reads behind the array
  simp only [pure_bind]
  rw [if_pos (by omega), bufferWriteLoop, if_neg (by omega), toSize_natCast le_rfl]
  refine ends_bind.mpr (ends_of_eq (getBuffer_run hwriting₂.here) (ends_bind.mpr (Or.inr ⟨.undefined, ?_, trivial⟩)))
  refine Run.bind_error _ ?_
  refine (run_bind rfl).trans ?_
  dsimp only
  rw [if_neg (by omega)]
  rfl

end Overrun

/-! ## The loop

In step with the reads: as long as none has failed, the buffer holds what it held and the pieces so far. -/

section Loop

variable {contents : List (List UInt8)} {i : Handle} {reads : ℕ → ReadResult}

/-- **What a buffer holds fits** into the address space. -/
theorem Represents.fits {st : Store} {dst : List UInt8} (h : Represents st contents)
    (hdst : contents[i]? = some dst) : sizeofBlock * (dst.length / blockSize + 1) < 2 ^ 64 := by
  obtain ⟨b, hb⟩ := h.buffer hdst
  obtain ⟨full, last, fill, hfilled, hfill⟩ := h.holds i b dst hb hdst
  have hblocks : dst.length / blockSize = full.length := by
    rw [← hfilled.used, hfilled.used_eq, Nat.mul_add_div (by decide), Nat.div_eq_of_lt hfill, Nat.add_zero]
  rw [hblocks]
  exact hfilled.room

/-- A string whose blocks fit into the address space has a length far below its end. -/
theorem lt_of_fits {n : ℕ} (h : sizeofBlock * (n / blockSize + 1) < 2 ^ 64) : n + blockSize < 2 ^ 64 := by
  unfold sizeofBlock at h
  unfold blockSize at h ⊢
  omega

/-- **The loop of `buffer_load`**: a run that returns has met no failure, and appended what was read. -/
theorem bufferLoadLoop_ends {k : ℕ} {pieces : List Piece} {failed : Bool} (hreads : Reads reads k pieces failed) :
    ∀ {st : Store} {contents : List (List UInt8)} {dst : List UInt8} (fuel : ℕ) (array : StackArray) {loaded : ℕ},
      Represents st contents → contents[i]? = some dst → loaded ≤ dst.length →
      Ends (fun e => fuel ≤ pieces.length ∨ failed = true ∨ Exhausted (dst.length + (joined pieces).length) e)
        (bufferLoadLoop i reads fuel k array loaded) st fun r st' => failed = false ∧
          r = loaded + (joined pieces).length ∧ Represents st' (contents.set i (dst ++ joined pieces)) := by
  induction hreads with
  | @eof k hk =>
    intro st contents dst fuel array loaded h hdst hloaded
    cases fuel with
    | zero => exact ends_throw (Or.inl le_rfl)
    | succ fuel =>
      refine ends_of_eq (a := loaded) (t := st) ?_ ⟨rfl, rfl, ?_⟩
      · rw [bufferLoadLoop, hk]
        rfl
      · rw [joined, List.flatMap_nil, List.append_nil, set_self hdst]
        exact h
  | @error k hk =>
    intro st contents dst fuel array loaded h hdst hloaded
    cases fuel with
    | zero => exact ends_throw (Or.inl le_rfl)
    | succ fuel =>
      have hcount : toSize (-1) = 2 ^ 64 - 1 := rfl
      rw [bufferLoadLoop, hk]
      simp only [ReadResult.read, hcount]
      rw [if_neg (by omega)]
      have hover := @bufferWrite_overruns st contents i dst array h hdst (2 ^ 64 - 1)
        (by unfold blockSize; omega) (by omega)
      exact (hover.allow fun _ _ => Or.inr (Or.inl trivial)).bind fun _ _ hfalse => hfalse.elim
  | @data k piece pieces failed hk hrest ih =>
    intro st contents dst fuel array loaded h hdst hloaded
    cases fuel with
    | zero => exact ends_throw (Or.inl (Nat.zero_le _))
    | succ fuel =>
      have hfits := piece.fits
      have hjoined : joined (piece :: pieces) = piece.bytes ++ joined pieces := List.flatMap_cons
      have hpos : 0 < piece.bytes.length := List.length_pos_iff.mpr piece.some
      have hcount : toSize piece.bytes.length = piece.bytes.length := toSize_natCast hfits
      rw [bufferLoadLoop, hk]
      simp only [ReadResult.read, hcount]
      rw [if_neg (by omega)]
      have hdata : piece.bytes <+: Chunks.splice array.bytes 0 piece.bytes := by
        rw [Chunks.splice, List.take_zero, List.nil_append]
        exact List.prefix_append _ _
      have hwrite := h.write_ends hdst hdata (hfits.trans_lt (by decide))
      refine (hwrite.allow fun e he => Or.inr (Or.inr (he.mono ?_))).bind fun _ st₁ h₁ => ?_
      · rw [hjoined, List.length_append]
        omega
      · have hdst₁ : (contents.set i (dst ++ piece.bytes))[i]? = some (dst ++ piece.bytes) :=
          List.getElem?_set_self (List.getElem?_eq_some_iff.mp hdst).1
        have hlt := lt_of_fits (h₁.fits hdst₁)
        rw [List.length_append] at hlt
        rw [addSize_eq (by omega)]
        have hle : loaded + piece.bytes.length ≤ (dst ++ piece.bytes).length := by
          rw [List.length_append]
          omega
        refine ((ih fuel _ h₁ hdst₁ hle).mono fun r st' hr => ?_).allow fun e he => ?_
        · obtain ⟨hfailed, rfl, hrep⟩ := hr
          refine ⟨hfailed, by rw [hjoined, List.length_append, Nat.add_assoc], ?_⟩
          rwa [List.set_set, List.append_assoc, ← hjoined] at hrep
        · rw [List.length_append, Nat.add_assoc, ← List.length_append, ← hjoined] at he
          exact he.imp_left fun hle => Nat.succ_le_succ hle

/-- **More rounds** extend the loop. -/
theorem bufferLoadLoop_extends : ∀ {n m : ℕ}, n ≤ m → ∀ (k : ℕ) (array : StackArray) (loaded : ℕ),
    Extends (bufferLoadLoop i reads n k array loaded) (bufferLoadLoop i reads m k array loaded)
  | 0, _, _, _, _, _ => extends_throw
  | n + 1, m, hle, k, array, loaded => by
      obtain ⟨m, rfl⟩ := Nat.exists_eq_add_of_le' (Nat.one_le_of_lt hle)
      exact .ite .refl (.bind .refl fun _ => bufferLoadLoop_extends (Nat.le_of_succ_le_succ hle) _ _ _)

/-- **`buffer_load`** returns exactly if no read fails and the bytes fit, and then it has appended them. -/
theorem bufferLoad_settles {st : Store} {dst : List UInt8} {pieces : List Piece} {failed : Bool}
    (hreads : Reads reads 0 pieces failed) (h : Represents st contents) (hdst : contents[i]? = some dst)
    (array : StackArray) :
    (failed = false ∧ sizeofBlock * ((dst.length + (joined pieces).length) / blockSize + 1) < 2 ^ 64 →
      ∃ st', Settles (fun fuel => bufferLoad fuel i (some reads) array) st (.ok ((joined pieces).length, st')) ∧
        Represents st' (contents.set i (dst ++ joined pieces))) ∧
    ∀ fuel r st', bufferLoad fuel i (some reads) array st = .ok (r, st') →
      failed = false ∧ r = (joined pieces).length ∧ Represents st' (contents.set i (dst ++ joined pieces)) := by
  have hends := fun fuel => bufferLoadLoop_ends hreads fuel array h hdst (Nat.zero_le _)
  refine ⟨fun ⟨hfailed, hfits⟩ => ?_, fun fuel r st' hrun => ?_⟩
  · rcases hends (pieces.length + 1) with ⟨r, st', hrun, -, rfl, hrep⟩ | ⟨e, -, hstop⟩
    · rw [Nat.zero_add] at hrun
      have hload : bufferLoad (pieces.length + 1) i (some reads) array st = .ok ((joined pieces).length, st') := hrun
      exact ⟨st', settles_of_extends hload fun m hm => bufferLoadLoop_extends hm _ _ _, hrep⟩
    · rcases hstop with hle | hfail | ⟨-, hmemory⟩
      · exact absurd hle (by omega)
      · exact absurd (hfailed.symm.trans hfail) (by simp)
      · exact absurd hmemory (Nat.not_le.mpr hfits)
  · obtain ⟨hfailed, hr, hrep⟩ := (hends fuel).of_ok hrun
    exact ⟨hfailed, hr.trans (Nat.zero_add _), hrep⟩

end Loop

/-! ## What is loaded

The string that `buffer_load_string` makes needs room beside the blocks it is copied from, so its condition asks
for more than that of `buffer_load`. -/

section Load

variable {st : Store} {contents : List (List UInt8)} {i : Handle} {dst bytes : List UInt8} {file : File}
  {failed : Bool}

/-- `buffer_load` on a buffer that holds `dst`: what it returns, and what the buffers hold then. -/
def Loads (st : Store) (contents : List (List UInt8)) (i : Handle) (dst : List UInt8) (file : File)
    (bytes : List UInt8) (failed : Bool) (array : StackArray) : Prop :=
  ∃ r st', Settles (fun fuel => bufferLoad fuel i file array) st (.ok (r, st')) ∧
    if failed then r = 2 ^ 64 - 1 ∧ ∃ data, data <+: bytes ∧ Represents st' (contents.set i (dst ++ data))
    else r = bytes.length ∧ Represents st' (contents.set i (dst ++ bytes))

/-- `buffer_load_string`: the string with its length and its NUL, or `exit(-2)`. -/
def LoadsString (st : Store) (file : File) (bytes : List UInt8) (failed : Bool) (array : StackArray) : Prop :=
  ∃ st', Settles (fun fuel => bufferLoadString fuel file array) st
    (.ok (if failed then none else some (bytes.length, bytes ++ [0]), st'))

/-- **`buffer_load`** does what it is for exactly where no read fails and what is read fits. -/
theorem loads_iff (h : Represents st contents) (hdst : contents[i]? = some dst) (hfile : Gives file bytes failed)
    (array : StackArray) : Loads st contents i dst file bytes failed array ↔
      file = none ∨ failed = false ∧ sizeofBlock * ((dst.length + bytes.length) / blockSize + 1) < 2 ^ 64 := by
  cases hfile with
  | unopened =>
    refine iff_of_true ⟨2 ^ 64 - 1, st, settles_of_eq fun _ => rfl, ?_⟩ (Or.inl rfl)
    rw [if_pos rfl]
    refine ⟨rfl, [], List.nil_prefix, ?_⟩
    rwa [List.append_nil, set_self hdst]
  | @opened reads pieces _ hreads =>
    obtain ⟨hsettles, hok⟩ := bufferLoad_settles hreads h hdst array
    constructor
    · rintro ⟨r, st', ⟨fuel, hrun⟩, -⟩
      obtain ⟨hfailed, -, hrep⟩ := hok fuel r st' (hrun fuel le_rfl)
      refine Or.inr ⟨hfailed, ?_⟩
      have hfits := hrep.fits (List.getElem?_set_self (List.getElem?_eq_some_iff.mp hdst).1)
      rwa [List.length_append] at hfits
    · rintro (hnone | ⟨rfl, hfits⟩)
      · cases hnone
      · obtain ⟨st', hrun, hrep⟩ := hsettles ⟨rfl, hfits⟩
        exact ⟨_, st', hrun, by rw [if_neg (by simp)]; exact ⟨rfl, hrep⟩⟩

/-- A string is allocated if it fits into the address space next to what holds its bytes. -/
theorem gcAllocString_run (held size : ℕ) (st : Store) : gcAllocString held size st =
    if 2 ^ 64 ≤ sizeofBlock * held + size then .error .memory else .ok (List.replicate size 0, st) := by
  unfold gcAllocString
  split <;> rfl

/-- **Copying the buffer into the string**, behind which the zeroed string ends. -/
theorem bufferLoadString_tail {b : BufferInternal} (h : Represents st contents) (hb : st.buffers[i]? = some b)
    (hdst : contents[i]? = some bytes) :
    (do
      let st ← get
      let b ← getBuffer i
      let str ← gcAllocString (st.chainLength st.blocks.length (some b.head)) (addSize bytes.length 1)
      let (_, str) ← bufferRead i str bytes.length
      pure (some (bytes.length, str)) : BufferM _) st =
    if 2 ^ 64 ≤ sizeofBlock * (bytes.length / blockSize + 1) + (bytes.length + 1) then .error .memory
    else .ok (some (bytes.length, bytes ++ [0]), st) := by
  obtain ⟨full, last, fill, hfilled, hfill⟩ := h.holds i b bytes hb hdst
  have hlt := lt_of_fits (h.fits hdst)
  have hblocks : bytes.length / blockSize = full.length := by
    rw [← hfilled.used, hfilled.used_eq, Nat.mul_add_div (by decide), Nat.div_eq_of_lt hfill, Nat.add_zero]
  have hsize : addSize bytes.length 1 = bytes.length + 1 := addSize_eq (by unfold blockSize at hlt; omega)
  refine (run_bind (t := st) rfl).trans ((run_bind (getBuffer_run hb)).trans ?_)
  rw [hfilled.chainLength, ← hblocks, hsize]
  have halloc := gcAllocString_run (bytes.length / blockSize + 1) (bytes.length + 1) st
  split at halloc
  · rw [if_pos ‹_›]
    exact Run.bind_error _ halloc
  · rw [if_neg ‹_›]
    have hroom : bytes.length ≤ (List.replicate (bytes.length + 1) (0 : UInt8)).length := by simp
    have hread := bufferRead_run hb hfilled le_rfl hroom
    rw [List.take_length, List.drop_replicate, Nat.add_sub_cancel_left] at hread
    exact (run_bind halloc).trans ((run_bind hread).trans rfl)

/-- **`buffer_load_string`** does, too, where the string fits beside the blocks. -/
theorem loads_string_iff (h : Represents st contents) (hfile : Gives file bytes failed) (array : StackArray) :
    LoadsString st file bytes failed array ↔ file = none ∨ failed = false ∧
      sizeofBlock * (bytes.length / blockSize + 1) + (bytes.length + 1) < 2 ^ 64 := by
  obtain ⟨st₀, hcreate, hrep₀⟩ := bufferCreate_run h
  have hbuf : (contents ++ [[]])[contents.length]? = some [] := List.getElem?_concat_length
  have hrun : ∀ fuel, bufferLoadString fuel file array st = _ := fun fuel => run_bind hcreate
  cases hfile with
  | unopened =>
    refine iff_of_true ⟨st₀, settles_of_eq fun fuel => (hrun fuel).trans ?_⟩ (Or.inl rfl)
    rfl
  | @opened reads pieces _ hreads =>
    obtain ⟨hsettles, hok⟩ := bufferLoad_settles hreads hrep₀ hbuf array
    -- what is left to do once the file is loaded
    have hrest : ∀ {st₁}, Represents st₁ ((contents ++ [[]]).set contents.length ([] ++ joined pieces)) →
        (if (joined pieces).length = toSize (-1) then pure none
          else do
            let st ← get
            let b ← getBuffer contents.length
            let str ← gcAllocString (st.chainLength st.blocks.length (some b.head)) (addSize (joined pieces).length 1)
            let (_, str) ← bufferRead contents.length str (joined pieces).length
            pure (some ((joined pieces).length, str)) : BufferM _) st₁ =
        if 2 ^ 64 ≤ sizeofBlock * ((joined pieces).length / blockSize + 1) + ((joined pieces).length + 1)
        then .error .memory else .ok (some ((joined pieces).length, joined pieces ++ [0]), st₁) := fun hrep₁ => by
      have hdst₁ := List.getElem?_set_self (a := [] ++ joined pieces) (List.getElem?_eq_some_iff.mp hbuf).1
      obtain ⟨b, hb⟩ := hrep₁.buffer hdst₁
      have hlt := lt_of_fits (hrep₁.fits hdst₁)
      have hmax : toSize (-1) = 2 ^ 64 - 1 := rfl
      rw [List.nil_append] at hlt hdst₁
      rw [if_neg (by unfold blockSize at hlt; omega)]
      exact bufferLoadString_tail hrep₁ hb hdst₁
    constructor
    · rintro ⟨st', fuel, hsettle⟩
      obtain ⟨count, st₁, hload, hrun₁⟩ := bind_ok ((hrun fuel).symm.trans (hsettle fuel le_rfl))
      obtain ⟨rfl, rfl, hrep₁⟩ := hok fuel count st₁ hload
      refine Or.inr ⟨rfl, Nat.lt_of_not_le fun hmemory => ?_⟩
      have hstop := (hrest hrep₁).symm.trans hrun₁
      rw [if_pos hmemory] at hstop
      cases hstop
    · rintro (hnone | ⟨rfl, hfits⟩)
      · cases hnone
      · have hfits₀ : sizeofBlock * ((([] : List UInt8).length + (joined pieces).length) / blockSize + 1) < 2 ^ 64 := by
          rw [List.length_nil, Nat.zero_add]
          omega
        obtain ⟨st₁, ⟨k, hload⟩, hrep₁⟩ := hsettles ⟨rfl, hfits₀⟩
        refine ⟨st₁, k, fun fuel hle => (hrun fuel).trans ((run_bind (hload fuel hle)).trans ((hrest hrep₁).trans ?_))⟩
        rw [if_neg (Nat.not_le.mpr hfits), if_neg (by simp)]

/-- **Loading a file.**  `buffer_load` and `buffer_load_string` do what they are to do exactly if the file
cannot be opened, or no read fails and what is loaded fits into the address space. -/
theorem buffer_load_iff (h : Represents st contents) (hdst : contents[i]? = some dst)
    (hfile : Gives file bytes failed) (array : StackArray) :
    (Loads st contents i dst file bytes failed array ↔ file = none ∨ failed = false ∧
      sizeofBlock * ((dst.length + bytes.length) / blockSize + 1) < 2 ^ 64) ∧
    (LoadsString st file bytes failed array ↔ file = none ∨ failed = false ∧
      sizeofBlock * (bytes.length / blockSize + 1) + (bytes.length + 1) < 2 ^ 64) :=
  ⟨loads_iff h hdst hfile array, loads_string_iff h hfile array⟩

/-- The array on the stack has the size of a block. -/
theorem length_zeros : (List.replicate blockSize (0 : UInt8)).length = blockSize := List.length_replicate

/-- A stack array of zeros. -/
def zeroedArray : StackArray := ⟨List.replicate blockSize 0, length_zeros⟩

/-- A file of three bytes, in one read. -/
theorem buffer_load_three : ∃ st, bufferCreate {} = .ok (0, st) ∧
    Loads st [[]] 0 [] (some fun k => if k = 0 then .data ⟨[1, 2, 3], by decide, by decide⟩ else .eof) [1, 2, 3]
      false zeroedArray := by
  obtain ⟨st, hcreate, hrep⟩ := bufferCreate_run
    (⟨rfl, fun _ _ _ hb => by simp at hb, fun _ _ _ _ hb => by simp at hb⟩ : Represents {} [])
  have hreads : Reads (fun k => if k = 0 then .data ⟨[1, 2, 3], by decide, by decide⟩ else .eof) 0
      [⟨[1, 2, 3], by decide, by decide⟩] false := .data rfl (.eof rfl)
  have hgives : Gives _ [1, 2, 3] false := .opened hreads
  exact ⟨st, hcreate, (buffer_load_iff hrep rfl hgives zeroedArray).1.mpr (Or.inr ⟨rfl, by decide⟩)⟩

/-- **A file whose first read fails.** -/
theorem buffer_load_failing : ∃ st, bufferCreate {} = .ok (0, st) ∧ Represents st [[]] ∧
    Gives (some fun _ => .error) [] true ∧ ¬ Loads st [[]] 0 [] (some fun _ => .error) [] true zeroedArray := by
  obtain ⟨st, hcreate, hrep⟩ := bufferCreate_run
    (⟨rfl, fun _ _ _ hb => by simp at hb, fun _ _ _ _ hb => by simp at hb⟩ : Represents {} [])
  have hreads : Reads (fun _ => .error) 0 [] true := .error rfl
  have hgives : Gives (some fun _ => .error) [] true := .opened hreads
  refine ⟨st, hcreate, hrep, hgives, fun hloads => ?_⟩
  rcases (loads_iff hrep rfl hgives zeroedArray).mp hloads with hnone | ⟨hfailed, -⟩
  · cases hnone
  · cases hfailed

end Load

end Insomniac.Buffer

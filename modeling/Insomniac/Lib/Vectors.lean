import Insomniac.Lib.Inline

/-!
# Lib/Vectors — vectors and byte vectors

`lib/vectors/core.scm` and what `vectors.scm` and `byte-vectors.scm` make of it.

    from   · · a b c d ·          `start` behind `at`: from the first element on, upwards
    to     · a b c d · ·          otherwise: from the last element on, downwards

One loop copies for both kinds of vectors.  The array that it reads and the one that it writes may be the same
array, and the direction is chosen so that no element is read after it has been overwritten.
-/

open Run

namespace Insomniac.Lib

open Insomniac.Vm

/-! ## The procedures

As the library has them.  What differs between vectors and byte vectors is handed to the procedures of
`core.scm`. -/

section Procedures

variable {α : Type} (throw : Throw)

/-- `bytevector-length`. -/
def bytevectorLength (x : Ref) : VmM Int64 := do fixnumOf (← asm [x] (opVectorLength throw))

/-- `bytevector-u8-set!`. -/
def bytevectorU8Set (vec : Ref) (idx obj : Int64) : VmM Unit := do
  let idx ← number idx
  let obj ← number obj
  let _ ← asm [idx, obj, vec] (do opIndexSet throw; opLitEmpty)

/-- `bytevector-u8-ref`. -/
def bytevectorU8Ref (vec : Ref) (idx : Int64) : VmM Int64 := do
  let idx ← number idx
  fixnumOf (← asm [idx, vec] (opIndexRef throw))

/-- `vector-length`. -/
def vectorLength (x : Ref) : VmM Int64 := do
  match ← load x with
  | .empty => pure 0
  | _ => fixnumOf (← asm [x] (opVectorLength throw))

/-- `vector-set!`. -/
def vectorSet (vec : Ref) (idx : Int64) (obj : Ref) : VmM Unit := do
  let idx ← number idx
  let _ ← asm [idx, obj, vec] (do opIndexSet throw; opLitEmpty)

/-- The loop of `vector-fill!` and of `bytevector-fill!`. -/
def fillInner (vSet : Ref → Int64 → α → VmM Unit) (vec : Ref) (fill : α) (index : Int64) : VmM Ref :=
  if 0 ≤ index then do
    vSet vec index fill
    fillInner vSet vec fill (index - 1)
  else pure vec
termination_by (index.toInt + 1).toNat
decreasing_by exact countdown_lt ‹_›

/-- `vector-fill!`. -/
def vectorFill (vec fill : Ref) : VmM Ref := do
  fillInner (vectorSet throw) vec fill ((← vectorLength throw vec) - 1)

/-- `bytevector-fill!`, which asks `vector-length` as well. -/
def bytevectorFill (vec : Ref) (fill : Int64) : VmM Ref := do
  fillInner (bytevectorU8Set throw) vec fill ((← vectorLength throw vec) - 1)

/-- `make-vector` of a size; it is filled with `'()`. -/
def makeVector (k : Int64) : VmM Ref := do
  let fill ← asm [] opLitEmpty
  let k ← number k
  vectorFill throw (← asm [k] (opMakeVector throw)) fill

/-- `make-bytevector` of a size. -/
def makeBytevector (k : Int64) : VmM Ref := do
  let k ← number k
  bytevectorFill throw (← asm [k] (opMakeByteVector throw)) 0

/-- The loop of `core-vector-copier`. -/
def copierInner (vSet : Ref → Int64 → α → VmM Unit) (vRef : Ref → Int64 → VmM α) («to» «from» : Ref)
    (dir : Int64 → Int64) («at» start num : Int64) : VmM Ref :=
  if 0 > num then pure «to»
  else do
    vSet «to» «at» (← vRef «from» start)
    copierInner vSet vRef «to» «from» dir (dir «at») (dir start) (num - 1)
termination_by (num.toInt + 1).toNat
decreasing_by exact countdown_lt (Int64.not_lt.mp ‹_›)

/-- `core-vector-copier`, with the optional `start` and `end` in `args`. -/
def coreVectorCopier (toFactory : Int64 → VmM Ref) (vSet : Ref → Int64 → α → VmM Unit)
    (vRef : Ref → Int64 → VmM α) (vLength : Ref → VmM Int64) («at» : Int64) («from» : Ref)
    (args : List Int64) : VmM Ref := do
  let length ← vLength «from»
  let start := args.getD 0 0
  let «end» := args.getD 1 length
  let toCopy := «end» - start
  let «to» ← toFactory toCopy
  if start > «at» then
    copierInner vSet vRef «to» «from» (· + 1) «at» start (toCopy - 1)
  else
    let toCopy := toCopy - 1
    copierInner vSet vRef «to» «from» (· - 1) («at» + toCopy) (start + toCopy) toCopy

/-- `bytevector-copier`. -/
def bytevectorCopier (toFactory : Int64 → VmM Ref) («at» : Int64) («from» : Ref) (args : List Int64) : VmM Ref :=
  coreVectorCopier toFactory (bytevectorU8Set throw) (bytevectorU8Ref throw) (bytevectorLength throw) «at» «from» args

/-- `bytevector-copy`. -/
def bytevectorCopy («from» : Ref) (args : List Int64) : VmM Ref :=
  bytevectorCopier throw (makeBytevector throw) 0 «from» args

end Procedures

/-! ## The two kinds

A vector is a length and an array; the array may be longer, and it may be the array of another vector too.  The
kinds differ in the blocks of memory that their arrays are, and in what an element is. -/

/-- **How vectors of a kind stand in memory**, and that a write to an array changes nothing else. -/
structure Layout (β : Type) where
  /-- The length and the array of an object of the kind. -/
  view : Obj → Option (Int64 × ℕ)
  /-- More elements than this no array has. -/
  limit : ℕ
  limit_le : limit ≤ 2 ^ 63
  arrays : VmInternal → List (List β)
  write : VmInternal → ℕ → List β → VmInternal
  arrays_write (vm : VmInternal) (a : ℕ) (l : List β) : arrays (write vm a l) = (arrays vm).set a l
  deref_write (vm : VmInternal) (a : ℕ) (l : List β) (r : Ref) : (write vm a l).deref r = vm.deref r
  write_self {vm : VmInternal} {a : ℕ} {l : List β} : (arrays vm)[a]? = some l → write vm a l = vm
  write_write (vm : VmInternal) (a : ℕ) (l l' : List β) : write (write vm a l) a l' = write vm a l'
  arrays_grown {vm vm' : VmInternal} : Grown vm vm' → arrays vm <+: arrays vm'
  grows_write {vm vm' : VmInternal} {a : ℕ} (l : List β) : Grows vm vm' → a < (arrays vm).length →
    Grows (write vm a l) (write vm' a l)
  grows_new {base vm : VmInternal} {a : ℕ} (l : List β) : Grows base vm → (arrays base).length ≤ a →
    Grows base (write vm a l)

/-- Writing at a place that a list and a longer one have. -/
theorem set_isPrefix {β : Type} {l l' : List β} (h : l <+: l') {a : ℕ} (ha : a < l.length) (x : β) :
    l.set a x <+: l'.set a x := by
  obtain ⟨rest, rfl⟩ := h
  rw [List.set_append_left a x ha]
  exact List.prefix_append _ _

/-- Writing at a place that a list does not have. -/
theorem isPrefix_set {β : Type} {l l' : List β} (h : l <+: l') {a : ℕ} (ha : l.length ≤ a) (x : β) :
    l <+: l'.set a x := by
  obtain ⟨rest, rfl⟩ := h
  rw [List.set_append_right a x ha]
  exact List.prefix_append _ _

/-- Writing what is there. -/
theorem set_self {β : Type} {l : List β} {a : ℕ} {x : β} (h : l[a]? = some x) : l.set a x = l := by
  obtain ⟨ha, rfl⟩ := List.getElem?_eq_some_iff.mp h
  exact List.set_getElem_self ha

/-- Vectors: arrays of pointers, of eight bytes each. -/
def vectors : Layout Ptr where
  view | .vector length a => some (length, a) | _ => none
  limit := 2 ^ 60
  limit_le := by decide
  arrays := (·.arrays)
  write vm a l := { vm with arrays := vm.arrays.set a l }
  arrays_write _ _ _ := rfl
  deref_write _ _ _ _ := rfl
  write_self h := by simp only [set_self h]
  write_write vm a l l' := by simp only [List.set_set]
  arrays_grown h := h.arrays
  grows_write l h ha := ⟨{ h.toGrown with arrays := set_isPrefix h.arrays ha l }, h.stackRoot⟩
  grows_new l h ha := ⟨{ h.toGrown with arrays := isPrefix_set h.arrays ha l }, h.stackRoot⟩

/-- Byte vectors: arrays of bytes. -/
def byteVectors : Layout UInt8 where
  view | .byteVector length a => some (length, a) | _ => none
  limit := 2 ^ 63
  limit_le := le_rfl
  arrays := (·.bytes)
  write vm a l := { vm with bytes := vm.bytes.set a l }
  arrays_write _ _ _ := rfl
  deref_write _ _ _ _ := rfl
  write_self h := by simp only [set_self h]
  write_write vm a l l' := by simp only [List.set_set]
  arrays_grown h := h.bytes
  grows_write l h ha := ⟨{ h.toGrown with bytes := set_isPrefix h.bytes ha l }, h.stackRoot⟩
  grows_new l h ha := ⟨{ h.toGrown with bytes := isPrefix_set h.bytes ha l }, h.stackRoot⟩

/-! ## Numbers

Indices and lengths are counted in natural numbers here and in fixnums by the code, and a loop that counts down
ends at minus one. -/

/-- One less than a number, as the code has it. -/
theorem ofInt_succ_sub_one (k : ℕ) : Int64.ofInt (((k + 1 : ℕ) : ℤ) - 1) = Int64.ofNat k := by
  have hk : ((k + 1 : ℕ) : ℤ) - 1 = (k : ℤ) := by omega
  rw [hk]
  rfl

theorem ofNat_sub_one (k : ℕ) : Int64.ofNat k - 1 = Int64.ofInt ((k : ℤ) - 1) := by
  rw [Int64.ofInt_sub]
  rfl

/-- A difference of numbers, the smaller from the greater one. -/
theorem ofNat_sub_ofNat {i j : ℕ} (h : i ≤ j) : Int64.ofNat j - Int64.ofNat i = Int64.ofNat (j - i) := by
  have hcast : ((j - i : ℕ) : ℤ) = (j : ℤ) - i := by omega
  change _ = Int64.ofInt ((j - i : ℕ) : ℤ)
  rw [hcast, Int64.ofInt_sub]
  rfl

/-- A number in range is not negative. -/
theorem zero_le_ofNat {k : ℕ} (h : k < 2 ^ 63) : (0 : Int64) ≤ Int64.ofNat k := ofNat_nonneg h

/-- Numbers in range are compared as they are. -/
theorem ofNat_le {i j : ℕ} (hij : i ≤ j) (hj : j < 2 ^ 63) : Int64.ofNat i ≤ Int64.ofNat j := by
  rw [Int64.le_iff_toInt_le, toInt_ofNat (by omega), toInt_ofNat hj]
  omega

/-- An index that is in an array. -/
theorem indexOf_ofNat {i size : ℕ} (hi : i < size) (hsize : i < 2 ^ 63) :
    indexOf (Int64.ofNat i) size = some i := by
  rw [indexOf, toInt_ofNat hsize, if_pos ⟨by omega, by omega⟩, Int.toNat_natCast]

/-- A byte as a number. -/
def byteNumber (b : UInt8) : Int64 := b.toUInt64.toInt64

/-- The byte that a number from a byte is. -/
theorem byteNumber_toUInt8 (b : UInt8) : (byteNumber b).toUInt64.toUInt8 = b := by
  simp [byteNumber]

/-- The optional arguments of a copy from a vector of some length: from `start` on, and to `stop`. -/
def Range (args : List Int64) (length start stop : ℕ) : Prop :=
  args.getD 0 0 = Int64.ofNat start ∧ args.getD 1 (Int64.ofNat length) = Int64.ofNat stop

namespace Layout

variable {α β : Type} (L : Layout β) {vm vm' vm₁ vm₂ base : VmInternal} {r : Ref} {a b n m : ℕ} {l : List β}

/-- **An object of the kind**, with its array. -/
structure Has (vm : VmInternal) (r : Ref) (a n : ℕ) (l : List β) : Prop where
  obj : (vm.deref r).bind L.view = some (Int64.ofNat n, a)
  lt : n < L.limit
  le : n ≤ l.length
  array : (L.arrays vm)[a]? = some l

/-- The array of an object of the kind. -/
def array (vm : VmInternal) (r : Ref) : Option ℕ := ((vm.deref r).bind L.view).map Prod.snd

/-- **The elements of an object of the kind.** -/
def contents (vm : VmInternal) (r : Ref) : List β :=
  match (vm.deref r).bind L.view with
  | some (length, a) => (((L.arrays vm)[a]?).getD []).take length.toInt.toNat
  | none => []

variable {L}

theorem Has.contents_eq (h : L.Has vm r a n l) : L.contents vm r = l.take n := by
  have hn : (Int64.ofNat n).toInt.toNat = n := by
    rw [toInt_ofNat (h.lt.trans_le L.limit_le), Int.toNat_natCast]
  rw [contents, h.obj]
  simp only [h.array, Option.getD_some, hn]

theorem Has.length_contents (h : L.Has vm r a n l) : (L.contents vm r).length = n := by
  rw [h.contents_eq, List.length_take, Nat.min_eq_left h.le]

theorem Has.array_eq (h : L.Has vm r a n l) : L.array vm r = some a := by
  rw [Layout.array, h.obj, Option.map_some]

/-- The array of an object is there. -/
theorem Has.array_lt (h : L.Has vm r a n l) : a < (L.arrays vm).length := (List.getElem?_eq_some_iff.mp h.array).1

/-- An object and its array stay. -/
theorem Has.grown (h : L.Has vm r a n l) (hgrown : Grown vm vm') : L.Has vm' r a n l where
  obj := by
    obtain ⟨o, ho, hview⟩ := Option.bind_eq_some_iff.mp h.obj
    exact Option.bind_eq_some_iff.mpr ⟨o, hgrown.deref ho, hview⟩
  lt := h.lt
  le := h.le
  array := getElem?_of_isPrefix (L.arrays_grown hgrown) h.array

/-- **An object whose array is written.** -/
theorem Has.write (h : L.Has vm r a n l) {l' : List β} (hlength : l'.length = l.length) :
    L.Has (L.write vm a l') r a n l' where
  obj := by rw [L.deref_write]; exact h.obj
  lt := h.lt
  le := hlength ▸ h.le
  array := by
    rw [L.arrays_write]
    exact List.getElem?_set_self h.array_lt

/-- An object of another array. -/
theorem Has.write_ne (h : L.Has vm r a n l) (hne : a ≠ b) (l' : List β) : L.Has (L.write vm b l') r a n l where
  obj := by rw [L.deref_write]; exact h.obj
  lt := h.lt
  le := h.le
  array := by
    rw [L.arrays_write, List.getElem?_set_ne hne.symm]
    exact h.array

/-- A write, and then another one to the same array. -/
theorem grows_write_write {l l' : List β} (h : Grows (L.write vm b l) vm₁) (h' : Grows (L.write vm₁ b l') vm₂)
    (hb : b < (L.arrays vm).length) : Grows (L.write vm b l') vm₂ := by
  have hlt : b < (L.arrays (L.write vm b l)).length := by
    rw [L.arrays_write, List.length_set]
    exact hb
  have hgrows := L.grows_write l' h hlt
  rw [L.write_write] at hgrows
  exact hgrows.trans h'

variable (L)

/-- **How the elements of a kind are read and written**: a slot is read as a value, and a value that is written is
read again. -/
structure Access (α : Type) where
  /-- What a slot is read as; nothing where it is null. -/
  val : β → Option α
  slot : α → β
  slot_val {s : β} {v : α} : val s = some v → slot v = s
  ref : Ref → Int64 → VmM α
  set : Ref → Int64 → α → VmM Unit
  ref_run {vm : VmInternal} {r : Ref} {a n : ℕ} {l : List β} {i : ℕ} {s : β} {v : α} : L.Has vm r a n l → i < n →
    l[i]? = some s → val s = some v → ∃ vm', ref r (Int64.ofNat i) vm = .ok (v, vm') ∧ Grows vm vm'
  set_run {vm : VmInternal} {r : Ref} {a n : ℕ} {l : List β} {i : ℕ} (v : α) : L.Has vm r a n l → i < n →
    ∃ vm', set r (Int64.ofNat i) v vm = .ok ((), vm') ∧ Grows (L.write vm a (l.set i (slot v))) vm'

variable {L} (acc : L.Access α)

/-- **A vector**, with no null among its elements. -/
def Access.IsVector (vm : VmInternal) (r : Ref) : Prop :=
  ∃ a n l, L.Has vm r a n l ∧ ∀ j < n, ∃ s v, l[j]? = some s ∧ acc.val s = some v

/-! ## Filling

A new vector is filled from its last element down; which elements it has then does not matter to a copy, which
writes them all. -/

variable (L)

/-- **Work on a new vector**: everything that was in memory is as it was. -/
structure Works (base vm : VmInternal) (r : Ref) (t n : ℕ) : Prop where
  grows : Grows base vm
  fresh : (L.arrays base).length ≤ t
  vec : ∃ l, L.Has vm r t n l

variable {L}

/-- Looking at the memory keeps the work. -/
theorem Works.grows_on {t : ℕ} (h : L.Works base vm r t n) (hgrows : Grows vm vm') : L.Works base vm' r t n :=
  ⟨h.grows.trans hgrows, h.fresh, h.vec.imp fun _ hvec => hvec.grown hgrows.toGrown⟩

/-- **So does a write to the new vector.** -/
theorem Works.set {t : ℕ} (h : L.Works base vm r t n) {i : ℕ} (hi : i < n) (v : α) :
    ∃ vm', acc.set r (Int64.ofNat i) v vm = .ok ((), vm') ∧ L.Works base vm' r t n := by
  obtain ⟨l, hvec⟩ := h.vec
  obtain ⟨vm', hrun, hgrows⟩ := acc.set_run v hvec hi
  refine ⟨vm', hrun, (L.grows_new _ h.grows h.fresh).trans hgrows, h.fresh, l.set i (acc.slot v), ?_⟩
  exact (hvec.write List.length_set).grown hgrows.toGrown

/-- **Filling** keeps the rest of the memory, and comes to an end. -/
theorem Works.fillInner_run {t : ℕ} (fill : α) : ∀ (k : ℕ) {vm : VmInternal}, L.Works base vm r t n → k ≤ n → ∃ vm',
    fillInner acc.set r fill (Int64.ofInt ((k : ℤ) - 1)) vm = .ok (r, vm') ∧ L.Works base vm' r t n
  | 0, vm, h, _ => by
      refine ⟨vm, ?_, h⟩
      rw [fillInner, if_neg (by decide)]
      rfl
  | k + 1, vm, h, hk => by
      have hlt : k < 2 ^ 63 := by
        obtain ⟨l, hvec⟩ := h.vec
        have := hvec.lt
        have := L.limit_le
        omega
      obtain ⟨vm₁, hset, h₁⟩ := h.set acc hk fill
      obtain ⟨vm', hrest, h'⟩ := Works.fillInner_run fill k h₁ (by omega)
      refine ⟨vm', ?_, h'⟩
      rw [fillInner, ofInt_succ_sub_one, if_pos (zero_le_ofNat hlt), ofNat_sub_one]
      exact (run_bind hset).trans hrest

/-! ## Copying

The loop reads an element and writes it, one place after the other in either direction.  What it reads is what was
there before the loop, as long as no place is read after it has been written. -/

/-- **One element is copied**: it is read, and written to its place. -/
theorem Access.move_run {«to» «from» : Ref} {src : List β} (hto : L.Has vm «to» b m l) (hfrom : L.Has vm «from» a n src)
    {i j : ℕ} (hi : i < m) (hj : j < n) {s : β} {v : α} (hs : src[j]? = some s) (hv : acc.val s = some v) :
    ∃ vm₁ vm₂ src₂, acc.ref «from» (Int64.ofNat j) vm = .ok (v, vm₁) ∧
      acc.set «to» (Int64.ofNat i) v vm₁ = .ok ((), vm₂) ∧ Grows (L.write vm b (l.set i s)) vm₂ ∧
      L.Has vm₂ «to» b m (l.set i s) ∧ L.Has vm₂ «from» a n src₂ ∧ ∀ x, (a = b → x ≠ i) → src₂[x]? = src[x]? := by
  obtain ⟨vm₁, hread, hgrows₁⟩ := acc.ref_run hfrom hj hs hv
  obtain ⟨vm₂, hset, hgrows₂⟩ := acc.set_run v (hto.grown hgrows₁.toGrown) hi
  rw [acc.slot_val hv] at hgrows₂
  have hgrows : Grows (L.write vm b (l.set i s)) vm₂ := (L.grows_write _ hgrows₁ hto.array_lt).trans hgrows₂
  have hto₂ : L.Has vm₂ «to» b m (l.set i s) := (hto.write List.length_set).grown hgrows.toGrown
  rcases eq_or_ne a b with rfl | hne
  · obtain rfl : src = l := Option.some.inj (hfrom.array.symm.trans hto.array)
    exact ⟨vm₁, vm₂, src.set i s, hread, hset, hgrows, hto₂, (hfrom.write List.length_set).grown hgrows.toGrown,
      fun x hx => List.getElem?_set_ne (hx rfl).symm⟩
  · exact ⟨vm₁, vm₂, src, hread, hset, hgrows, hto₂, (hfrom.write_ne hne _).grown hgrows.toGrown, fun _ _ => rfl⟩

/-- **The loop of `core-vector-copier`**, from two places on in direction `d`: what was at the places of `from` is at
those of `to` then, and nothing else has changed. -/
theorem copierInner_run (dir : Int64 → Int64) {d : ℤ} (hd : d = 1 ∨ d = -1)
    (hdir : ∀ x : ℤ, dir (Int64.ofInt x) = Int64.ofInt (x + d)) {«to» «from» : Ref} :
    ∀ (k : ℕ) (p q : ℤ) {vm : VmInternal} {l src : List β}, k < 2 ^ 63 → L.Has vm «to» b m l →
      L.Has vm «from» a n src → (∀ i < k, 0 ≤ p + d * i ∧ p + d * i < m ∧ 0 ≤ q + d * i ∧ q + d * i < n) →
      (a = b → ∀ i j, i < j → j < k → q + d * j ≠ p + d * i) →
      (∀ i < k, ∃ s v, src[(q + d * i).toNat]? = some s ∧ acc.val s = some v) → ∃ vm' l',
        copierInner acc.set acc.ref «to» «from» dir (Int64.ofInt p) (Int64.ofInt q) (Int64.ofInt ((k : ℤ) - 1)) vm =
          .ok («to», vm') ∧
        Grows (L.write vm b l') vm' ∧ l'.length = l.length ∧
        (∀ i < k, l'[(p + d * i).toNat]? = src[(q + d * i).toNat]?) ∧
        ∀ j : ℕ, (∀ i < k, (j : ℤ) ≠ p + d * i) → l'[j]? = l[j]?
  | 0, p, q, vm, l, src, _, hto, _, _, _, _ => by
      refine ⟨vm, l, ?_, ?_, rfl, fun i hi => absurd hi (Nat.not_lt_zero i), fun _ _ => rfl⟩
      · rw [copierInner, if_pos (by decide)]
        rfl
      · rw [L.write_self hto.array]
        exact .refl vm
  | k + 1, p, q, vm, l, src, hk, hto, hfrom, hin, hapart, hval => by
      obtain ⟨hp, hpm, hq, hqn⟩ := hin 0 (Nat.succ_pos k)
      obtain ⟨s, v, hs, hv⟩ := hval 0 (Nat.succ_pos k)
      rw [Nat.cast_zero, mul_zero, add_zero] at hp hpm hq hqn hs
      obtain ⟨i, rfl⟩ := Int.eq_ofNat_of_zero_le hp
      obtain ⟨j, rfl⟩ := Int.eq_ofNat_of_zero_le hq
      rw [Int.toNat_natCast] at hs
      obtain ⟨vm₁, vm₂, src₂, hread, hset, hgrows, hto₂, hfrom₂, hsame⟩ :=
        acc.move_run hto hfrom (Int.ofNat_lt.mp hpm) (Int.ofNat_lt.mp hqn) hs hv
      have hnext (x : ℤ) (y : ℕ) : x + d * (y + 1 : ℕ) = x + d + d * y := by
        push_cast
        ring
      -- what is read later has not been overwritten
      have hlater : ∀ y < k, src₂[((j : ℤ) + d + d * y).toNat]? = src[((j : ℤ) + d + d * y).toNat]? := fun y hy => by
        refine hsame _ fun hab heq => hapart hab 0 (y + 1) (Nat.succ_pos y) (by omega) ?_
        have hpos := (hin (y + 1) (by omega)).2.2.1
        rw [hnext] at hpos ⊢
        rw [Nat.cast_zero, mul_zero, add_zero]
        omega
      obtain ⟨vm', l', hrest, hgrows', hlength, hcopied, hkept⟩ := copierInner_run dir hd hdir k (i + d) (j + d)
        (by omega) hto₂ hfrom₂
        (fun y hy => by
          have h := hin (y + 1) (by omega)
          rwa [hnext, hnext] at h)
        (fun hab x y hxy hy => by
          have h := hapart hab (x + 1) (y + 1) (by omega) (by omega)
          rwa [hnext, hnext] at h)
        (fun y hy => by
          rw [hlater y hy, ← hnext]
          exact hval (y + 1) (by omega))
      refine ⟨vm', l', ?_, grows_write_write hgrows hgrows' hto.array_lt, hlength.trans List.length_set, ?_, ?_⟩
      · rw [copierInner, ofInt_succ_sub_one, if_neg (Int64.not_lt.mpr (zero_le_ofNat (by omega))), ofNat_sub_one]
        refine (run_bind hread).trans ((run_bind hset).trans ?_)
        rw [hdir, hdir]
        exact hrest
      · rintro (_ | y) hy
        · have hlt : i < l.length := lt_of_lt_of_le (Int.ofNat_lt.mp hpm) hto.le
          rw [Nat.cast_zero, mul_zero, add_zero, add_zero, Int.toNat_natCast, Int.toNat_natCast, hs,
            hkept i fun x hx => by rcases hd with rfl | rfl <;> omega]
          exact List.getElem?_set_self hlt
        · rw [hnext, hnext, hcopied y (by omega), hlater y (by omega)]
      · intro x hx
        rw [hkept x fun y hy => by rw [← hnext]; exact hx (y + 1) (by omega)]
        refine List.getElem?_set_ne fun heq => hx 0 (Nat.succ_pos k) ?_
        rw [Nat.cast_zero, mul_zero, add_zero, heq]

/-- **`core-vector-copier`** copies a range as it was before the call, wherever it lies. -/
theorem coreVectorCopier_run (toFactory : Int64 → VmM Ref) {vLength : Ref → VmM Int64} {args : List Int64}
    {«to» «from» : Ref} {src : List β} {start stop i : ℕ} (hrange : Range args n start stop) (hle : start ≤ stop)
    (hstop : stop ≤ n) (hroom : i + (stop - start) ≤ m)
    (hlength : vLength «from» vm = .ok (Int64.ofNat n, vm₁))
    (hfactory : toFactory (Int64.ofNat (stop - start)) vm₁ = .ok («to», vm₂)) (hto : L.Has vm₂ «to» b m l)
    (hfrom : L.Has vm₂ «from» a n src) (hval : ∀ j < n, ∃ s v, src[j]? = some s ∧ acc.val s = some v) : ∃ vm' l',
    coreVectorCopier toFactory acc.set acc.ref vLength (Int64.ofNat i) «from» args vm = .ok («to», vm') ∧
      Grows (L.write vm₂ b l') vm' ∧ l'.length = l.length ∧ (∀ j < stop - start, l'[i + j]? = src[start + j]?) ∧
      ∀ j, (j < i ∨ i + (stop - start) ≤ j) → l'[j]? = l[j]? := by
  have hlimit := L.limit_le
  have hlt := hfrom.lt
  have hlt' := hto.lt
  rw [← ofNat_sub_ofNat hle] at hfactory
  have hcode : coreVectorCopier toFactory acc.set acc.ref vLength (Int64.ofNat i) «from» args vm =
      (if Int64.ofNat start > Int64.ofNat i then
        copierInner acc.set acc.ref «to» «from» (· + 1) (Int64.ofNat i) (Int64.ofNat start)
          (Int64.ofNat stop - Int64.ofNat start - 1)
      else
        copierInner acc.set acc.ref «to» «from» (· - 1)
          (Int64.ofNat i + (Int64.ofNat stop - Int64.ofNat start - 1))
          (Int64.ofNat start + (Int64.ofNat stop - Int64.ofNat start - 1))
          (Int64.ofNat stop - Int64.ofNat start - 1)) vm₂ := by
    rw [← hrange.1, ← hrange.2] at hfactory ⊢
    exact (run_bind hlength).trans (run_bind hfactory)
  rw [ofNat_sub_ofNat hle, ofNat_sub_one] at hcode
  let k := stop - start
  by_cases hgt : Int64.ofNat start > Int64.ofNat i
  · have hlt : i < start := by
      rw [gt_iff_lt, Int64.lt_iff_toInt_lt, toInt_ofNat (by omega), toInt_ofNat (by omega)] at hgt
      omega
    rw [if_pos hgt] at hcode
    have hdir (x : ℤ) : Int64.ofInt x + 1 = Int64.ofInt (x + 1) := (Int64.ofInt_add x 1).symm
    obtain ⟨vm', l', hrun, hgrows, hlen, hcopied, hkept⟩ := copierInner_run acc (· + 1) (.inl rfl) hdir k i start
      (by omega) hto hfrom (by omega) (by omega) (fun j hj => hval _ (by omega))
    refine ⟨vm', l', hcode.trans hrun, hgrows, hlen, fun j hj => ?_, fun j hj => hkept j fun y hy => by omega⟩
    have h := hcopied j hj
    rwa [one_mul] at h
  · have hge : start ≤ i := by
      rw [gt_iff_lt, Int64.lt_iff_toInt_lt, toInt_ofNat (by omega), toInt_ofNat (by omega)] at hgt
      omega
    rw [if_neg hgt] at hcode
    have hdir (x : ℤ) : Int64.ofInt x - 1 = Int64.ofInt (x + -1) := (Int64.ofInt_sub x 1).symm
    have hadd (x : ℕ) : Int64.ofNat x + Int64.ofInt ((k : ℤ) - 1) = Int64.ofInt ((x : ℤ) + ((k : ℤ) - 1)) :=
      (Int64.ofInt_add x _).symm
    obtain ⟨vm', l', hrun, hgrows, hlen, hcopied, hkept⟩ := copierInner_run acc (· - 1) (.inr rfl) hdir k
      (i + ((k : ℤ) - 1)) (start + ((k : ℤ) - 1)) (by omega) hto hfrom (by omega) (by omega)
      (fun j hj => hval _ (by omega))
    rw [hadd, hadd] at hcode
    refine ⟨vm', l', hcode.trans hrun, hgrows, hlen, fun j hj => ?_, fun j hj => hkept j fun y hy => by omega⟩
    have h := hcopied (k - 1 - j) (by omega)
    have hi : ((i : ℤ) + ((k : ℤ) - 1) + -1 * (k - 1 - j : ℕ)).toNat = i + j := by omega
    have hstart : ((start : ℤ) + ((k : ℤ) - 1) + -1 * (k - 1 - j : ℕ)).toNat = start + j := by omega
    rwa [hi, hstart] at h

end Layout

/-! ## Elements

`idx@` and `idx!` on an index that a vector has, with the operands as the library pushes them. -/

section Elements

variable (throw : Throw) {vm vm' : VmInternal} {r : Ref} {a n i : ℕ}

theorem Layout.Has.byteVector {l : List UInt8} (h : byteVectors.Has vm r a n l) :
    vm.deref r = some (.byteVector (Int64.ofNat n) a) := by
  obtain ⟨o, ho, hview⟩ := Option.bind_eq_some_iff.mp h.obj
  cases o <;> cases hview
  exact ho

theorem Layout.Has.vector {l : List Ptr} (h : vectors.Has vm r a n l) :
    vm.deref r = some (.vector (Int64.ofNat n) a) := by
  obtain ⟨o, ho, hview⟩ := Option.bind_eq_some_iff.mp h.obj
  cases o <;> cases hview
  exact ho

/-- **`bytevector-u8-ref`** reads a byte. -/
theorem bytevectorU8Ref_run {l : List UInt8} {b : UInt8} (h : byteVectors.Has vm r a n l) (hi : i < n)
    (hb : l[i]? = some b) : ∃ vm', bytevectorU8Ref throw r (Int64.ofNat i) vm = .ok (byteNumber b, vm') ∧ Grows vm vm' := by
  obtain ⟨idx, vm₀, hidx, hgrows₀, hderef, -⟩ := number_run (Int64.ofNat i) vm
  have h₀ := h.grown hgrows₀.toGrown
  obtain ⟨x, vm', hrun, hgrows, hx, -⟩ := asm_makes vm₀ [idx, r] (opIndexRef throw) (.fixnum (byteNumber b))
    fun vm₁ hholding => by
      obtain ⟨vm₂, hpop₁, hrest₁⟩ := hholding.pop
      obtain ⟨vm₃, hpop₂, hrest₂⟩ := hrest₁.pop
      have h₃ := h₀.grown hrest₂.grown
      have hget : getByte a (Int64.ofNat i) vm₃ = .ok (b, vm₃) := by
        refine (run_bind (ofOption_run h₃.array)).trans (ofOption_run ?_)
        rw [indexOf_ofNat (hi.trans_le h.le) (hi.trans h.lt), Option.bind_some, hb]
      refine ⟨vm₃, hrest₂, (run_bind hpop₁).trans ((run_bind hpop₂).trans ?_)⟩
      refine (run_bind (hrest₂.load hderef)).trans ((run_bind (hrest₂.load h₀.byteVector)).trans ?_)
      dsimp only
      rw [if_pos (ofNat_le hi.le h.lt)]
      exact run_bind hget
  exact ⟨vm', (run_bind hidx).trans ((run_bind hrun).trans (fixnumOf_run hx)), hgrows₀.trans hgrows⟩

/-- **`bytevector-u8-set!`** writes a byte. -/
theorem bytevectorU8Set_run {l : List UInt8} (x : Int64) (h : byteVectors.Has vm r a n l) (hi : i < n) :
    ∃ vm', bytevectorU8Set throw r (Int64.ofNat i) x vm = .ok ((), vm') ∧
      Grows (byteVectors.write vm a (l.set i x.toUInt64.toUInt8)) vm' := by
  obtain ⟨idx, vm₀, hidx, hgrows₀, hderef₀, -⟩ := number_run (Int64.ofNat i) vm
  obtain ⟨obj, vm₁, hobj, hgrows₁, hderef₁, -⟩ := number_run x vm₀
  have hgrows := hgrows₀.trans hgrows₁
  have h₁ := h.grown hgrows.toGrown
  obtain ⟨vm₂, e, hrun, hend⟩ := asm_run vm₁ [idx, obj, r] (do opIndexSet throw; opLitEmpty)
    (fun vm₂ _ => Grows (byteVectors.write vm a (l.set i x.toUInt64.toUInt8)) vm₂) fun vm₂ hholding => by
      obtain ⟨vm₃, hpop₁, hrest₁⟩ := hholding.pop
      obtain ⟨vm₄, hpop₂, hrest₂⟩ := hrest₁.pop
      obtain ⟨vm₅, hpop₃, hrest₃⟩ := hrest₂.pop
      have h₅ := h₁.grown hrest₃.grown
      let vm₆ := byteVectors.write vm₅ a (l.set i x.toUInt64.toUInt8)
      have hwrite : setByte a (Int64.ofNat i) x vm₅ = .ok ((), vm₆) :=
        (run_bind (ofOption_run h₅.array)).trans
          (run_bind (ofOption_run (indexOf_ofNat (hi.trans_le h.le) (hi.trans h.lt))))
      have hstep : opIndexSet throw vm₂ = .ok ((), vm₆) := by
        refine (run_bind hpop₁).trans ((run_bind hpop₂).trans ((run_bind hpop₃).trans ?_))
        refine (run_bind (hrest₃.load (hgrows₁.deref hderef₀))).trans ((run_bind (hrest₃.load h₁.byteVector)).trans ?_)
        dsimp only
        rw [if_pos (ofNat_le hi.le h.lt)]
        exact (run_bind (hrest₃.load hderef₁)).trans hwrite
      have hkept : Grows vm vm₅ := hgrows.trans ⟨hrest₃.grown, hrest₃.root⟩
      exact ⟨vm₆, vm₅.empty, (run_bind hstep).trans rfl, byteVectors.grows_write _ hkept h.array_lt⟩
  exact ⟨taken vm₂ e, (run_bind hidx).trans ((run_bind hobj).trans ((run_bind hrun).trans rfl)),
    hend.trans ⟨Grown.taken vm₂ e, rfl⟩⟩

/-- The elements of a byte vector: numbers, of which a write keeps the low byte. -/
def byteAccess : byteVectors.Access Int64 where
  val b := some (byteNumber b)
  slot x := x.toUInt64.toUInt8
  slot_val h := Option.some.inj h ▸ byteNumber_toUInt8 _
  ref := bytevectorU8Ref throw
  set := bytevectorU8Set throw
  ref_run h hi hs hv := Option.some.inj hv ▸ bytevectorU8Ref_run throw h hi hs
  set_run v h hi := bytevectorU8Set_run throw v h hi

end Elements

/-! ## New vectors

`make-vector` and `make-bytevector` make an array of its own for the vector, and fill it. -/

section New

variable (throw : Throw) {vm vm' : VmInternal} {r : Ref} {a n i : ℕ}

/-- `vec-len` of an object with a length. -/
theorem vecLen_run {o : Obj} (ho : vm.deref r = some o)
    (hlength : o = .vector (Int64.ofNat n) a ∨ o = .byteVector (Int64.ofNat n) a) :
    ∃ vm', (do fixnumOf (← asm [r] (opVectorLength throw))) vm = .ok (Int64.ofNat n, vm') ∧ Grows vm vm' := by
  obtain ⟨x, vm', hrun, hgrows, hx, -⟩ := asm_makes vm [r] (opVectorLength throw) (.fixnum (Int64.ofNat n))
    fun vm₁ hholding => by
      obtain ⟨vm₂, hpop, hrest⟩ := hholding.pop
      refine ⟨vm₂, hrest, (run_bind hpop).trans ((run_bind (hrest.load ho)).trans ?_)⟩
      rcases hlength with rfl | rfl <;> rfl
  exact ⟨vm', (run_bind hrun).trans (fixnumOf_run hx), hgrows⟩

/-- The length of a byte vector. -/
theorem bytevectorLength_run {l : List UInt8} (h : byteVectors.Has vm r a n l) : ∃ vm',
    bytevectorLength throw r vm = .ok (Int64.ofNat n, vm') ∧ Grows vm vm' :=
  vecLen_run throw h.byteVector (.inr rfl)

/-- The length of a vector, which is asked of a byte vector too. -/
theorem vectorLength_run {o : Obj} (ho : vm.deref r = some o)
    (hlength : o = .vector (Int64.ofNat n) a ∨ o = .byteVector (Int64.ofNat n) a) :
    ∃ vm', vectorLength throw r vm = .ok (Int64.ofNat n, vm') ∧ Grows vm vm' := by
  obtain ⟨vm', hrun, hgrows⟩ := vecLen_run throw ho hlength
  refine ⟨vm', (run_bind (load_run ho)).trans ?_, hgrows⟩
  rcases hlength with rfl | rfl <;> exact hrun

/-- **A new vector of a size**, with an array of its own. -/
def Layout.Makes {β : Type} (L : Layout β) (vm : VmInternal) (make : VmM Ref) (n : ℕ) : Prop :=
  ∃ r vm' t, make vm = .ok (r, vm') ∧ L.Works vm vm' r t n ∧ vm.deref r = none

/-- What is new later is new now. -/
theorem Grows.deref_none (h : Grows vm vm') (hr : vm'.deref r = none) : vm.deref r = none :=
  Option.eq_none_iff_forall_ne_some.mpr fun _ ho => Option.some_ne_none _ ((h.deref ho).symm.trans hr)

/-- Work on a new vector is work on it for an earlier memory. -/
theorem Layout.Works.earlier {β : Type} {L : Layout β} {base : VmInternal} {t : ℕ} (hgrows : Grows base vm)
    (h : L.Works vm vm' r t n) : L.Works base vm' r t n :=
  ⟨hgrows.trans h.grows, (L.arrays_grown hgrows.toGrown).length_le.trans h.fresh, h.vec⟩

/-- `vm_make_byte_vector`. -/
theorem vmMakeByteVector_makes (vm : VmInternal) (hn : n < 2 ^ 63) :
    byteVectors.Makes vm (vmMakeByteVector (Int64.ofNat n)) n := by
  have hsize : (Int64.ofNat n).toUInt64.toNat = n := by
    rw [toNat_toUInt64 (ofNat_nonneg hn), toInt_ofNat hn, Int.toNat_natCast]
  have hroom : roomFor (Int64.ofNat n).toUInt64.toNat vm = .ok (n, vm) := by
    rw [hsize, roomFor, if_pos hn]
    rfl
  let vm' : VmInternal := { vm with
    bytes := vm.bytes ++ [List.replicate n 0]
    objs := vm.objs ++ [.byteVector (Int64.ofNat n) vm.bytes.length] }
  have hgrown : Grown vm vm' := (Grown.newBytes vm _).trans (.alloc _ _)
  refine ⟨.obj vm.objs.length, vm', vm.bytes.length, (run_bind hroom).trans ((run_bind rfl).trans rfl),
    ⟨⟨hgrown, rfl⟩, le_rfl, List.replicate n 0, ?_, hn, List.length_replicate.ge, List.getElem?_concat_length⟩,
    List.getElem?_eq_none le_rfl⟩
  exact Option.bind_eq_some_iff.mpr ⟨_, List.getElem?_concat_length, rfl⟩

/-- **An instruction that makes a vector**, of the size that is pushed. -/
theorem makeSized_run {β : Type} (L : Layout β) {make : Int64 → VmM Ref} {msg : List UInt8} {k : Ref}
    (hk : vm.deref k = some (.fixnum (Int64.ofNat n))) (hmake : ∀ vm, L.Makes vm (make (Int64.ofNat n)) n) :
    L.Makes vm (asm [k] (makeSized throw make msg)) n := by
  obtain ⟨vm₁, r, hrun, t, hworks, hnew⟩ := asm_run vm [k] (makeSized throw make msg)
    (fun vm₁ r => ∃ t, L.Works vm vm₁ r t n ∧ vm.deref r = none) fun vm₁ hholding => by
      obtain ⟨vm₂, hpop, hrest⟩ := hholding.pop
      obtain ⟨r, vm₃, t, hrun, hworks, hnew⟩ := hmake vm₂
      have hgrows : Grows vm vm₂ := ⟨hrest.grown, hrest.root⟩
      exact ⟨vm₃, r, (run_bind hpop).trans ((run_bind (hrest.load hk)).trans ((run_bind hrun).trans rfl)), t,
        hworks.earlier hgrows, hgrows.deref_none hnew⟩
  exact ⟨r, taken vm₁ r, t, hrun, hworks.grows_on ⟨Grown.taken vm₁ r, rfl⟩, hnew⟩

/-- **`make-bytevector`** makes one of a size. -/
theorem makeBytevector_makes (vm : VmInternal) (hn : n < 2 ^ 63) :
    byteVectors.Makes vm (makeBytevector throw (Int64.ofNat n)) n := by
  obtain ⟨k, vm₀, hk, hgrows₀, hderef₀, -⟩ := number_run (Int64.ofNat n) vm
  obtain ⟨r, vm₁, t, hrun, hworks, hnew⟩ := makeSized_run throw byteVectors hderef₀ fun vm => vmMakeByteVector_makes vm hn
  obtain ⟨l, hvec⟩ := hworks.vec
  obtain ⟨vm₂, hlength, hgrows₂⟩ := vectorLength_run throw hvec.byteVector (.inr rfl)
  obtain ⟨vm', hfill, hworks'⟩ := (hworks.grows_on hgrows₂).fillInner_run (byteAccess throw) 0 n le_rfl
  rw [← ofNat_sub_one] at hfill
  exact ⟨r, vm', t, (run_bind hk).trans ((run_bind hrun).trans ((run_bind hlength).trans hfill)),
    hworks'.earlier hgrows₀, hgrows₀.deref_none hnew⟩

end New

/-! ## Like `memmove`

A copy into a vector moves a range of elements as it was before the call, also where it overlaps with the place
that it is moved to.  A copy that is a vector of its own is the range. -/

section Memmove

variable {α β : Type} {L : Layout β} {vm vm' vm₁ vm₂ : VmInternal}

/-- **A range has been moved**: `to` has it from a place on, and every other element of every vector is what it was. -/
structure Layout.Moved (L : Layout β) (vm vm' : VmInternal) («to» «from» : Ref) («at» start count : ℕ) : Prop where
  moved : ((L.contents vm' «to»).drop «at»).take count = ((L.contents vm «from»).drop start).take count
  kept : ∀ r j e, (L.contents vm r)[j]? = some e → (L.array vm r = L.array vm «to» → j < «at» ∨ «at» + count ≤ j) →
    (L.contents vm' r)[j]? = some e

/-- **Copying vectors of a kind behaves like `memmove`.** -/
structure Layout.Access.CopiesLikeMemmove (acc : L.Access α) (copyTo : Ref → Int64 → Ref → List Int64 → VmM Ref)
    (copy : Ref → List Int64 → VmM Ref) : Prop where
  into : ∀ {vm : VmInternal} {«to» «from» : Ref} {«at» start stop : ℕ} {args : List Int64}, acc.IsVector vm «to» →
    acc.IsVector vm «from» → Range args (L.contents vm «from»).length start stop → start ≤ stop →
    stop ≤ (L.contents vm «from»).length → «at» + (stop - start) ≤ (L.contents vm «to»).length →
    ∃ vm', copyTo «to» (Int64.ofNat «at») «from» args vm = .ok («to», vm') ∧
      L.Moved vm vm' «to» «from» «at» start (stop - start)
  new : ∀ {vm : VmInternal} {«from» : Ref} {start stop : ℕ} {args : List Int64}, acc.IsVector vm «from» →
    Range args (L.contents vm «from»).length start stop → start ≤ stop → stop ≤ (L.contents vm «from»).length →
    ∃ c vm', copy «from» args vm = .ok (c, vm') ∧ Grows vm vm' ∧ vm.deref c = none ∧
      (∀ r, acc.IsVector vm r → L.array vm r ≠ L.array vm' c) ∧ acc.IsVector vm' c ∧
      L.contents vm' c = ((L.contents vm «from»).drop start).take (stop - start)

/-- Ranges are alike when their elements are. -/
theorem slice_congr {l l' : List β} {i s k : ℕ} (h : ∀ j < k, l[i + j]? = l'[s + j]?) :
    (l.drop i).take k = (l'.drop s).take k := by
  refine List.ext_getElem? fun j => ?_
  rcases lt_or_ge j k with hj | hj
  · rw [List.getElem?_take_of_lt hj, List.getElem?_take_of_lt hj, List.getElem?_drop, List.getElem?_drop, h j hj]
  · rw [List.getElem?_eq_none (by rw [List.length_take]; omega), List.getElem?_eq_none (by rw [List.length_take]; omega)]

/-- An element is one that the array has, below the length. -/
theorem Layout.getElem?_contents_iff {r : Ref} {j : ℕ} {e : β} : (L.contents vm r)[j]? = some e ↔
    ∃ length a l, (vm.deref r).bind L.view = some (length, a) ∧ (L.arrays vm)[a]? = some l ∧ j < length.toInt.toNat ∧
      l[j]? = some e := by
  constructor
  · intro he
    cases hview : (vm.deref r).bind L.view with
    | none =>
      rw [contents, hview] at he
      cases he
    | some found =>
      obtain ⟨length, a⟩ := found
      rw [contents, hview] at he
      obtain ⟨hj, -⟩ := List.getElem?_eq_some_iff.mp he
      cases harray : (L.arrays vm)[a]? with
      | none => simp [harray] at hj
      | some l =>
        simp only [harray, Option.getD_some] at he hj
        rw [List.length_take] at hj
        rw [List.getElem?_take_of_lt (by omega)] at he
        exact ⟨length, a, l, rfl, harray, by omega, he⟩
  · rintro ⟨length, a, l, hview, harray, hj, he⟩
    rw [contents, hview]
    simp only [harray, Option.getD_some]
    rw [List.getElem?_take_of_lt hj]
    exact he

/-- What a write to an array leaves of the elements. -/
theorem Layout.getElem?_contents {b j : ℕ} {l l' : List β} {e : β} {r : Ref} (hgrows : Grows vm vm₁)
    (hwrite : Grows (L.write vm₁ b l') vm') (hb : (L.arrays vm₁)[b]? = some l)
    (hkept : L.array vm r = some b → l'[j]? = l[j]?) (he : (L.contents vm r)[j]? = some e) :
    (L.contents vm' r)[j]? = some e := by
  obtain ⟨length, a, src, hview, harray, hj, he⟩ := getElem?_contents_iff.mp he
  have harray₁ : (L.arrays vm₁)[a]? = some src := getElem?_of_isPrefix (L.arrays_grown hgrows.toGrown) harray
  have hview' : (vm'.deref r).bind L.view = some (length, a) := by
    obtain ⟨o, ho, hview⟩ := Option.bind_eq_some_iff.mp hview
    have ho₁ : (L.write vm₁ b l').deref r = some o := (L.deref_write ..).trans (hgrows.deref ho)
    exact Option.bind_eq_some_iff.mpr ⟨o, hwrite.deref ho₁, hview⟩
  have hthere {l₁ : List β} (h : (L.arrays (L.write vm₁ b l'))[a]? = some l₁) (hl : l₁[j]? = some e) :
      (L.contents vm' r)[j]? = some e :=
    getElem?_contents_iff.mpr ⟨length, a, l₁, hview', getElem?_of_isPrefix (L.arrays_grown hwrite.toGrown) h, hj, hl⟩
  rcases eq_or_ne a b with rfl | hne
  · obtain rfl : src = l := Option.some.inj (harray₁.symm.trans hb)
    have harray' : L.array vm r = some a := by rw [Layout.array, hview, Option.map_some]
    refine hthere ?_ ((hkept harray').trans he)
    rw [L.arrays_write]
    exact List.getElem?_set_self (List.getElem?_eq_some_iff.mp hb).1
  · refine hthere ?_ he
    rw [L.arrays_write, List.getElem?_set_ne hne.symm]
    exact harray₁

variable {acc : L.Access α} {vLength : Ref → VmM Int64} {make : Int64 → VmM Ref}

/-- A length that is asked of vectors of a kind. -/
def Layout.Access.Measures (acc : L.Access α) (vLength : Ref → VmM Int64) : Prop :=
  ∀ {vm : VmInternal} {r : Ref}, acc.IsVector vm r → ∃ vm', vLength r vm = .ok (Int64.ofNat (L.contents vm r).length, vm') ∧
    Grows vm vm'

/-- **`core-vector-copier` behaves like `memmove`**, on the elements, the length and the new vectors of a kind. -/
theorem coreVectorCopier_copies (hlength : acc.Measures vLength)
    (hmake : ∀ vm n, n < L.limit → L.Makes vm (make (Int64.ofNat n)) n) : acc.CopiesLikeMemmove
      (fun «to» «at» «from» args =>
        coreVectorCopier (fun _ => pure «to») acc.set acc.ref vLength «at» «from» args)
      (fun «from» args => coreVectorCopier make acc.set acc.ref vLength 0 «from» args) where
  into := by
    rintro vm «to» «from» i start stop args ⟨b, m, l, hto, -⟩ hvector hrange hle hstop hroom
    obtain ⟨vm₁, hrun, hgrows⟩ := hlength hvector
    obtain ⟨a, n, src, hfrom, hval⟩ := hvector
    rw [hto.length_contents] at hroom
    rw [hfrom.length_contents] at hrun hrange hstop
    have hto₁ := hto.grown hgrows.toGrown
    obtain ⟨vm', l', hcopy, hwrite, hlen, hmoved, hkept⟩ := Layout.coreVectorCopier_run acc (fun _ => pure «to») hrange
      hle hstop hroom hrun rfl hto₁ (hfrom.grown hgrows.toGrown) hval
    have hto' : L.Has vm' «to» b m l' := (hto₁.write hlen).grown hwrite.toGrown
    refine ⟨vm', hcopy, ?_, fun r j e he hout => ?_⟩
    · rw [hto'.contents_eq, hfrom.contents_eq]
      refine slice_congr fun j hj => ?_
      rw [List.getElem?_take_of_lt (by omega), List.getElem?_take_of_lt (by omega), hmoved j hj]
    · exact Layout.getElem?_contents hgrows hwrite hto₁.array
        (fun harray => hkept j (hout (harray.trans hto.array_eq.symm))) he
  new := by
    rintro vm «from» start stop args hvector hrange hle hstop
    obtain ⟨vm₁, hrun, hgrows⟩ := hlength hvector
    obtain ⟨a, n, src, hfrom, hval⟩ := hvector
    rw [hfrom.length_contents] at hrun hrange hstop
    have hn := hfrom.lt
    obtain ⟨c, vm₂, t, hnew, hworks, hfresh⟩ := hmake vm₁ (stop - start) (by omega)
    have hworks := hworks.earlier hgrows
    obtain ⟨l, hto⟩ := hworks.vec
    obtain ⟨vm', l', hcopy, hwrite, hlen, hmoved, -⟩ := Layout.coreVectorCopier_run acc make (i := 0) hrange hle hstop
      (Nat.zero_add _).le hrun hnew hto (hfrom.grown hworks.grows.toGrown) hval
    have hto' : L.Has vm' c t (stop - start) l' := (hto.write hlen).grown hwrite.toGrown
    have hmoved' : ∀ j < stop - start, l'[j]? = src[start + j]? := fun j hj => by
      have h := hmoved j hj
      rwa [Nat.zero_add] at h
    refine ⟨c, vm', hcopy, (L.grows_new l' hworks.grows hworks.fresh).trans hwrite, hgrows.deref_none hfresh, ?_,
      ⟨t, _, l', hto', fun j hj => ?_⟩, ?_⟩
    · rintro r ⟨a', _, _, hr, -⟩ hsame
      rw [hr.array_eq, hto'.array_eq, Option.some.injEq] at hsame
      have hlt := hr.array_lt
      have hge := hworks.fresh
      omega
    · rw [hmoved' j hj]
      exact hval _ (by omega)
    · rw [hto'.contents_eq, hfrom.contents_eq]
      have h : (l'.drop 0).take (stop - start) = ((src.take n).drop start).take (stop - start) :=
        slice_congr fun j hj => by rw [Nat.zero_add, hmoved' j hj, List.getElem?_take_of_lt (by omega)]
      rwa [List.drop_zero] at h

end Memmove

/-! ## Appending

`bytevector-append` copies its arguments one behind the other into a new byte vector, which shares its array with
none of them. -/

section Append

variable (throw : Throw) {base vm vm' : VmInternal} {t m : ℕ}

/-- The length of a byte vector is that of its elements. -/
theorem bytevectorLength_measures : (byteAccess throw).Measures (bytevectorLength throw) := by
  rintro vm r ⟨a, n, l, h, -⟩
  rw [h.length_contents]
  exact bytevectorLength_run throw h

/-- A vector stays one, with the elements it has. -/
theorem Layout.Access.IsVector.grown {α β : Type} {L : Layout β} {acc : L.Access α} {r : Ref} (h : acc.IsVector vm r)
    (hgrown : Grown vm vm') : acc.IsVector vm' r ∧ L.contents vm' r = L.contents vm r := by
  obtain ⟨a, n, l, h, hval⟩ := h
  have h' := h.grown hgrown
  exact ⟨⟨a, n, l, h', hval⟩, h'.contents_eq.trans h.contents_eq.symm⟩

end Append

end Insomniac.Lib

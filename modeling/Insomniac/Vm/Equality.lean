import Insomniac.Vm.Runs

/-!
# Vm/Equality — `eq`

    eq  a b   =   value of a, read by the type of a   ==   value of b, read by the type of a

The test of the types in `op_eq` is only made when one of the two is null, which it never is.  So the
value of the second object is read through the type of the first one, and the answer is the right one
as long as what is read there happens to be different (`EqFits`).
-/

open Bytes Insomniac.Asm Run

namespace Insomniac.Vm

/-! ## What `eq` should say

Two objects are the same where their types are, and what they hold. -/

/-- The bytes of a string of a length. -/
def VmInternal.contents (vm : VmInternal) (length : Int64) (bytes : ℕ) : Option (List UInt8) :=
  vm.bytes[bytes]?.map (·.take length.toInt.toNat)

/-- **The same value**: equal numbers, booleans, characters or strings, or else the same object. -/
def VmInternal.sameValue (vm : VmInternal) (a b : Ref) : (o1 o2 : Obj) → Bool
  | .fixnum i, .fixnum j => i == j
  | .bool x, .bool y => x == y
  | .char c, .char d => c == d
  | .string length bytes, .string length' bytes' =>
    length == length' && vm.contents length bytes == vm.contents length' bytes'
  | o1, o2 => o1.type == o2.type && a == b

/-! ## What it says

The value of an object is read by the type of the first one, whatever it is. -/

/-- What is read of an object as a C string, through the second word of its value.  An array without a `NUL` has none
here: what `strcmp` would read behind its end is the slack of the allocation, which is not part of this memory. -/
def VmInternal.rawBytes (host : Host) (vm : VmInternal) (obj : Ref) : Obj → Option (List UInt8)
  | .string _ bytes | .symbol _ bytes | .byteVector _ bytes => vm.name bytes
  | .pair _ _ | .vector _ _ | .record _ _ | .library _ _ => host.rawString vm obj
  | _ => none

/-- What `op_eq` compares. -/
def VmInternal.eqResult (host : Host) (vm : VmInternal) (a b : Ref) (o1 o2 : Obj) : Option Bool :=
  match o1 with
  | .fixnum integer => some (integer.toUInt64 == word host o2)
  | .bool boolean => some ((if boolean then 1 else 0) == (word host o2).toUInt8)
  | .char character => some (character == (word host o2).toUInt32)
  | .string _ bytes => do
    let string1 ← vm.name bytes
    let string2 ← vm.rawBytes host b o2
    some (string1 == string2)
  | _ => some (a == b)

/-- One of the two booleans on the stack. -/
def VmInternal.pushAnswer (vm : VmInternal) (answer : Bool) : VmInternal :=
  vm.push (some (if answer then vm.vmTrue else vm.vmFalse))

section

variable {host : Host} {vm : VmInternal} {a b cdr cdr' : Ref} {o1 o2 : Obj}

/-- What is read is a matter of the state alone. -/
theorem rawBytes_run (host : Host) (vm : VmInternal) (obj : Ref) (o : Obj) :
    Vm.rawBytes host obj o vm = ofOption (fun vm => vm.rawBytes host obj o) vm := by
  cases o <;> rfl

/-- Two strings are compared up to their `NUL`. -/
theorem compareStrings_run (bytes : ℕ) :
    (do
      let string1 ← cstring bytes
      let string2 ← Vm.rawBytes host b o2
      pushBool (string1 == string2) : VmM Unit) vm =
    match (do
      let string1 ← vm.name bytes
      let string2 ← vm.rawBytes host b o2
      some (string1 == string2) : Option Bool) with
    | some answer => .ok ((), vm.pushAnswer answer)
    | none => .error .undefined := by
  cases hname : vm.name bytes with
  | none => exact bind_error _ (ofOption_run_none hname)
  | some string1 =>
    refine (run_bind (ofOption_run hname)).trans ?_
    have hraw := rawBytes_run host vm b o2
    cases hstring : vm.rawBytes host b o2 with
    | none => exact bind_error _ (hraw.trans (ofOption_run_none hstring))
    | some string2 => exact run_bind (hraw.trans (ofOption_run hstring))

/-- **`op_eq`** pushes what it compares. -/
theorem opEq_run (ha : vm.Top a cdr) (hb : vm.deref cdr = some (.pair (some b) (some cdr')))
    (ho1 : vm.deref a = some o1) (ho2 : vm.deref b = some o2) :
    opEq host vm = match ((vm.pop cdr).pop cdr').eqResult host a b o1 o2 with
      | some answer => .ok ((), ((vm.pop cdr).pop cdr').pushAnswer answer)
      | none => .error .undefined := by
  let vm₁ := vm.pop cdr
  have hb' : vm₁.Top b cdr' := hb
  let vm₂ := vm₁.pop cdr'
  refine (run_bind (vmPop_run ha)).trans ((run_bind (vmPop_run hb')).trans
    ((run_bind (t := vm₂) (ofOption_run ho1)).trans ((run_bind (t := vm₂) (ofOption_run ho2)).trans ?_)))
  cases o1 with
  | string length bytes => exact compareStrings_run bytes
  | _ => rfl

/-! ## When it is right

One case for each type of the first object; each is a comparison of what is read of the second. -/

/-- **What is compared is the value**: of objects of one type it is, strings aside, which are compared
up to the first `NUL`; of others, what is read there is another value.  A string is only compared with
what is a C string in the memory of the machine, one whose `NUL` stands inside of its array. -/
def VmInternal.EqFits (host : Host) (vm : VmInternal) (b : Ref) : (o1 o2 : Obj) → Prop
  | .fixnum _, .fixnum _ | .bool _, .bool _ | .char _, .char _ => True
  | .string length bytes, .string length' bytes' => ∃ s s', vm.name bytes = some s ∧
    vm.name bytes' = some s' ∧ (s = s' ↔ length = length' ∧ vm.contents length bytes = vm.contents length' bytes')
  | .fixnum i, o2 => word host o2 ≠ i.toUInt64
  | .bool x, o2 => (word host o2).toUInt8 ≠ if x then 1 else 0
  | .char c, o2 => (word host o2).toUInt32 ≠ c
  | .string _ bytes, o2 => ∃ s s', vm.name bytes = some s ∧ vm.rawBytes host b o2 = some s' ∧ s ≠ s'
  | _, _ => True

/-- Objects of two types are no same value. -/
theorem sameValue_of_ne (h : o1.type ≠ o2.type) : vm.sameValue a b o1 o2 = false := by
  cases o1 <;> cases o2 <;> first | rfl | exact absurd rfl h

/-- A comparison of two words that should say no. -/
theorem some_beq_iff {α : Type} [DecidableEq α] {x y : α} : some (x == y) = some false ↔ y ≠ x := by
  rw [Option.some.injEq, beq_eq_false_iff_ne]
  exact ne_comm

/-- A number is compared with the first eight bytes of the other object. -/
theorem fits_fixnum (i : Int64) (o2 : Obj) :
    vm.eqResult host a b (.fixnum i) o2 = some (vm.sameValue a b (.fixnum i) o2) ↔
      vm.EqFits host b (.fixnum i) o2 := by
  cases o2 with
  | fixnum j =>
    have hword : (i.toUInt64 == j.toUInt64) = (i == j) := by
      rw [Bool.eq_iff_iff, beq_iff_eq, beq_iff_eq]
      refine ⟨fun h => ?_, congrArg _⟩
      cases i
      cases j
      exact congrArg Int64.ofUInt64 h
    exact iff_of_true (congrArg some hword) trivial
  | _ =>
    rw [sameValue_of_ne (by rintro ⟨⟩)]
    exact some_beq_iff

/-- A boolean is compared by its address. -/
theorem fits_bool (x : Bool) (o2 : Obj) :
    vm.eqResult host a b (.bool x) o2 = some (vm.sameValue a b (.bool x) o2) ↔
      vm.EqFits host b (.bool x) o2 := by
  cases o2 with
  | bool y =>
    refine iff_of_true ?_ trivial
    cases x <;> cases y <;> rfl
  | _ =>
    rw [sameValue_of_ne (by rintro ⟨⟩)]
    exact some_beq_iff

/-- A character is compared with the first four bytes. -/
theorem fits_char (c : UInt32) (o2 : Obj) :
    vm.eqResult host a b (.char c) o2 = some (vm.sameValue a b (.char c) o2) ↔
      vm.EqFits host b (.char c) o2 := by
  cases o2 with
  | char d =>
    have hword : (c == d.toUInt64.toUInt32) = (c == d) := by simp
    exact iff_of_true (congrArg some hword) trivial
  | _ =>
    rw [sameValue_of_ne (by rintro ⟨⟩)]
    exact some_beq_iff

/-- What is compared of a string, and whether that is as it should be. -/
theorem compared_iff {bytes : ℕ} {same : Bool} :
    (do
      let string1 ← vm.name bytes
      let string2 ← vm.rawBytes host b o2
      some (string1 == string2) : Option Bool) = some same ↔
    ∃ s s', vm.name bytes = some s ∧ vm.rawBytes host b o2 = some s' ∧ (s = s' ↔ same = true) := by
  constructor
  · intro h
    obtain ⟨s, hs, h⟩ := Option.bind_eq_some_iff.mp h
    obtain ⟨s', hs', h⟩ := Option.bind_eq_some_iff.mp h
    refine ⟨s, s', hs, hs', ?_⟩
    rw [← Option.some.inj h, beq_iff_eq]
  · rintro ⟨s, s', hs, hs', hsame⟩
    have hbeq : (s == s') = same := by
      rw [Bool.eq_iff_iff, beq_iff_eq]
      exact hsame
    simp [hs, hs', hbeq]

/-- A string is compared with what its second field points at. -/
theorem fits_string (length : Int64) (bytes : ℕ) (o2 : Obj) :
    vm.eqResult host a b (.string length bytes) o2 = some (vm.sameValue a b (.string length bytes) o2) ↔
      vm.EqFits host b (.string length bytes) o2 := by
  refine compared_iff.trans ?_
  cases o2 with
  | string length' bytes' =>
    simp only [VmInternal.sameValue, Bool.and_eq_true, beq_iff_eq, VmInternal.EqFits, VmInternal.rawBytes]
  | _ =>
    rw [sameValue_of_ne (by rintro ⟨⟩)]
    simp [VmInternal.EqFits]

/-- **The answer is right exactly if what is compared is the value.** -/
theorem eqResult_iff (host : Host) (ho1 : vm.deref a = some o1) (ho2 : vm.deref b = some o2) :
    vm.eqResult host a b o1 o2 = some (vm.sameValue a b o1 o2) ↔ vm.EqFits host b o1 o2 := by
  have hobject : (o1.type == o2.type && a == b) = (a == b) := by
    rcases eq_or_ne a b with rfl | hne
    · cases ho1.symm.trans ho2
      simp
    · simp [hne]
  cases o1 with
  | fixnum i => exact fits_fixnum i o2
  | bool x => exact fits_bool x o2
  | char c => exact fits_char c o2
  | string length bytes => exact fits_string length bytes o2
  | _ => exact iff_of_true (congrArg some hobject.symm) trivial

end

/-! ## Runs

In the states that a run reaches, the two booleans are the only ones, so comparing their addresses is enough. -/

/-- The two booleans are where `vm_create` put them. -/
structure Booleans (vm : VmInternal) : Prop where
  vmTrue : vm.vmTrue = .obj 1
  vmFalse : vm.vmFalse = .obj 2

theorem Changes.booleans {A : Allow} {vm vm' : VmInternal} (h : Changes A vm vm') (hb : Booleans vm) :
    Booleans vm' := by
  induction h with
  | refl => exact hb
  | tail _ hchange ih => cases hchange <;> exact ⟨ih.vmTrue, ih.vmFalse⟩

/-- The two booleans of the start are the only ones ever. -/
theorem Reachable.booleans {host : Host} {vm : VmInternal} (h : Reachable host vm) : Booleans vm := by
  induction h with
  | refl => exact ⟨rfl, rfl⟩
  | @tail vm₁ _ hreach hnext ih =>
    cases hnext with
    | step h => exact (h.changes (A := Allow.all) (Reachable.sound hreach) (permits_all _ vm₁)).booleans ih
    | call h => cases h <;> exact ⟨ih.vmTrue, ih.vmFalse⟩

/-- `eq` of the number one and of true. -/
def eqOfMixed : List (Token ℕ) := [.op .litTrue Op.noOperand, .fixnum 1, .op .eq Op.noOperand]

/-- **`eq` says that one and true are equal.** -/
theorem eq_of_mixed : ∃ vm a b cdr cdr', Reachable Host.bare vm ∧ vm.Top a cdr ∧
    vm.deref cdr = some (.pair (some b) (some cdr')) ∧ vm.deref a = some (.fixnum 1) ∧
      vm.deref b = some (.bool true) ∧ vm.sameValue a b (.fixnum 1) (.bool true) = false ∧
        opEq Host.bare vm = .ok ((), ((vm.pop cdr).pop cdr').pushAnswer true) := by
  have hpasses : passes (vmLoop Host.bare 2) (startBytes ((asmString eqOfMixed).getD []) vmCreate) (fun vm =>
      vm.deref vm.stackRoot = some (.pair (some (.obj 3)) (some (.cell 0))) &&
        vm.deref (.cell 0) = some (.pair (some (.obj 1)) (some (.obj 0))) &&
        vm.deref (.obj 3) = some (.fixnum 1) && vm.deref (.obj 1) = some (.bool true)) = true := by
    decide +kernel
  obtain ⟨⟨⟩, vm, hrun, hvm⟩ := exists_of_passes hpasses
  simp only [Bool.and_eq_true, decide_eq_true_eq] at hvm
  obtain ⟨⟨⟨ha, hb⟩, ho1⟩, ho2⟩ := hvm
  refine ⟨vm, _, _, _, _, (later_startBytes _ rfl).trans (later_vmLoop hrun), ha, hb, ho1, ho2, rfl, ?_⟩
  exact opEq_run ha hb ho1 ho2

/-- **`eq` is right exactly on the objects that fit.** -/
theorem eq_iff_fits {host : Host} {vm : VmInternal} {a b cdr cdr' : Ref} {o1 o2 : Obj}
    (h : Reachable host vm) (ha : vm.Top a cdr) (hb : vm.deref cdr = some (.pair (some b) (some cdr')))
    (ho1 : vm.deref a = some o1) (ho2 : vm.deref b = some o2) :
    opEq host vm = .ok ((), ((vm.pop cdr).pop cdr').pushAnswer (vm.sameValue a b o1 o2)) ↔
      ((vm.pop cdr).pop cdr').EqFits host b o1 o2 := by
  have hiff := eqResult_iff host (show ((vm.pop cdr).pop cdr').deref a = some o1 from ho1) ho2
  rw [opEq_run ha hb ho1 ho2, ← hiff]
  change _ ↔ _ = some (vm.sameValue a b o1 o2)
  have hbooleans := h.booleans
  have hinj : ∀ x y, ((vm.pop cdr).pop cdr').pushAnswer x = ((vm.pop cdr).pop cdr').pushAnswer y → x = y := by
    intro x y hxy
    have hcell := congrArg (fun vm : VmInternal => vm.cells.getLast?.map Cell.car) hxy
    cases x <;> cases y <;>
      simp [VmInternal.pushAnswer, VmInternal.push, VmInternal.pop, hbooleans.vmTrue, hbooleans.vmFalse] at hcell ⊢
  cases ((vm.pop cdr).pop cdr').eqResult host a b o1 o2 with
  | none => simp
  | some answer =>
    simp only [Except.ok.injEq, Prod.mk.injEq, true_and, Option.some.injEq]
    exact ⟨hinj _ _, fun h => by rw [h]⟩

/-- `eq` of two numbers. -/
theorem eq_iff_fits_fixnum : ∃ vm cdr cdr', Reachable Host.bare vm ∧
    vm.deref (.obj 3) = some (.fixnum 7) ∧ vm.deref (.obj 4) = some (.fixnum 7) ∧
      opEq Host.bare vm = .ok ((), ((vm.pop cdr).pop cdr').pushAnswer true) := by
  have hpasses : passes (vmLoop Host.bare 2)
      (startBytes ((asmString ([.fixnum 7, .fixnum 7] : List (Token ℕ))).getD []) vmCreate) (fun vm =>
      vm.deref vm.stackRoot = some (.pair (some (.obj 4)) (some (.cell 0))) &&
        vm.deref (.cell 0) = some (.pair (some (.obj 3)) (some (.obj 0))) &&
        vm.deref (.obj 3) = some (.fixnum 7) && vm.deref (.obj 4) = some (.fixnum 7)) = true := by
    decide +kernel
  obtain ⟨⟨⟩, vm, hrun, hvm⟩ := exists_of_passes hpasses
  simp only [Bool.and_eq_true, decide_eq_true_eq] at hvm
  obtain ⟨⟨⟨ha, hb⟩, ho1⟩, ho2⟩ := hvm
  have h : Reachable Host.bare vm := (later_startBytes _ rfl).trans (later_vmLoop hrun)
  exact ⟨vm, _, _, h, ho1, ho2, (eq_iff_fits h ha hb ho2 ho1).mpr trivial⟩

end Insomniac.Vm

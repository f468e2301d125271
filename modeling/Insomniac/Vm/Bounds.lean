import Insomniac.Vm.Grown

/-!
# Vm/Bounds — the instructions with an index

    idx@  vector index          idx!  vector obj index
    call_ext  func lib          write  fd num u8

`idx@` and `idx!` compare with `>=` and never with zero, so that the length itself and every negative
number pass as an index; `call_ext` does the same with its table, and `write` compares with nothing.
-/

open Bytes Insomniac.Asm Run

namespace Insomniac.Vm

/-! ## Operands

The operands of an instruction are the topmost objects of the stack, each with what it is. -/

/-- The operands from a pair on, with the objects they are, and the pair behind them. -/
inductive VmInternal.Operands (vm : VmInternal) : Ref → List (Ref × Obj) → Ref → Prop
  | nil (r : Ref) : vm.Operands r [] r
  | cons {r cdr rest obj : Ref} {o : Obj} {l : List (Ref × Obj)} :
      vm.deref r = some (.pair (some obj) (some cdr)) → vm.deref obj = some o → vm.Operands cdr l rest →
      vm.Operands r ((obj, o) :: l) rest

/-- Some operands taken off the stack, and nothing else. -/
def VmInternal.taken (vm : VmInternal) (rest : Ref) (count : ℕ) : VmInternal :=
  { vm with stackRoot := rest, depth := vm.depth - count }

/-- How many operands an instruction with an index has. -/
def indexed : Op → Option ℕ
  | .indexRef | .callExt => some 2
  | .indexSet | .fdWrite => some 3
  | _ => none

/-! ## What is touched

What each instruction may do when its operands are in bounds, told with the number of the one slot, byte or entry that
it is about: no signed index is left here. -/

/-- The number of elements an object says it has. -/
def Obj.length? : Obj → Option Int64
  | .vector length _ | .record length _ | .byteVector length _ => some length
  | _ => none

/-- The number of the element that an index names, among `length` of them. -/
def place (index length : Int64) : Option ℕ :=
  if 0 ≤ index ∧ index < length then some index.toInt.toNat else none

/-- Slot `i` of an array is pushed. -/
def pushSlot (a i : ℕ) : VmM Unit := do
  let slots ← ofOption (·.arrays[a]?)
  let obj ← ofOption fun _ => slots[i]?
  vmPush obj

/-- Byte `i` of an array is pushed, as a number. -/
def pushByte (bs i : ℕ) : VmM Unit := do
  let bytes ← ofOption (·.bytes[bs]?)
  let byte ← ofOption fun _ => bytes[i]?
  let obj ← alloc (.fixnum byte.toUInt64.toInt64)
  vmPush obj

/-- An object is stored in slot `i` of an array, and nowhere else. -/
def storeSlot (a i : ℕ) (obj : Ref) : VmM Unit := do
  let slots ← ofOption (·.arrays[a]?)
  if i < slots.length then modify fun vm => { vm with arrays := vm.arrays.set a (slots.set i obj) }
  else undefined

/-- A number is stored in byte `i` of an array, and nowhere else. -/
def storeByte (bs i : ℕ) (integer : Int64) : VmM Unit := do
  let bytes ← ofOption (·.bytes[bs]?)
  if i < bytes.length then
    modify fun vm => { vm with bytes := vm.bytes.set bs (bytes.set i integer.toUInt64.toUInt8) }
  else undefined

/-- The look at the depth at the end of `op_call_ext`. -/
def checkDepth (throw : Throw) (depth : ℤ) : VmM Unit := do
  if (← get).depth ≠ depth then throw "Stack uneven after call_ext" []

/-- Entry `i` of the export list of a library is called. -/
def callEntry (host : Host) (lib : Ref) (i : ℕ) : VmM Unit := do
  let depth := (← get).depth
  let exports ← exportsOf host lib
  let (_, funcPtr) ← ofOption fun _ => exports[i]?
  funcPtr.run
  checkDepth handleException depth

/-- The first `count` bytes of an array are handed to the operating system, in one call of `write`. -/
def writeBytes (host : Host) (throw : Throw) (fdInt : Int64) (vector : ℕ) (count : Int64) : VmM Unit := do
  let bytes ← ofOption (·.bytes[vector]?)
  match ← ask (.write fdInt bytes count) host.write with
  | .ok written =>
    let reg1 ← alloc (.fixnum written)
    if written ≠ count then throw "Did not write all bytes." [reg1]
    else vmPush reg1
  | .error err => throwErrno throw "An error ocurred while writing." err

/-- What `idx@` may read. -/
def readAt : Obj → Obj → Option (VmM Unit)
  | .vector length slots, .fixnum index | .record length slots, .fixnum index =>
    (place index length).map (pushSlot slots)
  | .byteVector length bytes, .fixnum index => (place index length).map (pushByte bytes)
  | _, _ => none

/-- What `idx!` may write. -/
def storeAt (obj : Ref) : Obj → Obj → Obj → Option (VmM Unit)
  | .vector length slots, _, .fixnum index | .record length slots, _, .fixnum index =>
    (place index length).map fun i => storeSlot slots i obj
  | .byteVector length bytes, .fixnum integer, .fixnum index =>
    (place index length).map fun i => storeByte bytes i integer
  | _, _, _ => none

/-- What `call_ext` may call. -/
def callAt (host : Host) (lib : Ref) : Obj → Obj → Option (VmM Unit)
  | .fixnum func, .library _ funcCount => (place func funcCount).map (callEntry host lib)
  | _, _ => none

/-- What `write` may hand to the operating system. -/
def writeAt (host : Host) : Obj → Obj → Obj → Option (VmM Unit)
  | .fixnum fdInt, .fixnum count, .byteVector length vector =>
    if 0 ≤ count ∧ count ≤ length then some (writeBytes host handleException fdInt vector count) else none
  | _, _, _ => none

/-- **The access that the operands name**, if it is in bounds. -/
def access (host : Host) : Op → List (Ref × Obj) → Option (VmM Unit)
  | .indexRef, [(_, v), (_, i)] => readAt v i
  | .indexSet, [(_, v), (obj, o), (_, i)] => storeAt obj v o i
  | .callExt, [(_, f), (lib, l)] => callAt host lib f l
  | .fdWrite, [(_, fd), (_, num), (_, u8)] => writeAt host fd num u8
  | _, _ => none

/-- **What passes the tests of the instruction and is out of bounds.** -/
def Overruns : Op → List Obj → Prop
  | .indexRef, [v, i] => ∃ length index : Int64,
      v.length? = some length ∧ i = .fixnum index ∧ index ≤ length ∧ (index < 0 ∨ index = length)
  | .indexSet, [v, obj, i] => ∃ length index : Int64,
      v.length? = some length ∧ i = .fixnum index ∧ index ≤ length ∧ (index < 0 ∨ index = length) ∧
        (v.type = .byteVector → obj.type = .fixnum)
  | .callExt, [f, lib] => ∃ (func funcCount : Int64) (functions : Option ℕ),
      f = .fixnum func ∧ lib = .library functions funcCount ∧ func ≤ funcCount ∧ (func < 0 ∨ func = funcCount)
  | .fdWrite, [fd, num, u8] => ∃ (fdInt count length : Int64) (vector : ℕ),
      fd = .fixnum fdInt ∧ num = .fixnum count ∧ u8 = .byteVector length vector ∧ (count < 0 ∨ length < count)
  | _, _ => False

/-- **The round throws and does nothing else**: the operands are taken off the stack, and whatever handles the
exception, nothing in memory is written to. -/
def ThrowsOnly (host : Host) (vm : VmInternal) (rest : Ref) (count : ℕ) : Prop :=
  (∃ msg args, evalStepWith host raise vm = .error (.raised msg args (vm.fetched.taken rest count))) ∧
    ∀ vm', evalStep host vm = .ok ((), vm') → Grown vm.fetched vm'

/-- **The round stays in bounds, or throws**: with its operands taken it is the access that they name and nothing
else, and where they name none it only throws. -/
def StaysInBounds (host : Host) (vm : VmInternal) (o : Op) (ops : List (Ref × Obj)) (rest : Ref) : Prop :=
  match access host o ops with
  | some act => evalStep host vm = act (vm.fetched.taken rest ops.length)
  | none => ThrowsOnly host vm rest ops.length

/-! ## Comparing

The test of the instructions is `index ≤ length` alone. -/

section

variable {index length : Int64} {f : ℕ → VmM Unit} {act : VmM Unit}

/-- What is a place has passed the test of the source, and is no negative number. -/
theorem place_eq_some {i : ℕ} (h : place index length = some i) :
    0 ≤ index ∧ index ≤ length ∧ i = index.toInt.toNat := by
  unfold place at h
  split at h
  · next hin =>
    refine ⟨hin.1, ?_, (Option.some.inj h).symm⟩
    have hlt := Int64.lt_iff_toInt_lt.mp hin.2
    exact Int64.le_iff_toInt_le.mpr hlt.le
  · cases h

/-- An index that is too small or the length names nothing. -/
theorem place_eq_none (h : index < 0 ∨ index = length) : place index length = none := by
  refine if_neg ?_
  rintro ⟨hnonneg, hlt⟩
  rw [Int64.le_iff_toInt_le] at hnonneg
  rw [Int64.lt_iff_toInt_lt] at hlt
  rcases h with h | rfl
  · rw [Int64.lt_iff_toInt_lt] at h
    omega
  · omega

/-- An index that names nothing passes the test only when it is too small or the length. -/
theorem not_le_of_place (hplace : (place index length).map f = none)
    (hover : ¬ (index ≤ length ∧ (index < 0 ∨ index = length))) : ¬ index ≤ length := by
  intro hle
  refine hover ⟨hle, ?_⟩
  by_contra hne
  have hin : ¬ (0 ≤ index ∧ index < length) := by
    intro h
    rw [place, if_pos h] at hplace
    cases hplace
  rw [not_or, Int64.lt_iff_toInt_lt, ← Int64.toInt_inj] at hne
  rw [Int64.le_iff_toInt_le, Int64.lt_iff_toInt_lt] at hin
  rw [Int64.le_iff_toInt_le] at hle
  omega

/-- An index that is no negative number is one of an array when the array is long enough. -/
theorem indexOf_eq (h : 0 ≤ index) (size : ℕ) :
    indexOf index size = if index.toInt.toNat < size then some index.toInt.toNat else none := by
  rw [Int64.le_iff_toInt_le] at h
  have hzero : (0 : Int64).toInt = 0 := rfl
  unfold indexOf
  split_ifs
  · rfl
  · omega
  · omega
  · rfl

/-- An index that is not negative reads the slot of its number. -/
theorem indexOf_bind {α : Type} (h : 0 ≤ index) (l : List α) :
    (indexOf index l.length).bind (l[·]?) = l[index.toInt.toNat]? := by
  rw [indexOf_eq h]
  split
  · rfl
  · next hge => exact (List.getElem?_eq_none (Nat.not_lt.mp hge)).symm

/-! ### The accesses of the source

With an index that is no negative number, they are those above. -/

/-- A slot is read and pushed. -/
theorem getSlot_eq (h : 0 ≤ index) (a : ℕ) :
    (getSlot a index >>= fun obj => vmPush obj) = pushSlot a index.toInt.toNat := by
  simp only [getSlot, pushSlot, bind_assoc, indexOf_bind h]

/-- A byte is read and pushed as a number. -/
theorem getByte_eq (h : 0 ≤ index) (bs : ℕ) :
    (getByte bs index >>= fun byte => alloc (.fixnum byte.toUInt64.toInt64) >>= fun obj => vmPush (some obj)) =
      pushByte bs index.toInt.toNat := by
  simp only [getByte, pushByte, bind_assoc, indexOf_bind h]

theorem setSlot_eq (h : 0 ≤ index) (a : ℕ) (obj : Ref) : setSlot a index obj = storeSlot a index.toInt.toNat obj := by
  unfold setSlot storeSlot
  refine bind_congr fun slots => ?_
  rw [indexOf_eq h]
  split <;> rfl

theorem setByte_eq (h : 0 ≤ index) (bs : ℕ) (integer : Int64) :
    setByte bs index integer = storeByte bs index.toInt.toNat integer := by
  unfold setByte storeByte
  refine bind_congr fun bytes => ?_
  rw [indexOf_eq h]
  split <;> rfl

end

/-! ## Taking operands

An instruction takes its operands one by one, and what is left of the stack is counted on the way. -/

section

variable {host : Host} {vm : VmInternal} {rest a b c : Ref} {oa ob oc : Obj}

/-- The first operand is on top, and the others are below it. -/
theorem VmInternal.Operands.inv {r obj : Ref} {o : Obj} {l : List (Ref × Obj)}
    (h : vm.Operands r ((obj, o) :: l) rest) :
    ∃ cdr, vm.deref r = some (.pair (some obj) (some cdr)) ∧ vm.deref obj = some o ∧ vm.Operands cdr l rest := by
  cases h with
  | cons hr ho hl => exact ⟨_, hr, ho, hl⟩

theorem pop_taken (r cdr : Ref) (count : ℕ) : (vm.taken r count).pop cdr = vm.taken cdr (count + 1) := by
  simp only [VmInternal.pop, VmInternal.taken, Nat.cast_add, Nat.cast_one, Int.sub_sub]

theorem vmPop_taken {r obj cdr : Ref} (count : ℕ) (h : vm.deref r = some (.pair (some obj) (some cdr))) :
    vmPop (vm.taken r count) = .ok (obj, vm.taken cdr (count + 1)) := by
  have htop : (vm.taken r count).Top obj cdr := h
  rw [vmPop_run htop, pop_taken]

theorem taken_zero (vm : VmInternal) : vm.taken vm.stackRoot 0 = vm := by
  simp [VmInternal.taken]

/-- Objects stay what they are while operands are taken. -/
theorem load_taken {obj : Ref} {o : Obj} {count : ℕ} (h : vm.deref obj = some o) :
    load obj (vm.taken rest count) = .ok (o, vm.taken rest count) :=
  ofOption_run h

/-- Two operands are taken. -/
theorem pop₂_run {f : Ref → Ref → VmM Unit} (h : vm.Operands vm.stackRoot [(a, oa), (b, ob)] rest) :
    (vmPop >>= fun x => vmPop >>= fun y => f x y) vm = f a b (vm.taken rest 2) := by
  obtain ⟨cdr, ha, -, h⟩ := h.inv
  obtain ⟨cdr', hb, -, h⟩ := h.inv
  cases h
  have hpop := vmPop_taken 0 ha
  rw [taken_zero] at hpop
  exact (run_bind hpop).trans (run_bind (vmPop_taken 1 hb))

/-- Three operands are taken. -/
theorem pop₃_run {f : Ref → Ref → Ref → VmM Unit}
    (h : vm.Operands vm.stackRoot [(a, oa), (b, ob), (c, oc)] rest) :
    (vmPop >>= fun x => vmPop >>= fun y => vmPop >>= fun z => f x y z) vm = f a b c (vm.taken rest 3) := by
  obtain ⟨cdr, ha, -, h⟩ := h.inv
  obtain ⟨cdr', hb, -, h⟩ := h.inv
  obtain ⟨cdr'', hc, -, h⟩ := h.inv
  cases h
  have hpop := vmPop_taken 0 ha
  rw [taken_zero] at hpop
  exact (run_bind hpop).trans ((run_bind (vmPop_taken 1 hb)).trans (run_bind (vmPop_taken 2 hc)))

/-! ## Throwing, or not

The operands of an instruction either name an access, or are refused, or pass its tests all the same
(`Follows`).  What an instruction would throw with is found by running it with `raise`. -/

/-- The instruction throws with its operands taken; what it does after that only adds to memory. -/
def Refuses (m : Throw → VmM Unit) (vm : VmInternal) (rest : Ref) (count : ℕ) : Prop :=
  ∃ (msg : List UInt8) (args : List Ref) (next : Throw → VmM Unit), Adds (next handleException) ∧
    ∀ throw, m throw vm = (throw msg args >>= fun _ => next throw) (vm.taken rest count)

/-- The instruction does not throw before something else has happened. -/
def Proceeds (m : Throw → VmM Unit) (vm : VmInternal) (rest : Ref) (count : ℕ) : Prop :=
  (∃ x, ∀ throw, m throw vm = x) ∨ ∀ msg args, m raise vm ≠ .error (.raised msg args (vm.taken rest count))

/-- **What an instruction does with its operands**: the access that they name, or nothing, when they name none;
unless they overrun. -/
structure Follows (m : Throw → VmM Unit) (vm : VmInternal) (rest : Ref) (count : ℕ) (access? : Option (VmM Unit))
    (overruns : Prop) : Prop where
  accesses {act : VmM Unit} : access? = some act → m handleException vm = act (vm.taken rest count)
  refuses : access? = none → ¬ overruns → Refuses m vm rest count
  proceeds : overruns → access? = none ∧ Proceeds m vm rest count

/-- Throwing is the last thing that is done. -/
theorem Refuses.last {m : Throw → VmM Unit} {count : ℕ} (msg : List UInt8) (args : List Ref)
    (h : ∀ throw, m throw vm = throw msg args (vm.taken rest count)) : Refuses m vm rest count :=
  ⟨msg, args, fun _ => pure (), .pure (), fun throw => by rw [bind_pure_unit, h]⟩

/-- Operands that name nothing and overrun nothing. -/
theorem Follows.refused {m : Throw → VmM Unit} {count : ℕ} {overruns : Prop} (hover : ¬ overruns)
    (h : Refuses m vm rest count) : Follows m vm rest count none overruns where
  accesses := by rintro act ⟨⟩
  refuses _ _ := h
  proceeds h := absurd h hover

/-- **An instruction that compares an index with a length and nothing else**, and throws when it is larger. -/
theorem Follows.compare {m : Throw → VmM Unit} {count : ℕ} {overruns : Prop} {index length : Int64} {f : ℕ → VmM Unit}
    {act : VmM Unit} (msg : List UInt8) (args : List Ref)
    (hrun : ∀ throw, m throw vm = (if index ≤ length then act else throw msg args) (vm.taken rest count))
    (hact : 0 ≤ index → act = f index.toInt.toNat)
    (hover : overruns ↔ index ≤ length ∧ (index < 0 ∨ index = length)) :
    Follows m vm rest count ((place index length).map f) overruns where
  accesses h := by
    obtain ⟨i, hi, rfl⟩ := Option.map_eq_some_iff.mp h
    obtain ⟨hnonneg, hle, rfl⟩ := place_eq_some hi
    rw [hrun, if_pos hle, hact hnonneg]
  refuses hnone hnot := .last msg args fun throw =>
    (hrun throw).trans (congrFun (if_neg (not_le_of_place hnone (mt hover.mpr hnot))) _)
  proceeds h := by
    obtain ⟨hle, hout⟩ := hover.mp h
    refine ⟨by rw [place_eq_none hout, Option.map_none], .inl ⟨act (vm.taken rest count), fun throw => ?_⟩⟩
    rw [hrun, if_pos hle]

/-! ## The instructions

For each instruction, which access its operands name, and which operands it refuses.  The proofs follow the
tests of the source in their order. -/

/-- What is not a number is no index to read at. -/
theorem readAt_eq_none (h : ob.type ≠ .fixnum) : readAt oa ob = none := by
  cases ob with
  | fixnum index => exact absurd rfl h
  | _ => cases oa <;> rfl

/-- Nor is it one to write at. -/
theorem storeAt_eq_none {obj : Ref} (h : oc.type ≠ .fixnum) : storeAt obj oa ob oc = none := by
  cases oc with
  | fixnum index => exact absurd rfl h
  | _ => cases oa <;> cases ob <;> rfl

/-- **`idx@`** compares once, whatever it reads from. -/
theorem follows_indexRef (h : vm.Operands vm.stackRoot [(a, oa), (b, ob)] rest) :
    Follows opIndexRef vm rest 2 (readAt oa ob) (Overruns .indexRef [oa, ob]) := by
  obtain ⟨_, -, ha, h'⟩ := h.inv
  obtain ⟨_, -, hb, -⟩ := h'.inv
  cases ob with
  | fixnum index =>
    have hrun : ∀ throw, opIndexRef throw vm = _ := fun throw =>
      (pop₂_run h).trans ((run_bind (load_taken hb)).trans (run_bind (load_taken ha)))
    have hover : ∀ length, oa.length? = some length →
        (Overruns .indexRef [oa, .fixnum index] ↔ index ≤ length ∧ (index < 0 ∨ index = length)) := by
      refine fun length hlength => ⟨?_, fun h => ⟨length, index, hlength, rfl, h⟩⟩
      rintro ⟨length', index', hlength', ⟨⟩, h⟩
      cases hlength.symm.trans hlength'
      exact h
    have hthrow : readAt oa (.fixnum index) = none → oa.length? = none →
        (∀ throw, opIndexRef throw vm = throw "Read by index requires a vector." [a] (vm.taken rest 2)) →
        Follows opIndexRef vm rest 2 (readAt oa (.fixnum index)) (Overruns .indexRef [oa, .fixnum index]) := by
      intro hnone hlength h
      rw [hnone]
      refine .refused ?_ (.last _ _ h)
      rintro ⟨length, index', hlength', -⟩
      cases hlength.symm.trans hlength'
    cases oa with
    | vector length slots =>
      exact .compare "Read by index requires a vector." [a] hrun (getSlot_eq · slots) (hover length rfl)
    | record length slots =>
      exact .compare "Read by index requires a vector." [a] hrun (getSlot_eq · slots) (hover length rfl)
    | byteVector length bytes =>
      exact .compare "Read by index requires a vector." [a] hrun (getByte_eq · bytes) (hover length rfl)
    | _ => exact hthrow rfl rfl hrun
  | _ =>
    rw [readAt_eq_none (by rintro ⟨⟩)]
    refine .refused ?_ (.last "The index must be a number." [b] fun throw =>
      (pop₂_run h).trans (run_bind (load_taken hb)))
    rintro ⟨length, index, -, ⟨⟩, -⟩

/-- `idx!` either writes the slot or the byte that its operands name, or refuses them. -/
theorem follows_indexSet (h : vm.Operands vm.stackRoot [(a, oa), (b, ob), (c, oc)] rest) :
    Follows opIndexSet vm rest 3 (storeAt b oa ob oc) (Overruns .indexSet [oa, ob, oc]) := by
  obtain ⟨_, -, ha, h'⟩ := h.inv
  obtain ⟨_, -, hb, h''⟩ := h'.inv
  obtain ⟨_, -, hc, -⟩ := h''.inv
  cases oc with
  | fixnum index =>
    have hrun : ∀ throw, opIndexSet throw vm = _ := fun throw =>
      (pop₃_run h).trans ((run_bind (load_taken hc)).trans (run_bind (load_taken ha)))
    have hover : ∀ length, oa.length? = some length → (oa.type = .byteVector → ob.type = .fixnum) →
        (Overruns .indexSet [oa, ob, .fixnum index] ↔ index ≤ length ∧ (index < 0 ∨ index = length)) := by
      refine fun length hlength htype => ⟨?_, fun h => ⟨length, index, hlength, rfl, h.1, h.2, htype⟩⟩
      rintro ⟨length', index', hlength', ⟨⟩, hle, hout, -⟩
      cases hlength.symm.trans hlength'
      exact ⟨hle, hout⟩
    have hthrow : storeAt b oa ob (.fixnum index) = none → oa.length? = none →
        (∀ throw, opIndexSet throw vm = throw "Set by index requires a vector." [a] (vm.taken rest 3)) →
        Follows opIndexSet vm rest 3 (storeAt b oa ob (.fixnum index)) (Overruns .indexSet [oa, ob, .fixnum index]) := by
      intro hnone hlength h
      rw [hnone]
      refine .refused ?_ (.last _ _ h)
      rintro ⟨length, index', hlength', -⟩
      cases hlength.symm.trans hlength'
    cases oa with
    | vector length slots =>
      exact .compare "Set by index requires a vector." [a] hrun (setSlot_eq · slots b) (hover length rfl (by rintro ⟨⟩))
    | record length slots =>
      exact .compare "Set by index requires a vector." [a] hrun (setSlot_eq · slots b) (hover length rfl (by rintro ⟨⟩))
    | byteVector length bytes =>
      -- the object is looked at after the index
      cases ob with
      | fixnum integer =>
        have hrun' : ∀ throw, opIndexSet throw vm = (if index ≤ length then setByte bytes index integer
            else throw "Set by index requires a vector." [a]) (vm.taken rest 3) := by
          intro throw
          refine (hrun throw).trans ?_
          by_cases hpass : index ≤ length
          · rw [if_pos hpass]
            exact (congrFun (if_pos hpass) _).trans (run_bind (load_taken hb))
          · rw [if_neg hpass]
            exact congrFun (if_neg hpass) _
        exact .compare _ _ hrun' (setByte_eq · bytes integer) (hover length rfl fun _ => rfl)
      | _ =>
        refine .refused (?_ : ¬ Overruns .indexSet _) ?_
        · rintro ⟨length', index', -, -, -, -, htype⟩
          cases htype rfl
        · by_cases hpass : index ≤ length
          · exact .last "Byte vectors may only contain numbers." [b] fun throw =>
              (hrun throw).trans ((congrFun (if_pos hpass) _).trans (run_bind (load_taken hb)))
          · exact .last "Set by index requires a vector." [a] fun throw =>
              (hrun throw).trans (congrFun (if_neg hpass) _)
    | _ => exact hthrow rfl rfl hrun
  | _ =>
    rw [storeAt_eq_none (by rintro ⟨⟩)]
    refine .refused ?_ (.last "The index must be a number." [c] fun throw =>
      (pop₃_run h).trans (run_bind (load_taken hc)))
    rintro ⟨length, index, -, ⟨⟩, -⟩

theorem opCallExt_run (h : vm.Operands vm.stackRoot [(a, oa), (b, ob)] rest) (throw : Throw) :
    opCallExt host throw vm =
      (callExt host throw a b >>= fun _ => checkDepth throw (vm.taken rest 2).depth) (vm.taken rest 2) :=
  pop₂_run h

/-- The check at the end only adds to memory. -/
theorem adds_checkDepth (depth : ℤ) : Adds (checkDepth handleException depth) :=
  adds_get.bind fun vm => by
    split
    · exact fun _ _ _ => handleException_grown
    · exact .pure ()

/-- What `op_call_ext` does with a number that passes its test. -/
theorem callExt_run (vm : VmInternal) {func funcCount : Int64} {functions : Option ℕ}
    (ha : vm.deref a = some (.fixnum func)) (hb : vm.deref b = some (.library functions funcCount))
    (hle : func ≤ funcCount) (throw : Throw) : callExt host throw a b vm = (exportsOf host b >>= fun exports =>
      ofOption (fun _ => (indexOf func exports.length).bind (exports[·]?)) >>= fun p => p.2.run) vm := by
  have hgt : ¬ func > funcCount := by
    rw [Int64.le_iff_toInt_le] at hle
    exact fun hlt => absurd (Int64.lt_iff_toInt_lt.mp hlt) (Int.not_lt.mpr hle)
  have hrun : callExt host throw a b vm = _ := (run_bind (ofOption_run ha)).trans (run_bind (ofOption_run hb))
  exact hrun.trans (congrFun (if_neg hgt) _)

/-- An external function that does not come back with the depth it was called with is not in the state that it was
called in. -/
theorem proceeds_callExt {call : VmM Unit} (h : vm.Operands vm.stackRoot [(a, oa), (b, ob)] rest)
    (hcall : ∀ throw, callExt host throw a b (vm.taken rest 2) = call (vm.taken rest 2)) :
    Proceeds (opCallExt host) vm rest 2 := by
  cases hend : call (vm.taken rest 2) with
  | error e =>
    exact .inl ⟨.error e, fun throw => (opCallExt_run h throw).trans (bind_error _ ((hcall throw).trans hend))⟩
  | ok r =>
    have hcheck : ∀ throw, opCallExt host throw vm =
        (if r.2.depth ≠ (vm.taken rest 2).depth then throw "Stack uneven after call_ext" [] else pure ()) r.2 :=
      fun throw => (opCallExt_run h throw).trans ((run_bind ((hcall throw).trans hend)).trans (run_bind rfl))
    by_cases hdepth : r.2.depth = (vm.taken rest 2).depth
    · exact .inl ⟨_, fun throw => (hcheck throw).trans (congrFun (if_neg (not_not.mpr hdepth)) _)⟩
    · refine .inr fun msg args hraise => ?_
      rw [hcheck, if_pos hdepth] at hraise
      have hstate : r.2 = vm.taken rest 2 := by
        injection hraise with hraise
        injection hraise
      exact hdepth (congrArg VmInternal.depth hstate)

/-- **`call_ext`** looks at the depth after the call, whatever came before. -/
theorem follows_callExt (h : vm.Operands vm.stackRoot [(a, oa), (b, ob)] rest) :
    Follows (opCallExt host) vm rest 2 (callAt host b oa ob) (Overruns .callExt [oa, ob]) := by
  obtain ⟨_, -, ha, h'⟩ := h.inv
  obtain ⟨_, -, hb, -⟩ := h'.inv
  have hrefuses : ∀ msg args, (∀ throw, callExt host throw a b (vm.taken rest 2) = throw msg args (vm.taken rest 2)) →
      Refuses (opCallExt host) vm rest 2 := fun msg args hcall =>
    ⟨msg, args, fun throw => checkDepth throw (vm.taken rest 2).depth, adds_checkDepth _,
      fun throw => (opCallExt_run h throw).trans (bind_congr_run _ (hcall throw))⟩
  have hload : ∀ throw, callExt host throw a b (vm.taken rest 2) = _ := fun throw =>
    (run_bind (load_taken ha)).trans (run_bind (load_taken hb))
  have hthrow : callAt host b oa ob = none → ¬ Overruns .callExt [oa, ob] →
      (∀ throw, callExt host throw a b (vm.taken rest 2) = throw "Invalid arguments to call_ext" [a, b] (vm.taken rest 2)) →
      Follows (opCallExt host) vm rest 2 (callAt host b oa ob) (Overruns .callExt [oa, ob]) := by
    intro hnone hover hcall
    rw [hnone]
    exact .refused hover (hrefuses _ _ hcall)
  cases oa with
  | fixnum func =>
    cases ob with
    | library functions funcCount =>
      constructor
      · intro act hact
        obtain ⟨i, hi, rfl⟩ := Option.map_eq_some_iff.mp hact
        obtain ⟨hnonneg, hle, rfl⟩ := place_eq_some hi
        rw [opCallExt_run h, bind_congr_run _ (callExt_run (vm.taken rest 2) ha hb hle _)]
        simp only [indexOf_bind hnonneg, bind_assoc]
        rfl
      · intro hnone hover
        have hle : ¬ func ≤ funcCount := not_le_of_place hnone
          fun h => hover ⟨func, funcCount, functions, rfl, rfl, h⟩
        have hgt : func > funcCount := by
          rw [Int64.le_iff_toInt_le] at hle
          exact Int64.lt_iff_toInt_lt.mpr (Int.not_le.mp hle)
        exact hrefuses "Invalid function number" [a, b] fun throw => (hload throw).trans (congrFun (if_pos hgt) _)
      · rintro ⟨_, _, _, ⟨⟩, ⟨⟩, hle, hout⟩
        exact ⟨by rw [callAt, place_eq_none hout, Option.map_none], proceeds_callExt h (callExt_run _ ha hb hle)⟩
    | _ => exact hthrow rfl (by rintro ⟨_, _, _, -, ⟨⟩, -⟩) hload
  | _ =>
    refine hthrow ?_ (by rintro ⟨_, _, _, ⟨⟩, -⟩) hload
    cases ob <;> rfl

/-- What `write` throws with comes after the call of the operating system, when there is a new object. -/
theorem raised_writeBytes {vm vm₁ : VmInternal} {fdInt count : Int64} {vector : ℕ} {msg : List UInt8} {args : List Ref}
    (h : writeBytes host raise fdInt vector count vm = .error (.raised msg args vm₁)) :
    vm.objs.length < vm₁.objs.length := by
  rcases error_of_bind h with hbytes | ⟨bytes, vm₂, hbytes, hasks⟩
  · cases hfound : vm.bytes[vector]? with
    | none => cases (ofOption_run_none hfound).symm.trans hbytes
    | some bytes => cases (ofOption_run hfound).symm.trans hbytes
  obtain ⟨-, rfl⟩ := ofOption_ok hbytes
  rcases error_of_bind hasks with ⟨⟨⟩⟩ | ⟨answer, vm₃, hask, hanswered⟩
  cases hask
  cases hanswer : host.write (.write fdInt bytes count :: vm₂.calls) with
  | ok written =>
    simp only [hanswer] at hanswered
    rcases error_of_bind hanswered with ⟨⟨⟩⟩ | ⟨reg1, _, ⟨⟩, hlast⟩
    split at hlast
    · cases hlast
      simp
    · cases hlast
  | error err =>
    simp only [hanswer] at hanswered
    rcases error_of_bind hanswered with ⟨⟨⟩⟩ | ⟨reg1, _, ⟨⟩, hthrows⟩
    rcases error_of_bind hthrows with hstring | ⟨reg2, vm₄, hstring, ⟨⟩⟩
    · unfold vmMakeCString vmMakeString at hstring
      split at hstring <;> cases hstring
    · have hle := (adds_vmMakeString _ _ _ _ _ hstring).objs.length_le
      simp only [List.length_append, List.length_singleton] at hle
      exact hle

/-- **`write`** compares with nothing. -/
theorem follows_fdWrite (h : vm.Operands vm.stackRoot [(a, oa), (b, ob), (c, oc)] rest) :
    Follows (opFdWrite host) vm rest 3 (writeAt host oa ob oc) (Overruns .fdWrite [oa, ob, oc]) := by
  obtain ⟨_, -, ha, h'⟩ := h.inv
  obtain ⟨_, -, hb, h''⟩ := h'.inv
  obtain ⟨_, -, hc, -⟩ := h''.inv
  have hload : ∀ throw, opFdWrite host throw vm = _ := fun throw => (pop₃_run h).trans (run_bind (load_taken ha))
  cases oa with
  | fixnum fdInt =>
    have hload' : ∀ throw, opFdWrite host throw vm = _ := fun throw => (hload throw).trans (run_bind (load_taken hb))
    cases ob with
    | fixnum count =>
      have hload'' : ∀ throw, opFdWrite host throw vm = _ := fun throw =>
        (hload' throw).trans (run_bind (load_taken hc))
      cases oc with
      | byteVector length vector =>
        have hwrite : ∀ throw, opFdWrite host throw vm = writeBytes host throw fdInt vector count (vm.taken rest 3) :=
          hload''
        constructor
        · intro act hact
          obtain ⟨-, hact⟩ := Option.ite_none_right_eq_some.mp hact
          cases hact
          exact hwrite handleException
        · intro hnone hover
          have hin : ¬ (0 ≤ count ∧ count ≤ length) := fun h => by
            rw [writeAt, if_pos h] at hnone
            cases hnone
          refine absurd ⟨fdInt, count, length, vector, rfl, rfl, rfl, ?_⟩ hover
          rw [Int64.lt_iff_toInt_lt, Int64.lt_iff_toInt_lt]
          rw [Int64.le_iff_toInt_le, Int64.le_iff_toInt_le] at hin
          have hzero : (0 : Int64).toInt = 0 := rfl
          omega
        · rintro ⟨_, _, _, _, ⟨⟩, ⟨⟩, ⟨⟩, hout⟩
          rw [Int64.lt_iff_toInt_lt, Int64.lt_iff_toInt_lt] at hout
          refine ⟨if_neg ?_, .inr fun msg args hraise => ?_⟩
          · rw [Int64.le_iff_toInt_le, Int64.le_iff_toInt_le]
            have hzero : (0 : Int64).toInt = 0 := rfl
            omega
          · rw [hwrite] at hraise
            exact absurd (raised_writeBytes hraise) (Nat.lt_irrefl _)
      | _ =>
        exact .refused (by rintro ⟨_, _, _, _, -, -, ⟨⟩, -⟩) (.last "Read expected a byte vector!" [c] hload'')
    | _ =>
      exact .refused (by rintro ⟨_, _, _, _, -, ⟨⟩, -⟩)
        (.last "Read expected a number of bytes to read!" [b] hload')
  | _ => exact .refused (by rintro ⟨_, _, _, _, ⟨⟩, -⟩) (.last "Read expected file descriptor!" [a] hload)

/-! ## A round

A round fetches its instruction before it touches anything; a refusal is then what `handle_exception` makes of
it. -/

/-- The instruction of a round does what its operands are for. -/
theorem follows (host : Host) {o : Op} {ops : List (Ref × Obj)} (ho : indexed o = some ops.length)
    (h : vm.Operands vm.stackRoot ops rest) : ∃ m : Throw → VmM Unit,
      (∀ throw, Vm.ops host throw o = some (m throw)) ∧
        Follows m vm rest ops.length (access host o ops) (Overruns o (ops.map Prod.snd)) := by
  match o, ops, ho with
  | .indexRef, [(a, oa), (b, ob)], _ => exact ⟨opIndexRef, fun _ => rfl, follows_indexRef h⟩
  | .indexSet, [(a, oa), (b, ob), (c, oc)], _ => exact ⟨opIndexSet, fun _ => rfl, follows_indexSet h⟩
  | .callExt, [(a, oa), (b, ob)], _ => exact ⟨opCallExt host, fun _ => rfl, follows_callExt h⟩
  | .fdWrite, [(a, oa), (b, ob), (c, oc)], _ => exact ⟨opFdWrite host, fun _ => rfl, follows_fdWrite h⟩

/-- A refusal only adds to memory. -/
theorem Refuses.grown {m : Throw → VmM Unit} {count : ℕ} (h : Refuses m vm rest count)
    {vm' : VmInternal} (hrun : m handleException vm = .ok ((), vm')) : Grown vm vm' := by
  obtain ⟨msg, args, next, hnext, hthrow⟩ := h
  rw [hthrow] at hrun
  obtain ⟨⟨⟩, vm₁, hexception, hrest⟩ := bind_ok hrun
  have htaken : Grown vm (vm.taken rest count) := { Grown.refl vm with }
  exact htaken.trans ((handleException_grown hexception).trans (hnext _ _ _ hrest))

/-- **An instruction that refuses only throws.** -/
theorem Refuses.throwsOnly {m : Throw → VmM Unit} {count : ℕ} (h : Refuses m vm.fetched rest count)
    (hround : ∀ throw, evalStepWith host throw vm = m throw vm.fetched) : ThrowsOnly host vm rest count := by
  refine ⟨?_, fun vm' hrun => h.grown ((hround _).symm.trans hrun)⟩
  obtain ⟨msg, args, next, -, hthrow⟩ := h
  exact ⟨msg, args, (hround raise).trans (hthrow raise)⟩

/-- An instruction that proceeds does not. -/
theorem Proceeds.not_throwsOnly {m : Throw → VmM Unit} {count : ℕ} (h : Proceeds m vm.fetched rest count)
    (hs : Sound True vm) (hround : ∀ throw, evalStepWith host throw vm = m throw vm.fetched) :
    ¬ ThrowsOnly host vm rest count := by
  rintro ⟨⟨msg, args, hraise⟩, -⟩
  rw [hround raise] at hraise
  rcases h with ⟨x, hx⟩ | hne
  · -- nothing is thrown, and the round itself never stops that way
    have hround' : evalStep host vm = .error (.raised msg args (vm.fetched.taken rest count)) :=
      (hround handleException).trans ((hx _).trans ((hx raise).symm.trans hraise))
    exact (evalStep_changes (A := Allow.all) hs (permits_all _ vm)).of_error hround'
  · exact hne msg args hraise

/-- Operands do not depend on the environments. -/
theorem VmInternal.Operands.fetched {r : Ref} {l : List (Ref × Obj)} (h : vm.Operands r l rest) :
    vm.fetched.Operands r l rest := by
  induction h with
  | nil r => exact .nil r
  | cons hr ho _ ih => exact .cons hr ho ih

end

/-! ## Runs

What was shown of an instruction in any state holds in the states that a run reaches. -/

/-- A vector of one slot is read at an index. -/
def readsAt (index : Int64) : List (Token ℕ) :=
  [.fixnum index, .fixnum 1, .op .makeVector Op.noOperand, .op .indexRef Op.noOperand]

/-- **The state before the vector is read.** -/
theorem reached_readsAt {index : Int64} (hpasses : passes (vmLoop Host.bare 3)
    (startBytes ((asmString (readsAt index)).getD []) vmCreate) (fun vm =>
      vm.nextOp = some .indexRef &&
        vm.deref vm.stackRoot = some (.pair (some (.obj 5)) (some (.cell 0))) &&
        vm.deref (.cell 0) = some (.pair (some (.obj 3)) (some (.obj 0))) &&
        vm.deref (.obj 5) = some (.vector 1 0) && vm.deref (.obj 3) = some (.fixnum index)) = true) :
    ∃ vm, Reachable Host.bare vm ∧ vm.nextOp = some .indexRef ∧
      vm.Operands vm.stackRoot [(.obj 5, .vector 1 0), (.obj 3, .fixnum index)] (.obj 0) := by
  obtain ⟨⟨⟩, vm, hrun, hvm⟩ := exists_of_passes hpasses
  simp only [Bool.and_eq_true, decide_eq_true_eq] at hvm
  obtain ⟨⟨⟨⟨hnext, hv⟩, hi⟩, hvector⟩, hindex⟩ := hvm
  exact ⟨vm, (later_startBytes _ rfl).trans (later_vmLoop hrun), hnext,
    .cons hv hvector (.cons hi hindex (.nil _))⟩

/-- **Reading behind the last slot of a vector does not throw.** -/
theorem reads_behind_vector : ∃ vm rest, Reachable Host.bare vm ∧ vm.nextOp = some .indexRef ∧
    vm.Operands vm.stackRoot [(.obj 5, .vector 1 0), (.obj 3, .fixnum 1)] rest ∧
      access Host.bare .indexRef [(.obj 5, .vector 1 0), (.obj 3, .fixnum 1)] = none ∧
      ¬ StaysInBounds Host.bare vm .indexRef [(.obj 5, .vector 1 0), (.obj 3, .fixnum 1)] rest := by
  obtain ⟨vm, h, hnext, hops⟩ := @reached_readsAt 1 (by decide +kernel)
  have hover : Overruns .indexRef [.vector 1 0, .fixnum 1] := ⟨1, 1, rfl, rfl, by decide, .inr rfl⟩
  obtain ⟨hnone, hproceeds⟩ := (follows_indexRef hops.fetched).proceeds hover
  exact ⟨vm, _, h, hnext, hops, hnone,
    hproceeds.not_throwsOnly h.sound (evalStepWith_run hnext fun _ => rfl)⟩

/-- **Indexed instructions stay in bounds, or throw, exactly where nothing out of bounds passes their tests.** -/
theorem indexed_stays_in_bounds {host : Host} {vm : VmInternal} {o : Op} {ops : List (Ref × Obj)}
    {rest : Ref} (h : Reachable host vm) (hnext : vm.nextOp = some o) (ho : indexed o = some ops.length)
    (hops : vm.Operands vm.stackRoot ops rest) :
    StaysInBounds host vm o ops rest ↔ ¬ Overruns o (ops.map Prod.snd) := by
  obtain ⟨m, hm, hfollows⟩ := follows host ho hops.fetched
  have hround := evalStepWith_run hnext hm
  unfold StaysInBounds
  cases haccess : access host o ops with
  | some act =>
    refine iff_of_true ((hround handleException).trans (hfollows.accesses haccess)) fun hover => ?_
    cases haccess.symm.trans (hfollows.proceeds hover).1
  | none =>
    refine ⟨fun hthrows hover => ?_, fun hover => (hfollows.refuses haccess hover).throwsOnly hround⟩
    exact (hfollows.proceeds hover).2.not_throwsOnly h.sound hround hthrows

/-- The slot of a vector of one slot is read, and an index that is too large throws. -/
theorem indexed_stays_in_bounds_vector :
    (∃ vm rest, Reachable Host.bare vm ∧
      vm.Operands vm.stackRoot [(.obj 5, .vector 1 0), (.obj 3, .fixnum 0)] rest ∧
        evalStep Host.bare vm = pushSlot 0 0 (vm.fetched.taken rest 2)) ∧
    ∃ vm rest, Reachable Host.bare vm ∧
      vm.Operands vm.stackRoot [(.obj 5, .vector 1 0), (.obj 3, .fixnum 7)] rest ∧
        ThrowsOnly Host.bare vm rest 2 := by
  have hover : ∀ index : Int64, (index < 1 ∧ ¬ index < 0) ∨ ¬ index ≤ 1 →
      ¬ Overruns .indexRef [.vector 1 0, .fixnum index] := by
    rintro index hindex ⟨length, index', ⟨⟩, ⟨⟩, hle, hout⟩
    rcases hindex with ⟨hlt, hnonneg⟩ | hgt
    · rcases hout with hneg | rfl
      · exact hnonneg hneg
      · exact absurd hlt (by decide)
    · exact hgt hle
  constructor
  · obtain ⟨vm, h, hnext, hops⟩ := @reached_readsAt 0 (by decide +kernel)
    exact ⟨vm, _, h, hops, (indexed_stays_in_bounds h hnext rfl hops).mpr (hover 0 (.inl (by decide)))⟩
  · obtain ⟨vm, h, hnext, hops⟩ := @reached_readsAt 7 (by decide +kernel)
    exact ⟨vm, _, h, hops, (indexed_stays_in_bounds h hnext rfl hops).mpr (hover 7 (.inr (by decide)))⟩

end Insomniac.Vm

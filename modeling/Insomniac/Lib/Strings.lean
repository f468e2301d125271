import Insomniac.Lib.Vectors
import Insomniac.Vm.Runs

/-!
# Lib/Strings — byte vectors and strings

`lib/strings.scm`, over the byte vectors of `Lib/Vectors`.

    byte vector ──u8->string──▸ string ──string->u8──▸ byte vector on the bytes of the string

`u8->string` copies the bytes as a C string, so it copies up to the first `NUL` and no further.
-/

open Bytes Run Insomniac.Asm

namespace Insomniac.Lib

open Insomniac.Vm

/-! ## The procedures

As the library has them.  The conversions are one instruction each, `substring` copies byte by byte. -/

section Procedures

variable (throw : Throw)

/-- `string->u8`. -/
def stringToU8 (str : Ref) : VmM Ref := asm [str] (opStringByteVector throw)

/-- `u8->string`. -/
def u8ToString (u8 : Ref) : VmM Ref := asm [u8] (opByteVectorString throw)

/-- `substring`. -/
def substring (str : Ref) (start «end» : Int64) : VmM Ref := do
  u8ToString throw (← bytevectorCopy throw (← stringToU8 throw str) [start, «end»])

end Procedures

/-! ## Bytes in memory

A byte vector and a string are a length and an array; the array may be longer, and it may be shared. -/

/-- A byte vector of the first bytes of array `a`. -/
structure IsU8 (vm : VmInternal) (r : Ref) (a : ℕ) (bs : List UInt8) : Prop where
  obj : vm.deref r = some (.byteVector (Int64.ofNat bs.length) a)
  length : bs.length < 2 ^ 63
  bytes : ∃ rest, vm.bytes[a]? = some (bs ++ rest)

/-- A string of the first bytes of array `a`. -/
structure IsString (vm : VmInternal) (r : Ref) (a : ℕ) (bs : List UInt8) : Prop where
  obj : vm.deref r = some (.string (Int64.ofNat bs.length) a)
  length : bs.length < 2 ^ 63
  bytes : ∃ rest, vm.bytes[a]? = some (bs ++ rest)

section Runs

variable (throw : Throw) {vm vm' base : VmInternal} {r : Ref} {a t : ℕ} {bs : List UInt8}

theorem IsU8.grown (h : IsU8 vm r a bs) (hgrown : Grown vm vm') : IsU8 vm' r a bs where
  obj := hgrown.deref h.obj
  length := h.length
  bytes := h.bytes.imp fun _ hbytes => getElem?_of_isPrefix hgrown.bytes hbytes

/-- The string at some bytes, cut where they end. -/
theorem take_cstr_append (rest : List UInt8) : ∀ bs : List UInt8, (cstr (bs ++ rest)).take bs.length = cstr bs
  | [] => rfl
  | b :: bs => by
      rcases eq_or_ne b 0 with rfl | hb
      · simp
      · rw [List.cons_append, cstr_cons hb, cstr_cons hb, List.length_cons, List.take_succ_cons,
          take_cstr_append rest bs]

/-- What a C string copy makes of some bytes does not depend on what lies behind them. -/
theorem strncpy_append (bs rest : List UInt8) : strncpy (bs ++ rest) bs.length = strncpy bs bs.length := by
  have hself := take_cstr_append [] bs
  rw [List.append_nil] at hself
  rw [strncpy, strncpy, take_cstr_append rest bs, hself]

/-- **`string->u8`** makes a byte vector of the same bytes. -/
theorem stringToU8_run (h : IsString vm r a bs) : ∃ u vm', stringToU8 throw r vm = .ok (u, vm') ∧
    Grows vm vm' ∧ IsU8 vm' u a bs := by
  obtain ⟨u, vm', hrun, hgrows, hu, hbytes⟩ := asm_makes vm [r] (opStringByteVector throw)
    (.byteVector (Int64.ofNat bs.length) a) fun vm₁ hholding => by
      obtain ⟨vm₂, hpop, hrest⟩ := hholding.pop
      exact ⟨vm₂, hrest, (run_bind hpop).trans (run_bind (hrest.load h.obj))⟩
  exact ⟨u, vm', hrun, hgrows, hu, h.length, by rw [hbytes]; exact h.bytes⟩

/-- **`u8->string`** makes a string of a copy of the bytes. -/
theorem u8ToString_run (h : IsU8 vm r a bs) : ∃ s vm', u8ToString throw r vm = .ok (s, vm') ∧
    Grows vm vm' ∧ IsString vm' s vm.bytes.length (strncpy bs bs.length) := by
  obtain ⟨rest, hbytes⟩ := h.bytes
  have hint : (Int64.ofNat bs.length).toInt.toNat = bs.length := by
    rw [toInt_ofNat h.length, Int.toNat_natCast]
  obtain ⟨vm₂, s, hrun, hgrown, hroot, hs, hcopy⟩ := asm_run vm [r] (opByteVectorString throw)
    (fun vm₂ s => Grown vm vm₂ ∧ vm₂.stackRoot = vm.stackRoot ∧
      vm₂.deref s = some (.string (Int64.ofNat bs.length) vm.bytes.length) ∧
      vm₂.bytes = vm.bytes ++ [strncpy bs bs.length ++ [0]]) fun vm₁ hholding => by
      obtain ⟨vm₂, hpop, hrest⟩ := hholding.pop
      let vm₃ : VmInternal := { vm₂ with
        bytes := vm₂.bytes ++ [strncpy bs bs.length ++ [0]]
        objs := vm₂.objs ++ [.string (Int64.ofNat bs.length) vm₂.bytes.length] }
      have hbuf : ofOption (fun vm => vm.bytes[a]?) vm₂ = .ok (bs ++ rest, vm₂) :=
        ofOption_run (getElem?_of_isPrefix hrest.grown.bytes hbytes)
      have hmake : vmMakeString (bs ++ rest) (Int64.ofNat bs.length) vm₂ = .ok (.obj vm₂.objs.length, vm₃) := by
        rw [vmMakeString, if_neg (Int64.not_lt.mpr (ofNat_nonneg h.length)), hint, strncpy_append]
        exact (run_bind rfl).trans rfl
      have hgrown : Grown vm₂ vm₃ := (Grown.newBytes vm₂ _).trans (.alloc _ _)
      refine ⟨vm₃, .obj vm₂.objs.length, ?_, hrest.grown.trans hgrown, hrest.root, ?_, ?_⟩
      · exact (run_bind hpop).trans ((run_bind (hrest.load h.obj)).trans ((run_bind hbuf).trans ((run_bind hmake).trans rfl)))
      · rw [← hrest.bytes]
        exact List.getElem?_concat_length
      · rw [← hrest.bytes]
  have hlen : (strncpy bs bs.length).length = bs.length := strncpy_length bs bs.length
  refine ⟨s, taken vm₂ s, hrun, ⟨hgrown.trans (Grown.taken vm₂ s), hroot⟩, ?_, ?_, [0], ?_⟩
  · rw [hlen]
    exact (Grown.taken vm₂ s).deref hs
  · rw [hlen]
    exact h.length
  · have hget : (taken vm₂ s).bytes = vm₂.bytes := rfl
    rw [hget, hcopy]
    exact List.getElem?_concat_length

/-- A byte vector as one of its kind. -/
theorem IsU8.has (h : IsU8 vm r a bs) : ∃ rest, vm.bytes[a]? = some (bs ++ rest) ∧
    byteVectors.Has vm r a bs.length (bs ++ rest) := by
  obtain ⟨rest, hbytes⟩ := h.bytes
  exact ⟨rest, hbytes, by rw [h.obj]; rfl, h.length, by rw [List.length_append]; omega, hbytes⟩

/-- One of its kind as a byte vector. -/
theorem isU8_of_has {n : ℕ} {l : List UInt8} (h : byteVectors.Has vm r a n l) : IsU8 vm r a (l.take n) := by
  have hlength : (l.take n).length = n := List.length_take_of_le h.le
  refine ⟨?_, hlength.symm ▸ h.lt, l.drop n, ?_⟩
  · rw [hlength]
    exact h.byteVector
  · rw [List.take_append_drop]
    exact h.array

/-- All its elements are bytes. -/
theorem IsU8.isVector (h : IsU8 vm r a bs) : (byteAccess throw).IsVector vm r ∧ byteVectors.contents vm r = bs := by
  obtain ⟨rest, -, hhas⟩ := h.has
  refine ⟨⟨a, _, _, hhas, fun j hj => ⟨_, _, List.getElem?_eq_getElem (hj.trans_le hhas.le), rfl⟩⟩, ?_⟩
  rw [hhas.contents_eq, List.take_left]

/-- **`bytevector-copy`** copies the bytes of a range. -/
theorem bytevectorCopy_run (h : IsU8 vm r a bs) {start stop : ℕ} (hstart : start ≤ stop) (hstop : stop ≤ bs.length) :
    ∃ c vm' t, bytevectorCopy throw r [Int64.ofNat start, Int64.ofNat stop] vm = .ok (c, vm') ∧ Grows vm vm' ∧
      IsU8 vm' c t ((bs.drop start).take (stop - start)) := by
  obtain ⟨hvector, hcontents⟩ := h.isVector throw
  have hrange : Range [Int64.ofNat start, Int64.ofNat stop] (byteVectors.contents vm r).length start stop := ⟨rfl, rfl⟩
  have hcopies := coreVectorCopier_copies (bytevectorLength_measures throw) fun vm n hn => makeBytevector_makes throw vm hn
  obtain ⟨c, vm', hrun, hgrows, -, -, ⟨t, n, l, hhas, -⟩, hcopy⟩ :=
    hcopies.new hvector hrange hstart (hcontents ▸ hstop)
  rw [hcontents, hhas.contents_eq] at hcopy
  exact ⟨c, vm', t, hrun, hgrows, hcopy ▸ isU8_of_has hhas⟩

/-- **`substring`** on a string whose bytes end at their first `NUL`, if they have one. -/
theorem substring_run (h : IsString vm r a bs) {start stop : ℕ} (hstart : start ≤ stop) (hstop : stop ≤ bs.length) :
    ∃ s vm' t, substring throw r (Int64.ofNat start) (Int64.ofNat stop) vm = .ok (s, vm') ∧ Grows vm vm' ∧
      IsString vm' s t (strncpy ((bs.drop start).take (stop - start)) (stop - start)) := by
  obtain ⟨u, vm₁, hu8, hgrows₁, hu⟩ := stringToU8_run throw h
  obtain ⟨c, vm₂, t, hcopy, hgrows₂, hc⟩ := bytevectorCopy_run throw hu hstart hstop
  obtain ⟨s, vm₃, hmake, hgrows₃, hs⟩ := u8ToString_run throw hc
  have hlen : ((bs.drop start).take (stop - start)).length = stop - start := by
    rw [List.length_take, List.length_drop]
    omega
  rw [hlen] at hs
  exact ⟨s, vm₃, _, (run_bind hu8).trans ((run_bind hcopy).trans hmake), (hgrows₁.trans hgrows₂).trans hgrows₃, hs⟩

end Runs

/-! ## Conversions without loss

`strncpy` keeps what is in front of the first `NUL` and fills the rest with `NUL`s, so it keeps everything where
nothing else stands behind the first `NUL`. -/

/-- The object is a byte vector of some bytes. -/
def HasU8 (vm : VmInternal) (r : Ref) (bs : List UInt8) : Prop := ∃ a, IsU8 vm r a bs

/-- The object is a string of some bytes. -/
def HasString (vm : VmInternal) (r : Ref) (bs : List UInt8) : Prop := ∃ a, IsString vm r a bs

/-- A `bytevector-u8-set!` of an element that the byte vector has. -/
structure Write (bs : List UInt8) where
  index : Fin bs.length
  value : Int64

/-- **A byte vector converts without loss**: `string->u8` gives the bytes back, writes to the byte
vector do not reach the string, and `substring` cuts out the bytes of a range. -/
structure Lossless (throw : Throw) (vm : VmInternal) (v : Ref) (bs : List UInt8) : Prop where
  back : ∃ u vm', (do stringToU8 throw (← u8ToString throw v)) vm = .ok (u, vm') ∧ HasU8 vm' u bs
  fixed : ∀ writes : List (Write bs), ∃ s vm₁ vm₂, u8ToString throw v vm = .ok (s, vm₁) ∧
    writes.forM (fun w => bytevectorU8Set throw v (Int64.ofNat w.index) w.value) vm₁ = .ok ((), vm₂) ∧
      ∀ bs', HasString vm₂ s bs' ↔ HasString vm₁ s bs'
  slice : ∀ start stop, start ≤ stop → stop ≤ bs.length → ∃ s vm',
    (do substring throw (← u8ToString throw v) (Int64.ofNat start) (Int64.ofNat stop)) vm = .ok (s, vm') ∧
      HasString vm' s ((bs.drop start).take (stop - start))

/-- Behind a `NUL` there is nothing but `NUL`s. -/
def NothingBehindNul (bs : List UInt8) : Prop :=
  ∀ (i j : ℕ) (b : UInt8), i ≤ j → bs[i]? = some 0 → bs[j]? = some b → b = 0

/-- A byte that is no `NUL` is copied. -/
theorem strncpy_cons {b : UInt8} (hb : b ≠ 0) (bs : List UInt8) :
    strncpy (b :: bs) (b :: bs).length = b :: strncpy bs bs.length := by
  rw [strncpy, strncpy, cstr_cons hb]
  simp

/-- **A C string copy is all of some bytes** when there is nothing behind their first `NUL`. -/
theorem strncpy_eq_self_iff : ∀ bs : List UInt8, strncpy bs bs.length = bs ↔ NothingBehindNul bs
  | [] => by simp [NothingBehindNul, strncpy]
  | b :: bs => by
      rcases eq_or_ne b 0 with rfl | hb
      · have hzeros : strncpy (0 :: bs) (0 :: bs).length = List.replicate (0 :: bs).length 0 := by simp [strncpy]
        rw [hzeros]
        constructor
        · intro h i j c _ _ hc
          rw [← h] at hc
          exact List.eq_of_mem_replicate (List.mem_of_getElem? hc)
        · intro h
          refine (List.eq_replicate_of_mem fun c hc => ?_).symm
          obtain ⟨j, hj⟩ := List.getElem?_of_mem hc
          exact h 0 j c (Nat.zero_le j) rfl hj
      · rw [strncpy_cons hb, List.cons.injEq, strncpy_eq_self_iff bs]
        constructor
        · rintro ⟨-, h⟩ (_ | i) (_ | j) c hij hi hj
          · exact absurd (Option.some.inj hi) hb
          · exact absurd (Option.some.inj hi) hb
          · cases hij
          · exact h i j c (Nat.le_of_succ_le_succ hij) hi hj
        · exact fun h => ⟨rfl, fun i j c hij hi hj => h (i + 1) (j + 1) c (Nat.succ_le_succ hij) hi hj⟩

/-- A cut of bytes with nothing behind their first `NUL`. -/
theorem NothingBehindNul.slice {bs : List UInt8} (h : NothingBehindNul bs) (start count : ℕ) :
    NothingBehindNul ((bs.drop start).take count) := by
  have hget : ∀ {i : ℕ} {c : UInt8}, ((bs.drop start).take count)[i]? = some c → bs[start + i]? = some c := by
    intro i c hi
    have hlt := (List.getElem?_eq_some_iff.mp hi).1
    rw [List.length_take] at hlt
    rwa [List.getElem?_take_of_lt (by omega), List.getElem?_drop] at hi
  exact fun i j c hij hi hj => h (start + i) (start + j) c (by omega) (hget hi) (hget hj)

/-- Writes to the byte vector do not reach a string in another array. -/
theorem writes_run (throw : Throw) {v : Ref} {a t : ℕ} {bs : List UInt8} (hne : t ≠ a) :
    ∀ (writes : List (Write bs)) {vm : VmInternal} {now : List UInt8}, IsU8 vm v a now → now.length = bs.length →
      ∃ vm', writes.forM (fun w => bytevectorU8Set throw v (Int64.ofNat w.index) w.value) vm = .ok ((), vm') ∧
        vm.objs <+: vm'.objs ∧ ∀ bytes, vm.bytes[t]? = some bytes → vm'.bytes[t]? = some bytes
  | [], vm, _, _, _ => ⟨vm, rfl, List.prefix_rfl, fun _ h => h⟩
  | w :: writes, vm, now, h, hlen => by
      obtain ⟨rest, hbytes, hhas⟩ := h.has
      have hindex : w.index < now.length := hlen.symm ▸ w.index.isLt
      obtain ⟨vm₁, hset, hgrows⟩ := bytevectorU8Set_run throw w.value hhas hindex
      rw [List.set_append_left _ _ hindex] at hgrows
      have hlt : a < vm.bytes.length := hhas.array_lt
      have h₁ : IsU8 vm₁ v a (now.set w.index w.value.toUInt64.toUInt8) := by
        refine IsU8.grown ⟨?_, ?_, rest, List.getElem?_set_self hlt⟩ hgrows.toGrown
        · rw [List.length_set]
          exact h.obj
        · rw [List.length_set]
          exact h.length
      obtain ⟨vm', hrest, hobjs, hkeep⟩ := writes_run throw hne writes h₁ (List.length_set.trans hlen)
      refine ⟨vm', (run_bind hset).trans hrest, hgrows.objs.trans hobjs, fun bytes ht => hkeep bytes ?_⟩
      refine getElem?_of_isPrefix hgrows.bytes ?_
      change (vm.bytes.set a _)[t]? = _
      rw [List.getElem?_set_ne hne.symm]
      exact ht

/-- The bytes of a byte vector are its only ones. -/
theorem IsU8.unique {vm : VmInternal} {r : Ref} {a : ℕ} {bs bs' : List UInt8} (h : IsU8 vm r a bs)
    (h' : HasU8 vm r bs') (hlen : bs'.length = bs.length) : bs' = bs := by
  obtain ⟨a', h'⟩ := h'
  obtain ⟨rest, hbytes⟩ := h.bytes
  obtain ⟨rest', hbytes'⟩ := h'.bytes
  have hobj := h.obj.symm.trans h'.obj
  rw [hlen, Option.some.injEq, Obj.byteVector.injEq] at hobj
  rw [hobj.2, hbytes'] at hbytes
  exact (List.append_inj (Option.some.inj hbytes) hlen).1

/-- A string is the same in a memory that has its object and its bytes. -/
theorem hasString_congr {vm vm' : VmInternal} {r : Ref} {a : ℕ} {cs : List UInt8} (h : IsString vm r a cs)
    (hobjs : vm.objs <+: vm'.objs) (hbytes : ∀ bytes, vm.bytes[a]? = some bytes → vm'.bytes[a]? = some bytes)
    (bs : List UInt8) : HasString vm' r bs ↔ HasString vm r bs := by
  have hderef : vm'.deref r = vm.deref r := by
    cases r with
    | obj n => exact (getElem?_of_isPrefix hobjs h.obj).trans h.obj.symm
    | cell n =>
      obtain ⟨_, -, hpair⟩ := Option.map_eq_some_iff.mp h.obj
      cases hpair
  obtain ⟨rest, harray⟩ := h.bytes
  have hsame : vm'.bytes[a]? = vm.bytes[a]? := (hbytes _ harray).trans harray.symm
  constructor
  · rintro ⟨b, hb⟩
    have hobj := (hderef.trans h.obj).symm.trans hb.obj
    obtain ⟨-, rfl⟩ := Obj.string.inj (Option.some.inj hobj)
    exact ⟨a, hderef.symm.trans hb.obj, hb.length, hsame ▸ hb.bytes⟩
  · rintro ⟨b, hb⟩
    obtain ⟨-, rfl⟩ := Obj.string.inj (Option.some.inj (h.obj.symm.trans hb.obj))
    exact ⟨a, hderef.trans hb.obj, hb.length, hsame.symm ▸ hb.bytes⟩

/-- What came back is what the copy kept. -/
theorem Lossless.copied {throw : Throw} {vm : VmInternal} {v : Ref} {bs : List UInt8} (h : Lossless throw vm v bs)
    (hv : HasU8 vm v bs) : strncpy bs bs.length = bs := by
  obtain ⟨a, hv⟩ := hv
  obtain ⟨s, vm₁, hmake, -, hs⟩ := u8ToString_run throw hv
  obtain ⟨u, vm₂, hu8, -, hu⟩ := stringToU8_run throw hs
  obtain ⟨u', vm', hrun, hu'⟩ := h.back
  cases ((run_bind hmake).trans hu8).symm.trans hrun
  exact (hu.unique hu' (strncpy_length bs bs.length).symm).symm

/-- **A byte vector converts without loss** exactly when there is nothing behind its first `NUL`. -/
theorem u8_string_lossless_iff {throw : Throw} {vm : VmInternal} {v : Ref} {bs : List UInt8} (hv : HasU8 vm v bs) :
    Lossless throw vm v bs ↔ NothingBehindNul bs := by
  refine ⟨fun h => (strncpy_eq_self_iff bs).mp (h.copied hv), fun hnothing => ?_⟩
  obtain ⟨a, hv⟩ := hv
  obtain ⟨s, vm₁, hmake, hgrows₁, hs⟩ := u8ToString_run throw hv
  obtain ⟨u, vm₂, hu8, hgrows₂, hu⟩ := stringToU8_run throw hs
  have hself := (strncpy_eq_self_iff bs).mpr hnothing
  rw [hself] at hs hu
  refine ⟨⟨u, vm₂, (run_bind hmake).trans hu8, _, hu⟩, fun writes => ?_, fun start stop hstart hstop => ?_⟩
  · obtain ⟨rest, hbytes⟩ := hv.bytes
    have hne : vm.bytes.length ≠ a := ((List.getElem?_eq_some_iff.mp hbytes).1).ne'
    obtain ⟨vm₃, hwrites, hobjs, hkeep⟩ := writes_run throw hne writes (hv.grown hgrows₁.toGrown) rfl
    exact ⟨s, vm₁, vm₃, hmake, hwrites, hasString_congr hs hobjs hkeep⟩
  · obtain ⟨r, vm₃, t, hrun, -, hr⟩ := substring_run throw hs hstart hstop
    have hlen : ((bs.drop start).take (stop - start)).length = stop - start := by
      rw [List.length_take, List.length_drop]
      omega
    have hslice := (strncpy_eq_self_iff _).mpr (hnothing.slice start (stop - start))
    rw [hlen] at hslice
    rw [hslice] at hr
    exact ⟨r, vm₃, (run_bind hmake).trans hrun, t, hr⟩

/-- A program that makes a string, takes its byte vector and writes a `NUL` over one byte of it. -/
def nulProgram (str : String) (index : Int64) : List (Token ℕ) :=
  [.string str, .op .stringByteVector Op.noOperand, .op .dupRef Op.noOperand, .fixnum index, .op .swap Op.noOperand,
    .fixnum 0, .op .swap Op.noOperand, .op .indexSet Op.noOperand]

/-- The program comes to a state with its byte vector in memory. -/
theorem reaches_u8 {str : String} {index : Int64} {bs : List UInt8} (hlen : bs.length < 2 ^ 63)
    (h : passes (vmLoop Host.bare 8) (startBytes ((asmString (nulProgram str index)).getD []) vmCreate) (fun vm =>
      vm.objs[4]? = some (.byteVector (Int64.ofNat bs.length) 0) && vm.bytes[0]? = some (bs ++ [0])) = true) :
    ∃ vm, Reachable Host.bare vm ∧ HasU8 vm (.obj 4) bs := by
  obtain ⟨⟨⟩, vm, hrun, hvm⟩ := exists_of_passes h
  obtain ⟨hobj, hbytes⟩ := Bool.and_eq_true_iff.mp hvm
  exact ⟨vm, (later_startBytes _ rfl).trans (later_vmLoop hrun), 0, of_decide_eq_true hobj, hlen, [0],
    of_decide_eq_true hbytes⟩

/-- `"abc"` after its last byte has been overwritten: `"ab"` and a `NUL` come back, as does every substring. -/
theorem u8_string_lossless_padded : ∃ vm, Reachable Host.bare vm ∧ HasU8 vm (.obj 4) [97, 98, 0] ∧
    Lossless raise vm (.obj 4) [97, 98, 0] := by
  obtain ⟨vm, hreach, hv⟩ := @reaches_u8 "abc" 2 [97, 98, 0] (by decide) (by decide +kernel)
  refine ⟨vm, hreach, hv, (u8_string_lossless_iff hv).mpr fun i j b hij hi hj => ?_⟩
  rcases i with _ | _ | _ | i
  · cases hi
  · cases hi
  · rcases j with _ | _ | _ | j
    · cases hij
    · omega
    · exact (Option.some.inj hj).symm
    · cases hj
  · cases hi

/-- **A byte behind a `NUL` is lost**: of `"AA"` whose first byte has been overwritten. -/
theorem u8_string_loses : ∃ vm, Reachable Host.bare vm ∧ HasU8 vm (.obj 4) [0, 65] ∧
    ¬ Lossless raise vm (.obj 4) [0, 65] := by
  obtain ⟨vm, hreach, hv⟩ := @reaches_u8 "AA" 0 [0, 65] (by decide) (by decide +kernel)
  exact ⟨vm, hreach, hv, fun h => absurd (h.copied hv) (by decide)⟩

end Insomniac.Lib

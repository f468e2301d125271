import Insomniac.Vm.Changes

/-!
# Vm/Built — what each instruction is made of

`Built A m Q`: from any state in order, `m` only makes changes, and its result satisfies `Q`.  The
rules follow the constructs of the programs, so that a proof about an instruction is as long as the
instruction.
-/

open Bytes Insomniac.Asm Run

namespace Insomniac.Vm

/-- The stops that changes cannot rule out: all but a null on the stack, unless null is allowed.  No
instruction that throws with `handle_exception` stops before it. -/
def Allow.Stops (A : Allow) : Stop → Prop
  | .fatal msg => A.null ∨ msg ≠ text "Null found in pop."
  | .raised _ _ _ => False
  | _ => True

section Rules

variable {A : Allow} {α β : Type} {m : VmM α} {f : α → VmM β} {Q : α → Prop} {R : β → Prop}
  {vm vm' base : VmInternal}

/-- `m`, started in `vm`, ends in a state that changes lead to from `base`. -/
def Does (A : Allow) (base : VmInternal) (m : VmM α) (vm : VmInternal) (Q : α → Prop) : Prop :=
  Ends A.Stops m vm fun a vm' => Changes A base vm' ∧ Q a

/-- **`m` is built of changes.** -/
def Built (A : Allow) (m : VmM α) (Q : α → Prop) : Prop :=
  ∀ vm, Sound A.null vm → Does A vm m vm Q

/-- A rule may be used in the middle of a run. -/
theorem Built.does (h : Built A m Q) (hbase : Sound A.null base) (hvm : Changes A base vm) :
    Does A base m vm Q :=
  Ends.mono (h vm (hvm.sound hbase)) fun _ _ h => ⟨hvm.trans h.1, h.2⟩

/-- A part that runs to its end. -/
theorem Does.step {a : α} (hm : m vm = .ok (a, vm')) (hf : Does A base (f a) vm' R) :
    Does A base (m >>= f) vm R :=
  ends_bind.mpr (ends_of_eq hm hf)

/-- The last part runs to its end. -/
theorem Does.last {a : α} (hm : m vm = .ok (a, vm')) (hchanges : Changes A base vm') (ha : Q a) :
    Does A base m vm Q :=
  ends_of_eq hm ⟨hchanges, ha⟩

/-- What stops must be allowed to stop so. -/
theorem Does.stop {e : Stop} (hm : m vm = .error e) (h : A.Stops e) : Does A base m vm Q :=
  .inr ⟨e, hm, h⟩

/-- A sequence, from a state. -/
theorem Does.bind (hm : Does A base m vm Q)
    (hf : ∀ a vm', Changes A base vm' → Q a → Does A base (f a) vm' R) :
    Does A base (m >>= f) vm R :=
  Ends.bind hm fun a vm' h => hf a vm' h.1 h.2

/-- A part that stops. -/
theorem Does.stop_bind {e : Stop} (hm : m vm = .error e) (h : A.Stops e) :
    Does A base (m >>= f) vm R := by
  refine .stop ?_ h
  change m vm >>= _ = _
  rw [hm]
  rfl

/-- **A sequence.** -/
theorem Built.bind (hm : Built A m Q) (hf : ∀ a, Q a → Built A (f a) R) : Built A (m >>= f) R :=
  fun vm hs => Ends.bind (hm vm hs) fun a _ h => (hf a h.2).does hs h.1

/-- `m` is built of changes, with no result. -/
abbrev Keeps (A : Allow) (m : VmM Unit) : Prop := Built A m fun _ => True

/-- Nothing changes. -/
theorem Built.pure {a : α} (h : Q a) : Built A (pure a) Q :=
  fun _ _ => ends_pure ⟨.refl, h⟩

/-- One change. -/
theorem Built.one {g : VmInternal → α × VmInternal} (hm : ∀ vm, m vm = .ok (g vm))
    (h : ∀ vm, Sound A.null vm → Change A vm (g vm).2 ∧ Q (g vm).1) : Built A m Q :=
  fun vm hs => ends_of_eq (hm vm) ⟨.single (h vm hs).1, (h vm hs).2⟩

/-- Looking at the state. -/
theorem Built.get_bind {f : VmInternal → VmM β}
    (h : ∀ vm, Sound A.null vm → Does A vm (f vm) vm R) : Built A (get >>= f) R :=
  fun vm hs => .step rfl (h vm hs)

/-- A look at the state changes nothing, and stops with `.undefined` where there is nothing to see. -/
theorem Built.ofOption {f : VmInternal → Option α}
    (h : ∀ vm a, Sound A.null vm → f vm = some a → Q a) : Built A (ofOption f) Q := by
  intro vm hs
  cases hf : f vm with
  | some a => exact .last (by rw [Vm.ofOption, hf]) .refl (h vm a hs hf)
  | none => exact .stop (e := .undefined) (by rw [Vm.ofOption, hf]) trivial

/-- Undefined behaviour makes no changes. -/
theorem Built.undefined : Built A (undefined : VmM α) Q :=
  fun _ _ => .stop rfl trivial

/-- Nor does the end of the process. -/
theorem Built.exited : Built A (throwThe Stop .exited) Q :=
  fun _ _ => .stop rfl trivial

/-- Looking a value up, with the state it is in. -/
theorem Does.ofOption_bind {f : VmInternal → Option α} {g : α → VmM β}
    (h : ∀ a, f vm = some a → Does A base (g a) vm R) : Does A base (Vm.ofOption f >>= g) vm R := by
  cases hf : f vm with
  | some a => exact .step (by rw [Vm.ofOption, hf]) (h a hf)
  | none => exact .stop_bind (e := .undefined) (by rw [Vm.ofOption, hf]) trivial

@[inherit_doc Does.ofOption_bind] theorem Built.ofOption_bind {f : VmInternal → Option α}
    {g : α → VmM β} (h : ∀ vm a, Sound A.null vm → f vm = some a → Does A vm (g a) vm R) :
    Built A (Vm.ofOption f >>= g) R :=
  fun vm hs => .ofOption_bind fun a ha => h vm a hs ha

end Rules

/-! ## The parts of instructions

What all instructions are put together from: taking and pushing operands, looking at objects, and making new
ones. -/

section Parts

variable {A : Allow} {host : Host} {r obj : Ref} {R : Unit → Prop}

/-- The top of the stack is a given object. -/
def VmInternal.Top (vm : VmInternal) (obj cdr : Ref) : Prop :=
  vm.deref vm.stackRoot = some (.pair (some obj) (some cdr))

/-- What was pushed is on top. -/
theorem top_push (vm : VmInternal) (r : Ref) : (vm.push (some r)).Top r vm.stackRoot := by
  simp [VmInternal.Top, VmInternal.push, VmInternal.deref]

/-- `vm_pop` takes the object on top. -/
theorem vmPop_run {vm : VmInternal} {obj cdr : Ref} (h : vm.Top obj cdr) :
    vmPop vm = .ok (obj, vm.pop cdr) := by
  have h' : vm.deref vm.stackRoot = some (.pair (some obj) (some cdr)) := h
  simp only [vmPop, h']

/-- **`vm_pop`** stops, or takes an object of programs off the stack. -/
theorem pop_cases {vm : VmInternal} (hs : Sound A.null vm) :
    (∃ e, vmPop vm = .error e ∧ A.Stops e) ∨
      ∃ obj cdr, vmPop vm = .ok (obj, vm.pop cdr) ∧
        vm.deref vm.stackRoot = some (.pair (some obj) (some cdr)) ∧ obj.IsObj := by
  rcases hs.root with hroot | ⟨n, c, hroot, hc⟩
  · refine .inl ⟨.fatal "Stack Under Run!", ?_, .inr (by decide)⟩
    simp only [vmPop, hroot, hs.deref_empty]
  · have hderef : vm.deref vm.stackRoot = some (.pair c.car (some c.cdr)) := by
      rw [hroot, VmInternal.deref, hc, Option.map_some]
    have hcar := hs.cars c (List.mem_of_getElem? hc)
    cases hobj : c.car with
    | none =>
      rw [hobj] at hcar hderef
      exact .inl ⟨.fatal "Null found in pop.", by simp only [vmPop, hderef], .inl hcar⟩
    | some obj =>
      rw [hobj] at hcar hderef
      exact .inr ⟨obj, c.cdr, by simp only [vmPop, hderef], hderef, hcar⟩

/-- What is popped is an object. -/
theorem built_pop : Built A vmPop Ref.IsObj := by
  intro vm hs
  rcases pop_cases hs with ⟨e, he, hstop⟩ | ⟨obj, cdr, hpop, hderef, hobj⟩
  · exact .stop he hstop
  · exact .last hpop (.single (.pop hderef)) hobj

/-- `vm_pop` changes nothing but the stack. -/
theorem Does.pop_bind {α : Type} {base vm : VmInternal} {f : Ref → VmM α} {Q : α → Prop}
    (hbase : Sound A.null base) (h : Changes A base vm)
    (hf : ∀ obj cdr, obj.IsObj → vm.deref vm.stackRoot = some (.pair (some obj) (some cdr)) →
      Changes A base (vm.pop cdr) → Does A base (f obj) (vm.pop cdr) Q) :
    Does A base (vmPop >>= f) vm Q := by
  rcases pop_cases (h.sound hbase) with ⟨e, he, hstop⟩ | ⟨obj, cdr, hpop, hderef, hobj⟩
  · exact .stop_bind he hstop
  · exact .step hpop (hf obj cdr hobj hderef (h.tail (.pop hderef)))

theorem Ref.IsObj.exists_obj (h : r.IsObj) : ∃ n, r = .obj n := by
  cases r with
  | obj n => exact ⟨n, rfl⟩
  | cell n => exact h.elim

theorem isObj_obj (n : ℕ) : (Ref.obj n).IsObj := trivial

/-- What is not null may be pushed if it is an object. -/
theorem isSlot_some {null : Prop} : IsSlot null (some r) ↔ r.IsObj := Iff.rfl

/-- `vm_push`, of what may stand in a slot. -/
theorem built_push {p : Ptr} (h : IsSlot A.null p) : Built A (vmPush p) fun _ => True :=
  .one (fun _ => rfl) fun _ _ => ⟨.push h, trivial⟩

theorem built_pushRef (h : r.IsObj) : Built A (vmPush (some r)) fun _ => True :=
  built_push h

/-- The fields of an object that the machine has are objects. -/
theorem Sound.fields_of_deref {null : Prop} {vm : VmInternal} (hs : Sound null vm) (hr : r.IsObj)
    {o : Obj} (ho : vm.deref r = some o) : o.Fields := by
  cases r with
  | obj n => exact hs.fields o (List.mem_of_getElem? ho)
  | cell n => exact hr.elim

/-- The fields of what is loaded are objects. -/
theorem built_load (hr : r.IsObj) : Built A (load r) Obj.Fields :=
  .ofOption fun _ _ hs ho => hs.fields_of_deref hr ho

/-- An object that refers to nothing but objects may be made. -/
theorem built_alloc {o : Obj} (ho : o.Plain) : Built A (alloc o) Ref.IsObj :=
  .one (fun _ => rfl) fun _ _ => ⟨.alloc ho, trivial⟩

/-- A block of bytes may be made. -/
theorem built_newBytes (bs : List UInt8) : Built A (newBytes bs) fun _ => True :=
  .one (fun _ => rfl) fun vm _ => ⟨.newBytes vm bs, trivial⟩

/-- A pair of objects may be made. -/
theorem built_cons {car cdr : Ref} (hcar : car.IsObj) (hcdr : cdr.IsObj) :
    Built A (cons car cdr) Ref.IsObj :=
  built_alloc ⟨hcar, hcdr⟩

/-! ### Blocks

A block is made together with the object that owns it, so that an object never says more bytes or slots than
there are. -/

/-- A length that is not negative is the same without its sign. -/
theorem toNat_toUInt64 {length : Int64} (h : 0 ≤ length) : length.toUInt64.toNat = length.toInt.toNat :=
  Int64.toNat_toUInt64_of_le h

/-- A small count is a length. -/
theorem toInt_ofNat {k : ℕ} (h : k < 2 ^ 63) : (Int64.ofNat k).toInt = k := Int64.toInt_ofNat_of_lt h

theorem ofNat_nonneg {k : ℕ} (h : k < 2 ^ 63) : 0 ≤ Int64.ofNat k := by
  rw [Int64.le_iff_toInt_le, toInt_ofNat h]
  exact Int.natCast_nonneg k

/-- An object with bytes is made. -/
theorem built_allocBytes (bs : List UInt8) {make : ℕ → Obj} (hmake : ∀ k, (make k).Sized)
    (howns : A.sized → ∀ vm : VmInternal,
      ({ vm with bytes := vm.bytes ++ [bs] } : VmInternal).Owns (make vm.bytes.length)) :
    Built A (newBytes bs >>= fun k => alloc (make k)) Ref.IsObj :=
  .one (fun _ => rfl) fun vm _ => ⟨.allocBytes bs (hmake _) fun h => howns h vm, trivial⟩

@[inherit_doc built_allocBytes] theorem built_allocBytes_bind {α : Type} (bs : List UInt8) {make : ℕ → Obj}
    {f : Ref → VmM α} {Q : α → Prop} (hmake : ∀ k, (make k).Sized)
    (howns : A.sized → ∀ vm : VmInternal,
      ({ vm with bytes := vm.bytes ++ [bs] } : VmInternal).Owns (make vm.bytes.length))
    (hf : ∀ obj, obj.IsObj → Built A (f obj) Q) : Built A (newBytes bs >>= fun k => alloc (make k) >>= f) Q := by
  rw [← bind_assoc]
  exact (built_allocBytes bs hmake howns).bind hf

/-- A string owns its bytes and the NUL behind them. -/
theorem owns_string (vm : VmInternal) {length : Int64} (h : 0 ≤ length) {bs : List UInt8}
    (hbs : bs[length.toInt.toNat]? = some 0) :
    ({ vm with bytes := vm.bytes ++ [bs] } : VmInternal).Owns (.string length vm.bytes.length) :=
  ⟨h, bs, List.getElem?_concat_length, hbs⟩

/-- A byte vector owns as many bytes as it has. -/
theorem owns_byteVector (vm : VmInternal) {length : Int64} (h : 0 ≤ length) {bs : List UInt8}
    (hbs : length.toInt ≤ bs.length) :
    ({ vm with bytes := vm.bytes ++ [bs] } : VmInternal).Owns (.byteVector length vm.bytes.length) :=
  ⟨h, bs, List.getElem?_concat_length, hbs⟩

/-- `vm_make_string` ends what it copies with NUL. -/
theorem built_vmMakeString (buf : List UInt8) (length : Int64) :
    Built A (vmMakeString buf length) Ref.IsObj := by
  unfold vmMakeString
  split
  · exact .undefined
  · next hlength =>
    have hnonneg : 0 ≤ length := by
      rw [Int64.lt_iff_toInt_lt] at hlength
      exact Int64.le_iff_toInt_le.mpr (Int.not_lt.mp hlength)
    refine built_allocBytes _ (fun _ => trivial) fun _ vm => owns_string vm hnonneg ?_
    have hcopy : (strncpy buf length.toInt.toNat).length = length.toInt.toNat := strncpy_length _ _
    rw [List.getElem?_append_right hcopy.le, hcopy, Nat.sub_self]
    rfl

/-- The same from a C string. -/
theorem built_vmMakeCString (s : List UInt8) : Built A (vmMakeCString s) Ref.IsObj :=
  built_vmMakeString _ _

/-- There is as much room as was asked for when the size of the block does not wrap. -/
theorem built_roomFor (size : ℕ) :
    Built A (roomFor size) fun room => room < 2 ^ 63 ∧ (size + 32 < 2 ^ 64 → room = size) := by
  unfold roomFor
  split
  · next h => exact .pure ⟨h, fun _ => rfl⟩
  · split
    · exact .pure ⟨by decide, fun h => by omega⟩
    · exact .undefined

/-- `vm_make_byte_vector` is allowed for any length, except where lengths are kept. -/
theorem built_vmMakeByteVector {length : Int64} (h : A.sized → 0 ≤ length) :
    Built A (vmMakeByteVector length) Ref.IsObj := by
  refine (built_roomFor _).bind fun room hroom => built_allocBytes _ (fun _ => trivial) fun hsized vm =>
    owns_byteVector vm (h hsized) ?_
  have hlt := length.toInt_lt
  have hsize := toNat_toUInt64 (h hsized)
  rw [hsize] at hroom
  rw [List.length_replicate, hroom.2 (by omega)]
  omega

/-- **A vector** or record is made. -/
theorem built_slots_alloc {length : Int64} {make : ℕ → Obj} (hmake : ∀ k, (make k).Sized)
    (howns : A.sized → Possible length ∧ ∀ (vm : VmInternal) (k : ℕ) (ps : List Ptr),
      vm.arrays[k]? = some ps → length.toInt ≤ ps.length → vm.Owns (make k)) :
    Built A (makeSlots length >>= fun k => alloc (make k)) Ref.IsObj := by
  rw [makeSlots, bind_assoc]
  refine (built_roomFor _).bind fun room hroom => .one (fun _ => rfl) fun vm _ =>
    ⟨.allocArray (hmake _) ?_ fun hsized => ?_, trivial⟩
  · intro p hp
    obtain rfl := List.eq_of_mem_replicate hp
    trivial
  · obtain ⟨⟨hnonneg, hsize⟩, howns⟩ := howns hsized
    refine howns _ _ _ List.getElem?_concat_length ?_
    have hbytes : arrayBytes length = 8 * length.toInt.toNat := by
      rw [arrayBytes, toNat_toUInt64 hnonneg]
      omega
    rw [List.length_replicate, hroom.2 (by omega), hbytes]
    omega

theorem built_vmMakeVector {length : Int64} (h : A.sized → Possible length) :
    Built A (vmMakeVector length) Ref.IsObj :=
  built_slots_alloc (fun _ => trivial) fun hsized =>
    ⟨h hsized, fun _ _ ps hps hle => ⟨(h hsized).1, (h hsized).2, ps, hps, hle⟩⟩

/-- `vm_make_record` makes one slot more than it is asked for. -/
theorem built_vmMakeRecord {length : Int64} (h : A.sized → Possible (length + 1)) :
    Built A (vmMakeRecord length) Ref.IsObj :=
  built_slots_alloc (fun _ => trivial) fun hsized =>
    ⟨h hsized, fun _ _ ps hps hle => ⟨(h hsized).1, (h hsized).2, ps, hps, hle⟩⟩

/-- The constants of the machine may be pushed. -/
theorem built_constant {f : VmInternal → Ref} (hf : ∀ vm, Sound A.null vm → (f vm).IsObj) :
    Built A (pushConstant f) fun _ => True :=
  .get_bind fun vm hs => built_push (isSlot_some.mpr (hf vm hs)) vm hs

/-- The empty list is an object. -/
theorem Sound.isObj_empty {null : Prop} {vm : VmInternal} (hs : Sound null vm) : vm.empty.IsObj := by
  obtain ⟨n, hn, -⟩ := hs.empty
  rw [hn]
  trivial

theorem built_pushBool (b : Bool) : Built A (pushBool b) fun _ => True :=
  built_constant fun vm hs => by cases b <;> [exact hs.booleans.2; exact hs.booleans.1]

/-- Asking the system changes only what was asked. -/
theorem built_ask {α : Type} (call : HostCall) (answer : List HostCall → α) :
    Built A (ask call answer) fun _ => True :=
  .one (fun _ => rfl) fun vm _ => ⟨.ask vm call, trivial⟩

theorem built_print (f : VmInternal → List UInt8) : Built A (print f) fun _ => True :=
  .one (fun _ => rfl) fun vm _ => ⟨.ask vm _, trivial⟩

/-- Printing an object needs room for it on the C stack. -/
theorem built_printObject (printer : Printer) (obj : Ref) : Built A (printObject printer obj) fun _ => True := by
  intro vm hs
  cases hrun : outputObject printer vm outputMaxDepth (some obj) ⟨[], vm.outputDepth⟩ with
  | error e => exact .stop (e := .undefined) (by rw [printObject, hrun]) trivial
  | ok r =>
    obtain ⟨⟨⟩, out⟩ := r
    exact .last (by rw [printObject, hrun]) (.single (.print vm _ _)) trivial

/-- Reading a C string changes nothing. -/
theorem built_cstring (bs : ℕ) : Built A (cstring bs) fun _ => True :=
  .ofOption fun _ _ _ _ => trivial

theorem built_getEnv (e : ℕ) : Built A (getEnv e) fun env => env.bindings ≠ 0 :=
  .ofOption fun _ _ hs h => hs.bindings _ (List.mem_of_getElem? h)

/-! ### Tables

The bindings hold objects only, and the functions of `hash.c` put nothing else into them. -/

/-- What a table finds is an object. -/
theorem isObj_of_lookup {entries : List Entry} (h : ∀ e ∈ entries, e.value.IsObj) {name : List UInt8}
    (hr : lookup entries name = some r) : r.IsObj := by
  obtain ⟨e, he, rfl⟩ := Option.map_eq_some_iff.mp hr
  exact h e (List.mem_of_find?_eq_some he)

/-- A table stays one of objects. -/
theorem isObj_of_insert {entries : List Entry} (h : ∀ e ∈ entries, e.value.IsObj) {key : ℕ}
    {name : List UInt8} (hobj : obj.IsObj) : ∀ e ∈ insert entries key name obj, e.value.IsObj := by
  intro e he
  unfold insert at he
  split at he
  · obtain ⟨old, hold, rfl⟩ := List.mem_map.mp he
    split
    · exact hobj
    · exact h old hold
  · rcases List.mem_cons.mp he with rfl | he
    · exact hobj
    · exact h e he

/-- What is found is an object, whatever way `hash.c` takes. -/
theorem isObj_of_getEntry {vm : VmInternal} {t : ℕ} {name : List UInt8} {entries : List Entry}
    (h : ∀ e ∈ entries, e.value.IsObj) (hr : getEntry host vm t name entries = some r) : r.IsObj := by
  unfold getEntry at hr
  split at hr
  · exact isObj_of_lookup h hr
  · obtain ⟨e, he, rfl⟩ := Option.map_eq_some_iff.mp hr
    obtain ⟨i, -, hi⟩ := Option.bind_eq_some_iff.mp he
    exact h e (List.mem_of_getElem? hi)

/-- `hash_get`, of any table and key. -/
theorem built_hashGet (t key : ℕ) :
    Built A (hashGet host t key) fun found => ∀ r, found = some r → r.IsObj := by
  refine (built_cstring key).bind fun name _ => .ofOption_bind fun vm entries hs ht =>
    .last rfl .refl fun r hr => ?_
  exact isObj_of_getEntry (hs.values entries (List.mem_of_getElem? ht)) hr

/-- What is set leaves a table of objects, whatever way `hash.c` takes. -/
theorem isObj_of_setEntries {vm : VmInternal} {t key : ℕ} {name : List UInt8} {entries : List Entry}
    (h : ∀ e ∈ entries, e.value.IsObj) (hobj : obj.IsObj) :
    ∀ e ∈ setEntries host vm t key name obj entries, e.value.IsObj := by
  unfold setEntries
  split
  · exact isObj_of_insert h hobj
  · intro e he
    obtain ⟨i, -, hi⟩ := List.mem_filterMap.mp he
    cases i with
    | some i => exact h e (List.mem_of_getElem? hi)
    | none =>
      cases hi
      exact hobj

/-- `hash_set` of a key that is the name of a symbol, unless the table is that of the libraries. -/
theorem does_hashSet {base vm : VmInternal} {t key : ℕ} (hbase : Sound A.null base) (h : Changes A base vm)
    (ht : t ≠ 0) (hobj : obj.IsObj)
    (hkey : t ≠ vm.importTable → ∃ (n : ℕ) (length : Int64), vm.objs[n]? = some (.symbol length key))
    (hallowed : ∀ name, vm.name key = some name → A.name t name) :
    Does A base (hashSet host t key obj) vm fun _ => True := by
  refine .ofOption_bind fun name hname => .ofOption_bind fun entries hentries => .last rfl (.tail h ?_) trivial
  refine .setTable ht hentries hname hkey (fun hkept => ⟨obj, if_pos hkept⟩) ?_ (hallowed name hname)
  exact isObj_of_setEntries ((h.sound hbase).values entries (List.mem_of_getElem? hentries)) hobj

theorem ofOption_run {α : Type} {f : VmInternal → Option α} {vm : VmInternal} {a : α}
    (h : f vm = some a) : ofOption f vm = .ok (a, vm) := by
  rw [ofOption, h]

/-- What was found was there, and the state is the same. -/
theorem ofOption_ok {α : Type} {f : VmInternal → Option α} {vm vm' : VmInternal} {a : α}
    (h : ofOption f vm = .ok (a, vm')) : f vm = some a ∧ vm' = vm := by
  unfold ofOption at h
  split at h
  · cases h
    exact ⟨‹_›, rfl⟩
  · cases h

theorem ofOption_run_none {α : Type} {f : VmInternal → Option α} {vm : VmInternal} (h : f vm = none) :
    ofOption f vm = .error .undefined := by
  rw [ofOption, h]

/-- `hash_get`, where the key is a C string. -/
theorem hashGet_run {vm : VmInternal} {t key : ℕ} {name : List UInt8} {entries : List Entry}
    (hname : vm.bytes[key]?.bind cstr? = some name) (ht : vm.tables[t]? = some entries) :
    hashGet host t key vm = .ok (getEntry host vm t name entries, vm) := by
  calc hashGet host t key vm
      = (ofOption (·.tables[t]?) >>= fun entries =>
          ofOption fun vm => some (getEntry host vm t name entries)) vm := run_bind (ofOption_run hname)
    _ = (ofOption fun vm => some (getEntry host vm t name entries)) vm := run_bind (ofOption_run ht)
    _ = .ok (getEntry host vm t name entries, vm) := rfl

/-- Without a NUL, the key is read past its end. -/
theorem hashGet_run_none {vm : VmInternal} {t key : ℕ} (hname : vm.bytes[key]?.bind cstr? = none) :
    hashGet host t key vm = .error .undefined := by
  have hstop : cstring key vm = .error .undefined := by rw [cstring, ofOption, hname]
  change cstring key vm >>= _ = _
  rw [hstop]
  rfl

/-- `hash_set`, where the key is a C string. -/
theorem hashSet_run {vm : VmInternal} {t key : ℕ} {name : List UInt8} {entries : List Entry}
    (hname : vm.bytes[key]?.bind cstr? = some name) (ht : vm.tables[t]? = some entries) :
    hashSet host t key obj vm = .ok ((), { vm with
      tables := vm.tables.set t (setEntries host vm t key name obj entries) }) :=
  (run_bind (ofOption_run hname)).trans (run_bind (ofOption_run ht))

/-- **`make_symbol`** is one change. -/
theorem built_makeSymbol (hobj : obj.IsObj) : Built A (makeSymbol host obj) Ref.IsObj := by
  refine .ofOption_bind fun vm fields hs hfields => .step rfl ?_
  obtain ⟨length, bytes⟩ := fields
  obtain ⟨o, ho, hstring⟩ := Option.bind_eq_some_iff.mp hfields
  obtain ⟨n, rfl⟩ := hobj.exists_obj
  rw [hs.symbolTable]
  cases hname : vm.bytes[bytes]?.bind cstr? with
  | none => exact .stop_bind (hashGet_run_none hname) trivial
  | some name =>
    obtain ⟨old, hold⟩ : ∃ old, vm.tables[0]? = some old :=
      ⟨_, List.getElem?_eq_getElem (Nat.lt_of_succ_lt hs.tables)⟩
    have hvalues := hs.values old (List.mem_of_getElem? hold)
    refine .step (hashGet_run hname hold) ?_
    cases hget : getEntry host vm 0 name old with
    | some symbol => exact .last rfl .refl (isObj_of_getEntry hvalues hget)
    | none =>
      let vm₁ : VmInternal := { vm with objs := vm.objs.set n (.symbol length bytes) }
      have hnew : vm.keysKept old = true → lookup old name = none ∧
          setEntries host vm₁ 0 bytes name (.obj n) old = insert old bytes name (.obj n) := by
        intro hkept
        rw [getEntry, if_pos hkept] at hget
        exact ⟨hget, if_pos hkept⟩
      have hrun : hashSet host 0 bytes (.obj n) vm₁ = _ := hashSet_run hname hold
      exact .step rfl (.step hrun (.last rfl (.single (.intern ho hstring hname hold hnew
        (isObj_of_setEntries hvalues trivial))) trivial))

/-! ### Environments

Environments are copied, changed while they are current, and entered; each is a row of changes. -/

/-- `clone_env` of an environment that exists. -/
theorem cloneEnv_run {vm : VmInternal} {e : ℕ} {env : Env} (h : vm.envs[e]? = some env) :
    cloneEnv e false vm = .ok (vm.envs.length, { vm with envs := vm.envs ++ [env] }) :=
  run_bind (ofOption_run h)

theorem cloneEnv_cow_run {vm : VmInternal} {e : ℕ} {env : Env} {entries : List Entry}
    (h : vm.envs[e]? = some env) (ht : vm.tables[env.bindings]? = some entries) :
    cloneEnv e true vm = .ok (vm.envs.length, { vm with
      tables := vm.tables ++ [entries]
      envs := vm.envs ++ [{ env with bindings := vm.tables.length }] }) :=
  (run_bind (ofOption_run h)).trans (run_bind (ofOption_run ht))

/-- The bindings that are copied must exist. -/
theorem cloneEnv_cow_run_none {vm : VmInternal} {e : ℕ} {env : Env} (h : vm.envs[e]? = some env)
    (ht : vm.tables[env.bindings]? = none) : cloneEnv e true vm = .error .undefined := by
  refine (run_bind (ofOption_run h)).trans ?_
  change ofOption (fun vm => vm.tables[env.bindings]?) vm >>= _ = _
  rw [ofOption, ht]
  rfl

/-- The current environment becomes a copy. -/
theorem switchEnv_run {vm : VmInternal} {e : ℕ} {env : Env} (h : vm.envs[e]? = some env) :
    switchEnv e vm = .ok ((), vm.enter env) :=
  run_bind (cloneEnv_run h)

/-- The child that `push_env` makes. -/
def childEnv (vm : VmInternal) (env : Env) : Env :=
  { env with bindings := vm.tables.length, handler := false, handlerAddr := 0, parent := some vm.env }

/-- `push_env` makes an environment below the current one, with bindings of its own. -/
theorem pushEnv_run {vm : VmInternal} {env : Env} (h : vm.envs[vm.env]? = some env) :
    pushEnv vm = .ok ((), ({ vm with tables := vm.tables ++ [[]] } : VmInternal).enter
      (childEnv vm env)) :=
  (run_bind (t := { vm with tables := vm.tables ++ [[]] }) (a := vm.tables.length) rfl).trans
    (run_bind (ofOption_run h))

/-- The last element of a list is changed. -/
theorem modify_concat {α : Type} (l : List α) (a : α) (f : α → α) :
    (l ++ [a]).modify l.length f = l ++ [f a] := by
  induction l with
  | nil => rfl
  | cons b l ih => rw [List.cons_append, List.length_cons, List.modify_succ_cons, ih, List.cons_append]

/-- To change an element is to set it. -/
theorem modify_of_getElem? {α : Type} {l : List α} {n : ℕ} {a : α} (h : l[n]? = some a) (f : α → α) :
    l.modify n f = l.set n (f a) := by
  obtain ⟨hn, rfl⟩ := List.getElem?_eq_some_iff.mp h
  refine List.ext_getElem? fun i => ?_
  rw [List.getElem?_modify, List.getElem?_set]
  split
  · next hi =>
    subst hi
    simp [hn]
  · simp

/-- Writing to an environment that was just entered. -/
theorem updateEnv_enter (vm : VmInternal) (env : Env) (f : Env → Env) :
    (vm.enter env).updateEnv f = vm.enter (f env) := by
  simp only [VmInternal.updateEnv, VmInternal.enter, modify_concat]

/-- The environment that is entered is the current one. -/
theorem getElem?_enter (vm : VmInternal) (env : Env) :
    (vm.enter env).envs[(vm.enter env).env]? = some env := by
  simp [VmInternal.enter]

section

variable {vm : VmInternal} {env : Env} {e : ℕ}

/-- What is allowed in an environment depends on where it runs and on its handler. -/
theorem envAllowed_like {env' : Env} (h : vm.envs[e]? = some env) (hhandler : env'.handler = env.handler)
    (hcode : env'.codeRef = env.codeRef) (hlength : env'.length = env.length)
    (haddr : env'.handlerAddr = env.handlerAddr) : EnvAllowed A vm env' := fun h' =>
  .inl ⟨env, List.mem_of_getElem? h, hhandler ▸ h', hcode.symm, hlength.symm, haddr.symm⟩

/-- An environment that exists is allowed. -/
theorem envAllowed_of_mem (h : vm.envs[e]? = some env) : EnvAllowed A vm env :=
  envAllowed_like h rfl rfl rfl rfl

/-- An environment goes on where another does. -/
theorem envPlaced_like {env' : Env} (h : vm.envs[e]? = some env) (hcode : env'.codeRef = env.codeRef)
    (hlength : env'.length = env.length) (hip : env'.ip = env.ip) : EnvPlaced A vm env' :=
  .inl ⟨env, List.mem_of_getElem? h, hcode.symm, hlength.symm, .inl hip.symm⟩

/-- And so is the place where it goes on. -/
theorem envPlaced_of_mem (h : vm.envs[e]? = some env) : EnvPlaced A vm env :=
  envPlaced_like h rfl rfl rfl

/-- The caller of an environment exists, and is not the current one. -/
theorem Sound.parent {null : Prop} (hs : Sound null vm) (h : vm.envs[e]? = some env) {p : ℕ}
    (hp : env.parent = some p) : p < vm.envs.length ∧ p ≠ vm.env := by
  obtain ⟨hlt, hne⟩ := hs.parents e env p h hp
  obtain ⟨he, -⟩ := List.getElem?_eq_some_iff.mp h
  exact ⟨hlt.trans he, hne⟩

theorem Sound.closureEnv {null : Prop} {vm : VmInternal} (hs : Sound null vm) {r : Ref} {e : ℕ}
    (hr : vm.deref r = some (.closure e)) : ∃ env, vm.envs[e]? = some env := by
  cases r with
  | obj n => exact ⟨_, List.getElem?_eq_getElem (hs.closures n e hr).1⟩
  | cell n =>
    obtain ⟨c, -, hc⟩ := Option.map_eq_some_iff.mp hr
    cases hc

/-- Bindings are never the table of symbols. -/
theorem Sound.bindings_ne {null : Prop} (hs : Sound null vm) (h : vm.envs[e]? = some env) :
    env.bindings ≠ 0 :=
  hs.bindings env (List.mem_of_getElem? h)

theorem Sound.currentEnv {null : Prop} (hs : Sound null vm) : ∃ env, vm.envs[vm.env]? = some env :=
  ⟨_, List.getElem?_eq_getElem hs.current⟩

end

/-- Writing to an environment that was just made. -/
theorem editEnv_run (vm : VmInternal) (env : Env) (f : Env → Env) :
    editEnv vm.envs.length f { vm with envs := vm.envs ++ [env] } =
      .ok ((), { vm with envs := vm.envs ++ [f env] }) := by
  simp only [editEnv, modify_concat]

/-- **A closure of a new environment** is pushed. -/
theorem does_closure {base vm : VmInternal} {env : Env} (hbase : Sound A.null base)
    (h : Changes A base vm) (hok : EnvAllowed A vm env) (hplaced : EnvPlaced A vm env)
    (hbindings : env.bindings ≠ 0) (hparent : ∀ p, env.parent = some p → p < vm.envs.length ∧ p ≠ vm.env) :
    Does A base (alloc (.closure vm.envs.length) >>= fun closure => vmPush closure)
      { vm with envs := vm.envs ++ [env] } fun _ => True :=
  .step rfl (Built.does (built_pushRef (isObj_obj _)) hbase (h.tail (.closure hok hplaced hbindings hparent)))

/-- The exception list. -/
theorem built_makeException (msg : List UInt8) {args : List Ref} (hargs : ∀ r ∈ args, r.IsObj) :
    Built A (makeException msg args) Ref.IsObj := by
  have hfold : ∀ (args : List Ref) (exception : Ref), (∀ r ∈ args, r.IsObj) → exception.IsObj →
      Built A (args.foldlM (fun exception obj => cons obj exception) exception) Ref.IsObj := by
    intro args
    induction args with
    | nil => exact fun _ _ h => .pure h
    | cons obj args ih =>
      intro exception hargs h
      exact (built_cons (hargs obj List.mem_cons_self) h).bind fun exception' h' =>
        ih exception' (fun r hr => hargs r (List.mem_cons_of_mem _ hr)) h'
  refine .get_bind fun vm hs => (hfold args vm.empty hargs hs.isObj_empty).bind
    (fun exception hexception => .get_bind fun vm hs => ?_) vm hs
  obtain ⟨env, henv⟩ := hs.currentEnv
  have hclosure : Change A vm { vm with
      envs := vm.envs ++ [env], objs := vm.objs ++ [Obj.closure vm.envs.length] } :=
    .closure (envAllowed_of_mem henv) (envPlaced_of_mem henv) (hs.bindings_ne henv) fun p hp => hs.parent henv hp
  refine .step (cloneEnv_run henv) (.step rfl (Built.does ?_ hs (.single hclosure)))
  exact (built_cons (isObj_obj _) hexception).bind fun exception' h' =>
    (built_vmMakeCString msg).bind fun obj hobj => built_cons hobj h'

/-- What `handle_exception` finds is an environment with a handler. -/
theorem exists_of_findHandler {vm : VmInternal} {e : ℕ} (h : vm.findHandler = some e) :
    ∃ env, vm.envs[e]? = some env ∧ env.handler = true := by
  have he := List.find?_some h
  cases henv : vm.envs[e]? with
  | none => simp [henv] at he
  | some env => exact ⟨env, rfl, by simpa [henv] using he⟩

/-- **`handle_exception`** is built of changes. -/
theorem built_handleException (msg : List UInt8) {args : List Ref} (hargs : ∀ r ∈ args, r.IsObj) :
    Built A (handleException msg args) fun _ => True := by
  refine (built_makeException msg hargs).bind fun exception hobj =>
    (built_push (isSlot_some.mpr hobj)).bind fun _ _ => .get_bind fun vm hs => ?_
  cases hfind : vm.findHandler with
  | none => exact .stop rfl trivial
  | some e =>
    obtain ⟨env, henv, hhandler⟩ := exists_of_findHandler hfind
    refine .step (switchEnv_run henv) (.step rfl (.last rfl ?_ trivial))
    rw [updateEnv_enter, updateEnv_enter]
    have hbindings := hs.bindings_ne henv
    refine .single (.enter ?_ (.inl ⟨env, List.mem_of_getElem? henv, rfl, rfl, .inr ⟨hhandler, rfl⟩⟩) ?_ ?_)
    · rintro ⟨⟩
    · exact hbindings
    · exact fun p hp => (hs.parent henv hp).1

/-- **Switching** to a copy of an environment. -/
theorem Sound.switch {vm : VmInternal} {e : ℕ} {env : Env} (hs : Sound A.null vm)
    (henv : vm.envs[e]? = some env) : Change A vm (vm.enter env) :=
  .enter (envAllowed_of_mem henv) (envPlaced_of_mem henv) (hs.bindings_ne henv) fun _ hp => (hs.parent henv hp).1

/-- **`push_env`** is a change when it is known that there is room for a table. -/
theorem does_pushEnv {base vm : VmInternal} (hbase : Sound A.null base) (h : Changes A base vm) :
    Does A base pushEnv vm fun _ => True := by
  have hs := h.sound hbase
  obtain ⟨env, henv⟩ := hs.currentEnv
  refine .last (pushEnv_run henv) (.tail (.tail h (.newTable (by simp)))
    (.enter ?_ (envPlaced_like henv rfl rfl rfl) ?_ ?_)) trivial
  · rintro ⟨⟩
  · exact (Nat.lt_of_succ_lt hs.tables).ne'
  · rintro p ⟨⟩
    exact hs.current

/-- **Entering a closure**, as `op_call_in` and `op_tail_call_in` end. -/
theorem does_enter {base vm : VmInternal} {e : ℕ} {env : Env} (hbase : Sound A.null base)
    (h : Changes A base vm) (henv : vm.envs[e]? = some env) :
    Does A base (enter e) vm fun _ => True :=
  .step (switchEnv_run henv) (does_pushEnv hbase (h.tail ((h.sound hbase).switch henv)))

end Parts

end Insomniac.Vm

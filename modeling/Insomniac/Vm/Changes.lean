import Insomniac.Vm.Eval

/-!
# Vm/Changes — what an instruction can do

Every instruction is a sequence of a few kinds of changes (`Change`), from a state in order
(`Sound`) to another.  This is shown once for each instruction (`Built`); what holds of every reached
state then follows from what each change does.

    vm ──pop──▸ · ──alloc──▸ · ──push──▸ vm'

Some changes are only allowed under conditions (`Allow`), which are left open here.
-/

open Bytes Insomniac.Asm Run

namespace Insomniac.Vm

/-! ## States in order

What the machine keeps through all changes: the stack is a chain of pairs, objects refer to objects that exist,
and nothing refers to the current environment. -/

/-- The fields of an object are objects of programs. -/
def Obj.Fields : Obj → Prop
  | .pair car cdr => IsSlot False car ∧ IsSlot False cdr
  | _ => True

/-- The pairs from a reference on, with their number: the last one is followed by `empty`. -/
inductive Chain (cells : List Cell) (empty : Ref) : Ref → ℕ → Prop
  | nil : Chain cells empty empty 0
  | cons {n k : ℕ} {c : Cell} : cells[n]? = some c → Chain cells empty c.cdr k →
      Chain cells empty (.cell n) (k + 1)

/-- **A state in order.**  Pairs of the stack are in the stack only; `depth` counts them; nothing
refers to the current environment, and parents are older than their children. -/
structure Sound (null : Prop) (vm : VmInternal) : Prop where
  cars : ∀ c ∈ vm.cells, IsSlot null c.car
  fields : ∀ o ∈ vm.objs, o.Fields
  slots : ∀ ps ∈ vm.arrays, ∀ p ∈ ps, IsSlot True p
  values : ∀ t ∈ vm.tables, ∀ e ∈ t, e.value.IsObj
  stack : ∃ k : ℕ, Chain vm.cells vm.empty vm.stackRoot k ∧ vm.depth = k
  empty : ∃ n, vm.empty = .obj n ∧ vm.objs[n]? = some .empty
  booleans : vm.vmTrue.IsObj ∧ vm.vmFalse.IsObj
  current : vm.env < vm.envs.length
  parents : ∀ (i : ℕ) (env : Env) (p : ℕ), vm.envs[i]? = some env → env.parent = some p → p < i ∧ p ≠ vm.env
  closures : ∀ (n : ℕ) (e : ℕ), vm.objs[n]? = some (Obj.closure e) → e < vm.envs.length ∧ e ≠ vm.env
  tables : 1 < vm.tables.length
  symbolTable : vm.symbolTable = 0
  importTable : vm.importTable = 1
  bindings : ∀ env ∈ vm.envs, env.bindings ≠ 0

/-! ## Changes

One constructor for each kind of change that an instruction can make, with what may be asked of it. -/

/-- What is allowed besides: whether null may be pushed, which byte arrays may be written to, which
environments may have a handler that no environment had before, whether objects have to own what
they say they do, which pairs may be written to, which names may be written in which tables, and where
in which code of which length an environment may go on. -/
structure Allow where
  null : Prop
  write : VmInternal → ℕ → Prop
  handler : VmInternal → Env → Prop
  sized : Prop
  pair : ℕ → Prop := fun _ => True
  name : ℕ → List UInt8 → Prop := fun _ _ => True
  place : List Code → Option ℕ → ℕ → ℕ → Prop := fun _ _ _ _ => True

/-- An environment has no handler, or the handler of an environment that is there, or one that is
allowed. -/
def EnvAllowed (A : Allow) (vm : VmInternal) (env : Env) : Prop :=
  env.handler = true →
    (∃ old ∈ vm.envs, old.handler = true ∧ old.codeRef = env.codeRef ∧
      old.length = env.length ∧ old.handlerAddr = env.handlerAddr) ∨ A.handler vm env

/-- An environment goes on where an environment that is there goes on, or where its handler is, or in
an allowed place. -/
def EnvPlaced (A : Allow) (vm : VmInternal) (env : Env) : Prop :=
  (∃ old ∈ vm.envs, old.codeRef = env.codeRef ∧ old.length = env.length ∧
    (old.ip = env.ip ∨ old.handler = true ∧ old.handlerAddr = env.ip)) ∨
  A.place vm.codes env.codeRef env.length env.ip

/-- An object with a block of its own behind it. -/
def Obj.Sized : Obj → Prop
  | .string _ _ | .vector _ _ | .byteVector _ _ | .record _ _ => True
  | _ => False

/-- The fields of a block are no references of the object. -/
theorem Obj.Sized.fields {o : Obj} (h : o.Sized) : o.Fields := by
  cases o <;> first | exact h | exact h.elim

/-- **An object owns what it says**: its length is one, the size of the block behind it did not wrap,
the block is as long as the length, and a string ends in `NUL`. -/
def VmInternal.Owns (vm : VmInternal) : Obj → Prop
  | .string length bytes =>
    0 ≤ length ∧ ∃ bs, vm.bytes[bytes]? = some bs ∧ bs[length.toInt.toNat]? = some 0
  | .byteVector length vector => 0 ≤ length ∧ ∃ bs, vm.bytes[vector]? = some bs ∧ length.toInt ≤ bs.length
  | .vector length vector | .record length vector =>
    0 ≤ length ∧ 8 * length.toInt + 96 ≤ 2 ^ 64 ∧ ∃ ps, vm.arrays[vector]? = some ps ∧ length.toInt ≤ ps.length
  | _ => True

/-- The current environment goes on at an address. -/
def VmInternal.goto (vm : VmInternal) (ip : ℕ) : VmInternal := vm.updateEnv fun env => { env with ip }

/-- **The changes** that instructions are made of. -/
inductive Change (A : Allow) : VmInternal → VmInternal → Prop
  | pop {vm : VmInternal} {obj cdr : Ref} :
      vm.deref vm.stackRoot = some (.pair (some obj) (some cdr)) →
      Change A vm (vm.pop cdr)
  | push {vm : VmInternal} {obj : Ptr} : IsSlot A.null obj → Change A vm (vm.push obj)
  | alloc {vm : VmInternal} {o : Obj} : o.Plain → Change A vm { vm with objs := vm.objs ++ [o] }
  | newBytes (vm : VmInternal) (bs : List UInt8) : Change A vm { vm with bytes := vm.bytes ++ [bs] }
  | allocBytes {vm : VmInternal} {o : Obj} (bs : List UInt8) : o.Sized →
      (A.sized → ({ vm with bytes := vm.bytes ++ [bs] } : VmInternal).Owns o) →
      Change A vm { vm with bytes := vm.bytes ++ [bs], objs := vm.objs ++ [o] }
  | allocArray {vm : VmInternal} {o : Obj} {ps : List Ptr} : o.Sized → (∀ p ∈ ps, IsSlot True p) →
      (A.sized → ({ vm with arrays := vm.arrays ++ [ps] } : VmInternal).Owns o) →
      Change A vm { vm with arrays := vm.arrays ++ [ps], objs := vm.objs ++ [o] }
  /-- A byte vector over the bytes of a string. -/
  | slice {vm : VmInternal} {n : ℕ} {length : Int64} {bytes : ℕ} :
      vm.objs[n]? = some (.string length bytes) →
      Change A vm { vm with objs := vm.objs ++ [.byteVector length bytes] }
  | newTable {vm : VmInternal} {entries : List Entry} : (∀ e ∈ entries, e.value.IsObj) →
      Change A vm { vm with tables := vm.tables ++ [entries] }
  | newCode (vm : VmInternal) (code : Code) : Change A vm { vm with codes := vm.codes ++ [code] }
  | setPair {vm : VmInternal} {n : ℕ} {car cdr car' cdr' : Ptr} :
      vm.objs[n]? = some (.pair car cdr) → IsSlot False car' → IsSlot False cdr' → A.pair n →
      Change A vm { vm with objs := vm.objs.set n (.pair car' cdr') }
  | setSlots {vm : VmInternal} {old ps : List Ptr} (a : ℕ) : vm.arrays[a]? = some old →
      ps.length = old.length → (∀ p ∈ ps, IsSlot True p) → Change A vm { vm with arrays := vm.arrays.set a ps }
  | setByte {vm : VmInternal} {bs i : ℕ} {old : List UInt8} {b : UInt8} : vm.bytes[bs]? = some old →
      A.write vm bs → (A.sized → ∀ (n : ℕ) (length : Int64), vm.objs[n]? = some (.string length bs) →
        0 ≤ length → i = length.toInt.toNat → b = 0) →
      Change A vm { vm with bytes := vm.bytes.set bs (old.set i b) }
  /-- A name is written in a table; the keys of bindings are the names of symbols. -/
  | setTable {vm : VmInternal} {t key : ℕ} {name : List UInt8} {old new : List Entry} : t ≠ 0 →
      vm.tables[t]? = some old → vm.name key = some name →
      (t ≠ vm.importTable → ∃ (n : ℕ) (length : Int64), vm.objs[n]? = some (.symbol length key)) →
      (vm.keysKept old = true → ∃ value, new = insert old key name value) →
      (∀ e ∈ new, e.value.IsObj) → A.name t name → Change A vm { vm with tables := vm.tables.set t new }
  | intern {vm : VmInternal} {n : ℕ} {o : Obj} {length : Int64} {bytes : ℕ}
      {name : List UInt8} {old new : List Entry} :
      vm.objs[n]? = some o → o.stringFields = some (length, bytes) →
      vm.bytes[bytes]?.bind cstr? = some name → vm.tables[0]? = some old →
      (vm.keysKept old = true → lookup old name = none ∧ new = insert old bytes name (.obj n)) →
      (∀ e ∈ new, e.value.IsObj) →
      Change A vm { vm with
        objs := vm.objs.set n (.symbol length bytes), tables := vm.tables.set 0 new }
  | setIp {vm : VmInternal} {env : Env} {ip : ℕ} : vm.envs[vm.env]? = some env →
      A.place vm.codes env.codeRef env.length ip → Change A vm (vm.goto ip)
  | setHandler {vm : VmInternal} {env : Env} {addr : ℕ} : vm.envs[vm.env]? = some env →
      EnvAllowed A vm { env with handler := true, handlerAddr := addr } →
      Change A vm (vm.updateEnv fun env => { env with handler := true, handlerAddr := addr })
  | setExit (vm : VmInternal) (status : Int32) : Change A vm { vm with exitStatus := status }
  | ask (vm : VmInternal) (call : HostCall) : Change A vm { vm with calls := call :: vm.calls }
  /-- A text is printed, and the static `depth` is another. -/
  | print (vm : VmInternal) (text : List UInt8) (depth : ℕ) :
      Change A vm { vm with calls := .print text :: vm.calls, outputDepth := depth }
  /-- A closure of an environment of its own. -/
  | closure {vm : VmInternal} {env : Env} : EnvAllowed A vm env → EnvPlaced A vm env → env.bindings ≠ 0 →
      (∀ p, env.parent = some p → p < vm.envs.length ∧ p ≠ vm.env) →
      Change A vm { vm with
        envs := vm.envs ++ [env], objs := vm.objs ++ [Obj.closure vm.envs.length] }
  /-- A new environment becomes the current one. -/
  | enter {vm : VmInternal} {env : Env} : EnvAllowed A vm env → EnvPlaced A vm env → env.bindings ≠ 0 →
      (∀ p, env.parent = some p → p < vm.envs.length) →
      Change A vm (vm.enter env)
  /-- The same, and a closure of the old one is pushed. -/
  | call {vm : VmInternal} {env : Env} : EnvAllowed A vm env → EnvPlaced A vm env → env.bindings ≠ 0 →
      (∀ p, env.parent = some p → p < vm.envs.length) →
      Change A vm
        ((({ vm with objs := vm.objs ++ [Obj.closure vm.env] } : VmInternal).push
          (some (.obj vm.objs.length))).enter env)

/-- Changes, one after another. -/
abbrev Changes (A : Allow) : VmInternal → VmInternal → Prop := Relation.ReflTransGen (Change A)

/-! ## Changes keep the order

Memory is added to, or one slot of it is set, so a chain of pairs stays one; what else a change does is said by
its constructor. -/

/-- Adding to memory leaves a chain as it is. -/
theorem Chain.mono {cells cells' : List Cell} {empty r : Ref} {k : ℕ}
    (hcells : ∀ (n : ℕ) (c : Cell), cells[n]? = some c → cells'[n]? = some c)
    (h : Chain cells empty r k) : Chain cells' empty r k := by
  induction h with
  | nil => exact .nil
  | cons hc _ ih => exact .cons (hcells _ _ hc) ih

/-- What a list has, a longer one has too. -/
theorem getElem?_append_of_some {α : Type} {l l' : List α} {n : ℕ} {a : α} (h : l[n]? = some a) :
    (l ++ l')[n]? = some a := by
  obtain ⟨hn, -⟩ := List.getElem?_eq_some_iff.mp h
  rw [List.getElem?_append_left hn, h]

/-- What is in the longer list was there, or is the new element. -/
theorem getElem?_concat {α : Type} {l : List α} {b a : α} {n : ℕ} (h : (l ++ [b])[n]? = some a) :
    l[n]? = some a ∨ n = l.length ∧ a = b := by
  rcases Nat.lt_trichotomy n l.length with hn | rfl | hn
  · rw [List.getElem?_append_left hn] at h
    exact .inl h
  · exact .inr ⟨rfl, by simpa [eq_comm] using h⟩
  · rw [List.getElem?_eq_none (by simp; omega)] at h
    cases h

/-- What is in the list was there, or was set. -/
theorem getElem?_set_of_some {α : Type} {l : List α} {b a : α} {m n : ℕ}
    (h : (l.set m b)[n]? = some a) : l[n]? = some a ∨ n = m ∧ a = b := by
  rw [List.getElem?_set] at h
  split at h
  · next hmn =>
    split at h
    · exact .inr ⟨hmn.symm, (Option.some.inj h).symm⟩
    · cases h
  · exact .inl h

/-- The same for elements without their place. -/
theorem mem_set {α : Type} {l : List α} {m : ℕ} {a b : α} (h : a ∈ l.set m b) : a ∈ l ∨ a = b :=
  List.mem_or_eq_of_mem_set h

section

variable {null : Prop} {vm : VmInternal}

/-- A push makes the chain one longer. -/
theorem Sound.chain_push (h : Sound null vm) (obj : Ptr) :
    ∃ k : ℕ, Chain (vm.push obj).cells vm.empty (vm.push obj).stackRoot k ∧
      (vm.push obj).depth = k := by
  obtain ⟨k, hk, hdepth⟩ := h.stack
  refine ⟨k + 1, .cons (c := ⟨obj, vm.stackRoot⟩) ?_ ?_, ?_⟩
  · simp [VmInternal.push]
  · exact hk.mono fun n c hc => getElem?_append_of_some hc
  · simp [VmInternal.push, hdepth]

/-- **Pushing keeps the order.** -/
theorem Sound.push (h : Sound null vm) {obj : Ptr} (hobj : IsSlot null obj) :
    Sound null (vm.push obj) where
  __ := h
  cars := by
    intro c hc
    rcases List.mem_append.mp hc with hc | hc
    · exact h.cars c hc
    · obtain rfl := List.mem_singleton.mp hc
      exact hobj
  stack := h.chain_push obj

/-- A new object keeps the order. -/
theorem Sound.newObj (h : Sound null vm) {o : Obj} (ho : o.Fields)
    (hclosure : ∀ e, o = .closure e → e < vm.envs.length ∧ e ≠ vm.env) :
    Sound null { vm with objs := vm.objs ++ [o] } where
  __ := h
  fields := by
    intro o' ho'
    rcases List.mem_append.mp ho' with ho' | ho'
    · exact h.fields o' ho'
    · obtain rfl := List.mem_singleton.mp ho'
      exact ho
  empty := by
    obtain ⟨n, hn, hempty⟩ := h.empty
    exact ⟨n, hn, getElem?_append_of_some hempty⟩
  closures := by
    intro n e hn
    rcases getElem?_concat hn with hn | ⟨-, he⟩
    · exact h.closures n e hn
    · exact hclosure e he.symm

/-- Writing to an object keeps the order. -/
theorem Sound.setObj (h : Sound null vm) {n : ℕ} {o : Obj} (o' : Obj) (ho : vm.objs[n]? = some o)
    (hempty : o ≠ .empty) (ho' : o'.Fields) (hclosure : ∀ e, o' ≠ .closure e) :
    Sound null { vm with objs := vm.objs.set n o' } where
  __ := h
  fields := by
    intro o'' hmem
    rcases mem_set hmem with hmem | rfl
    · exact h.fields o'' hmem
    · exact ho'
  empty := by
    obtain ⟨m, hm, hobj⟩ := h.empty
    have hne : n ≠ m := by
      rintro rfl
      exact hempty (Option.some.inj (ho.symm.trans hobj))
    exact ⟨m, hm, by rw [List.getElem?_set_ne hne, hobj]⟩
  closures := by
    intro m e hm
    rcases getElem?_set_of_some hm with hm | ⟨-, he⟩
    · exact h.closures m e hm
    · exact absurd he.symm (hclosure e)

/-- The empty list is what it is. -/
theorem Sound.deref_empty (h : Sound null vm) : vm.deref vm.empty = some .empty := by
  obtain ⟨n, hn, hempty⟩ := h.empty
  rw [hn]
  exact hempty

/-- The stack is empty or has a pair on top. -/
theorem Sound.root (h : Sound null vm) : vm.stackRoot = vm.empty ∨
    ∃ n c, vm.stackRoot = .cell n ∧ vm.cells[n]? = some c := by
  obtain ⟨k, hk, -⟩ := h.stack
  generalize vm.stackRoot = root at hk
  cases hk with
  | nil => exact .inl rfl
  | cons hc _ => exact .inr ⟨_, _, rfl, hc⟩

/-- Popping keeps the order. -/
theorem Sound.pop (h : Sound null vm) {obj cdr : Ref}
    (hroot : vm.deref vm.stackRoot = some (.pair (some obj) (some cdr))) :
    Sound null (vm.pop cdr) where
  __ := h
  stack := by
    obtain ⟨k, hk, hdepth⟩ := h.stack
    generalize vm.stackRoot = root at hk hroot
    cases hk with
    | nil =>
      rw [h.deref_empty] at hroot
      cases hroot
    | @cons n k c hc hk =>
      simp only [VmInternal.deref, hc, Option.map_some, Option.some.injEq, Obj.pair.injEq] at hroot
      obtain ⟨-, rfl⟩ := hroot
      exact ⟨k, hk, by simp [VmInternal.pop, hdepth]⟩

/-- **A new environment**, perhaps made the current one, keeps the order. -/
theorem Sound.newEnv (h : Sound null vm) {env : Env} (hbindings : env.bindings ≠ 0) {e : ℕ}
    (he : e = vm.env ∨ e = vm.envs.length)
    (hparent : ∀ p, env.parent = some p → p < vm.envs.length ∧ p ≠ e) :
    Sound null { vm with envs := vm.envs ++ [env], env := e } where
  __ := h
  current := by
    have := h.current
    simp only [List.length_append, List.length_singleton]
    omega
  parents := by
    intro i env' p hi hp
    rcases getElem?_concat hi with hi | ⟨rfl, rfl⟩
    · obtain ⟨hlt, hne⟩ := h.parents i env' p hi hp
      obtain ⟨hi, -⟩ := List.getElem?_eq_some_iff.mp hi
      refine ⟨hlt, ?_⟩
      rcases he with rfl | rfl
      · exact hne
      · change p ≠ vm.envs.length
        omega
    · exact hparent p hp
  closures := by
    intro n e' hn
    obtain ⟨hlt, hne⟩ := h.closures n e' hn
    refine ⟨by simp only [List.length_append, List.length_singleton]; omega, ?_⟩
    rcases he with rfl | rfl
    · exact hne
    · exact hlt.ne
  bindings := by
    intro env' hmem
    rcases List.mem_append.mp hmem with hmem | hmem
    · exact h.bindings env' hmem
    · obtain rfl := List.mem_singleton.mp hmem
      exact hbindings

/-- Writing to the current environment, but not to its parent or bindings, keeps the order. -/
theorem Sound.updateEnv (h : Sound null vm) {f : Env → Env}
    (hparent : ∀ env, (f env).parent = env.parent) (hbindings : ∀ env, (f env).bindings = env.bindings) :
    Sound null (vm.updateEnv f) := by
  have hget : ∀ (i : ℕ) (env : Env), (vm.updateEnv f).envs[i]? = some env →
      ∃ old, vm.envs[i]? = some old ∧ env.parent = old.parent ∧ env.bindings = old.bindings := by
    intro i env hi
    rw [VmInternal.updateEnv, List.getElem?_modify] at hi
    obtain ⟨old, hold, rfl⟩ := Option.map_eq_some_iff.mp hi
    refine ⟨old, hold, ?_⟩
    split
    · exact ⟨hparent old, hbindings old⟩
    · exact ⟨rfl, rfl⟩
  have hlength : (vm.updateEnv f).envs.length = vm.envs.length := by simp [VmInternal.updateEnv]
  exact
    { h with
      current := by rw [hlength]; exact h.current
      parents := by
        intro i env p hi hp
        obtain ⟨old, hold, hparent, -⟩ := hget i env hi
        exact h.parents i old p hold (hparent ▸ hp)
      closures := by rw [hlength]; exact h.closures
      bindings := by
        intro env hmem
        obtain ⟨i, hi⟩ := List.mem_iff_getElem?.mp hmem
        obtain ⟨old, hold, -, hbindings⟩ := hget i env hi
        rw [hbindings]
        exact h.bindings old (List.mem_of_getElem? hold) }

end

/-- **Changes keep the order.** -/
theorem Change.sound {A : Allow} {vm vm' : VmInternal} (hchange : Change A vm vm')
    (h : Sound A.null vm) : Sound A.null vm' := by
  cases hchange with
  | pop hroot => exact h.pop hroot
  | push hobj => exact h.push hobj
  | @alloc o ho =>
    refine h.newObj ?_ ?_
    · cases o <;> first | exact ho | exact ho.elim
    · rintro e rfl
      exact ho.elim
  | newBytes bs => exact { h with }
  | newCode code => exact { h with }
  | setByte hold hwrite hends => exact { h with }
  | setExit status => exact { h with }
  | ask call => exact { h with }
  | print text depth => exact { h with }
  | allocBytes bs ho howns =>
    have hbytes : Sound A.null { vm with bytes := vm.bytes ++ [bs] } := { h with }
    exact hbytes.newObj ho.fields (by rintro e rfl; exact ho.elim)
  | @allocArray o ps ho hps howns =>
    have harrays : Sound A.null { vm with arrays := vm.arrays ++ [ps] } := by
      refine { h with slots := ?_ }
      intro ps' hmem
      rcases List.mem_append.mp hmem with hmem | hmem
      · exact h.slots ps' hmem
      · obtain rfl := List.mem_singleton.mp hmem
        exact hps
    exact harrays.newObj ho.fields (by rintro e rfl; exact ho.elim)
  | slice hn => exact h.newObj trivial (by rintro e ⟨⟩)
  | newTable hentries =>
    refine { h with values := ?_, tables := by simpa using Nat.lt_succ_of_lt h.tables }
    intro t hmem
    rcases List.mem_append.mp hmem with hmem | hmem
    · exact h.values t hmem
    · obtain rfl := List.mem_singleton.mp hmem
      exact hentries
  | setPair hn hcar hcdr hpair =>
    exact h.setObj _ hn (by rintro ⟨⟩) ⟨hcar, hcdr⟩ (by rintro e ⟨⟩)
  | setSlots a hold hlength hps =>
    refine { h with slots := ?_ }
    intro ps hmem
    rcases mem_set hmem with hmem | rfl
    · exact h.slots ps hmem
    · exact hps
  | setTable ht hold hname hkey hnew hentries hallowed =>
    refine { h with values := ?_, tables := by simpa using h.tables }
    intro t hmem
    rcases mem_set hmem with hmem | rfl
    · exact h.values t hmem
    · exact hentries
  | @intern n o length bytes _ _ _ hn ho hname hold hnew hentries =>
    have hobj := h.setObj (.symbol length bytes) hn (by rintro rfl; cases ho) trivial (by rintro e ⟨⟩)
    refine { hobj with values := ?_, tables := by simpa using h.tables }
    intro t hmem
    rcases mem_set hmem with hmem | rfl
    · exact h.values t hmem
    · exact hentries
  | setIp henv hplace => exact h.updateEnv (fun _ => rfl) fun _ => rfl
  | setHandler henv hok => exact h.updateEnv (fun _ => rfl) fun _ => rfl
  | @closure env hok hplaced hbindings hparent =>
    have henv := h.newEnv hbindings (.inl rfl) hparent
    exact henv.newObj trivial fun e he => by
      cases he
      exact ⟨by simp, h.current.ne'⟩
  | @enter env hok hplaced hbindings hparent =>
    exact h.newEnv hbindings (.inr rfl) fun p hp => ⟨hparent p hp, (hparent p hp).ne⟩
  | @call env hok hplaced hbindings hparent =>
    have henv := h.newEnv hbindings (.inr rfl) fun p hp => ⟨hparent p hp, (hparent p hp).ne⟩
    have hobj := henv.newObj (o := Obj.closure vm.env) trivial fun e he => by
      cases he
      exact ⟨by simpa using h.current.trans (Nat.lt_succ_self _), h.current.ne⟩
    exact hobj.push trivial

/-- **Changes keep the state in order**, however many there are. -/
theorem Changes.sound {A : Allow} {vm vm' : VmInternal} (hchanges : Changes A vm vm')
    (h : Sound A.null vm) : Sound A.null vm' := by
  induction hchanges with
  | refl => exact h
  | tail _ hchange ih => exact hchange.sound ih

end Insomniac.Vm

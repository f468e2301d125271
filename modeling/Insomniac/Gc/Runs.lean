import Insomniac.Gc.Allocate

/-!
# Gc/Runs — every run of the collector is safe

A run starts with `gc_create` and goes on with any calls that respect the interface (`Allowed`):
pointers handed over are null or live, and a call that may sweep is given no object to write to
that the sweep could take away.  The sizes asked for are free: one that wraps on its way to `calloc`
makes an object with a small block, and a mark phase that comes to its pointers does not end.

    Inv ──exec──▸ Inv        reachable before ⟹ in use after        sweep, not protected ⟹ Clean
-/

open Traversal Run

namespace Insomniac.Gc

/-- A pointer that may be handed over. -/
def GcMs.LivePtr (g : GcMs) (p : Option Addr) : Prop := ∀ a, p = some a → g.Live a

/-- No object in use has the type. -/
def GcMs.Unused (g : GcMs) (type : ℕ) : Prop := ∀ a, g.Live a → (g.heap a).typeDef ≠ type

/-- A registered pointer field, which lies in the block of its object. -/
def GcMs.HasField (g : GcMs) (a : Addr) (offset : ℕ) : Prop := g.IsField a offset ∧ g.InBlock a offset

/-- The place an allocation stores its result in outlives the sweep the allocation may start. -/
def GcMs.Receives (g : GcMs) : Place → Prop
  | .var _ => True
  | .field a offset => g.Reachable a ∧ g.HasField a offset

/-- **The interface of the collector.** -/
def Allowed (g : GcMs) : Op → Prop
  | .registerType _ => True
  | .registerPointer type offset => ∃ d, g.typeDefs[type]? = some d ∧ g.Unused type ∧
      ptrSize ∣ offset ∧ offset + ptrSize ≤ d.size
  | .registerArray type offset => type < g.typeDefs.length ∧ g.Unused type ∧ offset = 0
  | .registerRoot root => g.LivePtr (g.vars root)
  | .unregisterRoot root => root ∈ g.rootList
  | .alloc _ _ ret => g.Receives ret
  | .allocType _ type ret => type < g.typeDefs.length ∧ g.Receives ret
  | .allocPointerArray _ _ ret => g.Receives ret
  | .write (.var v) p => v ∈ g.rootList → g.LivePtr p
  | .write (.field a offset) p => g.Live a ∧ g.HasField a offset ∧ g.LivePtr p
  | .dePerm obj => g.Live obj
  | .protect => True
  | .unprotect => 0 < g.protectCount
  | .sweep => True

/-- The size a call asks for, if it allocates. -/
def Op.asks (g : GcMs) : Op → Option ℕ
  | .alloc _ size _ => some size
  | .allocType _ type _ => g.typeDefs[type]?.map TypeDef.size
  | .allocPointerArray _ cells _ => g.typeDefs[g.arrayType]?.map fun d => d.size * cells % 2 ^ 64
  | _ => none

/-- **How a call may fail**: a mark phase does not come to its end, or something lies behind the end of a
block, because the pointers of a reachable object do or because the size asked for wraps to less than a
header. -/
def Fails (g : GcMs) (op : Op) (e : Stop) : Prop :=
  Unfinished g e ∨ e = .outOfBlock ∧ ∃ size, op.asks g = some size ∧ ¬ g.RoomFor size

/-- The call sweeps, and nothing protects the objects. -/
def Sweeps (g : GcMs) : Op → Prop
  | .sweep => g.protectCount = 0
  | .unprotect => g.protectCount = 1 ∧ g.deadList = []
  | _ => False

/-! ## Calls that do not allocate

Each of them moves pointers or objects between the lists and the variables, and the invariant looks at no more
than these; so one lemma says what is enough for it (`Inv.of_heap`), and the others apply it. -/

section Steps

variable {g : GcMs}

/-- The invariant looks at the pointers of live objects, and at nothing but the headers and blocks
otherwise. -/
theorem Inv.of_heap (hg : Inv g) {h : Addr → MetaObj} (hmark : ∀ a, (h a).mark = (g.heap a).mark)
    (hsize : ∀ a, (h a).size = (g.heap a).size) (htype : ∀ a, (h a).typeDef = (g.heap a).typeDef)
    (hblock : ∀ a, (h a).block = (g.heap a).block)
    (hpoints : ∀ a, g.Live a → ∀ b, ({ g with heap := h } : GcMs).Points a b → g.Live b) :
    Inv { g with heap := h } :=
  { hg with
    active := fun a ha => (hmark a).trans (hg.active a ha)
    dead := fun a ha => ⟨(hmark a).trans (hg.dead a ha).1, (hsize a).trans (hg.dead a ha).2⟩
    perm := fun a ha => (hmark a).trans (hg.perm a ha)
    closed := hpoints
    typed := fun a ha => (htype a).symm ▸ hg.typed a ha
    sized := fun a ha => by
      rw [hblock a, hsize a]
      exact hg.sized a ha }

/-- **A pointer to a live object in a field.** -/
theorem Inv.storeField (hg : Inv g) {a : Addr} {offset : ℕ} {p : Option Addr} (hp : g.LivePtr p) :
    Inv (g.put a { g.heap a with slots := Function.update (g.heap a).slots offset p }) := by
  have hobj : ∀ b, ∃ slots, Function.update g.heap a
      { g.heap a with slots := Function.update (g.heap a).slots offset p } b =
        { g.heap b with slots } ∧
      ∀ o c, slots o = some c → (g.heap b).slots o = some c ∨ p = some c := fun b => by
    rcases eq_or_ne b a with rfl | hb
    · refine ⟨_, Function.update_self .., fun o c hc => ?_⟩
      rcases eq_or_ne o offset with rfl | ho
      · exact Or.inr (by simpa using hc)
      · exact Or.inl (by simpa [ho] using hc)
    · exact ⟨_, Function.update_of_ne hb _ _, fun _ _ hc => Or.inl hc⟩
  refine hg.of_heap (fun b => ?_) (fun b => ?_) (fun b => ?_) (fun b => ?_) fun b hb c hbc => ?_
  · obtain ⟨_, he, -⟩ := hobj b
    rw [he]
  · obtain ⟨_, he, -⟩ := hobj b
    rw [he]
  · obtain ⟨_, he, -⟩ := hobj b
    rw [he]
  · obtain ⟨_, he, -⟩ := hobj b
    rw [he]
  · obtain ⟨slots, he, hslots⟩ := hobj b
    obtain ⟨o, ho, hc⟩ := hbc
    simp only [GcMs.IsField, GcMs.Covers, he] at ho hc
    rcases hslots o c hc with hc | hc
    · exact hg.closed b hb c ⟨o, ho, hc⟩
    · exact hp c hc

/-- A pointer in a variable. -/
theorem Inv.storeVar (hg : Inv g) {v : Var} {p : Option Addr} (hp : v ∈ g.rootList → g.LivePtr p) :
    Inv { g with vars := Function.update g.vars v p } :=
  { hg with
    roots := fun u hu a hua => by
      rcases eq_or_ne u v with rfl | huv
      · exact hp hu a (by simpa using hua)
      · exact hg.roots u hu a (by simpa [huv] using hua) }

/-- A variable becomes a root, when what it holds is null or in use. -/
theorem Inv.registerRoot (hg : Inv g) {root : Var} (h : g.LivePtr (g.vars root)) :
    Inv { g with rootList := root :: g.rootList } :=
  { hg with roots := List.forall_mem_cons.mpr ⟨h, hg.roots⟩ }

/-- The loop finds the first element that is equal, and leaves the others in their order. -/
theorem unlink_eq (sought : ℕ) : ∀ {l : List ℕ}, sought ∈ l →
    unlink sought l = some (sought, l.erase sought)
  | [a], h => by
      obtain rfl : sought = a := by simpa using h
      simp [unlink]
  | a :: b :: l, h => by
      rcases eq_or_ne a sought with rfl | ha
      · simp [unlink]
      · have hmem : sought ∈ b :: l := (List.mem_cons.mp h).resolve_left ha.symm
        have herase : (a :: b :: l).erase sought = a :: (b :: l).erase sought :=
          List.erase_cons_tail (by simpa using ha)
        rw [unlink, if_neg ha, unlink_eq sought hmem, herase]
        rfl

/-- A root less makes nothing reachable. -/
theorem Inv.unregisterRoot (hg : Inv g) (root : Var) :
    Inv { g with rootList := g.rootList.erase root } :=
  { hg with roots := fun v hv => hg.roots v (List.mem_of_mem_erase hv) }

/-- **`gc_de_perm`** moves a permanent object to the active list. -/
theorem Inv.dePerm (hg : Inv g) {a : Addr} (ha : a ∈ g.permList) :
    Inv { g.put a { g.heap a with mark := g.currentMark } with
      permList := g.permList.erase a, activeList := a :: g.activeList } := by
  obtain ⟨hA, hD, hP, hAD, hAP, hDP⟩ := nodup_append₃.mp hg.nodup
  have hheap : ∀ b, ∃ m, Function.update g.heap a { g.heap a with mark := g.currentMark } b =
      { g.heap b with mark := m } := fun b => by
    rcases eq_or_ne b a with rfl | hb
    · exact ⟨_, Function.update_self ..⟩
    · exact ⟨_, Function.update_of_ne hb _ _⟩
  have hother : ∀ b, b ≠ a → Function.update g.heap a
      { g.heap a with mark := g.currentMark } b = g.heap b := fun b hb =>
    Function.update_of_ne hb _ _
  have hlive : ∀ b, b ∈ a :: g.activeList ∨ b ∈ g.permList.erase a → g.Live b := by
    rintro b (hb | hb)
    · exact (List.mem_cons.mp hb).elim (fun he => Or.inr (he ▸ ha)) Or.inl
    · exact Or.inr (List.mem_of_mem_erase hb)
  have hlive' : ∀ b, g.Live b → b ∈ a :: g.activeList ∨ b ∈ g.permList.erase a := by
    rintro b (hb | hb)
    · exact Or.inl (List.mem_cons_of_mem _ hb)
    · rcases eq_or_ne b a with rfl | hba
      · exact Or.inl List.mem_cons_self
      · exact Or.inr ((List.mem_erase_of_ne hba).mpr hb)
  refine
    { nodup := nodup_append₃.mpr ⟨List.nodup_cons.mpr ⟨fun h => hAP a h ha, hA⟩, hD, hP.erase a,
        ?_, ?_, fun b hb hp => hDP b hb (List.mem_of_mem_erase hp)⟩
      colour := hg.colour
      active := fun b hb => ?_
      dead := fun b hb => ?_
      perm := fun b hb => ?_
      closed := fun b hb c hbc => hlive' c (hg.closed b (hlive b hb) c ?_)
      roots := fun v hv b hvb => hlive' b (hg.roots v hv b hvb)
      typed := fun b hb => ?_
      arrayType := hg.arrayType
      protect := hg.protect
      sized := fun b hb => ?_
      cells := hg.cells }
  · exact List.forall_mem_cons.mpr ⟨fun h => hDP a h ha, hAD⟩
  · refine List.forall_mem_cons.mpr ⟨fun h => ?_, fun b hb hp => ?_⟩
    · exact (List.Nodup.not_mem_erase hP) h
    · exact hAP b hb (List.mem_of_mem_erase hp)
  · rcases List.mem_cons.mp hb with rfl | hb
    · simp [GcMs.put]
    · simp only [GcMs.put]
      rw [hother b fun he => hAP b hb (he ▸ ha)]
      exact hg.active b hb
  · simp only [GcMs.put]
    rw [hother b fun he => hDP b hb (he ▸ ha)]
    exact hg.dead b hb
  · simp only [GcMs.put]
    rw [hother b fun he => (List.Nodup.not_mem_erase hP) (he ▸ hb)]
    exact hg.perm b (List.mem_of_mem_erase hb)
  · obtain ⟨m, hm⟩ := hheap b
    obtain ⟨o, ho, hc⟩ := hbc
    simp only [GcMs.IsField, GcMs.Covers, GcMs.put, hm] at ho hc
    exact ⟨o, ho, hc⟩
  · obtain ⟨m, hm⟩ := hheap b
    simp only [GcMs.put, hm]
    exact hg.typed b (hlive b hb)
  · obtain ⟨m, hm⟩ := hheap b
    simp only [GcMs.put, hm]
    refine hg.sized b ?_
    rcases List.mem_append.mp hb with hb | hb
    · rcases List.mem_append.mp hb with hb | hb
      · exact (hlive b (Or.inl hb)).mem_blocks
      · exact List.mem_append_left _ (List.mem_append_right _ hb)
    · exact (hlive b (Or.inr hb)).mem_blocks

/-- **Types may be registered** as long as no live object has them. -/
theorem Inv.withTypes (hg : Inv g) {types : List TypeDef}
    (hlen : g.typeDefs.length ≤ types.length)
    (hsize : ∀ i d, i < g.typeDefs.length → types[i]? = some d →
      ∃ d', g.typeDefs[i]? = some d' ∧ d'.size = d.size)
    (hsame : ∀ a, g.Live a → 0 ≤ (g.heap a).typeDef →
      types[(g.heap a).typeDef.toNat]? = g.typeDefs[(g.heap a).typeDef.toNat]?) :
    Inv { g with typeDefs := types } :=
  { hg with
    closed := fun a ha b hab => by
      obtain ⟨offset, ⟨h0, d, hd, p, hp, ho⟩, hb⟩ := hab
      refine hg.closed a ha b ⟨offset, ⟨h0, d, hsame a ha h0 ▸ hd, p, hp, ?_⟩, hb⟩
      obtain ⟨type, off⟩ := p
      cases type with
      | ptr => exact ho
      | array =>
        obtain ⟨d₁, hd₁, i, hi, he⟩ := ho
        obtain ⟨d₂, hd₂, hs⟩ := hsize _ d₁ hg.arrayType hd₁
        exact ⟨d₂, hd₂, i, hs ▸ hi, he⟩
    typed := fun a ha => (hg.typed a ha).trans_le (by exact_mod_cast hlen)
    arrayType := hg.arrayType.trans_le hlen }

/-- A new type is the type of no object. -/
theorem Inv.registerType (hg : Inv g) (d : TypeDef) :
    Inv { g with typeDefs := g.typeDefs ++ [d] } := by
  refine hg.withTypes (by simp) (fun i d' hi hd' => ?_) fun a ha h0 => ?_
  · rw [List.getElem?_append_left hi] at hd'
    exact ⟨d', hd', rfl⟩
  · have := hg.typed a ha
    exact List.getElem?_append_left (by omega)

/-- A pointer is registered in a type that no object in use has. -/
theorem Inv.registerPtr (hg : Inv g) {type : ℕ} (hunused : g.Unused type) (p : PtrDef) :
    Inv { g with typeDefs := g.typeDefs.modify type fun d =>
      { d with rootList := p :: d.rootList } } := by
  refine hg.withTypes (by simp) (fun i d hi hd => ?_) fun a ha h0 => ?_
  · rw [List.getElem?_modify] at hd
    obtain ⟨d', hd', rfl⟩ := Option.map_eq_some_iff.mp hd
    refine ⟨d', hd', ?_⟩
    split <;> rfl
  · have hne : type ≠ (g.heap a).typeDef.toNat := fun he => hunused a ha (by omega)
    rw [List.getElem?_modify]
    simp [hne]

/-- **`gc_create`** leaves nothing in use. -/
theorem gcCreate_run {cellSize : ℕ} (hcell : cellSize < 2 ^ 62) (vars : Var → Option Addr)
    (heap : Addr → MetaObj) : ∃ w, gcCreate ⟨zeroed cellSize vars heap, []⟩ = .ok ((), w) ∧ Sound w := by
  refine ⟨_, rfl, ?_, by simp⟩
  exact
    { nodup := List.nodup_nil
      colour := Or.inl rfl
      active := fun _ h => absurd h List.not_mem_nil
      dead := fun _ h => absurd h List.not_mem_nil
      perm := fun _ h => absurd h List.not_mem_nil
      closed := fun _ h => h.elim (absurd · List.not_mem_nil) (absurd · List.not_mem_nil)
      roots := fun _ h => absurd h List.not_mem_nil
      typed := fun _ h => h.elim (absurd · List.not_mem_nil) (absurd · List.not_mem_nil)
      arrayType := Nat.zero_lt_one
      protect := le_rfl
      sized := fun _ h => absurd h List.not_mem_nil
      cells := hcell }

end Steps

/-! ## One call

Soundness and reachability are kept by every call, also by those that sweep.  What a sweep does besides is said
for the calls that sweep, and both are put together in `exec_ends`. -/

section Calls

variable {C : Calloc} {n : ℕ} {w : World}

/-- What a call keeps: soundness, and the objects that were reachable. -/
def Keeps (w w' : World) : Prop := Sound w' ∧ ∀ a, w.gc.Reachable a → w'.gc.Live a

variable {stop : Stop → Prop}

/-- A sweep keeps what a call has to keep. -/
theorem Swept.keeps {w' : World} (h : Swept w w') : Keeps w w' :=
  ⟨h.1, fun a ha => (h.2.object a ha).1⟩

/-- A call that takes no object off the lists in use. -/
theorem keeps_of_live (hw : Sound w) {g : GcMs} (hg : Inv g) (hlive : ∀ a, w.gc.Live a → g.Live a) :
    Keeps w ⟨g, w.log⟩ :=
  ⟨⟨hg, hw.safe⟩, fun a ha => hlive a (hw.inv.live_of_reachable ha)⟩

/-- **Storing a pointer.** -/
theorem store_ends (hw : Sound w) {place : Place} {p : Option Addr}
    (hplace : Allowed w.gc (.write place p)) :
    Ends stop (store place p) w fun _ w' => ∃ g, w' = ⟨g, w.log⟩ ∧ Inv g ∧
      ∀ a, w.gc.Live a → g.Live a := by
  cases place with
  | var v => exact ends_of_eq rfl ⟨_, rfl, hw.inv.storeVar hplace, fun _ h => h⟩
  | field a offset =>
    obtain ⟨ha, ⟨-, hin⟩, hp⟩ := hplace
    refine ends_bind.mpr (ends_of_eq (load_run ha.mem_blocks) ?_)
    rw [if_pos (show objectOffset + offset + ptrSize ≤ (w.gc.heap a).block from hin)]
    exact ends_of_eq rfl ⟨_, rfl, hw.inv.storeField hp, fun _ h => h⟩

/-- **An allocation whose result is stored.** -/
theorem alloc_store_ends (hw : Sound w) {ret : Place} (hret : w.gc.Receives ret) {perm : Bool}
    {size : ℕ} {typeDef : ℤ} (htype : typeDef < w.gc.typeDefs.length)
    (hroom : ¬ w.gc.RoomFor size → stop .outOfBlock) (hstop : ∀ e, Unfinished w.gc e → stop e) :
    Ends stop (do store ret (some (← allocWith C (gcSweep C n) perm size typeDef))) w
      fun _ w' => Keeps w w' := by
  have hsweep := (gcSweep_ends (C := C) (n := n) hw).allow hstop
  refine (allocWith_ends hw htype hroom fun _ _ => hsweep.mono fun _ _ h => h.1).bind fun a w₂ hw₂ => ?_
  obtain ⟨hsound, w₁, hw₁, hlive, dead, hgc⟩ := hw₂
  have hkeeps : ∀ b, w.gc.Reachable b → b ≠ a ∧ w₂.gc.Live b := fun b hb => by
    have hb₁ := (hw₁.2.object b hb).1
    exact ⟨fun he => hlive (he ▸ hb₁), hgc ▸ (attach_live_iff b).mpr (Or.inr hb₁)⟩
  have hnew : w₂.gc.LivePtr (some a) := fun b hb => by
    obtain rfl : a = b := Option.some.inj hb
    exact hgc ▸ (attach_live_iff a).mpr (Or.inl rfl)
  have hplace : Allowed w₂.gc (.write ret (some a)) := by
    cases ret with
    | var v => exact fun _ => hnew
    | field b offset =>
      obtain ⟨hb, ho, hin⟩ := hret
      obtain ⟨hba, hb₂⟩ := hkeeps b hb
      obtain ⟨-, m, hm⟩ := hw₁.2.object b hb
      obtain ⟨htypes, harray, -⟩ := @attach_fields { w₁.gc with deadList := dead } a
        (w₁.gc.fresh size typeDef) perm
      have hheap : w₂.gc.heap b = { w.gc.heap b with mark := m } := by
        rw [hgc, attach_heap_of_ne hba]
        exact hm
      have hfield : w₂.gc.IsField b offset := by
        refine (GcMs.isField_iff ?_ ?_ ?_ ?_).mpr ho
        · rw [hgc, htypes]
          exact hw₁.2.typeDefs
        · rw [hgc, harray]
          exact hw₁.2.arrayType
        · rw [hheap]
        · rw [hheap]
      have hinBlock : w₂.gc.InBlock b offset := by
        unfold GcMs.InBlock
        rw [hheap]
        exact hin
      exact ⟨hb₂, ⟨hfield, hinBlock⟩, hnew⟩
  refine (store_ends hsound hplace).mono fun _ w₃ hw₃ => ?_
  obtain ⟨g, rfl, hg, hmono⟩ := hw₃
  exact ⟨⟨hg, hsound.safe⟩, fun b hb => hmono b (hkeeps b hb).2⟩

/-- **Any call that respects the interface but a sweep** ends well, or fails as it may. -/
theorem exec_keeps (hw : Sound w) {op : Op} (hop : Allowed w.gc op) (hsweeps : ¬ Sweeps w.gc op) :
    Ends (Fails w.gc op) (exec C n op) w fun _ w' => Keeps w w' := by
  have hinv := hw.inv
  cases op with
  | registerType size =>
    refine ends_bind.mpr (ends_of_eq rfl (ends_pure ?_))
    exact keeps_of_live hw (hinv.registerType { size, rootList := [] }) fun _ h => h
  | registerPointer type offset =>
    obtain ⟨d, -, hunused, -⟩ := hop
    exact ends_of_eq rfl (keeps_of_live hw (hinv.registerPtr hunused _) fun _ h => h)
  | registerArray type offset =>
    exact ends_of_eq rfl (keeps_of_live hw (hinv.registerPtr hop.2.1 _) fun _ h => h)
  | registerRoot root =>
    exact ends_of_eq rfl (keeps_of_live hw (hinv.registerRoot hop) fun _ h => h)
  | unregisterRoot root =>
    have hunlink := unlink_eq root hop
    refine ends_bind.mpr (ends_of_eq (t := w) rfl ?_)
    simp only [hunlink, if_true]
    exact ends_of_eq rfl (keeps_of_live hw (hinv.unregisterRoot root) fun _ h => h)
  | alloc perm size ret =>
    exact alloc_store_ends hw hop (by omega) (fun h => Or.inr ⟨rfl, size, rfl, h⟩) fun _ => Or.inl
  | allocType perm type ret =>
    obtain ⟨hlt, hret⟩ := hop
    have hd := List.getElem?_eq_getElem hlt
    refine ends_bind.mpr (ends_bind.mpr (ends_of_eq (t := w) rfl ?_))
    simp only [hd]
    exact ends_bind.mp (alloc_store_ends hw hret (by exact_mod_cast hlt)
      (fun h => Or.inr ⟨rfl, _, by simp only [Op.asks, hd, Option.map_some], h⟩) fun _ => Or.inl)
  | allocPointerArray perm cells ret =>
    have hd := List.getElem?_eq_getElem hinv.arrayType
    refine ends_bind.mpr (ends_bind.mpr (ends_of_eq (t := w) rfl ?_))
    simp only [hd]
    exact ends_bind.mp (alloc_store_ends hw hop (by exact_mod_cast hinv.arrayType)
      (fun h => Or.inr ⟨rfl, _, by simp only [Op.asks, hd, Option.map_some], h⟩) fun _ => Or.inl)
  | write place p =>
    refine (store_ends hw hop).mono fun _ w' hw' => ?_
    obtain ⟨g, rfl, hg, hmono⟩ := hw'
    exact keeps_of_live hw hg hmono
  | dePerm obj =>
    refine ends_bind.mpr (ends_of_eq (load_run hop.mem_blocks) ?_)
    by_cases hm : (w.gc.heap obj).mark = .perm
    · have hmem : obj ∈ w.gc.permList := (hinv.mem_perm_iff hop).mpr hm
      rw [if_neg (not_not.mpr hm)]
      refine ends_bind.mpr (ends_of_eq rfl (ends_bind.mpr (ends_of_eq rfl ?_)))
      simp only [GcMs.put, unlink_eq obj hmem]
      refine ends_of_eq rfl (keeps_of_live hw (hinv.dePerm hmem) fun a ha => ?_)
      rcases ha with ha | ha
      · exact Or.inl (List.mem_cons_of_mem _ ha)
      · rcases eq_or_ne a obj with rfl | hne
        · exact Or.inl List.mem_cons_self
        · exact Or.inr ((List.mem_erase_of_ne hne).mpr ha)
    · rw [if_pos hm]
      exact ends_pure ⟨hw, fun a ha => hinv.live_of_reachable ha⟩
  | protect =>
    have hprotect := hinv.protect
    exact ends_of_eq rfl (keeps_of_live hw
      { hinv with protect := by change 0 ≤ w.gc.protectCount + 1; omega } fun _ h => h)
  | unprotect =>
    have hcount : 0 < w.gc.protectCount := hop
    have hw' := hw.protect (k := w.gc.protectCount - 1) (by omega)
    refine ends_bind.mpr (ends_of_eq rfl (ends_bind.mpr (ends_of_eq rfl ?_)))
    rw [if_neg (by change ¬ w.gc.protectCount - 1 < 0; omega)]
    split
    · next h => exact absurd ⟨by have hone : w.gc.protectCount - 1 = 0 := h.1; omega, h.2⟩ hsweeps
    · exact ends_pure (keeps_of_live hw hw'.inv fun _ h => h)
  | sweep =>
    have hprotected : w.gc.protectCount ≠ 0 := hsweeps
    exact ends_of_eq (sweep_protected hprotected 1) ⟨hw, fun a ha => hinv.live_of_reachable ha⟩

/-- **A call that sweeps** leaves on the active list what was reachable and not permanent. -/
theorem exec_sweeps (hw : Sound w) {op : Op} (hsweeps : Sweeps w.gc op) :
    Ends (Fails w.gc op) (exec C n op) w fun _ w' => Keeps w w' ∧
      ∀ a, a ∈ w'.gc.activeList ↔ w.gc.Reachable a ∧ a ∉ w.gc.permList := by
  cases op with
  | sweep =>
    refine ((gcSweep_ends hw).allow fun _ => Or.inl).mono fun _ w' h => ⟨Swept.keeps h.1, fun a => ?_⟩
    rw [h.2 hsweeps, h.1.2.reachable_iff, h.1.2.permList]
  | unprotect =>
    obtain ⟨hone, hdead⟩ := hsweeps
    have hw' := hw.protect (k := w.gc.protectCount - 1) (by omega)
    refine ends_bind.mpr (ends_of_eq rfl (ends_bind.mpr (ends_of_eq rfl ?_)))
    have hzero : w.gc.protectCount - 1 = 0 := by omega
    rw [if_neg (by change ¬ w.gc.protectCount - 1 < 0; omega), if_pos ⟨hzero, hdead⟩]
    refine ((gcSweep_ends hw').allow fun _ => Or.inl).mono fun _ w'' h => ?_
    refine ⟨⟨h.1.1, fun a ha => (h.1.2.object a ha).1⟩, fun a => ?_⟩
    rw [h.2 hzero, h.1.2.reachable_iff, h.1.2.permList]
    rfl
  | _ => exact hsweeps.elim

/-- **Any call that respects the interface** ends well, or fails as it may. -/
theorem exec_ends (hw : Sound w) {op : Op} (hop : Allowed w.gc op) :
    Ends (Fails w.gc op) (exec C n op) w fun _ w' => Keeps w w' ∧ (Sweeps w.gc op →
      ∀ a, a ∈ w'.gc.activeList ↔ w.gc.Reachable a ∧ a ∉ w.gc.permList) := by
  by_cases hsweeps : Sweeps w.gc op
  · exact (exec_sweeps hw hsweeps).mono fun _ _ h => ⟨h.1, fun _ => h.2⟩
  · exact (exec_keeps hw hop hsweeps).mono fun _ _ h => ⟨h, fun h => absurd h hsweeps⟩

end Calls

/-! ## Runs

What is said of the collector is about whole runs: the invariant speaks of a single state, and the log
of every sweep and every allocation on the way to it. -/

/-- **A run of the collector**: `gc_create`, then calls that respect the interface and whose mark
phases come to their end. -/
inductive Runs (C : Calloc) (cellSize : ℕ) : World → Prop
  | create {vars : Var → Option Addr} {heap : Addr → MetaObj} {w : World} : cellSize < 2 ^ 62 →
    gcCreate ⟨zeroed cellSize vars heap, []⟩ = .ok ((), w) → Runs C cellSize w
  | call {w w' : World} {op : Op} {n : ℕ} : Runs C cellSize w → Allowed w.gc op →
    exec C n op w = .ok ((), w') → Runs C cellSize w'

/-- **Every state of a run is sound**, by induction over its calls. -/
theorem Runs.sound {C : Calloc} {cellSize : ℕ} {w : World} (h : Runs C cellSize w) : Sound w := by
  induction h with
  | create hcell hrun =>
    obtain ⟨w', hrun', hw'⟩ := gcCreate_run hcell _ _
    cases hrun'.symm.trans hrun
    exact hw'
  | call _ hop hrun ih => exact ((exec_ends ih hop).of_ok hrun).1.1

/-- A `calloc` that gives out the address after the highest block. -/
def bump : Calloc where
  pick _ blocks _ := blocks.foldr max 0 + 1
  fresh _ blocks _ hmem := by
    have hle : ∀ {l : List Addr} {a : Addr}, a ∈ l → a ≤ l.foldr max 0 := fun {l a} ha => by
      induction l with
      | nil => exact absurd ha List.not_mem_nil
      | cons b l ih =>
        rcases List.mem_cons.mp ha with rfl | ha
        · exact Nat.le_max_left _ _
        · exact (ih ha).trans (Nat.le_max_right _ _)
    exact absurd (hle hmem) (Nat.not_succ_le_self _)

end Insomniac.Gc

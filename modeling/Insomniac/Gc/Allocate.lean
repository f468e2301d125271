import Insomniac.Gc.Collect

/-!
# Gc/Allocate — allocation, and the sweeps nested in it

A new object is a block that was on no list, or the head of the dead list: it was not live, so
nothing live points at it, and its own pointers are zero.  Hanging it on a list changes the graph at
that object only (`Inv.attach`, `attach_sameGraph`).
-/

open Traversal Run

namespace Insomniac.Gc

variable {C : Calloc} {n : ℕ} {stop : Stop → Prop}

/-! ## A block on a list

Hanging a block on a list touches the heap at that block alone.  Whatever was in use stays in use and keeps its
pointers, and the new object points at nothing: so the graph gains one vertex without edges. -/

/-- Taking the first block off the dead list. -/
theorem Inv.tail {g : GcMs} (hg : Inv g) {a : Addr} {dead : List Addr}
    (hdead : g.deadList = a :: dead) :
    Inv { g with deadList := dead } ∧ a ∉ ({ g with deadList := dead } : GcMs).blocks := by
  obtain ⟨hA, hD, hP, hAD, hAP, hDP⟩ := nodup_append₃.mp hg.nodup
  rw [hdead] at hD hAD hDP
  obtain ⟨had, hD⟩ := List.nodup_cons.mp hD
  refine ⟨{ hg with
    nodup := nodup_append₃.mpr ⟨hA, hD, hP, fun b hb hbd => ?_, hAP, fun b hb => ?_⟩
    dead := fun b hb => ?_
    sized := fun b hb => hg.sized b ?_ }, fun hmem => ?_⟩
  · exact hAD b hb (List.mem_cons_of_mem _ hbd)
  · exact hDP b (List.mem_cons_of_mem _ hb)
  · exact hg.dead b (hdead ▸ List.mem_cons_of_mem _ hb)
  · simp only [GcMs.blocks, hdead, List.mem_append, List.mem_cons] at hb ⊢
    tauto
  · simp only [GcMs.blocks, List.mem_append] at hmem
    rcases hmem with (hmem | hmem) | hmem
    · exact hAD a hmem (by simp)
    · exact had hmem
    · exact hDP a (by simp) hmem

section Attach

variable {g : GcMs} {a : Addr} {o : MetaObj} {perm : Bool}

/-- One more object is in use. -/
theorem attach_live_iff (b : Addr) : (g.attach perm a o).Live b ↔ b = a ∨ g.Live b := by
  cases perm
  · simp [GcMs.attach, GcMs.Live, GcMs.put, or_assoc]
  · simp [GcMs.attach, GcMs.Live, GcMs.put, or_left_comm]

/-- The object on the list has the mark of the list. -/
theorem attach_heap_self :
    (g.attach perm a o).heap a = { o with mark := if perm then .perm else g.currentMark } := by
  cases perm <;> simp [GcMs.attach, GcMs.put]

/-- Every other object is as it was. -/
theorem attach_heap_of_ne {b : Addr} (hb : b ≠ a) : (g.attach perm a o).heap b = g.heap b := by
  cases perm <;> simp [GcMs.attach, GcMs.put, hb]

/-- The types, the roots and the variables are as they were, and so are the counters. -/
theorem attach_fields : (g.attach perm a o).typeDefs = g.typeDefs ∧
    (g.attach perm a o).arrayType = g.arrayType ∧ (g.attach perm a o).rootList = g.rootList ∧
    (g.attach perm a o).vars = g.vars ∧ (g.attach perm a o).cellSize = g.cellSize ∧
    (g.attach perm a o).protectCount = g.protectCount ∧
    (g.attach perm a o).currentMark = g.currentMark ∧
    (g.attach perm a o).deadList = g.deadList := by
  cases perm <;> exact ⟨rfl, rfl, rfl, rfl, rfl, rfl, rfl, rfl⟩

/-- One more block is on a list. -/
theorem mem_attach_blocks {b : Addr} (hb : b ∈ (g.attach perm a o).blocks) : b = a ∨ b ∈ g.blocks := by
  cases perm
  · simp only [GcMs.blocks, GcMs.attach, GcMs.put, List.mem_append, List.mem_cons, Bool.false_eq_true,
      if_false] at hb ⊢
    tauto
  · simp only [GcMs.blocks, GcMs.attach, GcMs.put, List.mem_append, List.mem_cons, if_true] at hb ⊢
    tauto

/-- An object that was there points where it did. -/
theorem attach_points_iff {b c : Addr} (hb : b ≠ a) :
    (g.attach perm a o).Points b c ↔ g.Points b c := by
  obtain ⟨htypes, harray, -⟩ := @attach_fields g a o perm
  simp only [GcMs.Points, GcMs.IsField, GcMs.Covers, attach_heap_of_ne hb, htypes, harray]

/-- **A zeroed object on a block of no list** keeps the invariant. -/
theorem Inv.attach (hg : Inv g) (ha : a ∉ g.blocks) (hslots : ∀ i, o.slots i = none)
    (htype : o.typeDef < g.typeDefs.length) (hblock : o.block = g.mallocSize (realSize o.size)) :
    Inv (g.attach perm a o) := by
  obtain ⟨htypes, harray, hroots, hvars, hcell, hprotect, hcolour, hdead⟩ :=
    @attach_fields g a o perm
  obtain ⟨hA, hD, hP, hAD, hAP, hDP⟩ := nodup_append₃.mp hg.nodup
  have hne : ∀ b ∈ g.blocks, b ≠ a := fun b hb hba => ha (hba ▸ hb)
  simp only [GcMs.blocks, List.mem_append, not_or] at ha hne
  obtain ⟨⟨haA, haD⟩, haP⟩ := ha
  have hlive : ∀ b, g.Live b → b ≠ a := fun b hb hba => hb.elim (hba ▸ haA) (hba ▸ haP)
  have hmalloc : (g.attach perm a o).mallocSize = g.mallocSize := by
    funext size
    simp only [GcMs.mallocSize, GcMs.sizeGranularity, hcell]
  refine
    { nodup := ?_
      colour := hcolour ▸ hg.colour
      active := fun b hb => ?_
      dead := fun b hb => ?_
      perm := fun b hb => ?_
      closed := fun b hb c hbc => ?_
      roots := fun v hv b hvb => ?_
      typed := fun b hb => ?_
      arrayType := ?_
      protect := hprotect ▸ hg.protect
      sized := fun b hb => ?_
      cells := hcell ▸ hg.cells }
  · refine nodup_append₃.mpr ?_
    cases perm
    · exact ⟨List.nodup_cons.mpr ⟨haA, hA⟩, hD, hP, List.forall_mem_cons.mpr ⟨haD, hAD⟩,
        List.forall_mem_cons.mpr ⟨haP, hAP⟩, hDP⟩
    · refine ⟨hA, hD, List.nodup_cons.mpr ⟨haP, hP⟩, hAD, fun b hb hmem => ?_, fun b hb hmem => ?_⟩
      · rcases List.mem_cons.mp hmem with rfl | hmem
        · exact haA hb
        · exact hAP b hb hmem
      · rcases List.mem_cons.mp hmem with rfl | hmem
        · exact haD hb
        · exact hDP b hb hmem
  · rw [hcolour]
    cases perm
    · rcases List.mem_cons.mp hb with rfl | hb
      · simp [attach_heap_self]
      · rw [attach_heap_of_ne (hlive b (Or.inl hb))]
        exact hg.active b hb
    · rw [attach_heap_of_ne (hlive b (Or.inl hb))]
      exact hg.active b hb
  · rw [hdead] at hb
    rw [hcell, attach_heap_of_ne (hne b (Or.inl (Or.inr hb)))]
    exact hg.dead b hb
  · cases perm
    · rw [attach_heap_of_ne (hlive b (Or.inr hb))]
      exact hg.perm b hb
    · rcases List.mem_cons.mp hb with rfl | hb
      · simp [attach_heap_self]
      · rw [attach_heap_of_ne (hlive b (Or.inr hb))]
        exact hg.perm b hb
  · rcases (attach_live_iff b).mp hb with rfl | hb
    · obtain ⟨offset, -, hslot⟩ := hbc
      rw [attach_heap_self] at hslot
      exact absurd ((hslots offset).symm.trans hslot) (by simp)
    · exact (attach_live_iff c).mpr
        (Or.inr (hg.closed b hb c ((attach_points_iff (hlive b hb)).mp hbc)))
  · rw [hroots] at hv
    rw [hvars] at hvb
    exact (attach_live_iff b).mpr (Or.inr (hg.roots v hv b hvb))
  · rw [htypes]
    rcases (attach_live_iff b).mp hb with rfl | hb
    · rw [attach_heap_self]
      exact htype
    · rw [attach_heap_of_ne (hlive b hb)]
      exact hg.typed b hb
  · rw [harray, htypes]
    exact hg.arrayType
  · rw [hmalloc]
    by_cases hba : b = a
    · rw [hba, attach_heap_self]
      exact hblock
    · rw [attach_heap_of_ne hba]
      exact hg.sized b ((mem_attach_blocks hb).resolve_left hba)

end Attach

/-! ## The allocation functions

The three of them are one program with a size and a type, over the sweep that `internal_alloc` may call.  The
state is followed from the block that is taken to the list that it hangs on. -/

/-- A zeroed object of some size, in the block that `gc_malloc` makes of it. -/
def GcMs.fresh (g : GcMs) (size : ℕ) (typeDef : ℤ) : MetaObj :=
  { zeroedObj with size, typeDef, block := g.mallocSize (realSize size) }

/-- The block for an object of that size holds its header. -/
def GcMs.RoomFor (g : GcMs) (size : ℕ) : Prop := objectOffset ≤ g.mallocSize (realSize size)

/-- The state an allocation ends in, from the state before the block was taken. -/
def Allocated (g g' : GcMs) (perm : Bool) (a : Addr) (size : ℕ) (typeDef : ℤ) : Prop :=
  ¬ g.Live a ∧ ∃ dead, g' = ({ g with deadList := dead } : GcMs).attach perm a (g.fresh size typeDef)

/-- Setting the type of an object just hung on a list is hanging it there with that type. -/
theorem attach_setType {g : GcMs} {perm : Bool} {a : Addr} {o : MetaObj} {typeDef : ℤ} :
    (g.attach perm a o).put a { (g.attach perm a o).heap a with typeDef } =
      g.attach perm a { o with typeDef } := by
  cases perm <;> simp [GcMs.attach, GcMs.put]

/-- **The block of a new object**: it was on no list, or the head of the dead list; and it has the bytes
that `gc_malloc` makes of the size, whichever it was. -/
theorem takeBlock_ends {w : World} (hw : Sound w) {size : ℕ}
    (hstop : ¬ w.gc.RoomFor size → stop .outOfBlock) :
    Ends stop (takeBlock C size) w fun r w' => r.2 = w.gc.mallocSize (realSize size) ∧ ∃ dead,
      w' = ⟨{ w.gc with deadList := dead }, w.log⟩ ∧ Inv { w.gc with deadList := dead } ∧
        r.1 ∉ ({ w.gc with deadList := dead } : GcMs).blocks ∧ ¬ w.gc.Live r.1 := by
  obtain ⟨g, log⟩ := w
  have hg : Inv g := hw.inv
  have hmalloc : Ends stop (mallocBlock C size) ⟨g, log⟩ fun r w' =>
      r.2 = g.mallocSize (realSize size) ∧ ∃ dead, w' = ⟨{ g with deadList := dead }, log⟩ ∧
        Inv { g with deadList := dead } ∧ r.1 ∉ ({ g with deadList := dead } : GcMs).blocks ∧
        ¬ g.Live r.1 := by
    refine ends_bind.mpr (ends_of_eq (t := ⟨g, log⟩) rfl ?_)
    simp only [if_neg hg.granularity_ne_zero]
    split
    · next hsmall => exact ends_throw (hstop (Nat.not_le.mpr hsmall))
    · have hfresh := C.fresh log g.blocks (g.mallocSize (realSize size))
      exact ends_pure ⟨rfl, g.deadList, rfl, hg, hfresh, fun hl => hfresh hl.mem_blocks⟩
  refine ends_bind.mpr (ends_of_eq (t := ⟨g, log⟩) rfl ?_)
  cases hdead : g.deadList with
  | nil => exact hmalloc
  | cons a dead =>
    simp only
    split
    · next hsize =>
      obtain ⟨hinv, hnot⟩ := hg.tail hdead
      have hmem : a ∈ g.deadList := hdead ▸ List.mem_cons_self
      have hblock : (g.heap a).block = g.mallocSize (realSize size) := by
        rw [hg.sized a (by simp [GcMs.blocks, hmem]), (hg.dead a hmem).2, hsize]
      exact ends_of_eq rfl ⟨hblock, dead, rfl, hinv, hnot, hg.not_live_of_dead hmem⟩
    · exact hmalloc

/-- **A new object** on a block that was in no use. -/
theorem newObject_ends {w : World} (hw : Sound w) {perm : Bool} {size : ℕ}
    (hstop : ¬ w.gc.RoomFor size → stop .outOfBlock) :
    Ends stop (newObject C perm size) w fun a w' => ∃ dead,
      Inv { w.gc with deadList := dead } ∧ a ∉ ({ w.gc with deadList := dead } : GcMs).blocks ∧
        ¬ w.gc.Live a ∧ w' = ⟨({ w.gc with deadList := dead } : GcMs).attach perm a (w.gc.fresh size 0),
          .handed w.gc a :: w.log⟩ := by
  refine ends_bind.mpr (ends_of_eq (t := w) rfl ((takeBlock_ends hw hstop).bind fun r w' hr => ?_))
  obtain ⟨hblock, dead, rfl, hinv, hnot, hlive⟩ := hr
  refine ends_of_eq rfl ⟨dead, hinv, hnot, hlive, ?_⟩
  rw [hblock]
  rfl

/-- What a sweep does, however it is nested. -/
abbrev Swept (w w' : World) : Prop := Sound w' ∧ SameGraph w.gc w'.gc

/-- **The allocation functions**, over a sweep that keeps the graph. -/
theorem allocWith_ends {w : World} (hw : Sound w) {sweep : GcM Unit} {perm : Bool} {size : ℕ}
    {typeDef : ℤ} (htype : typeDef < w.gc.typeDefs.length)
    (hstop : ¬ w.gc.RoomFor size → stop .outOfBlock)
    (hsweep : size = w.gc.cellSize → w.gc.deadList = [] →
      Ends stop sweep w fun _ => Swept w) :
    Ends stop (allocWith C sweep perm size typeDef) w fun a w' => Sound w' ∧
      ∃ w₁, Swept w w₁ ∧ Allocated w₁.gc w'.gc perm a size typeDef := by
  have hfirst : Ends stop (internalAllocWith C sweep perm size) w fun a w' =>
      ∃ w₁, Swept w w₁ ∧ ∃ dead, Inv { w₁.gc with deadList := dead } ∧
        a ∉ ({ w₁.gc with deadList := dead } : GcMs).blocks ∧ ¬ w₁.gc.Live a ∧
        w' = ⟨({ w₁.gc with deadList := dead } : GcMs).attach perm a (w₁.gc.fresh size 0),
          .handed w₁.gc a :: w₁.log⟩ := by
    refine ends_bind.mpr (ends_of_eq rfl ?_)
    have hnew : ∀ w₁, Swept w w₁ → Ends stop (newObject C perm size) w₁ fun a w' =>
        ∃ w₁, Swept w w₁ ∧ ∃ dead, Inv { w₁.gc with deadList := dead } ∧
          a ∉ ({ w₁.gc with deadList := dead } : GcMs).blocks ∧ ¬ w₁.gc.Live a ∧
          w' = ⟨({ w₁.gc with deadList := dead } : GcMs).attach perm a (w₁.gc.fresh size 0),
            .handed w₁.gc a :: w₁.log⟩ := fun w₁ hw₁ => by
      refine (newObject_ends hw₁.1 fun hroom => hstop ?_).mono fun a w' h => ⟨w₁, hw₁, h⟩
      simpa only [GcMs.RoomFor, GcMs.mallocSize, GcMs.sizeGranularity, hw₁.2.cellSize] using hroom
    split
    · next h => exact (hsweep h.1 h.2).bind fun _ => hnew
    · exact hnew w ⟨hw, .refl hw.inv⟩
  refine hfirst.bind fun a w' hw' => ?_
  obtain ⟨w₁, hw₁, dead, hinv, hnot, hlive, rfl⟩ := hw'
  refine ends_of_eq rfl ⟨⟨?_, ?_⟩, w₁, hw₁, hlive, dead, attach_setType⟩
  · change Inv (GcMs.put (GcMs.attach _ _ _ _) _ _)
    rw [attach_setType]
    exact hinv.attach hnot (fun _ => rfl) (hw₁.2.typeDefs ▸ htype) rfl
  · intro e he
    rcases List.mem_cons.mp he with rfl | he
    · exact ⟨fun hr => hlive (hw₁.1.inv.live_of_reachable hr), hlive⟩
    · exact hw₁.1.safe e he

/-- An allocation that is not permanent keeps the graph. -/
theorem Allocated.sameGraph {g g' : GcMs} (hg : Inv g) {a : Addr} {size : ℕ} {typeDef : ℤ}
    (h : Allocated g g' false a size typeDef) : SameGraph g g' := by
  obtain ⟨hlive, dead, rfl⟩ := h
  exact
    { rootList := rfl, vars := rfl, permList := rfl, typeDefs := rfl, arrayType := rfl
      cellSize := rfl, protectCount := rfl
      object := fun b hb => by
        have hb := hg.live_of_reachable hb
        refine ⟨(attach_live_iff b).mpr (Or.inr hb), (g.heap b).mark, ?_⟩
        exact attach_heap_of_ne fun hba => hlive (hba ▸ hb) }

/-! ## The sweeps nested in a sweep

A sweep that leaves no dead cell behind calls `pre_alloc`, and `pre_alloc` allocates and unprotects, each of
which may sweep again.  What stops this is `Fruitful`: with a fresh cell on the active list that nothing points
at, the next sweep has something to bury. -/

/-- **A sweep from here leaves a cell on the dead list.** -/
def Fruitful (g : GcMs) : Prop :=
  g.deadList ≠ [] ∨ ∃ a ∈ g.activeList, ¬ g.Reachable a ∧ (g.heap a).size = g.cellSize

/-- A fresh cell is unreachable. -/
theorem Allocated.fruitful {g g' : GcMs} (hg : Inv g) {a : Addr} {typeDef : ℤ}
    (h : Allocated g g' false a g.cellSize typeDef) : Fruitful g' := by
  have hgraph := h.sameGraph hg
  obtain ⟨hlive, dead, rfl⟩ := h
  refine Or.inr ⟨a, by simp [GcMs.attach], fun hr => ?_, ?_⟩
  · exact hlive (hg.live_of_reachable ((hgraph.reachable_iff a).mp hr))
  · rw [attach_heap_self]
    rfl

/-- A sweep under protection does nothing. -/
theorem sweep_protected {w : World} (h : w.gc.protectCount ≠ 0) (depth : ℕ) :
    sweep C n (depth + 1) w = .ok ((), w) := by
  refine (run_bind (t := w) rfl).trans ?_
  rw [if_pos h]
  rfl

/-- The mark phases from here on stop in no way that `stop` does not allow. -/
def Marking (stop : Stop → Prop) (n : ℕ) (w : World) : Prop :=
  ∀ w' e, Swept w w' → markAndSweep n w' = .error e → Unfinished w'.gc e → stop e

/-- Where the graph is kept, mark phases go on to stop in the same ways. -/
theorem Marking.trans {w w' : World} (h : Marking stop n w) (hw' : SameGraph w.gc w'.gc) : Marking stop n w' :=
  fun w'' e hw'' => h w'' e ⟨hw''.1, hw'.trans hw''.2⟩

/-- How the mark phase and `sweep_list` end, by how the mark phase does. -/
theorem Marking.ends {w : World} (h : Marking stop n w) (hw : Sound w) (hprotect : w.gc.protectCount = 0) :
    Ends stop (markAndSweep n) w fun _ w' => Collected w w' :=
  (markAndSweep_ends hw hprotect n).imp_right fun ⟨e, hrun, he⟩ =>
    ⟨e, hrun, h w e ⟨hw, .refl hw.inv⟩ hrun he⟩

/-- **What a sweep that is not protected leaves**, with everything it nests: the same graph, freshly
collected, and a dead block. -/
structure Ready (w w' : World) : Prop where
  swept : Swept w w'
  clean : w'.gc.Clean
  dead : w'.gc.deadList ≠ []

/-- What a sweep leaves is said from any state with the same graph. -/
theorem Ready.after {w w' w'' : World} (h : Ready w' w'') (hw' : SameGraph w.gc w'.gc) : Ready w w'' :=
  ⟨⟨h.swept.1, hw'.trans h.swept.2⟩, h.clean, h.dead⟩

/-- **A fruitful sweep does not nest.** -/
theorem sweep_ends_of_fruitful {w : World} (hw : Sound w) (hprotect : w.gc.protectCount = 0)
    (hmarking : Marking stop n w) (hfruit : Fruitful w.gc) (depth : ℕ) :
    Ends stop (sweep C n (depth + 1)) w fun _ w' => Ready w w' := by
  refine ends_bind.mpr (ends_of_eq (t := w) rfl ?_)
  rw [if_neg (not_not.mpr hprotect)]
  refine (hmarking.ends hw hprotect).bind fun _ w₁ hw₁ => ?_
  have hne : w₁.gc.deadList ≠ [] := by
    rcases hfruit with hold | ⟨a, ha, hr, hsize⟩
    · obtain ⟨a, ha⟩ := List.exists_mem_of_ne_nil _ hold
      exact List.ne_nil_of_mem (hw₁.dead a ha)
    · exact List.ne_nil_of_mem (hw₁.cells a ha hr hsize)
  refine ends_bind.mpr (ends_of_eq (t := w₁) rfl ?_)
  rw [if_neg hne]
  exact ends_pure ⟨⟨hw₁.sound, hw₁.graph⟩, hw₁.clean, hne⟩

/-- Protection is no part of the graph. -/
theorem SameGraph.of_protect {g g' : GcMs} {k : ℤ}
    (h : SameGraph { g with protectCount := k } g') :
    SameGraph g { g' with protectCount := g.protectCount } :=
  { h with protectCount := rfl }

/-- The protection count may be any number that is not negative. -/
theorem Sound.protect {w : World} (hw : Sound w) {k : ℤ} (hk : 0 ≤ k) :
    Sound ⟨{ w.gc with protectCount := k }, w.log⟩ :=
  ⟨{ hw.inv with protect := hk }, hw.safe⟩

/-- **`pre_alloc`** fills the dead list, and nests one sweep deep. -/
theorem preAllocWith_ends {w : World} (hw : Sound w) (hprotect : w.gc.protectCount = 0)
    (hmarking : Marking stop n w) (depth : ℕ) :
    Ends stop (preAllocWith C (sweep C n (depth + 1))) w fun _ w' => Ready w w' := by
  have hw₁ := hw.protect (k := w.gc.protectCount + 1) (by omega)
  unfold preAllocWith
  refine ends_bind.mpr ?_
  refine ends_of_eq (t := ⟨{ w.gc with protectCount := w.gc.protectCount + 1 }, w.log⟩) rfl ?_
  have hloop : Ends stop ((List.range preAllocCells).forM fun _ => do
        let _ ← gcAllocWith C (sweep C n (depth + 1)) false (← getGc).cellSize)
      ⟨{ w.gc with protectCount := w.gc.protectCount + 1 }, w.log⟩ fun _ t =>
        Swept ⟨{ w.gc with protectCount := w.gc.protectCount + 1 }, w.log⟩ t ∧ Fruitful t.gc := by
    refine ends_forM_ne_nil (I := Swept _) (by simp [preAllocCells]) ⟨hw₁, .refl hw₁.inv⟩ (fun _ ht => ht.1)
      fun _ _ t ht => ?_
    have hne : t.gc.protectCount ≠ 0 := by
      rw [ht.2.protectCount]
      change w.gc.protectCount + 1 ≠ 0
      omega
    refine ends_bind.mpr (ends_of_eq rfl (ends_bind.mpr ?_))
    have hneg : (-1 : ℤ) < t.gc.typeDefs.length := by omega
    have hroom : ¬ t.gc.RoomFor t.gc.cellSize → stop .outOfBlock := fun h => absurd ht.1.inv.header_le_cell h
    refine (allocWith_ends ht.1 hneg hroom fun _ _ =>
      ends_of_eq (sweep_protected hne depth) ⟨ht.1, .refl ht.1.inv⟩).mono fun a t' ht' => ?_
    obtain ⟨hsound, t₁, ht₁, halloc⟩ := ht'
    rw [← ht₁.2.cellSize] at halloc
    exact ends_pure ⟨⟨hsound, (ht.2.trans ht₁.2).trans (halloc.sameGraph ht₁.1.inv)⟩,
      halloc.fruitful ht₁.1.inv⟩
  refine hloop.bind fun _ t ht => ?_
  obtain ⟨⟨hsound, hgraph⟩, hfruit⟩ := ht
  have hcount : t.gc.protectCount - 1 = w.gc.protectCount := by
    rw [hgraph.protectCount]
    change w.gc.protectCount + 1 - 1 = _
    omega
  have hsound' := hsound.protect (k := t.gc.protectCount - 1) (by omega)
  have hgraph' : SameGraph w.gc { t.gc with protectCount := t.gc.protectCount - 1 } :=
    hcount ▸ hgraph.of_protect
  -- the unprotect sweeps if it finds no dead block, and then there is one
  refine Ends.bind (?_ : Ends _ _ _ fun _ t' => Swept w t' ∧ Fruitful t'.gc) fun _ t' ht' => ?_
  · refine ends_bind.mpr (ends_of_eq rfl (ends_bind.mpr (ends_of_eq rfl ?_)))
    have hzero : t.gc.protectCount - 1 = 0 := by omega
    rw [if_neg (by change ¬ t.gc.protectCount - 1 < 0; omega)]
    split
    · exact (sweep_ends_of_fruitful hsound' hzero (hmarking.trans hgraph') hfruit depth).mono fun _ t' h =>
        ⟨(h.after hgraph').swept, Or.inl h.dead⟩
    · exact ends_pure ⟨⟨hsound', hgraph'⟩, hfruit⟩
  · obtain ⟨⟨hsound'', hgraph''⟩, hfruit''⟩ := ht'
    refine (sweep_ends_of_fruitful hsound'' (hgraph''.protectCount.trans hprotect)
      (hmarking.trans hgraph'') hfruit'' depth).mono fun _ t'' h => h.after hgraph''

/-- **A sweep that is not protected** leaves the active list freshly collected and a dead block, with
everything it nests. -/
theorem sweep_ends {w : World} (hw : Sound w) (hprotect : w.gc.protectCount = 0)
    (hmarking : Marking stop n w) (depth : ℕ) :
    Ends stop (sweep C n (depth + 2)) w fun _ w' => Ready w w' := by
  refine ends_bind.mpr (ends_of_eq (t := w) rfl ?_)
  rw [if_neg (not_not.mpr hprotect)]
  refine (hmarking.ends hw hprotect).bind fun _ w₁ hw₁ => ?_
  refine ends_bind.mpr (ends_of_eq (t := w₁) rfl ?_)
  split
  · have hpre := preAllocWith_ends (C := C) (n := n) hw₁.sound (hw₁.graph.protectCount.trans hprotect)
      (hmarking.trans hw₁.graph) depth
    exact hpre.mono fun _ w₂ hw₂ => hw₂.after hw₁.graph
  · next hdead => exact ends_pure ⟨⟨hw₁.sound, hw₁.graph⟩, hw₁.clean, hdead⟩

/-- **A sweep keeps the graph**, with everything it nests, and collects unless it is protected. -/
theorem gcSweep_ends {w : World} (hw : Sound w) :
    Ends (Unfinished w.gc) (gcSweep C n) w fun _ w' =>
      Swept w w' ∧ (w.gc.protectCount = 0 → w'.gc.Clean) := by
  by_cases hprotect : w.gc.protectCount = 0
  · have hmarking : Marking (Unfinished w.gc) n w := fun _ _ hw' _ he => hw'.2.unfinished he
    exact (sweep_ends hw hprotect hmarking 0).mono fun _ _ h => ⟨h.swept, fun _ => h.clean⟩
  · exact ends_of_eq (sweep_protected hprotect 1) ⟨⟨hw, .refl hw.inv⟩, fun h => absurd h hprotect⟩

end Insomniac.Gc

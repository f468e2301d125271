import Insomniac.Gc.Marking
import Mathlib.Data.List.Nodup

/-!
# Gc/Collect — sweeping and allocating keep the graph

`SameGraph g g'` says that `g'` has the roots of `g` and every object reachable in `g`, with the
same content.  A sweep keeps the graph and so does an allocation; hence so do the thousand
allocations and two sweeps that `pre_alloc` nests inside a sweep.  They nest no further: the
thousand fresh cells are unreachable, so the next sweep fills the dead list (`Fruitful`).
-/

open Traversal Run

namespace Insomniac.Gc

/-- **Everything reachable is still there**, with its content. -/
structure SameGraph (g g' : GcMs) : Prop where
  rootList : g'.rootList = g.rootList
  vars : g'.vars = g.vars
  permList : g'.permList = g.permList
  typeDefs : g'.typeDefs = g.typeDefs
  arrayType : g'.arrayType = g.arrayType
  cellSize : g'.cellSize = g.cellSize
  protectCount : g'.protectCount = g.protectCount
  object : ∀ a, g.Reachable a → g'.Live a ∧ ∃ m, g'.heap a = { g.heap a with mark := m }

/-- **Freshly collected**: the active list holds the reachable objects that are not permanent, and
nothing else. -/
def GcMs.Clean (g : GcMs) : Prop := ∀ a, a ∈ g.activeList ↔ g.Reachable a ∧ a ∉ g.permList

/-- **What may be said of every event.** -/
def Event.Safe : Event → Prop
  | swept before after =>
    before.protectCount = 0 ∧ SameGraph before after ∧
      (∀ a, after.Reachable a ↔ before.Reachable a) ∧ after.Clean
  | handed before obj => ¬ before.Reachable obj ∧ ¬ before.Live obj

/-- The invariant, and a log of safe events. -/
structure Sound (w : World) : Prop where
  inv : Inv w.gc
  safe : ∀ e ∈ w.log, e.Safe

namespace SameGraph

variable {g g' g'' : GcMs} {a b : Addr}

/-- Nothing has happened to the graph. -/
theorem refl (hg : Inv g) : SameGraph g g :=
  ⟨rfl, rfl, rfl, rfl, rfl, rfl, rfl, fun _ ha => ⟨hg.live_of_reachable ha, _, rfl⟩⟩

/-- A reachable object points where it did. -/
theorem points_iff (h : SameGraph g g') (ha : g.Reachable a) : g'.Points a b ↔ g.Points a b := by
  obtain ⟨-, m, hm⟩ := h.object a ha
  simp only [GcMs.Points, GcMs.IsField, GcMs.Covers, hm, h.typeDefs, h.arrayType]

/-- A mark phase begins with the same objects. -/
theorem rootSet_eq (h : SameGraph g g') : g'.rootSet = g.rootSet := by
  simp only [GcMs.rootSet, h.permList, h.rootList, h.vars]

/-- **The same objects are reachable**: a path from a root stays one, in both directions. -/
theorem reachable_iff (h : SameGraph g g') (a : Addr) : g'.Reachable a ↔ g.Reachable a := by
  constructor
  · exact fun hr => hr.trans (fun b hb => .base (h.rootSet_eq ▸ hb))
      fun b hb c hbc => hb.step ((h.points_iff hb).mp hbc)
  · intro hr
    have hboth := hr.mem_of_closed (S := {a | g.Reachable a ∧ g'.Reachable a})
      (fun b hb => ⟨.base hb, .base (h.rootSet_eq ▸ hb)⟩)
      fun b hb c hbc => ⟨hb.1.step hbc, hb.2.step ((h.points_iff hb.1).mpr hbc)⟩
    exact hboth.2

/-- A block that holds a reachable object goes on to hold it. -/
theorem holds_iff (h : SameGraph g g') (ha : g.Reachable a) : g'.Holds a ↔ g.Holds a := by
  obtain ⟨-, m, hm⟩ := h.object a ha
  exact GcMs.holds_iff h.typeDefs h.arrayType hm

/-- **How a mark phase may fail** is read off the graph. -/
theorem unfinished (h : SameGraph g g') {e : Stop} (he : Unfinished g' e) : Unfinished g e := by
  refine he.imp_right fun ⟨he, a, ha, hholds⟩ => ?_
  have ha' := (h.reachable_iff a).mp ha
  exact ⟨he, a, ha', fun hh => hholds ((h.holds_iff ha').mpr hh)⟩

/-- Two changes that keep the graph keep it together. -/
theorem trans (h : SameGraph g g') (h' : SameGraph g' g'') : SameGraph g g'' where
  rootList := h'.rootList.trans h.rootList
  vars := h'.vars.trans h.vars
  permList := h'.permList.trans h.permList
  typeDefs := h'.typeDefs.trans h.typeDefs
  arrayType := h'.arrayType.trans h.arrayType
  cellSize := h'.cellSize.trans h.cellSize
  protectCount := h'.protectCount.trans h.protectCount
  object a ha := by
    obtain ⟨-, m, hm⟩ := h.object a ha
    obtain ⟨hlive, m', hm'⟩ := h'.object a ((h.reachable_iff a).mpr ha)
    exact ⟨hlive, m', by rw [hm', hm]⟩

end SameGraph

/-! ## sweep_list

The loop rebuilds the active list from the blocks that carry the new mark.  What the mark phase has coloured are
the reachable objects that are not permanent, so these are the blocks that stay (`mem_swept_activeList`), and
what leaves the list was not in the graph. -/

/-- What `sweep_list` does with the blocks: marked ones stay active, unmarked cells die, and the
rest is freed. -/
theorem sweepLoop_eq (mark : Mark) (cellSize : ℕ) : ∀ (list newActive dead : List Addr)
    (heap : Addr → MetaObj), list.Nodup →
    sweepLoop mark cellSize list newActive dead heap =
      ((list.filter fun a => (heap a).mark = mark).reverse ++ newActive,
        (list.filter fun a => (heap a).mark ≠ mark ∧ (heap a).size = cellSize).reverse ++ dead,
        fun a => if a ∈ list ∧ (heap a).mark ≠ mark ∧ (heap a).size = cellSize then
          { heap a with mark := .dead } else heap a)
  | [], newActive, dead, heap, _ => by simp [sweepLoop]
  | a :: next, newActive, dead, heap, hnd => by
      obtain ⟨ha, hnext⟩ := List.nodup_cons.mp hnd
      have hrec := fun newActive dead heap => sweepLoop_eq mark cellSize next newActive dead heap hnext
      by_cases hm : (heap a).mark = mark
      · rw [sweepLoop, if_pos hm, hrec]
        simp only [Prod.mk.injEq]
        refine ⟨by simp [hm], by simp [hm], ?_⟩
        funext b
        rcases eq_or_ne b a with rfl | hb
        · simp [hm]
        · simp [hb]
      · by_cases hs : (heap a).size = cellSize
        · rw [sweepLoop, if_neg hm, if_pos hs, hrec]
          have hother : ∀ b ∈ next,
              Function.update heap a { heap a with mark := .dead } b = heap b := fun b hb =>
            Function.update_of_ne (fun hba : b = a => ha (hba ▸ hb)) _ _
          simp only [Prod.mk.injEq]
          refine ⟨?_, ?_, ?_⟩
          · rw [List.filter_cons_of_neg (by simp [hm]),
              List.filter_congr fun b hb => by rw [hother b hb]]
          · rw [List.filter_cons_of_pos (by simp [hm, hs]),
              List.filter_congr fun b hb => by rw [hother b hb]]
            simp
          · funext b
            rcases eq_or_ne b a with rfl | hb
            · simp [ha, hm, hs]
            · simp [hb]
        · rw [sweepLoop, if_neg hm, if_neg hs, hrec]
          simp only [Prod.mk.injEq]
          refine ⟨by simp [hm], by simp [hs], ?_⟩
          funext b
          rcases eq_or_ne b a with rfl | hb
          · simp [ha, hs]
          · simp [hb]

/-- Three lists without duplicates and without common elements, said of them together and one by one. -/
theorem nodup_append₃ {α : Type} {l₁ l₂ l₃ : List α} : (l₁ ++ l₂ ++ l₃).Nodup ↔
    l₁.Nodup ∧ l₂.Nodup ∧ l₃.Nodup ∧ (∀ a ∈ l₁, a ∉ l₂) ∧ (∀ a ∈ l₁, a ∉ l₃) ∧
      ∀ a ∈ l₂, a ∉ l₃ := by
  simp only [List.nodup_append, List.mem_append]
  constructor
  · rintro ⟨⟨h₁, h₂, h₁₂⟩, h₃, h⟩
    exact ⟨h₁, h₂, h₃, fun a ha ha' => h₁₂ a ha a ha' rfl, fun a ha ha' => h a (Or.inl ha) a ha' rfl,
      fun a ha ha' => h a (Or.inr ha) a ha' rfl⟩
  · rintro ⟨h₁, h₂, h₃, h₁₂, h₁₃, h₂₃⟩
    refine ⟨⟨h₁, h₂, fun a ha b hb hab => h₁₂ a ha (hab ▸ hb)⟩, h₃, fun a ha b hb hab => ?_⟩
    rcases ha with ha | ha
    · exact h₁₃ a ha (hab ▸ hb)
    · exact h₂₃ a ha (hab ▸ hb)

/-- The collector after a mark phase that left the heap `h`, and `sweep_list`. -/
def GcMs.swept (g : GcMs) (mark : Mark) (h : Addr → MetaObj) : GcMs :=
  { g with
    currentMark := mark
    activeList := (g.activeList.filter fun a => (h a).mark = mark).reverse
    deadList := (g.activeList.filter fun a =>
      (h a).mark ≠ mark ∧ (h a).size = g.cellSize).reverse ++ g.deadList
    heap := fun a => if a ∈ g.activeList ∧ (h a).mark ≠ mark ∧ (h a).size = g.cellSize then
      { h a with mark := .dead } else h a }

section Swept

variable {g : GcMs} {mark : Mark} {h : Addr → MetaObj}

/-- `sweep_list` behind a mark phase, as one new state of the collector. -/
theorem sweepList_run (hg : Inv g) (hprotect : g.protectCount = 0) {log : List Event} :
    sweepList mark ⟨g.during mark h, log⟩ = .ok ((), ⟨g.swept mark h, log⟩) := by
  have hnd := (nodup_append₃.mp hg.nodup).1
  have hloop := sweepLoop_eq mark g.cellSize g.activeList [] g.deadList h hnd
  refine (run_bind (t := ⟨g.during mark h, log⟩) rfl).trans ?_
  simp only [GcMs.during, hprotect, ne_eq, not_true, if_false, hloop, GcMs.swept, List.append_nil]
  rfl

variable (hg : Inv g) (hh : Recoloured mark g h)
  (hmarked : ∀ a, g.Live a → ((h a).mark = mark ↔ g.Reachable a ∧ a ∉ g.permList))

include hg hmarked in
/-- **The active list after `sweep_list`**: what is reachable and not permanent. -/
theorem mem_swept_activeList (a : Addr) :
    a ∈ (g.swept mark h).activeList ↔ g.Reachable a ∧ a ∉ g.permList := by
  simp only [GcMs.swept, List.mem_reverse, List.mem_filter, decide_eq_true_eq]
  constructor
  · rintro ⟨ha, hm⟩
    exact (hmarked a (Or.inl ha)).mp hm
  · rintro ⟨hr, hp⟩
    have hlive := hg.live_of_reachable hr
    exact ⟨hlive.resolve_right hp, (hmarked a hlive).mpr ⟨hr, hp⟩⟩

include hg hmarked in
/-- What is in use after `sweep_list` is what was reachable. -/
theorem swept_live_iff (a : Addr) : (g.swept mark h).Live a ↔ g.Reachable a := by
  unfold GcMs.Live
  rw [mem_swept_activeList hg hmarked]
  constructor
  · rintro (hr | hp)
    · exact hr.1
    · exact .base (Or.inl hp)
  · intro hr
    by_cases hp : a ∈ g.permList
    · exact Or.inr hp
    · exact Or.inl ⟨hr, hp⟩

include hg hmarked in
/-- `sweep_list` writes no live object. -/
theorem swept_heap_of_reachable {a : Addr} (ha : g.Reachable a) :
    (g.swept mark h).heap a = h a := by
  refine if_neg fun ⟨hact, hm, _⟩ => hm ((hmarked a (Or.inl hact)).mpr ⟨ha, fun hp => ?_⟩)
  exact hg.not_active_of_perm hp hact

include hg hh hmarked in
/-- **A mark phase and `sweep_list` keep the graph.** -/
theorem swept_sameGraph : SameGraph g (g.swept mark h) where
  rootList := rfl
  vars := rfl
  permList := rfl
  typeDefs := rfl
  arrayType := rfl
  cellSize := rfl
  protectCount := rfl
  object a ha := by
    obtain ⟨m, hm⟩ := hh.eq a
    exact ⟨(swept_live_iff hg hmarked a).mpr ha, m,
      (swept_heap_of_reachable hg hmarked ha).trans hm⟩

include hh in
/-- Nothing but marks changes. -/
theorem swept_heap (a : Addr) : ∃ m, (g.swept mark h).heap a = { g.heap a with mark := m } := by
  obtain ⟨m, hm⟩ := hh.eq a
  by_cases hact : a ∈ g.activeList ∧ (h a).mark ≠ mark ∧ (h a).size = g.cellSize
  · exact ⟨.dead, (if_pos hact).trans (by rw [hm])⟩
  · exact ⟨m, (if_neg hact).trans hm⟩

/-- No block is new. -/
theorem swept_blocks {a : Addr} (ha : a ∈ (g.swept mark h).blocks) : a ∈ g.blocks := by
  simp only [GcMs.blocks, GcMs.swept, List.mem_append, List.mem_reverse, List.mem_filter] at ha ⊢
  tauto

include hg hh hmarked in
/-- **They keep the invariant.** -/
theorem swept_inv (hmark : mark = .red ∨ mark = .black) : Inv (g.swept mark h) := by
  have hgraph := swept_sameGraph hg hh hmarked
  have hlive := swept_live_iff hg hmarked
  obtain ⟨hndA, hndD, hndP, hAD, hAP, hDP⟩ := nodup_append₃.mp hg.nodup
  have hnotlive : ∀ a, ¬ g.Live a → h a = g.heap a := fun a ha =>
    (hh a).resolve_right fun hl => ha hl.1
  refine
    { nodup := nodup_append₃.mpr ⟨?_, ?_, hndP, ?_, ?_, ?_⟩
      colour := hmark
      active := fun a ha => ?_
      dead := fun a ha => ?_
      perm := fun a ha => ?_
      closed := fun a ha b hab => ?_
      roots := fun v hv a hva => ?_
      typed := fun a ha => ?_
      arrayType := hg.arrayType
      protect := hg.protect
      sized := fun a ha => ?_
      cells := hg.cells }
  · exact List.nodup_reverse.mpr (hndA.filter _)
  · refine List.nodup_append.mpr ⟨List.nodup_reverse.mpr (hndA.filter _), hndD,
      fun a ha b hb hab => ?_⟩
    have ha : a ∈ g.activeList := (List.mem_filter.mp (List.mem_reverse.mp ha)).1
    exact hAD a ha (hab ▸ hb)
  · intro a ha hd
    have hactive : a ∈ g.activeList ∧ (h a).mark = mark := by
      simpa [GcMs.swept] using ha
    rcases List.mem_append.mp hd with hd | hd
    · have hd : a ∈ g.activeList ∧ (h a).mark ≠ mark ∧ (h a).size = g.cellSize := by
        simpa using hd
      exact hd.2.1 hactive.2
    · exact hAD a hactive.1 hd
  · exact fun a ha => ((mem_swept_activeList hg hmarked a).mp ha).2
  · intro a hd hp
    rcases List.mem_append.mp hd with hd | hd
    · exact hAP a ((List.mem_filter.mp (List.mem_reverse.mp hd)).1) hp
    · exact hDP a hd hp
  · have hr := ((mem_swept_activeList hg hmarked a).mp ha)
    rw [swept_heap_of_reachable hg hmarked hr.1]
    exact (hmarked a (hg.live_of_reachable hr.1)).mpr hr
  · rcases List.mem_append.mp ha with ha | ha
    · have ha : a ∈ g.activeList ∧ (h a).mark ≠ mark ∧ (h a).size = g.cellSize := by
        simpa using ha
      have hheap : (g.swept mark h).heap a = { h a with mark := .dead } := if_pos ha
      rw [hheap]
      exact ⟨rfl, ha.2.2⟩
    · have hheap : (g.swept mark h).heap a = h a := if_neg fun hact => hAD a hact.1 ha
      rw [hheap, hnotlive a (hg.not_live_of_dead ha)]
      exact hg.dead a ha
  · have hr : g.Reachable a := .base (Or.inl ha)
    rw [swept_heap_of_reachable hg hmarked hr,
      (hh a).resolve_right fun ⟨_, hp, _⟩ => hp (hg.perm a ha)]
    exact hg.perm a ha
  · have hr := (hlive a).mp ha
    exact (hlive b).mpr (hr.step ((hgraph.points_iff hr).mp hab))
  · exact (hlive a).mpr (.base (Or.inr ⟨v, hv, hva⟩))
  · obtain ⟨-, m, hm⟩ := hgraph.object a ((hlive a).mp ha)
    rw [hm]
    exact hg.typed a (hg.live_of_reachable ((hlive a).mp ha))
  · obtain ⟨m, hm⟩ := swept_heap hh a
    rw [hm]
    exact hg.sized a (swept_blocks ha)

end Swept

/-- The next colour. -/
theorem nextMark_spec {g : GcMs} (hg : Inv g) :
    ((if g.currentMark = .red then Mark.black else .red) = .red ∨
      (if g.currentMark = .red then Mark.black else .red) = .black) ∧
      (if g.currentMark = .red then Mark.black else .red) ≠ g.currentMark := by
  rcases hg.colour with h | h <;> simp [h]

/-- **What marking and `sweep_list` do** from a state that is not protected. -/
structure Collected (w w' : World) : Prop where
  sound : Sound w'
  graph : SameGraph w.gc w'.gc
  holds : ∀ a, w.gc.Reachable a → w.gc.Holds a
  clean : w'.gc.Clean
  dead : ∀ a ∈ w.gc.deadList, a ∈ w'.gc.deadList
  cells : ∀ a ∈ w.gc.activeList, ¬ w.gc.Reachable a → (w.gc.heap a).size = w.gc.cellSize →
    a ∈ w'.gc.deadList

/-- **Marking and `sweep_list`**, from any sound state that is not protected. -/
theorem markAndSweep_ends {w : World} (hw : Sound w) (hprotect : w.gc.protectCount = 0) (n : ℕ) :
    Ends (Unfinished w.gc) (markAndSweep n) w fun _ w' => Collected w w' := by
  obtain ⟨g, log⟩ := w
  have hg : Inv g := hw.inv
  obtain ⟨hmark, hnew⟩ := nextMark_spec hg
  refine ends_bind.mpr (ends_of_eq rfl (ends_bind.mpr (ends_of_eq rfl ?_)))
  refine ends_bind.mpr ((ends_bind.mp (markPhase hg hmark hnew n log)).mono fun _ w₁ hw₁ => ?_)
  refine hw₁.bind fun _ w₂ hw₂ => ?_
  obtain ⟨h, rfl, hh, hholds, hmarked⟩ := hw₂
  refine ends_bind.mpr (ends_of_eq (sweepList_run hg hprotect) ?_)
  have hgraph := swept_sameGraph hg hh hmarked
  have hclean : (g.swept _ h).Clean := fun a => by
    rw [hgraph.reachable_iff]
    exact mem_swept_activeList hg hmarked a
  have hevent : (Event.swept g (g.swept _ h)).Safe := ⟨hprotect, hgraph, hgraph.reachable_iff, hclean⟩
  refine ends_bind.mpr (ends_of_eq rfl (ends_of_eq rfl
    { sound := ⟨swept_inv hg hh hmarked hmark, List.forall_mem_cons.mpr ⟨hevent, hw.safe⟩⟩
      graph := hgraph
      holds := hholds
      clean := hclean
      dead := fun a ha => List.mem_append_right _ ha
      cells := fun a ha hr hsize => ?_ }))
  refine List.mem_append_left _ (List.mem_reverse.mpr (List.mem_filter.mpr ⟨ha, ?_⟩))
  obtain ⟨m, hm⟩ := hh.eq a
  have hne : (h a).mark ≠ _ := fun hmk => hr ((hmarked a (Or.inl ha)).mp hmk).1
  have hsz : (h a).size = g.cellSize := by rw [hm]; exact hsize
  exact decide_eq_true ⟨hne, hsz⟩

end Insomniac.Gc

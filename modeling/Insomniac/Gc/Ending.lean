import Insomniac.Gc.Runs
import Insomniac.Gc.Search
import Insomniac.Machinery.Fuel

/-!
# Gc/Ending — when marking ends, and that sweeps nest twice at most

Marking ends exactly if it meets no cycle of permanent objects (`mark_graph_ends_iff`): the test at the
head of `mark_graph` stops it at an object that carries the new mark, and a permanent object never does.

Where marking ends, the sweeps nested in a sweep end too.  They mark the same graph, so their mark phases
are the same search (`SameGraph.search`), and the cells `pre_alloc` made are found unreachable:

    sweep ──▸ pre_alloc ──▸ 1000 × gc_alloc, protected ──▸ gc_unprotect ──▸ sweep ──▸ dead cells

So a cell is always taken from the dead list, and taking it moves it to the active or the permanent one
(`newObject_reuses`).
-/

open Traversal Run Fuel

namespace Insomniac.Gc

/-! ## mark_graph

On its own, from any object of a heap whose objects lie in their blocks, and in either colour. -/

section MarkGraph

variable {mark : Mark} {a : Addr}

/-- `mark_graph` on any state that can be marked. -/
theorem markGraph_run {w : World} (hw : Markable w.gc mark) (ha : w.gc.Live a) (n : ℕ) :
    markGraph n (some a) mark w =
      shows w.gc mark w.log (explore w.gc.pointers w.gc.held n (w.gc.entered mark) a) := by
  have h := @markGraph_shows w.gc mark w.log _ hw.toPainted hw.roomy n _ a ha (entered_kept hw.toPainted)
  rwa [coloured_entered] at h

/-- `mark_graph` ends exactly if the search does. -/
theorem explored_of_settles {w w' : World} (hw : Markable w.gc mark) (ha : w.gc.Live a)
    (h : Settles (fun n => markGraph n (some a) mark) w (.ok ((), w'))) :
    ∃ n W', explore w.gc.pointers w.gc.held n (w.gc.entered mark) a = some W' := by
  obtain ⟨n, hrun⟩ := h
  have hshows := (markGraph_run hw ha n).symm.trans (hrun n le_rfl)
  cases hexplore : explore w.gc.pointers w.gc.held n (w.gc.entered mark) a with
  | none =>
    rw [hexplore] at hshows
    cases hshows
  | some W' => exact ⟨n, W', hexplore⟩

/-- **`mark_graph` ends exactly if no cycle of permanent objects is seen from the object**; and then the
objects that are not permanent carry the mark exactly if they did or are seen. -/
theorem mark_graph_ends_iff {w : World} (hw : Markable w.gc mark) (ha : w.gc.Live a) :
    (∃ w', Settles (fun n => markGraph n (some a) mark) w (.ok ((), w')) ∧
      ∀ b, w.gc.Live b → (w.gc.heap b).mark ≠ .perm →
        ((w'.gc.heap b).mark = mark ↔ (w.gc.heap b).mark = mark ∨ w.gc.Sees mark a b)) ↔
      ∀ b, w.gc.Sees mark a b → ¬ w.gc.PermCycle b := by
  rw [← explore_ends_iff_perm hw.toPainted ha]
  constructor
  · exact fun ⟨_, hsettles, _⟩ => explored_of_settles hw ha hsettles
  · rintro ⟨n, W', h⟩
    refine ⟨⟨w.gc.coloured mark W', w.log⟩, ⟨n, fun m hm => ?_⟩, fun b hb hperm =>
      mark_of_explored hw.toPainted ha h hb hperm⟩
    exact (markGraph_run hw ha m).trans (congrArg (shows w.gc mark w.log) (explore_mono h hm))

/-- Three objects with a pointer each, at offset 8: the permanent `1` ▸ `2` ▸ `3` ▸ `2`. -/
def ring : GcMs :=
  { zeroed 24 (fun _ => none) (fun a => { zeroedObj with
      mark := if a = 1 then .perm else .red
      size := 16
      typeDef := 1
      block := 56
      slots := fun offset => if offset = 8 then some (if a = 2 then 3 else 2) else none }) with
    activeList := [3, 2]
    permList := [1]
    typeDefs := [⟨8, [⟨.array, 0⟩]⟩, ⟨16, [⟨.ptr, 8⟩]⟩] }

/-- The ring can be marked: its pointers lie in their blocks and lead to objects in use. -/
theorem ring_markable : Markable ring .black := by
  have hlive : ∀ {a : Addr}, ring.Live a → a ∈ [1, 2, 3] := fun {a} h => by
    have h : a ∈ [3, 2] ∨ a ∈ [1] := h
    simp only [List.mem_cons, List.not_mem_nil, or_false] at h ⊢
    tauto
  have hback : ∀ a ∈ [1, 2, 3], ring.Live a := by decide
  exact
    { colour := Or.inr rfl
      active := fun a ha => by
        have hall : ∀ a ∈ ring.activeList, (ring.heap a).mark = .red ∨ (ring.heap a).mark = .black := by decide
        exact hall a ha
      perm := fun a ha => by
        have hall : ∀ a ∈ ring.permList, (ring.heap a).mark = .perm := by decide
        exact hall a ha
      closed := fun a ha b hab => by
        have hall : ∀ a ∈ [1, 2, 3], ∀ b ∈ ring.pointers a, b ∈ [1, 2, 3] := by decide
        exact hback b (hall a (hlive ha) b (mem_pointers.mpr hab))
      typed := fun _ _ => show (1 : ℤ) < 2 by decide
      arrayType := by decide
      holds := fun a ha => by
        have hall : ∀ a ∈ [1, 2, 3], ∀ p ∈ ring.fields a, ∀ o ∈ ring.offsets a p, ring.InBlock a o := by decide
        exact holds_iff_fields.mpr (hall a (hlive ha)) }

/-- Marking the ring from its permanent object turns the other two, though they point at each other. -/
theorem mark_graph_ends_ring : ∃ w', Settles (fun n => markGraph n (some 1) .black) ⟨ring, []⟩ (.ok ((), w')) ∧
    (ring.heap 2).mark = .red ∧ (w'.gc.heap 2).mark = .black ∧
    (ring.heap 3).mark = .red ∧ (w'.gc.heap 3).mark = .black := by
  obtain ⟨w', hw', hmarks⟩ := (@mark_graph_ends_iff .black 1 ⟨ring, []⟩ ring_markable (show ring.Live 1 by decide)).mpr
    fun b _ hcycle => by
      obtain ⟨c, ⟨hb, hc, hbc⟩, -⟩ := Relation.TransGen.head'_iff.mp hcycle
      have hperm : ∀ {a : Addr}, (ring.heap a).mark = .perm → a = 1 := fun {a} h => by
        by_contra hne
        simp [ring, zeroed, hne] at h
      obtain rfl := hperm hb
      obtain rfl := hperm hc
      exact absurd (mem_pointers.mpr hbc) (by decide)
  have h₂₃ : ring.Points 2 3 := mem_pointers.mp (by decide)
  have hsees : ring.Sees .black 1 2 := .step (.base rfl (by decide)) (mem_pointers.mp (by decide)) (by decide)
  refine ⟨w', hw', rfl, ?_, rfl, ?_⟩
  · exact (hmarks 2 (show ring.Live 2 by decide) (by decide)).mpr (Or.inr hsees)
  · exact (hmarks 3 (show ring.Live 3 by decide) (by decide)).mpr (Or.inr (hsees.step h₂₃ (by decide)))

/-- **A permanent object that points at itself** is marked without end. -/
theorem mark_graph_perm_loop : ∃ w, Runs bump 24 w ∧ w.gc.Live 1 ∧
    ¬ ∃ w', Settles (fun n => markGraph n (some 1) .black) w (.ok ((), w')) ∧
      ∀ b, w.gc.Live b → (w.gc.heap b).mark ≠ .perm →
        ((w'.gc.heap b).mark = .black ↔ (w.gc.heap b).mark = .black ∨ w.gc.Sees .black 1 b) := by
  have h₀ := @Runs.create bump 24 (fun _ => none) (fun _ => zeroedObj) _ (by decide) rfl
  have h₁ := @Runs.call bump 24 _ _ (.registerType 8) 0 h₀ trivial rfl
  have h₂ := @Runs.call bump 24 _ _ (.registerPointer 1 0) 0 h₁
    ⟨_, rfl, fun a ha => ha.elim (absurd · List.not_mem_nil) (absurd · List.not_mem_nil), by decide, by decide⟩ rfl
  have h₃ := @Runs.call bump 24 _ _ (.allocType true 1 (.var 0)) 0 h₂ ⟨by decide, trivial⟩ rfl
  have h₄ := @Runs.call bump 24 _ _ (.write (.field 1 0) (some 1)) 0 h₃
    ⟨Or.inr List.mem_cons_self, ⟨⟨by decide, _, rfl, _, List.mem_cons_self, rfl⟩, by decide⟩,
      fun b hb => by cases hb; exact Or.inr List.mem_cons_self⟩ rfl
  have hmark : Markable _ .black := { h₄.sound.inv.painted (Or.inr rfl) with
    holds := fun a ha => by
      obtain rfl : a = 1 := ha.elim (absurd · List.not_mem_nil) List.mem_singleton.mp
      exact holds_iff_fields.mpr (by decide) }
  refine ⟨_, h₄, Or.inr List.mem_cons_self, fun ⟨w', hw', _⟩ => ?_⟩
  refine (explore_ends_iff_perm hmark.toPainted (Or.inr List.mem_cons_self)).mp
    (explored_of_settles hmark (Or.inr List.mem_cons_self) hw') 1
    (.base rfl (by decide)) (.single ⟨rfl, rfl, 0, ?_, rfl⟩)
  exact ⟨by decide, _, rfl, _, List.mem_cons_self, rfl⟩

end MarkGraph

/-! ## The mark phase of a sweep

A sweep marks from the permanent objects and the roots, in that order.  Before it no object carries the new
colour, so the search begins with nothing entered and what it sees is everything reachable; and whether it ends
depends on the graph alone. -/

/-- What a mark phase starts from, in order. -/
def GcMs.targets (g : GcMs) : List Addr := g.permList ++ g.rootList.flatMap fun v => (g.vars v).toList

/-- The search that a mark phase is. -/
def GcMs.search (g : GcMs) (n : ℕ) : Option (Finset Addr) :=
  g.targets.foldlM (explore g.pointers g.held n) ∅

section Phase

variable {g g' : GcMs} {mark : Mark} {n : ℕ} {log : List Event}

/-- A mark phase starts from reachable objects. -/
theorem reachable_of_mem_targets {a : Addr} (h : a ∈ g.targets) : g.Reachable a := by
  rcases List.mem_append.mp h with h | h
  · exact .base (Or.inl h)
  · obtain ⟨v, hv, ha⟩ := List.mem_flatMap.mp h
    exact .base (Or.inr ⟨v, hv, Option.mem_toList.mp ha⟩)

/-- **A mark phase is a search** that begins with nothing entered, if the blocks of the reachable objects
hold them. -/
theorem markPhase_shows (hg : Inv g) (hholds : ∀ a, g.Reachable a → g.Holds a)
    (hmark : mark = .red ∨ mark = .black) (hnew : mark ≠ g.currentMark) :
    (markList n g.permList mark >>= fun _ => markRoot n g.rootList mark) ⟨g.during mark g.heap, log⟩ =
      shows (g.during mark g.heap) mark log (g.search n) := by
  have hpainted : Painted (g.during mark g.heap) mark := { hg.painted hmark with }
  have hroomy : (g.during mark g.heap).Roomy {a | g.Reachable a} := { hg.roomy hholds with }
  have hempty : (g.during mark g.heap).entered mark = ∅ := by
    refine Finset.eq_empty_of_forall_notMem fun a ha => ?_
    obtain ⟨hactive, hm⟩ := mem_entered.mp ha
    exact hnew (hm.symm.trans (hg.active a hactive))
  have hstart := @coloured_entered (g.during mark g.heap) mark
  have hkept := entered_kept hpainted
  rw [hempty] at hstart hkept
  have hlist : markList n g.permList mark ⟨(g.during mark g.heap).coloured mark ∅, log⟩ =
      shows (g.during mark g.heap) mark log (g.permList.foldlM (explore g.pointers g.held n) ∅) :=
    markList_shows hpainted hroomy (fun a ha => From.base (Or.inl ha)) hkept
  rw [hstart] at hlist
  change _ = shows (g.during mark g.heap) mark log (g.targets.foldlM (explore g.pointers g.held n) ∅)
  rw [GcMs.targets, List.foldlM_append]
  cases hrun : g.permList.foldlM (explore g.pointers g.held n) ∅ with
  | none => exact Run.bind_error _ (hlist.trans (congrArg _ hrun))
  | some W =>
    refine (run_bind (hlist.trans (congrArg _ hrun))).trans ?_
    exact markRoot_shows hpainted hroomy (fun v hv a ha => From.base (Or.inr ⟨v, hv, ha⟩))
      (foldlM_kept (fun hW h => explore_kept hW h) hkept hrun)

/-- **A sweep stops while marking** exactly if the search does not end. -/
theorem markAndSweep_marking_iff {w : World} (hw : Inv w.gc) (hholds : ∀ a, w.gc.Reachable a → w.gc.Holds a)
    (hprotect : w.gc.protectCount = 0) : markAndSweep n w = .error .marking ↔ w.gc.search n = none := by
  obtain ⟨g, log⟩ := w
  obtain ⟨hmark, hnew⟩ := nextMark_spec (g := g) hw
  let m : Mark := if g.currentMark = .red then .black else .red
  have hphase := @markPhase_shows g m n log hw hholds hmark hnew
  have hrun : markAndSweep n ⟨g, log⟩ =
      ((markList n g.permList m >>= fun _ => markRoot n g.rootList m) >>= fun _ =>
        (do sweepList m; logEvent (.swept g (← getGc)))) ⟨g.during m g.heap, log⟩ := by
    rw [bind_assoc]
    exact (run_bind rfl).trans (run_bind rfl)
  rw [hrun]
  cases hsearch : g.search n with
  | none => exact iff_of_true (Run.bind_error _ (hphase.trans (congrArg _ hsearch))) rfl
  | some W =>
    refine iff_of_false (fun h => ?_) (by simp)
    rw [run_bind (hphase.trans (congrArg _ hsearch))] at h
    have hlist := @sweepList_run g m ((g.during m g.heap).coloured m W).heap hw hprotect log
    have hend := (run_bind (f := fun _ => (do logEvent (.swept g (← getGc)))) hlist).symm.trans h
    cases hend

/-- **Where the graph is the same, so is the search.** -/
theorem SameGraph.search (h : SameGraph g g') (hg : Inv g) (hg' : Inv g') : g'.search n = g.search n := by
  have htargets : g'.targets = g.targets := by
    simp only [GcMs.targets, h.permList, h.rootList, h.vars]
  have hagree : ∀ a ∈ g.targets, ∀ W, explore g'.pointers g'.held n W a = explore g.pointers g.held n W a := by
    refine fun a ha W => explore_congr (A := {a | g.Reachable a})
      (fun b hb c hc => From.step hb (mem_pointers.mp hc)) (fun b hb => ?_) (fun b hb => ?_)
      (reachable_of_mem_targets ha)
    · obtain ⟨-, m, hm⟩ := h.object b hb
      exact pointers_congr h.typeDefs h.arrayType hm
    · have hperm := hg.mem_perm_iff (hg.live_of_reachable hb)
      have hperm' := hg'.mem_perm_iff (h.object b hb).1
      rw [h.permList] at hperm'
      exact decide_eq_decide.mpr (hperm'.symm.trans hperm)
  rw [GcMs.search, GcMs.search, htargets]
  generalize (∅ : Finset Addr) = W
  generalize g.targets = l at hagree
  induction l generalizing W with
  | nil => rfl
  | cons a l ih =>
    rw [List.foldlM_cons, List.foldlM_cons, hagree a List.mem_cons_self]
    exact congrArg _ (funext fun V => ih V fun b hb => hagree b (List.mem_cons_of_mem _ hb))

end Phase

/-! ## More depth

A mark phase or a sweep that ends at some depth ends with the same state at every greater one, since the depth
is looked at only where it runs out.  So the bounds of nested sweeps can be raised to a common one. -/

section Deeper

variable {C : Calloc} {n m : ℕ}

/-- The fields of an object, with a walk that goes deeper. -/
theorem markFields_extends {next next' : Option Addr → GcM Unit} (h : ∀ p, Extends (next p) (next' p))
    (a : Addr) (o : MetaObj) : Extends (markFields next a o) (markFields next' a o) := by
  refine Extends.ite (.bind .refl fun g => ?_) .refl
  cases g.typeDefs[o.typeDef.toNat]? with
  | none => exact .refl
  | some d =>
    refine Extends.forM (fun p => ?_) d.rootList
    unfold markField
    cases p.type with
    | ptr => exact .bind .refl fun o => h _
    | array =>
      refine .bind .refl fun g => ?_
      cases g.typeDefs[g.arrayType]? with
      | none => exact .refl
      | some d => exact Extends.forM (fun i => .bind .refl fun o => h _) _

/-- **Marking deeper** extends marking. -/
theorem markGraph_extends : ∀ {n m : ℕ}, n ≤ m → ∀ (p : Option Addr) (mark : Mark),
    Extends (markGraph n p mark) (markGraph m p mark)
  | n, m, _, none, mark => by
      have hnone : ∀ k, markGraph k none mark = pure () := fun k => by cases k <;> rfl
      rw [hnone, hnone]
      exact .refl
  | 0, _, _, some a, mark => extends_throw
  | n + 1, m, hle, some a, mark => by
      obtain ⟨m, rfl⟩ := Nat.exists_eq_add_of_le' (Nat.one_le_of_lt hle)
      have hrec := fun p => markGraph_extends (Nat.le_of_succ_le_succ hle) p mark
      exact .bind .refl fun o => .ite .refl (.ite .refl (.bind .refl fun _ => markFields_extends hrec a o))

/-- A mark phase with its `sweep_list`, deeper. -/
theorem markAndSweep_extends (h : n ≤ m) : Extends (markAndSweep n) (markAndSweep m) := by
  refine .bind .refl fun before => .bind .refl fun mark => ?_
  refine .bind (Extends.forM (fun a => markGraph_extends h _ mark) _) fun _ => ?_
  exact .bind (Extends.forM (fun v => .bind .refl fun g => markGraph_extends h _ mark) _) fun _ => .refl

/-- An allocation, over a sweep that goes deeper. -/
theorem allocWith_extends {sweep sweep' : GcM Unit} (h : Extends sweep sweep') (perm : Bool) (size : ℕ)
    (typeDef : ℤ) : Extends (allocWith C sweep perm size typeDef) (allocWith C sweep' perm size typeDef) := by
  refine .bind (.bind .refl fun g => ?_) fun _ => .refl
  split
  · exact .bind h fun _ => .refl
  · exact .refl

/-- `pre_alloc`, over a sweep that goes deeper. -/
theorem preAllocWith_extends {sweep sweep' : GcM Unit} (h : Extends sweep sweep') :
    Extends (preAllocWith C sweep) (preAllocWith C sweep') := by
  refine .bind .refl fun _ => .bind (Extends.forM (fun _ => .bind .refl fun g =>
    .bind (allocWith_extends h false _ _) fun _ => .refl) _) fun _ => .bind (.bind .refl fun _ => .bind .refl fun g =>
      .ite .refl (.ite h .refl)) fun _ => h

/-- **Sweeping deeper**, and nesting deeper, extends sweeping. -/
theorem sweep_extends (h : n ≤ m) : ∀ {depth depth' : ℕ}, depth ≤ depth' →
    Extends (sweep C n depth) (sweep C m depth')
  | 0, _, _ => extends_throw
  | depth + 1, depth', hle => by
      obtain ⟨depth', rfl⟩ := Nat.exists_eq_add_of_le' (Nat.one_le_of_lt hle)
      have hrec := sweep_extends h (Nat.le_of_succ_le_succ hle)
      exact .bind .refl fun g => .ite .refl (.bind (markAndSweep_extends h) fun _ =>
        .bind .refl fun g => .ite (preAllocWith_extends hrec) .refl)

end Deeper

/-! ## The nested sweeps

The sweep marks once, and the sweeps nested in it mark the same graph, so one hypothesis about marking is enough
for all of them.  What an allocation does then is said step by step: which block it takes, from which list, to
which list, and what it writes there. -/

section Nested

variable {C : Calloc} {n : ℕ} {w : World}

/-- **Marking ends here and wherever the graph is the same.** -/
theorem marking_ends {w₀ : World} (hw : Sound w) (hprotect : w.gc.protectCount = 0)
    (hmark : markAndSweep n w = .ok ((), w₀)) : Marking (fun _ => False) n w := fun w' e hw' h he => by
  have hholds := ((markAndSweep_ends hw hprotect n).of_ok hmark).holds
  have hholds' : ∀ a, w'.gc.Reachable a → w'.gc.Holds a := fun a ha => by
    have ha' := (hw'.2.reachable_iff a).mp ha
    exact (hw'.2.holds_iff ha').mpr (hholds a ha')
  rcases he with rfl | ⟨-, a, ha, hnot⟩
  · have hprotect' := hw'.2.protectCount.trans hprotect
    rw [markAndSweep_marking_iff hw'.1.inv hholds' hprotect', hw'.2.search hw.inv hw'.1.inv] at h
    have hmark' := (markAndSweep_marking_iff hw.inv hholds hprotect).mpr h
    cases hmark.symm.trans hmark'
  · exact hnot (hholds' a ha)

/-- **A cell is taken off the dead list** and hung on the list it is asked for, zeroed but for its header. -/
theorem newObject_reuses {a : Addr} {dead : List Addr} (hdead : w.gc.deadList = a :: dead) (perm : Bool) :
    newObject C perm w.gc.cellSize w = .ok (a, ⟨({ w.gc with deadList := dead } : GcMs).attach perm a
      { zeroedObj with size := w.gc.cellSize, block := (w.gc.heap a).block }, .handed w.gc a :: w.log⟩) := by
  have htake : takeBlock C w.gc.cellSize w =
      .ok ((a, (w.gc.heap a).block), ⟨{ w.gc with deadList := dead }, w.log⟩) := by
    refine (run_bind (t := w) rfl).trans ?_
    simp only [hdead, if_true]
    rfl
  exact (run_bind rfl).trans ((run_bind htake).trans rfl)

/-- Moving a cell from one list to another adds no block and loses none. -/
theorem attach_blocks {g : GcMs} {a : Addr} {dead : List Addr} {o : MetaObj} (hdead : g.deadList = a :: dead)
    (perm : Bool) : (({ g with deadList := dead } : GcMs).attach perm a o).blocks.Perm g.blocks := by
  unfold GcMs.blocks
  rw [hdead]
  cases perm with
  | false =>
    change ((a :: g.activeList) ++ dead ++ g.permList).Perm _
    exact (List.perm_middle.symm).append_right _
  | true =>
    change (g.activeList ++ dead ++ a :: g.permList).Perm _
    rw [List.append_assoc, List.append_assoc]
    exact (List.perm_middle).append_left _

/-- **The nested sweeps end.**  Where the marking of a sweep ends, `sweep` returns, two sweeps deep at most,
with no protection left, the active list freshly collected and a dead block; so `internal_alloc` of a cell
takes the first dead block off its list, zeroes it, gives it its header and hangs it on the list asked for,
and but for the sweep the heap has the blocks it had. -/
theorem nested_sweeps_end (hw : Sound w) (hprotect : w.gc.protectCount = 0)
    (hmark : ∃ n w₀, markAndSweep n w = .ok ((), w₀)) :
    ∃ n w', (∀ m depth, n ≤ m → 2 ≤ depth → sweep C m depth w = .ok ((), w')) ∧
      Inv w'.gc ∧ w'.gc.protectCount = 0 ∧ w'.gc.Clean ∧ w'.gc.deadList ≠ [] ∧
      ∀ perm, ∃ w₁ a dead w₂, w₁ = (if w.gc.deadList = [] then w' else w) ∧ w₁.gc.deadList = a :: dead ∧
        (∀ m depth, n ≤ m → 2 ≤ depth →
          internalAllocWith C (sweep C m depth) perm w.gc.cellSize w = .ok (a, w₂)) ∧
        w₂.gc.protectCount = 0 ∧ w₂.gc.deadList = dead ∧
        w₂.gc.activeList = (if perm then w₁.gc.activeList else a :: w₁.gc.activeList) ∧
        w₂.gc.permList = (if perm then a :: w₁.gc.permList else w₁.gc.permList) ∧
        (w₂.gc.heap a).mark = (if perm then .perm else w₁.gc.currentMark) ∧
        (w₂.gc.heap a).size = w.gc.cellSize ∧ (∀ offset, (w₂.gc.heap a).slots offset = none) ∧
        (∀ b, b ≠ a → w₂.gc.heap b = w₁.gc.heap b) ∧ w₂.gc.blocks.Perm w₁.gc.blocks := by
  obtain ⟨n, w₀, hn⟩ := hmark
  rcases sweep_ends (C := C) hw hprotect (marking_ends hw hprotect hn) 0 with ⟨_, w', hrun, hready⟩ | ⟨_, _, h⟩
  swap
  · exact h.elim
  have hall : ∀ m depth, n ≤ m → 2 ≤ depth → sweep C m depth w = .ok ((), w') := fun m depth hm hdepth =>
    sweep_extends hm hdepth w _ hrun
  have hprotect' := hready.swept.2.protectCount.trans hprotect
  refine ⟨n, w', hall, hready.swept.1.inv, hprotect', hready.clean, hready.dead, fun perm => ?_⟩
  -- the state the block is taken in
  have hbefore : ∃ w₁, w₁ = (if w.gc.deadList = [] then w' else w) ∧ w₁.gc.deadList ≠ [] ∧
      w₁.gc.protectCount = 0 ∧ w₁.gc.cellSize = w.gc.cellSize ∧ ∀ m depth, n ≤ m → 2 ≤ depth →
        internalAllocWith C (sweep C m depth) perm w.gc.cellSize w =
          newObject C perm w.gc.cellSize w₁ := by
    by_cases hempty : w.gc.deadList = []
    · refine ⟨w', (if_pos hempty).symm, hready.dead, hprotect', hready.swept.2.cellSize,
        fun m depth hm hdepth => ?_⟩
      refine (run_bind (t := w) rfl).trans ?_
      rw [if_pos ⟨rfl, hempty⟩]
      exact run_bind (hall m depth hm hdepth)
    · refine ⟨w, (if_neg hempty).symm, hempty, hprotect, rfl, fun m depth _ _ => ?_⟩
      refine (run_bind (t := w) rfl).trans ?_
      rw [if_neg fun h => hempty h.2]
  obtain ⟨w₁, hw₁, hdead₁, hprotect₁, hcell, halloc⟩ := hbefore
  obtain ⟨a, dead, hcons⟩ := List.exists_cons_of_ne_nil hdead₁
  have hnew := newObject_reuses (C := C) hcons perm
  rw [hcell] at hnew
  obtain ⟨-, -, -, -, -, hcount, -, hrest⟩ := @attach_fields { w₁.gc with deadList := dead } a
    { zeroedObj with size := w.gc.cellSize, block := (w₁.gc.heap a).block } perm
  refine ⟨w₁, a, dead, _, hw₁, hcons, fun m depth hm hdepth => (halloc m depth hm hdepth).trans hnew,
    hcount.trans hprotect₁, hrest, ?_, ?_, ?_, ?_, fun offset => ?_, fun b hb => attach_heap_of_ne hb,
    attach_blocks hcons perm⟩
  · cases perm <;> rfl
  · cases perm <;> rfl
  · rw [attach_heap_self]
  · rw [attach_heap_self]
  · rw [attach_heap_self]
    rfl

/-- Two cells without pointers, of which a root holds the first. -/
def pairOfCells : GcMs :=
  { zeroed 24 (fun v => if v = 0 then some 1 else none) (fun _ => { zeroedObj with
      size := 24
      typeDef := -1
      block := 112 }) with
    activeList := [2, 1]
    rootList := [0]
    typeDefs := [⟨8, [⟨.array, 0⟩]⟩] }

/-- The two cells are a state between operations. -/
theorem pairOfCells_sound : Sound ⟨pairOfCells, []⟩ where
  safe := by simp
  inv :=
    { nodup := by decide
      colour := Or.inl rfl
      active := fun _ _ => rfl
      dead := fun _ h => absurd h List.not_mem_nil
      perm := fun _ h => absurd h List.not_mem_nil
      closed := fun a _ b hab => by
        obtain ⟨offset, ⟨htype, -⟩, -⟩ := hab
        exact absurd (show (0 : ℤ) ≤ -1 from htype) (by decide)
      roots := fun v hv a ha => by
        obtain rfl : v = 0 := List.mem_singleton.mp hv
        cases ha
        exact (by decide : pairOfCells.Live 1)
      typed := fun _ _ => show (-1 : ℤ) < 1 by decide
      arrayType := by decide
      protect := le_rfl
      sized := fun _ _ => show 112 = pairOfCells.mallocSize (realSize 24) by decide
      cells := by decide }

/-- The next cell after that is the second one again: the sweep finds it dead. -/
theorem nested_sweeps_end_pair : ∃ n w₂, (∀ m depth, n ≤ m → 2 ≤ depth →
    internalAllocWith bump (sweep bump m depth) false 24 ⟨pairOfCells, []⟩ = .ok (2, w₂)) ∧
      w₂.gc.activeList = [2, 1] ∧ w₂.gc.deadList = [] := by
  obtain ⟨n, w', hsweep, -, -, -, -, halloc⟩ := nested_sweeps_end (C := bump) pairOfCells_sound rfl ⟨1, _, rfl⟩
  -- the sweep is the one of depth 1
  obtain ⟨w'', hw'', hactive, hdead⟩ : ∃ w'', sweep bump 1 2 ⟨pairOfCells, []⟩ = .ok ((), w'') ∧
      w''.gc.activeList = [1] ∧ w''.gc.deadList = [2] := ⟨_, rfl, rfl, rfl⟩
  obtain rfl : w'' = w' := by
    have h := (sweep_extends (Nat.le_max_right n 1) le_rfl _ _ hw'').symm.trans
      (hsweep (max n 1) 2 (Nat.le_max_left n 1) le_rfl)
    cases h
    rfl
  obtain ⟨w₁, a, dead, w₂, hw₁, hcons, hrun, -, hrest, hlist, -⟩ := halloc false
  obtain rfl : w₁ = w'' := hw₁.trans (if_pos rfl)
  obtain ⟨rfl, rfl⟩ : 2 = a ∧ [] = dead := by simpa using hdead.symm.trans hcons
  exact ⟨n, w₂, hrun, by rw [hlist, hactive]; rfl, hrest⟩

end Nested

end Insomniac.Gc

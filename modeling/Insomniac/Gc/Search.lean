import Insomniac.Gc.Marking
import Insomniac.Machinery.Explore

/-!
# Gc/Search — mark_graph is a depth-first search

`mark_graph` is `explore` on the graph of registered pointers: the objects that carry the new mark are the
ones entered, and the permanent ones are held, because `mark_object` leaves their mark alone.

    mark_graph n a   ≙   explore n W a      on the heap where `W` carries the mark  (`markGraph_shows`)

So the search ends exactly if it meets no cycle of permanent objects (`explore_ends_iff_perm`).
-/

open Traversal Run

namespace Insomniac.Gc

/-! ## The graph, in the order mark_graph follows it

As lists, with the order in which the loops of `mark_graph` come to the pointers: the search has to meet them in
that order, though what it ends with does not depend on it. -/

/-- The pointers of a registered field, by their offsets. -/
def GcMs.offsets (g : GcMs) (a : Addr) (p : PtrDef) : List ℕ :=
  match p.type with
  | .ptr => [p.offset]
  | .array =>
    match g.typeDefs[g.arrayType]? with
    | none => []
    | some arrayDef => (List.range ((g.heap a).size / arrayDef.size)).map fun i => p.offset + ptrSize * i

/-- The fields of an object. -/
def GcMs.fields (g : GcMs) (a : Addr) : List PtrDef :=
  if 0 ≤ (g.heap a).typeDef then (g.typeDefs[(g.heap a).typeDef.toNat]?).elim [] TypeDef.rootList else []

/-- What the object at `a` points at. -/
def GcMs.pointers (g : GcMs) (a : Addr) : List Addr :=
  (g.fields a).flatMap fun p => (g.offsets a p).flatMap fun o => ((g.heap a).slots o).toList

/-- A permanent object. -/
def GcMs.held (g : GcMs) (a : Addr) : Bool := (g.heap a).mark = .perm

section Graph

variable {g : GcMs} {a b : Addr}

theorem mem_offsets {p : PtrDef} {o : ℕ} : o ∈ g.offsets a p ↔ g.Covers a p o := by
  obtain ⟨type, offset⟩ := p
  cases type with
  | ptr => simp [GcMs.offsets, GcMs.Covers]
  | array =>
    cases h : g.typeDefs[g.arrayType]? with
    | none => simp [GcMs.offsets, GcMs.Covers, h]
    | some d =>
      simp only [GcMs.offsets, GcMs.Covers, h, List.mem_map, List.mem_range, Option.some.injEq, exists_eq_left']
      exact exists_congr fun i => and_congr_right fun _ => eq_comm

theorem mem_fields {p : PtrDef} : p ∈ g.fields a ↔
    0 ≤ (g.heap a).typeDef ∧ ∃ d, g.typeDefs[(g.heap a).typeDef.toNat]? = some d ∧ p ∈ d.rootList := by
  unfold GcMs.fields
  by_cases htype : 0 ≤ (g.heap a).typeDef
  · cases h : g.typeDefs[(g.heap a).typeDef.toNat]? with
    | none => simp
    | some d => simp [htype]
  · simp [htype]

/-- **The pointers are the edges of the graph.** -/
theorem mem_pointers : b ∈ g.pointers a ↔ g.Points a b := by
  simp only [GcMs.pointers, List.mem_flatMap, mem_fields, mem_offsets, Option.mem_toList, GcMs.Points,
    GcMs.IsField]
  constructor
  · rintro ⟨p, ⟨htype, d, hd, hp⟩, o, ho, hb⟩
    exact ⟨o, ⟨htype, d, hd, p, hp, ho⟩, hb⟩
  · rintro ⟨o, ⟨htype, d, hd, p, hp, ho⟩, hb⟩
    exact ⟨p, ⟨htype, d, hd, hp⟩, o, ho, hb⟩

/-- Whether a block holds its object can be looked up, field by field. -/
theorem holds_iff_fields : g.Holds a ↔ ∀ p ∈ g.fields a, ∀ o ∈ g.offsets a p, g.InBlock a o := by
  simp only [GcMs.Holds, GcMs.IsField, mem_fields, mem_offsets]
  constructor
  · rintro h p ⟨htype, d, hd, hp⟩ o ho
    exact h o ⟨htype, d, hd, p, hp, ho⟩
  · rintro h o ⟨htype, d, hd, p, hp, ho⟩
    exact h p ⟨htype, d, hd, hp⟩ o ho

/-- The pointers depend on the types and on the object. -/
theorem pointers_congr {g' : GcMs} (htypes : g'.typeDefs = g.typeDefs) (harray : g'.arrayType = g.arrayType)
    {m : Mark} (hobj : g'.heap a = { g.heap a with mark := m }) : g'.pointers a = g.pointers a := by
  have hoffsets : g'.offsets a = g.offsets a := by
    funext p
    simp only [GcMs.offsets, htypes, harray, hobj]
  simp only [GcMs.pointers, GcMs.fields, hoffsets, htypes, hobj]

end Graph

/-! ## A heap that can be marked

`mark_graph` may be called on more heaps than a collector has between its operations: active objects may carry
either colour, so some of them may count as entered before the search begins. -/

/-- **A heap of active and permanent objects**: the active ones carry either colour, and the registered
pointers lead to objects. -/
structure Painted (g : GcMs) (mark : Mark) : Prop where
  colour : mark = .red ∨ mark = .black
  active : ∀ a ∈ g.activeList, (g.heap a).mark = .red ∨ (g.heap a).mark = .black
  perm : ∀ a ∈ g.permList, (g.heap a).mark = .perm
  closed : ∀ a, g.Live a → ∀ b, g.Points a b → g.Live b
  typed : ∀ a, g.Live a → (g.heap a).typeDef < g.typeDefs.length
  arrayType : g.arrayType < g.typeDefs.length

/-- **A heap that can be marked from any object**: the registered pointers of each object lie in its
block. -/
structure Markable (g : GcMs) (mark : Mark) : Prop extends Painted g mark where
  holds : ∀ a, g.Live a → g.Holds a

/-- Objects that can be marked among themselves: their pointers lead to objects of the same kind, and their
blocks hold them. -/
structure GcMs.Roomy (g : GcMs) (S : Set Addr) : Prop where
  live : ∀ a ∈ S, g.Live a
  closed : ∀ a ∈ S, ∀ b, g.Points a b → b ∈ S
  holds : ∀ a ∈ S, g.Holds a

/-- The objects in use can be marked among themselves. -/
theorem Markable.roomy {g : GcMs} {mark : Mark} (hg : Markable g mark) : g.Roomy {a | g.Live a} :=
  ⟨fun _ ha => ha, hg.closed, hg.holds⟩

/-- The collector's invariant is more than enough. -/
theorem Inv.painted {g : GcMs} (hg : Inv g) {mark : Mark} (hmark : mark = .red ∨ mark = .black) :
    Painted g mark where
  colour := hmark
  active := fun a ha => (hg.active a ha).symm ▸ hg.colour
  perm := hg.perm
  closed := hg.closed
  typed := hg.typed
  arrayType := hg.arrayType

/-- Between operations, so can the reachable ones. -/
theorem Inv.roomy {g : GcMs} (hg : Inv g) (hholds : ∀ a, g.Reachable a → g.Holds a) :
    g.Roomy {a | g.Reachable a} :=
  ⟨fun _ ha => hg.live_of_reachable ha, fun _ ha _ hab => From.step ha hab, hholds⟩

namespace Painted

variable {g : GcMs} {mark : Mark} (hg : Painted g mark) {a : Addr}

include hg

/-- No object that is marked carries the mark of a dead cell. -/
theorem mark_ne_dead (h : g.Live a) : (g.heap a).mark ≠ .dead := by
  rcases h with h | h
  · rcases hg.active a h with h | h <;> simp [h]
  · simp [hg.perm a h]

/-- The new mark is a colour, not that of permanent objects. -/
theorem ne_perm : mark ≠ .perm := by
  rcases hg.colour with h | h <;> simp [h]

end Painted

/-- The active objects that carry the mark. -/
def GcMs.entered (g : GcMs) (mark : Mark) : Finset Addr :=
  (g.activeList.filter fun a => (g.heap a).mark = mark).toFinset

/-- The heap with the mark on some objects. -/
def GcMs.coloured (g : GcMs) (mark : Mark) (W : Finset Addr) : GcMs :=
  { g with heap := fun a => if a ∈ W then { g.heap a with mark } else g.heap a }

section Coloured

variable {g : GcMs} {mark : Mark} {W : Finset Addr} {a : Addr}

/-- The entered objects are the active ones with the mark. -/
theorem mem_entered : a ∈ g.entered mark ↔ a ∈ g.activeList ∧ (g.heap a).mark = mark := by
  simp [GcMs.entered]

/-- An object that is entered carries the mark, and is otherwise as it was. -/
theorem coloured_of_mem (h : a ∈ W) : (g.coloured mark W).heap a = { g.heap a with mark } := if_pos h

/-- Any other object is as it was. -/
theorem coloured_of_notMem (h : a ∉ W) : (g.coloured mark W).heap a = g.heap a := if_neg h

/-- No pointer is changed by colouring. -/
@[simp] theorem coloured_slots : ((g.coloured mark W).heap a).slots = (g.heap a).slots := by
  by_cases h : a ∈ W
  · rw [coloured_of_mem h]
  · rw [coloured_of_notMem h]

/-- No block is changed by colouring. -/
@[simp] theorem coloured_block : ((g.coloured mark W).heap a).block = (g.heap a).block := by
  by_cases h : a ∈ W
  · rw [coloured_of_mem h]
  · rw [coloured_of_notMem h]

/-- A heap is its own colouring. -/
theorem coloured_entered : g.coloured mark (g.entered mark) = g := by
  have hheap : (g.coloured mark (g.entered mark)).heap = g.heap := by
    funext a
    by_cases h : a ∈ g.entered mark
    · rw [coloured_of_mem h, ← (mem_entered.mp h).2]
    · exact coloured_of_notMem h
  calc g.coloured mark (g.entered mark)
      = { g with heap := (g.coloured mark (g.entered mark)).heap } := rfl
    _ = g := by rw [hheap]

/-- Marking one more object is colouring one more. -/
theorem coloured_insert (h : a ∉ W) :
    (g.coloured mark W).put a { g.heap a with mark } = g.coloured mark (insert a W) := by
  have hheap : Function.update (g.coloured mark W).heap a { g.heap a with mark } =
      (g.coloured mark (insert a W)).heap := by
    funext b
    rcases eq_or_ne b a with rfl | hb
    · rw [Function.update_self, coloured_of_mem (Finset.mem_insert_self b W)]
    · rw [Function.update_of_ne hb]
      by_cases hbW : b ∈ W
      · rw [coloured_of_mem hbW, coloured_of_mem (Finset.mem_insert_of_mem hbW)]
      · rw [coloured_of_notMem hbW, coloured_of_notMem fun h => (Finset.mem_insert.mp h).elim hb hbW]
  calc (g.coloured mark W).put a { g.heap a with mark }
      = { g with heap := Function.update (g.coloured mark W).heap a { g.heap a with mark } } := rfl
    _ = g.coloured mark (insert a W) := by rw [hheap]; rfl

end Coloured

/-! ## mark_graph, as a search

The state of the search is the set of entered objects, and `shows` turns it into the heap on which these carry
the mark.  Every loop of `mark_graph` is a fold of the search over the pointers it goes through. -/

section Shows

variable (g : GcMs) (mark : Mark) (log : List Event)

/-- The outcome of a search, on the heap. -/
def shows : Option (Finset Addr) → Except Stop (Unit × World)
  | none => .error .marking
  | some W => .ok ((), ⟨g.coloured mark W, log⟩)

/-- What a search keeps true of the objects it has entered. -/
def Kept (W : Finset Addr) : Prop := g.entered mark ⊆ W ∧ ∀ c ∈ W, g.held c = false

variable {g mark log} {ι : Type} {k : Finset Addr → Addr → Option (Finset Addr)} {W W' : Finset Addr}
  {next : Option Addr → GcM Unit} {a : Addr}

/-- A loop of searches keeps what each of them keeps. -/
theorem foldlM_kept (hk : ∀ {W W' a}, Kept g mark W → k W a = some W' → Kept g mark W') : ∀ {l : List Addr}
    {W W' : Finset Addr}, Kept g mark W → l.foldlM k W = some W' → Kept g mark W'
  | [], _, _, hW, h => by
      cases h
      exact hW
  | _ :: _, _, _, hW, h => by
      obtain ⟨V, ha, hl⟩ := foldlM_cons_some.mp h
      exact foldlM_kept hk (hk hW ha) hl

/-- **A loop is a search** if each of its rounds is. -/
theorem forM_shows (hk : ∀ {W W' a}, Kept g mark W → k W a = some W' → Kept g mark W') {f : ι → GcM Unit}
    {ps : ι → List Addr} : ∀ {l : List ι}, (∀ i ∈ l, ∀ W, Kept g mark W →
      f i ⟨g.coloured mark W, log⟩ = shows g mark log ((ps i).foldlM k W)) → ∀ {W : Finset Addr},
    Kept g mark W → l.forM f ⟨g.coloured mark W, log⟩ = shows g mark log ((l.flatMap ps).foldlM k W)
  | [], _, _, _ => rfl
  | i :: l, hf, W, hW => by
      have hi := hf i List.mem_cons_self W hW
      rw [List.flatMap_cons, List.foldlM_append]
      cases hrun : (ps i).foldlM k W with
      | none => exact Run.bind_error _ (hi.trans (congrArg _ hrun))
      | some V =>
        refine (run_bind (hi.trans (congrArg _ hrun))).trans ?_
        exact forM_shows hk (fun j hj => hf j (List.mem_cons_of_mem _ hj)) (foldlM_kept hk hW hrun)

variable {S : Set Addr} (hg : Painted g mark) (hS : g.Roomy S)
  (hk : ∀ {W W' a}, Kept g mark W → k W a = some W' → Kept g mark W')
  (hnone : next none = pure ()) (hnext : ∀ b ∈ S, ∀ W, Kept g mark W →
    next (some b) ⟨g.coloured mark W, log⟩ = shows g mark log (k W b))

/-- An object is read with its colour, and with everything else as it stands. -/
theorem load_coloured (ha : g.Live a) :
    load a ⟨g.coloured mark W, log⟩ = .ok ((g.coloured mark W).heap a, ⟨g.coloured mark W, log⟩) :=
  load_run (w := ⟨g.coloured mark W, log⟩) (show a ∈ g.blocks from ha.mem_blocks)

include hS in
/-- A pointer is read as it stands, whatever the colours. -/
theorem loadPtr_coloured (ha : a ∈ S) {o : ℕ} (ho : g.IsField a o) :
    loadPtr a o ⟨g.coloured mark W, log⟩ = .ok ((g.heap a).slots o, ⟨g.coloured mark W, log⟩) := by
  refine (run_bind (load_coloured (hS.live a ha))).trans ?_
  rw [coloured_slots, coloured_block,
    if_pos (show objectOffset + o + ptrSize ≤ (g.heap a).block from hS.holds a ha o ho)]
  rfl

include hS hnone hnext in
/-- One pointer. -/
theorem slot_shows (ha : a ∈ S) {o : ℕ} (ho : g.IsField a o) (hW : Kept g mark W) :
    (loadPtr a o >>= fun p => next p) ⟨g.coloured mark W, log⟩ =
      shows g mark log ((((g.heap a).slots o).toList).foldlM k W) := by
  refine (run_bind (loadPtr_coloured hS ha ho)).trans ?_
  cases hp : (g.heap a).slots o with
  | none =>
    rw [hnone]
    rfl
  | some b =>
    refine (hnext b (hS.closed a ha b ⟨o, ho, hp⟩) W hW).trans (congrArg _ ?_)
    simp [List.foldlM_cons]

include hg hS hk hnone hnext in
/-- **One registered field.** -/
theorem markField_shows (ha : a ∈ S) {p : PtrDef} (hp : p ∈ g.fields a) (hW : Kept g mark W) :
    markField next a (g.heap a) p ⟨g.coloured mark W, log⟩ =
      shows g mark log (((g.offsets a p).flatMap fun o => ((g.heap a).slots o).toList).foldlM k W) := by
  obtain ⟨htype, d, hd, hp⟩ := mem_fields.mp hp
  obtain ⟨type, offset⟩ := p
  cases type with
  | ptr =>
    refine (slot_shows hS hnone hnext ha ⟨htype, d, hd, _, hp, rfl⟩ hW).trans (congrArg _ ?_)
    simp [GcMs.offsets]
  | array =>
    have hdef := List.getElem?_eq_getElem hg.arrayType
    have hread : getGc ⟨g.coloured mark W, log⟩ = .ok (g.coloured mark W, ⟨g.coloured mark W, log⟩) := rfl
    refine (run_bind hread).trans ?_
    simp only [GcMs.offsets, GcMs.coloured, hdef, List.flatMap_map]
    exact forM_shows hk (fun i hi W hW => slot_shows hS hnone hnext ha
      ⟨htype, d, hd, _, hp, _, hdef, i, List.mem_range.mp hi, rfl⟩ hW) hW

include hg hS hk hnone hnext in
/-- **The fields of an object**: its pointers, one after the other. -/
theorem markFields_shows (ha : a ∈ S) (hW : Kept g mark W) :
    markFields next a (g.heap a) ⟨g.coloured mark W, log⟩ =
      shows g mark log ((g.pointers a).foldlM k W) := by
  have hloop := @forM_shows g mark log PtrDef k hk (markField next a (g.heap a))
    (fun p => (g.offsets a p).flatMap fun o => ((g.heap a).slots o).toList) (g.fields a)
    (fun p hp W hW => markField_shows hg hS hk hnone hnext ha hp hW) W hW
  refine Eq.trans ?_ hloop
  unfold markFields GcMs.fields
  by_cases htype : 0 ≤ (g.heap a).typeDef
  · obtain ⟨d, hd⟩ : ∃ d, g.typeDefs[(g.heap a).typeDef.toNat]? = some d := by
      have := hg.typed a (hS.live a ha)
      exact ⟨_, List.getElem?_eq_getElem (by omega)⟩
    have hread : getGc ⟨g.coloured mark W, log⟩ = .ok (g.coloured mark W, ⟨g.coloured mark W, log⟩) := rfl
    rw [if_pos htype, if_pos htype]
    refine (run_bind hread).trans ?_
    simp only [GcMs.coloured, hd, Option.elim_some]
  · rw [if_neg htype, if_neg htype]
    rfl

end Shows

section MarkGraph

variable {g : GcMs} {mark : Mark} {log : List Event} {W W' : Finset Addr} {S : Set Addr} {a : Addr}

/-- A search keeps what it has entered, and enters no permanent object. -/
theorem explore_kept {n : ℕ} (hW : Kept g mark W) (h : explore g.pointers g.held n W a = some W') :
    Kept g mark W' := by
  obtain ⟨hfree, hexplores⟩ := explore_searches hW.2 h
  exact ⟨hW.1.trans (Finset.coe_subset.mp hexplores.grow), hfree⟩

/-- The objects that carry the mark at the beginning are such a set. -/
theorem entered_kept (hg : Painted g mark) : Kept g mark (g.entered mark) := by
  refine ⟨Finset.Subset.refl _, fun c hc => ?_⟩
  have hmark := (mem_entered.mp hc).2
  have hne := hg.ne_perm
  simp [GcMs.held, hmark, hne]

/-- **`mark_graph` is a depth-first search**, with the permanent objects held. -/
theorem markGraph_shows (hg : Painted g mark) (hS : g.Roomy S) : ∀ {n : ℕ} {W : Finset Addr} {a : Addr}, a ∈ S →
    Kept g mark W → markGraph n (some a) mark ⟨g.coloured mark W, log⟩ =
      shows g mark log (explore g.pointers g.held n W a)
  | 0, _, _, _, _ => rfl
  | n + 1, W, a, haS, hW => by
      have ha : g.Live a := hS.live a haS
      refine (run_bind (load_coloured ha)).trans ?_
      by_cases haW : a ∈ W
      · rw [explore_of_mem haW, coloured_of_mem haW, if_pos rfl]
        rfl
      have hne : (g.heap a).mark ≠ mark := fun hm => by
        rcases ha with ha | ha
        · exact haW (hW.1 (mem_entered.mpr ⟨ha, hm⟩))
        · exact hg.ne_perm (hm.symm.trans (hg.perm a ha))
      have hnone : markGraph n none mark = pure () := by cases n <;> rfl
      have hfields : ∀ {V : Finset Addr}, Kept g mark V →
          markFields (fun p => markGraph n p mark) a (g.heap a) ⟨g.coloured mark V, log⟩ =
            shows g mark log ((g.pointers a).foldlM (explore g.pointers g.held n) V) :=
        markFields_shows hg hS (k := explore g.pointers g.held n) (fun hW h => explore_kept hW h) hnone
          (fun b hb V hV => markGraph_shows hg hS hb hV) haS
      have hblock : a ∈ (g.coloured mark W).blocks := (show a ∈ g.blocks from ha.mem_blocks)
      have hheap : (g.coloured mark W).heap a = g.heap a := coloured_of_notMem haW
      rw [explore_of_notMem haW, hheap, if_neg hne, if_neg (hg.mark_ne_dead ha)]
      by_cases hperm : (g.heap a).mark = .perm
      · have hheld : g.held a = true := decide_eq_true hperm
        rw [if_pos hheld]
        exact (run_bind (markObject_perm (w := ⟨g.coloured mark W, log⟩) hblock
          ((congrArg MetaObj.mark hheap).trans hperm))).trans (hfields hW)
      · have hheld : g.held a = false := decide_eq_false hperm
        have hV : Kept g mark (insert a W) := by
          refine ⟨hW.1.trans (Finset.subset_insert a W), fun c hc => ?_⟩
          rcases Finset.mem_insert.mp hc with rfl | hc
          · exact hheld
          · exact hW.2 c hc
        have hmarkObject := @markObject_colour ⟨g.coloured mark W, log⟩ a mark hblock (by rwa [hheap])
        simp only [hheap, coloured_insert haW] at hmarkObject
        rw [if_neg (by simp [hheld])]
        exact (run_bind hmarkObject).trans (hfields hV)

/-- `mark_list`. -/
theorem markList_shows (hg : Painted g mark) (hS : g.Roomy S) {n : ℕ} {l : List Addr} (hl : ∀ a ∈ l, a ∈ S)
    (hW : Kept g mark W) : markList n l mark ⟨g.coloured mark W, log⟩ =
      shows g mark log (l.foldlM (explore g.pointers g.held n) W) := by
  have hloop := @forM_shows g mark log Addr (explore g.pointers g.held n) (fun hW h => explore_kept hW h)
    (fun a => markGraph n (some a) mark) (fun a => [a]) l (fun a ha W hW => ?_) W hW
  · rwa [List.flatMap_singleton'] at hloop
  · refine (markGraph_shows hg hS (hl a ha) hW).trans (congrArg _ ?_)
    simp [List.foldlM_cons]

/-- `mark_root`. -/
theorem markRoot_shows (hg : Painted g mark) (hS : g.Roomy S) {n : ℕ} {l : List Var}
    (hl : ∀ v ∈ l, ∀ a, g.vars v = some a → a ∈ S) (hW : Kept g mark W) :
    markRoot n l mark ⟨g.coloured mark W, log⟩ =
      shows g mark log ((l.flatMap fun v => (g.vars v).toList).foldlM (explore g.pointers g.held n) W) := by
  refine forM_shows (k := explore g.pointers g.held n) (fun hW h => explore_kept hW h)
    (fun v hv W hW => ?_) hW
  have hread : getGc ⟨g.coloured mark W, log⟩ = .ok (g.coloured mark W, ⟨g.coloured mark W, log⟩) := rfl
  refine (run_bind hread).trans ?_
  change markGraph n (g.vars v) mark _ = _
  cases hp : g.vars v with
  | none =>
    have hnone : markGraph n none mark = pure () := by cases n <;> rfl
    rw [hnone]
    rfl
  | some b =>
    refine (markGraph_shows hg hS (hl v hv b hp) hW).trans (congrArg _ ?_)
    simp [List.foldlM_cons]

end MarkGraph

/-! ## What a search sees

The search is stopped by what carries the mark already.  So what it enters is what is reached through objects
without the mark, and what holds it up is a cycle in which no object ever gets one. -/

/-- **Reached from `a` through objects that do not carry the mark.** -/
def GcMs.Sees (g : GcMs) (mark : Mark) (a b : Addr) : Prop :=
  Around g.Points {c | (g.heap c).mark = mark} {a} b

/-- On a cycle that consists of permanent objects only. -/
def GcMs.PermCycle (g : GcMs) (b : Addr) : Prop :=
  Relation.TransGen (fun b c => (g.heap b).mark = .perm ∧ (g.heap c).mark = .perm ∧ g.Points b c) b b

section Ends

variable {g : GcMs} {mark : Mark} {log : List Event} {a b : Addr}

/-- Of the objects in use, the entered ones are those that carry the mark; none of them is permanent. -/
theorem mem_entered_of_live (hg : Painted g mark) (ha : g.Live a) :
    a ∈ g.entered mark ↔ (g.heap a).mark = mark := by
  refine mem_entered.trans ⟨fun h => h.2, fun h => ⟨ha.resolve_right fun hp => ?_, h⟩⟩
  exact hg.ne_perm (h.symm.trans (hg.perm a hp))

/-- What is seen from an object is an object. -/
theorem live_of_sees (hg : Painted g mark) (ha : g.Live a) (h : g.Sees mark a b) : g.Live b := by
  refine From.mem_of_closed h (S := {b | g.Live b}) (fun b hb => ?_) fun b hb c hbc => hg.closed b hb c hbc.1
  obtain rfl : b = a := hb.1
  exact ha

/-- What is seen from an object is what a search reaches. -/
theorem sees_iff (hg : Painted g mark) (ha : g.Live a) :
    Around (fun b c => c ∈ g.pointers b) (↑(g.entered mark) : Set Addr) {a} b ↔ g.Sees mark a b := by
  constructor
  · refine fun h => (From.mem_of_closed h (S := {b | g.Live b ∧ g.Sees mark a b}) (fun b hb => ?_) ?_).2
    · obtain rfl : b = a := hb.1
      exact ⟨ha, .base rfl fun hm => hb.2 ((mem_entered_of_live hg ha).mpr hm)⟩
    · rintro b ⟨hlive, hb⟩ c ⟨hbc, hc⟩
      have hpoints := mem_pointers.mp hbc
      have hlive' := hg.closed b hlive c hpoints
      exact ⟨hlive', hb.step hpoints fun hm => hc ((mem_entered_of_live hg hlive').mpr hm)⟩
  · refine fun h => (From.mem_of_closed h (S := {b | g.Live b ∧
      Around (fun b c => c ∈ g.pointers b) (↑(g.entered mark) : Set Addr) {a} b}) (fun b hb => ?_) ?_).2
    · obtain rfl : b = a := hb.1
      exact ⟨ha, .base rfl fun hm => hb.2 ((mem_entered_of_live hg ha).mp hm)⟩
    · rintro b ⟨hlive, hb⟩ c ⟨hbc, hc⟩
      have hlive' := hg.closed b hlive c hbc
      exact ⟨hlive', hb.step (mem_pointers.mpr hbc) fun hm => hc ((mem_entered_of_live hg hlive').mp hm)⟩

/-- The lists are finite, so a search has an end if it enters each object once. -/
theorem finite_live : {b | g.Live b}.Finite :=
  (g.activeList ++ g.permList).finite_toSet.subset fun _ hb => List.mem_append.mpr hb

/-- The cycles that hold a search up are those of permanent objects. -/
theorem permCycle_iff : Relation.TransGen (HeldStep g.pointers g.held) b b ↔ g.PermCycle b := by
  have hstep : HeldStep g.pointers g.held =
      fun b c => (g.heap b).mark = .perm ∧ (g.heap c).mark = .perm ∧ g.Points b c := by
    funext b c
    simp only [HeldStep, GcMs.held, decide_eq_true_eq, mem_pointers]
  rw [hstep]
  exact Iff.rfl

/-- **A search from the object ends** exactly if no cycle of permanent objects is seen. -/
theorem explore_ends_iff_perm (hg : Painted g mark) (ha : g.Live a) :
    (∃ n W', explore g.pointers g.held n (g.entered mark) a = some W') ↔
      ∀ b, g.Sees mark a b → ¬ g.PermCycle b := by
  have hfin : {b | Around (fun b c => c ∈ g.pointers b) (↑(g.entered mark) : Set Addr) {a} b}.Finite :=
    finite_live.subset fun b hb => live_of_sees hg ha ((sees_iff hg ha).mp hb)
  rw [explore_ends_iff hfin (entered_kept hg).2]
  exact forall_congr' fun b => by rw [sees_iff hg ha, permCycle_iff]

/-- The marks after a search that ended. -/
theorem mark_of_explored (hg : Painted g mark) (ha : g.Live a) {n : ℕ} {W' : Finset Addr}
    (h : explore g.pointers g.held n (g.entered mark) a = some W') (hb : g.Live b)
    (hperm : (g.heap b).mark ≠ .perm) :
    ((g.coloured mark W').heap b).mark = mark ↔ (g.heap b).mark = mark ∨ g.Sees mark a b := by
  have hheld : g.held b = false := decide_eq_false hperm
  have hmem := mem_explore_iff (b := b) (entered_kept hg).2 h
  rw [mem_entered_of_live hg hb, sees_iff hg ha] at hmem
  by_cases hbW : b ∈ W'
  · rw [coloured_of_mem hbW]
    exact ⟨fun _ => (hmem.mp hbW).imp_right And.right, fun _ => rfl⟩
  · rw [coloured_of_notMem hbW]
    refine ⟨Or.inl, fun h => h.resolve_right fun hsees => hbW (hmem.mpr (Or.inr ⟨hheld, hsees⟩))⟩

end Ends

end Insomniac.Gc

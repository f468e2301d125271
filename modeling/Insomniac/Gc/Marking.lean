import Insomniac.Gc.Heap
import Insomniac.Machinery.Run
import Insomniac.Machinery.Traversal

/-!
# Gc/Marking — a mark phase visits what is reachable

Marking changes colours only, so the graph it walks (`Points`) is fixed while it walks.  An object
is *settled* when it has the new colour or is permanent; `mark_graph` is a traversal in the sense of
`Visits`, with the settled objects as the ones visited:

    newly coloured object  ≙  Visits.enter        permanent object  ≙  Visits.again

A permanent object never gets the colour, so it is walked through each time it is met.

Two things keep a mark phase from its end: that it walks in a circle, and that it reads behind the end
of a block.  What has been walked through was read to its last pointer, so a mark phase that ends has
shown that the block of every reachable object holds them all (`GcMs.Holds`).
-/

open Traversal Run

namespace Insomniac.Gc

/-! ## The object graph

The graph is read off the blocks and the registered types alone.  No colour is in it, which is what makes it the
same graph before, during and after a mark phase. -/

/-- `offset` is a pointer of the registered field `p` of the object at `a`. -/
def GcMs.Covers (g : GcMs) (a : Addr) (p : PtrDef) (offset : ℕ) : Prop :=
  match p.type with
  | .ptr => offset = p.offset
  | .array => ∃ arrayDef, g.typeDefs[g.arrayType]? = some arrayDef ∧
      ∃ i < (g.heap a).size / arrayDef.size, offset = p.offset + ptrSize * i

/-- `offset` is a registered pointer of the object at `a`. -/
def GcMs.IsField (g : GcMs) (a : Addr) (offset : ℕ) : Prop :=
  0 ≤ (g.heap a).typeDef ∧ ∃ d, g.typeDefs[(g.heap a).typeDef.toNat]? = some d ∧
    ∃ p ∈ d.rootList, g.Covers a p offset

/-- What is a registered pointer depends on the types and on the header of the object. -/
theorem GcMs.isField_iff {g g' : GcMs} {a : Addr} {offset : ℕ}
    (htypes : g'.typeDefs = g.typeDefs) (harray : g'.arrayType = g.arrayType)
    (htype : (g'.heap a).typeDef = (g.heap a).typeDef) (hsize : (g'.heap a).size = (g.heap a).size) :
    g'.IsField a offset ↔ g.IsField a offset := by
  simp only [IsField, Covers, htypes, harray, htype, hsize]

/-- The bytes at `offset` lie in the block of the object. -/
def GcMs.InBlock (g : GcMs) (a : Addr) (offset : ℕ) : Prop :=
  objectOffset + offset + ptrSize ≤ (g.heap a).block

instance (g : GcMs) (a : Addr) (offset : ℕ) : Decidable (g.InBlock a offset) :=
  inferInstanceAs (Decidable (_ ≤ _))

/-- **The block of the object holds its registered pointers.**  It does unless the size wrapped on its
way to `calloc`. -/
def GcMs.Holds (g : GcMs) (a : Addr) : Prop := ∀ offset, g.IsField a offset → g.InBlock a offset

/-- Whether a block holds its object does not depend on the mark. -/
theorem GcMs.holds_iff {g g' : GcMs} {a : Addr} {m : Mark} (htypes : g'.typeDefs = g.typeDefs)
    (harray : g'.arrayType = g.arrayType) (hobj : g'.heap a = { g.heap a with mark := m }) :
    g'.Holds a ↔ g.Holds a := by
  simp only [Holds, InBlock, IsField, Covers, htypes, harray, hobj]

/-- The object at `a` points at the one at `b`. -/
def GcMs.Points (g : GcMs) (a b : Addr) : Prop :=
  ∃ offset, g.IsField a offset ∧ (g.heap a).slots offset = some b

/-- The objects a mark phase begins with. -/
def GcMs.rootSet (g : GcMs) : Set Addr :=
  {a | a ∈ g.permList ∨ ∃ v ∈ g.rootList, g.vars v = some a}

/-- **Reachable from a root or a permanent object.** -/
def GcMs.Reachable (g : GcMs) (a : Addr) : Prop := From g.rootSet g.Points a

/-- In use: neither dead nor freed. -/
def GcMs.Live (g : GcMs) (a : Addr) : Prop := a ∈ g.activeList ∨ a ∈ g.permList

instance (g : GcMs) (a : Addr) : Decidable (g.Live a) := inferInstanceAs (Decidable (_ ∨ _))

/-- What is in use is on one of the three lists. -/
theorem GcMs.Live.mem_blocks {g : GcMs} {a : Addr} (h : g.Live a) : a ∈ g.blocks := by
  rcases h with h | h
  · simp [blocks, h]
  · simp [blocks, h]

/-- **What the collector keeps true** between operations.  Every block has the bytes `gc_malloc` makes of
the size in its header.  The cell size is that of a structure: `gc_create` is passed
`sizeof(object_type)`. -/
structure Inv (g : GcMs) : Prop where
  nodup : g.blocks.Nodup
  colour : g.currentMark = .red ∨ g.currentMark = .black
  active : ∀ a ∈ g.activeList, (g.heap a).mark = g.currentMark
  dead : ∀ a ∈ g.deadList, (g.heap a).mark = .dead ∧ (g.heap a).size = g.cellSize
  perm : ∀ a ∈ g.permList, (g.heap a).mark = .perm
  closed : ∀ a, g.Live a → ∀ b, g.Points a b → g.Live b
  roots : ∀ v ∈ g.rootList, ∀ a, g.vars v = some a → g.Live a
  typed : ∀ a, g.Live a → (g.heap a).typeDef < g.typeDefs.length
  arrayType : g.arrayType < g.typeDefs.length
  protect : 0 ≤ g.protectCount
  sized : ∀ a ∈ g.blocks, (g.heap a).block = g.mallocSize (realSize (g.heap a).size)
  cells : g.cellSize < 2 ^ 62

namespace Inv

variable {g : GcMs} (hg : Inv g) {a : Addr}

include hg

/-- **What is reachable is live.** -/
theorem live_of_reachable (h : g.Reachable a) : g.Live a :=
  h.mem_of_closed (S := {a | g.Live a})
    (fun _ ha => ha.elim Or.inr fun ⟨v, hv, hva⟩ => hg.roots v hv _ hva) hg.closed

/-- No object is on two of the lists, so a permanent one is not active. -/
theorem not_active_of_perm (h : a ∈ g.permList) : a ∉ g.activeList := fun ha => by
  have := (List.nodup_append.mp hg.nodup).2.2 a (List.mem_append_left _ ha) a h
  exact this rfl

/-- An object in use has the colour of the collector, or is permanent. -/
theorem mark_of_live (h : g.Live a) :
    (g.heap a).mark = g.currentMark ∨ (g.heap a).mark = .perm :=
  h.imp (hg.active a) (hg.perm a)

/-- The colour of the collector is red or black, so never that of a dead cell. -/
theorem currentMark_ne_dead : g.currentMark ≠ .dead := by
  rcases hg.colour with h | h <;> simp [h]

/-- Nor is it the mark of a permanent object. -/
theorem currentMark_ne_perm : g.currentMark ≠ .perm := by
  rcases hg.colour with h | h <;> simp [h]

/-- What is in use does not carry the mark of a dead cell; so `mark_graph` never ends in its fatal branch. -/
theorem mark_ne_dead (h : g.Live a) : (g.heap a).mark ≠ .dead := by
  rcases hg.mark_of_live h with h | h
  · exact h ▸ hg.currentMark_ne_dead
  · simp [h]

/-- Of the objects in use, those on the permanent list are the ones with its mark. -/
theorem mem_perm_iff (h : g.Live a) : a ∈ g.permList ↔ (g.heap a).mark = .perm := by
  refine ⟨hg.perm a, fun hm => h.resolve_left fun ha => ?_⟩
  exact hg.currentMark_ne_perm ((hg.active a ha).symm.trans hm)

/-- **The block of a cell holds its header**, with room to spare. -/
theorem header_le_cell : objectOffset ≤ g.mallocSize (realSize g.cellSize) := by
  have hcells := hg.cells
  have hsmall : sizeofMetaObj + g.cellSize < 2 ^ 64 := by
    simp only [sizeofMetaObj]
    omega
  have hsize : realSize g.cellSize = sizeofMetaObj + g.cellSize := Nat.mod_eq_of_lt hsmall
  simp only [GcMs.mallocSize, GcMs.sizeGranularity, hsize, Nat.mod_self, sizeofMetaObj, objectOffset]
  omega

/-- The granularity is that of a cell with its header, so `gc_malloc` divides by it. -/
theorem granularity_ne_zero : g.sizeGranularity ≠ 0 := by
  have hcells := hg.cells
  simp only [GcMs.sizeGranularity, realSize, sizeofMetaObj]
  omega

/-- Neither a dead block nor a new one is live. -/
theorem not_live_of_dead (h : a ∈ g.deadList) : ¬ g.Live a := fun ha =>
  hg.mark_ne_dead ha (hg.dead a h).1

end Inv

/-! ## A small logic of marking

`Marks mark g T P x` says what the program `x` does to a heap on which a mark phase has begun, for the pointers
`T` that it is given; `P` is what it has found of the blocks of the objects it read.  Its rules follow the way
the programs are put together: `seq`, `forM`, reading a pointer. -/

/-- `h` is the heap of `g` with some live objects coloured. -/
def Recoloured (mark : Mark) (g : GcMs) (h : Addr → MetaObj) : Prop :=
  ∀ a, h a = g.heap a ∨ (g.Live a ∧ (g.heap a).mark ≠ .perm ∧ h a = { g.heap a with mark })

/-- The objects that a mark phase is not going to colour any more. -/
def settled (mark : Mark) (g : GcMs) (h : Addr → MetaObj) : Set Addr :=
  {a | g.Live a ∧ ((h a).mark = mark ∨ (h a).mark = .perm)}

/-- The collector in the middle of a mark phase. -/
def GcMs.during (g : GcMs) (mark : Mark) (h : Addr → MetaObj) : GcMs :=
  { g with heap := h, currentMark := mark }

/-- Every object of a recoloured heap is the one of the heap that was coloured, but for its mark. -/
theorem Recoloured.eq {mark : Mark} {g : GcMs} {h : Addr → MetaObj} (hh : Recoloured mark g h)
    (a : Addr) : ∃ m, h a = { g.heap a with mark := m } := by
  rcases hh a with he | ⟨-, -, he⟩
  · exact ⟨_, he⟩
  · exact ⟨_, he⟩

/-- A pointer to a block is followed to that block. -/
theorem load_run {w : World} {a : Addr} (h : a ∈ w.gc.blocks) : load a w = .ok (w.gc.heap a, w) := by
  refine (run_bind rfl).trans ?_
  rw [if_pos h]
  rfl

/-- `mark_object` leaves the mark of a permanent object as it is. -/
theorem markObject_perm {w : World} {a : Addr} {mark : Mark} (h : a ∈ w.gc.blocks)
    (hm : (w.gc.heap a).mark = .perm) : markObject a mark w = .ok ((), w) := by
  refine (run_bind (load_run h)).trans ?_
  rw [if_pos hm]
  rfl

/-- `mark_object` gives any other object the mark. -/
theorem markObject_colour {w : World} {a : Addr} {mark : Mark} (h : a ∈ w.gc.blocks)
    (hm : (w.gc.heap a).mark ≠ .perm) : markObject a mark w =
      .ok ((), { w with gc := w.gc.put a { w.gc.heap a with mark } }) := by
  refine (run_bind (load_run h)).trans ?_
  rw [if_neg hm]
  rfl

/-- How a mark phase may fail: it does not come to its end, or it comes to a reachable object whose
block is too small for its pointers. -/
def Unfinished (g : GcMs) (e : Stop) : Prop :=
  e = .marking ∨ e = .outOfBlock ∧ ∃ a, g.Reachable a ∧ ¬ g.Holds a

/-- What `x` has done to the heap: it coloured the targets `T` and what they reach, read every pointer
of what it coloured, and found `P` to be true. -/
structure Marked (mark : Mark) (g : GcMs) (h h' : Addr → MetaObj) (T : Set Addr) (P : Prop) : Prop where
  recoloured : Recoloured mark g h'
  visits : Visits g.Points (settled mark g h) (settled mark g h') T
  holds : ∀ a ∈ settled mark g h', a ∉ settled mark g h → g.Holds a
  found : P

/-- **`x` colours the targets `T` and what they reach**, or does not come to its end. -/
def Marks (mark : Mark) (g : GcMs) (T : Set Addr) (P : Prop) (x : GcM Unit) : Prop :=
  ∀ h log, Recoloured mark g h → Ends (Unfinished g) x ⟨g.during mark h, log⟩ fun _ w =>
    ∃ h', w = ⟨g.during mark h', log⟩ ∧ Marked mark g h h' T P

namespace Marks

variable {mark : Mark} {g : GcMs} {T T' : Set Addr} {P P' : Prop} {x y : GcM Unit} {ι : Type}

/-- A program that marks some targets marks others that are equal to them, and finds what follows from what it
finds. -/
theorem congr (h : Marks mark g T P x) (hT : T' = T) (hP : P → P') : Marks mark g T' P' x :=
  fun h₀ log hh => (h h₀ log hh).mono fun _ _ ⟨h', hw, hm⟩ => by
    subst hT
    exact ⟨h', hw, { hm with found := hP hm.found }⟩

theorem skip : Marks mark g ∅ True (pure ()) := fun h _ hh =>
  ends_pure ⟨h, rfl, hh, .refl (Set.empty_subset _), fun _ ha hna => absurd ha hna, trivial⟩

/-- To give up is one of the ways a mark phase may fail. -/
theorem stop : Marks mark g T P (throw .marking) := fun _ _ _ => ends_throw (Or.inl rfl)

/-- **One program behind the other** marks the targets of both, and finds what either finds. -/
theorem seq (hx : Marks mark g T P x) (hy : Marks mark g T' P' y) :
    Marks mark g (T ∪ T') (P ∧ P') (x >>= fun _ => y) := fun h log hh => by
  refine (hx h log hh).bind fun _ w hw => ?_
  obtain ⟨h₁, rfl, hm₁⟩ := hw
  refine (hy h₁ log hm₁.recoloured).mono fun _ w hw => ?_
  obtain ⟨h₂, rfl, hm₂⟩ := hw
  refine ⟨h₂, rfl, hm₂.recoloured, hm₁.visits.comp hm₂.visits, fun a ha hna => ?_, hm₁.found, hm₂.found⟩
  by_cases ha₁ : a ∈ settled mark g h₁
  · exact hm₁.holds a ha₁ hna
  · exact hm₂.holds a ha ha₁

/-- **A loop colours the targets of all its rounds**, and finds what they find. -/
theorem forM {f : ι → GcM Unit} {S : ι → Set Addr} {Q : ι → Prop} : ∀ {l : List ι},
    (∀ i ∈ l, Marks mark g (S i) (Q i) (f i)) →
      Marks mark g {a | ∃ i ∈ l, a ∈ S i} (∀ i ∈ l, Q i) (l.forM f)
  | [], _ => skip.congr (by simp) fun _ => by simp
  | i :: l, hl => by
      have hcons : {a | ∃ j ∈ i :: l, a ∈ S j} = S i ∪ {a | ∃ j ∈ l, a ∈ S j} := by
        ext a
        simp
      have hrest := forM fun j hj => hl j (List.mem_cons_of_mem _ hj)
      exact ((hl i (by simp)).seq hrest).congr hcons fun h => List.forall_mem_cons.mpr h

/-- Reading the state shows a recoloured heap. -/
theorem getGc {k : GcMs → GcM Unit} (hk : ∀ h, Recoloured mark g h →
    Marks mark g T P (k (g.during mark h))) : Marks mark g T P (Gc.getGc >>= k) :=
  fun h log hh => hk h hh h log hh

/-- **Reading a pointer** of a reachable object finds it in the block. -/
theorem loadPtr {a : Addr} (ha : g.Reachable a) (hlive : g.Live a) {offset : ℕ} (ho : g.IsField a offset)
    {k : Option Addr → GcM Unit} (hk : Marks mark g T P (k ((g.heap a).slots offset))) :
    Marks mark g T (g.InBlock a offset ∧ P) (Gc.loadPtr a offset >>= k) := fun h log hh => by
  obtain ⟨m, hm⟩ := hh.eq a
  have hload : Gc.load a ⟨g.during mark h, log⟩ = .ok (h a, ⟨g.during mark h, log⟩) :=
    load_run (w := ⟨g.during mark h, log⟩) hlive.mem_blocks
  have hblock : objectOffset + offset + ptrSize ≤ (h a).block ↔ g.InBlock a offset := by rw [hm]; rfl
  have hslot : (h a).slots offset = (g.heap a).slots offset := by rw [hm]
  refine ends_bind.mpr (ends_bind.mpr (ends_of_eq hload ?_))
  by_cases hin : g.InBlock a offset
  · rw [if_pos (hblock.mpr hin), hslot]
    refine ends_pure ?_
    exact (hk h log hh).mono fun _ _ ⟨h', hw, hmarked⟩ =>
      ⟨h', hw, { hmarked with found := ⟨hin, hmarked.found⟩ }⟩
  · rw [if_neg (mt hblock.mp hin)]
    exact ends_throw (Or.inr ⟨rfl, a, ha, fun hholds => hin (hholds offset ho)⟩)

end Marks

/-! ## mark_graph

The induction is on the depth.  An object is settled before its fields are walked, so that the rule for loops
applies to them with the object among those already visited. -/

section MarkGraph

variable {g : GcMs} {mark : Mark} {next : Option Addr → GcM Unit} {a : Addr}

/-- A pointer is handed on as it stands in the heap the phase began with. -/
theorem marks_slot (hg : Inv g)
    (hnext : ∀ p, (∀ b, p = some b → g.Reachable b) → Marks mark g {b | p = some b} True (next p))
    (ha : g.Reachable a) {offset : ℕ} (ho : g.IsField a offset) :
    Marks mark g {b | (g.heap a).slots offset = some b} (g.InBlock a offset)
      (loadPtr a offset >>= fun p => next p) :=
  (Marks.loadPtr ha (hg.live_of_reachable ha) ho
    (hnext _ fun _ hb => ha.step ⟨offset, ho, hb⟩)).congr rfl And.left

/-- **One registered field.** -/
theorem markField_marks (hg : Inv g)
    (hnext : ∀ p, (∀ b, p = some b → g.Reachable b) → Marks mark g {b | p = some b} True (next p))
    (ha : g.Reachable a) (m : Mark) {p : PtrDef} (hp : ∀ offset, g.Covers a p offset → g.IsField a offset) :
    Marks mark g {b | ∃ offset, g.Covers a p offset ∧ (g.heap a).slots offset = some b}
      (∀ offset, g.Covers a p offset → g.InBlock a offset)
      (markField next a { g.heap a with mark := m } p) := by
  obtain ⟨type, offset⟩ := p
  cases type with
  | ptr =>
    refine (marks_slot hg hnext ha (hp offset rfl)).congr ?_ fun hin o ho => ?_
    · ext b
      refine ⟨fun ⟨o, ho, hb⟩ => ?_, fun hb => ⟨offset, rfl, hb⟩⟩
      obtain rfl : o = offset := ho
      exact hb
    · obtain rfl : o = offset := ho
      exact hin
  | array =>
    obtain ⟨arrayDef, hdef⟩ : ∃ d, g.typeDefs[g.arrayType]? = some d :=
      ⟨_, List.getElem?_eq_getElem hg.arrayType⟩
    refine .getGc fun h _ => ?_
    simp only [GcMs.during, hdef]
    refine (Marks.forM fun i hi => marks_slot hg hnext ha
      (hp _ ⟨arrayDef, hdef, i, List.mem_range.mp hi, rfl⟩)).congr ?_ ?_
    · ext b
      constructor
      · rintro ⟨_, ⟨d, hd, i, hi, rfl⟩, hb⟩
        obtain rfl : d = arrayDef := Option.some.inj (hd.symm.trans hdef)
        exact ⟨i, List.mem_range.mpr hi, hb⟩
      · rintro ⟨i, hi, hb⟩
        exact ⟨_, ⟨arrayDef, hdef, i, List.mem_range.mp hi, rfl⟩, hb⟩
    · rintro hin _ ⟨d, hd, i, hi, rfl⟩
      obtain rfl : d = arrayDef := Option.some.inj (hd.symm.trans hdef)
      exact hin i (List.mem_range.mpr hi)

/-- **The fields of an object** are its edges in the graph, and its block holds them. -/
theorem markFields_marks (hg : Inv g)
    (hnext : ∀ p, (∀ b, p = some b → g.Reachable b) → Marks mark g {b | p = some b} True (next p))
    (ha : g.Reachable a) (m : Mark) :
    Marks mark g {b | g.Points a b} (g.Holds a) (markFields next a { g.heap a with mark := m }) := by
  unfold markFields
  by_cases htype : 0 ≤ (g.heap a).typeDef
  · obtain ⟨d, hd⟩ : ∃ d, g.typeDefs[(g.heap a).typeDef.toNat]? = some d := by
      have := hg.typed a (hg.live_of_reachable ha)
      exact ⟨_, List.getElem?_eq_getElem (by omega)⟩
    rw [if_pos htype]
    refine .getGc fun h _ => ?_
    simp only [GcMs.during, hd]
    refine (Marks.forM fun p hp => markField_marks hg hnext ha m fun offset ho =>
      ⟨htype, d, hd, p, hp, ho⟩).congr ?_ ?_
    · ext b
      constructor
      · rintro ⟨offset, ⟨-, d', hd', p, hp, ho⟩, hb⟩
        obtain rfl : d' = d := Option.some.inj (hd'.symm.trans hd)
        exact ⟨p, hp, offset, ho, hb⟩
      · rintro ⟨p, hp, offset, ho, hb⟩
        exact ⟨offset, ⟨htype, d, hd, p, hp, ho⟩, hb⟩
    · rintro hin offset ⟨-, d', hd', p, hp, ho⟩
      obtain rfl : d' = d := Option.some.inj (hd'.symm.trans hd)
      exact hin p hp offset ho
  · rw [if_neg htype]
    refine Marks.skip.congr ?_ fun _ offset ho => absurd ho.1 htype
    ext b
    exact ⟨fun ⟨_, ho, _⟩ => htype ho.1, fun hb => hb.elim⟩

/-- Colouring an object settles it. -/
theorem settled_update (h : Addr → MetaObj) (mark : Mark) (ha : g.Live a) :
    settled mark g (Function.update h a { h a with mark }) = insert a (settled mark g h) := by
  ext b
  rcases eq_or_ne b a with rfl | hb
  · simp [settled, ha]
  · simp [settled, hb]

/-- Colouring one more object that is not permanent keeps the heap a recoloured one. -/
theorem Recoloured.update {h : Addr → MetaObj} (hh : Recoloured mark g h) (ha : g.Live a)
    (hperm : (g.heap a).mark ≠ .perm) :
    Recoloured mark g (Function.update h a { h a with mark }) := fun b => by
  rcases eq_or_ne b a with rfl | hb
  · obtain ⟨m, hm⟩ := hh.eq b
    exact Or.inr ⟨ha, hperm, by simp [hm]⟩
  · simpa [hb] using hh b

/-- One level of `mark_graph` at a block: the three branches on its mark, read in the heap as it stands. -/
theorem markGraph_succ_run {h : Addr → MetaObj} {log : List Event} {n : ℕ} (ha : a ∈ g.blocks) :
    markGraph (n + 1) (some a) mark ⟨g.during mark h, log⟩ =
      (if (h a).mark = mark then pure ()
        else if (h a).mark = .dead then throw .activeObjectInDeadList
        else markObject a mark >>= fun _ =>
          markFields (fun p => markGraph n p mark) a (h a)) ⟨g.during mark h, log⟩ :=
  run_bind (load_run (w := ⟨g.during mark h, log⟩) ha)

/-- **`mark_graph` is a traversal** from the object it is given.  The induction is on its depth;
the colour stops it at an object that is being walked through or has been. -/
theorem markGraph_marks (hg : Inv g) (hmark : mark ≠ .dead) : ∀ (n : ℕ) (p : Option Addr),
    (∀ b, p = some b → g.Reachable b) → Marks mark g {b | p = some b} True (markGraph n p mark)
  | n, none, _ => by
      have hrun : markGraph n none mark = pure () := by cases n <;> rfl
      rw [hrun]
      exact Marks.skip.congr (by ext b; simp) id
  | 0, some a, _ => .stop
  | n + 1, some a, hp => by
      have hreach : g.Reachable a := hp a rfl
      have ha : g.Live a := hg.live_of_reachable hreach
      have hsingle : {b | some a = some b} = ({a} : Set Addr) := by
        ext b
        simp [eq_comm]
      have hfields := fun m => markFields_marks hg (fun p => markGraph_marks hg hmark n p) hreach m
      rw [hsingle]
      intro h log hh
      rw [Ends.congr (markGraph_succ_run ha.mem_blocks)]
      by_cases hm : (h a).mark = mark
      · rw [if_pos hm]
        exact ends_pure ⟨h, rfl, hh, .refl (Set.singleton_subset_iff.mpr ⟨ha, Or.inl hm⟩),
          fun _ hb hnb => absurd hb hnb, trivial⟩
      have hha : h a = g.heap a := (hh a).resolve_right fun ⟨_, _, he⟩ => hm (by rw [he])
      have hrest : Marks mark g {b | g.Points a b} (g.Holds a)
          (markFields (fun p => markGraph n p mark) a (h a)) := by
        rw [hha]
        exact hfields (g.heap a).mark
      have hdead : (h a).mark ≠ .dead := hha ▸ hg.mark_ne_dead ha
      rw [if_neg hm, if_neg hdead]
      by_cases hperm : (h a).mark = .perm
      -- a permanent object keeps its mark
      · refine ends_bind.mpr (ends_of_eq (markObject_perm ha.mem_blocks hperm) ?_)
        refine (hrest h log hh).mono fun _ w hw => ?_
        obtain ⟨h', rfl, hmarked⟩ := hw
        exact ⟨h', rfl, hmarked.recoloured, hmarked.visits.again ⟨ha, Or.inr hperm⟩, hmarked.holds, trivial⟩
      · refine ends_bind.mpr (ends_of_eq (markObject_colour ha.mem_blocks hperm) ?_)
        refine (hrest _ log (hh.update ha (hha ▸ hperm))).mono fun _ w hw => ?_
        obtain ⟨h', rfl, hmarked⟩ := hw
        have hinsert := settled_update h mark ha
        refine ⟨h', rfl, hmarked.recoloured, (hinsert ▸ hmarked.visits).enter, fun b hb hnb => ?_, trivial⟩
        rcases eq_or_ne b a with rfl | hne
        · exact hmarked.found
        · exact hmarked.holds b hb fun hmem => hnb ((hinsert ▸ hmem).resolve_left hne)

/-- A permanent object is walked through however often it is met. -/
theorem markGraph_perm_marks (hg : Inv g) (hmark : mark ≠ .perm ∧ mark ≠ .dead)
    (ha : a ∈ g.permList) : ∀ n : ℕ, Marks mark g {b | g.Points a b} (g.Holds a) (markGraph n (some a) mark)
  | 0 => .stop
  | n + 1 => by
      have hlive : g.Live a := Or.inr ha
      intro h log hh
      rw [Ends.congr (markGraph_succ_run hlive.mem_blocks)]
      have hha : h a = g.heap a := (hh a).resolve_right fun ⟨_, hp, _⟩ => hp (hg.perm a ha)
      have hperm : (h a).mark = .perm := hha ▸ hg.perm a ha
      have hm : (h a).mark ≠ mark := hperm ▸ hmark.1.symm
      have hdead : (h a).mark ≠ .dead := by simp [hperm]
      rw [if_neg hm, if_neg hdead]
      refine ends_bind.mpr (ends_of_eq (markObject_perm hlive.mem_blocks hperm) ?_)
      have hrest := markFields_marks hg
        (fun p => markGraph_marks hg hmark.2 n p) (.base (Or.inl ha)) (g.heap a).mark
      exact (hha ▸ hrest : Marks mark g _ _ (markFields _ a (h a))) h log hh

/-- **The mark phase of a sweep** gives the new colour to what is reachable and not permanent, and has
found that every reachable object has a block for its pointers. -/
theorem markPhase (hg : Inv g) (hmark : mark = .red ∨ mark = .black) (hnew : mark ≠ g.currentMark)
    (n : ℕ) (log : List Event) :
    Ends (Unfinished g) (markList n g.permList mark >>= fun _ => markRoot n g.rootList mark)
      ⟨g.during mark g.heap, log⟩ fun _ w => ∃ h, w = ⟨g.during mark h, log⟩ ∧
        Recoloured mark g h ∧ (∀ a, g.Reachable a → g.Holds a) ∧
        ∀ a, g.Live a → ((h a).mark = mark ↔ g.Reachable a ∧ a ∉ g.permList) := by
  have hperm : mark ≠ .perm := by rcases hmark with h | h <;> simp [h]
  have hdead : mark ≠ .dead := by rcases hmark with h | h <;> simp [h]
  have hlist : Marks mark g {b | ∃ a ∈ g.permList, b ∈ {b | g.Points a b}} (∀ a ∈ g.permList, g.Holds a)
      (markList n g.permList mark) :=
    Marks.forM fun a ha => markGraph_perm_marks hg ⟨hperm, hdead⟩ ha n
  have hroot : Marks mark g {b | ∃ v ∈ g.rootList, b ∈ {b | g.vars v = some b}} (∀ v ∈ g.rootList, True)
      (markRoot n g.rootList mark) :=
    Marks.forM fun v hv => .getGc fun _ _ =>
      markGraph_marks hg hdead n (g.vars v) fun b hb => .base (Or.inr ⟨v, hv, hb⟩)
  have hstart : settled mark g g.heap = {a | a ∈ g.permList} := by
    ext a
    constructor
    · rintro ⟨ha, hm | hm⟩
      · rcases hg.mark_of_live ha with hm' | hm'
        · exact absurd (hm.symm.trans hm') hnew
        · exact absurd (hm.symm.trans hm') hperm
      · exact (hg.mem_perm_iff ha).mpr hm
    · exact fun ha => ⟨Or.inr ha, Or.inr (hg.perm a ha)⟩
  refine ((hlist.seq hroot) g.heap log fun a => Or.inl rfl).mono fun _ w hw => ?_
  obtain ⟨h, rfl, hh, hv, hholds, hfound, -⟩ := hw
  rw [hstart] at hv hholds
  have hreach : ∀ a, a ∈ settled mark g h ↔ g.Reachable a := fun a => by
    refine (hv.mem_iff fun a ha b hab => hv.hit (Or.inl ⟨a, ha, hab⟩)).trans ⟨fun hr => ?_, fun hr =>
      hr.mono ?_⟩
    · refine hr.trans (fun b hb => ?_) fun b hb c hbc => hb.step hbc
      rcases hb with hb | ⟨a, ha, hab⟩ | ⟨v, hv, hvb⟩
      · exact .base (Or.inl hb)
      · exact From.step (R := g.Points) (From.base (Or.inl ha)) hab
      · exact .base (Or.inr ⟨v, hv, hvb⟩)
    · rintro b (hb | hb)
      · exact Or.inl hb
      · exact Or.inr (Or.inr hb)
  refine ⟨h, rfl, hh, fun a ha => ?_, fun a ha => ?_⟩
  · by_cases hp : a ∈ g.permList
    · exact hfound a hp
    · exact hholds a ((hreach a).mpr ha) hp
  rw [← hreach]
  constructor
  · refine fun hm => ⟨⟨ha, Or.inl hm⟩, fun hp => ?_⟩
    have hha : h a = g.heap a := (hh a).resolve_right fun ⟨_, hne, _⟩ => hne (hg.perm a hp)
    exact hperm (hm.symm.trans (hha ▸ hg.perm a hp))
  · rintro ⟨⟨-, hm | hm⟩, hp⟩
    · exact hm
    · rcases hh a with he | ⟨-, -, he⟩
      · exact absurd ((hg.mem_perm_iff ha).mpr (he ▸ hm)) hp
      · rw [he]

end MarkGraph

end Insomniac.Gc

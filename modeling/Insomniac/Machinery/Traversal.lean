import Mathlib.Logic.Relation
import Mathlib.Data.Set.Insert
import Mathlib.Tactic.Common

/-!
# Machinery/Traversal — depth-first traversal, by what it has visited

`From init R a` says that a path of `R` leads from `init` to `a`.  A traversal started on the
targets `T` with the set `W` already visited ends with a set `W'`; `Visits R W W' T` is all that is
ever asked of it:

    W ⊆ W'      T ⊆ W'      R keeps W' \ W inside W'      W' \ W is reached from T

Visits compose (`comp`), and the visit of one point is the visit of its successors (`enter`), so a
recursive traversal is proved along its own recursion.  The points visited but not finished are the
ones in `W`; nothing is said about their successors until the traversal that entered them ends.
-/

namespace Traversal

variable {α : Type*} {R R' : α → α → Prop} {init init' S : Set α} {a b : α}

/-- **A path of `R` leads from `init` to `a`.** -/
def From (init : Set α) (R : α → α → Prop) (a : α) : Prop :=
  ∃ r ∈ init, Relation.ReflTransGen R r a

namespace From

theorem base (h : a ∈ init) : From init R a := ⟨a, h, .refl⟩

theorem step (h : From init R a) (hab : R a b) : From init R b := by
  obtain ⟨r, hr, hra⟩ := h
  exact ⟨r, hr, hra.tail hab⟩

/-- **A closed set that contains `init` contains all that is reached from it.** -/
theorem mem_of_closed (h : From init R a) (hinit : init ⊆ S)
    (hclosed : ∀ a ∈ S, ∀ b, R a b → b ∈ S) : a ∈ S := by
  obtain ⟨r, hr, hra⟩ := h
  induction hra with
  | refl => exact hinit hr
  | tail _ hbc ih => exact hclosed _ ih _ hbc

/-- Reaching further, along the way. -/
theorem trans (h : From init R a) (hinit : ∀ b ∈ init, From init' R' b)
    (hstep : ∀ b, From init' R' b → ∀ c, R b c → From init' R' c) : From init' R' a :=
  h.mem_of_closed (S := {a | From init' R' a}) hinit hstep

/-- From more points to begin with. -/
theorem mono (h : From init R a) (hinit : init ⊆ init') : From init' R a :=
  h.trans (fun _ hb => base (hinit hb)) fun _ hb _ hbc => hb.step hbc

end From

/-- **What a traversal of `T` does** that starts with `W` visited and ends with `W'`. -/
structure Visits (R : α → α → Prop) (W W' T : Set α) : Prop where
  grow : W ⊆ W'
  hit : T ⊆ W'
  closed : ∀ a ∈ W', a ∉ W → ∀ b, R a b → b ∈ W'
  sound : ∀ a ∈ W', a ∉ W → From T R a

namespace Visits

variable {W W' W'' T T' : Set α}

/-- Nothing to do. -/
theorem refl (h : T ⊆ W) : Visits R W W T where
  grow := fun _ ha => ha
  hit := h
  closed := fun _ ha hna => absurd ha hna
  sound := fun _ ha hna => absurd ha hna

/-- **One traversal after another.** -/
theorem comp (h : Visits R W W' T) (h' : Visits R W' W'' T') : Visits R W W'' (T ∪ T') where
  grow := h.grow.trans h'.grow
  hit := Set.union_subset (h.hit.trans h'.grow) h'.hit
  closed a ha hna b hab := by
    by_cases haw : a ∈ W'
    · exact h'.grow (h.closed a haw hna b hab)
    · exact h'.closed a ha haw b hab
  sound a ha hna := by
    by_cases haw : a ∈ W'
    · exact (h.sound a haw hna).mono Set.subset_union_left
    · exact (h'.sound a ha haw).mono Set.subset_union_right

/-- **Entering a point**: it is visited first, and then its successors are. -/
theorem enter (h : Visits R (insert a W) W' {b | R a b}) : Visits R W W' {a} where
  grow := (Set.subset_insert a W).trans h.grow
  hit := Set.singleton_subset_iff.mpr (h.grow (Set.mem_insert a W))
  closed c hc hnc b hcb := by
    rcases eq_or_ne c a with rfl | hca
    · exact h.hit hcb
    · exact h.closed c hc (fun hmem => (Set.mem_insert_iff.mp hmem).elim hca hnc) b hcb
  sound c hc hnc := by
    rcases eq_or_ne c a with rfl | hca
    · exact .base rfl
    · refine (h.sound c hc fun hmem => (Set.mem_insert_iff.mp hmem).elim hca hnc).trans
        (fun b hb => (From.base (Set.mem_singleton a)).step hb) fun _ hb _ hbc => hb.step hbc

/-- Passing again through a point that is visited already. -/
theorem again (h : Visits R W W' {b | R a b}) (ha : a ∈ W) : Visits R W W' {a} :=
  { h with
    hit := Set.singleton_subset_iff.mpr (h.grow ha)
    sound := fun c hc hnc => (h.sound c hc hnc).trans (fun _ hb => (From.base (Set.mem_singleton a)).step hb)
      fun _ hb _ hbc => hb.step hbc }

/-- **A traversal that was started on every successor of what it began with** has visited exactly
what is reached. -/
theorem mem_iff (h : Visits R W W' T) (hW : ∀ a ∈ W, ∀ b, R a b → b ∈ W') :
    a ∈ W' ↔ From (W ∪ T) R a := by
  constructor
  · intro ha
    by_cases haw : a ∈ W
    · exact .base (Or.inl haw)
    · exact (h.sound a ha haw).mono Set.subset_union_right
  · intro ha
    refine ha.mem_of_closed (Set.union_subset h.grow h.hit) fun b hb c hbc => ?_
    by_cases hbw : b ∈ W
    · exact hW b hbw c hbc
    · exact h.closed b hb hbw c hbc

end Visits

end Traversal

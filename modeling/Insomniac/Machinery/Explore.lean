import Insomniac.Machinery.Traversal
import Mathlib.Data.Finset.Card
import Mathlib.Order.WellFoundedSet

/-!
# Machinery/Explore — depth-first search, and when it ends

`explore n W a` searches from `a`, `n` points deep; `W` is what it has entered.  It does not enter a point
twice, but some points are *held*: they are never entered, and walked through whenever they are met.

    a ∈ W  ⟶  done        a not held  ⟶  enter a, then its successors        a held  ⟶  its successors

A search enters exactly what is reached around `W` (`mem_explore_iff`).  It ends if no cycle of held
points is reached, and with one it does not, whatever the depth (`explore_ends_iff`).
-/

namespace Traversal

variable {α : Type*}

/-! ## Paths that keep out of a set

`Around R W T b`: from a target in `T` a path leads to `b` that does not touch `W`. -/

section Around

variable {R : α → α → Prop} {W W₁ W' W'' T T' D : Set α} {a b c : α}

/-- **A path of `R` outside `W` leads from `T` to `b`.** -/
def Around (R : α → α → Prop) (W T : Set α) (b : α) : Prop :=
  From (T \ W) (fun b c => R b c ∧ c ∉ W) b

namespace Around

/-- A target that is not in the set. -/
theorem base (h : a ∈ T) (ha : a ∉ W) : Around R W T a := From.base ⟨h, ha⟩

/-- One step further, outside of the set. -/
theorem step (h : Around R W T b) (hbc : R b c) (hc : c ∉ W) : Around R W T c := From.step h ⟨hbc, hc⟩

/-- No path ends in the set. -/
theorem notMem (h : Around R W T b) : b ∉ W :=
  From.mem_of_closed h (S := {b | b ∉ W}) (fun _ hb => hb.2) fun _ _ _ hbc => hbc.2

/-- Around more, from less. -/
theorem mono (h : Around R W₁ T b) (hW : W ⊆ W₁) (hT : T ⊆ T') : Around R W T' b :=
  From.trans h (fun _ hb => From.base ⟨hT hb.1, fun hW' => hb.2 (hW hW')⟩) fun _ hb _ hbc =>
    From.step hb ⟨hbc.1, fun hW' => hbc.2 (hW hW')⟩

/-- Going on from a point that is reached. -/
theorem trans (h : Around R W T a) (hab : Around R W {a} b) : Around R W T b :=
  From.trans hab (fun c hc => by
    obtain rfl : c = a := hc.1
    exact h) fun _ hb _ hbc => From.step hb hbc

/-- A path either keeps out of a larger set too, or meets it. -/
theorem split (h : Around R W T b) : Around R W₁ T b ∨ ∃ c ∈ W₁, Around R W T c ∧ Around R W {c} b := by
  refine (From.mem_of_closed h (S := {b | Around R W T b ∧
    (Around R W₁ T b ∨ ∃ c ∈ W₁, Around R W T c ∧ Around R W {c} b)}) (fun b hb => ?_) ?_).2
  · have hreach : Around R W T b := base hb.1 hb.2
    refine ⟨hreach, ?_⟩
    by_cases hb₁ : b ∈ W₁
    · exact Or.inr ⟨b, hb₁, hreach, base rfl hb.2⟩
    · exact Or.inl (base hb.1 hb₁)
  · rintro b ⟨hb, hcase⟩ c ⟨hbc, hc⟩
    refine ⟨hb.step hbc hc, ?_⟩
    rcases hcase with hout | ⟨d, hd, hTd, hdb⟩
    · by_cases hc₁ : c ∈ W₁
      · exact Or.inr ⟨c, hc₁, hb.step hbc hc, base rfl hc⟩
      · exact Or.inl (hout.step hbc hc₁)
    · exact Or.inr ⟨d, hd, hTd, hdb.step hbc hc⟩

/-- Paths from either of two sets of targets. -/
theorem union_iff : Around R W (T ∪ T') b ↔ Around R W T b ∨ Around R W T' b := by
  constructor
  · rintro ⟨r, ⟨hr | hr, hrW⟩, hrb⟩
    · exact Or.inl ⟨r, ⟨hr, hrW⟩, hrb⟩
    · exact Or.inr ⟨r, ⟨hr, hrW⟩, hrb⟩
  · rintro (h | h)
    · exact h.mono le_rfl Set.subset_union_left
    · exact h.mono le_rfl Set.subset_union_right

/-- A path from the successors of a point is one from the point. -/
theorem of_succ (h : Around R W₁ {b | R a b} c) (ha : a ∉ W) (hW : W ⊆ W₁) : Around R W {a} c :=
  From.trans h (fun _ hb => (base (T := {a}) rfl ha).step hb.1 fun hbW => hb.2 (hW hbW))
    fun _ hb _ hbd => Around.step hb hbd.1 fun hd => hbd.2 (hW hd)

/-- **The first step of a path**: the rest of it need not come back to where it began. -/
theorem succ (h : Around R W {a} c) : c = a ∨ Around R (insert a W) {b | R a b} c := by
  refine From.mem_of_closed h (S := {c | c = a ∨ Around R (insert a W) {b | R a b} c})
    (fun c hc => Or.inl hc.1) ?_
  rintro b hb c ⟨hbc, hc⟩
  rcases eq_or_ne c a with rfl | hca
  · exact Or.inl rfl
  · have hc' : c ∉ insert a W := fun h => (Set.mem_insert_iff.mp h).elim hca hc
    rcases hb with rfl | hb
    · exact Or.inr (base hbc hc')
    · exact Or.inr (hb.step hbc hc')

end Around

/-- **What a search of `T` does** that starts with `W` entered and ends with `W'`; what it reaches and does
not enter is in `D`. -/
structure Explores (R : α → α → Prop) (D W W' T : Set α) : Prop where
  grow : W ⊆ W'
  sound : ∀ b ∈ W', b ∉ W → Around R W T b
  reach : ∀ b, Around R W T b → b ∈ W' ∨ b ∈ D

namespace Explores

/-- Nothing to do. -/
theorem refl (h : T ⊆ W) : Explores R D W W T where
  grow := fun _ ha => ha
  sound := fun _ ha hna => absurd ha hna
  reach := fun _ ⟨_, hr, _⟩ => absurd (h hr.1) hr.2

/-- **One search after another.**  A path the second one cannot take has met the first one. -/
theorem comp (h : Explores R D W W' T) (h' : Explores R D W' W'' T') : Explores R D W W'' (T ∪ T') where
  grow := h.grow.trans h'.grow
  sound b hb hnb := by
    by_cases hbW : b ∈ W'
    · exact (h.sound b hbW hnb).mono le_rfl Set.subset_union_left
    · exact (h'.sound b hb hbW).mono h.grow Set.subset_union_right
  reach b hb := by
    have hfirst : Around R W T b → b ∈ W'' ∨ b ∈ D := fun hb => (h.reach b hb).imp_left fun hbW => h'.grow hbW
    rcases Around.union_iff.mp hb with hb | hb
    · exact hfirst hb
    · have hsplit : Around R W' T' b ∨ ∃ c ∈ W', Around R W T' c ∧ Around R W {c} b := hb.split
      rcases hsplit with hout | ⟨c, hc, hTc, hcb⟩
      · exact h'.reach b hout
      · exact hfirst ((h.sound c hc hTc.notMem).trans hcb)

/-- **Entering a point.** -/
theorem enter (h : Explores R D (insert a W) W' {b | R a b}) (ha : a ∉ W) : Explores R D W W' {a} where
  grow := (Set.subset_insert a W).trans h.grow
  sound c hc hnc := by
    rcases eq_or_ne c a with rfl | hca
    · exact .base rfl ha
    · exact (h.sound c hc fun hmem => (Set.mem_insert_iff.mp hmem).elim hca hnc).of_succ ha
        (Set.subset_insert a W)
  reach c hc := by
    rcases hc.succ with rfl | hc
    · exact Or.inl (h.grow (Set.mem_insert c W))
    · exact h.reach c hc

/-- **Walking through a point** without entering it. -/
theorem pass (h : Explores R D W W' {b | R a b}) (ha : a ∉ W) (hD : a ∈ D) : Explores R D W W' {a} where
  grow := h.grow
  sound := fun c hc hnc => (h.sound c hc hnc).of_succ ha le_rfl
  reach c hc := by
    rcases hc.succ with rfl | hc
    · exact Or.inr hD
    · exact h.reach c (hc.mono (Set.subset_insert a W) le_rfl)

end Explores

end Around

/-! ## The search

A recursion on a depth, over the successors in their order. -/

section Explore

variable [DecidableEq α] (succ : α → List α) (held : α → Bool)

/-- **Depth-first search**, `n` points deep. -/
def explore : ℕ → Finset α → α → Option (Finset α)
  | 0, _, _ => none
  | n + 1, W, a =>
    if a ∈ W then some W
    else (succ a).foldlM (fun W b => explore n W b) (if held a then W else insert a W)

/-- A held point and the next one. -/
def HeldStep (b c : α) : Prop := held b ∧ held c ∧ c ∈ succ b

variable {succ held} {n m : ℕ} {W W' : Finset α} {a b : α} {l : List α}

/-- A point that has been entered. -/
theorem explore_of_mem (h : a ∈ W) : explore succ held (n + 1) W a = some W := by
  rw [explore, if_pos h]

theorem explore_of_notMem (h : a ∉ W) : explore succ held (n + 1) W a =
    (succ a).foldlM (fun W b => explore succ held n W b) (if held a then W else insert a W) := by
  rw [explore, if_neg h]

omit [DecidableEq α] in
/-- A search of some points, one after the other. -/
theorem foldlM_cons_some {f : Finset α → α → Option (Finset α)} :
    (a :: l).foldlM f W = some W' ↔ ∃ V, f W a = some V ∧ l.foldlM f V = some W' := by
  rw [List.foldlM_cons]
  exact Option.bind_eq_some_iff

/-- **A search that ends** does the same at any greater depth. -/
theorem explore_mono : ∀ {n : ℕ} {W W' : Finset α} {a : α}, explore succ held n W a = some W' → ∀ {m : ℕ},
    n ≤ m → explore succ held m W a = some W'
  | 0, _, _, _, h, _, _ => by cases h
  | n + 1, W, W', a, h, m, hm => by
      obtain ⟨m, rfl⟩ := Nat.exists_eq_add_of_le' (Nat.one_le_of_lt hm)
      by_cases ha : a ∈ W
      · rw [explore_of_mem ha] at h ⊢
        exact h
      · rw [explore_of_notMem ha] at h ⊢
        generalize (if held a then W else insert a W) = V at h ⊢
        revert h V
        induction succ a with
        | nil => exact fun V h => h
        | cons b l ih =>
          intro V h
          obtain ⟨V₁, hb, hl⟩ := foldlM_cons_some.mp h
          exact foldlM_cons_some.mpr ⟨V₁, explore_mono hb (Nat.le_of_succ_le_succ hm), ih V₁ hl⟩

/-- Searches of several points go deeper. -/
theorem foldlM_explore_mono {W W' : Finset α} (h : l.foldlM (explore succ held n) W = some W') (hm : n ≤ m) :
    l.foldlM (explore succ held m) W = some W' := by
  induction l generalizing W with
  | nil => exact h
  | cons b l ih =>
    obtain ⟨V, hb, hl⟩ := foldlM_cons_some.mp h
    exact foldlM_cons_some.mpr ⟨V, explore_mono hb hm, ih hl⟩

/-! ## What it enters

A search that ends has entered what is reached around the set it began with.  The proof carries which points are
entered but not finished. -/

variable (succ held) in
/-- A search of the point ended, before it was entered. -/
def Called (n : ℕ) (b : α) : Prop :=
  ∃ W W' : Finset α, (∀ c ∈ W, held c = false) ∧ explore succ held n W b = some W'

variable (succ held) in
/-- The held points whose search ended. -/
def passed : Set α := {b | held b ∧ ∃ n, Called succ held n b}

/-- What the search of a point does, with the held points kept out. -/
def Searches (succ : α → List α) (held : α → Bool) (W W' : Finset α) (T : Set α) : Prop :=
  (∀ b ∈ W', held b = false) ∧ Explores (fun b c => c ∈ succ b) (passed succ held) ↑W ↑W' T

/-- **Several searches one after the other.** -/
theorem foldlM_searches (hstep : ∀ W W' b, (∀ c ∈ W, held c = false) → explore succ held n W b = some W' →
    Searches succ held W W' {b}) {W W' : Finset α} (hW : ∀ c ∈ W, held c = false)
    (h : l.foldlM (explore succ held n) W = some W') : Searches succ held W W' {b | b ∈ l} := by
  induction l generalizing W with
  | nil =>
    cases h
    exact ⟨hW, .refl fun b hb => absurd hb List.not_mem_nil⟩
  | cons a l ih =>
    obtain ⟨V, ha, hl⟩ := foldlM_cons_some.mp h
    obtain ⟨hV, hfirst⟩ := hstep W V a hW ha
    obtain ⟨hW', hrest⟩ := ih hV hl
    have hcons : {b | b ∈ a :: l} = {a} ∪ {b | b ∈ l} := by
      ext b
      simp
    exact ⟨hW', hcons ▸ hfirst.comp hrest⟩

/-- **A search that ends** has entered what is reached and not held, and passed what is held. -/
theorem explore_searches : ∀ {n : ℕ} {W W' : Finset α} {a : α}, (∀ c ∈ W, held c = false) →
    explore succ held n W a = some W' → Searches succ held W W' {a}
  | 0, _, _, _, _, h => by cases h
  | n + 1, W, W', a, hW, h => by
      by_cases ha : a ∈ W
      · cases (explore_of_mem ha).symm.trans h
        exact ⟨hW, .refl (Set.singleton_subset_iff.mpr ha)⟩
      have hfold := (explore_of_notMem ha).symm.trans h
      have hsearch : ∀ {V : Finset α}, (∀ c ∈ V, held c = false) →
          (succ a).foldlM (explore succ held n) V = some W' → Searches succ held V W' {b | b ∈ succ a} :=
        foldlM_searches fun _ _ _ hV hb => explore_searches hV hb
      by_cases hheld : held a
      · rw [if_pos hheld] at hfold
        obtain ⟨hW', hexplores⟩ := hsearch hW hfold
        exact ⟨hW', hexplores.pass ha ⟨hheld, n + 1, W, W', hW, h⟩⟩
      · rw [if_neg hheld] at hfold
        have hV : ∀ c ∈ insert a W, held c = false := fun c hc => by
          rcases Finset.mem_insert.mp hc with rfl | hc
          · exact Bool.eq_false_iff.mpr hheld
          · exact hW c hc
        obtain ⟨hW', hexplores⟩ := hsearch hV hfold
        rw [Finset.coe_insert] at hexplores
        exact ⟨hW', hexplores.enter ha⟩

/-- **The points entered are those reached around the old ones**, but for the held ones. -/
theorem mem_explore_iff (hW : ∀ c ∈ W, held c = false) (h : explore succ held n W a = some W') :
    b ∈ W' ↔ b ∈ W ∨ held b = false ∧ Around (fun b c => c ∈ succ b) ↑W {a} b := by
  obtain ⟨hW', hgrow, hsound, hreach⟩ := explore_searches hW h
  constructor
  · intro hb
    by_cases hbW : b ∈ W
    · exact Or.inl hbW
    · exact Or.inr ⟨hW' b hb, hsound b hb hbW⟩
  · rintro (hb | ⟨hheld, hb⟩)
    · exact hgrow hb
    · exact (hreach b hb).resolve_right fun hp => absurd hp.1 (by simp [hheld])

/-! ## When it ends

The points that are entered run out, so what is left to keep a search going is a walk through held points;
without a cycle of those it is bounded. -/

/-- **A search of a held point that ends** has searched its held successors, less deep. -/
theorem Called.step {c : α} (h : Called succ held n b) (hbc : HeldStep succ held b c) :
    ∃ m < n, Called succ held m c := by
  obtain ⟨W, W', hW, hrun⟩ := h
  obtain ⟨hb, -, hc⟩ := hbc
  cases n with
  | zero => cases hrun
  | succ n =>
    have hbW : b ∉ W := fun hmem => absurd hb (by simp [hW b hmem])
    rw [explore_of_notMem hbW, if_pos hb] at hrun
    refine ⟨n, Nat.lt_succ_self n, ?_⟩
    generalize succ b = l at hc hrun
    induction l generalizing W with
    | nil => cases hc
    | cons d l ih =>
      obtain ⟨V, hd, hl⟩ := foldlM_cons_some.mp hrun
      rcases List.mem_cons.mp hc with rfl | hc
      · exact ⟨W, V, hW, hd⟩
      · have hV := (explore_searches hW hd).1
        by_cases hbV : b ∈ V
        · exact absurd hb (by simp [hV b hbV])
        · exact ih V hV hbV hc hl

/-- No search of a point on a cycle of held points ends. -/
theorem not_called_of_cycle : ∀ {n : ℕ} {b : α}, Relation.TransGen (HeldStep succ held) b b →
    ¬ Called succ held n b := by
  intro n
  induction n using Nat.strong_induction_on with
  | _ n ih =>
    intro b hcycle hcalled
    obtain ⟨c, hbc, hcb⟩ := Relation.TransGen.head'_iff.mp hcycle
    obtain ⟨m, hm, hc⟩ := hcalled.step hbc
    exact ih m hm (Relation.TransGen.tail' hcb hbc) hc

/-- A point and its successors, where the point is held: what a search meets without entering anything. -/
def Below (succ : α → List α) (held : α → Bool) (c b : α) : Prop := held b ∧ c ∈ succ b

omit [DecidableEq α] in
/-- A point below a held one is on a walk from it. -/
theorem heldStep_of_below {c : α} (h : Relation.TransGen (Below succ held) c b) (hc : held c) :
    Relation.TransGen (HeldStep succ held) b c := by
  induction h with
  | single hcb => exact .single ⟨hcb.1, hc, hcb.2⟩
  | tail hcb hbd ih =>
    have hb := (Relation.TransGen.tail'_iff.mp hcb)
    obtain ⟨_, -, hb⟩ := hb
    exact .head ⟨hbd.1, hb.1, hbd.2⟩ ih

/-- A loop ends when each of its searches does, whatever was entered meanwhile. -/
theorem foldlM_ends {V₀ : Finset α} (hfree : ∀ c ∈ V₀, held c = false)
    (hl : ∀ c ∈ l, ∀ V : Finset α, (∀ c ∈ V, held c = false) → V₀ ⊆ V → ∃ n V', explore succ held n V c = some V') :
    ∃ n V', l.foldlM (explore succ held n) V₀ = some V' := by
  induction l generalizing V₀ with
  | nil => exact ⟨0, V₀, rfl⟩
  | cons c l ih =>
    obtain ⟨n, V, hc⟩ := hl c List.mem_cons_self V₀ hfree (Finset.Subset.refl _)
    obtain ⟨hV, hexplores⟩ := explore_searches hfree hc
    have hgrow : V₀ ⊆ V := Finset.coe_subset.mp hexplores.grow
    obtain ⟨m, V', hrest⟩ := ih hV fun d hd U hU hVU => hl d (List.mem_cons_of_mem _ hd) U hU (hgrow.trans hVU)
    exact ⟨max n m, V', foldlM_cons_some.mpr ⟨V, explore_mono hc (Nat.le_max_left n m),
      foldlM_explore_mono hrest (Nat.le_max_right n m)⟩⟩

/-- **A search ends** if no cycle of held points is reached.  The induction is on the points not entered
yet, and between two of them on the held points below each other. -/
theorem explore_ends (hfin : {b | Around (fun b c => c ∈ succ b) (↑W : Set α) {a} b}.Finite)
    (hW : ∀ c ∈ W, held c = false)
    (hacyclic : ∀ b, Around (fun b c => c ∈ succ b) (↑W : Set α) {a} b →
      ¬ Relation.TransGen (HeldStep succ held) b b) :
    ∃ n W', explore succ held n W a = some W' := by
  set A := {b | Around (fun b c => c ∈ succ b) (↑W : Set α) {a} b} with hA
  -- below each other, as far as they are reached
  let r : α → α → Prop := fun c b => b ∈ A ∧ Below succ held c b
  have hbelow : ∀ {c b}, Relation.TransGen r c b → Relation.TransGen (Below succ held) c b := fun h =>
    Relation.TransGen.mono (fun _ _ h => h.2) _ _ h
  have htarget : ∀ {c b}, Relation.TransGen r c b → b ∈ A ∧ held b := fun h => by
    obtain ⟨_, -, hb⟩ := Relation.TransGen.tail'_iff.mp h
    exact ⟨hb.1, hb.2.1⟩
  have hirrefl : ∀ b, ¬ Relation.TransGen r b b := fun b h =>
    hacyclic b (htarget h).1 (heldStep_of_below (hbelow h) (htarget h).2)
  have : IsStrictOrder α (Relation.TransGen r) := { irrefl := hirrefl, trans := fun _ _ _ => .trans }
  have hwf : A.WellFoundedOn (Relation.TransGen r) := hfin.wellFoundedOn
  have hchild : ∀ {b c}, b ∈ A → c ∈ succ b → c ∉ W → c ∈ A := fun hb hbc hc => Around.step hb hbc hc
  suffices hmain : ∀ k, ∀ b ∈ A, ∀ V : Finset α, (∀ c ∈ V, held c = false) → W ⊆ V →
      (hfin.toFinset \ V).card ≤ k → ∃ n V', explore succ held n V b = some V' by
    by_cases ha : a ∈ W
    · exact ⟨1, W, explore_of_mem ha⟩
    · exact hmain _ a (Around.base rfl ha) W hW (Finset.Subset.refl _) le_rfl
  intro k
  induction k using Nat.strong_induction_on with
  | _ k ihk =>
    intro b hb
    refine hwf.induction (P := fun b => ∀ V : Finset α, (∀ c ∈ V, held c = false) → W ⊆ V →
      (hfin.toFinset \ V).card ≤ k → ∃ n V', explore succ held n V b = some V') hb ?_
    intro b hb ihb V hV hWV hk
    by_cases hbV : b ∈ V
    · exact ⟨1, V, explore_of_mem hbV⟩
    suffices hfold : ∃ n V', (succ b).foldlM (explore succ held n) (if held b then V else insert b V) = some V' by
      obtain ⟨n, V', hrun⟩ := hfold
      exact ⟨n + 1, V', (explore_of_notMem hbV).trans hrun⟩
    have hentered : ∀ {c} {U : Finset α}, c ∈ W → W ⊆ U → ∃ n V', explore succ held n U c = some V' :=
      fun hc hWU => ⟨1, _, explore_of_mem (hWU hc)⟩
    by_cases hheld : held b
    · rw [if_pos hheld]
      refine foldlM_ends hV fun c hc U hU hVU => ?_
      by_cases hcW : c ∈ W
      · exact hentered hcW (hWV.trans hVU)
      · exact ihb c (hchild hb hc hcW) (.single ⟨hb, hheld, hc⟩) U hU (hWV.trans hVU)
          ((Finset.card_le_card (Finset.sdiff_subset_sdiff (Finset.Subset.refl _) hVU)).trans hk)
    · rw [if_neg hheld]
      have hfree : ∀ c ∈ insert b V, held c = false := fun c hc => by
        rcases Finset.mem_insert.mp hc with rfl | hc
        · exact Bool.eq_false_iff.mpr hheld
        · exact hV c hc
      refine foldlM_ends hfree fun c hc U hU hVU => ?_
      have hWU : W ⊆ U := (hWV.trans (Finset.subset_insert b V)).trans hVU
      by_cases hcW : c ∈ W
      · exact hentered hcW hWU
      · have hless : (hfin.toFinset \ U).card < (hfin.toFinset \ V).card := by
          refine Finset.card_lt_card (Finset.ssubset_iff_subset_ne.mpr ⟨Finset.sdiff_subset_sdiff
            (Finset.Subset.refl _) ((Finset.subset_insert b V).trans hVU), fun heq => ?_⟩)
          have hmem : b ∈ hfin.toFinset \ V := Finset.mem_sdiff.mpr ⟨hfin.mem_toFinset.mpr hb, hbV⟩
          rw [← heq] at hmem
          exact (Finset.mem_sdiff.mp hmem).2 (hVU (Finset.mem_insert_self b V))
        exact ihk _ (hless.trans_le hk) c (hchild hb hc hcW) U hU hWU le_rfl

/-- **A search ends exactly if no cycle of held points is reached.** -/
theorem explore_ends_iff (hfin : {b | Around (fun b c => c ∈ succ b) (↑W : Set α) {a} b}.Finite)
    (hW : ∀ c ∈ W, held c = false) : (∃ n W', explore succ held n W a = some W') ↔
      ∀ b, Around (fun b c => c ∈ succ b) (↑W : Set α) {a} b → ¬ Relation.TransGen (HeldStep succ held) b b := by
  refine ⟨fun ⟨n, W', hrun⟩ b hb hcycle => ?_, explore_ends hfin hW⟩
  obtain ⟨hW', hexplores⟩ := explore_searches hW hrun
  obtain ⟨_, hstep, -⟩ := Relation.TransGen.head'_iff.mp hcycle
  rcases hexplores.reach b hb with hbW' | ⟨-, m, hm⟩
  · exact absurd hstep.1 (by simp [hW' b hbW'])
  · exact not_called_of_cycle hcycle hm

/-! ## Searches of the same graph

The outcome depends on the successors and on what is held, of the points that are reached. -/

/-- **Searches of graphs that agree** on what is reached do the same. -/
theorem explore_congr {succ' : α → List α} {held' : α → Bool} {A : Set α}
    (hclosed : ∀ b ∈ A, ∀ c ∈ succ b, c ∈ A) (hsucc : ∀ b ∈ A, succ' b = succ b)
    (hheld : ∀ b ∈ A, held' b = held b) : ∀ {n : ℕ} {W : Finset α} {a : α}, a ∈ A →
      explore succ' held' n W a = explore succ held n W a
  | 0, _, _, _ => rfl
  | n + 1, W, a, ha => by
      have hfold : ∀ {l : List α} {V : Finset α}, (∀ b ∈ l, b ∈ A) →
          l.foldlM (explore succ' held' n) V = l.foldlM (explore succ held n) V := fun {l V} hl => by
        induction l generalizing V with
        | nil => rfl
        | cons b l ih =>
          rw [List.foldlM_cons, List.foldlM_cons, explore_congr hclosed hsucc hheld (hl b List.mem_cons_self)]
          exact congrArg _ (funext fun V => ih fun c hc => hl c (List.mem_cons_of_mem _ hc))
      by_cases haW : a ∈ W
      · rw [explore_of_mem haW, explore_of_mem haW]
      · rw [explore_of_notMem haW, explore_of_notMem haW, hsucc a ha, hheld a ha]
        exact hfold (hclosed a ha)

end Explore

end Traversal

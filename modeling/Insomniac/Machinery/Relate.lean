import Insomniac.Machinery.Fuel

/-!
# Machinery/Relate — two programs side by side

    w    s ──x──▸ a, s'
         ~        ~  ~      w'
         t ──y──▸ b, t'

How two states correspond may depend on a **world**, which grows while the programs run.  Two programs
are related when both end, in states that correspond in a grown world, or both stop for the same reason;
sequences of related programs are related.  Programs with fuel that are related with any fuel settle on
results together (`bisettles_of_relates`).
-/

open Run Fuel

namespace Relate

variable {ω σ τ α α' β β' ε : Type}

/-- How states correspond in a world, and how a world may grow while the left program runs. -/
structure Worlds (ω σ τ : Type) where
  holds : ω → σ → τ → Prop
  grows : ω → σ → ω → σ → Prop
  refl : ∀ w s, grows w s w s
  trans : ∀ {w s w' s' w'' s''}, grows w s w' s' → grows w' s' w'' s'' → grows w s w'' s''

variable {K : Worlds ω σ τ} {w w' : ω} {s s' : σ} {t t' : τ}

/-- **Two programs are related** at two states. -/
inductive Relates (K : Worlds ω σ τ) (w : ω) (s : σ) (t : τ) (x : StateT σ (Except ε) α)
    (y : StateT τ (Except ε) β) (post : ω → σ → τ → α → β → Prop) : Prop
  | ok {w' : ω} {s' : σ} {t' : τ} {a : α} {b : β} : x s = .ok (a, s') → y t = .ok (b, t') →
      K.grows w s w' s' → K.holds w' s' t' → post w' s' t' a b → Relates K w s t x y post
  | error {e : ε} : x s = .error e → y t = .error e → Relates K w s t x y post

section

variable {x : StateT σ (Except ε) α} {y : StateT τ (Except ε) β} {f : α → StateT σ (Except ε) α'}
  {g : β → StateT τ (Except ε) β'} {post : ω → σ → τ → α → β → Prop} {post' : ω → σ → τ → α' → β' → Prop}

theorem relates_pure {a : α} {b : β} (h : K.holds w s t) (hpost : post w s t a b) :
    Relates K w s t (pure a : StateT σ (Except ε) α) (pure b : StateT τ (Except ε) β) post :=
  .ok rfl rfl (K.refl w s) h hpost

theorem relates_throw {e : ε} : Relates K w s t (throw e : StateT σ (Except ε) α)
    (throw e : StateT τ (Except ε) β) post := .error rfl rfl

theorem relates_get {f : σ → StateT σ (Except ε) α} {g : τ → StateT τ (Except ε) β}
    (h : Relates K w s t (f s) (g t) post) :
    Relates K w s t (get >>= f) (get >>= g) post := by
  cases h with
  | ok hx hy hgrows hholds hpost => exact .ok hx hy hgrows hholds hpost
  | error hx hy => exact .error hx hy

/-- **A sequence of related programs.** -/
theorem Relates.bind (h : Relates K w s t x y post)
    (hfg : ∀ w' s' t' a b, K.grows w s w' s' → K.holds w' s' t' → post w' s' t' a b →
      Relates K w' s' t' (f a) (g b) post') : Relates K w s t (x >>= f) (y >>= g) post' := by
  cases h with
  | error hx hy => exact .error (bind_error f hx) (bind_error g hy)
  | ok hx hy hgrows hholds hpost =>
    cases hfg _ _ _ _ _ hgrows hholds hpost with
    | error hx' hy' => exact .error ((run_bind hx).trans hx') ((run_bind hy).trans hy')
    | ok hx' hy' hgrows' hholds' hpost' =>
      exact .ok ((run_bind hx).trans hx') ((run_bind hy).trans hy') (K.trans hgrows hgrows') hholds' hpost'

/-- What is said of the results may be weakened. -/
theorem Relates.mono {post' : ω → σ → τ → α → β → Prop} (h : Relates K w s t x y post)
    (hpost : ∀ w' s' t' a b, K.grows w s w' s' → K.holds w' s' t' → post w' s' t' a b → post' w' s' t' a b) :
    Relates K w s t x y post' := by
  cases h with
  | error hx hy => exact .error hx hy
  | ok hx hy hgrows hholds h => exact .ok hx hy hgrows hholds (hpost _ _ _ _ _ hgrows hholds h)

end

/-! ## With fuel

Programs that are related with any fuel settle together: either both have an outcome, and these are related, or
neither has one. -/

/-- **Two programs settle on results together**, or neither does. -/
def Bisettles (K : Worlds ω σ τ) (w : ω) (s : σ) (t : τ) (x : ℕ → StateT σ (Except ε) α)
    (y : ℕ → StateT τ (Except ε) β) (post : ω → σ → τ → α → β → Prop) : Prop :=
  (∃ w' s' t' a b, Settles x s (.ok (a, s')) ∧ Settles y t (.ok (b, t')) ∧ K.grows w s w' s' ∧
    K.holds w' s' t' ∧ post w' s' t' a b) ∨ (∀ r, ¬Settles x s (.ok r)) ∧ ∀ r, ¬Settles y t (.ok r)

/-- **Programs that are related with any fuel.** -/
theorem bisettles_of_relates {x : ℕ → StateT σ (Except ε) α} {y : ℕ → StateT τ (Except ε) β}
    {post : ω → σ → τ → α → β → Prop} (hx : Steady x) (hy : Steady y)
    (h : ∀ n, Relates K w s t (x n) (y n) post) : Bisettles K w s t x y post := by
  by_cases hsome : ∃ n r, x n s = .ok r
  · obtain ⟨n, r, hr⟩ := hsome
    cases h n with
    | ok hxs hyt hgrows hholds hpost =>
      exact .inl ⟨_, _, _, _, _, hx.settles hxs, hy.settles hyt, hgrows, hholds, hpost⟩
    | error hxs _ => cases hr.symm.trans hxs
  · have hnone : ∀ n r, x n s ≠ .ok r := fun n r hr => hsome ⟨n, r, hr⟩
    refine .inr ⟨fun r ⟨n, hn⟩ => hnone n r (hn n (Nat.le_refl n)), fun r ⟨n, hn⟩ => ?_⟩
    cases h n with
    | ok hxs _ _ _ _ => exact hnone n _ hxs
    | error _ hyt => cases (hn n (Nat.le_refl n)).symm.trans hyt

end Relate

import Mathlib.Tactic.Common
import Mathlib.Logic.Relation

/-!
# Machinery/Run — running a state transformer on a state

A partial program is a `StateT σ m α` over a monad of outcomes (`Option`, `Except ε`).  Running one
on a concrete state is stepwise: `run_bind` is the one rule, and the others are its instances at the
program's own primitives.

Over `Except ε`, `Ends stop x s post` says how a program may end: with a result and a state that
satisfy `post`, or on a stop that `stop` allows.  One rule per constructor takes a program apart
(`ends_bind`, `ends_forM`, …); a program is never unfolded past its own binds.
-/

namespace Run

section Bind

variable {σ α β : Type} {m : Type → Type} [Monad m] [LawfulMonad m]

/-- **A sequence whose first part ends** continues with its result. -/
theorem run_bind {x : StateT σ m α} {f : α → StateT σ m β} {s t : σ} {a : α}
    (h : x s = pure (a, t)) : (x >>= f) s = f a t := by
  change x s >>= _ = _
  rw [h, pure_bind]

omit [LawfulMonad m] in
/-- Sequences whose first parts run alike. -/
theorem bind_congr_run {x y : StateT σ m α} (f : α → StateT σ m β) {s t : σ} (h : x s = y t) :
    (x >>= f) s = (y >>= f) t := by
  change x s >>= _ = y t >>= _
  rw [h]

end Bind

section Option

variable {σ α β : Type}

/-- **A sequence that returns** does so through its parts. -/
theorem bind_some {x : StateT σ Option α} {f : α → StateT σ Option β} {s : σ} {r : β × σ}
    (h : (x >>= f) s = some r) : ∃ a t, x s = some (a, t) ∧ f a t = some r := by
  change x s >>= _ = _ at h
  obtain ⟨p, hp, hf⟩ := Option.bind_eq_some_iff.mp h
  exact ⟨p.1, p.2, hp, hf⟩

end Option

section Except

variable {σ α β ε : Type}

/-- **A sequence that ends** does so through its parts. -/
theorem bind_ok {x : StateT σ (Except ε) α} {f : α → StateT σ (Except ε) β} {s : σ} {r : β × σ}
    (h : (x >>= f) s = .ok r) : ∃ a t, x s = .ok (a, t) ∧ f a t = .ok r := by
  change x s >>= _ = _ at h
  cases hx : x s with
  | error e =>
    rw [hx] at h
    cases h
  | ok p =>
    rw [hx] at h
    exact ⟨p.1, p.2, rfl, h⟩

/-- A program that stops goes on with nothing. -/
theorem bind_error {x : StateT σ (Except ε) α} (f : α → StateT σ (Except ε) β) {s : σ} {e : ε}
    (h : x s = .error e) : (x >>= f) s = .error e := by
  change x s >>= _ = _
  rw [h]
  rfl

/-- **A sequence that stops** does so in one of its parts. -/
theorem error_of_bind {x : StateT σ (Except ε) α} {f : α → StateT σ (Except ε) β} {s : σ} {e : ε}
    (h : (x >>= f) s = .error e) : x s = .error e ∨ ∃ a t, x s = .ok (a, t) ∧ f a t = .error e := by
  change x s >>= _ = _ at h
  cases hx : x s with
  | error e' =>
    rw [hx] at h
    cases h
    exact .inl rfl
  | ok p =>
    rw [hx] at h
    exact .inr ⟨p.1, p.2, rfl, h⟩

end Except

section Tests

variable {σ α ε : Type} {x : StateT σ (Except ε) α} {s : σ}

/-- Whether a run ends in a state that passes a test. -/
def passes (x : StateT σ (Except ε) α) (s : σ) (test : σ → Bool) : Bool :=
  match x s with
  | .ok (_, t) => test t
  | .error _ => false

/-- Whether a run stops in a way that passes a test. -/
def stops (x : StateT σ (Except ε) α) (s : σ) (test : ε → Bool) : Bool :=
  match x s with
  | .ok _ => false
  | .error e => test e

/-- A stop that has been computed. -/
theorem exists_of_stops {test : ε → Bool} (h : stops x s test = true) :
    ∃ e, x s = .error e ∧ test e = true := by
  unfold stops at h
  split at h
  · cases h
  · exact ⟨_, ‹_›, h⟩

/-- A result that has been computed. -/
theorem exists_of_passes {test : σ → Bool} (h : passes x s test = true) :
    ∃ a t, x s = .ok (a, t) ∧ test t = true := by
  unfold passes at h
  split at h
  · exact ⟨_, _, ‹_›, h⟩
  · cases h

end Tests

section Ends

variable {σ α β ι ε : Type} {stop : ε → Prop} {x : StateT σ (Except ε) α}
  {f : α → StateT σ (Except ε) β} {s : σ}

/-- **How the run of `x` from `s` ends.** -/
def Ends (stop : ε → Prop) (x : StateT σ (Except ε) α) (s : σ) (post : α → σ → Prop) : Prop :=
  (∃ a t, x s = .ok (a, t) ∧ post a t) ∨ ∃ e, x s = .error e ∧ stop e

variable {post post' : α → σ → Prop}

/-- What is said of the results may be weakened. -/
theorem Ends.mono (h : Ends stop x s post) (hpost : ∀ a t, post a t → post' a t) :
    Ends stop x s post' :=
  h.imp_left fun ⟨a, t, hx, h⟩ => ⟨a, t, hx, hpost a t h⟩

/-- Allowing more stops. -/
theorem Ends.allow {stop' : ε → Prop} (h : Ends stop x s post) (hstop : ∀ e, stop e → stop' e) :
    Ends stop' x s post :=
  h.imp_right fun ⟨e, hx, he⟩ => ⟨e, hx, hstop e he⟩

/-- How a run ends depends on nothing but the run. -/
theorem Ends.congr {y : StateT σ (Except ε) α} (h : x s = y s) :
    Ends stop x s post = Ends stop y s post := by
  unfold Ends
  rw [h]

/-- **A result in hand** satisfies what the run ends with. -/
theorem Ends.of_ok (h : Ends stop x s post) {a : α} {t : σ} (hx : x s = .ok (a, t)) :
    post a t := by
  rcases h with ⟨a', t', hx', h⟩ | ⟨e, hx', -⟩
  · cases hx.symm.trans hx'
    exact h
  · cases hx.symm.trans hx'

/-- A stop is one that is allowed. -/
theorem Ends.of_error (h : Ends stop x s post) {e : ε} (hx : x s = .error e) : stop e := by
  rcases h with ⟨a', t', hx', -⟩ | ⟨e', hx', h⟩
  · cases hx.symm.trans hx'
  · cases hx.symm.trans hx'
    exact h

theorem ends_of_eq {a : α} {t : σ} (hx : x s = .ok (a, t)) (h : post a t) : Ends stop x s post :=
  Or.inl ⟨a, t, hx, h⟩

theorem ends_pure {a : α} (h : post a s) : Ends stop (pure a : StateT σ (Except ε) α) s post :=
  ends_of_eq rfl h

theorem ends_throw {e : ε} (h : stop e) : Ends stop (throw e : StateT σ (Except ε) α) s post :=
  Or.inr ⟨e, rfl, h⟩

/-- **A sequence** ends as its second part does, from where the first one ends. -/
theorem ends_bind {post : β → σ → Prop} : Ends stop (x >>= f) s post ↔
    Ends stop x s fun a t => Ends stop (f a) t post := by
  have hrun : (x >>= f) s = x s >>= fun r => f r.1 r.2 := rfl
  constructor
  · intro h
    cases hx : x s with
    | ok r =>
      refine Or.inl ⟨r.1, r.2, hx, ?_⟩
      rw [Ends, hrun, hx] at h
      exact h
    | error e =>
      refine Or.inr ⟨e, hx, h.of_error ?_⟩
      rw [hrun, hx]
      rfl
  · rintro (⟨a, t, hx, h⟩ | ⟨e, hx, h⟩)
    · rw [Ends, hrun, hx]
      exact h
    · refine Or.inr ⟨e, ?_, h⟩
      rw [hrun, hx]
      rfl

/-- **One program behind another.** -/
theorem Ends.bind {post' : β → σ → Prop} (h : Ends stop x s post)
    (hf : ∀ a t, post a t → Ends stop (f a) t post') : Ends stop (x >>= f) s post' :=
  ends_bind.mpr (h.mono hf)

/-- **A loop** keeps its invariant. -/
theorem ends_forM {g : ι → StateT σ (Except ε) Unit} {I : σ → Prop} :
    ∀ {l : List ι} {s : σ}, I s → (∀ i ∈ l, ∀ t, I t → Ends stop (g i) t fun _ => I) →
      Ends stop (l.forM g) s fun _ => I
  | [], _, hs, _ => ends_pure hs
  | i :: l, s, hs, hg => by
      refine (hg i (by simp) s hs).bind fun _ t ht => ?_
      exact ends_forM ht fun j hj => hg j (List.mem_cons_of_mem _ hj)

/-- A loop that runs at all establishes what its last round does. -/
theorem ends_forM_ne_nil {g : ι → StateT σ (Except ε) Unit} {I J : σ → Prop} {l : List ι} {s : σ}
    (hl : l ≠ []) (hs : I s) (hJI : ∀ t, J t → I t)
    (hg : ∀ i ∈ l, ∀ t, I t → Ends stop (g i) t fun _ => J) :
    Ends stop (l.forM g) s fun _ => J := by
  cases l with
  | nil => exact absurd rfl hl
  | cons i l =>
    refine (hg i (by simp) s hs).bind fun _ t ht => ?_
    exact ends_forM ht fun j hj t ht => hg j (List.mem_cons_of_mem _ hj) t (hJI t ht)

end Ends

end Run

import Mathlib.Tactic.Common

/-!
# Machinery/Mirror — a program on the image of its state

    σ ──x──▸ α × σ
    │f         │g × f
    ▾          ▾
    τ ──y──▸ β × τ

A program that never looks at a part of its state runs alike when that part is replaced.  `Mirrors f g
x y` says that the square commutes; one rule per constructor takes a program apart.  `Copies f g x y` is
the same for programs that stop with errors, and the errors are the same.
-/

namespace Mirror

variable {σ τ α β γ δ ι : Type}

/-- **`y` does to the image of a state what `x` does to the state.** -/
def Mirrors (f : σ → τ) (g : α → β) (x : StateT σ Option α) (y : StateT τ Option β) : Prop :=
  ∀ s, y (f s) = (x s).map (Prod.map g f)

variable {f : σ → τ} {g : α → β} {h : γ → δ} {x : StateT σ Option α} {y : StateT τ Option β}

theorem mirrors_pure {a : α} {b : β} (hab : b = g a) :
    Mirrors f g (pure a : StateT σ Option α) (pure b : StateT τ Option β) := fun s => by
  rw [hab]
  rfl

theorem mirrors_fail : Mirrors f g (fun _ => none) (fun _ => none) := fun _ => rfl

theorem mirrors_get : Mirrors f f (get : StateT σ Option σ) (get : StateT τ Option τ) := fun _ => rfl

/-- A new state and its image. -/
theorem mirrors_set {s : σ} {t : τ} (hst : t = f s) :
    Mirrors f id (set s : StateT σ Option PUnit) (set t : StateT τ Option PUnit) := fun _ => by
  rw [hst]
  rfl

/-- A change that commutes with the image. -/
theorem mirrors_modify {u : σ → σ} {v : τ → τ} (huv : ∀ s, v (f s) = f (u s)) :
    Mirrors f id (modify u : StateT σ Option PUnit) (modify v : StateT τ Option PUnit) := fun s =>
  congrArg (fun t => some (PUnit.unit, t)) (huv s)

/-- **A sequence** mirrors a sequence. -/
theorem mirrors_bind {k : α → StateT σ Option γ} {l : β → StateT τ Option δ} (hx : Mirrors f g x y)
    (hk : ∀ a, Mirrors f h (k a) (l (g a))) : Mirrors f h (x >>= k) (y >>= l) := fun s => by
  change y (f s) >>= _ = (x s >>= _).map _
  rw [hx s]
  cases x s with
  | none => rfl
  | some r => exact hk r.1 r.2

/-- A branch on tests that agree. -/
theorem mirrors_ite {p q : Prop} [Decidable p] [Decidable q] {x' : StateT σ Option α}
    {y' : StateT τ Option β} (hpq : p ↔ q) (hx : Mirrors f g x y) (hx' : Mirrors f g x' y') :
    Mirrors f g (if p then x else x') (if q then y else y') := by
  by_cases hp : p
  · rwa [if_pos hp, if_pos (hpq.mp hp)]
  · rwa [if_neg hp, if_neg fun hq => hp (hpq.mpr hq)]

/-- **A loop** mirrors a loop over the same list. -/
theorem mirrors_forM {k : ι → StateT σ Option PUnit} {l : ι → StateT τ Option PUnit}
    (hk : ∀ i, Mirrors f id (k i) (l i)) : ∀ is : List ι, Mirrors f id (is.forM k) (is.forM l)
  | [] => mirrors_pure rfl
  | i :: is => mirrors_bind (hk i) fun _ => mirrors_forM hk is

/-- A program whose result is not used. -/
theorem Mirrors.drop (hx : Mirrors f g x y) :
    Mirrors f id (do let _ ← x) (do let _ ← y) :=
  mirrors_bind hx fun _ => mirrors_pure rfl

/-! ## Programs with errors

The same rules over `Except`, where both programs stop with the same error or neither stops. -/

section Except

variable {ε : Type}

/-- **`y` does to the image of a state what `x` does to the state**, or both stop alike. -/
def Copies (f : σ → τ) (g : α → β) (x : StateT σ (Except ε) α) (y : StateT τ (Except ε) β) : Prop :=
  ∀ s, y (f s) = (x s).map (Prod.map g f)

variable {f : σ → τ} {g : α → β} {h : γ → δ} {x : StateT σ (Except ε) α} {y : StateT τ (Except ε) β}

theorem copies_pure {a : α} {b : β} (hab : b = g a) :
    Copies f g (pure a : StateT σ (Except ε) α) (pure b : StateT τ (Except ε) β) := fun s => by
  rw [hab]
  rfl

theorem copies_error (e : ε) :
    Copies f g (fun _ => .error e : StateT σ (Except ε) α) (fun _ => .error e : StateT τ (Except ε) β) :=
  fun _ => rfl

theorem copies_get : Copies f f (get : StateT σ (Except ε) σ) (get : StateT τ (Except ε) τ) := fun _ => rfl

/-- **A step that always goes through.** -/
theorem copies_step {a : σ → α} {b : τ → β} {u : σ → σ} {v : τ → τ} (hab : ∀ s, b (f s) = g (a s))
    (huv : ∀ s, v (f s) = f (u s)) :
    Copies f g (fun s => .ok (a s, u s) : StateT σ (Except ε) α) (fun t => .ok (b t, v t)) := fun s =>
  congrArg Except.ok (Prod.ext (hab s) (huv s))

/-- **A sequence** copies a sequence, from a state where its first part does, and its second from where that ends. -/
theorem copies_bind_at {k : α → StateT σ (Except ε) γ} {l : β → StateT τ (Except ε) δ} {s : σ}
    (hx : y (f s) = (x s).map (Prod.map g f))
    (hk : ∀ a t, x s = .ok (a, t) → l (g a) (f t) = (k a t).map (Prod.map h f)) :
    (y >>= l) (f s) = ((x >>= k) s).map (Prod.map h f) := by
  change y (f s) >>= _ = (x s >>= _).map _
  rw [hx]
  cases hs : x s with
  | error e => rfl
  | ok r => exact hk r.1 r.2 hs

theorem copies_bind {k : α → StateT σ (Except ε) γ} {l : β → StateT τ (Except ε) δ} (hx : Copies f g x y)
    (hk : ∀ a, Copies f h (k a) (l (g a))) : Copies f h (x >>= k) (y >>= l) := fun s =>
  copies_bind_at (hx s) fun a t _ => hk a t

end Except

end Mirror

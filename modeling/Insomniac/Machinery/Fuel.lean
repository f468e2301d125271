import Insomniac.Machinery.Run

/-!
# Machinery/Fuel — programs that take fuel

A loop that may not end is a program with fuel: the number of rounds it may make, and with none left it
stops.  It **settles** on an outcome that it has with any fuel from some amount on, so there is at most
one, and none for a loop that does not end.  A program **extends** another that it agrees with wherever that
one does not stop; more fuel extends a program, and each constructor respects that.
-/

open Run

namespace Fuel

variable {σ α β ε : Type} {x y : ℕ → StateT σ (Except ε) α} {s t : σ} {out out' : Except ε (α × σ)}

/-- **The outcome with enough fuel.** -/
def Settles (x : ℕ → StateT σ (Except ε) α) (s : σ) (out : Except ε (α × σ)) : Prop :=
  ∃ enough, ∀ fuel, enough ≤ fuel → x fuel s = out

/-- **There is one outcome.** -/
theorem Settles.unique : Settles x s out → Settles x s out' → out = out'
  | ⟨k, h⟩, ⟨k', h'⟩ => (h (max k k') (Nat.le_max_left k k')).symm.trans (h' (max k k') (Nat.le_max_right k k'))

/-- A program that needs no fuel. -/
theorem settles_of_eq (h : ∀ fuel, x fuel s = out) : Settles x s out := ⟨0, fun fuel _ => h fuel⟩

/-- One round more. -/
theorem Settles.succ (h : Settles y t out) (hround : ∀ fuel, x (fuel + 1) s = y fuel t) : Settles x s out := by
  obtain ⟨k, hk⟩ := h
  refine ⟨k + 1, fun fuel hle => ?_⟩
  obtain ⟨fuel, rfl⟩ := Nat.exists_eq_add_of_le' (Nat.one_le_of_lt hle)
  exact (hround fuel).trans (hk fuel (Nat.le_of_succ_le_succ hle))

variable {f : ℕ → α → StateT σ (Except ε) β} {a : α} {out : Except ε (β × σ)}

/-- **A sequence** settles on what its second part does behind the first. -/
theorem Settles.bind (hx : Settles x s (.ok (a, t))) (hf : Settles (fun fuel => f fuel a) t out) :
    Settles (fun fuel => x fuel >>= f fuel) s out := by
  obtain ⟨k, hk⟩ := hx
  obtain ⟨k', hk'⟩ := hf
  exact ⟨max k k', fun fuel hle => (run_bind (hk fuel (Nat.max_le.mp hle).1)).trans
    (hk' fuel (Nat.max_le.mp hle).2)⟩

/-- A sequence stops where its first part does. -/
theorem Settles.bind_error {e : ε} (hx : Settles x s (.error e)) :
    Settles (fun fuel => x fuel >>= f fuel) s (.error e) := by
  obtain ⟨k, hk⟩ := hx
  exact ⟨k, fun fuel hle => Run.bind_error (f fuel) (hk fuel hle)⟩

/-! ## More fuel

What a program has done with some fuel it does with more, constructor by constructor. -/

section Extends

variable {x y : StateT σ (Except ε) α} {f g : α → StateT σ (Except ε) β} {ι : Type}

/-- **`y` does what `x` does**, wherever `x` does not stop. -/
def Extends (x y : StateT σ (Except ε) α) : Prop := ∀ s r, x s = .ok r → y s = .ok r

theorem Extends.refl : Extends x x := fun _ _ h => h

/-- Every program extends one that stops. -/
theorem extends_throw {e : ε} : Extends (throw e : StateT σ (Except ε) α) y := fun _ _ h => by cases h

theorem Extends.bind (hx : Extends x y) (hf : ∀ a, Extends (f a) (g a)) : Extends (x >>= f) (y >>= g) :=
  fun s r h => by
    obtain ⟨a, t, ha, hr⟩ := bind_ok h
    exact (run_bind (hx s _ ha)).trans (hf a t r hr)

theorem Extends.ite {p : Prop} [Decidable p] {x' y' : StateT σ (Except ε) α} (hx : Extends x y)
    (hx' : Extends x' y') : Extends (if p then x else x') (if p then y else y') := by
  split
  · exact hx
  · exact hx'

theorem Extends.forM {f g : ι → StateT σ (Except ε) Unit} (h : ∀ i, Extends (f i) (g i)) :
    ∀ l : List ι, Extends (l.forM f) (l.forM g)
  | [] => .refl
  | i :: l => (h i).bind fun _ => Extends.forM h l

/-- **A result with some fuel** is the outcome, for a program that more fuel extends. -/
theorem settles_of_extends {x : ℕ → StateT σ (Except ε) α} {n : ℕ} {r : α × σ} {s : σ} (h : x n s = .ok r)
    (hx : ∀ m, n ≤ m → Extends (x n) (x m)) : Settles x s (.ok r) :=
  ⟨n, fun m hm => hx m hm s r h⟩

/-- More fuel does not change a result. -/
def Steady (x : ℕ → StateT σ (Except ε) α) : Prop := ∀ n m, n ≤ m → Extends (x n) (x m)

/-- A result with some fuel is what the program settles on. -/
theorem Steady.settles {x : ℕ → StateT σ (Except ε) α} (hx : Steady x) {n : ℕ} {r : α × σ} {s : σ}
    (h : x n s = .ok r) : Settles x s (.ok r) := settles_of_extends h (hx n)

theorem steady_const (x : StateT σ (Except ε) α) : Steady fun _ => x := fun _ _ _ => .refl

/-- **A sequence that settles on a result** does so through its parts. -/
theorem settles_bind_ok {x : ℕ → StateT σ (Except ε) α} {f : ℕ → α → StateT σ (Except ε) β} (hx : Steady x)
    (hf : ∀ a, Steady fun n => f n a) {s : σ} {r : β × σ} (h : Settles (fun n => x n >>= f n) s (.ok r)) :
    ∃ a t, Settles x s (.ok (a, t)) ∧ Settles (fun n => f n a) t (.ok r) := by
  obtain ⟨n, hn⟩ := h
  obtain ⟨a, t, ha, hr⟩ := bind_ok (hn n (Nat.le_refl n))
  exact ⟨a, t, hx.settles ha, (hf a).settles hr⟩

/-- One unit of fuel does not matter. -/
theorem settles_succ {x : ℕ → StateT σ (Except ε) α} {s : σ} {out : Except ε (α × σ)} :
    Settles (fun n => x (n + 1)) s out ↔ Settles x s out := by
  constructor
  · exact fun h => h.succ fun _ => rfl
  · rintro ⟨n, hn⟩
    exact ⟨n, fun m hm => hn (m + 1) (Nat.le_succ_of_le hm)⟩

end Extends

end Fuel

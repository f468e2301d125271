import Mathlib.Computability.RegularExpressions

/-!
# Machinery/Munch — lexers by the longest match

A lexer is a list of rules for each of its states.  At every place the rule whose pattern matches most
wins, the first one among equals; what no rule matches is passed over, one letter at a time.

    input = text ++ rest        text ──rule──▸ token, next state

A rule may match more than it takes: its last `trail` letters are given back.  `munch_eq` finds the
rule of a text, `munch_some` reads off what a text that was taken is.
-/

open RegularExpression

namespace Munch

/-! ## Patterns

Patterns are regular expressions, and a text is matched by taking derivatives.  The lemmas say what the words of
the common patterns are. -/

section Patterns

variable {α : Type} {P Q : RegularExpression α} {as u w : List α}

/-- One of some letters. -/
def oneOf : List α → RegularExpression α
  | [] => 0
  | a :: as => char a + oneOf as

/-- Some letters, one after another. -/
def word : List α → RegularExpression α
  | [] => 1
  | a :: as => char a * word as

/-- Once or more often. -/
def many (P : RegularExpression α) : RegularExpression α := P * star P

/-- Once or not at all. -/
def opt (P : RegularExpression α) : RegularExpression α := P + 1

@[simp] theorem mem_oneOf : ∀ {as : List α}, w ∈ (oneOf as).matches' ↔ ∃ a ∈ as, w = [a]
  | [] => by
      simp only [List.not_mem_nil, false_and, exists_false, iff_false]
      exact Language.notMem_zero w
  | a :: as => by
      rw [oneOf, matches'_add, Language.mem_add, mem_oneOf, List.exists_mem_cons_iff]
      rfl

@[simp] theorem mem_word : ∀ {as w : List α}, w ∈ (word as).matches' ↔ w = as
  | [], _ => Language.mem_one _
  | a :: as, w => by
      rw [word, matches'_mul, Language.mem_mul]
      constructor
      · rintro ⟨_, rfl, v, hv, rfl⟩
        rw [mem_word.mp hv]
        rfl
      · rintro rfl
        exact ⟨[a], rfl, as, mem_word.mpr rfl, rfl⟩

@[simp] theorem mem_opt : w ∈ (opt P).matches' ↔ w ∈ P.matches' ∨ w = [] := by
  rw [opt, matches'_add, Language.mem_add]
  rfl

/-- Letters of a class, any number of them. -/
@[simp] theorem mem_star_oneOf : w ∈ (star (oneOf as)).matches' ↔ ∀ a ∈ w, a ∈ as := by
  rw [matches'_star, Language.mem_kstar]
  constructor
  · rintro ⟨pieces, rfl, hpieces⟩ a ha
    obtain ⟨piece, hpiece, ha⟩ := List.mem_flatten.mp ha
    obtain ⟨b, hb, rfl⟩ := mem_oneOf.mp (hpieces piece hpiece)
    rwa [List.mem_singleton.mp ha]
  · intro h
    refine ⟨w.map fun a => [a], by simp [← List.flatMap_def], fun piece hpiece => ?_⟩
    obtain ⟨a, ha, rfl⟩ := List.mem_map.mp hpiece
    exact mem_oneOf.mpr ⟨a, h a ha, rfl⟩

/-- Letters of a class, at least one. -/
@[simp] theorem mem_many_oneOf : w ∈ (many (oneOf as)).matches' ↔ w ≠ [] ∧ ∀ a ∈ w, a ∈ as := by
  rw [many, matches'_mul, Language.mem_mul]
  constructor
  · rintro ⟨_, ha, v, hv, rfl⟩
    obtain ⟨a, hmem, rfl⟩ := mem_oneOf.mp ha
    exact ⟨List.cons_ne_nil _ _, List.forall_mem_cons.mpr ⟨hmem, mem_star_oneOf.mp hv⟩⟩
  · rintro ⟨hne, h⟩
    obtain ⟨a, v, rfl⟩ := List.exists_cons_of_ne_nil hne
    obtain ⟨ha, hv⟩ := List.forall_mem_cons.mp h
    exact ⟨[a], mem_oneOf.mpr ⟨a, ha, rfl⟩, v, mem_star_oneOf.mpr hv, rfl⟩

/-- Whether a pattern can be seen to match nothing. -/
def dead : RegularExpression α → Bool
  | 0 => true
  | 1 => false
  | char _ => false
  | P + Q => dead P && dead Q
  | P * Q => dead P || dead Q
  | .star _ => false

/-- A pattern that is dead matches nothing. -/
theorem not_mem_of_dead (h : dead P = true) : w ∉ P.matches' := by
  induction P generalizing w with
  | zero => exact Language.notMem_zero w
  | epsilon => cases h
  | char => cases h
  | plus P Q ihP ihQ =>
    obtain ⟨hP, hQ⟩ := Bool.and_eq_true_iff.mp h
    rintro (hw | hw)
    · exact ihP hP hw
    · exact ihQ hQ hw
  | comp P Q ihP ihQ =>
    rintro ⟨u, hu, v, hv, rfl⟩
    rcases Bool.or_eq_true_iff.mp h with h | h
    · exact ihP h hu
    · exact ihQ h hv
  | star => cases h

/-- Whether a pattern can be seen to match nothing but the empty text. -/
def stuck : RegularExpression α → Bool
  | 0 => true
  | 1 => true
  | char _ => false
  | P + Q => stuck P && stuck Q
  | P * Q => dead P || dead Q || (stuck P && stuck Q)
  | .star P => stuck P

/-- A pattern that is stuck matches the empty text at most. -/
theorem eq_nil_of_stuck (h : stuck P = true) (hw : w ∈ P.matches') : w = [] := by
  induction P generalizing w with
  | zero => exact absurd hw (Language.notMem_zero w)
  | epsilon => exact hw
  | char => cases h
  | plus P Q ihP ihQ =>
    obtain ⟨hP, hQ⟩ := Bool.and_eq_true_iff.mp h
    rcases hw with hw | hw
    · exact ihP hP hw
    · exact ihQ hQ hw
  | comp P Q ihP ihQ =>
    obtain ⟨u, hu, v, hv, rfl⟩ := hw
    change (dead P || dead Q || (stuck P && stuck Q)) = true at h
    simp only [Bool.or_eq_true, Bool.and_eq_true] at h
    rcases h with (h | h) | ⟨hP, hQ⟩
    · exact absurd hu (not_mem_of_dead h)
    · exact absurd hv (not_mem_of_dead h)
    · rw [ihP hP hu, ihQ hQ hv]
      rfl
  | star P ih =>
    obtain ⟨pieces, rfl, hpieces⟩ := hw
    exact List.flatten_eq_nil_iff.mpr fun piece hpiece => ih h (hpieces piece hpiece)

end Patterns

section Derivatives

variable {α : Type} [DecidableEq α] {P : RegularExpression α} {u w : List α}

/-- A derivative matches what is behind the letter. -/
theorem mem_deriv {a : α} : w ∈ (P.deriv a).matches' ↔ a :: w ∈ P.matches' := by
  rw [← rmatch_iff_matches', ← rmatch_iff_matches', rmatch]

/-- The pattern of what may come behind a text. -/
def behind (P : RegularExpression α) (u : List α) : RegularExpression α := u.foldl deriv P

theorem mem_behind : ∀ {u : List α} {P : RegularExpression α},
    w ∈ (behind P u).matches' ↔ u ++ w ∈ P.matches'
  | [], _ => Iff.rfl
  | a :: u, P => by
      change w ∈ (behind (P.deriv a) u).matches' ↔ _
      rw [mem_behind, mem_deriv, List.cons_append]

/-- **A pattern that is stuck behind a text** matches no more than it. -/
theorem length_le_of_stuck (h : stuck (behind P w) = true) {rest : List α} (hu : u <+: w ++ rest)
    (hmem : u ∈ P.matches') : u.length ≤ w.length := by
  rcases List.prefix_or_prefix_of_prefix hu (List.prefix_append w rest) with hu | ⟨v, rfl⟩
  · exact hu.length_le
  · rw [eq_nil_of_stuck h (mem_behind.mpr hmem), List.append_nil]

/-- **A pattern that is dead behind a text and one more letter** matches no more than the text. -/
theorem length_le_of_dead {a : α} (h : dead (behind P (w ++ [a])) = true) {rest : List α}
    (hu : u <+: w ++ a :: rest) (hmem : u ∈ P.matches') : u.length ≤ w.length := by
  have hsplit : w ++ a :: rest = (w ++ [a]) ++ rest := by simp
  rw [hsplit] at hu
  rcases List.prefix_or_prefix_of_prefix hu (List.prefix_append (w ++ [a]) rest) with hu | ⟨v, rfl⟩
  · rcases Nat.lt_or_ge w.length u.length with hlt | hle
    · have hlen := hu.length_le
      have heq : u = w ++ [a] := hu.eq_of_length (by simp at hlen ⊢; omega)
      rw [heq, ← List.append_nil (w ++ [a])] at hmem
      exact absurd (mem_behind.mpr hmem) (not_mem_of_dead h)
    · exact hle
  · exact absurd (mem_behind.mpr hmem) (not_mem_of_dead h)

omit [DecidableEq α] in
/-- A match in letters of a class ends before a letter that is not one of them. -/
theorem length_le_of_class {a : α} {as rest : List α} (ha : a ∉ as) (hu : u <+: w ++ a :: rest)
    (hclass : ∀ b ∈ u, b ∈ as) : u.length ≤ w.length := by
  rcases List.prefix_or_prefix_of_prefix hu (List.prefix_append w (a :: rest)) with hu | ⟨v, rfl⟩
  · exact hu.length_le
  · cases v with
    | nil => simp
    | cons b v =>
      obtain ⟨rfl, -⟩ := List.cons_prefix_cons.mp ((List.prefix_append_right_inj w).mp hu)
      exact absurd (hclass b (by simp)) ha

end Derivatives

/-! ## Rules

The longest match of all rules, and the first rule that has it. -/

/-- A rule of a lexer with states `σ` and tokens `τ`. -/
structure Rule (α σ τ : Type) where
  pattern : RegularExpression α
  /-- How many letters at the end of a match are given back. -/
  trail : ℕ
  /-- The state after it, if that is another one. -/
  next : Option σ
  /-- The token, if there is one. -/
  token : Option τ

section Rules

variable {α σ τ : Type} [DecidableEq α] {P : RegularExpression α} {rules : List (Rule α σ τ)} {r : Rule α σ τ}
  {s u w rest : List α} {n : ℕ}

/-- The length of the longest match at the beginning of an input. -/
def longest : RegularExpression α → List α → Option ℕ
  | P, [] => if P.matchEpsilon then some 0 else none
  | P, a :: s =>
    match longest (P.deriv a) s with
    | some n => some (n + 1)
    | none => if P.matchEpsilon then some 0 else none

/-- Whether the empty text is matched can be computed. -/
theorem mem_nil : [] ∈ P.matches' ↔ P.matchEpsilon = true := (rmatch_iff_matches' P []).symm

theorem longest_of_none {s : List α} (h : (if P.matchEpsilon then some 0 else none) = some n) :
    ∃ u, u <+: s ∧ u.length = n ∧ u ∈ P.matches' := by
  split at h
  · next hnil =>
    cases h
    exact ⟨[], List.nil_prefix, rfl, mem_nil.mpr hnil⟩
  · cases h

/-- A longest match is a match. -/
theorem exists_of_longest : ∀ {s : List α} {P : RegularExpression α} {n : ℕ}, longest P s = some n →
    ∃ u, u <+: s ∧ u.length = n ∧ u ∈ P.matches'
  | [], _, _, h => longest_of_none h
  | a :: s, P, n, h => by
      rw [longest] at h
      split at h
      · next m hm =>
        cases h
        obtain ⟨u, hu, hlen, hmem⟩ := exists_of_longest hm
        exact ⟨a :: u, List.cons_prefix_cons.mpr ⟨rfl, hu⟩, congrArg (· + 1) hlen, mem_deriv.mp hmem⟩
      · exact longest_of_none h

/-- A match is no longer than the longest one. -/
theorem le_longest : ∀ {s u : List α} {P : RegularExpression α}, u <+: s → u ∈ P.matches' →
    ∃ n, longest P s = some n ∧ u.length ≤ n
  | [], u, P, hu, hmem => by
      rw [List.prefix_nil.mp hu] at hmem ⊢
      exact ⟨0, if_pos (mem_nil.mp hmem), le_rfl⟩
  | a :: s, [], P, _, hmem => by
      cases hlong : longest (P.deriv a) s with
      | none => exact ⟨0, by rw [longest, hlong]; exact if_pos (mem_nil.mp hmem), le_rfl⟩
      | some n => exact ⟨n + 1, by rw [longest, hlong], Nat.zero_le _⟩
  | a :: s, b :: u, P, hu, hmem => by
      obtain ⟨hb, hu⟩ := List.cons_prefix_cons.mp hu
      rw [hb] at hmem
      obtain ⟨n, hlong, hle⟩ := le_longest hu (mem_deriv.mpr hmem)
      exact ⟨n + 1, by rw [longest, hlong], Nat.succ_le_succ hle⟩

/-- **The rule of the longest match**, the first one among equals, and the length of the match. -/
def best : List (Rule α σ τ) → List α → Option (ℕ × Rule α σ τ)
  | [], _ => none
  | r :: rules, s =>
    match longest r.pattern s, best rules s with
    | none, b => b
    | some n, none => some (n, r)
    | some n, some (m, r') => if n < m then some (m, r') else some (n, r)

/-- What the rules match at the beginning of an input is no longer than a text. -/
def AtMost (rules : List (Rule α σ τ)) (s w : List α) : Prop :=
  ∀ r ∈ rules, ∀ u, u <+: s → u ∈ r.pattern.matches' → u.length ≤ w.length

/-- No rule matches more than what all of them match at most. -/
theorem longest_le (h : AtMost rules s w) (hr : r ∈ rules) (hn : longest r.pattern s = some n) : n ≤ w.length := by
  obtain ⟨u, hu, rfl, hmem⟩ := exists_of_longest hn
  exact h r hr u hu hmem

/-- A match that is as long as any can be is the longest. -/
theorem longest_eq (h : AtMost rules (w ++ rest) w) (hr : r ∈ rules) (hmem : w ∈ r.pattern.matches') :
    longest r.pattern (w ++ rest) = some w.length := by
  obtain ⟨n, hn, hle⟩ := le_longest (List.prefix_append w rest) hmem
  rw [hn, le_antisymm (longest_le h hr hn) hle]

/-- A rule that does not match a text matches less of it. -/
theorem longest_lt (h : AtMost rules (w ++ rest) w) (hr : r ∈ rules) (hmem : w ∉ r.pattern.matches')
    (hn : longest r.pattern (w ++ rest) = some n) : n < w.length := by
  refine (longest_le h hr hn).lt_of_ne fun heq => ?_
  obtain ⟨u, hu, hlen, hu'⟩ := exists_of_longest hn
  rw [List.prefix_iff_eq_take.mp hu, hlen, heq, List.take_left] at hu'
  exact hmem hu'

/-- The best match is no longer than that. -/
theorem best_le : ∀ {rules : List (Rule α σ τ)}, AtMost rules s w → best rules s = some (n, r) → n ≤ w.length
  | [], _, h => by cases h
  | r₀ :: rules, hmost, h => by
      have hrest : AtMost rules s w := fun r hr => hmost r (List.mem_cons_of_mem r₀ hr)
      rw [best] at h
      split at h
      · exact best_le hrest h
      · next hn _ =>
        cases h
        exact longest_le hmost List.mem_cons_self hn
      · next hn hbest =>
        split at h
        · cases h
          exact best_le hrest hbest
        · cases h
          exact longest_le hmost List.mem_cons_self hn

/-- **The first rule that matches a text** is the best one when no rule matches more. -/
theorem best_eq : ∀ {rules : List (Rule α σ τ)}, AtMost rules (w ++ rest) w →
    rules.find? (·.pattern.rmatch w) = some r → best rules (w ++ rest) = some (w.length, r)
  | [], _, h => by cases h
  | r₀ :: rules, hmost, h => by
      have hrest : AtMost rules (w ++ rest) w := fun r hr => hmost r (List.mem_cons_of_mem r₀ hr)
      rw [List.find?_cons] at h
      split at h
      · next hmatch =>
        cases h
        have hlong := longest_eq hmost List.mem_cons_self ((rmatch_iff_matches' _ _).mp hmatch)
        rw [best, hlong]
        cases hbest : best rules (w ++ rest) with
        | none => rfl
        | some b => exact if_neg (not_lt.mpr (best_le hrest hbest))
      · next hmatch =>
        have hmem : w ∉ r₀.pattern.matches' := fun hmem =>
          Bool.false_ne_true (hmatch.symm.trans ((rmatch_iff_matches' _ _).mpr hmem))
        rw [best, best_eq hrest h]
        cases hlong : longest r₀.pattern (w ++ rest) with
        | none => rfl
        | some n => exact if_pos (longest_lt hmost List.mem_cons_self hmem hlong)

/-- Where one rule matches there is a best one. -/
theorem best_ne_none : ∀ {rules : List (Rule α σ τ)}, r ∈ rules → longest r.pattern s = some n → best rules s ≠ none
  | r₀ :: rules, hr, hn => by
      rw [best]
      rcases List.mem_cons.mp hr with rfl | hr
      · rw [hn]
        cases best rules s with
        | none => exact Option.some_ne_none _
        | some b =>
          change (if n < b.1 then _ else _) ≠ none
          split <;> exact Option.some_ne_none _
      · have hbest := best_ne_none hr hn
        split
        · exact hbest
        · exact Option.some_ne_none _
        · split <;> exact Option.some_ne_none _

/-- The best rule matches most. -/
theorem best_spec : ∀ {rules : List (Rule α σ τ)} {n : ℕ} {r : Rule α σ τ}, best rules s = some (n, r) →
    r ∈ rules ∧ longest r.pattern s = some n ∧ ∀ r' ∈ rules, ∀ m, longest r'.pattern s = some m → m ≤ n
  | [], _, _, h => by cases h
  | r₀ :: rules, n, r, h => by
      rw [best] at h
      cases hlong : longest r₀.pattern s with
      | none =>
        simp only [hlong] at h
        obtain ⟨hr, hn, hall⟩ := best_spec h
        refine ⟨List.mem_cons_of_mem _ hr, hn, List.forall_mem_cons.mpr ⟨fun m hm => ?_, hall⟩⟩
        cases hlong.symm.trans hm
      | some n₀ =>
        have hself : ∀ m, longest r₀.pattern s = some m → m = n₀ := fun m hm => by
          cases hlong.symm.trans hm
          rfl
        cases hbest : best rules s with
        | none =>
          simp only [hlong, hbest] at h
          cases h
          exact ⟨List.mem_cons_self, hlong, List.forall_mem_cons.mpr ⟨fun m hm => (hself m hm).le,
            fun r' hr' m hm => absurd hbest (best_ne_none hr' hm)⟩⟩
        | some b =>
          obtain ⟨m₁, r₁⟩ := b
          obtain ⟨hr, hn, hall⟩ := best_spec hbest
          simp only [hlong, hbest] at h
          split at h
          · next hlt =>
            cases h
            exact ⟨List.mem_cons_of_mem _ hr, hn,
              List.forall_mem_cons.mpr ⟨fun m hm => (hself m hm).le.trans hlt.le, hall⟩⟩
          · next hge =>
            cases h
            exact ⟨List.mem_cons_self, hlong, List.forall_mem_cons.mpr ⟨fun m hm => (hself m hm).le,
              fun r' hr' m hm => (hall r' hr' m hm).trans (not_lt.mp hge)⟩⟩

/-- **A piece of text** at the beginning of an input, its rule, and what is left; a rule that takes
nothing is not taken. -/
def munch (rules : List (Rule α σ τ)) (s : List α) : Option (List α × Rule α σ τ × List α) :=
  match best rules s with
  | some (n, r) => if 0 < n - r.trail then some (s.take (n - r.trail), r, s.drop (n - r.trail)) else none
  | none => none

/-- What is taken makes the text shorter. -/
theorem munch_length {text : List α} (h : munch rules s = some (text, r, rest)) (hs : s ≠ []) :
    rest.length < s.length := by
  rw [munch] at h
  split at h
  · split at h
    · cases h
      have := List.length_pos_of_ne_nil hs
      rw [List.length_drop]
      omega
    · cases h
  · cases h

/-- **The piece is a text** when its first rule takes it whole and no rule matches more. -/
theorem munch_eq (hmost : AtMost rules (w ++ rest) w) (hfind : rules.find? (·.pattern.rmatch w) = some r)
    (htrail : r.trail = 0) (hw : w ≠ []) : munch rules (w ++ rest) = some (w, r, rest) := by
  have hpos := List.length_pos_of_ne_nil hw
  rw [munch, best_eq hmost hfind]
  simp only [htrail, Nat.sub_zero, if_pos hpos, List.take_left, List.drop_left]

/-- What is taken is taken by a rule. -/
theorem munch_mem {text : List α} (h : munch rules s = some (text, r, rest)) : r ∈ rules := by
  rw [munch] at h
  split at h
  · next hbest =>
    split at h
    · cases h
      exact (best_spec hbest).1
    · cases h
  · cases h

/-- **A piece that a rule took whole** matches it, and no rule matches more. -/
theorem munch_some {text : List α} (h : munch rules s = some (text, r, rest)) (htrail : r.trail = 0) :
    s = text ++ rest ∧ text ∈ r.pattern.matches' ∧ AtMost rules s text := by
  rw [munch] at h
  split at h
  · next n r' hbest =>
    split at h
    · cases h
      obtain ⟨-, hn, hall⟩ := best_spec hbest
      obtain ⟨u, hu, hlen, hmem⟩ := exists_of_longest hn
      rw [htrail, Nat.sub_zero]
      have htext : s.take n = u := by rw [List.prefix_iff_eq_take.mp hu, hlen]
      refine ⟨(List.take_append_drop n s).symm, htext ▸ hmem, fun r' hr' v hv hv' => ?_⟩
      obtain ⟨m, hm, hle⟩ := le_longest hv hv'
      rw [htext, hlen]
      exact hle.trans (hall r' hr' m hm)
    · cases h
  · cases h

/-- Nothing is taken where no rule matches. -/
theorem munch_none (h : AtMost rules s []) : munch rules s = none := by
  rw [munch]
  split
  · next n r hbest =>
    obtain rfl := Nat.le_zero.mp (best_le h hbest)
    rw [Nat.zero_sub]
    rfl
  · rfl

/-- **No rule matches more than a text** when all of them are stuck behind it. -/
theorem atMost_of_stuck (h : ∀ r ∈ rules, stuck (behind r.pattern w) = true) : AtMost rules (w ++ rest) w :=
  fun r hr _ hu hmem => length_le_of_stuck (h r hr) hu hmem

/-- **No rule matches more than a text** when all of them are dead behind it and the next letter. -/
theorem atMost_of_dead {a : α} (h : ∀ r ∈ rules, dead (behind r.pattern (w ++ [a])) = true) :
    AtMost rules (w ++ a :: rest) w :=
  fun r hr _ hu hmem => length_le_of_dead (h r hr) hu hmem

/-! ## Lexing

A lexer goes from one match to the next; a match of no letters is passed over like a letter that nothing
matches, so the text gets shorter. -/

/-- **Lexing** an input from a state on: the tokens with their texts. -/
def lex (rules : σ → List (Rule α σ τ)) : (state : σ) → (input : List α) → List (τ × List α)
  | _, [] => []
  | state, a :: input =>
    match h : munch (rules state) (a :: input) with
    | some (text, r, rest) =>
      have := munch_length h (List.cons_ne_nil a input)
      (r.token.map (·, text)).toList ++ lex rules (r.next.getD state) rest
    | none => lex rules state input
  termination_by _ input => input.length
  decreasing_by
    · assumption
    · exact Nat.lt_succ_self input.length

variable {lexer : σ → List (Rule α σ τ)} {state : σ}

@[simp] theorem lex_nil : lex lexer state [] = [] := by rw [lex]

/-- **A piece is lexed.** -/
theorem lex_munch {text : List α} (h : munch (lexer state) s = some (text, r, rest)) :
    lex lexer state s = (r.token.map (·, text)).toList ++ lex lexer (r.next.getD state) rest := by
  cases s with
  | nil =>
    rw [munch] at h
    split at h
    · split at h
      · next n r' hbest hpos =>
        obtain ⟨u, hu, rfl, -⟩ := exists_of_longest (best_spec hbest).2.1
        rw [List.prefix_nil.mp hu] at hpos
        simp at hpos
      · cases h
    · cases h
  | cons a s =>
    rw [lex]
    split
    · next text' r' rest' h' =>
      cases h.symm.trans h'
      rfl
    · next h' => cases h.symm.trans h'

/-- What a lexer returns is the token of one of its rules. -/
theorem token_of_lex {x : τ × List α} (hx : x ∈ lex lexer state s) : ∃ state', ∃ r ∈ lexer state', r.token = some x.1 := by
  fun_induction lex lexer state s with
  | case1 => cases hx
  | case2 state a input text r rest h hlength ih =>
    rcases List.mem_append.mp hx with hx | hx
    · obtain ⟨token, htoken, rfl⟩ := Option.map_eq_some_iff.mp (Option.mem_toList.mp hx)
      exact ⟨state, r, munch_mem h, htoken⟩
    · exact ih hx
  | case3 state a input h ih => exact ih hx

/-- A letter that begins no match is passed over. -/
theorem lex_skip {a : α} (h : AtMost (lexer state) (a :: s) []) : lex lexer state (a :: s) = lex lexer state s := by
  rw [lex]
  split
  · next h' => cases (munch_none h).symm.trans h'
  · rfl

/-- **A text is lexed** as its first rule says when no rule matches more. -/
theorem lex_eq (hmost : AtMost (lexer state) (w ++ rest) w)
    (hfind : (lexer state).find? (·.pattern.rmatch w) = some r) (htrail : r.trail = 0) (hw : w ≠ []) :
    lex lexer state (w ++ rest) = (r.token.map (·, w)).toList ++ lex lexer (r.next.getD state) rest :=
  lex_munch (munch_eq hmost hfind htrail hw)

end Rules

end Munch

import Mathlib.Algebra.BigOperators.Group.List.Basic
import Mathlib.Data.List.Infix
import Mathlib.Tactic.Common

/-!
# Machinery/Chunks — a string stored in chunks of one size

    string:   [ . . . . | . . . . | . . )         length = 4·2 + 2
    chunks:   [ . . . .   . . . .   . . ? ? ]     all but the last one full

A string kept in chunks of `m` elements is the front of their concatenation.  Chunk `k` then holds
the string from `m * k` on (`take_chunk`), and overwriting the unused part of the last chunk appends
to the string (`append_splice`).
-/

namespace Chunks

variable {α : Type*} {m : ℕ}

/-! ## Overwriting part of a list

`splice` puts one list over a part of another. -/

/-- The list `l` with the elements from `offset` on overwritten by `src`. -/
def splice (l : List α) (offset : ℕ) (src : List α) : List α :=
  l.take offset ++ src ++ l.drop (offset + src.length)

theorem splice_length {l : List α} {offset : ℕ} {src : List α}
    (h : offset + src.length ≤ l.length) : (splice l offset src).length = l.length := by
  simp only [splice, List.length_append, List.length_take, List.length_drop]
  omega

/-- **Up to the end of the overwritten part**, the list is its old front and what was written. -/
theorem splice_take {l : List α} {offset : ℕ} {src : List α} (h : offset ≤ l.length) :
    (splice l offset src).take (offset + src.length) = l.take offset ++ src := by
  have hlen : (l.take offset ++ src).length = offset + src.length := by
    rw [List.length_append, List.length_take, Nat.min_eq_left h]
  rw [splice, ← hlen, List.take_left']
  rfl

/-- In front of the overwritten part nothing changes. -/
theorem splice_take_of_le {l : List α} {offset k : ℕ} {src : List α} (h : offset ≤ l.length)
    (hk : k ≤ offset) : (splice l offset src).take k = l.take k := by
  rw [splice, List.append_assoc, List.take_append_of_le_length, List.take_take,
    Nat.min_eq_left hk]
  rw [List.length_take, Nat.min_eq_left h]
  exact hk

/-- A range in the common front of two lists holds the same elements. -/
theorem prefix_drop_of_take_eq {l l' r : List α} {k offset : ℕ} (h : l'.take k = l.take k)
    (hk : offset + r.length ≤ k) (hr : r <+: l.drop offset) : r <+: l'.drop offset := by
  rw [List.prefix_iff_eq_take] at hr
  have hrange : ∀ {l : List α}, (l.drop offset).take r.length = ((l.take k).drop offset).take r.length := by
    intro l
    rw [List.drop_take, List.take_take, Nat.min_eq_left (by omega)]
  rw [hr, hrange, ← h, ← hrange]
  exact List.take_prefix _ _

/-- Overwriting next to what was just overwritten is overwriting once. -/
theorem splice_splice (l : List α) (offset : ℕ) (s t : List α) (h : offset + s.length ≤ l.length) :
    splice (splice l offset s) (offset + s.length) t = splice l offset (s ++ t) := by
  have hlen : (l.take offset ++ s).length = offset + s.length := by
    rw [List.length_append, List.length_take]
    omega
  have hdrop : (splice l offset s).drop (offset + s.length + t.length) =
      l.drop (offset + (s ++ t).length) := by
    rw [splice, ← hlen, ← List.drop_drop, List.drop_left, List.drop_drop, hlen, List.length_append,
      Nat.add_assoc]
  rw [splice, splice_take (by omega), hdrop, splice]
  simp only [List.append_assoc]

/-! ## Chunks of one size

The front of the concatenation is the string, so a chunk is a piece of the string at a multiple of the size. -/

/-- Chunks of one size, put together. -/
theorem flatten_length : ∀ {cs : List (List α)}, (∀ c ∈ cs, c.length = m) →
    cs.flatten.length = m * cs.length
  | [], _ => by simp
  | c :: cs, h => by
      rw [List.flatten_cons, List.length_append, h c (by simp),
        flatten_length fun d hd => h d (List.mem_cons_of_mem _ hd), List.length_cons, Nat.mul_succ,
        Nat.add_comm]

/-- Dropping whole chunks. -/
theorem flatten_drop : ∀ {cs : List (List α)} (k : ℕ), (∀ c ∈ cs, c.length = m) →
    cs.flatten.drop (m * k) = (cs.drop k).flatten
  | cs, 0, _ => by simp
  | [], k + 1, _ => by simp
  | c :: cs, k + 1, h => by
      have hc : c.length = m := h c (by simp)
      rw [List.flatten_cons, Nat.mul_succ, Nat.add_comm, List.drop_succ_cons, ← List.drop_drop,
        List.drop_left' hc]
      exact flatten_drop k fun d hd => h d (List.mem_cons_of_mem _ hd)

/-- **Chunk `k` holds the string from `m * k` on.** -/
theorem take_chunk {cs : List (List α)} {c : List α} {k used n : ℕ}
    (h : ∀ c ∈ cs, c.length = m) (hk : cs[k]? = some c) (hn : n ≤ m) (hused : m * k + n ≤ used) :
    ((cs.flatten.take used).drop (m * k)).take n = c.take n := by
  have hc : c.length = m := h c (List.mem_of_getElem? hk)
  obtain ⟨hlt, hget⟩ := List.getElem?_eq_some_iff.mp hk
  rw [List.drop_take, List.take_take, Nat.min_eq_left (by omega), flatten_drop k h,
    List.drop_eq_getElem_cons hlt, hget, List.flatten_cons,
    List.take_append_of_le_length (by omega)]

/-- A string in full chunks and the front of one more is the front of them all. -/
theorem take_flatten_concat {full : List (List α)} {last : List α} {n : ℕ}
    (h : ∀ c ∈ full, c.length = m) :
    (full ++ [last]).flatten.take (m * full.length + n) = full.flatten ++ last.take n := by
  rw [List.flatten_append, List.flatten_singleton, ← flatten_length h, List.take_length_add_append]

/-- **Overwriting the unused part of the last chunk** appends. -/
theorem append_splice (full : List (List α)) {last src : List α} {used : ℕ}
    (h : used ≤ last.length) :
    full.flatten ++ (splice last used src).take (used + src.length) =
      (full.flatten ++ last.take used) ++ src := by
  rw [splice_take h, List.append_assoc]

end Chunks

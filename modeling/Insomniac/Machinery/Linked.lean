import Mathlib.Data.List.Nodup
import Mathlib.Data.List.Pairwise
import Mathlib.Data.List.Perm.Subperm
import Mathlib.Logic.Function.Iterate
import Mathlib.Order.Nat
import Mathlib.Tactic.Common

/-!
# Machinery/Linked — linked lists in a store of nodes

A store answers `get a = some (content, next)` at the address of a node.  `Spells stop get p l`
says that following `next` from the pointer `p` visits the nodes of `l`, in order, and ends at the
pointer `stop`, which is no node.  The store is a function, so a pointer spells at most one list
(`Spells.unique`) and no list visits a node twice (`Spells.nodup`): a program never has to carry
acyclicity as a separate fact.
-/

namespace Linked

variable {α β : Type*}

/-- **The pointer `p` spells the list `l`** of addresses and contents. -/
def Spells (stop : Option α) (get : α → Option (β × Option α)) : Option α → List (α × β) → Prop
  | p, [] => p = stop
  | p, c :: l => p = some c.1 ∧ ∃ n, get c.1 = some (c.2, n) ∧ Spells stop get n l

/-- The end of a list is not a node of the store. -/
def Ends (stop : Option α) (get : α → Option (β × Option α)) : Prop :=
  ∀ a, stop = some a → get a = none

namespace Spells

variable {stop : Option α} {get get' : α → Option (β × Option α)} {p q : Option α}
  {l l' : List (α × β)} {c : α × β}

@[simp] theorem nil_iff : Spells stop get p [] ↔ p = stop := Iff.rfl

/-- A node on the list holds what the list says. -/
theorem get_of_mem : ∀ {l : List (α × β)} {p : Option α}, Spells stop get p l → c ∈ l →
    ∃ n, get c.1 = some (c.2, n)
  | d :: l, _, ⟨_, n, hn, hl⟩, hc => by
      rcases List.mem_cons.mp hc with rfl | hc
      · exact ⟨n, hn⟩
      · exact get_of_mem hl hc

/-- **Two stores that agree on the nodes of a list spell it alike.** -/
theorem congr : ∀ {l : List (α × β)} {p : Option α}, Spells stop get p l →
    (∀ c ∈ l, get' c.1 = get c.1) → Spells stop get' p l
  | [], _, h, _ => h
  | c :: _, _, ⟨hp, n, hn, hl⟩, h =>
      ⟨hp, n, (h c (by simp)).trans hn, hl.congr fun d hd => h d (List.mem_cons_of_mem _ hd)⟩

/-- **A pointer spells at most one list.** -/
theorem unique (hstop : Ends stop get) : ∀ {l l' : List (α × β)} {p : Option α},
    Spells stop get p l → Spells stop get p l' → l = l'
  | [], [], _, _, _ => rfl
  | [], d :: _, _, hp, ⟨hp', n, hn, _⟩ => by
      rw [hstop d.1 (hp.symm.trans hp')] at hn
      exact absurd hn (by simp)
  | c :: _, [], _, ⟨hp, n, hn, _⟩, hp' => by
      rw [hstop c.1 (hp'.symm.trans hp)] at hn
      exact absurd hn (by simp)
  | (a, b) :: l, (a', b') :: l', _, ⟨hp, n, hn, hl⟩, ⟨hp', n', hn', hl'⟩ => by
      obtain rfl : a = a' := Option.some.inj (hp.symm.trans hp')
      obtain ⟨rfl, rfl⟩ : b = b' ∧ n = n' := by
        have := hn.symm.trans hn'
        simpa using this
      rw [hl.unique hstop hl']

/-- The list from a node on is spelled from that node. -/
theorem suffix : ∀ {l : List (α × β)} {p : Option α} {c : α × β} {r : List (α × β)},
    Spells stop get p (l ++ c :: r) → Spells stop get (some c.1) (c :: r)
  | [], _, _, _, ⟨_, n, hn, hr⟩ => ⟨rfl, n, hn, hr⟩
  | _ :: _, _, _, _, ⟨_, _, _, h⟩ => suffix h

/-- **No list visits a node twice** — the two tails would be one list. -/
theorem nodup (hstop : Ends stop get) (h : Spells stop get p l) : (l.map Prod.fst).Nodup := by
  induction l generalizing p with
  | nil => exact List.nodup_nil
  | cons c l ih =>
    have htail := h.2.choose_spec.2
    refine List.nodup_cons.mpr ⟨fun hc => ?_, ih htail⟩
    obtain ⟨d, hd, hdc⟩ := List.mem_map.mp hc
    obtain ⟨s, t, rfl⟩ := List.append_of_mem hd
    have hhere : Spells stop get (some c.1) (c :: (s ++ d :: t)) := ⟨rfl, h.2⟩
    have hthere : Spells stop get (some c.1) (d :: t) := hdc ▸ suffix htail
    have hlen := congrArg List.length (unique hstop hhere hthere)
    simp only [List.length_cons, List.length_append] at hlen
    omega

/-- Linking a node in front of a list. -/
theorem push {n : Option α} (h : Spells stop get n l) (hget : get c.1 = some (c.2, n)) :
    Spells stop get (some c.1) (c :: l) := ⟨rfl, n, hget, h⟩

/-! ## Editing a spelled list

A store is edited at one node; the lists through that node change there and nowhere else. -/

/-- **Rewriting the content of one node.** -/
theorem replace (hstop : Ends stop get) {l₁ l₂ : List (α × β)} {b : β}
    (h : Spells stop get p (l₁ ++ c :: l₂))
    (hc : ∀ n, get c.1 = some (c.2, n) → get' c.1 = some (b, n))
    (hne : ∀ a, a ≠ c.1 → get' a = get a) : Spells stop get' p (l₁ ++ (c.1, b) :: l₂) := by
  have hnd : ((l₁ ++ c :: l₂).map Prod.fst).Nodup := h.nodup hstop
  rw [List.map_append, List.map_cons, List.nodup_append] at hnd
  obtain ⟨-, hnd₂, hnd₁⟩ := hnd
  clear hstop
  induction l₁ generalizing p with
  | nil =>
    obtain ⟨hp, n, hn, hl⟩ := h
    refine ⟨hp, n, hc n hn, hl.congr fun d hd => hne d.1 fun hdc => ?_⟩
    exact (List.nodup_cons.mp hnd₂).1 (hdc ▸ List.mem_map_of_mem hd)
  | cons d l₁ ih =>
    obtain ⟨hp, n, hn, hl⟩ := h
    have hdc : d.1 ≠ c.1 := hnd₁ d.1 (by simp) c.1 (by simp)
    exact ⟨hp, n, (hne d.1 hdc).trans hn,
      ih hl fun a ha b hb => hnd₁ a (List.mem_cons_of_mem _ ha) b hb⟩

/-- **Unlinking the node after a node.** -/
theorem unlink (hstop : Ends stop get) {l₁ l₂ : List (α × β)} {d : α × β}
    (h : Spells stop get p (l₁ ++ d :: c :: l₂))
    (hd : ∀ n, get c.1 = some (c.2, n) → get' d.1 = some (d.2, n))
    (hne : ∀ a, a ≠ d.1 → get' a = get a) : Spells stop get' p (l₁ ++ d :: l₂) := by
  have hnd : ((l₁ ++ d :: c :: l₂).map Prod.fst).Nodup := h.nodup hstop
  rw [List.map_append, List.map_cons, List.nodup_append] at hnd
  obtain ⟨-, hnd₂, hnd₁⟩ := hnd
  clear hstop
  induction l₁ generalizing p with
  | nil =>
    obtain ⟨hp, _, _, _, n, hn, hl⟩ := h
    refine ⟨hp, n, hd n hn, hl.congr fun e he => hne e.1 fun hed => ?_⟩
    exact (List.nodup_cons.mp hnd₂).1
      (hed ▸ List.mem_cons_of_mem _ (List.mem_map_of_mem he))
  | cons e l₁ ih =>
    obtain ⟨hp, n, hn, hl⟩ := h
    have hed : e.1 ≠ d.1 := hnd₁ e.1 (by simp) d.1 (by simp)
    exact ⟨hp, n, (hne e.1 hed).trans hn,
      ih hl fun a ha b hb => hnd₁ a (List.mem_cons_of_mem _ ha) b hb⟩

/-! ## The end of a list

A list ends at one pointer, so a list that is spelled up to another place is the front of it. -/

/-- A node in front of another one points at it. -/
theorem next_of_append {d : α × β} : ∀ {l r : List (α × β)} {p : Option α},
    Spells stop get p (l ++ c :: d :: r) → get c.1 = some (c.2, some d.1)
  | [], _, _, ⟨_, _, hn, hd, _⟩ => hn.trans (by rw [hd])
  | _ :: _, _, _, ⟨_, _, _, h⟩ => h.next_of_append

/-- **The last node points at the end.** -/
theorem last {l : List (α × β)} (h : Spells stop get p (l ++ [c])) :
    get c.1 = some (c.2, stop) := by
  obtain ⟨-, n, hn, rfl⟩ := h.suffix
  exact hn

/-- **Only the last node ends the list.** -/
theorem eq_last {l : List (α × β)} {d : α × β} {b : β} (h : Spells none get p (l ++ [d]))
    (hc : c ∈ l ++ [d]) (hend : get c.1 = some (b, none)) : c = d := by
  rcases List.mem_append.mp hc with hc | hc
  · obtain ⟨s, t, rfl⟩ := List.append_of_mem hc
    obtain ⟨e, r, htail⟩ : ∃ e r, t ++ [d] = e :: r := by
      cases t with
      | nil => exact ⟨d, [], rfl⟩
      | cons e t => exact ⟨e, t ++ [d], rfl⟩
    rw [List.append_assoc, List.cons_append, htail] at h
    rw [h.next_of_append] at hend
    cases hend
  · exact List.mem_singleton.mp hc

/-- **Linking a node behind the last one.** -/
theorem concat {d : α × β} : ∀ {l : List (α × β)} {p : Option α}, Spells stop get p (l ++ [c]) →
    (∀ e ∈ l, get' e.1 = get e.1) → get' c.1 = some (c.2, some d.1) → get' d.1 = some (d.2, stop) →
    Spells stop get' p (l ++ [c] ++ [d])
  | [], _, ⟨hp, _⟩, _, hc, hd => ⟨hp, _, hc, rfl, _, hd, rfl⟩
  | e :: _, _, ⟨hp, n, hn, h⟩, hl, hc, hd =>
      ⟨hp, n, (hl e (by simp)).trans hn,
        h.concat (fun e he => hl e (List.mem_cons_of_mem _ he)) hc hd⟩

/-- **Another end** behind the last node. -/
theorem setEnd {stop' : Option α} : ∀ {l : List (α × β)} {p : Option α}, Spells stop get p (l ++ [c]) →
    (∀ e ∈ l, get' e.1 = get e.1) → get' c.1 = some (c.2, stop') → Spells stop' get' p (l ++ [c])
  | [], _, ⟨hp, _⟩, _, hc => ⟨hp, _, hc, rfl⟩
  | e :: _, _, ⟨hp, n, hn, h⟩, hl, hc =>
      ⟨hp, n, (hl e (by simp)).trans hn, h.setEnd (fun e he => hl e (List.mem_cons_of_mem _ he)) hc⟩

/-- **A list over the first `m` addresses is no longer than `m`** — what a walk needs for fuel. -/
theorem length_le {get : ℕ → Option (β × Option ℕ)} {stop p : Option ℕ} {l : List (ℕ × β)} {m : ℕ}
    (hstop : Ends stop get) (h : Spells stop get p l) (hm : ∀ a, get a ≠ none → a < m) :
    l.length ≤ m := by
  have hsub : l.map Prod.fst ⊆ List.range m := fun a ha => by
    obtain ⟨c, hc, rfl⟩ := List.mem_map.mp ha
    obtain ⟨n, hn⟩ := h.get_of_mem hc
    exact List.mem_range.mpr (hm c.1 (by simp [hn]))
  simpa using ((h.nodup hstop).subperm hsub).length_le

end Spells

/-! ## Following pointers

The pointers of a list are those that come by when `next` is followed. -/

/-- The pointer after a pointer. -/
def next (get : α → Option (β × Option α)) (p : Option α) : Option α :=
  p.bind fun a => (get a).bind Prod.snd

/-- Following `k` pointers. -/
def walk (get : α → Option (β × Option α)) (k : ℕ) (p : Option α) : Option α := (next get)^[k] p

section Walk

variable {get get' : α → Option (β × Option α)} {p : Option α}

theorem walk_succ (k : ℕ) : walk get (k + 1) p = next get (walk get k p) :=
  Function.iterate_succ_apply' _ _ _

/-- Nothing is behind a null pointer. -/
@[simp] theorem walk_none (k : ℕ) : walk get k none = none := by
  induction k with
  | zero => rfl
  | succ k ih => rw [walk_succ, ih, next, Option.bind_none]

/-- **Following `k` pointers of a list** ends at its node number `k`. -/
theorem Spells.walk_eq : ∀ {l : List (α × β)} {p : Option α} (k : ℕ), Spells none get p l →
    walk get k p = l[k]?.map Prod.fst
  | [], _, k, h => by simp [nil_iff.mp h]
  | c :: l, _, 0, h => h.1
  | c :: l, _, k + 1, ⟨hp, n, hn, h⟩ => by
      have hnext : next get (some c.1) = n := by rw [next, Option.bind_some, hn, Option.bind_some]
      rw [hp, walk, Function.iterate_succ_apply, hnext]
      exact h.walk_eq k

/-- Where a walk is on a node of the list, it goes on to the next. -/
theorem Spells.get_of_walk {l : List (α × β)} {k : ℕ} {a : α} (h : Spells none get p l)
    (hwalk : walk get k p = some a) : ∃ b n, l[k]? = some (a, b) ∧ get a = some (b, n) ∧
      walk get (k + 1) p = n := by
  have hk := h.walk_eq k
  rw [hwalk] at hk
  obtain ⟨⟨a', b⟩, hmem, rfl⟩ := Option.map_eq_some_iff.mp hk.symm
  obtain ⟨n, hn⟩ := h.get_of_mem (List.mem_of_getElem? hmem)
  refine ⟨b, n, hmem, hn, ?_⟩
  rw [walk_succ, hwalk, next, Option.bind_some, hn, Option.bind_some]

/-- **A walk stays** where links are kept. -/
theorem walk_of_grown (hgrown : ∀ a b, next get (some a) = some b →
    next get' (some a) = some b) : ∀ {k : ℕ} {a : α}, walk get k p = some a →
    walk get' k p = some a
  | 0, _, h => h
  | k + 1, a, h => by
      rw [walk_succ] at h ⊢
      cases hk : walk get k p with
      | none =>
        rw [hk] at h
        cases h
      | some b =>
        rw [hk] at h
        rw [walk_of_grown hgrown hk]
        exact hgrown b a h

end Walk

end Linked

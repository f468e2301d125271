import Insomniac.Compile.Agrees
import Insomniac.Compile.Worlds
import Insomniac.Machinery.Relate
import Mathlib.Data.List.Basic

/-!
# Compile/Lookup — names on both sides

    find x (t :: e1)   ~   find x (u :: e2)          the scopes correspond, the values are alike

A name that code may use is found on both sides or on neither, and it is set in scopes that correspond, so
that the stores go on matching (`Envs.find`, `Matches.set`).
-/

open Relate

namespace Insomniac.Compile

section

variable (later : ℕ → Name → Prop)

/-- **Two scopes that correspond** for a name: in the chain, it is the first that has a value for it. -/
def World.Target (W : World) (store2 : Store) (x : Name) (t u : ℕ) : Prop :=
  W.pair t u ∨ t = W.merged ∧ ∃ front c, W.chain = front ++ u :: c ∧ (∀ w ∈ front, ¬Bound store2 w x) ∧
    later c.length x

/-- What is found for a name. -/
structure Found (W : World) (store1 store2 : Store) (x : Name) (found1 found2 : ℕ × Value) : Prop where
  target : W.Target later store2 x found1.1 found2.1
  alike : Alike later W store1 found1.2 found2.2

end

section

variable {later : ℕ → Name → Prop} {W W' : World} {store1 store2 store1' store2' : Store} {n : Needs} {x : Name}
  {e1 e2 : List ℕ} {t u : ℕ}

/-! ## Looking up

A name is looked for in the merged scope on one side and along the chain on the other.  Both find it in scopes
that are related, or not at all, as long as no scope of the chain that is not seen yet has the name. -/

/-- In a pair of scopes. -/
theorem find_pair (hm : Matches later W store1 store2) (hpair : W.pair t u)
    (hinner : ¬Bound store1 t x → Option.Rel (Found later W store1 store2 x) (store1.find x e1) (store2.find x e2)) :
    Option.Rel (Found later W store1 store2 x) (store1.find x (t :: e1)) (store2.find x (u :: e2)) := by
  have hscopes := hm.scopes t u hpair
  cases h1 : store1.scopes t with
  | none =>
    cases h2 : store2.scopes u with
    | none =>
      rw [find_unknown h1, find_unknown h2]
      exact .none
    | some b2 =>
      rw [h1, h2] at hscopes
      cases hscopes
  | some b1 =>
    cases h2 : store2.scopes u with
    | none =>
      rw [h1, h2] at hscopes
      cases hscopes
    | some b2 =>
      rw [h1, h2] at hscopes
      cases hscopes with
      | some hnames =>
        have hx := hnames x
        rw [find_cons h1, find_cons h2]
        cases hb1 : b1 x with
        | some v1 =>
          cases hb2 : b2 x with
          | some v2 =>
            rw [hb1, hb2] at hx
            cases hx with
            | some hv => exact .some ⟨.inl hpair, hv⟩
          | none =>
            rw [hb1, hb2] at hx
            cases hx
        | none =>
          cases hb2 : b2 x with
          | some v2 =>
            rw [hb1, hb2] at hx
            cases hx
          | none =>
            refine hinner ?_
            rintro ⟨b, v, hb, hv⟩
            obtain rfl := Option.some.inj (h1.symm.trans hb)
            rw [hb1] at hv
            cases hv

/-- In environments of pairs. -/
theorem find_pairs (hm : Matches later W store1 store2) (he : List.Forall₂ W.pair e1 e2) :
    Option.Rel (Found later W store1 store2 x) (store1.find x e1) (store2.find x e2) := by
  induction he with
  | nil => exact .none
  | cons hpair _ ih => exact find_pair hm hpair fun _ => ih

/-- In the part of the chain that is behind the scopes of later names. -/
theorem Matches.find_chain (hlater : ∀ i j x, i ≤ j → later j x → later i x) (hm : Matches later W store1 store2)
    {c : List ℕ} (hc : c <:+ W.chain) (hx : c = W.chain ∨ ¬later c.length x) :
    store2.find x W.chain = store2.find x c := by
  rcases hx with rfl | hx
  · rfl
  obtain ⟨front, hfront⟩ := hc
  have hnot : ∀ w ∈ front, ¬Bound store2 w x := fun w hw hbound => by
    obtain ⟨f, f', rfl⟩ := List.append_of_mem hw
    have hw' := hm.names f w (f' ++ c) x (by simp [← hfront]) hbound
    exact hx (hlater _ _ x (by simp) hw')
  have hknown : ∀ w ∈ front, ∃ b, store2.scopes w = some b := fun w hw =>
    hm.known w (hfront ▸ List.mem_append_left _ hw)
  rw [← hfront, find_append hknown, find_eq_none hnot, Option.none_or]

/-- In the merged scope, and in the chain. -/
theorem find_merged (hlater : ∀ i j x, i ≤ j → later j x → later i x) (hm : Matches later W store1 store2)
    {c : List ℕ} (hc : c <:+ W.chain) (hx : c = W.chain ∨ ¬later c.length x)
    (hinner : Option.Rel (Found later W store1 store2 x) (store1.find x e1) (store2.find x e2)) :
    Option.Rel (Found later W store1 store2 x) (store1.find x (W.merged :: e1)) (store2.find x (c ++ e2)) := by
  obtain ⟨b, hb, hnames⟩ := hm.merged
  have hv := hnames x
  have hchain := hm.find_chain hlater hc hx
  rw [find_cons hb, find_append fun w hw => hm.known w (hc.subset hw), ← hchain]
  cases hb1 : b x with
  | none =>
    cases hfind : store2.find x W.chain with
    | none => exact hinner
    | some found =>
      rw [hb1, hfind] at hv
      cases hv
  | some v1 =>
    cases hfind : store2.find x W.chain with
    | none =>
      rw [hb1, hfind] at hv
      cases hv
    | some found =>
      rw [hb1, hfind] at hv
      cases hv with
      | some hv =>
        obtain ⟨front, outer, heq, hfront, b2, hb2, hx2⟩ := bound_of_find hfind
        exact .some ⟨.inr ⟨rfl, front, outer, heq, hfront, hm.names front _ outer x heq ⟨b2, _, hb2, hx2⟩⟩, hv⟩

/-- **A name that is used is found on both sides**, or on neither. -/
theorem Envs.find (hlater : ∀ i j x, i ≤ j → later j x → later i x) (hm : Matches later W store1 store2)
    (he : Envs later W store1 n e1 e2) (hx : n.uses x) :
    Option.Rel (Found later W store1 store2 x) (store1.find x e1) (store2.find x e2) := by
  induction he with
  | plain hpairs => exact find_pairs hm hpairs
  | merged hpairs hc huses =>
    exact find_merged hlater hm hc (huses.imp_right fun huses => huses x hx) (find_pairs hm hpairs)
  | cons hpair _ ih => exact find_pair hm hpair fun hnot => ih ⟨hx, hnot⟩

/-! ## Setting

Setting a binding that has been found sets related bindings, and leaves the others as they are. -/

/-- Worlds for two stores, of which the chain does not grow. -/
def worlds (later : ℕ → Name → Prop) : Worlds World Store Store where
  holds := Matches later
  grows W store W' store' := W'.chain = W.chain ∧ Grown W store W' store'
  refl W store := ⟨rfl, .refl W store⟩
  trans h h' := ⟨h'.1.trans h.1, h.2.trans h'.2⟩

/-- The store with a name set in a scope. -/
def Store.put (store : Store) (t : ℕ) (b : Name → Option Value) (x : Name) (v : Value) : Store :=
  { store with scopes := Function.update store.scopes t (some (Function.update b x (some v))) }

variable {store store' : Store} {b b1 b2 : Name → Option Value} {v v1 v2 : Value} {y : Name} {c front : List ℕ}

/-- A binding of a scope that is there. -/
theorem setIn_run (hb : store.scopes t = some b) : setIn t x v store = .ok ((), store.put t b x v) := by
  have hknown : known (store.scopes t) store = (known (some b) : Eval _) store := by rw [hb]
  exact (Run.run_bind (t := store) (a := store) rfl).trans (Run.run_bind (hknown.trans rfl))

/-- A scope that is not there. -/
theorem setIn_unknown (hb : store.scopes t = none) : setIn t x v store = .error .error := by
  have hknown : known (store.scopes t) store = .error .error := by
    rw [hb]
    rfl
  exact (Run.run_bind (t := store) (a := store) rfl).trans (Run.bind_error _ hknown)

/-- The scope that was written to. -/
@[simp] theorem put_self : (store.put t b x v).scopes t = some (Function.update b x (some v)) :=
  Function.update_self ..

theorem put_of_ne (h : u ≠ t) : (store.put t b x v).scopes u = store.scopes u := Function.update_of_ne h ..

/-- **What is bound behind it.** -/
theorem bound_put (hb : store.scopes t = some b) : Bound (store.put t b x v) u y ↔
    Bound store u y ∨ u = t ∧ y = x := by
  rcases eq_or_ne u t with rfl | hne
  · rcases eq_or_ne y x with rfl | hyx
    · exact iff_of_true ⟨_, v, put_self, Function.update_self ..⟩ (.inr ⟨rfl, rfl⟩)
    · refine Iff.trans ?_ (or_iff_left fun h => hyx h.2).symm
      constructor
      · rintro ⟨b', v', hb', hv'⟩
        rw [put_self] at hb'
        cases hb'
        exact ⟨b, v', hb, (Function.update_of_ne hyx ..).symm.trans hv'⟩
      · rintro ⟨b', v', hb', hv'⟩
        obtain rfl := Option.some.inj (hb.symm.trans hb')
        exact ⟨_, v', put_self, (Function.update_of_ne hyx ..).trans hv'⟩
  · rw [Bound, put_of_ne hne]
    exact (or_iff_left fun h => hne h.1).symm

/-- A search depends on what the scopes have for the name. -/
theorem find_congr : ∀ {c : List ℕ}, (∀ w ∈ c, (store.scopes w).map (· x) = (store'.scopes w).map (· x)) →
    store.find x c = store'.find x c
  | [], _ => rfl
  | w :: c, h => by
      have hw := h w (.head c)
      have hrest := find_congr fun w' hw' => h w' (.tail _ hw')
      cases hs : store.scopes w with
      | none =>
        have hs' : store'.scopes w = none := by
          rw [hs] at hw
          exact Option.map_eq_none_iff.mp hw.symm
        rw [find_unknown hs, find_unknown hs']
      | some b =>
        rw [hs] at hw
        obtain ⟨b', hs', hb'⟩ := Option.map_eq_some_iff.mp hw.symm
        rw [find_cons hs, find_cons hs', hb', hrest]

/-- Writing to a scope takes no binding away. -/
theorem Grown.put (hb : store.scopes t = some b) : Grown W store W (store.put t b x v) where
  pair _ _ h := h
  merged := rfl
  chain := List.suffix_rfl
  bound _ _ _ h := (bound_put hb).mpr (.inl h)

/-- A scope of the chain is paired with none. -/
theorem Matches.ne_of_mem (hm : Matches later W store1 store2) (hpair : W.pair t u) {w : ℕ} (hw : w ∈ W.chain) :
    w ≠ u := by
  rintro rfl
  exact (hm.apart t w hpair).2 hw

/-- **Setting a name in a pair of scopes.** -/
theorem Matches.put_pair (hm : Matches later W store1 store2) (hpair : W.pair t u) (h1 : store1.scopes t = some b1)
    (h2 : store2.scopes u = some b2) (hv : Alike later W store1 v1 v2) :
    Matches later W (store1.put t b1 x v1) (store2.put u b2 x v2) where
  unique := hm.unique
  pair_lt := hm.pair_lt
  apart := hm.apart
  merged_lt := hm.merged_lt
  chain_lt := hm.chain_lt
  nodup := hm.nodup
  scopes t' u' hpair' := by
    rcases eq_or_ne t' t with rfl | hne
    · obtain rfl := (hm.unique _ _ _ _ hpair hpair').mp rfl
      have hscopes := hm.scopes _ _ hpair
      rw [h1, h2] at hscopes
      rw [put_self, put_self]
      refine .some fun y => ?_
      rcases eq_or_ne y x with rfl | hyx
      · rw [Function.update_self, Function.update_self]
        exact .some (hv.grown (.put h1))
      · rw [Function.update_of_ne hyx, Function.update_of_ne hyx]
        cases hscopes with
        | some hnames => exact Alike.optionRel (.put h1) (hnames y)
    · have hne' : u' ≠ u := fun h => hne ((hm.unique _ _ _ _ hpair' hpair).mpr h)
      rw [put_of_ne hne, put_of_ne hne']
      exact Alike.scopesRel (.put h1) (hm.scopes _ _ hpair')
  known w hw := by
    rw [put_of_ne (hm.ne_of_mem hpair hw)]
    exact hm.known w hw
  merged := by
    have hfind (y : Name) : (store2.put u b2 x v2).find y W.chain = store2.find y W.chain :=
      find_congr fun w hw => by rw [put_of_ne (hm.ne_of_mem hpair hw)]
    obtain ⟨b, hb, hnames⟩ := hm.merged
    refine ⟨b, (put_of_ne (hm.apart t u hpair).1.symm).trans hb, fun y => ?_⟩
    rw [hfind]
    exact Alike.optionRel (.put h1) (hnames y)
  names f w c y heq hbound := by
    have hne : w ≠ u := hm.ne_of_mem hpair (heq ▸ by simp)
    exact hm.names f w c y heq (((bound_put h2).mp hbound).resolve_right fun h => hne h.1)

/-- **Setting a name in the merged scope**, and in the first scope of the chain that has it, or in a scope
that is there for it. -/
theorem Matches.put_merged (hm : Matches later W store1 store2) (hchain : W.chain = front ++ u :: c)
    (hfront : ∀ w ∈ front, ¬Bound store2 w x) (hx : later c.length x) (h1 : store1.scopes W.merged = some b1)
    (h2 : store2.scopes u = some b2) (hv : Alike later W store1 v1 v2) :
    Matches later W (store1.put W.merged b1 x v1) (store2.put u b2 x v2) where
  unique := hm.unique
  pair_lt := hm.pair_lt
  apart := hm.apart
  merged_lt := hm.merged_lt
  chain_lt := hm.chain_lt
  nodup := hm.nodup
  scopes t' u' hpair := by
    rw [put_of_ne (hm.apart t' u' hpair).1, put_of_ne (hm.ne_of_mem hpair (hchain ▸ by simp)).symm]
    exact Alike.scopesRel (.put h1) (hm.scopes t' u' hpair)
  known w hw := by
    rcases eq_or_ne w u with rfl | hne
    · exact ⟨_, put_self⟩
    · rw [put_of_ne hne]
      exact hm.known w hw
  merged := by
    obtain ⟨b, hb, hnames⟩ := hm.merged
    obtain rfl := Option.some.inj (hb.symm.trans h1)
    refine ⟨_, put_self, fun y => ?_⟩
    rcases eq_or_ne y x with rfl | hyx
    · have hnodup := hm.nodup
      rw [hchain] at hnodup
      have hfront' : ∀ w ∈ front, ¬Bound (store2.put u b2 y v2) w y := fun w hw hbound =>
        ((bound_put h2).mp hbound).elim (hfront w hw) fun h =>
          (List.nodup_append.mp hnodup).2.2 w hw u (.head _) h.1
      have hknown : ∀ w ∈ front, ∃ b, (store2.put u b2 y v2).scopes w = some b := fun w hw => by
        rw [put_of_ne fun h => (List.nodup_append.mp hnodup).2.2 w hw u (.head _) h]
        exact hm.known w (hchain ▸ List.mem_append_left _ hw)
      rw [hchain, find_append hknown, find_eq_none hfront', Option.none_or, find_cons put_self,
        Function.update_self, Function.update_self]
      exact .some (hv.grown (.put h1))
    · have hfind : (store2.put u b2 x v2).find y W.chain = store2.find y W.chain :=
        find_congr fun w _ => by
          rcases eq_or_ne w u with rfl | hne
          · rw [put_self, h2, Option.map_some, Option.map_some, Function.update_of_ne hyx]
          · rw [put_of_ne hne]
      rw [hfind, Function.update_of_ne hyx]
      exact Alike.optionRel (.put h1) (hnames y)
  names f w c' y heq hbound := by
    rcases (bound_put h2).mp hbound with hbound | ⟨rfl, rfl⟩
    · exact hm.names f w c' y heq hbound
    · have hnodup := hm.nodup
      have hparts := hchain.symm.trans heq
      rw [hchain] at hnodup
      have hleft : w ∉ front := fun h => (List.nodup_append.mp hnodup).2.2 w h w (.head _) rfl
      have hright : w ∉ c := (List.nodup_cons.mp (List.nodup_append.mp hnodup).2.1).1
      obtain ⟨-, -, rfl⟩ := (List.append_cons_inj_of_notMem hleft hright).mp hparts
      exact hx

/-- **A name is set on both sides.** -/
theorem setIn_relates (hm : Matches later W store1 store2) (htarget : W.Target later store2 x t u)
    (hv : Alike later W store1 v1 v2) :
    Relates (worlds later) W store1 store2 (setIn t x v1) (setIn u x v2) fun _ store1' _ _ _ =>
      Bound store1' t x := by
  have hgrows {b : Name → Option Value} (hb : store1.scopes t = some b) :
      (worlds later).grows W store1 W (store1.put t b x v1) := ⟨rfl, .put hb⟩
  have hbound {b : Name → Option Value} (hb : store1.scopes t = some b) : Bound (store1.put t b x v1) t x :=
    (bound_put hb).mpr (.inr ⟨rfl, rfl⟩)
  rcases htarget with hpair | ⟨rfl, front, c, hchain, hfront, hx⟩
  · have hscopes := hm.scopes t u hpair
    cases h1 : store1.scopes t with
    | none =>
      cases h2 : store2.scopes u with
      | none => exact .error (setIn_unknown h1) (setIn_unknown h2)
      | some b2 =>
        rw [h1, h2] at hscopes
        cases hscopes
    | some b1 =>
      cases h2 : store2.scopes u with
      | none =>
        rw [h1, h2] at hscopes
        cases hscopes
      | some b2 =>
        exact .ok (setIn_run h1) (setIn_run h2) (hgrows h1) (hm.put_pair hpair h1 h2 hv) (hbound h1)
  · obtain ⟨b1, h1, -⟩ := hm.merged
    obtain ⟨b2, h2⟩ := hm.known u (hchain ▸ by simp)
    exact .ok (setIn_run h1) (setIn_run h2) (hgrows h1) (hm.put_merged hchain hfront hx h1 h2 hv) (hbound h1)

/-! ## New scopes

A scope that is made on both sides is a pair of its own. -/

/-- A world with a new pair of scopes. -/
def World.paired (W : World) (t u : ℕ) : World :=
  { W with pair := fun t' u' => W.pair t' u' ∨ t' = t ∧ u' = u }

theorem child_next : store.child.scopes store.next = some fun _ => none := Function.update_self ..

/-- The scopes that were there are as they were. -/
theorem child_of_lt (h : t < store.next) : store.child.scopes t = store.scopes t := Function.update_of_ne h.ne ..

/-- What is on the left is there. -/
theorem Matches.left_lt (hm : Matches later W store1 store2) (ht : W.Left t) : t < store1.next := by
  rcases ht with rfl | ⟨u, hpair⟩
  · exact hm.merged_lt
  · exact (hm.pair_lt t u hpair).1

/-- A name is bound in a scope that was there as before. -/
theorem bound_child (h : t < store.next) : Bound store.child t x ↔ Bound store t x := by
  rw [Bound, child_of_lt h]
  rfl

/-- The world has grown by the pair of the two new scopes. -/
theorem Matches.grown_child (hm : Matches later W store1 store2) :
    Grown W store1 (W.paired store1.next store2.next) store1.child where
  pair _ _ h := .inl h
  merged := rfl
  chain := List.suffix_rfl
  bound _ _ ht hb := (bound_child (hm.left_lt ht)).mpr hb

/-- **A new scope on both sides.** -/
theorem Matches.child (hm : Matches later W store1 store2) :
    Matches later (W.paired store1.next store2.next) store1.child store2.child where
  unique t u t' u' h h' := by
    have hnew : ∀ {t u}, W.pair t u → t ≠ store1.next ∧ u ≠ store2.next := fun h =>
      ⟨(hm.pair_lt _ _ h).1.ne, (hm.pair_lt _ _ h).2.ne⟩
    rcases h with h | ⟨rfl, rfl⟩ <;> rcases h' with h' | ⟨rfl, rfl⟩
    · exact hm.unique _ _ _ _ h h'
    · exact iff_of_false (hnew h).1 (hnew h).2
    · exact iff_of_false (hnew h').1.symm (hnew h').2.symm
    · exact iff_of_true rfl rfl
  pair_lt t u h := by
    rcases h with h | ⟨rfl, rfl⟩
    · exact (hm.pair_lt t u h).imp Nat.lt_succ_of_lt Nat.lt_succ_of_lt
    · exact ⟨Nat.lt_succ_self _, Nat.lt_succ_self _⟩
  apart t u h := by
    rcases h with h | ⟨rfl, rfl⟩
    · exact hm.apart t u h
    · exact ⟨hm.merged_lt.ne', fun h => (hm.chain_lt _ h).ne rfl⟩
  merged_lt := Nat.lt_succ_of_lt hm.merged_lt
  chain_lt w hw := Nat.lt_succ_of_lt (hm.chain_lt w hw)
  nodup := hm.nodup
  scopes t u h := by
    rcases h with h | ⟨rfl, rfl⟩
    · rw [child_of_lt (hm.pair_lt t u h).1, child_of_lt (hm.pair_lt t u h).2]
      exact Alike.scopesRel hm.grown_child (hm.scopes t u h)
    · rw [child_next, child_next]
      exact .some fun _ => .none
  known w hw := by
    rw [child_of_lt (hm.chain_lt w hw)]
    exact hm.known w hw
  merged := by
    obtain ⟨b, hb, hnames⟩ := hm.merged
    refine ⟨b, (child_of_lt hm.merged_lt).trans hb, fun y => ?_⟩
    have hfind : store2.child.find y W.chain = store2.find y W.chain :=
      find_congr fun w hw => by rw [child_of_lt (hm.chain_lt w hw)]
    change Option.Rel _ _ ((store2.child.find y W.chain).map Prod.snd)
    rw [hfind]
    exact Alike.optionRel hm.grown_child (hnames y)
  names f w c' y heq hbound := by
    have hw : w ∈ W.chain := heq ▸ by simp
    exact hm.names f w c' y heq ((bound_child (hm.chain_lt w hw)).mp hbound)

/-- **A new scope on both sides.** -/
theorem newScope_relates (hm : Matches later W store1 store2) :
    Relates (worlds later) W store1 store2 newScope newScope fun W' _ _ t u => W'.pair t u := by
  have hgrows : (worlds later).grows W store1 (W.paired store1.next store2.next) store1.child :=
    ⟨rfl, hm.grown_child⟩
  exact .ok (newScope_run store1) (newScope_run store2) hgrows hm.child (.inr ⟨rfl, rfl⟩)

end

end Insomniac.Compile

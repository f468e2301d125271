import Insomniac.Compile.Names
import Mathlib.Data.List.Forall2
import Mathlib.Data.Option.Basic

/-!
# Compile/Worlds — one scope against a chain of scopes

    merged :: e1      ~      uᵢ :: … :: u₁ :: e2            W.pair relates all other scopes

Two evaluations of the same code, one with a single scope where the other has a scope for each of some
names.  The chain grows; code that was written when it was shorter still finds what it did, as long as it
does not use a name that was bound `later`.
-/

open Insomniac.Abstract

namespace Insomniac.Compile

/-- How the scopes of two stores correspond. -/
structure World where
  pair : ℕ → ℕ → Prop
  merged : ℕ
  chain : List ℕ

/-- A scope has a value for a name. -/
def Bound (store : Store) (t : ℕ) (x : Name) : Prop :=
  ∃ bindings v, store.scopes t = some bindings ∧ bindings x = some v

section

variable (later : ℕ → Name → Prop)

/-- What code that stands right in the merged scope may define: names of the innermost scope of the chain,
when nothing comes later. -/
def World.Innermost (W : World) (c : List ℕ) (x : Name) : Prop :=
  c = W.chain ∧ (∀ y, ¬later c.length y) ∧ ∃ u c', c = u :: c' ∧ later c'.length x

/-- **Two environments for the same code.** -/
inductive Envs (W : World) (store : Store) : Needs → List ℕ → List ℕ → Prop
  | plain {n : Needs} {e1 e2 : List ℕ} : List.Forall₂ W.pair e1 e2 → Envs W store n e1 e2
  | merged {n : Needs} {e1 e2 c : List ℕ} : List.Forall₂ W.pair e1 e2 → c <:+ W.chain →
      (c = W.chain ∨ ∀ x, n.uses x → ¬later c.length x) → (∀ x, n.captures x → ¬later c.length x) →
        (∀ x, n.defines x → W.Innermost later c x) → Envs W store n (W.merged :: e1) (c ++ e2)
  | cons {n : Needs} {t u : ℕ} {e1 e2 : List ℕ} : W.pair t u →
      Envs W store ⟨fun x => n.uses x ∧ ¬Bound store t x, fun x => n.captures x ∧ ¬Bound store t x, fun _ => False⟩
        e1 e2 → Envs W store n (t :: e1) (u :: e2)

/-- **Two values that cannot be told apart** by code that knows the names it was written with. -/
inductive Alike (W : World) (store : Store) : Value → Value → Prop
  | fixnum (i : Int64) : Alike W store (.fixnum i) (.fixnum i)
  | bool (b : Bool) : Alike W store (.bool b) (.bool b)
  | char (c : UInt32) : Alike W store (.char c) (.char c)
  | string (str : List UInt8) : Alike W store (.string str) (.string str)
  | symbol (name : List UInt8) : Alike W store (.symbol name) (.symbol name)
  | empty : Alike W store .empty .empty
  | pair {a a' d d' : Value} : Alike W store a a' → Alike W store d d' → Alike W store (.pair a d) (.pair a' d')
  | closure {formals : Formals} {body : Stream} {e1 e2 : List ℕ} :
      Envs later W store (.closure formals body) e1 e2 →
        Alike W store (.closure formals body e1) (.closure formals body e2)
  | other (v : Val) : Alike W store (.other v) (.other v)

/-- **Two stores for the same code.** -/
structure Matches (W : World) (store1 store2 : Store) : Prop where
  unique : ∀ t u t' u', W.pair t u → W.pair t' u' → (t = t' ↔ u = u')
  pair_lt : ∀ t u, W.pair t u → t < store1.next ∧ u < store2.next
  apart : ∀ t u, W.pair t u → t ≠ W.merged ∧ u ∉ W.chain
  merged_lt : W.merged < store1.next
  chain_lt : ∀ u ∈ W.chain, u < store2.next
  nodup : W.chain.Nodup
  scopes : ∀ t u, W.pair t u → Option.Rel (fun b1 b2 => ∀ x, Option.Rel (Alike later W store1) (b1 x) (b2 x))
    (store1.scopes t) (store2.scopes u)
  known : ∀ u ∈ W.chain, ∃ b, store2.scopes u = some b
  merged : ∃ b, store1.scopes W.merged = some b ∧
    ∀ x, Option.Rel (Alike later W store1) (b x) ((store2.find x W.chain).map Prod.snd)
  names : ∀ front u c x, W.chain = front ++ u :: c → Bound store2 u x → later c.length x

/-! ## Growing

A world grows by pairs of scopes and by scopes of the chain.  What has been said of values in a world goes on to
hold when it grows. -/

/-- The scopes on the left. -/
def World.Left (W : World) (t : ℕ) : Prop := t = W.merged ∨ ∃ u, W.pair t u

/-- **Scopes and names are added**, and the chain grows at its inner end. -/
structure Grown (W : World) (store : Store) (W' : World) (store' : Store) : Prop where
  pair : ∀ t u, W.pair t u → W'.pair t u
  merged : W'.merged = W.merged
  chain : W.chain <:+ W'.chain
  bound : ∀ t x, W.Left t → Bound store t x → Bound store' t x

variable {later} {W W' W'' : World} {store store' store'' store1 store2 : Store}

theorem Grown.refl (W : World) (store : Store) : Grown W store W store :=
  ⟨fun _ _ h => h, rfl, List.suffix_rfl, fun _ _ _ h => h⟩

/-- What was on the left is there still. -/
theorem Grown.left (h : Grown W store W' store') {t : ℕ} (ht : W.Left t) : W'.Left t :=
  ht.imp (fun ht => ht.trans h.merged.symm) fun ⟨u, hpair⟩ => ⟨u, h.pair t u hpair⟩

theorem Grown.trans (h : Grown W store W' store') (h' : Grown W' store' W'' store'') : Grown W store W'' store'' :=
  ⟨fun t u hp => h'.pair t u (h.pair t u hp), h'.merged.trans h.merged, h.chain.trans h'.chain,
    fun t x ht hb => h'.bound t x (h.left ht) (h.bound t x ht hb)⟩

theorem Grown.forall₂ (h : Grown W store W' store') {e1 e2 : List ℕ} (he : List.Forall₂ W.pair e1 e2) :
    List.Forall₂ W'.pair e1 e2 := he.imp h.pair

/-- Less is needed. -/
theorem Envs.less {n : Needs} {e1 e2 : List ℕ} (h : Envs later W store n e1 e2) :
    ∀ {n' : Needs}, n'.Within n (fun _ => False) → Envs later W store n' e1 e2 := by
  induction h with
  | plain hpairs => exact fun _ => .plain hpairs
  | merged hpairs hc huses hcaptures hdefines =>
    intro n' hn
    refine .merged hpairs hc (huses.imp_right fun huses x hx => huses x ((hn.uses x hx).resolve_right id))
      (fun x hx => hcaptures x ((hn.captures x hx).resolve_right id)) fun x hx => hdefines x (hn.defines x hx)
  | cons hpair _ ih =>
    intro n' hn
    exact .cons hpair (ih ⟨fun x hx => .inl ⟨(hn.uses x hx.1).resolve_right id, hx.2⟩,
      fun x hx => .inl ⟨(hn.captures x hx.1).resolve_right id, hx.2⟩, fun _ => id⟩)

/-- Environments stay environments of the same code, when the chain does not grow or the code knows what
comes later. -/
theorem Envs.grown (h : Grown W store W' store') {n : Needs} {e1 e2 : List ℕ} (he : Envs later W store n e1 e2)
    (hchain : W'.chain = W.chain ∨ (∀ x, n.uses x → n.captures x) ∧ ∀ x, ¬n.defines x) :
    Envs later W' store' n e1 e2 := by
  induction he with
  | plain hpairs => exact .plain (h.forall₂ hpairs)
  | merged hpairs hc huses hcaptures hdefines =>
    rw [← h.merged]
    rcases hchain with hchain | ⟨hclosed, hnone⟩
    · refine .merged (h.forall₂ hpairs) (hchain ▸ hc) (hchain ▸ huses) hcaptures fun x hx => ?_
      obtain ⟨hinner, hrest⟩ := hdefines x hx
      exact ⟨hinner.trans hchain.symm, hrest⟩
    · exact .merged (h.forall₂ hpairs) (hc.trans h.chain) (.inr fun x hx => hcaptures x (hclosed x hx)) hcaptures
        fun x hx => absurd hx (hnone x)
  | @cons n t u e1 e2 hpair _ ih =>
    have hinner := ih (hchain.imp_right fun ⟨hclosed, _⟩ => ⟨fun x hx => ⟨hclosed x hx.1, hx.2⟩, fun _ => id⟩)
    have hbound x (hb : Bound store t x) : Bound store' t x := h.bound t x (.inr ⟨u, hpair⟩) hb
    exact .cons (h.pair t u hpair) (hinner.less ⟨fun x hx => .inl ⟨hx.1, fun hb => hx.2 (hbound x hb)⟩,
      fun x hx => .inl ⟨hx.1, fun hb => hx.2 (hbound x hb)⟩, fun _ => id⟩)

/-- **What cannot be told apart never can.** -/
theorem Alike.grown (h : Grown W store W' store') {v1 v2 : Value} (hv : Alike later W store v1 v2) :
    Alike later W' store' v1 v2 := by
  induction hv with
  | pair _ _ iha ihd => exact .pair iha ihd
  | closure he => exact .closure (he.grown h (.inr ⟨fun _ => id, fun _ => id⟩))
  | fixnum i => exact .fixnum i
  | bool b => exact .bool b
  | char c => exact .char c
  | string str => exact .string str
  | symbol name => exact .symbol name
  | empty => exact .empty
  | other v => exact .other v

/-- Values that cannot be told apart are `#f` together. -/
theorem Alike.isFalse {v1 v2 : Value} (h : Alike later W store v1 v2) : v1.isFalse = v2.isFalse := by cases h <;> rfl

theorem Alike.optionRel (h : Grown W store W' store') {v1 v2 : Option Value}
    (hv : Option.Rel (Alike later W store) v1 v2) : Option.Rel (Alike later W' store') v1 v2 := by
  cases hv with
  | some hv => exact .some (hv.grown h)
  | none => exact .none

theorem Alike.scopesRel (h : Grown W store W' store') {scope1 scope2 : Option (Name → Option Value)}
    (hscopes : Option.Rel (fun b1 b2 => ∀ x, Option.Rel (Alike later W store) (b1 x) (b2 x)) scope1 scope2) :
    Option.Rel (fun b1 b2 => ∀ x, Option.Rel (Alike later W' store') (b1 x) (b2 x)) scope1 scope2 := by
  cases hscopes with
  | some hnames => exact .some fun x => Alike.optionRel h (hnames x)
  | none => exact .none

/-! ## Looking names up

A chain of scopes is looked through from the head on, so of a name that is bound nowhere in the chain the rest
decides. -/

/-- A name has a value in the innermost scope of an environment. -/
def HeadBound (store : Store) (env : List ℕ) (x : Name) : Prop := ∃ t outer, env = t :: outer ∧ Bound store t x

/-- The head of an environment is its first scope. -/
theorem headBound_cons {t : ℕ} {e : List ℕ} {x : Name} : HeadBound store (t :: e) x ↔ Bound store t x := by
  constructor
  · rintro ⟨_, _, ⟨⟩, h⟩
    exact h
  · exact fun h => ⟨t, e, rfl, h⟩

/-- **Behind the definition of some names**, they need not be looked up any more. -/
theorem Envs.behind {n n' : Needs} {e1 e2 : List ℕ} {names : Name → Prop} (h : Envs later W store n e1 e2)
    (hn : n'.Within n names) (hbound : ∀ x, names x → HeadBound store e1 x ∧ n.defines x) :
    Envs later W store n' e1 e2 := by
  cases h with
  | plain hpairs => exact .plain hpairs
  | merged hpairs hc huses hcaptures hdefines =>
    refine .merged hpairs hc ?_ (fun x hx => ?_) fun x hx => hdefines x (hn.defines x hx)
    · rcases huses with huses | huses
      · exact .inl huses
      · refine .inr fun x hx => ?_
        rcases hn.uses x hx with hx | hx
        · exact huses x hx
        · exact (hdefines x (hbound x hx).2).2.1 x
    · rcases hn.captures x hx with hx | hx
      · exact hcaptures x hx
      · exact (hdefines x (hbound x hx).2).2.1 x
  | @cons _ t u e1 e2 hpair he =>
    have hhead : ∀ x, names x → Bound store t x := fun x hx => headBound_cons.mp (hbound x hx).1
    exact .cons hpair (he.less ⟨fun x hx => .inl ⟨(hn.uses x hx.1).resolve_right fun h => hx.2 (hhead x h), hx.2⟩,
      fun x hx => .inl ⟨(hn.captures x hx.1).resolve_right fun h => hx.2 (hhead x h), hx.2⟩, fun _ => id⟩)

/-- The first scope of an environment. -/
theorem find_cons {t : ℕ} {b : Name → Option Value} (hb : store.scopes t = some b) {x : Name} {e : List ℕ} :
    store.find x (t :: e) = match b x with
      | some v => some (t, v)
      | none => store.find x e := by
  rw [Store.find, hb]
  rfl

/-- Nothing is known behind a scope that is not. -/
theorem find_unknown {t : ℕ} (hb : store.scopes t = none) {x : Name} {e : List ℕ} : store.find x (t :: e) = none := by
  rw [Store.find, hb]
  rfl

/-- Two environments are looked through one behind the other. -/
theorem find_append {x : Name} {e : List ℕ} : ∀ {c : List ℕ}, (∀ u ∈ c, ∃ b, store.scopes u = some b) →
    store.find x (c ++ e) = (store.find x c).or (store.find x e)
  | [], _ => rfl
  | u :: c, hknown => by
      obtain ⟨b, hb⟩ := hknown u (.head c)
      rw [List.cons_append, find_cons hb, find_cons hb]
      cases b x with
      | some v => rfl
      | none => exact find_append fun u hu => hknown u (.tail _ hu)

/-- Where a name is found, it has the value. -/
theorem bound_of_find {x : Name} {t : ℕ} {v : Value} : ∀ {c : List ℕ}, store.find x c = some (t, v) →
    ∃ front outer, c = front ++ t :: outer ∧ (∀ w ∈ front, ¬Bound store w x) ∧
      ∃ b, store.scopes t = some b ∧ b x = some v
  | [], h => by cases h
  | u :: c, h => by
      obtain ⟨b, hb, h⟩ := Option.bind_eq_some_iff.mp h
      cases hx : b x with
      | some v' =>
        rw [hx] at h
        cases h
        exact ⟨[], c, rfl, by simp, b, hb, hx⟩
      | none =>
        rw [hx] at h
        obtain ⟨front, outer, rfl, hfront, hfound⟩ := bound_of_find h
        refine ⟨u :: front, outer, rfl, fun w hw => ?_, hfound⟩
        rcases List.mem_cons.mp hw with rfl | hw
        · rintro ⟨b', v', hb', hv'⟩
          obtain rfl := Option.some.inj (hb.symm.trans hb')
          rw [hx] at hv'
          cases hv'
        · exact hfront w hw

/-- A name that no scope has a value for is not found. -/
theorem find_eq_none {x : Name} : ∀ {c : List ℕ}, (∀ u ∈ c, ¬Bound store u x) → store.find x c = none
  | [], _ => rfl
  | u :: c, h => by
      rw [Store.find]
      cases hb : store.scopes u with
      | none => rfl
      | some b =>
        rw [Option.bind_eq_bind, Option.bind_some]
        cases hx : b x with
        | some v => exact absurd ⟨b, v, hb, hx⟩ (h u (.head c))
        | none => exact find_eq_none fun u hu => h u (.tail _ hu)

end

end Insomniac.Compile

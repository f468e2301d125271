import Insomniac.Compile.Lookup

/-!
# Compile/Alongside — the same code on both sides

    s1  ⊢  e1, tree  ──▸  v1, s1'
    ~      ~              ~   ~          in a world W, and W' grown from it
    s2  ⊢  e2, tree  ──▸  v2, s2'

Code that is evaluated in two environments that are there for what it needs does the same in both: it has
values that cannot be told apart, or stops for the same reason (`alongside`).  The proof is by induction on
the fuel, one lemma for each kind of node.
-/

open Relate

namespace Insomniac.Compile

section

variable {later : ℕ → Name → Prop} {W W' : World} {store1 store2 store1' store2' : Store} {n n' : Needs} {x : Name}
  {e1 e2 : List ℕ} {v1 v2 args1 args2 : Value}

/-! ## Less code

The environments are there for a need; a part of the code needs less, and what has grown is there still. -/

/-- Environments that are there for a need are there for less. -/
theorem Envs.sub (he : Envs later W store1 n e1 e2) (huses : ∀ x, n'.uses x → n.uses x)
    (hcaptures : ∀ x, n'.captures x → n.captures x) (hdefines : ∀ x, n'.defines x → n.defines x) :
    Envs later W store1 n' e1 e2 :=
  he.less ⟨fun x hx => .inl (huses x hx), fun x hx => .inl (hcaptures x hx), hdefines⟩

/-- They are there still when the world has grown. -/
theorem Envs.grows (he : Envs later W store1 n e1 e2) (h : (worlds later).grows W store1 W' store1') :
    Envs later W' store1' n e1 e2 := he.grown h.2 (.inl h.1)

/-- A name that is bound stays bound. -/
theorem HeadBound.grown (hbound : HeadBound store1 e1 x) (he : Envs later W store1 n e1 e2)
    (h : Grown W store1 W' store1') : HeadBound store1' e1 x := by
  obtain ⟨t, outer, rfl, hb⟩ := hbound
  refine ⟨t, outer, rfl, h.bound t x ?_ hb⟩
  cases he with
  | plain hpairs =>
    cases hpairs with
    | cons hpair _ => exact .inr ⟨_, hpair⟩
  | merged => exact .inl rfl
  | cons hpair _ => exact .inr ⟨_, hpair⟩

/-- A node that defines a name defines it in its scope. -/
theorem Node.defines_of_binds : ∀ {node : Node}, node.Binds x → node.Defines x
  | .bind .., h => .inr h

/-- **Behind a node**, what it has defined is not looked up any more. -/
theorem Envs.next {head : Node} {next : Stream} (he : Envs later W store1 (Stream.cons head next).needs e1 e2)
    (h : (worlds later).grows W store1 W' store1') (hbound : ∀ y, head.Binds y → HeadBound store1' e1 y) :
    Envs later W' store1' next.needs e1 e2 := by
  have hwithin : next.needs.Within (Stream.cons head next).needs (head.Binds ·) :=
    ⟨fun x hx => (em (head.Binds x)).elim .inr fun hnot => .inl (.inr ⟨hnot, hx⟩),
      fun x hx => (em (head.Binds x)).elim .inr fun hnot => .inl (.inr ⟨hnot, hx⟩), fun _ => .inr⟩
  exact (he.grows h).behind hwithin fun y hy => ⟨hbound y hy, .inl (Node.defines_of_binds hy)⟩

/-! ## Primitives

Values that cannot be told apart are `#f` together, and calculate to the same. -/

/-- What is known on both sides. -/
theorem known_relates {α β : Type} {R : α → β → Prop} (hm : Matches later W store1 store2) {a : Option α}
    {b : Option β} (h : Option.Rel R a b) :
    Relates (worlds later) W store1 store2 (known a) (known b) fun _ _ _ => R := by
  cases h with
  | some hab => exact relates_pure hm hab
  | none => exact relates_throw

/-- … and what is done with it. -/
theorem relates_known {α β γ : Type} {R : α → β → Prop} {a : Option α} {b : Option β} {f : α → Eval γ}
    {g : β → Eval γ} {post : World → Store → Store → γ → γ → Prop} (h : Option.Rel R a b)
    (hfg : ∀ a b, R a b → Relates (worlds later) W store1 store2 (f a) (g b) post) :
    Relates (worlds later) W store1 store2 (known a >>= f) (known b >>= g) post := by
  cases h with
  | some hab => exact hfg _ _ hab
  | none => exact .error rfl rfl

theorem isFalse_relates (hm : Matches later W store1 store2) (hv : Alike later W store1 v1 v2) :
    Relates (worlds later) W store1 store2 (known v1.isFalse) (known v2.isFalse) fun _ _ _ a b => a = b := by
  rw [hv.isFalse]
  refine known_relates hm ?_
  cases v2.isFalse with
  | none => exact .none
  | some isFalse => exact .some rfl

/-- What is calculated is data. -/
theorem MathOp.apply_alike (o : MathOp) {a b : Int64} :
    Option.Rel (Alike later W store1) (o.apply a b) (o.apply a b) := by
  cases o with
  | add => exact .some (.fixnum _)
  | sub => exact .some (.fixnum _)
  | mul => exact .some (.fixnum _)
  | equal => exact .some (.bool _)
  | lt => exact .some (.bool _)
  | gt => exact .some (.bool _)
  | div =>
    rw [MathOp.apply]
    split
    · exact .none
    · exact .some (.fixnum _)
  | mod =>
    rw [MathOp.apply]
    split
    · exact .none
    · exact .some (.fixnum _)

/-- Both calculate the same, or stop for the same reason. -/
theorem calculate_relates (hm : Matches later W store1 store2) (o : MathOp) {w1 w2 : Value}
    (hv : Alike later W store1 v1 v2) (hw : Alike later W store1 w1 w2) :
    Relates (worlds later) W store1 store2 (calculate o v1 w1) (calculate o v2 w2) fun W' store1' _ v1 v2 =>
      Alike later W' store1' v1 v2 := by
  cases hv with
  | fixnum a =>
    cases hw with
    | fixnum b => exact (known_relates hm o.apply_alike).mono fun _ _ _ _ _ hg _ hv => hv.grown hg.2
    | _ => exact relates_throw
  | _ => exact relates_throw

/-- A definition. -/
theorem define_relates (hm : Matches later W store1 store2) (he : Envs later W store1 n e1 e2) (hx : n.defines x)
    (hv : Alike later W store1 v1 v2) :
    Relates (worlds later) W store1 store2 (define e1 x v1) (define e2 x v2) fun _ store1' _ _ _ =>
      HeadBound store1' e1 x := by
  have hset {t u : ℕ} {o1 o2 : List ℕ} (htarget : W.Target later store2 x t u) :
      Relates (worlds later) W store1 store2 (define (t :: o1) x v1) (define (u :: o2) x v2)
        fun _ store1' _ _ _ => HeadBound store1' (t :: o1) x :=
    (setIn_relates hm htarget hv).mono fun _ _ _ _ _ _ _ hb => ⟨t, o1, rfl, hb⟩
  cases he with
  | plain hpairs =>
    cases hpairs with
    | nil => exact relates_throw
    | cons hpair _ => exact hset (.inl hpair)
  | merged _ _ _ _ hdefines =>
    obtain ⟨hc, -, u, c', rfl, hlater⟩ := hdefines x hx
    exact hset (.inr ⟨rfl, [], c', hc.symm, by simp, hlater⟩)
  | cons hpair _ => exact hset (.inl hpair)

/-- **The formals are bound on both sides.** -/
theorem bindFormals_relates : ∀ {formals : Formals} {W : World} {store1 store2 : Store} {args1 args2 : Value}
    {t u : ℕ}, Matches later W store1 store2 → W.pair t u → Alike later W store1 args1 args2 →
      Relates (worlds later) W store1 store2 (bindFormals t formals args1) (bindFormals u formals args2)
        fun _ store1' _ _ _ => ∀ x, formals.Binds x → Bound store1' t x
  | .fixed, _, _, _, _, _, _, _, hm, _, _ => relates_pure hm fun _ => False.elim
  | .rest name, _, _, _, _, _, _, _, hm, hpair, hargs =>
    (setIn_relates hm (.inl hpair) hargs).mono fun _ _ _ _ _ _ _ hb x hx => hx ▸ hb
  | .cons name next, _, _, _, _, _, t, _, hm, hpair, hargs => by
    cases hargs with
    | pair hcar hcdr =>
      refine (setIn_relates hm (.inl hpair) hcar).bind fun W' s1 s2 _ _ hg hm' hb => ?_
      refine (bindFormals_relates hm' (hg.2.pair _ _ hpair) (hcdr.grown hg.2)).mono
        fun W'' s1' s2' _ _ hg' hm'' hnext x hx => ?_
      rcases hx with rfl | hx
      · exact hg'.2.bound t _ (.inr ⟨_, hg.2.pair _ _ hpair⟩) hb
      · exact hnext x hx
    | _ => exact relates_throw

/-! ## The statement

One field for each of the functions that evaluate, so that the induction on the fuel has all of them at once. -/

/-- The values of two evaluations. -/
abbrev Values (later : ℕ → Name → Prop) (W : World) (store1 _ : Store) (v1 v2 : Value) : Prop :=
  Alike later W store1 v1 v2

/-- The values, and some names that have been defined. -/
abbrev Defined (later : ℕ → Name → Prop) (e1 : List ℕ) (names : Name → Prop) (W : World) (store1 _ : Store)
    (v1 v2 : Value) : Prop := Alike later W store1 v1 v2 ∧ ∀ y, names y → HeadBound store1 e1 y

/-- **The same code does the same on both sides**, for evaluations with some fuel. -/
structure Alongside (later : ℕ → Name → Prop) (fuel : ℕ) : Prop where
  node : ∀ {W store1 store2 e1 e2} (node : Node), Matches later W store1 store2 →
    Envs later W store1 node.needs e1 e2 → Relates (worlds later) W store1 store2 (evalNode fuel e1 node)
      (evalNode fuel e2 node) (Defined later e1 (node.Binds ·))
  stream : ∀ {W store1 store2 e1 e2} (tree : Stream), Matches later W store1 store2 →
    Envs later W store1 tree.needs e1 e2 → Relates (worlds later) W store1 store2 (evalStream fuel e1 tree)
      (evalStream fuel e2 tree) (Defined later e1 (tree.Binds ·))
  clauses : ∀ {W store1 store2 e1 e2} (clauses : Clauses), Matches later W store1 store2 →
    Envs later W store1 clauses.needs e1 e2 → Relates (worlds later) W store1 store2 (evalClauses fuel e1 clauses)
      (evalClauses fuel e2 clauses) (Values later)
  bool : ∀ {W store1 store2 e1 e2} (andOr : Bool) (nodes : Stream), Matches later W store1 store2 →
    Envs later W store1 nodes.needs e1 e2 → Relates (worlds later) W store1 store2 (evalBool fuel e1 andOr nodes)
      (evalBool fuel e2 andOr nodes) (Values later)
  operands : ∀ {W store1 store2 e1 e2 args1 args2} (operands : Stream), Matches later W store1 store2 →
    Envs later W store1 operands.needs e1 e2 → Alike later W store1 args1 args2 →
      Relates (worlds later) W store1 store2 (evalOperands fuel e1 operands args1)
        (evalOperands fuel e2 operands args2) (Values later)
  call : ∀ {W store1 store2 f1 f2 args1 args2}, Matches later W store1 store2 → Alike later W store1 f1 f2 →
    Alike later W store1 args1 args2 → Relates (worlds later) W store1 store2 (evalCall fuel f1 args1)
      (evalCall fuel f2 args2) (Values later)

/-! ## Nodes

Each node is evaluated part by part, and what a part needs is some of what the node needs.  A `define` is the
one node that may give a name to its scope, so what it needs of later code is said there. -/

variable {fuel : ℕ}

/-- A value, of a node that defines nothing. -/
theorem defined_of_value {x y : Eval Value} (h : Relates (worlds later) W store1 store2 x y (Values later))
    {names : Name → Prop} (hnone : ∀ y, ¬names y) :
    Relates (worlds later) W store1 store2 x y (Defined later e1 names) :=
  h.mono fun _ _ _ _ _ _ _ hv => ⟨hv, fun y hy => absurd hy (hnone y)⟩

/-- What is said with the names that are defined is said without them. -/
theorem value_of_defined {x y : Eval Value} {names : Name → Prop}
    (h : Relates (worlds later) W store1 store2 x y (Defined later e1 names)) :
    Relates (worlds later) W store1 store2 x y (Values later) := h.mono fun _ _ _ _ _ _ _ hv => hv.1

/-- A literal is the same on both sides. -/
theorem Literal.alike (l : Literal) : Alike later W store1 l.value l.value := by
  cases l with
  | empty => exact .empty
  | boolean b => exact .bool b
  | fixnum i => exact .fixnum i
  | char c => exact .char c
  | string str => exact .string _
  | symbol name => exact .symbol _

theorem load_relates (hlater : ∀ i j x, i ≤ j → later j x → later i x) (hm : Matches later W store1 store2)
    (name : Text) (he : Envs later W store1 (Node.load name).needs e1 e2) :
    Relates (worlds later) W store1 store2 (evalNode (fuel + 1) e1 (.load name)) (evalNode (fuel + 1) e2 (.load name))
      (Values later) := by
  exact relates_get (relates_known (he.find hlater hm ⟨not_false, rfl⟩) fun a b hab => relates_pure hm hab.alike)

theorem ifElse_relates (h : Alongside later fuel) (hm : Matches later W store1 store2) {test yes no : Stream}
    (he : Envs later W store1 (Node.ifElse test yes no).needs e1 e2) :
    Relates (worlds later) W store1 store2 (evalNode (fuel + 1) e1 (.ifElse test yes no))
      (evalNode (fuel + 1) e2 (.ifElse test yes no)) (Values later) := by
  refine (h.stream test hm (he.sub (fun _ => .inl) (fun _ => .inl) fun _ => .inl)).bind
    fun W1 s1 s2 v1 v2 hg hm1 hv => ?_
  refine (isFalse_relates hm1 hv.1).bind fun W2 s1' s2' a b hg' hm2 hab => ?_
  have he2 := (he.grows hg).grows hg'
  rw [hab]
  split
  · exact value_of_defined (h.stream no hm2 (he2.sub (fun _ h => .inr (.inr h)) (fun _ h => .inr (.inr h))
      fun _ h => .inr (.inr h)))
  · exact value_of_defined (h.stream yes hm2 (he2.sub (fun _ h => .inr (.inl h)) (fun _ h => .inr (.inl h))
      fun _ h => .inr (.inl h)))

theorem math_relates (h : Alongside later fuel) (hm : Matches later W store1 store2) (o : MathOp)
    {stream1 stream2 : Stream} (he : Envs later W store1 (Node.math o stream1 stream2).needs e1 e2) :
    Relates (worlds later) W store1 store2 (evalNode (fuel + 1) e1 (.math o stream1 stream2))
      (evalNode (fuel + 1) e2 (.math o stream1 stream2)) (Values later) := by
  refine (h.stream stream1 hm (he.sub (fun _ => .inl) (fun _ => .inl) fun _ => .inl)).bind
    fun W1 s1 s2 v1 v2 hg hm1 hv => ?_
  refine (h.stream stream2 hm1 ((he.grows hg).sub (fun _ => .inr) (fun _ => .inr) fun _ => .inr)).bind
    fun W2 s1' s2' w1 w2 hg' hm2 hw => ?_
  exact calculate_relates hm2 o (hv.1.grown hg'.2) hw.1

/-- A lambda makes closures of the same code. -/
theorem lambda_relates (hm : Matches later W store1 store2) {formals : Formals} {body : Stream}
    (he : Envs later W store1 (Node.lambda formals body).needs e1 e2) :
    Relates (worlds later) W store1 store2 (evalNode (fuel + 1) e1 (.lambda formals body))
      (evalNode (fuel + 1) e2 (.lambda formals body)) (Values later) := by
  exact relates_pure hm (.closure (he.sub (fun _ h => h) (fun _ h => h) fun _ h => h))

theorem callNode_relates (h : Alongside later fuel) (hm : Matches later W store1 store2) {operator operands : Stream}
    (he : Envs later W store1 (Node.call operator operands).needs e1 e2) :
    Relates (worlds later) W store1 store2 (evalNode (fuel + 1) e1 (.call operator operands))
      (evalNode (fuel + 1) e2 (.call operator operands)) (Values later) := by
  refine (h.operands operands hm (he.sub (fun _ => .inl) (fun _ => .inl) fun _ => .inl) .empty).bind
    fun W1 s1 s2 a1 a2 hg hm1 hargs => ?_
  refine (h.stream operator hm1 ((he.grows hg).sub (fun _ => .inr) (fun _ => .inr) fun _ => .inr)).bind
    fun W2 s1' s2' f1 f2 hg' hm2 hf => ?_
  exact h.call hm2 hf.1 (hargs.grown hg'.2)

theorem bind_relates (h : Alongside later fuel) (hm : Matches later W store1 store2) {value : Stream} {name : Text}
    (he : Envs later W store1 (Node.bind value name).needs e1 e2) :
    Relates (worlds later) W store1 store2 (evalNode (fuel + 1) e1 (.bind value name))
      (evalNode (fuel + 1) e2 (.bind value name)) (Defined later e1 ((Node.bind value name).Binds ·)) := by
  refine (h.stream value hm (he.sub (fun _ h => h) (fun _ h => h) fun _ => .inl)).bind
    fun W1 s1 s2 v1 v2 hg hm1 hv => ?_
  refine (define_relates hm1 (he.grows hg) (.inr rfl) hv.1).bind fun W2 s1' s2' _ _ hg' hm2 hb => ?_
  exact relates_pure hm2 ⟨.empty, fun y hy => hy ▸ hb⟩

theorem letStar_relates (h : Alongside later fuel) (hm : Matches later W store1 store2) {bindings body : Stream}
    (he : Envs later W store1 (Node.letStar bindings body).needs e1 e2) :
    Relates (worlds later) W store1 store2 (evalNode (fuel + 1) e1 (.letStar bindings body))
      (evalNode (fuel + 1) e2 (.letStar bindings body)) (Values later) := by
  refine (newScope_relates hm).bind fun W1 s1 s2 t u hg hm1 hpair => ?_
  have he1 : Envs later W1 s1 bindings.needs (t :: e1) (u :: e2) :=
    .cons hpair ((he.grows hg).sub (fun _ h => .inl h.1) (fun _ h => .inl h.1) fun _ => False.elim)
  refine (h.stream bindings hm1 he1).bind fun W2 s1' s2' v1 v2 hg' hm2 hv => ?_
  have hbound x (hx : bindings.Binds x) : Bound s1' t x := headBound_cons.mp (hv.2 x hx)
  refine value_of_defined (h.stream body hm2 (.cons (hg'.2.pair t u hpair) (((he.grows hg).grows hg').sub ?_ ?_ ?_)))
  · exact fun x hx => .inr ⟨fun hb => hx.2 (hbound x hb), hx.1⟩
  · exact fun x hx => .inr ⟨fun hb => hx.2 (hbound x hb), hx.1⟩
  · exact fun _ => False.elim

theorem store_relates (h : Alongside later fuel) (hlater : ∀ i j x, i ≤ j → later j x → later i x)
    (hm : Matches later W store1 store2) {value : Stream} {name : Text}
    (he : Envs later W store1 (Node.store value name).needs e1 e2) :
    Relates (worlds later) W store1 store2 (evalNode (fuel + 1) e1 (.store value name))
      (evalNode (fuel + 1) e2 (.store value name)) (Values later) := by
  refine (h.stream value hm (he.sub (fun _ => .inl) (fun _ => .inl) fun _ h => h)).bind
    fun W1 s1 s2 v1 v2 hg hm1 hv => ?_
  have hfind := (he.grows hg).find hlater hm1 (.inr ⟨not_false, rfl⟩)
  refine relates_get (relates_known hfind fun found1 found2 hfound => ?_)
  exact (setIn_relates hm1 hfound.target hv.1).bind fun W2 s1' s2' _ _ _ hm2 _ => relates_pure hm2 .empty

/-! ## Sequences

A stream defines names for what comes behind, so the environments are there for the rest with the names of the
first node added. -/

/-- **A stream**, node by node. -/
theorem stream_relates (h : Alongside later fuel) (hm : Matches later W store1 store2) (tree : Stream)
    (he : Envs later W store1 tree.needs e1 e2) :
    Relates (worlds later) W store1 store2 (evalStream (fuel + 1) e1 tree) (evalStream (fuel + 1) e2 tree)
      (Defined later e1 (tree.Binds ·)) := by
  match tree with
  | .nil => exact relates_pure hm ⟨.empty, fun y => False.elim⟩
  | .cons head .nil =>
    refine (h.node head hm (he.sub (fun _ => .inl) (fun _ => .inl) fun _ => .inl)).mono
      fun W1 s1 s2 v1 v2 _ _ hv => ⟨hv.1, fun y hy => hv.2 y (hy.resolve_right id)⟩
  | .cons head (.cons head' next) =>
    refine (h.node head hm (he.sub (fun _ => .inl) (fun _ => .inl) fun _ => .inl)).bind
      fun W1 s1 s2 v1 v2 hg hm1 hv => ?_
    have henext := he.next hg hv.2
    refine (h.stream (.cons head' next) hm1 henext).mono fun W2 s1' s2' w1 w2 hg' _ hw => ⟨hw.1, fun y hy => ?_⟩
    exact hy.elim (fun hy => (hv.2 y hy).grown henext hg'.2) (hw.2 y)

theorem clauses_relates (h : Alongside later fuel) (hm : Matches later W store1 store2) (clauses : Clauses)
    (he : Envs later W store1 clauses.needs e1 e2) :
    Relates (worlds later) W store1 store2 (evalClauses (fuel + 1) e1 clauses) (evalClauses (fuel + 1) e2 clauses)
      (Values later) := by
  cases clauses with
  | nil => exact relates_pure hm .empty
  | cons test body next =>
    refine (h.stream test hm (he.sub (fun _ => .inl) (fun _ => .inl) fun _ => .inl)).bind
      fun W1 s1 s2 v1 v2 hg hm1 hv => ?_
    refine (isFalse_relates hm1 hv.1).bind fun W2 s1' s2' a b hg' hm2 hab => ?_
    have he2 := (he.grows hg).grows hg'
    rw [hab]
    split
    · exact h.clauses next hm2 (he2.sub (fun _ h => .inr (.inr h)) (fun _ h => .inr (.inr h))
        fun _ h => .inr (.inr h))
    · exact value_of_defined (h.stream body hm2 (he2.sub (fun _ h => .inr (.inl h)) (fun _ h => .inr (.inl h))
        fun _ h => .inr (.inl h)))

theorem boolLoop_relates (h : Alongside later fuel) (hm : Matches later W store1 store2) (andOr : Bool)
    (nodes : Stream) (he : Envs later W store1 nodes.needs e1 e2) :
    Relates (worlds later) W store1 store2 (evalBool (fuel + 1) e1 andOr nodes) (evalBool (fuel + 1) e2 andOr nodes)
      (Values later) := by
  match nodes with
  | .nil => exact relates_pure hm (.bool andOr)
  | .cons head .nil =>
    exact value_of_defined (h.node head hm (he.sub (fun _ => .inl) (fun _ => .inl) fun _ => .inl))
  | .cons head (.cons head' next) =>
    refine (h.node head hm (he.sub (fun _ => .inl) (fun _ => .inl) fun _ => .inl)).bind
      fun W1 s1 s2 v1 v2 hg hm1 hv => ?_
    refine (isFalse_relates hm1 hv.1).bind fun W2 s1' s2' a b hg' hm2 hab => ?_
    rw [hab]
    split
    · exact relates_pure hm2 (hv.1.grown hg'.2)
    · exact h.bool andOr (.cons head' next) hm2 ((he.next hg hv.2).grows hg')

theorem operands_relates (h : Alongside later fuel) (hm : Matches later W store1 store2) (operands : Stream)
    (he : Envs later W store1 operands.needs e1 e2) (hargs : Alike later W store1 args1 args2) :
    Relates (worlds later) W store1 store2 (evalOperands (fuel + 1) e1 operands args1)
      (evalOperands (fuel + 1) e2 operands args2) (Values later) := by
  cases operands with
  | nil => exact relates_pure hm hargs
  | cons head next =>
    refine (h.node head hm (he.sub (fun _ => .inl) (fun _ => .inl) fun _ => .inl)).bind
      fun W1 s1 s2 v1 v2 hg hm1 hv => ?_
    exact h.operands next hm1 (he.next hg hv.2) (.pair hv.1 (hargs.grown hg.2))

/-- **A closure is called on both sides.** -/
theorem call_relates (h : Alongside later fuel) (hm : Matches later W store1 store2)
    (hf : Alike later W store1 v1 v2) (hargs : Alike later W store1 args1 args2) :
    Relates (worlds later) W store1 store2 (evalCall (fuel + 1) v1 args1) (evalCall (fuel + 1) v2 args2)
      (Values later) := by
  cases hf with
  | @closure formals body e1 e2 he =>
    refine (newScope_relates hm).bind fun W1 s1 s2 t u hg hm1 hpair => ?_
    refine (bindFormals_relates hm1 hpair (hargs.grown hg.2)).bind fun W2 s1' s2' _ _ hg' hm2 hbound => ?_
    refine value_of_defined (h.stream body hm2 (.cons (hg'.2.pair t u hpair)
      (((he.grows hg).grows hg').sub ?_ ?_ ?_)))
    · exact fun x hx => ⟨fun hb => hx.2 (hbound x hb), hx.1⟩
    · exact fun x hx => ⟨fun hb => hx.2 (hbound x hb), Stream.uses_of_captures hx.1⟩
    · exact fun _ => False.elim
  | _ => exact relates_throw

/-! ## All code

The step of the induction puts the lemmas for nodes and sequences together. -/

/-- Without fuel both sides stop. -/
theorem Alongside.zero (later : ℕ → Name → Prop) : Alongside later 0 where
  node node _ _ := by
    rw [evalNode, evalNode]
    exact relates_throw
  stream tree _ _ := by
    rw [evalStream, evalStream]
    exact relates_throw
  clauses clauses _ _ := by
    rw [evalClauses, evalClauses]
    exact relates_throw
  bool andOr nodes _ _ := by
    rw [evalBool, evalBool]
    exact relates_throw
  operands operands _ _ _ := by
    rw [evalOperands, evalOperands]
    exact relates_throw
  call _ _ _ := by
    rw [evalCall, evalCall]
    exact relates_throw

/-- **One more unit of fuel.** -/
theorem Alongside.succ (hlater : ∀ i j x, i ≤ j → later j x → later i x) (h : Alongside later fuel) :
    Alongside later (fuel + 1) where
  node {W store1 store2 e1 e2} node hm he := by
    cases node with
    | literal l => exact defined_of_value (relates_pure hm l.alike) fun _ => id
    | load name => exact defined_of_value (load_relates hlater hm name he) fun _ => id
    | cond clauses => exact defined_of_value (h.clauses clauses hm he) fun _ => id
    | ifElse test yes no => exact defined_of_value (ifElse_relates h hm he) fun _ => id
    | and nodes => exact defined_of_value (h.bool true nodes hm he) fun _ => id
    | or nodes => exact defined_of_value (h.bool false nodes hm he) fun _ => id
    | math o stream1 stream2 => exact defined_of_value (math_relates h hm o he) fun _ => id
    | lambda formals body => exact defined_of_value (lambda_relates hm he) fun _ => id
    | call operator operands => exact defined_of_value (callNode_relates h hm he) fun _ => id
    | bind value name => exact bind_relates h hm he
    | store value name => exact defined_of_value (store_relates h hlater hm he) fun _ => id
    | letStar bindings body => exact defined_of_value (letStar_relates h hm he) fun _ => id
  stream tree hm he := stream_relates h hm tree he
  clauses clauses hm he := clauses_relates h hm clauses he
  bool andOr nodes hm he := boolLoop_relates h hm andOr nodes he
  operands operands hm he hargs := operands_relates h hm operands he hargs
  call hm hf hargs := call_relates h hm hf hargs

/-- **The same code does the same on both sides.** -/
theorem alongside (hlater : ∀ i j x, i ≤ j → later j x → later i x) (fuel : ℕ) : Alongside later fuel := by
  induction fuel with
  | zero => exact .zero later
  | succ fuel ih => exact ih.succ hlater

end

end Insomniac.Compile

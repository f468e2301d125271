import Insomniac.Compile.Agrees

/-!
# Compile/Closed — no closure refers to a scope that is not there

    closure formals body env          env < store.next

Scopes are only added, and closures take the environment that they are made in.  So in a store that is
closed, code that is evaluated in scopes that are there leaves a closed store, and has a value that refers
to scopes of it.
-/

open Run

namespace Insomniac.Compile

/-- The closures of a value have scopes below a number. -/
def Value.Within (n : ℕ) : Value → Prop
  | .pair car cdr => car.Within n ∧ cdr.Within n
  | .closure _ _ env => ∀ t ∈ env, t < n
  | _ => True

/-- **The closures in a store have scopes of the store.** -/
def Store.Closed (store : Store) : Prop :=
  ∀ t bindings x v, store.scopes t = some bindings → bindings x = some v → v.Within store.next

section

variable {store store' store'' : Store} {env : List ℕ} {v args : Value} {n n' t : ℕ} {x : List UInt8}

/-- A value that refers to scopes below a number refers to scopes below any greater one. -/
theorem Value.Within.mono (h : n ≤ n') : ∀ {v : Value}, v.Within n → v.Within n'
  | .pair _ _, ⟨hcar, hcdr⟩ => ⟨hcar.mono h, hcdr.mono h⟩
  | .closure .., henv => fun t ht => (henv t ht).trans_le h
  | .fixnum _, _ => trivial
  | .bool _, _ => trivial
  | .char _, _ => trivial
  | .string _, _ => trivial
  | .symbol _, _ => trivial
  | .empty, _ => trivial
  | .other _, _ => trivial

/-- What is found is in the store. -/
theorem Store.Closed.find (h : store.Closed) : ∀ {env : List ℕ} {found : ℕ × Value},
    store.find x env = some found → found.2.Within store.next
  | t :: env, found, hfind => by
      obtain ⟨b, hb, hfind⟩ := Option.bind_eq_some_iff.mp hfind
      cases hx : b x with
      | some v =>
        rw [hx] at hfind
        cases hfind
        exact h t b x v hb hx
      | none =>
        rw [hx] at hfind
        exact h.find hfind

/-! ## Steps

`Keeps store x post` says that `x` leaves a closed store which has all the scopes of `store`, and what its value
is in.  Stopping is always allowed. -/

/-- **An evaluation in a closed store**, and what its result satisfies. -/
def Keeps {α : Type} (store : Store) (x : Eval α) (post : ℕ → α → Prop) : Prop :=
  Ends (fun _ => True) x store fun a store' => store'.Closed ∧ store.next ≤ store'.next ∧ post store'.next a

section

variable {α β : Type} {x : Eval α} {f : α → Eval β} {post : ℕ → α → Prop} {post' : ℕ → β → Prop}

/-- A value that is in the scopes there are. -/
theorem keeps_pure (h : store.Closed) {a : α} (ha : post store.next a) : Keeps store (pure a) post :=
  ends_pure ⟨h, le_rfl, ha⟩

/-- To stop. -/
theorem keeps_throw {e : Stop} : Keeps store (throw e : Eval α) post := ends_throw trivial

/-- **One step behind another**, in the store that the first one leaves. -/
theorem Keeps.bind (hx : Keeps store x post) (hf : ∀ a store', store'.Closed → store.next ≤ store'.next →
    post store'.next a → Keeps store' (f a) post') : Keeps store (x >>= f) post' :=
  Ends.bind hx fun a store' ⟨hclosed, hle, ha⟩ => (hf a store' hclosed hle ha).mono
    fun _ _ ⟨hclosed', hle', hb⟩ => ⟨hclosed', hle.trans hle', hb⟩

/-- A step may look at the store. -/
theorem keeps_get {f : Store → Eval β} (h : Keeps store (f store) post') : Keeps store (get >>= f) post' := h

/-- What is known. -/
theorem keeps_known {o : Option α} (h : ∀ a, o = some a → Keeps store (f a) post') :
    Keeps store (known o >>= f) post' := by
  cases o with
  | none => exact .inr ⟨.error, rfl, trivial⟩
  | some a => exact h a rfl

end

/-- A new scope is there afterwards. -/
theorem keeps_newScope (h : store.Closed) : Keeps store newScope fun n t => t < n := by
  refine ends_of_eq (newScope_run store) ⟨fun t b x v hb hx => ?_, Nat.le_succ _, Nat.lt_succ_self _⟩
  rcases eq_or_ne t store.next with rfl | hne
  · cases (Function.update_self ..).symm.trans hb
    cases hx
  · exact (h t b x v ((Function.update_of_ne hne ..).symm.trans hb) hx).mono (Nat.le_succ _)

/-- **Setting a name to a value of the store.** -/
theorem keeps_setIn (h : store.Closed) (hv : v.Within store.next) : Keeps store (setIn t x v) fun _ _ => True := by
  cases hset : setIn t x v store with
  | error e => exact .inr ⟨e, hset, trivial⟩
  | ok r =>
    obtain ⟨b, hb, hstore⟩ := setIn_ok hset
    have hnext : r.2.next = store.next := by rw [hstore]
    refine ends_of_eq hset ⟨fun t' b' x' v' hb' hx' => ?_, hnext.ge, trivial⟩
    rw [hnext]
    rw [hstore] at hb'
    rcases eq_or_ne t' t with rfl | hne
    · cases (Function.update_self ..).symm.trans hb'
      rcases eq_or_ne x' x with rfl | hne'
      · cases (Function.update_self ..).symm.trans hx'
        exact hv
      · exact h t' b x' v' hb ((Function.update_of_ne hne' ..).symm.trans hx')
    · exact h t' b' x' v' ((Function.update_of_ne hne ..).symm.trans hb') hx'

/-- A value that is in the scopes there are may be bound. -/
theorem keeps_define (h : store.Closed) (hv : v.Within store.next) :
    Keeps store (define env x v) fun _ _ => True := by
  cases env with
  | nil => exact keeps_throw
  | cons t env => exact keeps_setIn h hv

/-- Arguments may be bound to formals. -/
theorem keeps_bindFormals : ∀ {formals : Formals} {store : Store} {args : Value}, store.Closed →
    args.Within store.next → Keeps store (bindFormals t formals args) fun _ _ => True
  | .fixed, _, _, h, _ => keeps_pure h trivial
  | .rest _, _, _, h, hargs => keeps_setIn h hargs
  | .cons _ _, _, .pair _ _, h, hargs =>
    (keeps_setIn h hargs.1).bind fun _ _ h' hle _ => keeps_bindFormals h' (hargs.2.mono hle)
  | .cons _ _, _, .fixnum _, _, _ => keeps_throw
  | .cons _ _, _, .bool _, _, _ => keeps_throw
  | .cons _ _, _, .char _, _, _ => keeps_throw
  | .cons _ _, _, .string _, _, _ => keeps_throw
  | .cons _ _, _, .symbol _, _, _ => keeps_throw
  | .cons _ _, _, .empty, _, _ => keeps_throw
  | .cons _ _, _, .closure .., _, _ => keeps_throw
  | .cons _ _, _, .other _, _, _ => keeps_throw

/-! ## All code

By induction on the fuel, over all of the functions that evaluate. -/

/-- **Evaluations keep a store closed**, those with some fuel. -/
structure ClosedBy (fuel : ℕ) : Prop where
  node : ∀ {env store} (node : Node), store.Closed → (∀ t ∈ env, t < store.next) →
    Keeps store (evalNode fuel env node) fun n v => v.Within n
  stream : ∀ {env store} (tree : Stream), store.Closed → (∀ t ∈ env, t < store.next) →
    Keeps store (evalStream fuel env tree) fun n v => v.Within n
  clauses : ∀ {env store} (clauses : Clauses), store.Closed → (∀ t ∈ env, t < store.next) →
    Keeps store (evalClauses fuel env clauses) fun n v => v.Within n
  bool : ∀ {env store} (andOr : Bool) (nodes : Stream), store.Closed → (∀ t ∈ env, t < store.next) →
    Keeps store (evalBool fuel env andOr nodes) fun n v => v.Within n
  operands : ∀ {env store args} (operands : Stream), store.Closed → (∀ t ∈ env, t < store.next) →
    args.Within store.next → Keeps store (evalOperands fuel env operands args) fun n v => v.Within n
  call : ∀ {store f args}, store.Closed → f.Within store.next → args.Within store.next →
    Keeps store (evalCall fuel f args) fun n v => v.Within n

variable {fuel : ℕ}

/-- An operation has data for its value. -/
theorem keeps_calculate (h : store.Closed) (o : MathOp) {w : Value} :
    Keeps store (calculate o v w) fun n v => v.Within n := by
  unfold calculate
  split
  · next a b =>
    have hdata : ∀ v, o.apply a b = some v → Value.Within store.next v := by
      intro v hv
      cases o <;> simp only [MathOp.apply, Option.ite_none_left_eq_some, Option.some.injEq] at hv <;>
        first | (subst hv; trivial) | (obtain ⟨-, rfl⟩ := hv; trivial)
    cases hv : o.apply a b with
    | none => exact keeps_throw
    | some v => exact keeps_pure h (hdata v hv)
  · exact keeps_throw

theorem ClosedBy.succ_node (h : ClosedBy fuel) (node : Node) (hstore : store.Closed)
    (henv : ∀ t ∈ env, t < store.next) : Keeps store (evalNode (fuel + 1) env node) fun n v => v.Within n := by
  have hmono {store' store'' : Store} (henv : ∀ t ∈ env, t < store'.next) (hle : store'.next ≤ store''.next) :
      ∀ t ∈ env, t < store''.next := fun t ht => (henv t ht).trans_le hle
  cases node with
  | literal l => exact keeps_pure hstore (by cases l <;> trivial)
  | load name => exact keeps_known fun found hfound => keeps_pure hstore (hstore.find hfound)
  | cond clauses => exact h.clauses clauses hstore henv
  | ifElse test yes no =>
    refine (h.stream test hstore henv).bind fun v store1 h1 hle _ => keeps_known fun isFalse _ => ?_
    split
    · exact h.stream no h1 (hmono henv hle)
    · exact h.stream yes h1 (hmono henv hle)
  | and nodes => exact h.bool true nodes hstore henv
  | or nodes => exact h.bool false nodes hstore henv
  | math o stream1 stream2 =>
    refine (h.stream stream1 hstore henv).bind fun v store1 h1 hle _ => ?_
    exact (h.stream stream2 h1 (hmono henv hle)).bind fun w store2 h2 _ _ => keeps_calculate h2 o
  | lambda formals body => exact keeps_pure hstore henv
  | call operator operands =>
    have hempty : Value.Within store.next .empty := trivial
    refine (h.operands operands hstore henv hempty).bind fun args store1 h1 hle hargs => ?_
    refine (h.stream operator h1 (hmono henv hle)).bind fun f store2 h2 hle' hf => ?_
    exact h.call h2 hf (hargs.mono hle')
  | bind value name =>
    refine (h.stream value hstore henv).bind fun v store1 h1 _ hv => ?_
    exact (keeps_define h1 hv).bind fun _ store2 h2 _ _ => keeps_pure h2 trivial
  | store value name =>
    refine (h.stream value hstore henv).bind fun v store1 h1 _ hv => ?_
    refine keeps_get (keeps_known fun found _ => ?_)
    exact (keeps_setIn h1 hv).bind fun _ store2 h2 _ _ => keeps_pure h2 trivial
  | letStar bindings body =>
    refine (keeps_newScope hstore).bind fun t store1 h1 hle ht => ?_
    have henv1 : ∀ t' ∈ t :: env, t' < store1.next := by
      rintro t' (_ | ⟨_, ht'⟩)
      · exact ht
      · exact hmono henv hle t' ht'
    refine (h.stream bindings h1 henv1).bind fun _ store2 h2 hle' _ => ?_
    exact h.stream body h2 fun t' ht' => (henv1 t' ht').trans_le hle'

theorem ClosedBy.zero : ClosedBy 0 where
  node _ _ _ := by
    rw [evalNode]
    exact keeps_throw
  stream _ _ _ := by
    rw [evalStream]
    exact keeps_throw
  clauses _ _ _ := by
    rw [evalClauses]
    exact keeps_throw
  bool _ _ _ _ := by
    rw [evalBool]
    exact keeps_throw
  operands _ _ _ _ := by
    rw [evalOperands]
    exact keeps_throw
  call _ _ _ := by
    rw [evalCall]
    exact keeps_throw

theorem ClosedBy.succ (h : ClosedBy fuel) : ClosedBy (fuel + 1) where
  node node hstore henv := h.succ_node node hstore henv
  stream tree hstore henv := by
    match tree with
    | .nil => exact keeps_pure hstore trivial
    | .cons head .nil => exact h.node head hstore henv
    | .cons head (.cons head' next) =>
      exact (h.node head hstore henv).bind fun _ store1 h1 hle _ =>
        h.stream (.cons head' next) h1 fun t ht => (henv t ht).trans_le hle
  clauses clauses hstore henv := by
    cases clauses with
    | nil => exact keeps_pure hstore trivial
    | cons test body next =>
      refine (h.stream test hstore henv).bind fun v store1 h1 hle _ => keeps_known fun isFalse _ => ?_
      split
      · exact h.clauses next h1 fun t ht => (henv t ht).trans_le hle
      · exact h.stream body h1 fun t ht => (henv t ht).trans_le hle
  bool andOr nodes hstore henv := by
    match nodes with
    | .nil => exact keeps_pure hstore trivial
    | .cons head .nil => exact h.node head hstore henv
    | .cons head (.cons head' next) =>
      refine (h.node head hstore henv).bind fun v store1 h1 hle hv => keeps_known fun isFalse _ => ?_
      split
      · exact keeps_pure h1 hv
      · exact h.bool andOr (.cons head' next) h1 fun t ht => (henv t ht).trans_le hle
  operands operands hstore henv hargs := by
    cases operands with
    | nil => exact keeps_pure hstore hargs
    | cons head next =>
      exact (h.node head hstore henv).bind fun v store1 h1 hle hv =>
        h.operands next h1 (fun t ht => (henv t ht).trans_le hle) ⟨hv, hargs.mono hle⟩
  call {store f args} hstore hf hargs := by
    cases f with
    | closure formals body env =>
      refine (keeps_newScope hstore).bind fun t store1 h1 hle ht => ?_
      refine (keeps_bindFormals h1 (hargs.mono hle)).bind fun _ store2 h2 hle' _ => ?_
      refine h.stream body h2 fun t' ht' => ?_
      rcases List.mem_cons.mp ht' with rfl | ht'
      · exact ht.trans_le hle'
      · exact (hf t' ht').trans_le (hle.trans hle')
    | _ => exact keeps_throw

/-- **All code**, with any fuel. -/
theorem closedBy (fuel : ℕ) : ClosedBy fuel := by
  induction fuel with
  | zero => exact .zero
  | succ fuel ih => exact ih.succ

/-- **A closed store stays closed**, and has the scopes of the value. -/
theorem Store.Closed.eval (h : store.Closed) (henv : ∀ t ∈ env, t < store.next) {tree : Stream}
    (heval : evalStream fuel env tree store = .ok (v, store')) :
    store'.Closed ∧ store.next ≤ store'.next ∧ v.Within store'.next :=
  ((closedBy fuel).stream tree h henv).of_ok heval

end

end Insomniac.Compile

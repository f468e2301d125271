import Insomniac.Compile.Closed
import Insomniac.Compile.Whole

/-!
# Compile/Hidden — what code cannot reach, it does not change

    store.scopes t  =  store'.scopes t          for hidden t

Code reaches the scopes that it runs in and those of the closures that it finds there, those of the library
included, and no others.  When none of these is among some hidden scopes and the code has a value, the value
does not reach them either, and the bindings in hidden scopes are what they were (`Store.Hides.eval`), on the
machine too (`hidden_bindings_stay`).
-/

open Insomniac.Asm Insomniac.Vm Insomniac.Abstract Insomniac.Lib Run

/-! ## What values reach

A closure reaches the scopes of its environment.  A closure that the machine has made, as those of the library
are, has the tables of its frames; an object of which nothing is known may have any. -/

namespace Insomniac.Abstract

/-- **The closures of a value of the machine have no hidden table.** -/
def Val.Avoids (hidden : ℕ → Prop) : Val → Prop
  | .ref _ | .obj _ _ => False
  | .pair car cdr => car.Avoids hidden ∧ cdr.Avoids hidden
  | .closure here outer => ∀ frame ∈ here :: outer, ¬ hidden frame.bindings
  | _ => True

end Insomniac.Abstract

namespace Insomniac.Compile

/-- **The closures of a value have no hidden scope.** -/
def Value.Avoids (hidden : ℕ → Prop) : Value → Prop
  | .pair car cdr => car.Avoids hidden ∧ cdr.Avoids hidden
  | .closure _ _ env => ∀ t ∈ env, ¬ hidden t
  | .other v => v.Avoids hidden
  | _ => True

/-- **Some scopes are hidden** from the closures that are in the others. -/
structure Store.Hides (store : Store) (hidden : ℕ → Prop) : Prop where
  old : ∀ t, hidden t → t < store.next
  avoids : ∀ t bindings x v, ¬ hidden t → store.scopes t = some bindings → bindings x = some v → v.Avoids hidden

section

variable {hidden : ℕ → Prop} {store store' store'' : Store} {env : List ℕ} {v args : Value} {t : ℕ} {x : List UInt8}

/-- What is found from scopes that are not hidden is not in a hidden one, and has none. -/
theorem Store.Hides.find (h : store.Hides hidden) : ∀ {env : List ℕ} {found : ℕ × Value}, (∀ t ∈ env, ¬ hidden t) →
    store.find x env = some found → ¬ hidden found.1 ∧ found.2.Avoids hidden
  | t :: env, found, henv, hfind => by
      obtain ⟨ht, henv⟩ := List.forall_mem_cons.mp henv
      obtain ⟨b, hb, hfind⟩ := Option.bind_eq_some_iff.mp hfind
      cases hx : b x with
      | some v =>
        rw [hx] at hfind
        cases hfind
        exact ⟨ht, h.avoids t b x v ht hb hx⟩
      | none =>
        rw [hx] at hfind
        exact h.find henv hfind

/-! ## Steps

`Spares hidden store x post` says that `x` leaves every hidden scope as it is in `store`, and what its value
avoids.  Stopping is always allowed. -/

/-- **An evaluation that leaves hidden scopes alone**, and what its result satisfies. -/
def Spares {α : Type} (hidden : ℕ → Prop) (store : Store) (x : Eval α) (post : α → Prop) : Prop :=
  Ends (fun _ => True) x store fun a store' =>
    store'.Hides hidden ∧ (∀ t, hidden t → store'.scopes t = store.scopes t) ∧ post a

section

variable {α β : Type} {x : Eval α} {f : α → Eval β} {post : α → Prop} {post' : β → Prop}

/-- A value that avoids the hidden scopes. -/
theorem spares_pure (h : store.Hides hidden) {a : α} (ha : post a) : Spares hidden store (pure a) post :=
  ends_pure ⟨h, fun _ _ => rfl, ha⟩

/-- To stop. -/
theorem spares_throw {e : Stop} : Spares hidden store (throw e : Eval α) post := ends_throw trivial

/-- **One step behind another.** -/
theorem Spares.bind (hx : Spares hidden store x post) (hf : ∀ a store', store'.Hides hidden → post a →
    Spares hidden store' (f a) post') : Spares hidden store (x >>= f) post' :=
  Ends.bind hx fun a store' ⟨hhides, hsame, ha⟩ => (hf a store' hhides ha).mono
    fun _ _ ⟨hhides', hsame', hb⟩ => ⟨hhides', fun t ht => (hsame' t ht).trans (hsame t ht), hb⟩

/-- A step may look at the store. -/
theorem spares_get {f : Store → Eval β} (h : Spares hidden store (f store) post') :
    Spares hidden store (get >>= f) post' := h

/-- What is known. -/
theorem spares_known {o : Option α} (h : ∀ a, o = some a → Spares hidden store (f a) post') :
    Spares hidden store (known o >>= f) post' := by
  cases o with
  | none => exact .inr ⟨.error, rfl, trivial⟩
  | some a => exact h a rfl

end

/-- A new scope is not hidden. -/
theorem spares_newScope (h : store.Hides hidden) : Spares hidden store newScope fun t => ¬ hidden t := by
  have hnew : ¬ hidden store.next := fun hnext => (h.old _ hnext).false
  refine ends_of_eq (newScope_run store) ⟨⟨fun t ht => (h.old t ht).trans (Nat.lt_succ_self _),
    fun t b x v ht hb hx => ?_⟩, fun t ht => Function.update_of_ne (h.old t ht).ne .., hnew⟩
  rcases eq_or_ne t store.next with rfl | hne
  · cases (Function.update_self ..).symm.trans hb
    cases hx
  · exact h.avoids t b x v ht ((Function.update_of_ne hne ..).symm.trans hb) hx

/-- **Setting a name** in a scope that is not hidden. -/
theorem spares_setIn (h : store.Hides hidden) (ht : ¬ hidden t) (hv : v.Avoids hidden) :
    Spares hidden store (setIn t x v) fun _ => True := by
  cases hset : setIn t x v store with
  | error e => exact .inr ⟨e, hset, trivial⟩
  | ok r =>
    obtain ⟨b, hb, hstore⟩ := setIn_ok hset
    refine ends_of_eq hset ⟨⟨?_, fun t' b' x' v' ht' hb' hx' => ?_⟩, fun t' ht' => ?_, trivial⟩
    · rw [hstore]
      exact h.old
    · rw [hstore] at hb'
      rcases eq_or_ne t' t with rfl | hne
      · cases (Function.update_self ..).symm.trans hb'
        rcases eq_or_ne x' x with rfl | hne'
        · cases (Function.update_self ..).symm.trans hx'
          exact hv
        · exact h.avoids t' b x' v' ht' hb ((Function.update_of_ne hne' ..).symm.trans hx')
      · exact h.avoids t' b' x' v' ht' ((Function.update_of_ne hne ..).symm.trans hb') hx'
    · have hne : t' ≠ t := by
        rintro rfl
        exact ht ht'
      rw [hstore]
      exact Function.update_of_ne hne ..

/-- A binding in a scope that is not hidden. -/
theorem spares_define (h : store.Hides hidden) (henv : ∀ t ∈ env, ¬ hidden t) (hv : v.Avoids hidden) :
    Spares hidden store (define env x v) fun _ => True := by
  cases env with
  | nil => exact spares_throw
  | cons t env => exact spares_setIn h (henv t (.head _)) hv

/-- Arguments are bound in a scope that is not hidden. -/
theorem spares_bindFormals (ht : ¬ hidden t) : ∀ {formals : Formals} {store : Store} {args : Value},
    store.Hides hidden → args.Avoids hidden → Spares hidden store (bindFormals t formals args) fun _ => True
  | .fixed, _, _, h, _ => spares_pure h trivial
  | .rest _, _, _, h, hargs => spares_setIn h ht hargs
  | .cons _ _, _, .pair _ _, h, hargs =>
    (spares_setIn h ht hargs.1).bind fun _ _ h' _ => spares_bindFormals ht h' hargs.2
  | .cons _ _, _, .fixnum _, _, _ => spares_throw
  | .cons _ _, _, .bool _, _, _ => spares_throw
  | .cons _ _, _, .char _, _, _ => spares_throw
  | .cons _ _, _, .string _, _, _ => spares_throw
  | .cons _ _, _, .symbol _, _, _ => spares_throw
  | .cons _ _, _, .empty, _, _ => spares_throw
  | .cons _ _, _, .closure .., _, _ => spares_throw
  | .cons _ _, _, .other _, _, _ => spares_throw

/-! ## All code

By induction on the fuel.  A call runs a body in the scopes of the closure, and those are not hidden because the
closure was found outside of the hidden scopes. -/

/-- **Evaluations spare hidden scopes**, those with some fuel. -/
structure SparedBy (hidden : ℕ → Prop) (fuel : ℕ) : Prop where
  node : ∀ {env store} (node : Node), store.Hides hidden → (∀ t ∈ env, ¬ hidden t) →
    Spares hidden store (evalNode fuel env node) (Value.Avoids hidden)
  stream : ∀ {env store} (tree : Stream), store.Hides hidden → (∀ t ∈ env, ¬ hidden t) →
    Spares hidden store (evalStream fuel env tree) (Value.Avoids hidden)
  clauses : ∀ {env store} (clauses : Clauses), store.Hides hidden → (∀ t ∈ env, ¬ hidden t) →
    Spares hidden store (evalClauses fuel env clauses) (Value.Avoids hidden)
  bool : ∀ {env store} (andOr : Bool) (nodes : Stream), store.Hides hidden → (∀ t ∈ env, ¬ hidden t) →
    Spares hidden store (evalBool fuel env andOr nodes) (Value.Avoids hidden)
  operands : ∀ {env store args} (operands : Stream), store.Hides hidden → (∀ t ∈ env, ¬ hidden t) →
    args.Avoids hidden → Spares hidden store (evalOperands fuel env operands args) (Value.Avoids hidden)
  call : ∀ {store f args}, store.Hides hidden → f.Avoids hidden → args.Avoids hidden →
    Spares hidden store (evalCall fuel f args) (Value.Avoids hidden)

variable {fuel : ℕ}

/-- An operation has data for its value. -/
theorem spares_calculate (h : store.Hides hidden) (o : MathOp) {w : Value} :
    Spares hidden store (calculate o v w) (Value.Avoids hidden) := by
  unfold calculate
  split
  · next a b =>
    have hdata : ∀ v, o.apply a b = some v → v.Avoids hidden := by
      intro v hv
      cases o <;> simp only [MathOp.apply, Option.ite_none_left_eq_some, Option.some.injEq] at hv <;>
        first | (subst hv; trivial) | (obtain ⟨-, rfl⟩ := hv; trivial)
    cases hv : o.apply a b with
    | none => exact spares_throw
    | some v => exact spares_pure h (hdata v hv)
  · exact spares_throw

theorem SparedBy.succ_node (h : SparedBy hidden fuel) (node : Node) (hstore : store.Hides hidden)
    (henv : ∀ t ∈ env, ¬ hidden t) : Spares hidden store (evalNode (fuel + 1) env node) (Value.Avoids hidden) := by
  cases node with
  | literal l => exact spares_pure hstore (by cases l <;> trivial)
  | load name => exact spares_known fun found hfound => spares_pure hstore (hstore.find henv hfound).2
  | cond clauses => exact h.clauses clauses hstore henv
  | ifElse test yes no =>
    refine (h.stream test hstore henv).bind fun v store1 h1 _ => spares_known fun isFalse _ => ?_
    split
    · exact h.stream no h1 henv
    · exact h.stream yes h1 henv
  | and nodes => exact h.bool true nodes hstore henv
  | or nodes => exact h.bool false nodes hstore henv
  | math o stream1 stream2 =>
    refine (h.stream stream1 hstore henv).bind fun v store1 h1 _ => ?_
    exact (h.stream stream2 h1 henv).bind fun w store2 h2 _ => spares_calculate h2 o
  | lambda formals body => exact spares_pure hstore henv
  | call operator operands =>
    have hempty : Value.Avoids hidden .empty := trivial
    refine (h.operands operands hstore henv hempty).bind fun args store1 h1 hargs => ?_
    exact (h.stream operator h1 henv).bind fun f store2 h2 hf => h.call h2 hf hargs
  | bind value name =>
    refine (h.stream value hstore henv).bind fun v store1 h1 hv => ?_
    exact (spares_define h1 henv hv).bind fun _ store2 h2 _ => spares_pure h2 trivial
  | store value name =>
    refine (h.stream value hstore henv).bind fun v store1 h1 hv => ?_
    refine spares_get (spares_known fun found hfound => ?_)
    exact (spares_setIn h1 (h1.find henv hfound).1 hv).bind fun _ store2 h2 _ => spares_pure h2 trivial
  | letStar bindings body =>
    refine (spares_newScope hstore).bind fun t store1 h1 ht => ?_
    have henv1 : ∀ t' ∈ t :: env, ¬ hidden t' := List.forall_mem_cons.mpr ⟨ht, henv⟩
    exact (h.stream bindings h1 henv1).bind fun _ store2 h2 _ => h.stream body h2 henv1

theorem SparedBy.zero : SparedBy hidden 0 where
  node _ _ _ := by
    rw [evalNode]
    exact spares_throw
  stream _ _ _ := by
    rw [evalStream]
    exact spares_throw
  clauses _ _ _ := by
    rw [evalClauses]
    exact spares_throw
  bool _ _ _ _ := by
    rw [evalBool]
    exact spares_throw
  operands _ _ _ _ := by
    rw [evalOperands]
    exact spares_throw
  call _ _ _ := by
    rw [evalCall]
    exact spares_throw

theorem SparedBy.succ (h : SparedBy hidden fuel) : SparedBy hidden (fuel + 1) where
  node node hstore henv := h.succ_node node hstore henv
  stream tree hstore henv := by
    match tree with
    | .nil => exact spares_pure hstore trivial
    | .cons head .nil => exact h.node head hstore henv
    | .cons head (.cons head' next) =>
      exact (h.node head hstore henv).bind fun _ store1 h1 _ => h.stream (.cons head' next) h1 henv
  clauses clauses hstore henv := by
    cases clauses with
    | nil => exact spares_pure hstore trivial
    | cons test body next =>
      refine (h.stream test hstore henv).bind fun v store1 h1 _ => spares_known fun isFalse _ => ?_
      split
      · exact h.clauses next h1 henv
      · exact h.stream body h1 henv
  bool andOr nodes hstore henv := by
    match nodes with
    | .nil => exact spares_pure hstore trivial
    | .cons head .nil => exact h.node head hstore henv
    | .cons head (.cons head' next) =>
      refine (h.node head hstore henv).bind fun v store1 h1 hv => spares_known fun isFalse _ => ?_
      split
      · exact spares_pure h1 hv
      · exact h.bool andOr (.cons head' next) h1 henv
  operands operands hstore henv hargs := by
    cases operands with
    | nil => exact spares_pure hstore hargs
    | cons head next =>
      exact (h.node head hstore henv).bind fun v store1 h1 hv => h.operands next h1 henv ⟨hv, hargs⟩
  call {store f args} hstore hf hargs := by
    cases f with
    | closure formals body env =>
      refine (spares_newScope hstore).bind fun t store1 h1 ht => ?_
      refine (spares_bindFormals ht h1 hargs).bind fun _ store2 h2 _ => ?_
      exact h.stream body h2 (List.forall_mem_cons.mpr ⟨ht, hf⟩)
    | _ => exact spares_throw

/-- **All code**, with any fuel. -/
theorem sparedBy (hidden : ℕ → Prop) (fuel : ℕ) : SparedBy hidden fuel := by
  induction fuel with
  | zero => exact .zero
  | succ fuel ih => exact ih.succ

/-- **Hidden scopes stay hidden, and as they are.** -/
theorem Store.Hides.eval (h : store.Hides hidden) (henv : ∀ t ∈ env, ¬ hidden t) {tree : Stream}
    (heval : evalStream fuel env tree store = .ok (v, store')) :
    store'.Hides hidden ∧ (∀ t, hidden t → store'.scopes t = store.scopes t) ∧ v.Avoids hidden :=
  ((sparedBy hidden fuel).stream tree h henv).of_ok heval

end

/-! ## On the virtual machine

The machine has the scopes in its tables, so what the store keeps the tables keep. -/

/-- **Compiled code does not change what it cannot reach.**  When no scope that it runs in is hidden, nor any
that a closure outside of the hidden scopes has, and when its evaluation has a value, the machine leaves the code
with the bindings of the hidden scopes as they were, and with a value that does not reach them. -/
theorem hidden_bindings_stay (host : Host) {tree : Stream} {tail : Bool} {site : Site tree tail} {env : List ℕ}
    {store store' : Store} {vm : VmInternal} {m : Machine} (hbefore : site.Before env store vm m) {hidden : ℕ → Prop}
    (hhides : store.Hides hidden) (henv : ∀ t ∈ env, ¬ hidden t) {fuel : ℕ} {v : Value}
    (heval : evalStream fuel env tree store = .ok (v, store')) :
    store'.Hides hidden ∧ v.Avoids hidden ∧ ∃ vm' m' w, Relation.ReflTransGen (Step host) vm vm' ∧
      Shows vm' (site.exit m' w) ∧ Denotes m.codes v w ∧ Agrees store' m' ∧
      ∀ t bindings, hidden t → store.scopes t = some bindings → ∃ table, m'.tables t = some table ∧
        ∀ x, Option.Rel (Denotes m.codes) (bindings x) (table x) := by
  obtain ⟨hhides', hsame, havoids⟩ := hhides.eval henv heval
  obtain ⟨vm', m', w, hsteps, hshows, hsameM, hw, hagrees, -⟩ := hbefore.behind host heval
  refine ⟨hhides', havoids, vm', m', w, hsteps, hshows, hw, hagrees, fun t bindings ht hbindings => ?_⟩
  obtain ⟨table, htable, hrel⟩ := hagrees.scopes t bindings ((hsame t ht).trans hbindings)
  exact ⟨table, htable, hsameM.codes ▸ hrel⟩

/-- What is behind some code. -/
def Site.next {tree : Stream} (site : Site tree false) {tree' : Stream} {index stop : ℕ} {w : Val}
    (hsits : Sits site.p site.stop (emitStream tree' false index).1 stop) : Site tree' false where
  p := site.p
  index := index
  start := site.stop
  stop := stop
  stack := w :: site.stack
  exit m w' := m.at stop (w' :: w :: site.stack)
  sits := hsits
  leaves := .next

namespace Apart

def x : Text := .ofBytes [120]

/-- `((lambda (x) x) 5)`. -/
def first : Stream := .cons (.call (.cons (.lambda (.cons x .fixed) (.cons (.load x) .nil)) .nil)
  (.cons (.literal (.fixnum 5)) .nil)) .nil

/-- `(define x 7)`. -/
def second : Stream := .cons (.bind (.cons (.literal (.fixnum 7)) .nil) x) .nil

/-- One behind the other. -/
def both : List Tok := (emitStream first false 0).1 ++ (emitStream second false 2).1

/-- The scopes behind the first: that of the call is there, and nothing has it. -/
def afterFirst : Store where
  scopes := Function.update Store.begun.child.scopes 3 (some (Function.update (fun _ => none) x.bytes (some (.fixnum 5))))
  next := 4

/-- In that store, nothing that is bound outside of the scope 3 reaches it. -/
theorem hides_afterFirst : afterFirst.Hides (· = 3) where
  old := by
    rintro _ rfl
    exact Nat.lt_succ_self 3
  avoids t bindings y v ht hb hy := by
    have hbegun : Store.begun.scopes t = some bindings :=
      (Function.update_of_ne ht ..).symm.trans ((Function.update_of_ne ht ..).symm.trans hb)
    simp only [Store.begun, Option.ite_none_right_eq_some, Option.some.injEq] at hbegun
    obtain ⟨-, rfl⟩ := hbegun
    cases hy

end Apart

open Apart

/-- The first `x` is still 5 behind the definition of the second. -/
theorem hidden_bindings_stay_apart : ∃ bytes vm' m' w table, asmString both = some bytes ∧
    Relation.ReflTransGen (Step Host.bare) (startBytes bytes vmCreate) vm' ∧
    Shows vm' (Machine.at m' (codeSize both) w) ∧ m'.tables 3 = some table ∧ table x.bytes = some (.fixnum 5) := by
  have hsome : (asmString both).isSome = true := by decide +kernel
  have hsize : codeSize both < 2 ^ 63 := by decide +kernel
  have hnodup : (definedLabels both).Nodup := by decide +kernel
  obtain ⟨bytes, hbytes⟩ := Option.isSome_iff_exists.mp hsome
  obtain ⟨a, hfirst, hsecond⟩ := sits_append.mp (sits_of_nodup hbytes hsize hnodup)
  let site : Site first false :=
    { p := .of both
      index := 0
      start := 0
      stop := a
      stack := []
      exit m w := m.at a [w]
      sits := hfirst
      leaves := .next }
  have hexecuting := executing_begun hbytes hsize
  have hbefore : site.Before [2] .begun (startBytes bytes vmCreate) (begun bytes) :=
    ⟨ordered_begun bytes, shows_begun bytes, ⟨hexecuting, rfl, agrees_begun bytes⟩⟩
  obtain ⟨vm1, m1, w1, hsteps1, hshows1, hsame, -, hagrees, hordered, -⟩ := hbefore.behind Host.bare
    (show evalStream 5 [2] first .begun = .ok (.fixnum 5, afterFirst) from rfl)
  have hbefore' : (site.next hsecond).Before [2] afterFirst vm1 m1 :=
    ⟨hordered, hshows1, hbefore.stage.same hsame hagrees⟩
  obtain ⟨-, -, vm', m', w, hsteps, hshows, -, -, hstay⟩ := hidden_bindings_stay Host.bare hbefore' hides_afterFirst
    (by decide) (show evalStream 5 [2] second afterFirst = .ok (.empty, _) from rfl)
  obtain ⟨table, htable, hrel⟩ := hstay 3 (Function.update (fun _ => none) x.bytes (some (.fixnum 5))) rfl rfl
  have hx := hrel x.bytes
  rw [Function.update_self] at hx
  refine ⟨bytes, vm', m', _, table, hbytes, hsteps1.trans hsteps, hshows, htable, ?_⟩
  generalize table x.bytes = found at hx ⊢
  cases hx with
  | some hv =>
    cases hv
    rfl

end Insomniac.Compile

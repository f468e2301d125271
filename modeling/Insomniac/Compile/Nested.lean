import Insomniac.Compile.Alongside
import Insomniac.Compile.Closed
import Insomniac.Compile.Program

/-!
# Compile/Nested — `let*` and nested applications

    (let* ((x1 e1) … (xn en)) body)     one scope      {x1, …, xn, what body defines}
    ((lambda (x1) … body) e1)           n scopes       {x1} ◂── … ◂── {xn, what body defines}

`emit_let_star` enters one scope for all the bindings and the body.  So a lambda in an initialiser sees what
is bound later in that scope, and an initialiser defines names there.  Where neither happens, `let*` does
what the nested applications do.
-/

open Fuel Relate Insomniac.Asm Insomniac.Vm Insomniac.Abstract

namespace Insomniac.Compile

/-! ## The two forms

A binding is a name and a stream that is not empty.  `Separate` is the condition: no initialiser defines a name
in its own scope, and no lambda in one captures a name that is bound from it on, or that the body defines. -/

/-- `let_binding`: a name, and the nodes of its initialiser. -/
structure Binding where
  name : Text
  head : Node
  rest : Stream

/-- The stream of an initialiser. -/
def Binding.value (b : Binding) : Stream := .cons b.head b.rest

/-- `let_binding_end`. -/
def bindings : List Binding → Stream
  | [] => .nil
  | b :: bs => .cons (.bind b.value b.name) (bindings bs)

/-- `let_star`. -/
def letStar (bs : List Binding) (body : Stream) : Stream := .cons (.letStar (bindings bs) body) .nil

/-- A lambda that is applied to each initialiser. -/
def nested : List Binding → Stream → Stream
  | [], body => body
  | b :: bs, body => .cons (.call (.cons (.lambda (.cons b.name .fixed) (nested bs body)) .nil) b.value) .nil

/-- A name that is bound from an initialiser on. -/
def Later (bs : List Binding) (body : Stream) (i : ℕ) (x : Name) : Prop :=
  (∃ b ∈ bs.drop i, b.name.bytes = x) ∨ i < bs.length ∧ body.Defines x

/-- **No initialiser defines a name, or has a lambda that uses a name that is bound from there on.** -/
def Separate (bs : List Binding) (body : Stream) : Prop :=
  ∀ i b, bs[i]? = some b → (∀ x, ¬b.value.Defines x) ∧ ∀ x, b.value.Uses True x → ¬Later bs body i x

/-- What is bound later than a binding is bound later than those before it. -/
theorem later_of_le {bs : List Binding} {body : Stream} (i j : ℕ) (x : Name) (h : i ≤ j) :
    Later bs body j x → Later bs body i x := by
  rintro (⟨b, hb, hx⟩ | ⟨hlt, hx⟩)
  · exact .inl ⟨b, (List.drop_sublist_drop_left bs h).subset hb, hx⟩
  · exact .inr ⟨h.trans_lt hlt, hx⟩

/-! ## What they settle on

The two forms take different amounts of fuel for the same binding, so what is compared is what they settle on. -/

section

variable {env : List ℕ} {store store' : Store} {v : Value} {out : Except Stop (Value × Store)}

/-- A stream settles on one result. -/
theorem steady_stream (env : List ℕ) (tree : Stream) : Steady fun n => evalStream n env tree :=
  fun _ _ h => (More.of_le h).stream env tree

theorem steady_node (env : List ℕ) (node : Node) : Steady fun n => evalNode n env node :=
  fun _ _ h => (More.of_le h).node env node

theorem steady_operands (env : List ℕ) (operands : Stream) (args : Value) :
    Steady fun n => evalOperands n env operands args :=
  fun _ _ h => (More.of_le h).operands env operands args

theorem steady_call (f args : Value) : Steady fun n => evalCall n f args := fun _ _ h => (More.of_le h).call f args

/-- What is the same with any fuel settles on the same. -/
theorem settles_congr {α : Type} {x y : ℕ → Eval α} {s t : Store} {out : Except Stop (α × Store)}
    (h : ∀ n, x n s = y n t) : Settles x s out ↔ Settles y t out := by
  simp only [Settles, h]

/-- A stream without nodes. -/
theorem settles_nil : Settles (fun n => evalStream n env .nil) store (.ok (.empty, store)) :=
  (steady_stream env .nil).settles (n := 1) rfl

/-- A node, and what is behind it. -/
theorem settles_cons {head : Node} {next : Stream} {k : ℕ → Eval Value} (hk : Steady k) {r : Value × Store} :
    Settles (fun n => evalStream n env (.cons head next) >>= fun _ => k n) store (.ok r) ↔
      ∃ v store', Settles (fun n => evalNode n env head) store (.ok (v, store')) ∧
        Settles (fun n => evalStream n env next >>= fun _ => k n) store' (.ok r) := by
  constructor
  · intro h
    obtain ⟨w, t, hstream, hrest⟩ := settles_bind_ok (steady_stream env _) (fun _ => hk) h
    have hstream := settles_succ.mpr hstream
    cases next with
    | nil => exact ⟨w, t, hstream, settles_nil.bind hrest⟩
    | cons head' next =>
      obtain ⟨v, s, hhead, hnext⟩ :=
        settles_bind_ok (steady_node env head) (fun _ => steady_stream env (.cons head' next)) hstream
      exact ⟨v, s, hhead, hnext.bind hrest⟩
  · rintro ⟨v, s, hhead, h⟩
    obtain ⟨w, t, hnext, hrest⟩ := settles_bind_ok (steady_stream env _) (fun _ => hk) h
    cases next with
    | nil =>
      cases settles_nil.unique hnext
      have hstream : Settles (fun n => evalStream n env (.cons head .nil)) store (.ok (v, s)) :=
        settles_succ.mp hhead
      exact hstream.bind hrest
    | cons head' next =>
      have hstream : Settles (fun n => evalStream n env (.cons head (.cons head' next))) store (.ok (w, t)) :=
        settles_succ.mp (hhead.bind hnext)
      exact hstream.bind hrest

/-- A definition. -/
theorem settles_define {value : Stream} {name : Text} {w : Value} :
    Settles (fun n => evalNode n env (.bind value name)) store (.ok (w, store')) ↔ w = .empty ∧
      ∃ v s, Settles (fun n => evalStream n env value) store (.ok (v, s)) ∧
        define env name.bytes v s = .ok ((), store') := by
  constructor
  · intro h
    have h : Settles (fun n => evalStream n env value >>= fun v => define env name.bytes v >>= fun _ =>
        pure Value.empty) store (.ok (w, store')) := settles_succ.mpr h
    obtain ⟨v, s, hvalue, ⟨n, hn⟩⟩ := settles_bind_ok (steady_stream env value)
      (fun v => steady_const (define env name.bytes v >>= fun _ => pure Value.empty)) h
    obtain ⟨_, t, hdefine, hpure⟩ := Run.bind_ok (hn n le_rfl)
    cases hpure
    exact ⟨rfl, v, s, hvalue, hdefine⟩
  · rintro ⟨rfl, v, s, hvalue, hdefine⟩
    have hrest : Settles (fun _ => define env name.bytes v >>= fun _ => pure Value.empty) s
        (.ok (.empty, store')) := settles_of_eq fun _ => Run.run_bind hdefine
    exact settles_succ.mp (hvalue.bind hrest)

/-- One binding, and what is behind it. -/
theorem settles_bindings {b : Binding} {bs : List Binding} {k : ℕ → Eval Value} (hk : Steady k) {r : Value × Store} :
    Settles (fun n => evalStream n env (bindings (b :: bs)) >>= fun _ => k n) store (.ok r) ↔
      ∃ v s t, Settles (fun n => evalStream n env b.value) store (.ok (v, s)) ∧
        define env b.name.bytes v s = .ok ((), t) ∧
          Settles (fun n => evalStream n env (bindings bs) >>= fun _ => k n) t (.ok r) := by
  refine (settles_cons hk).trans ?_
  constructor
  · rintro ⟨w, t, hbind, hrest⟩
    obtain ⟨-, v, s, hvalue, hdefine⟩ := settles_define.mp hbind
    exact ⟨v, s, t, hvalue, hdefine, hrest⟩
  · rintro ⟨v, s, t, hvalue, hdefine, hrest⟩
    exact ⟨.empty, t, settles_define.mpr ⟨rfl, v, s, hvalue, hdefine⟩, hrest⟩

/-- No operands are the arguments there were. -/
theorem settles_noOperands {args : Value} :
    Settles (fun n => evalOperands n env .nil args) store (.ok (args, store)) :=
  (steady_operands env .nil args).settles (n := 1) rfl

/-- **The last node of a stream is the first operand.** -/
theorem stream_of_operands : ∀ {rest : Stream} {head : Node} {args list : Value} {store : Store},
    Settles (fun n => evalOperands n env (.cons head rest) args) store (.ok (list, store')) →
      ∃ v others, list = .pair v others ∧
        Settles (fun n => evalStream n env (.cons head rest)) store (.ok (v, store'))
  | .nil, head, args, list, store, h => by
    obtain ⟨v, s, hhead, hrest⟩ := settles_bind_ok (steady_node env head)
      (fun v => steady_operands env .nil (.pair v args)) (settles_succ.mpr h)
    cases settles_noOperands.unique hrest
    exact ⟨v, args, rfl, settles_succ.mp hhead⟩
  | .cons head' rest, head, args, list, store, h => by
    obtain ⟨v, s, hhead, hrest⟩ := settles_bind_ok (steady_node env head)
      (fun v => steady_operands env (.cons head' rest) (.pair v args)) (settles_succ.mpr h)
    obtain ⟨w, others, rfl, hstream⟩ := stream_of_operands hrest
    have hnext : Settles (fun n => evalNode n env head >>= fun _ => evalStream n env (.cons head' rest)) store
        (.ok (w, store')) := hhead.bind hstream
    exact ⟨w, others, rfl, settles_succ.mp hnext⟩

@[inherit_doc stream_of_operands] theorem operands_of_stream : ∀ {rest : Stream} {head : Node} (args : Value)
    {store : Store}, Settles (fun n => evalStream n env (.cons head rest)) store (.ok (v, store')) →
      ∃ others, Settles (fun n => evalOperands n env (.cons head rest) args) store (.ok (.pair v others, store'))
  | .nil, head, args, store, h => by
    have hhead : Settles (fun n => evalNode n env head) store (.ok (v, store')) := settles_succ.mpr h
    have hnext : Settles (fun n => evalNode n env head >>= fun v => evalOperands n env .nil (.pair v args)) store
        (.ok (.pair v args, store')) := hhead.bind settles_noOperands
    exact ⟨args, settles_succ.mp hnext⟩
  | .cons head' rest, head, args, store, h => by
    obtain ⟨w, s, hhead, hstream⟩ := settles_bind_ok (steady_node env head)
      (fun _ => steady_stream env (.cons head' rest)) (settles_succ.mpr h)
    obtain ⟨others, hrest⟩ := operands_of_stream (.pair w args) hstream
    have hnext : Settles (fun n => evalNode n env head >>= fun v =>
        evalOperands n env (.cons head' rest) (.pair v args)) store (.ok (.pair v others, store')) :=
      hhead.bind hrest
    exact ⟨others, settles_succ.mp hnext⟩

/-- A call of a lambda with one formal. -/
theorem settles_lambda {name : Text} {body : Stream} {others : Value} :
    Settles (fun n => evalCall n (.closure (.cons name .fixed) body env) (.pair v others)) store out ↔
      Settles (fun n => evalStream n (store.next :: env) body)
        (store.child.put store.next (fun _ => none) name.bytes v) out := by
  refine settles_succ.symm.trans (settles_congr fun n => ?_)
  have hnew : store.child.scopes store.next = some fun _ => none := child_next
  have hset := setIn_run (x := name.bytes) (v := v) hnew
  exact (Run.run_bind (newScope_run store)).trans (Run.run_bind ((Run.run_bind hset).trans rfl))

/-- No binding. -/
theorem settles_noBindings {k : ℕ → Eval Value} (hk : Steady k) {r : Value × Store} :
    Settles (fun n => evalStream n env (bindings []) >>= fun _ => k n) store (.ok r) ↔ Settles k store (.ok r) := by
  constructor
  · intro h
    obtain ⟨v, s, hnil, hrest⟩ := settles_bind_ok (steady_stream env _) (fun _ => hk) h
    cases settles_nil.unique hnil
    exact hrest
  · exact fun h => settles_nil.bind h

/-- A lambda, as an operator. -/
theorem settles_operator {formals : Formals} {body : Stream} :
    Settles (fun n => evalStream n env (.cons (.lambda formals body) .nil)) store
      (.ok (.closure formals body env, store)) := (steady_stream env _).settles (n := 2) rfl

/-- An operator and its call settle on one result. -/
theorem steady_apply (env : List ℕ) (operator : Stream) (args : Value) :
    Steady fun n => evalStream n env operator >>= fun f => evalCall n f args :=
  fun _ _ h => ((More.of_le h).stream env operator).bind fun f => (More.of_le h).call f args

/-- **One application, and what is in it.** -/
theorem settles_nested {b : Binding} {bs : List Binding} {body : Stream} {r : Value × Store} :
    Settles (fun n => evalStream n env (nested (b :: bs) body)) store (.ok r) ↔
      ∃ v s, Settles (fun n => evalStream n env b.value) store (.ok (v, s)) ∧
        Settles (fun n => evalStream n (s.next :: env) (nested bs body))
          (s.child.put s.next (fun _ => none) b.name.bytes v) (.ok r) := by
  constructor
  · intro h
    have hnode : Settles (fun n => evalNode n env (.call (.cons (.lambda (.cons b.name .fixed) (nested bs body)) .nil)
        b.value)) store (.ok r) := settles_succ.mpr h
    obtain ⟨args, s, hoperands, happly⟩ := settles_bind_ok (steady_operands env b.value .empty)
      (fun args => steady_apply env _ args) (settles_succ.mpr hnode)
    obtain ⟨f, t, hlambda, hcall⟩ := settles_bind_ok (steady_stream env _) (fun f => steady_call f args) happly
    cases settles_operator.unique hlambda
    obtain ⟨v, others, rfl, hvalue⟩ := stream_of_operands hoperands
    exact ⟨v, s, hvalue, settles_lambda.mp hcall⟩
  · rintro ⟨v, s, hvalue, hbody⟩
    obtain ⟨others, hoperands⟩ := operands_of_stream .empty hvalue
    have happly : Settles (fun n => evalStream n env (.cons (.lambda (.cons b.name .fixed) (nested bs body)) .nil) >>=
        fun f => evalCall n f (.pair v others)) s (.ok r) :=
      settles_operator.bind (settles_lambda.mpr hbody)
    have hnode : Settles (fun n => evalNode n env (.call (.cons (.lambda (.cons b.name .fixed) (nested bs body)) .nil)
        b.value)) store (.ok r) := settles_succ.mp (hoperands.bind happly)
    exact settles_succ.mp hnode

/-- **A `let*`, and what is in it.** -/
theorem settles_letStar {bs : List Binding} {body : Stream} :
    Settles (fun n => evalStream n env (letStar bs body)) store out ↔
      Settles (fun n => evalStream n (store.next :: env) (bindings bs) >>= fun _ =>
        evalStream n (store.next :: env) body) store.child out :=
  (settles_succ.symm.trans settles_succ.symm).trans (settles_congr fun _ => rfl)

end

/-! ## One scope against one more

Binding by binding, the merged scope gets a name and the chain gets a scope.  The world grows by that scope, and
the initialiser is evaluated alongside in the world before. -/

section

variable {later : ℕ → Name → Prop} {W : World} {store1 store2 : Store} {x : Name} {v1 v2 : Value}
  {b1 : Name → Option Value}

/-- A world with one more scope in the chain. -/
def World.staged (W : World) (u : ℕ) : World := { W with chain := u :: W.chain }

/-- A world grows by a scope that is about to be bound. -/
theorem grown_staged (W : World) (u : ℕ) (store : Store) : Grown W store (W.staged u) store :=
  ⟨fun _ _ h => h, rfl, List.suffix_cons u W.chain, fun _ _ _ h => h⟩

/-- A new scope at the end of the chain. -/
theorem Matches.staged (hm : Matches later W store1 store2) :
    Matches later (W.staged store2.next) store1 store2.child where
  unique := hm.unique
  pair_lt t u h := (hm.pair_lt t u h).imp_right Nat.lt_succ_of_lt
  apart t u h := by
    refine ⟨(hm.apart t u h).1, fun hu => ?_⟩
    rcases List.mem_cons.mp hu with rfl | hu
    · exact lt_irrefl _ (hm.pair_lt t _ h).2
    · exact (hm.apart t u h).2 hu
  merged_lt := hm.merged_lt
  chain_lt u hu := by
    rcases List.mem_cons.mp hu with rfl | hu
    · exact Nat.lt_succ_self _
    · exact Nat.lt_succ_of_lt (hm.chain_lt u hu)
  nodup := List.nodup_cons.mpr ⟨fun h => lt_irrefl _ (hm.chain_lt _ h), hm.nodup⟩
  scopes t u h := by
    rw [child_of_lt (hm.pair_lt t u h).2]
    exact Alike.scopesRel (grown_staged W _ store1) (hm.scopes t u h)
  known u hu := by
    rcases List.mem_cons.mp hu with rfl | hu
    · exact ⟨_, child_next⟩
    · rw [child_of_lt (hm.chain_lt u hu)]
      exact hm.known u hu
  merged := by
    obtain ⟨b, hb, hnames⟩ := hm.merged
    refine ⟨b, hb, fun y => ?_⟩
    have hfind : store2.child.find y (store2.next :: W.chain) = store2.find y W.chain :=
      (find_cons child_next).trans (find_congr fun w hw => by rw [child_of_lt (hm.chain_lt w hw)])
    change Option.Rel _ _ ((store2.child.find y (store2.next :: W.chain)).map Prod.snd)
    rw [hfind]
    exact Alike.optionRel (grown_staged W _ store1) (hnames y)
  names front u c y heq hbound := by
    cases front with
    | nil =>
      cases heq
      obtain ⟨b, v, hb, hv⟩ := hbound
      cases child_next.symm.trans hb
      cases hv
    | cons u' front =>
      have hchain : W.chain = front ++ u :: c := (List.cons.inj heq).2
      have hu : u ∈ W.chain := hchain ▸ by simp
      exact hm.names front u c y hchain ((bound_child (hm.chain_lt u hu)).mp hbound)

/-- **A binding**: a name of the merged scope, and a scope of its own. -/
theorem Matches.binding (hm : Matches later W store1 store2) (hx : later W.chain.length x)
    (h1 : store1.scopes W.merged = some b1) (hv : Alike later W store1 v1 v2) :
    Matches later (W.staged store2.next) (store1.put W.merged b1 x v1)
      (store2.child.put store2.next (fun _ => none) x v2) :=
  hm.staged.put_merged (List.nil_append _).symm (by simp) hx h1 child_next (hv.grown (grown_staged W _ store1))

/-- Worlds of which the chain grows. -/
def growing (later : ℕ → Name → Prop) : Worlds World Store Store where
  holds := Matches later
  grows := Grown
  refl := Grown.refl
  trans h h' := h.trans h'

/-- What is at a place in the list of bindings. -/
theorem getElem?_of_drop {bs full : List Binding} {b : Binding} {i : ℕ} (h : full.drop i = b :: bs) :
    full[i]? = some b ∧ full.drop (i + 1) = bs := by
  constructor
  · rw [← List.head?_drop, h]
    rfl
  · rw [← List.tail_drop, h]
    rfl

/-- **The two forms settle together**, from any binding on. -/
theorem forms_settle {full : List Binding} {body : Stream} (hne : full ≠ []) (hsep : Separate full body)
    {env : List ℕ} : ∀ {bs : List Binding} {W : World} {store1 store2 : Store}, full.drop W.chain.length = bs →
      W.chain.length ≤ full.length → Matches (Later full body) W store1 store2 → List.Forall₂ W.pair env env →
        Bisettles (growing (Later full body)) W store1 store2
          (fun n => evalStream n (W.merged :: env) (bindings bs) >>= fun _ => evalStream n (W.merged :: env) body)
          (fun n => evalStream n (W.chain ++ env) (nested bs body)) (Values (Later full body))
  | [], W, store1, store2, hdrop, hle, hm, hpairs => by
    have hlength : W.chain.length = full.length := le_antisymm hle (List.drop_eq_nil_iff.mp hdrop)
    have hlast y : ¬Later full body W.chain.length y := by
      rw [Later, hdrop, hlength]
      rintro (⟨_, ⟨⟩, _⟩ | ⟨hlt, _⟩)
      exact lt_irrefl _ hlt
    have hinnermost x (hx : body.Defines x) : W.Innermost (Later full body) W.chain x := by
      refine ⟨rfl, hlast, ?_⟩
      cases hchain : W.chain with
      | nil => exact absurd (List.length_eq_zero_iff.mp (hlength.symm.trans (congrArg List.length hchain))) hne
      | cons u c => exact ⟨u, c, rfl, .inr ⟨by simp [← hlength, hchain], hx⟩⟩
    have he : Envs (Later full body) W store1 body.needs (W.merged :: env) (W.chain ++ env) :=
      .merged hpairs List.suffix_rfl (.inl rfl) (fun x _ => hlast x) hinnermost
    have hbody := bisettles_of_relates (steady_stream _ body) (steady_stream _ body)
      fun n => (alongside later_of_le n).stream body hm he
    rcases hbody with ⟨W', s1, s2, v1, v2, h1, h2, hgrows, hm', hv, -⟩ | ⟨h1, h2⟩
    · exact .inl ⟨W', s1, s2, v1, v2, (settles_noBindings (steady_stream _ body)).mpr h1, h2, hgrows.2, hm', hv⟩
    · exact .inr ⟨fun r h => h1 r ((settles_noBindings (steady_stream _ body)).mp h), h2⟩
  | b :: bs, W, store1, store2, hdrop, hle, hm, hpairs => by
    obtain ⟨hb, hbs⟩ := getElem?_of_drop hdrop
    obtain ⟨hdefines, hcaptures⟩ := hsep _ b hb
    have he : Envs (Later full body) W store1 b.value.needs (W.merged :: env) (W.chain ++ env) :=
      .merged hpairs List.suffix_rfl (.inl rfl) hcaptures fun x hx => absurd hx (hdefines x)
    have hvalue := bisettles_of_relates (steady_stream _ b.value) (steady_stream _ b.value)
      fun n => (alongside later_of_le n).stream b.value hm he
    rcases hvalue with ⟨W', s1, s2, v1, v2, h1, h2, ⟨hchain, hgrown⟩, hm', hv, -⟩ | ⟨h1, h2⟩
    · -- the values are alike; the name is bound to them, and the rest settles together
      rw [← hgrown.merged] at h1 ⊢
      rw [← hchain] at h2 hb hbs ⊢
      obtain ⟨b1, hb1, -⟩ := hm'.merged
      have hmem : b ∈ full.drop W'.chain.length := by
        rw [hchain, hdrop]
        exact .head _
      have hbinding := hm'.binding (.inl ⟨b, hmem, rfl⟩) hb1 hv
      have hgrown' : Grown W store1 (W'.staged s2.next) (s1.put W'.merged b1 b.name.bytes v1) :=
        hgrown.trans ((grown_staged W' s2.next s1).trans (.put hb1))
      have hlt : W'.chain.length < full.length := (List.getElem?_eq_some_iff.mp hb).1
      have hdefine : define (W'.merged :: env) b.name.bytes v1 s1 = .ok ((), s1.put W'.merged b1 b.name.bytes v1) :=
        setIn_run hb1
      have hdrop' : full.drop (W'.staged s2.next).chain.length = bs := hbs
      rcases forms_settle hne hsep hdrop' hlt hbinding (hgrown'.forall₂ hpairs) with
        ⟨W'', t1, t2, r1, r2, hl, hr, hgrown'', hm'', hv''⟩ | ⟨hl, hr⟩
      · exact .inl ⟨W'', t1, t2, r1, r2, (settles_bindings (steady_stream _ body)).mpr ⟨v1, s1, _, h1, hdefine, hl⟩,
          settles_nested.mpr ⟨v2, s2, h2, hr⟩, hgrown'.trans hgrown'', hm'', hv''⟩
      · refine .inr ⟨fun r h => ?_, fun r h => ?_⟩
        · obtain ⟨v, s, t, hvalue, hdefine', hrest⟩ := (settles_bindings (steady_stream _ body)).mp h
          cases h1.unique hvalue
          cases hdefine.symm.trans hdefine'
          exact hl r hrest
        · obtain ⟨v, s, hvalue, hrest⟩ := settles_nested.mp h
          cases h2.unique hvalue
          exact hr r hrest
    · refine .inr ⟨fun r h => ?_, fun r h => ?_⟩
      · obtain ⟨v, s, -, h, -⟩ := (settles_bindings (steady_stream _ body)).mp h
        exact h1 _ h
      · obtain ⟨v, s, h, -⟩ := settles_nested.mp h
        exact h2 _ h

end

/-! ## The same outcome

The values, the scopes outside and all later code are the same, as the worlds relate them. -/

section

variable {later : ℕ → Name → Prop} {n : ℕ} {store : Store}

/-- The world in which a `let*` begins: its scope is the next one, and all others are the same. -/
def World.start (n : ℕ) : World := { pair := fun t u => t = u ∧ t < n, merged := n, chain := [] }

/-- At the beginning every scope is paired with itself. -/
theorem start_pairs {n : ℕ} : ∀ {env : List ℕ}, (∀ t ∈ env, t < n) → List.Forall₂ (World.start n).pair env env
  | [], _ => .nil
  | t :: _, h => .cons ⟨rfl, h t (.head _)⟩ (start_pairs fun t' ht' => h t' (.tail _ ht'))

/-- What was there before is the same on both sides. -/
theorem Value.Within.alike : ∀ {v : Value}, v.Within n → Alike later (.start n) store v v
  | .pair _ _, h => .pair h.1.alike h.2.alike
  | .closure .., h => .closure (.plain (start_pairs h))
  | .fixnum i, _ => .fixnum i
  | .bool b, _ => .bool b
  | .char c, _ => .char c
  | .string str, _ => .string str
  | .symbol name, _ => .symbol name
  | .empty, _ => .empty
  | .other v, _ => .other v

/-- The stores of the two forms match at the beginning. -/
theorem Store.Closed.start (h : store.Closed) : Matches later (.start store.next) store.child store where
  unique t u t' u' h h' := by
    obtain ⟨rfl, -⟩ := h
    obtain ⟨rfl, -⟩ := h'
    rfl
  pair_lt t u h := ⟨Nat.lt_succ_of_lt h.2, h.1 ▸ h.2⟩
  apart t u h := ⟨h.2.ne, List.not_mem_nil⟩
  merged_lt := Nat.lt_succ_self _
  chain_lt u hu := by cases hu
  nodup := List.nodup_nil
  scopes t u ht := by
    obtain ⟨rfl, hlt⟩ := ht
    rw [child_of_lt hlt]
    cases hb : store.scopes t with
    | none => exact .none
    | some b =>
      refine .some fun x => ?_
      cases hx : b x with
      | none => exact .none
      | some v => exact .some (h t b x v hb hx).alike
  known u hu := by cases hu
  merged := ⟨_, child_next, fun x => .none⟩
  names front u c x heq := by cases front <;> cases heq

/-- **Two outcomes that cannot be told apart**, when the scopes below a number are the outer ones. -/
structure SameOutcome (later : ℕ → Name → Prop) (W : World) (n : ℕ) (store1 store2 : Store) (v1 v2 : Value) :
    Prop where
  outer : ∀ t < n, W.pair t t
  stores : Matches later W store1 store2
  values : Alike later W store1 v1 v2

/-- … by whatever is evaluated in outer scopes. -/
theorem SameOutcome.after {bs : List Binding} {body : Stream} {W : World} {store1 store2 : Store} {v1 v2 : Value}
    (h : SameOutcome (Later bs body) W n store1 store2 v1 v2) {env : List ℕ} (henv : ∀ t ∈ env, t < n)
    (tree : Stream) : Bisettles (worlds (Later bs body)) W store1 store2 (fun n => evalStream n env tree)
      (fun n => evalStream n env tree) (Values (Later bs body)) := by
  have hpairs : List.Forall₂ W.pair env env := (start_pairs henv).imp fun t u ⟨heq, hlt⟩ => heq ▸ h.outer t hlt
  have hboth := bisettles_of_relates (steady_stream env tree) (steady_stream env tree)
    fun n => (alongside later_of_le n).stream tree h.stores (.plain hpairs)
  exact hboth.imp_left fun ⟨W', s1, s2, w1, w2, h1, h2, hg, hm, hv⟩ => ⟨W', s1, s2, w1, w2, h1, h2, hg, hm, hv.1⟩

/-- **`let*` and the nested applications**, as they are evaluated. -/
theorem letStar_settles {bs : List Binding} {body : Stream} (hne : bs ≠ []) (hsep : Separate bs body)
    (hclosed : store.Closed) {env : List ℕ} (henv : ∀ t ∈ env, t < store.next) :
    (∃ W s1 s2 v1 v2, Settles (fun n => evalStream n env (letStar bs body)) store (.ok (v1, s1)) ∧
      Settles (fun n => evalStream n env (nested bs body)) store (.ok (v2, s2)) ∧
        SameOutcome (Later bs body) W store.next s1 s2 v1 v2) ∨
    (∀ r, ¬Settles (fun n => evalStream n env (letStar bs body)) store (.ok r)) ∧
      ∀ r, ¬Settles (fun n => evalStream n env (nested bs body)) store (.ok r) := by
  have hdrop : bs.drop (World.start store.next).chain.length = bs := rfl
  rcases forms_settle hne hsep hdrop (Nat.zero_le _) hclosed.start (start_pairs henv) with
    ⟨W, s1, s2, v1, v2, h1, h2, hgrown, hm, hv⟩ | ⟨h1, h2⟩
  · exact .inl ⟨W, s1, s2, v1, v2, settles_letStar.mpr h1, h2, fun t ht => hgrown.pair t t ⟨rfl, ht⟩, hm, hv⟩
  · exact .inr ⟨fun r h => h1 r (settles_letStar.mp h), h2⟩

end

/-- **`let*` does what the nested applications do**, in tail position and elsewhere: where no initialiser
defines a name, or has a lambda that uses a name that is bound from there on.  The store of a new machine is closed
(`closed_begun`), and so are the stores that both forms leave, for the code behind them. -/
theorem let_star_as_nested (host : Host) {bs : List Binding} {body : Stream} (hne : bs ≠ []) (hsep : Separate bs body)
    {tail : Bool} (site1 : Site (letStar bs body) tail) (site2 : Site (nested bs body) tail) {env : List ℕ}
    {store : Store} (hclosed : store.Closed) (henv : ∀ t ∈ env, t < store.next) {vm1 vm2 : VmInternal}
    {m1 m2 : Machine} (h1 : site1.Before env store vm1 m1) (h2 : site2.Before env store vm2 m2) :
    (∃ W s1 s2 v1 v2, Settles (fun n => evalStream n env (letStar bs body)) store (.ok (v1, s1)) ∧
      site1.Behind host vm1 m1 v1 s1 ∧
      Settles (fun n => evalStream n env (nested bs body)) store (.ok (v2, s2)) ∧
      site2.Behind host vm2 m2 v2 s2 ∧ SameOutcome (Later bs body) W store.next s1 s2 v1 v2 ∧
      (s1.Closed ∧ ∀ t ∈ env, t < s1.next) ∧ (s2.Closed ∧ ∀ t ∈ env, t < s2.next) ∧
      ∀ tree, Bisettles (worlds (Later bs body)) W s1 s2 (fun n => evalStream n env tree)
        (fun n => evalStream n env tree) (Values (Later bs body))) ∨
    (∀ r, ¬Settles (fun n => evalStream n env (letStar bs body)) store (.ok r)) ∧
      ∀ r, ¬Settles (fun n => evalStream n env (nested bs body)) store (.ok r) := by
  refine (letStar_settles hne hsep hclosed henv).imp_left ?_
  rintro ⟨W, s1, s2, v1, v2, hs1, hs2, hsame⟩
  obtain ⟨n1, hn1⟩ := hs1
  obtain ⟨n2, hn2⟩ := hs2
  obtain ⟨hclosed1, hle1, -⟩ := hclosed.eval henv (hn1 n1 le_rfl)
  obtain ⟨hclosed2, hle2, -⟩ := hclosed.eval henv (hn2 n2 le_rfl)
  exact ⟨W, s1, s2, v1, v2, ⟨n1, hn1⟩, h1.behind host (hn1 n1 le_rfl), ⟨n2, hn2⟩, h2.behind host (hn2 n2 le_rfl),
    hsame, ⟨hclosed1, fun t ht => (henv t ht).trans_le hle1⟩, ⟨hclosed2, fun t ht => (henv t ht).trans_le hle2⟩,
    hsame.after henv⟩

/-! ## Programs

Both forms of two examples, as programs of their own: one where the condition holds, and one where it does not. -/

namespace Forms

/-- A stream of one node. -/
def one (node : Node) : Stream := .cons node .nil

def number (i : Int64) : Node := .literal (.fixnum i)

def f : Text := .ofBytes [102]

def x : Text := .ofBytes [120]

def y : Text := .ofBytes [121]

def z : Text := .ofBytes [122]

/-- `((x 1) (y (+ x 1)))`. -/
def separate : List Binding :=
  [⟨x, number 1, .nil⟩, ⟨y, .math .add (one (.load x)) (one (number 1)), .nil⟩]

/-- `(define z y) (+ z x)`. -/
def sum : Stream := .cons (.bind (one (.load y)) z) (one (.math .add (one (.load z)) (one (.load x))))

/-- `((x 1) (f (lambda () x)) (x 2))`. -/
def captured : List Binding :=
  [⟨x, number 1, .nil⟩, ⟨f, .lambda .fixed (one (.load x)), .nil⟩, ⟨x, number 2, .nil⟩]

/-- `(f)`. -/
def call : Stream := one (.call (one (.load f)) .nil)

/-- The condition holds of this example. -/
theorem separate_sum : Separate separate sum := by
  intro i b hb
  rcases i with _ | _ | i
  · cases hb
    constructor <;> intro x h <;>
      simp [Binding.value, number, Stream.Defines, Node.Defines, Stream.Uses, Node.Uses] at h
  · cases hb
    constructor <;> intro x h <;>
      simp [Binding.value, one, number, Stream.Defines, Node.Defines, Stream.Uses, Node.Uses] at h
  · cases hb

end Forms

open Forms

/-- A program that is run on a new machine, and ends with a number. -/
def EndsWith (tree : Stream) (i : Int64) : Prop :=
  ∃ bytes, asmString (emitStream tree false 0).1 = some bytes ∧
    ∃ (vm' : VmInternal) (m' : Machine), Relation.ReflTransGen (Step Host.bare) (startBytes bytes vmCreate) vm' ∧
      Shows vm' (m'.at (codeSize (emitStream tree false 0).1) [.fixnum i])

/-- A machine behind the code of a program has the value of the program on its stack. -/
theorem endsWith_of_behind {tree : Stream} {bytes : List UInt8}
    {hbytes : asmString (emitStream tree false 0).1 = some bytes}
    {hsize : codeSize (emitStream tree false 0).1 < 2 ^ 63} {i : Int64} {store : Store}
    (h : (Site.alone hbytes hsize).Behind Host.bare (startBytes bytes vmCreate) (begun bytes) (.fixnum i) store) :
    EndsWith tree i := by
  obtain ⟨vm', m', w, hsteps, hshows, -, hw, -⟩ := h
  cases hw
  exact ⟨bytes, hbytes, vm', m', hsteps, hshows⟩

/-- A program ends with its value. -/
theorem endsWith_of_eval {tree : Stream} (hsome : (asmString (emitStream tree false 0).1).isSome = true)
    (hsize : codeSize (emitStream tree false 0).1 < 2 ^ 63) {fuel : ℕ} {i : Int64} {store : Store}
    (heval : evalStream fuel [2] tree .begun = .ok (.fixnum i, store)) : EndsWith tree i := by
  obtain ⟨bytes, hbytes⟩ := Option.isSome_iff_exists.mp hsome
  exact endsWith_of_behind ((Site.before_alone hbytes hsize).behind Host.bare heval)

/-- A program begins with a closed store. -/
theorem closed_begun : Store.begun.Closed := by
  intro t b x v hb hx
  simp only [Store.begun, Option.ite_none_right_eq_some] at hb
  obtain ⟨-, ⟨⟩⟩ := hb
  cases hx

/-- Both forms end with 3. -/
theorem let_star_as_nested_sum : EndsWith (letStar separate sum) 3 ∧ EndsWith (nested separate sum) 3 := by
  have hsome1 : (asmString (emitStream (letStar separate sum) false 0).1).isSome = true := by decide +kernel
  have hsome2 : (asmString (emitStream (nested separate sum) false 0).1).isSome = true := by decide +kernel
  have hsize1 : codeSize (emitStream (letStar separate sum) false 0).1 < 2 ^ 63 := by decide +kernel
  have hsize2 : codeSize (emitStream (nested separate sum) false 0).1 < 2 ^ 63 := by decide +kernel
  obtain ⟨bytes1, hbytes1⟩ := Option.isSome_iff_exists.mp hsome1
  obtain ⟨bytes2, hbytes2⟩ := Option.isSome_iff_exists.mp hsome2
  obtain ⟨s, heval⟩ : ∃ s, evalStream 20 [2] (letStar separate sum) .begun = .ok (.fixnum 3, s) := ⟨_, rfl⟩
  have hsettles := (steady_stream [2] (letStar separate sum)).settles heval
  rcases let_star_as_nested Host.bare (by simp [separate]) separate_sum (Site.alone hbytes1 hsize1)
    (Site.alone hbytes2 hsize2) closed_begun (by simp [Store.begun]) (Site.before_alone hbytes1 hsize1)
    (Site.before_alone hbytes2 hsize2) with ⟨W, s1, s2, v1, v2, hs1, hb1, -, hb2, hsame, -, -, -⟩ | ⟨hnone, -⟩
  · cases hs1.unique hsettles
    cases hsame.values
    exact ⟨endsWith_of_behind hb1, endsWith_of_behind hb2⟩
  · exact absurd hsettles (hnone _)

/-- With a lambda that uses a name that is bound again, `let*` ends with 2, and the nested applications
with 1. -/
theorem let_star_captured : EndsWith (letStar captured call) 2 ∧ EndsWith (nested captured call) 1 := by
  obtain ⟨s1, heval1⟩ : ∃ s, evalStream 20 [2] (letStar captured call) .begun = .ok (.fixnum 2, s) := ⟨_, rfl⟩
  obtain ⟨s2, heval2⟩ : ∃ s, evalStream 20 [2] (nested captured call) .begun = .ok (.fixnum 1, s) := ⟨_, rfl⟩
  exact ⟨endsWith_of_eval (by decide +kernel) (by decide +kernel) heval1,
    endsWith_of_eval (by decide +kernel) (by decide +kernel) heval2⟩

end Insomniac.Compile

import Insomniac.Abstract.Shows

/-!
# Abstract/Refine — the virtual machine does what the abstract one does

    m  ────step────▸  m'
    │                  │
    vm ──evalStep──▸  vm'

One lemma for each part that instructions are made of (`Stands.pop`, `Stands.push`, …), one for each
instruction, and `Stands.step` for a round of the loop.
-/

open Bytes Insomniac.Asm Insomniac.Vm Run

namespace Insomniac.Abstract

/-- **Where a run stands**: in a state in order, which shows `m`, and with what `base` had kept. -/
structure Stands (base vm : VmInternal) (m : Machine) : Prop where
  ordered : Ordered vm
  shows : Shows vm m
  kept : Kept base vm

/-- The program goes on to a state that shows `m'`. -/
def Goes (base : VmInternal) (x : VmM Unit) (vm : VmInternal) (m' : Machine) : Prop :=
  ∃ vm', x vm = .ok ((), vm') ∧ Stands base vm' m'

section

variable {base vm : VmInternal} {m m' : Machine}

/-- **One part behind another**, when the first has been followed to its result. -/
theorem Goes.of_run {α : Type} {x : VmM α} {f : α → VmM Unit} {a : α} {vm' : VmInternal}
    (hx : x vm = .ok (a, vm')) (h : Goes base (f a) vm' m') : Goes base (x >>= f) vm m' := by
  obtain ⟨vm'', hrun, hstands⟩ := h
  exact ⟨vm'', (run_bind hx).trans hrun, hstands⟩

/-! ## Parts

`Goes base x vm m` says that the program `x` takes the state `vm` to one that stands for `m`; a part of an
instruction is described so, and the rule for parts one behind the other is `Goes.of_run`. -/

/-- What a change leads to stands where its view says. -/
theorem Stands.next {vm' : VmInternal} (h : Stands base vm m) (hchanges : Changes Allow.names vm vm')
    (hkept : Kept vm vm') (hshows : Shows vm' m') : Stands base vm' m' :=
  ⟨h.ordered.changes hchanges hkept, hshows, h.kept.trans hkept⟩

/-- A reference goes on to mean what it meant. -/
theorem Stands.means {vm' : VmInternal} (h : Stands base vm m) (hkept : Kept vm vm') {r : Ref} {v : Val}
    (hr : Means vm r v) : Means vm' r v := hkept.means h.ordered.sound hr

/-- The stack that is shown stays where memory is added to. -/
theorem Shows.stack_kept {vm' : VmInternal} (h : Shows vm m) (hs : Sound True vm) (hkept : Kept vm vm')
    (hroot : vm'.stackRoot = vm.stackRoot) :
    ∃ refs : List Ref, vm'.StackIs (refs.map some) ∧ List.Forall₂ (Means vm') refs m.stack := by
  obtain ⟨refs, hlist, hrefs⟩ := h.stack
  refine ⟨refs, ?_, hkept.forall₂ hs hrefs⟩
  rw [VmInternal.StackIs, hroot]
  exact hkept.listAt hlist

/-- **What is shown after a change** of the stack, the environment or the symbol table. -/
theorem Shows.keep {vm' : VmInternal} (h : Shows vm m) (hs : Sound True vm) (hkept : Kept vm vm')
    (htables : ∀ t ≠ 0, vm'.tables[t]? = vm.tables[t]?) (hlength : vm'.tables.length = vm.tables.length)
    {here : Frame} {outer : List Frame} {s : List Val}
    (hscope : Scope vm'.envs (some vm'.env) (here :: outer))
    (hstack : ∃ refs : List Ref, vm'.StackIs (refs.map some) ∧ List.Forall₂ (Means vm') refs s)
    (hdepth : vm'.depth = s.length) : Shows vm' { m with here, outer, stack := s } where
  codes c code hc := getElem?_of_isPrefix hkept.codes (h.codes c code hc)
  scope := hscope
  stack := hstack
  depth := hdepth
  tables t bindings ht := by
    obtain ⟨hne, hbindings⟩ := h.tables t bindings ht
    exact ⟨hne, hkept.hasBindings hs hbindings (htables t hne)⟩
  next := by rw [hlength]; exact h.next

/-- **Taking a value off the stack.** -/
theorem Stands.pop (h : Stands base vm m) {v : Val} {s : List Val} (hstack : m.stack = v :: s) :
    ∃ r cdr, vmPop vm = .ok (r, vm.pop cdr) ∧ r.IsObj ∧ Means (vm.pop cdr) r v ∧
      Stands base (vm.pop cdr) { m with stack := s } := by
  have hs := h.ordered.sound
  obtain ⟨refs, hlist, hrefs⟩ := h.shows.stack
  rw [hstack] at hrefs
  obtain ⟨r, refs, hr, hrest, rfl⟩ := List.forall₂_cons_right_iff.mp hrefs
  have hlist' : vm.ListAt vm.stackRoot (some r :: refs.map some) := hlist
  generalize hroot : vm.stackRoot = root at hlist'
  cases hlist' with
  | @cons _ cdr _ _ hderef htail =>
    rw [← hroot] at hderef
    have hkept : Kept vm (vm.pop cdr) := .pop vm cdr
    have hobj : r.IsObj := by
      rcases hs.root with hempty | ⟨n, c, hn, hc⟩
      · rw [hempty, hs.deref_empty] at hderef
        cases hderef
      · have hcar := hs.cars c (List.mem_of_getElem? hc)
        rw [hn] at hderef
        simp only [VmInternal.deref, hc, Option.map_some, Option.some.injEq, Obj.pair.injEq] at hderef
        rw [hderef.1] at hcar
        exact hcar
    refine ⟨r, cdr, vmPop_run hderef, hobj, hkept.means hs hr, h.next (.single (.pop hderef)) hkept ?_⟩
    refine h.shows.keep hs hkept (fun _ _ => rfl) rfl h.shows.scope
      ⟨refs, hkept.listAt htail, hkept.forall₂ hs hrest⟩ ?_
    have hdepth := h.shows.depth
    rw [hstack, List.length_cons] at hdepth
    simp only [VmInternal.pop, hdepth]
    omega

/-- **Taking two values off the stack.** -/
theorem Stands.pop₂ (h : Stands base vm m) {v v' : Val} {s : List Val} (hstack : m.stack = v :: v' :: s) :
    ∃ r r' cdr cdr', vmPop vm = .ok (r, vm.pop cdr) ∧
      vmPop (vm.pop cdr) = .ok (r', (vm.pop cdr).pop cdr') ∧ r.IsObj ∧ r'.IsObj ∧
      Means ((vm.pop cdr).pop cdr') r v ∧ Means ((vm.pop cdr).pop cdr') r' v' ∧
      Stands base ((vm.pop cdr).pop cdr') { m with stack := s } := by
  obtain ⟨r, cdr, hrun, hobj, hr, h1⟩ := h.pop hstack
  obtain ⟨r', cdr', hrun', hobj', hr', h2⟩ := h1.pop (s := s) rfl
  exact ⟨r, r', cdr, cdr', hrun, hrun', hobj, hobj', h1.means (.pop _ _) hr, hr', h2⟩

/-- **Putting an object on the stack.** -/
theorem Stands.push (h : Stands base vm m) {r : Ref} {v : Val} (hobj : r.IsObj) (hr : Means vm r v) :
    Stands base (vm.push (some r)) (m.push v) := by
  have hs := h.ordered.sound
  have hkept : Kept vm (vm.push (some r)) := .push vm _
  obtain ⟨refs, hlist, hrefs⟩ := h.shows.stack
  refine h.next (.single (.push hobj)) hkept
    (h.shows.keep hs hkept (fun _ _ => rfl) rfl h.shows.scope ⟨r :: refs, ?_, ?_⟩ ?_)
  · have htop : (vm.push (some r)).deref (.cell vm.cells.length) = some (.pair (some r) (some vm.stackRoot)) := by
      simp [VmInternal.deref, VmInternal.push]
    exact .cons htop (hkept.listAt hlist)
  · exact .cons (hkept.means hs hr) (hkept.forall₂ hs hrefs)
  · simp [VmInternal.push, h.shows.depth]

/-- A new object with nothing behind it. -/
theorem Stands.alloc (h : Stands base vm m) {o : Obj} (ho : o.Plain) :
    Stands base { vm with objs := vm.objs ++ [o] } m := by
  have hs := h.ordered.sound
  have hkept : Kept vm { vm with objs := vm.objs ++ [o] } := .alloc vm o
  exact h.next (.single (.alloc ho)) hkept (h.shows.keep hs hkept (fun _ _ => rfl) rfl h.shows.scope
    (h.shows.stack_kept hs hkept rfl) h.shows.depth)

/-- What was made last is read back. -/
theorem deref_alloc (vm : VmInternal) (o : Obj) :
    ({ vm with objs := vm.objs ++ [o] } : VmInternal).deref (.obj vm.objs.length) = some o := by
  simp [VmInternal.deref]

/-- A new object goes on the stack. -/
theorem Stands.pushNew (h : Stands base vm m) {o : Obj} (ho : o.Plain) {v : Val}
    (hv : ∀ (vm' : VmInternal) (r : Ref), Kept vm vm' → vm'.deref r = some o → Means vm' r v) :
    Goes base (Vm.alloc o >>= fun obj => vmPush (some obj)) vm (m.push v) := by
  have hnew := h.alloc ho
  exact .of_run rfl ⟨_, rfl, hnew.push trivial (hv _ _ (.alloc vm o) (deref_alloc vm o))⟩

/-! ### Environments -/

/-- A new environment changes no chain of environments. -/
theorem Scope.append {envs : List Env} {p : Option ℕ} {fs : List Frame} (h : Scope envs p fs)
    (env : Env) : Scope (envs ++ [env]) p fs := by
  induction h with
  | nil => exact .nil
  | cons he _ ih => exact .cons (getElem?_append_of_some he) ih

/-- The environment at the top of some frames. -/
theorem Scope.cases {envs : List Env} {e : ℕ} {here : Frame} {outer : List Frame}
    (h : Scope envs (some e) (here :: outer)) :
    ∃ env, envs[e]? = some env ∧ frameOf env = here ∧ Scope envs env.parent outer := by
  cases h with
  | cons he hparent => exact ⟨_, he, rfl, hparent⟩

/-- **Going on at an address.** -/
theorem Stands.goto (h : Stands base vm m) (ip : ℕ) :
    Stands base (vm.updateEnv fun env => { env with ip }) (m.goto ip) := by
  have hs := h.ordered.sound
  have hkept : Kept vm (vm.updateEnv fun env => { env with ip }) := .updateEnv vm _
  obtain ⟨env, henv, hhere, hscope⟩ := h.shows.scope.cases
  refine h.next (.single (.setIp henv trivial)) hkept (h.shows.keep hs hkept (fun _ _ => rfl) rfl ?_
    (h.shows.stack_kept hs hkept rfl) h.shows.depth)
  have hparent := hkept.scope hs hscope fun hp => (hs.parents _ env _ henv hp).2 rfl
  rw [← hhere]
  exact .cons (getElem?_updateEnv henv _) hparent

/-- **Entering an environment.** -/
theorem Stands.enter (h : Stands base vm m) (env : Env) {outer : List Frame} (hbindings : env.bindings ≠ 0)
    (hparent : ∀ p, env.parent = some p → p < vm.envs.length) (hscope : Scope vm.envs env.parent outer) :
    Stands base (vm.enter env) (m.switch (frameOf env) outer) := by
  have hkept : Kept vm (vm.enter env) := .enter vm env
  have hs := h.ordered.sound
  refine h.next (.single (.enter (fun _ => .inr trivial) (.inr trivial) hbindings hparent)) hkept ?_
  exact h.shows.keep hs hkept (fun _ _ => rfl) rfl (.cons (getElem?_enter vm env) (hscope.append env))
    (h.shows.stack_kept hs hkept rfl) h.shows.depth

/-- **Entering an environment, with a closure of the old one on the stack.** -/
theorem Stands.enterCall (h : Stands base vm m) (env : Env) {outer : List Frame}
    (hbindings : env.bindings ≠ 0) (hparent : ∀ p, env.parent = some p → p < vm.envs.length)
    (hscope : Scope vm.envs env.parent outer) :
    Stands base ((({ vm with objs := vm.objs ++ [Obj.closure vm.env] } : VmInternal).push
        (some (.obj vm.objs.length))).enter env)
      ((m.push (.closure m.here m.outer)).switch (frameOf env) outer) := by
  have hs := h.ordered.sound
  let vm₁ : VmInternal := { vm with objs := vm.objs ++ [Obj.closure vm.env] }
  have hkept : Kept vm ((vm₁.push (some (.obj vm.objs.length))).enter env) :=
    ((Kept.alloc vm _).trans (.push vm₁ _)).trans (.enter _ env)
  have hchange : Changes Allow.names vm ((vm₁.push (some (.obj vm.objs.length))).enter env) :=
    .single (.call (fun _ => .inr trivial) (.inr trivial) hbindings hparent)
  obtain ⟨refs, hlist, hrefs⟩ := h.shows.stack
  have hclosure : Means ((vm₁.push (some (.obj vm.objs.length))).enter env) (.obj vm.objs.length)
      (.closure m.here m.outer) := by
    refine .closure (e := vm.env) ?_ (h.shows.scope.append env)
    exact deref_alloc vm _
  refine h.next hchange hkept (h.shows.keep hs hkept (fun _ _ => rfl) rfl
    (.cons (getElem?_enter _ env) (hscope.append env))
    ⟨.obj vm.objs.length :: refs, ?_, .cons hclosure (hkept.forall₂ hs hrefs)⟩ ?_)
  · have htop : ((vm₁.push (some (.obj vm.objs.length))).enter env).deref (.cell vm.cells.length) =
        some (.pair (some (.obj vm.objs.length)) (some vm.stackRoot)) := by
      simp [VmInternal.deref, VmInternal.push, VmInternal.enter, vm₁]
    exact .cons htop (hkept.listAt hlist)
  · simp [VmInternal.push, VmInternal.enter, h.shows.depth, vm₁, Machine.push]

/-- A new table. -/
theorem Stands.newTable (h : Stands base vm m) :
    Stands base { vm with tables := vm.tables ++ [[]] } { m with
      tables := Function.update m.tables m.next (some fun _ => none), next := m.next + 1 } := by
  have hs := h.ordered.sound
  have hkept : Kept vm { vm with tables := vm.tables ++ [[]] } := .tables vm _
  refine h.next (.single (.newTable (by simp))) hkept
    { codes := h.shows.codes
      scope := h.shows.scope
      stack := h.shows.stack_kept hs hkept rfl
      depth := h.shows.depth
      tables := fun t bindings ht => ?_
      next := by simp [h.shows.next] }
  rcases eq_or_ne t m.next with rfl | hne
  · dsimp only at ht
    rw [Function.update_self] at ht
    cases ht
    rw [h.shows.next]
    refine ⟨(Nat.lt_of_succ_lt hs.tables).ne', [], List.getElem?_concat_length, rfl, fun _ => .none⟩
  · dsimp only at ht
    rw [Function.update_of_ne hne] at ht
    obtain ⟨hzero, hbindings⟩ := h.shows.tables t bindings ht
    obtain ⟨entries, hentries, -, -⟩ := id hbindings
    refine ⟨hzero, hkept.hasBindings hs hbindings ?_⟩
    exact (getElem?_append_of_some hentries).trans hentries.symm

/-- **`push_env`.** -/
theorem Stands.child (h : Stands base vm m) : Goes base pushEnv vm m.child := by
  obtain ⟨env, henv, hhere, hscope⟩ := h.shows.scope.cases
  have hs := h.ordered.sound
  have hnew := h.newTable.enter (childEnv vm env)
    (Nat.lt_of_succ_lt hs.tables).ne' (by rintro p ⟨⟩; exact hs.current) h.shows.scope
  refine ⟨_, pushEnv_run henv, ?_⟩
  have hframe : frameOf (childEnv vm env) =
      { m.here with bindings := m.next, handler := false, handlerAddr := 0 } := by
    rw [← hhere, h.shows.next]
    rfl
  rw [hframe] at hnew
  exact hnew

/-- **`clone_env` into the current environment.** -/
theorem Stands.switch (h : Stands base vm m) {e : ℕ} {here : Frame} {outer : List Frame}
    (hscope : Scope vm.envs (some e) (here :: outer)) : Goes base (switchEnv e) vm (m.switch here outer) := by
  obtain ⟨env, henv, rfl, hparents⟩ := hscope.cases
  have hs := h.ordered.sound
  exact ⟨_, switchEnv_run henv,
    h.enter _ (hs.bindings_ne henv) (fun p hp => (hs.parent henv hp).1) hparents⟩

/-- **A closure of an environment of its own** goes on the stack. -/
theorem Stands.newClosure (h : Stands base vm m) (env : Env) {outer : List Frame} (hbindings : env.bindings ≠ 0)
    (hparent : ∀ p, env.parent = some p → p < vm.envs.length ∧ p ≠ vm.env)
    (hscope : Scope vm.envs env.parent outer) :
    Goes base (Vm.alloc (.closure vm.envs.length) >>= fun closure => vmPush (some closure))
      { vm with envs := vm.envs ++ [env] } (m.push (.closure (frameOf env) outer)) := by
  have hs := h.ordered.sound
  let vm₁ : VmInternal := { vm with envs := vm.envs ++ [env], objs := vm.objs ++ [Obj.closure vm.envs.length] }
  have hkept : Kept vm vm₁ := (Kept.newEnv vm env).trans (.alloc { vm with envs := vm.envs ++ [env] } _)
  have h1 : Stands base vm₁ m :=
    h.next (.single (.closure (fun _ => .inr trivial) (.inr trivial) hbindings hparent)) hkept (h.shows.keep hs hkept
      (fun _ _ => rfl) rfl (h.shows.scope.append env) (h.shows.stack_kept hs hkept rfl) h.shows.depth)
  have hclosure : Means vm₁ (.obj vm.objs.length) (.closure (frameOf env) outer) :=
    .closure (deref_alloc { vm with envs := vm.envs ++ [env] } _)
      (.cons List.getElem?_concat_length (hscope.append env))
  exact .of_run rfl ⟨_, rfl, h1.push trivial hclosure⟩

/-! ### Bindings -/

/-- **Setting a name** changes what it is looked up as. -/
theorem lookup_insert (entries : List Entry) (key : ℕ) (name name' : List UInt8) (value : Ref) :
    lookup (Vm.insert entries key name value) name' =
      if name' = name then some value else lookup entries name' := by
  unfold Vm.insert
  split
  · next hany =>
    -- the names stay, so the same entry is found; its value was set if its name is the one
    have hnames : ∀ e : Entry, (if e.name = name then { e with value } else e).name = e.name := by
      intro e
      split <;> rfl
    simp only [lookup, List.find?_map, Function.comp_def, hnames, Option.map_map]
    cases hfind : entries.find? fun e => e.name = name' with
    | none =>
      have hne : name' ≠ name := by
        rintro rfl
        simp at hany
        obtain ⟨e, he, rfl⟩ := hany
        have := List.find?_eq_none.mp hfind e he
        simp at this
      simp [hne]
    | some e =>
      have he : e.name = name' := by simpa using List.find?_some hfind
      subst he
      split <;> simp [*]
  · next hany =>
    by_cases hname : name' = name
    · subst hname
      simp [lookup]
    · have hne : ¬ name = name' := fun h => hname h.symm
      simp [lookup, hname, hne]

/-- A name that is there already, or is new, may be a key. -/
theorem keysKept_insert {entries : List Entry} {key : ℕ} {name : List UInt8} {value : Ref}
    (h : vm.keysKept entries = true) (hname : vm.name key = some name) :
    vm.keysKept (Vm.insert entries key name value) = true := by
  unfold Vm.insert
  split
  · refine List.all_eq_true.mpr fun e he => ?_
    obtain ⟨e, hmem, rfl⟩ := List.mem_map.mp he
    have hkept := List.all_eq_true.mp h e hmem
    split <;> exact hkept
  · refine List.all_eq_true.mpr fun e he => ?_
    rcases List.mem_cons.mp he with rfl | he
    · exact decide_eq_true hname
    · exact List.all_eq_true.mp h e he

/-- **The innermost binding is found.** -/
theorem Stands.find (host : Host) (h : Stands base vm m) {bytes : ℕ} {name : List UInt8}
    (hname : vm.name bytes = some name) {t : ℕ} {v : Val} :
    ∀ {e fuel : ℕ} {fs : List Frame}, e < fuel → Scope vm.envs (some e) fs → findFrame m.tables name fs = some (t, v) →
      ∃ env r, findBinding host bytes (vm.chain fuel e) vm = .ok (some (env, r), vm) ∧ env.bindings = t ∧
        r.IsObj ∧ Means vm r v
  | e, 0, _, he, _, _ => absurd he (Nat.not_lt_zero _)
  | e, fuel + 1, _, he, @Scope.cons _ _ env fs henv hscope, hfind => by
      have hs := h.ordered.sound
      obtain ⟨bindings, ht, hfind⟩ := Option.bind_eq_some_iff.mp hfind
      obtain ⟨-, entries, hentries, hkept, hlookup⟩ := h.shows.tables _ bindings ht
      have hget : hashGet host env.bindings bytes vm = .ok (lookup entries name, vm) := by
        have hrun : hashGet host env.bindings bytes vm = _ := hashGet_run hname hentries
        rw [hrun, getEntry, if_pos hkept]
      rw [VmInternal.chain, henv]
      have hrel := hlookup name
      cases hv : bindings name with
      | some v' =>
        rw [hv] at hrel hfind
        cases hfind
        cases hr : lookup entries name with
        | none =>
          rw [hr] at hrel
          cases hrel
        | some r =>
          rw [hr] at hrel hget
          cases hrel with
          | some hmeans =>
            have hvalues := hs.values entries (List.mem_of_getElem? hentries)
            exact ⟨env, r, (run_bind (ofOption_run henv)).trans (run_bind hget), rfl,
              isObj_of_lookup hvalues hr, hmeans⟩
      | none =>
        rw [hv] at hrel hfind
        cases hr : lookup entries name with
        | some r =>
          rw [hr] at hrel
          cases hrel
        | none =>
          rw [hr] at hget
          cases hp : env.parent with
          | none =>
            rw [hp] at hscope
            cases hscope
            cases hfind
          | some p =>
            rw [hp] at hscope
            have hlt := (hs.parents e env p henv hp).1
            obtain ⟨env', r, hrun, hrest⟩ := Stands.find host h hname (by omega : p < fuel) hscope hfind
            refine ⟨env', r, ?_, hrest⟩
            exact (run_bind (ofOption_run henv)).trans ((run_bind hget).trans (by simpa [hp] using hrun))

/-- **`hash_set` in a table that is known.** -/
theorem Stands.setIn (host : Host) (h : Stands base vm m) {t key : ℕ} {name : List UInt8} {r : Ref} {v : Val}
    (hkey : ∃ (n : ℕ) (length : Int64), vm.objs[n]? = some (.symbol length key)) (hname : vm.name key = some name)
    (hobj : r.IsObj) (hr : Means vm r v) (hm : m.setIn t name v = some m') : Goes base (hashSet host t key r) vm m' := by
  have hs := h.ordered.sound
  obtain ⟨bindings, ht, hm⟩ := Option.bind_eq_some_iff.mp hm
  cases hm
  obtain ⟨hzero, entries, hentries, hkeys, hlookup⟩ := h.shows.tables t bindings ht
  have hvalues := hs.values entries (List.mem_of_getElem? hentries)
  have hset : setEntries host vm t key name r entries = Vm.insert entries key name r := if_pos hkeys
  have hkept : Kept vm { vm with tables := vm.tables.set t (Vm.insert entries key name r) } := .tables vm _
  refine ⟨_, (hashSet_run hname hentries).trans (by rw [hset]), ?_⟩
  refine h.next (.single (.setTable hzero hentries hname (fun _ => hkey) (fun _ => ⟨r, rfl⟩)
      (isObj_of_insert hvalues hobj) trivial)) hkept
    { codes := h.shows.codes
      scope := h.shows.scope
      stack := h.shows.stack_kept hs hkept rfl
      depth := h.shows.depth
      tables := fun t' bindings' ht' => ?_
      next := by simp [h.shows.next] }
  dsimp only at ht'
  rcases eq_or_ne t' t with rfl | hne
  · rw [Function.update_self] at ht'
    cases ht'
    obtain ⟨hlt, -⟩ := List.getElem?_eq_some_iff.mp hentries
    refine ⟨hzero, _, List.getElem?_set_self hlt, hkept.keysKept (keysKept_insert hkeys hname), fun name' => ?_⟩
    rw [lookup_insert]
    rcases eq_or_ne name' name with rfl | hname'
    · rw [if_pos rfl, Function.update_self]
      exact .some (hkept.means hs hr)
    · rw [if_neg hname', Function.update_of_ne hname']
      exact hkept.optionRel hs (hlookup name')
  · rw [Function.update_of_ne hne] at ht'
    obtain ⟨hzero', hbindings⟩ := h.shows.tables t' bindings' ht'
    exact ⟨hzero', hkept.hasBindings hs hbindings (List.getElem?_set_ne hne.symm)⟩

/-! ### Strings and symbols -/

/-- A new string. -/
theorem Stands.newString (h : Stands base vm m) (bs : List UInt8) (length : Int64) :
    Stands base { vm with
      bytes := vm.bytes ++ [bs], objs := vm.objs ++ [.string length vm.bytes.length] } m := by
  have hs := h.ordered.sound
  have hkept := (Kept.newBytes vm bs).trans (.alloc { vm with bytes := vm.bytes ++ [bs] }
    (.string length vm.bytes.length))
  exact h.next (.single (.allocBytes bs trivial False.elim)) hkept (h.shows.keep hs hkept (fun _ _ => rfl) rfl
    h.shows.scope (h.shows.stack_kept hs hkept rfl) h.shows.depth)

/-- **A new string that becomes a symbol.** -/
theorem Stands.newSymbol (h : Stands base vm m) (length : Int64) {bs name : List UInt8}
    {entries : List Entry} (hin : InternedIn entries vm) (hname : cstr? bs = some name)
    (hlookup : lookup entries name = none) :
    Stands base { vm with
      bytes := vm.bytes ++ [bs]
      objs := vm.objs ++ [.symbol length vm.bytes.length]
      tables := vm.tables.set 0 (Vm.insert entries vm.bytes.length name (.obj vm.objs.length)) } m := by
  have hs := h.ordered.sound
  let vm₁ : VmInternal := { vm with
    bytes := vm.bytes ++ [bs], objs := vm.objs ++ [.string length vm.bytes.length] }
  have hkept : Kept vm { vm with
      bytes := vm.bytes ++ [bs]
      objs := vm.objs ++ [.symbol length vm.bytes.length]
      tables := vm.tables.set 0 (Vm.insert entries vm.bytes.length name (.obj vm.objs.length)) } :=
    ((Kept.newBytes vm bs).trans (.alloc _ (.symbol length vm.bytes.length))).trans (.tables _ _)
  have hvalues := hs.values entries (List.mem_of_getElem? hin.table)
  have hintern : Change Allow.names vm₁ { vm₁ with
      objs := vm₁.objs.set vm.objs.length (.symbol length vm.bytes.length)
      tables := vm.tables.set 0 (Vm.insert entries vm.bytes.length name (.obj vm.objs.length)) } :=
    .intern (o := .string length vm.bytes.length) List.getElem?_concat_length rfl
      (by simpa [vm₁] using hname) hin.table (fun _ => ⟨hlookup, rfl⟩) (isObj_of_insert hvalues trivial)
  have hobjs : vm₁.objs.set vm.objs.length (.symbol length vm.bytes.length) =
      vm.objs ++ [.symbol length vm.bytes.length] := by simp [vm₁]
  rw [hobjs] at hintern
  have hchanges := Relation.ReflTransGen.tail (.single (.allocBytes bs trivial False.elim)) hintern
  exact h.next hchanges hkept (h.shows.keep hs hkept (fun t ht => List.getElem?_set_ne ht.symm)
    List.length_set h.shows.scope (h.shows.stack_kept hs hkept rfl) h.shows.depth)

end

end Insomniac.Abstract

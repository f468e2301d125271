import Insomniac.Abstract.Refine

/-!
# Abstract/Simulate — a round of the loop, instruction by instruction

    m  ──decodeAt──▸ instr ──exec────▸  m'
    vm ──fetch─────▸ op    ──opCall──▸  vm'

`Stands.step` puts the instructions together, and `Stands.runs` follows a whole run.
-/

open Bytes Insomniac.Asm Insomniac.Vm Run

namespace Insomniac.Abstract

section

variable {base vm : VmInternal} {m m' : Machine} {host : Host} {throw : Throw}

/-! ## What a value says of its object

An instruction branches on the type of an object.  Here the value that the reference means gives the object
back, as far as the branch looks at it. -/

/-- Looking at an object that is there. -/
theorem load_means {r : Ref} {o : Obj} (h : vm.deref r = some o) : load r vm = .ok (o, vm) := ofOption_run h

theorem Means.deref_fixnum {r : Ref} {integer : Int64} (h : Means vm r (.fixnum integer)) :
    vm.deref r = some (.fixnum integer) := by
  cases h
  assumption

/-- A symbol is a SYMBOL with its name. -/
theorem Means.deref_symbol {r : Ref} {name : List UInt8} (h : Means vm r (.symbol name)) :
    ∃ length bytes, vm.deref r = some (.symbol length bytes) ∧ vm.name bytes = some name := by
  cases h
  exact ⟨_, _, ‹_›, ‹_›⟩

/-- A pair is a PAIR of what its parts are. -/
theorem Means.deref_pair {r : Ref} {a d : Val} (h : Means vm r (.pair a d)) : ∃ car cdr,
    vm.deref r = some (.pair (some car) (some cdr)) ∧ Means vm car a ∧ Means vm cdr d := by
  cases h
  exact ⟨_, _, ‹_›, ‹_›, ‹_›⟩

/-- A closure is a CLOSURE over a chain of environments. -/
theorem Means.deref_closure {r : Ref} {here : Frame} {outer : List Frame} (h : Means vm r (.closure here outer)) :
    ∃ e, vm.deref r = some (.closure e) ∧ Scope vm.envs (some e) (here :: outer) := by
  cases h
  exact ⟨_, ‹_›, ‹_›⟩

/-- Whether a value is `#f` is whether its object is. -/
theorem Means.deref_isFalse {r : Ref} {v : Val} {b : Bool} (h : Means vm r v) (hv : v.isFalse = some b) :
    ∃ o, vm.deref r = some o ∧ (b = true ↔ o = .bool false) := by
  cases h <;> cases hv
  all_goals exact ⟨_, ‹_›, by simp⟩

/-- Whether a value is `()` is whether its object is. -/
theorem Means.deref_isEmpty {r : Ref} {v : Val} {b : Bool} (h : Means vm r v) (hv : v.isEmpty = some b) :
    ∃ o, vm.deref r = some o ∧ (o.type == .empty) = b := by
  cases h <;> cases hv
  all_goals exact ⟨_, ‹_›, rfl⟩

/-! ## Literals

A constant is an object that the machine keeps; a number or a character is a new one. -/

theorem goes_constant (h : Stands base vm m) {f : VmInternal → Ref} {v : Val} (hobj : (f vm).IsObj)
    (hv : Means vm (f vm) v) : Goes base (pushConstant f) vm (m.push v) :=
  ⟨_, rfl, h.push hobj hv⟩

theorem goes_bool (h : Stands base vm m) (b : Bool) : Goes base (pushBool b) vm (m.push (.bool b)) := by
  obtain ⟨hsound, -, htrue, hfalse⟩ := h.ordered
  cases b with
  | true => exact goes_constant h hsound.booleans.1 (.bool htrue)
  | false => exact goes_constant h hsound.booleans.2 (.bool hfalse)

/-! ## The top of the stack

Most instructions take one or two values and push one that depends on nothing else, so the abstract side of all
of them is `top₁` or `top₂`, and one lemma takes the operands off. -/

/-- The operand of an instruction that has one. -/
theorem top₁_cases {f : Val → Option Val} (h : m.top₁ f = some m') :
    ∃ a s v, m.stack = a :: s ∧ f a = some v ∧ m' = Machine.push { m with stack := s } v := by
  unfold Machine.top₁ at h
  split at h
  · next a s hstack =>
    obtain ⟨v, hv, rfl⟩ := Option.map_eq_some_iff.mp h
    exact ⟨a, s, v, hstack, hv, rfl⟩
  · cases h

/-- The operands of an instruction that has two. -/
theorem top₂_cases {f : Val → Val → Option Val} (h : m.top₂ f = some m') :
    ∃ a b s v, m.stack = a :: b :: s ∧ f a b = some v ∧ m' = Machine.push { m with stack := s } v := by
  unfold Machine.top₂ at h
  split at h
  · next a b s hstack =>
    obtain ⟨v, hv, rfl⟩ := Option.map_eq_some_iff.mp h
    exact ⟨a, b, s, v, hstack, hv, rfl⟩
  · cases h

theorem goes_cons (h : Stands base vm m) (hm : m.top₂ (fun car cdr => some (.pair car cdr)) = some m') :
    Goes base opCons vm m' := by
  obtain ⟨a, b, s, v, hstack, ⟨⟩, rfl⟩ := top₂_cases hm
  obtain ⟨r, r', cdr, cdr', hrun, hrun', hobj, hobj', hr, hr', h2⟩ := h.pop₂ hstack
  refine .of_run hrun (.of_run hrun' (h2.pushNew (o := .pair (some r) (some r')) ⟨hobj, hobj'⟩ fun vm' n hkept hn => ?_))
  exact .pair hn (h2.means hkept hr) (h2.means hkept hr')

/-- The fields of a pair on the stack. -/
theorem goes_field (h : Stands base vm m) {a d v : Val} {s : List Val} (hstack : m.stack = .pair a d :: s)
    {f : Ptr → Ptr → Ptr} {x : VmM Unit} (hf : ∀ car cdr : Ref, f (some car) (some cdr) = some car ∧ v = a ∨
      f (some car) (some cdr) = some cdr ∧ v = d)
    (hx : ∀ r (vm₁ : VmInternal) car cdr, vmPop vm = .ok (r, vm₁) → vm₁.deref r = some (.pair car cdr) →
      x vm = vmPush (f car cdr) vm₁) :
    Goes base x vm (Machine.push { m with stack := s } v) := by
  obtain ⟨r, cdr, hrun, hobj, hr, h1⟩ := h.pop hstack
  obtain ⟨car', cdr', hderef, ha, hd⟩ := hr.deref_pair
  have hfields := h1.ordered.sound.fields_of_deref hobj hderef
  have hx' := hx r _ _ _ hrun hderef
  rcases hf car' cdr' with ⟨hfield, rfl⟩ | ⟨hfield, rfl⟩
  · rw [hfield] at hx'
    exact ⟨_, hx', h1.push hfields.1 ha⟩
  · rw [hfield] at hx'
    exact ⟨_, hx', h1.push hfields.2 hd⟩

theorem goes_car (h : Stands base vm m)
    (hm : m.top₁ (fun | .pair car _ => some car | _ => none) = some m') : Goes base (opCar throw) vm m' := by
  obtain ⟨a, s, v, hstack, hv, rfl⟩ := top₁_cases hm
  split at hv
  · cases hv
    refine goes_field h hstack (f := fun car _ => car) (fun _ _ => .inl ⟨rfl, rfl⟩) fun r vm₁ car cdr hrun hderef => ?_
    exact (run_bind hrun).trans (run_bind (load_means hderef))
  · cases hv

theorem goes_cdr (h : Stands base vm m)
    (hm : m.top₁ (fun | .pair _ cdr => some cdr | _ => none) = some m') : Goes base (opCdr throw) vm m' := by
  obtain ⟨a, s, v, hstack, hv, rfl⟩ := top₁_cases hm
  split at hv
  · cases hv
    refine goes_field h hstack (f := fun _ cdr => cdr) (fun _ _ => .inr ⟨rfl, rfl⟩) fun r vm₁ car cdr hrun hderef => ?_
    exact (run_bind hrun).trans (run_bind (load_means hderef))
  · cases hv

theorem goes_isEmpty (h : Stands base vm m) (hm : m.top₁ (fun v => v.isEmpty.map .bool) = some m') :
    Goes base opIsEmpty vm m' := by
  obtain ⟨a, s, v, hstack, hv, rfl⟩ := top₁_cases hm
  obtain ⟨b, hb, rfl⟩ := Option.map_eq_some_iff.mp hv
  obtain ⟨r, cdr, hrun, -, hr, h1⟩ := h.pop hstack
  obtain ⟨o, ho, rfl⟩ := hr.deref_isEmpty hb
  exact .of_run hrun (.of_run (load_means ho) (goes_bool h1 _))

theorem goes_not (h : Stands base vm m) (hm : m.top₁ (fun v => v.isFalse.map .bool) = some m') :
    Goes base opNot vm m' := by
  obtain ⟨a, s, v, hstack, hv, rfl⟩ := top₁_cases hm
  obtain ⟨b, hb, rfl⟩ := Option.map_eq_some_iff.mp hv
  obtain ⟨r, cdr, hrun, -, hr, h1⟩ := h.pop hstack
  obtain ⟨o, ho, hiff⟩ := hr.deref_isFalse hb
  refine .of_run hrun (.of_run (load_means ho) ?_)
  by_cases hfalse : o = .bool false
  · rw [hiff.mpr hfalse]
    subst hfalse
    exact goes_bool h1 true
  · have hb' : b = false := Bool.eq_false_iff.mpr fun h => hfalse (hiff.mp h)
    subst hb'
    have hpush := goes_bool h1 false
    rcases o with _ | ⟨_ | _⟩ <;> first | exact hpush | exact absurd rfl hfalse

/-- A calculation: its operands are numbers. -/
theorem goes_arith {f : Int64 → Int64 → Option Val} {x : VmM Unit} (h : Stands base vm m)
    (hm : m.top₂ (Machine.arith f) = some m')
    (hx : ∀ (num2 num1 : Ref) (a b : Int64) (v : Val) (vm₁ vm₂ : VmInternal) (m₂ : Machine),
      vmPop vm = .ok (num2, vm₁) → vmPop vm₁ = .ok (num1, vm₂) → vm₂.deref num1 = some (.fixnum a) →
      vm₂.deref num2 = some (.fixnum b) → f a b = some v → Stands base vm₂ m₂ →
      Goes base x vm (m₂.push v)) : Goes base x vm m' := by
  obtain ⟨v2, v1, s, v, hstack, hv, rfl⟩ := top₂_cases hm
  obtain ⟨r, r', cdr, cdr', hrun, hrun', -, -, hr, hr', h2⟩ := h.pop₂ hstack
  unfold Machine.arith at hv
  split at hv
  · exact hx r r' _ _ v _ _ _ hrun hrun' hr'.deref_fixnum hr.deref_fixnum hv h2
  · cases hv

theorem goes_numericOp {op : Int64 → Int64 → VmM Int64} {f : Int64 → Int64 → Option Val}
    (hop : ∀ a b v vm, f a b = some v → ∃ integer, op a b vm = .ok (integer, vm) ∧ v = .fixnum integer)
    (h : Stands base vm m) (hm : m.top₂ (Machine.arith f) = some m') :
    Goes base (numericOp throw op) vm m' := by
  refine goes_arith h hm fun num2 num1 a b v vm₁ vm₂ m₂ hrun hrun' h1 h2 hv hstands => ?_
  obtain ⟨integer, hinteger, rfl⟩ := hop a b v vm₂ hv
  exact .of_run hrun (.of_run hrun' (.of_run (load_means h1) (.of_run (load_means h2) (.of_run hinteger
    (hstands.pushNew (o := .fixnum integer) trivial fun _ _ _ hn => .fixnum hn)))))

/-- Those that always have a result. -/
theorem goes_calculate (op : Int64 → Int64 → Int64) (h : Stands base vm m)
    (hm : m.top₂ (Machine.arith fun a b => some (.fixnum (op a b))) = some m') :
    Goes base (numericOp throw fun a b => pure (op a b)) vm m' :=
  goes_numericOp (fun a b _ _ hv => ⟨op a b, rfl, (Option.some.inj hv).symm⟩) h hm

/-- Those that divide, when the divisor is not zero and the quotient is in range. -/
theorem goes_divide (op : Int64 → Int64 → Int64) (h : Stands base vm m)
    (hm : m.top₂ (Machine.arith (Machine.divide op)) = some m') :
    Goes base (numericOp throw (divide op)) vm m' := by
  refine goes_numericOp (fun a b v vm hv => ?_) h hm
  unfold Machine.divide at hv
  split at hv
  · cases hv
  · next hok =>
    cases hv
    exact ⟨op a b, by rw [divide, if_neg hok]; rfl, rfl⟩

theorem goes_numericLogic (op : Int64 → Int64 → Bool) (h : Stands base vm m)
    (hm : m.top₂ (Machine.arith fun a b => some (.bool (op a b))) = some m') :
    Goes base (numericLogic throw op) vm m' := by
  refine goes_arith h hm fun num2 num1 a b v vm₁ vm₂ m₂ hrun hrun' h1 h2 hv hstands => ?_
  cases hv
  exact .of_run hrun (.of_run hrun' (.of_run (load_means h1) (.of_run (load_means h2)
    (goes_bool hstands _))))

/-! ## The stack

The words that move what is on the stack.  Pairs of the stack are taken and made anew, so the values are what
they were and their references too. -/

theorem goes_swap (h : Stands base vm m) {a b : Val} {s : List Val} (hstack : m.stack = a :: b :: s) :
    Goes base opSwap vm { m with stack := b :: a :: s } := by
  obtain ⟨r, r', cdr, cdr', hrun, hrun', hobj, hobj', hr, hr', h2⟩ := h.pop₂ hstack
  have h3 := h2.push hobj hr
  exact .of_run hrun (.of_run hrun' (.of_run rfl ⟨_, rfl, h3.push hobj' (h2.means (.push _ _) hr')⟩))

theorem goes_dupRef (h : Stands base vm m) {a : Val} {s : List Val} (hstack : m.stack = a :: s) :
    Goes base opDupRef vm { m with stack := a :: a :: s } := by
  obtain ⟨r, cdr, hrun, hobj, hr, h1⟩ := h.pop hstack
  have h2 := h1.push hobj hr
  exact .of_run hrun (.of_run rfl ⟨_, rfl, h2.push hobj (h1.means (.push _ _) hr)⟩)

theorem goes_drop (h : Stands base vm m) {a : Val} {s : List Val} (hstack : m.stack = a :: s) :
    Goes base opDrop vm { m with stack := s } := by
  obtain ⟨r, cdr, hrun, -, -, h1⟩ := h.pop hstack
  exact .of_run hrun ⟨_, rfl, h1⟩

/-- `depth` pushes how many values there are below it. -/
theorem goes_depth (h : Stands base vm m) :
    Goes base opDepth vm (m.push (.fixnum (Int64.ofInt m.stack.length))) := by
  refine .of_run rfl ?_
  rw [← h.shows.depth]
  exact h.pushNew (o := .fixnum _) trivial fun _ _ _ hn => .fixnum hn

/-! ## Closures

`ret` and the calls go on in the environment of a closure.  `call_in` leaves a closure of the place behind it,
which is where `ret` will come back to. -/

/-- **One part behind another**, when both have been described. -/
theorem Goes.trans {x y : VmM Unit} {m₁ : Machine} (hx : Goes base x vm m₁)
    (hy : ∀ vm₁, Stands base vm₁ m₁ → Goes base y vm₁ m') : Goes base (x >>= fun _ => y) vm m' := by
  obtain ⟨vm₁, hrun, h1⟩ := hx
  exact .of_run hrun (hy vm₁ h1)

theorem goes_ret (h : Stands base vm m) (hm : m.ret = some m') : Goes base (opRet throw) vm m' := by
  unfold Machine.ret at hm
  split at hm
  · next here outer s hstack =>
    cases hm
    obtain ⟨r, cdr, hrun, -, hr, h1⟩ := h.pop hstack
    obtain ⟨e, ho, hscope⟩ := hr.deref_closure
    exact .of_run hrun (.of_run (load_means ho) (h1.switch hscope))
  · cases hm

/-- Entering a closure. -/
theorem goes_enter (h : Stands base vm m) {e : ℕ} {here : Frame} {outer : List Frame}
    (hscope : Scope vm.envs (some e) (here :: outer)) : Goes base (enter e) vm (m.switch here outer).child :=
  (h.switch hscope).trans fun _ h1 => h1.child

theorem goes_callIn (h : Stands base vm m) (hm : m.callIn = some m') : Goes base (opCallIn throw) vm m' := by
  unfold Machine.callIn at hm
  split at hm
  · next here outer s hstack =>
    cases hm
    obtain ⟨r, cdr, hrun, -, hr, h1⟩ := h.pop hstack
    obtain ⟨e, ho, hscope⟩ := hr.deref_closure
    obtain ⟨env, henv, rfl, hparents⟩ := hscope.cases
    have hs := h1.ordered.sound
    have h2 := h1.enterCall _ (hs.bindings_ne henv) (fun p hp => (hs.parent henv hp).1) hparents
    refine .of_run hrun (.of_run (load_means ho) (.of_run rfl (.of_run rfl (.of_run rfl ?_))))
    exact .of_run (switchEnv_run henv) h2.child
  · cases hm

theorem goes_tailCallIn (h : Stands base vm m) (hm : m.tailCallIn = some m') :
    Goes base (opTailCallIn throw) vm m' := by
  unfold Machine.tailCallIn at hm
  split at hm
  · next here outer a b s hstack =>
    cases hm
    obtain ⟨r, cdr, hrun, -, hr, h1⟩ := h.pop hstack
    obtain ⟨e, ho, hscope⟩ := hr.deref_closure
    obtain ⟨r2, r3, cdr2, cdr3, hrun2, hrun3, hobj2, hobj3, hr2, hr3, h3⟩ := h1.pop₂ (s := s) rfl
    have h4 := h3.push hobj2 hr2
    have h5 := h4.push hobj3 (h3.means (.push _ _) hr3)
    exact .of_run hrun (.of_run (load_means ho) (.of_run hrun2 (.of_run hrun3 (.of_run rfl (.of_run rfl
      (goes_enter h5 hscope))))))
  · cases hm

/-! ## Locations

A name is looked up in the table of each environment in turn, which is what `findFrame` does with the frames. -/

/-- `bind` puts a binding into the table of the current environment. -/
theorem goes_bind (h : Stands base vm m) (hm : m.bind = some m') : Goes base (opBind host throw) vm m' := by
  unfold Machine.bind at hm
  split at hm
  · next name v s hstack =>
    obtain ⟨r, r', cdr, cdr', hrun, hrun', hobj, hobj', hr, hr', h2⟩ := h.pop₂ hstack
    obtain ⟨length, bytes, ho, hname⟩ := hr.deref_symbol
    obtain ⟨n, rfl⟩ := hobj.exists_obj
    obtain ⟨env, henv, hhere, -⟩ := h2.shows.scope.cases
    have hset : Goes base (hashSet host env.bindings bytes r') _ m' := h2.setIn host ⟨n, length, ho⟩ hname hobj' hr' (by
      have hbindings : env.bindings = m.here.bindings := congrArg Frame.bindings hhere
      rw [hbindings]
      exact hm)
    exact .of_run hrun (.of_run hrun' (.of_run (load_means ho) (.of_run (ofOption_run henv) hset)))
  · cases hm

/-- The binding that is found from the current environment on. -/
theorem Stands.findHere (host : Host) (h : Stands base vm m) {bytes : ℕ} {name : List UInt8}
    (hname : vm.name bytes = some name) {t : ℕ} {v : Val}
    (hfind : findFrame m.tables name (m.here :: m.outer) = some (t, v)) :
    ∃ env r, findBinding host bytes vm.scopes vm = .ok (some (env, r), vm) ∧ env.bindings = t ∧
      r.IsObj ∧ Means vm r v :=
  h.find host hname h.ordered.sound.current h.shows.scope hfind

theorem goes_read (h : Stands base vm m) (hm : m.read = some m') : Goes base (opRead host throw) vm m' := by
  unfold Machine.read at hm
  split at hm
  · next name s hstack =>
    obtain ⟨⟨t, v⟩, hfind, rfl⟩ := Option.map_eq_some_iff.mp hm
    obtain ⟨r, cdr, hrun, -, hr, h1⟩ := h.pop hstack
    obtain ⟨length, bytes, ho, hname⟩ := hr.deref_symbol
    obtain ⟨env, r', hfound, -, hobj, hv⟩ := h1.findHere host hname hfind
    exact .of_run hrun (.of_run (load_means ho) (.of_run rfl (.of_run hfound ⟨_, rfl, h1.push hobj hv⟩)))
  · cases hm

/-- `!` writes to where a name is bound. -/
theorem goes_set (h : Stands base vm m) (hm : m.set = some m') : Goes base (opSet host throw) vm m' := by
  unfold Machine.set at hm
  split at hm
  · next name v s hstack =>
    obtain ⟨⟨t, v'⟩, hfind, hm⟩ := Option.bind_eq_some_iff.mp hm
    obtain ⟨r, r', cdr, cdr', hrun, hrun', hobj, hobj', hr, hr', h2⟩ := h.pop₂ hstack
    obtain ⟨length, bytes, ho, hname⟩ := hr.deref_symbol
    obtain ⟨n, rfl⟩ := hobj.exists_obj
    obtain ⟨env, r'', hfound, rfl, -, -⟩ := h2.findHere host hname hfind
    exact .of_run hrun (.of_run hrun' (.of_run (load_means ho) (.of_run rfl (.of_run hfound
      (h2.setIn host ⟨n, length, ho⟩ hname hobj' hr' hm)))))
  · cases hm

/-! ## Operands

Literals and jumps read their operand from the code and move the instruction pointer behind it, before or after
the stack is touched. -/

/-- The code at hand. -/
theorem Stands.code (h : Stands base vm m) {code : Code} (hcode : m.here.codeRef >>= m.codes = some code) :
    ∃ env, vm.envs[vm.env]? = some env ∧ env.ip = m.here.ip ∧ env.length = m.here.length ∧
      codeOf env vm = .ok (code, vm) := by
  obtain ⟨env, henv, hhere, -⟩ := h.shows.scope.cases
  obtain ⟨c, hc, hcode⟩ := Option.bind_eq_some_iff.mp hcode
  refine ⟨env, henv, congrArg Frame.ip hhere, congrArg Frame.length hhere, ofOption_run ?_⟩
  have hc' : env.codeRef = some c := (congrArg Frame.codeRef hhere).trans hc
  rw [hc']
  exact h.shows.codes c code hcode

theorem Stands.moveIp (h : Stands base vm m) (f : ℕ → ℕ) :
    Stands base (vm.updateEnv fun env => { env with ip := f env.ip }) (m.goto (f m.here.ip)) := by
  obtain ⟨env, henv, hhere, -⟩ := h.shows.scope.cases
  have hip : env.ip = m.here.ip := congrArg Frame.ip hhere
  have hgoto := h.goto (f m.here.ip)
  rwa [updateEnv_congr henv (g := fun env => { env with ip := f env.ip }) (by rw [hip])] at hgoto

/-- **`parse_int`.** -/
theorem Stands.parseInt (h : Stands base vm m) {code : Code} (hcode : m.here.codeRef >>= m.codes = some code) :
    ∃ vm', Vm.parseInt vm = .ok (Asm.parseInt code m.here.ip, vm') ∧
      Stands base vm' (m.goto (m.here.ip + 8)) := by
  obtain ⟨env, henv, hip, -, hrun⟩ := h.code hcode
  refine ⟨_, ?_, h.moveIp (· + 8)⟩
  rw [← hip]
  exact (run_bind (ofOption_run henv)).trans ((run_bind hrun).trans (run_bind rfl))

theorem goes_jump (h : Stands base vm m) (target : Int64) :
    Goes base (jump target) vm (m.goto (jumpTo m.here.ip target)) :=
  ⟨_, rfl, h.moveIp (jumpTo · target)⟩

/-- **`parse_string`**, up to the string, whose bytes are the last that were made. -/
theorem Stands.parseString (h : Stands base vm m) {code : Code}
    (hcode : m.here.codeRef >>= m.codes = some code) {str : List UInt8} {next : ℕ}
    (hparse : Asm.parseString code m.here.ip = some (str, next)) :
    ∃ vm₁ : VmInternal, Stands base vm₁ (m.goto next) ∧
      Vm.parseString vm = .ok (.obj vm₁.objs.length, { vm₁ with
        bytes := vm₁.bytes ++ [str ++ [0]]
        objs := vm₁.objs ++ [.string (Int64.ofNat str.length) vm₁.bytes.length] }) := by
  obtain ⟨env, henv, hhere, -⟩ := h.shows.scope.cases
  obtain ⟨c, hc, hcode⟩ := Option.bind_eq_some_iff.mp hcode
  have hc' : env.codeRef = some c := (congrArg Frame.codeRef hhere).trans hc
  have hip : env.ip = m.here.ip := congrArg Frame.ip hhere
  rw [← hip] at hparse
  exact ⟨vm.goto next, h.goto next, parseString_run henv hc' (h.shows.codes c code hcode) hparse⟩

/-- A string literal is a new string. -/
theorem goes_litString (h : Stands base vm m) {code : Code} (hcode : m.here.codeRef >>= m.codes = some code)
    {str : List UInt8} {next : ℕ} (hparse : Asm.parseString code m.here.ip = some (str, next))
    (hstr : 0 ∉ str) : Goes base opLitString vm ((m.goto next).push (.string str)) := by
  obtain ⟨vm₁, h1, hrun⟩ := h.parseString hcode hparse
  have hcstr : cstr str = str := cstr_eq_self fun b hb h => hstr (h ▸ hb)
  have hmeans : Means { vm₁ with
      bytes := vm₁.bytes ++ [str ++ [0]]
      objs := vm₁.objs ++ [.string (Int64.ofNat str.length) vm₁.bytes.length] } (.obj vm₁.objs.length)
      (.string str) := by
    refine .string (deref_alloc { vm₁ with bytes := vm₁.bytes ++ [str ++ [0]] } _) ?_
    simp [VmInternal.name, cstr?_append_zero, hcstr]
  exact .of_run hrun ⟨_, rfl, (h1.newString (str ++ [0]) _).push trivial hmeans⟩

/-- A symbol literal is the symbol of its name, which may be there already. -/
theorem goes_litSymbol (h : Stands base vm m) {code : Code} (hcode : m.here.codeRef >>= m.codes = some code)
    {name : List UInt8} {next : ℕ} (hparse : Asm.parseString code m.here.ip = some (name, next))
    (hname : 0 ∉ name) : Goes base (opLitSymbol host) vm ((m.goto next).push (.symbol name)) := by
  obtain ⟨vm₁, h1, hrun⟩ := h.parseString hcode hparse
  have hcstr : cstr name = name := cstr_eq_self fun b hb h => hname (h ▸ hb)
  have hbytes : cstr? (name ++ [0]) = some name := by rw [cstr?_append_zero, hcstr]
  have h2 := h1.newString (name ++ [0]) (Int64.ofNat name.length)
  obtain ⟨entries, hin⟩ := h1.ordered.interned
  obtain ⟨entries', hin'⟩ := h2.ordered.interned
  obtain rfl : entries = entries' := Option.some.inj (hin.table.symm.trans hin'.table)
  have hs := h2.ordered.sound
  have hstring := List.getElem?_concat_length (l := vm₁.objs)
    (a := .string (Int64.ofNat name.length) vm₁.bytes.length)
  refine .of_run hrun ?_
  cases hlookup : lookup entries name with
  | some r =>
    obtain ⟨n, length, bytes, rfl, hn, hname'⟩ := hin'.symbol_of_lookup hlookup
    refine .of_run (makeSymbol_run_found hin' hs hstring ?_ hlookup) ⟨_, rfl, h2.push trivial (.symbol hn hname')⟩
    simp [VmInternal.name, hbytes]
  | none =>
    have h3 := h1.newSymbol (Int64.ofNat name.length) hin hbytes hlookup
    refine .of_run (makeSymbol_run_new hin' hs hstring ?_ hlookup) ⟨_, rfl, ?_⟩
    · simp [VmInternal.name, hbytes]
    · simp only [List.set_append_right, le_refl, Nat.sub_self, List.set_cons_zero]
      refine h3.push trivial (.symbol List.getElem?_concat_length ?_)
      simp [VmInternal.name, hbytes]

/-- A jump that is made on `#f`. -/
theorem goes_jnf {target : Int64} (h : Stands base vm m) (hm : m.jnf target = some m') :
    Goes base (do
      let obj ← vmPop
      match ← load obj with
      | .bool false => pure ()
      | _ => jump target) vm m' := by
  unfold Machine.jnf at hm
  split at hm
  · next v s hstack =>
    obtain ⟨b, hb, rfl⟩ := Option.map_eq_some_iff.mp hm
    obtain ⟨r, cdr, hrun, -, hr, h1⟩ := h.pop hstack
    obtain ⟨o, ho, hiff⟩ := hr.deref_isFalse hb
    refine .of_run hrun (.of_run (load_means ho) ?_)
    by_cases hfalse : o = .bool false
    · rw [hiff.mpr hfalse]
      subst hfalse
      exact ⟨_, rfl, h1⟩
    · have hb' : b = false := Bool.eq_false_iff.mpr fun h => hfalse (hiff.mp h)
      subst hb'
      have hjump := goes_jump h1 target
      rcases o with _ | ⟨_ | _⟩ <;> first | exact hjump | exact absurd rfl hfalse
  · cases hm

/-- `call` pushes a closure of the place behind it and goes on in a new environment. -/
theorem goes_call (h : Stands base vm m) (target : Int64) : Goes base (do
      let vm ← get
      let closure ← Vm.alloc (.closure vm.env)
      vmPush closure
      pushEnv
      jump target) vm (m.call target) := by
  obtain ⟨env, henv, hhere, hscope⟩ := h.shows.scope.cases
  have hs := h.ordered.sound
  have hnew := h.newTable.enterCall (childEnv vm env)
    (Nat.lt_of_succ_lt hs.tables).ne' (by rintro p ⟨⟩; exact hs.current) h.shows.scope
  have hframe : frameOf (childEnv vm env) =
      { m.here with bindings := m.next, handler := false, handlerAddr := 0 } := by
    rw [← hhere, h.shows.next]
    rfl
  rw [hframe] at hnew
  exact .of_run rfl (.of_run rfl (.of_run rfl (.of_run (pushEnv_run henv) (goes_jump hnew target))))

/-- `proc` pushes a closure of where its label is. -/
theorem goes_proc (h : Stands base vm m) (target : Int64) : Goes base (do
      let vm ← get
      let env ← cloneEnv vm.env false
      editEnv env fun env => { env with ip := jumpTo env.ip target }
      let closure ← Vm.alloc (.closure env)
      vmPush closure) vm (m.proc target) := by
  obtain ⟨env, henv, hhere, hscope⟩ := h.shows.scope.cases
  have hs := h.ordered.sound
  have hbindings := hs.bindings_ne henv
  have hnew := h.newClosure { env with ip := jumpTo env.ip target } hbindings
    (fun p hp => hs.parent henv hp) hscope
  have hframe : frameOf { env with ip := jumpTo env.ip target } =
      { m.here with ip := jumpTo m.here.ip target } := by
    rw [← hhere]
    rfl
  rw [hframe] at hnew
  exact .of_run rfl (.of_run (cloneEnv_run henv) (.of_run (editEnv_run vm env _) hnew))

/-! ## A round

The fetch, the decoder and the instruction; which function of the source a byte is sent to is looked up in one
table on both sides. -/

/-- **The instructions without operand.** -/
theorem goes_plain {o : Op} (ho : o.operandKind = .none) (h : Stands base vm m)
    (hm : m.exec o .none = some m') : ∃ x, ops host throw o = some x ∧ Goes base x vm m' := by
  obtain ⟨hsound, -, htrue, hfalse⟩ := h.ordered
  cases o with
  | litEmpty =>
    cases hm
    exact ⟨_, rfl, goes_constant h hsound.isObj_empty (.empty hsound.deref_empty)⟩
  | litTrue =>
    cases hm
    exact ⟨_, rfl, goes_constant h hsound.booleans.1 (.bool htrue)⟩
  | litFalse =>
    cases hm
    exact ⟨_, rfl, goes_constant h hsound.booleans.2 (.bool hfalse)⟩
  | cons => exact ⟨_, rfl, goes_cons h hm⟩
  | car => exact ⟨_, rfl, goes_car h hm⟩
  | cdr => exact ⟨_, rfl, goes_cdr h hm⟩
  | swap =>
    simp only [Machine.exec] at hm
    split at hm
    · cases hm
      exact ⟨_, rfl, goes_swap h ‹_›⟩
    · cases hm
  | dupRef =>
    simp only [Machine.exec] at hm
    split at hm
    · cases hm
      exact ⟨_, rfl, goes_dupRef h ‹_›⟩
    · cases hm
  | drop =>
    simp only [Machine.exec] at hm
    split at hm
    · cases hm
      exact ⟨_, rfl, goes_drop h ‹_›⟩
    · cases hm
  | depth =>
    cases hm
    exact ⟨_, rfl, goes_depth h⟩
  | add => exact ⟨_, rfl, goes_calculate _ h hm⟩
  | sub => exact ⟨_, rfl, goes_calculate _ h hm⟩
  | mul => exact ⟨_, rfl, goes_calculate _ h hm⟩
  | div => exact ⟨_, rfl, goes_divide _ h hm⟩
  | mod => exact ⟨_, rfl, goes_divide _ h hm⟩
  | numericEqual => exact ⟨_, rfl, goes_numericLogic _ h hm⟩
  | numericLt => exact ⟨_, rfl, goes_numericLogic _ h hm⟩
  | numericGt => exact ⟨_, rfl, goes_numericLogic _ h hm⟩
  | not => exact ⟨_, rfl, goes_not h hm⟩
  | isEmpty => exact ⟨_, rfl, goes_isEmpty h hm⟩
  | ret => exact ⟨_, rfl, goes_ret h hm⟩
  | callIn => exact ⟨_, rfl, goes_callIn h hm⟩
  | tailCallIn => exact ⟨_, rfl, goes_tailCallIn h hm⟩
  | bind => exact ⟨_, rfl, goes_bind h hm⟩
  | read => exact ⟨_, rfl, goes_read h hm⟩
  | set => exact ⟨_, rfl, goes_set h hm⟩
  | _ => cases hm

/-- **The instructions with a target.** -/
theorem goes_target {o : Op} (ho : o.operandKind = .target) (h : Stands base vm m) {code : Code}
    (hcode : m.here.codeRef >>= m.codes = some code)
    (hm : (m.goto (m.here.ip + 8)).exec o (.int (Asm.parseInt code m.here.ip)) = some m') :
    ∃ x, ops host throw o = some x ∧ Goes base x vm m' := by
  obtain ⟨vm₁, hrun, h1⟩ := h.parseInt hcode
  cases o with
  | jmp =>
    cases hm
    exact ⟨_, rfl, .of_run hrun (goes_jump h1 _)⟩
  | jnf => exact ⟨_, rfl, .of_run hrun (goes_jnf h1 hm)⟩
  | call =>
    cases hm
    exact ⟨_, rfl, .of_run hrun (goes_call h1 _)⟩
  | proc =>
    cases hm
    exact ⟨_, rfl, .of_run hrun (goes_proc h1 _)⟩
  | «continue» => cases hm
  | _ => cases ho

/-- A character literal, of whose five bytes four are read. -/
theorem goes_litChar (h : Stands base vm m) {code : Code} (hcode : m.here.codeRef >>= m.codes = some code) :
    Goes base opLitChar vm ((m.goto (m.here.ip + 4)).push (.char (parseChar code m.here.ip))) := by
  obtain ⟨env, henv, hip, -, hcodeOf⟩ := h.code hcode
  have hnew := (h.moveIp (· + 4)).pushNew (o := .char (parseChar code m.here.ip)) trivial
    fun _ _ _ hn => .char hn
  rw [← hip] at hnew ⊢
  exact .of_run (ofOption_run henv) (.of_run hcodeOf (.of_run rfl hnew))

/-- **The virtual machine takes the step.** -/
theorem Stands.step (host : Host) (h : Stands base vm m) (hm : m.step = some m') :
    ∃ vm', Step host vm vm' ∧ Stands base vm' m' := by
  obtain ⟨code, hcode, hm⟩ := Option.bind_eq_some_iff.mp hm
  split at hm
  · next hlt =>
    obtain ⟨⟨instr, next⟩, hdecode, hexec⟩ := Option.bind_eq_some_iff.mp hm
    obtain ⟨env, henv, hip, hlength, hcodeOf⟩ := h.code hcode
    have hrunning : vm.running = true := by simp [VmInternal.running, henv, hip, hlength, hlt]
    have h1 : Stands base vm.fetched (m.goto (m.here.ip + 1)) := h.moveIp (· + 1)
    have hfetch : fetch vm = .ok (code m.here.ip, vm.fetched) := by
      rw [← hip]
      exact (run_bind (ofOption_run henv)).trans ((run_bind hcodeOf).trans (run_bind rfl))
    obtain ⟨o, ho, hdecode⟩ := Option.bind_eq_some_iff.mp hdecode
    have hop : ∃ x, ops host handleException o = some x ∧ Goes base x vm.fetched m' := by
      cases hkind : o.operandKind with
      | none =>
        simp only [hkind] at hdecode
        cases hdecode
        exact goes_plain hkind h1 hexec
      | target =>
        simp only [hkind] at hdecode
        cases hdecode
        exact goes_target (m := m.goto (m.here.ip + 1)) hkind h1 hcode hexec
      | fixnum =>
        simp only [hkind] at hdecode
        cases hdecode
        obtain ⟨vm₁, hrun, h2⟩ := h1.parseInt (m := m.goto (m.here.ip + 1)) hcode
        cases o with
        | litFixnum =>
          cases hexec
          exact ⟨_, rfl, .of_run hrun (h2.pushNew (o := .fixnum _) trivial fun _ _ _ hn => .fixnum hn)⟩
        | _ => cases hkind
      | char =>
        simp only [hkind] at hdecode
        cases hdecode
        cases o with
        | litChar =>
          cases hexec
          exact ⟨_, rfl, goes_litChar (m := m.goto (m.here.ip + 1)) h1 hcode⟩
        | _ => cases hkind
      | string =>
        simp only [hkind] at hdecode
        obtain ⟨⟨str, next'⟩, hparse, hdecode⟩ := Option.bind_eq_some_iff.mp hdecode
        cases hdecode
        cases o with
        | litString =>
          simp only [Machine.exec] at hexec
          split at hexec
          · cases hexec
          · cases hexec
            exact ⟨_, rfl, goes_litString (m := m.goto (m.here.ip + 1)) h1 hcode hparse ‹_›⟩
        | litSymbol =>
          simp only [Machine.exec] at hexec
          split at hexec
          · cases hexec
          · cases hexec
            exact ⟨_, rfl, goes_litSymbol (m := m.goto (m.here.ip + 1)) h1 hcode hparse ‹_›⟩
        | _ => cases hkind
    obtain ⟨x, hx, vm', hrun, hstands⟩ := hop
    refine ⟨vm', ⟨hrunning, ?_⟩, hstands⟩
    refine (run_bind hfetch).trans ?_
    simp only [ho, Option.bind_some, hx]
    exact hrun
  · cases hm

/-- **The virtual machine takes the run.** -/
theorem Stands.runs (host : Host) (h : Stands base vm m) (hm : Runs m m') :
    ∃ vm', Relation.ReflTransGen (Step host) vm vm' ∧ Stands base vm' m' := by
  induction hm with
  | refl => exact ⟨vm, .refl, h⟩
  | tail _ hstep ih =>
    obtain ⟨vm₁, hruns, h1⟩ := ih
    obtain ⟨vm', hstep', h'⟩ := h1.step host hstep
    exact ⟨vm', hruns.tail hstep', h'⟩

end

end Insomniac.Abstract

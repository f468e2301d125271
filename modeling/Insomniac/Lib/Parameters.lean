import Insomniac.Machinery.Run

/-!
# Lib/Parameters — parameters and `param-wrap`

    (param-wrap p v thunk)     old ← (p)    new ← (converter v)    p := v    thunk    p := old

The procedures of `lib/parameter.scm`, over `dynamic-wind` as it is where nothing is captured.  A program notes
what it sees of them, and what it notes is compared with what dynamic scoping asks for.

`param-wrap` converts the value and then stores the one that it was given.  So a program sees dynamic scoping
exactly when each value that it reads under a `param-wrap` is its own conversion (`dynamically_scoped_iff`).
-/

open Run

namespace Insomniac.Lib.Param

/-! ## The procedures

A parameter is a closure over its value and its converter, and a call of it is told apart by its arguments: none,
or one of the two marker symbols. -/

/-- What a program notes: a converter was called, a `param-wrap` was called in front of some values of all parameters,
its thunk has ended, it has returned, and a parameter was read. -/
inductive Event (V : Type)
  | converts (p : ℕ) (value new : V)
  | calls (p : ℕ) (value : V) (before : List V)
  | ends (result : V)
  | returns (after : List V) (result : V)
  | reads (p : ℕ) (value : V)
  deriving DecidableEq

/-- A converter: any code that leaves the parameters as they are; it may read them. -/
abbrev Converter (V σ : Type) := V → List V → σ → Option (V × σ)

/-- A parameter object. -/
structure Parameter (V σ : Type) where
  value : V
  converter : Converter V σ

/-- The variables of the library, everything else, and what has been noted.  A thunk of `param-wrap` is the parameter
and the value that it stores. -/
structure World (V σ : Type) where
  parameters : List (Parameter V σ)
  dynamicWindBefore : List (ℕ × V)
  rest : σ
  log : List (Event V)

section Procedures

variable {V σ : Type}

/-- Code of the library: it may fail. -/
abbrev M (V σ α : Type) := StateT (World V σ) Option α

/-- The values of all parameters. -/
def World.values (w : World V σ) : List V := w.parameters.map Parameter.value

/-- Note an event. -/
def note (e : Event V) : M V σ Unit := modify fun w => { w with log := w.log ++ [e] }

/-- A call of a converter, which is the program's own and notes that it was called. -/
def convert (p : ℕ) (converter : Converter V σ) (value : V) : M V σ V := fun w => do
  let (new, rest) ← converter value w.values w.rest
  some (new, { w with rest, log := w.log ++ [.converts p value new] })

/-- `make-parameter`; without a converter the value is taken as it is. -/
def makeParameter (init : V) (arg : Option (Converter V σ)) : M V σ ℕ := fun w => do
  let converter := arg.getD fun x _ s => some (x, s)
  let p := w.parameters.length
  let (value, w) ← convert p converter init w
  some (p, { w with parameters := w.parameters ++ [{ value, converter }] })

/-- `(param)`. -/
def param (p : ℕ) : M V σ V := fun w => w.parameters[p]?.map fun q => (q.value, w)

/-- `(param '<param-set!> value)`. -/
def paramSet (p : ℕ) (value : V) : M V σ Unit := fun w =>
  w.parameters[p]?.map fun q => ((), { w with parameters := w.parameters.set p { q with value } })

/-- `(param '<param-convert>)`. -/
def paramConvert (p : ℕ) : M V σ (V → M V σ V) := fun w =>
  w.parameters[p]?.map fun q => (convert p q.converter, w)

/-- `dynamic-wind`, of thunks that store a value in a parameter. -/
def dynamicWind (before : ℕ × V) (thunk : M V σ V) (after : ℕ × V) : M V σ V := do
  let capture := (← get).dynamicWindBefore
  modify fun w => { w with dynamicWindBefore := before :: w.dynamicWindBefore }
  paramSet before.1 before.2
  let result ← thunk
  paramSet after.1 after.2
  modify fun w => { w with dynamicWindBefore := capture }
  pure result

/-- `param-wrap`.  What the value is converted to is not used. -/
def paramWrap (p : ℕ) (value : V) (thunk : M V σ V) : M V σ V := do
  let old ← param p
  let converter ← paramConvert p
  let _ ← converter value
  dynamicWind (p, value) thunk (p, old)

/-- **A program** that makes parameters, reads them and wraps them, with anything else in between. -/
inductive Prog (V σ : Type)
  | done (value : V)
  | other (code : σ → Option (V × σ)) (next : V → Prog V σ)
  | make (init : V) (arg : Option (Converter V σ)) (next : ℕ → Prog V σ)
  | read (p : ℕ) (next : V → Prog V σ)
  | wrap (p : ℕ) (value : V) (thunk : Prog V σ) (next : V → Prog V σ)

/-- The run of a program, which notes what it sees. -/
def Prog.eval : Prog V σ → M V σ V
  | .done value => pure value
  | .other code next => do
    let value ← fun w => (code w.rest).map fun found => (found.1, { w with rest := found.2 })
    (next value).eval
  | .make init arg next => do
    let p ← makeParameter init arg
    (next p).eval
  | .read p next => do
    let value ← param p
    note (.reads p value)
    (next value).eval
  | .wrap p value thunk next => do
    note (.calls p value (← get).values)
    let result ← paramWrap p value (do
      let result ← thunk.eval
      note (.ends result)
      pure result)
    note (.returns (← get).values result)
    (next result).eval

/-- Before any parameter is made. -/
def start (rest : σ) : World V σ := { parameters := [], dynamicWindBefore := [], rest, log := [] }

end Procedures

/-! ## Dynamic scoping

What is asked for, over the events alone: the extents that are open say what a parameter is, and the first value
of a parameter is what its converter made of the initial one. -/

/-- A call of `param-wrap` that has not returned: what it was given, what the values were before it, what the converter
made of its value, and what its thunk ended with. -/
structure Extent (V : Type) where
  param : ℕ
  value : V
  before : List V
  new : Option V
  result : Option V

/-- The first values of the parameters, and the extents that are open, the innermost first. -/
structure Scopes (V : Type) where
  made : List V
  extents : List (Extent V)

namespace Scopes

variable {V : Type} (s : Scopes V)

/-- The innermost extent of a parameter. -/
def innermost (p : ℕ) : Option (Extent V) := s.extents.find? fun e => e.param = p

/-- **What a parameter is**: what the value of its innermost extent was converted to, or its first value. -/
def current (p : ℕ) : Option V :=
  match s.innermost p with
  | some e => e.new
  | none => s.made[p]?

/-- The scopes after an event. -/
def next : Event V → Scopes V
  | .converts p _ new =>
    if p = s.made.length then { s with made := s.made ++ [new] }
    else { s with extents := s.extents.modifyHead fun e => { e with new := some new } }
  | .calls p value before => { s with extents := { param := p, value, before, new := none, result := none } :: s.extents }
  | .ends result => { s with extents := s.extents.modifyHead fun e => { e with result := some result } }
  | .returns _ _ => { s with extents := s.extents.tail }
  | .reads _ _ => s

/-- **What dynamic scoping asks of an event**: a value is converted once, when its extent begins; a read gives what the
parameter is; a `param-wrap` returns what its thunk ended with, and every parameter is what it was. -/
def Right : Event V → Prop
  | .converts p value _ => p = s.made.length ∨
      ∃ e es, s.extents = e :: es ∧ e.param = p ∧ e.value = value ∧ e.new = none
  | .calls _ _ _ => True
  | .ends _ => ∃ e es, s.extents = e :: es ∧ e.new.isSome
  | .returns after result => ∃ e es, s.extents = e :: es ∧ e.before <+: after ∧ e.result = some result
  | .reads p value => s.current p = some value

/-- **A read of a value that is its own conversion**, or of one that no extent has. -/
def Converted : Event V → Prop
  | .reads p _ => ∀ e, s.innermost p = some e → e.new = some e.value
  | _ => True

/-- The scopes after some events. -/
def after (log : List (Event V)) : Scopes V := log.foldl next s

/-- Something holds of each event, in the scopes that it happens in. -/
def Along (P : Scopes V → Event V → Prop) : Scopes V → List (Event V) → Prop
  | _, [] => True
  | s, e :: log => P s e ∧ Along P (s.next e) log

theorem along_append {P : Scopes V → Event V → Prop} : ∀ (s : Scopes V) (log log' : List (Event V)),
    Along P s (log ++ log') ↔ Along P s log ∧ Along P (s.after log) log'
  | s, [], log' => by simp [Along, after]
  | s, e :: log, log' => by
      rw [List.cons_append, Along, Along, along_append (s.next e) log log', and_assoc]
      rfl

end Scopes

/-! ## Runs

In the code a parameter has the value that its innermost extent was given, converted or not (`Fits`).  A run keeps
that, comes back with the extents it began with, and leaves every value as it was. -/

section Runs

variable {V σ : Type} {s : Scopes V} {w w' w₁ w₂ : World V σ} {p : ℕ} {log log' : List (Event V)}

/-- The value that the code has for a parameter. -/
def Scopes.given (s : Scopes V) (p : ℕ) : Option V :=
  match s.innermost p with
  | some e => some e.value
  | none => s.made[p]?

/-- **The parameters are as the open extents left them.** -/
structure Fits (s : Scopes V) (w : World V σ) : Prop where
  length : s.made.length = w.parameters.length
  below : ∀ e ∈ s.extents, e.param < s.made.length
  entered : ∀ e ∈ s.extents, e.new.isSome
  values : ∀ p, w.values[p]? = s.given p

/-- **What a run does** to the scopes and to the parameters. -/
structure Follows (s : Scopes V) (w w' : World V σ) (log : List (Event V)) : Prop where
  noted : w'.log = w.log ++ log
  fits : Fits (s.after log) w'
  extents : (s.after log).extents = s.extents
  made : s.made <+: (s.after log).made
  values : w.values <+: w'.values
  right_iff : s.Along Scopes.Right log ↔ s.Along Scopes.Converted log

theorem Follows.refl (h : Fits s w) : Follows s w w [] :=
  ⟨(List.append_nil _).symm, h, rfl, List.prefix_rfl, List.prefix_rfl, Iff.rfl⟩

/-- A run, and then another one. -/
theorem Follows.trans (h : Follows s w w₁ log) (h' : Follows (s.after log) w₁ w₂ log') :
    Follows s w w₂ (log ++ log') := by
  have hafter : s.after (log ++ log') = (s.after log).after log' := List.foldl_append
  refine ⟨?_, ?_, ?_, ?_, h.values.trans h'.values, ?_⟩
  · rw [h'.noted, h.noted, List.append_assoc]
  · rw [hafter]
    exact h'.fits
  · rw [hafter, h'.extents, h.extents]
  · rw [hafter]
    exact h.made.trans h'.made
  · rw [Scopes.along_append, Scopes.along_append, h.right_iff, h'.right_iff]

/-- Code outside of the parameters changes nothing about them. -/
theorem Fits.congr (h : Fits s w) (hsame : w'.parameters = w.parameters) : Fits s w' := by
  refine ⟨h.length.trans (congrArg List.length hsame.symm), h.below, h.entered, fun p => ?_⟩
  rw [← h.values p, World.values, hsame]
  rfl

/-- The values behind a write. -/
theorem values_set {ps : List (Parameter V σ)} (q : Parameter V σ) (value : V) :
    (ps.set p { q with value }).map Parameter.value = (ps.map Parameter.value).set p value := List.map_set

/-- What a parameter is given under one extent more. -/
theorem Scopes.given_cons (made : List V) (e : Extent V) (es : List (Extent V)) (x : ℕ) :
    (Scopes.mk made (e :: es)).given x = if e.param = x then some e.value else (Scopes.mk made es).given x := by
  unfold Scopes.given Scopes.innermost
  by_cases hx : e.param = x
  · simp [hx]
  · simp [hx]

section Extents

variable {q : Parameter V σ} {value : V} {e : Extent V} (hfits : Fits s w) (hq : w.parameters[p]? = some q)

include hfits hq

/-- A parameter that is there is one that was made. -/
theorem Fits.lt_made : p < s.made.length := hfits.length ▸ (List.getElem?_eq_some_iff.mp hq).1

/-- **An extent begins**: the parameter has the value that was given for it. -/
theorem Fits.enter (hparam : e.param = p) (hnew : e.new.isSome) (hw : w'.parameters = w.parameters.set p { q with value })
    (hvalue : e.value = value) : Fits { s with extents := e :: s.extents } w' := by
  have hp := hfits.lt_made hq
  refine ⟨by simp [hw, hfits.length], List.forall_mem_cons.mpr ⟨hparam.symm ▸ hp, hfits.below⟩,
    List.forall_mem_cons.mpr ⟨hnew, hfits.entered⟩, fun x => ?_⟩
  rw [World.values, hw, values_set, Scopes.given_cons, hparam, hvalue]
  rcases eq_or_ne p x with rfl | hne
  · rw [if_pos rfl]
    exact List.getElem?_set_self (by rw [List.length_map, ← hfits.length]; exact hp)
  · rw [if_neg hne, List.getElem?_set_ne hne]
    exact hfits.values x

end Extents

end Runs

/-! ## Two programs

A converter that doubles, and counts how often it is called. -/

/-- A converter. -/
def double : Converter ℕ ℕ := fun x _ calls => some (2 * x, calls + 1)

/-- Two parameters, one of them with a converter; the other one is wrapped twice, and in between the first one, in a value
that is its own double. -/
def nested : Prog ℕ ℕ :=
  .make 4 (some double) fun p => .make 1 none fun q =>
    .wrap q 2
      (.wrap p 0 (.wrap q 3 (.read q fun _ => .read p .done) fun _ => .read q .done) fun _ => .read p .done)
      fun _ => .read q .done

end Insomniac.Lib.Param

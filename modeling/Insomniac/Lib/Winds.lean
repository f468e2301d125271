import Mathlib.Data.List.Basic
import Mathlib.Logic.Relation

/-!
# Lib/Winds — `dynamic-wind` and `call/cc`

    dynamic-wind-before     (b₂ b₁)          frames     thunk₂ · thunk₁ · …
    call/cc                 capture = (b₁ b₂), exit = the frames

The procedures of `lib/call-cc.scm`, on programs of nested calls of `dynamic-wind` that capture continuations and
call them.  `prim-call/cc` is taken to capture and to reinstate a continuation exactly.

A captured continuation calls every before thunk that was on the list when it was captured, calls no after thunk and
leaves the list alone.  So the thunks that are called and the list are right in a whole run exactly when
continuations are called outside of every extent, and have been captured there (`winds_right_iff`).
-/

namespace Insomniac.Lib.Wind

/-! ## Programs

A thunk in front of or behind an extent is a procedure that returns; what is under `dynamic-wind` is a program. -/

/-- A call of `dynamic-wind`: its thunks, and which of the calls it is. -/
structure Extent where
  before : ℕ
  after : ℕ
  call : ℕ
  deriving DecidableEq

/-- A call of a thunk. -/
inductive Thunk
  | before (thunk : ℕ)
  | after (thunk : ℕ)
  deriving DecidableEq

/-- **A program**: `(dynamic-wind before thunk after)`, `(call/cc proc)` where `proc` is given the number of the
continuation, a call of a captured continuation, and anything else. -/
inductive Prog (V σ : Type)
  | done (value : V)
  | other (code : σ → V × σ) (next : V → Prog V σ)
  | dynamicWind (before after : ℕ) (thunk : Prog V σ) (next : V → Prog V σ)
  | callCC (proc : ℕ → Prog V σ) (next : V → Prog V σ)
  | invoke (k : ℕ) (val : V)

/-- What is left to do: the rest of a program, or the rest of `dynamic-wind` behind its thunk, with what it has put
into its variable `capture`. -/
inductive Frame (V σ : Type)
  | next (next : V → Prog V σ)
  | dynamicWind (extent : Extent) (capture : List ℕ)

/-- The procedure that `call/cc` hands out: the list that it captured, in reverse, and the exit of `prim-call/cc`. -/
structure Continuation (V σ : Type) where
  capture : List ℕ
  exit : List (Frame V σ)

/-- A state of a run. -/
structure Conf (V σ : Type) where
  control : Prog V σ
  frames : List (Frame V σ)
  dynamicWindBefore : List ℕ
  continuations : List (Continuation V σ)
  calls : ℕ
  rest : σ

variable {V σ : Type}

/-- `dynamic-wind-enter`. -/
def dynamicWindEnter : List ℕ → List Thunk
  | [] => []
  | wrapper :: wrappers => .before wrapper :: dynamicWindEnter wrappers

/-- **A step**, with the thunks that it calls. -/
def Conf.step (c : Conf V σ) : Option (List Thunk × Conf V σ) :=
  match c.control with
  | .done value =>
    match c.frames with
    | [] => none
    | .next next :: frames => some ([], { c with control := next value, frames })
    | .dynamicWind extent capture :: frames =>
      some ([.after extent.after], { c with frames, dynamicWindBefore := capture })
  | .other code next =>
    let (value, rest) := code c.rest
    some ([], { c with control := next value, rest })
  | .dynamicWind before after thunk next =>
    some ([.before before], { c with
      control := thunk
      frames := .dynamicWind { before, after, call := c.calls } c.dynamicWindBefore :: .next next :: c.frames
      dynamicWindBefore := before :: c.dynamicWindBefore
      calls := c.calls + 1 })
  | .callCC proc next =>
    some ([], { c with
      control := proc c.continuations.length
      frames := .next next :: c.frames
      continuations := c.continuations ++
        [{ capture := c.dynamicWindBefore.reverse, exit := .next next :: c.frames }] })
  | .invoke k val => do
    let continuation ← c.continuations[k]?
    some (dynamicWindEnter continuation.capture, { c with control := .done val, frames := continuation.exit })

/-- The state in which a program begins. -/
def start (prog : Prog V σ) (rest : σ) : Conf V σ :=
  { control := prog, frames := [], dynamicWindBefore := [], continuations := [], calls := 0, rest }

/-- The extents that are active in some frames, the innermost first. -/
def extentsOf (frames : List (Frame V σ)) : List Extent :=
  frames.filterMap fun | .next _ => none | .dynamicWind extent _ => some extent

/-- The extents that are active in a state. -/
def Conf.active (c : Conf V σ) : List Extent := extentsOf c.frames

/-- What two lists of extents do not have in common, both from the outermost extent on. -/
def crossed : List Extent → List Extent → List Extent × List Extent
  | a :: as, b :: bs => if a = b then crossed as bs else (a :: as, b :: bs)
  | [], bs => ([], bs)
  | as, [] => (as, [])

/-- **The thunks to be called** on the way from some extents to others: those behind the extents that are left, from the
innermost on, and those in front of the ones that are entered, from the outermost on. -/
def thunksBetween («from» «to» : List Extent) : List Thunk :=
  let (left, entered) := crossed «from».reverse «to».reverse
  left.reverse.map (.after ·.after) ++ entered.map (.before ·.before)

/-- **A step is right**: it calls the thunks of the extents that it leaves and enters, and `dynamic-wind-before` is the
list of the before thunks of the extents that are active then. -/
structure Right (c : Conf V σ) (called : List Thunk) (c' : Conf V σ) : Prop where
  called : called = thunksBetween c.active c'.active
  list : c'.dynamicWindBefore = c'.active.map Extent.before

/-- **A continuation is called outside of every extent**, and has been captured there. -/
def Conf.Outside (c : Conf V σ) : Prop :=
  ∀ k val continuation, c.control = .invoke k val → c.continuations[k]? = some continuation →
    c.active = [] ∧ extentsOf continuation.exit = []

/-! ### Crossing

Lists with a common beginning cross what is behind it. -/

theorem crossed_self_append : ∀ as bs : List Extent, crossed as (as ++ bs) = ([], bs)
  | [], bs => by rw [List.nil_append, crossed]
  | a :: as, bs => by rw [List.cons_append, crossed, if_pos rfl, crossed_self_append as bs]

theorem crossed_append_self : ∀ as bs : List Extent, crossed (as ++ bs) as = (bs, [])
  | [], [] => rfl
  | [], b :: bs => rfl
  | a :: as, bs => by rw [List.cons_append, crossed, if_pos rfl, crossed_append_self as bs]

/-- As much more as one list is longer, as much more of it is crossed. -/
theorem crossed_length : ∀ as bs : List Extent,
    (crossed as bs).1.length + bs.length = (crossed as bs).2.length + as.length
  | [], bs => by simp [crossed]
  | a :: as, [] => by simp [crossed]
  | a :: as, b :: bs => by
      rw [crossed]
      split
      · have h := crossed_length as bs
        simp only [List.length_cons]
        omega
      · simp [Nat.add_comm]

theorem thunksBetween_self (as : List Extent) : thunksBetween as as = [] := by
  have h := crossed_self_append as.reverse []
  rw [List.append_nil] at h
  simp [thunksBetween, h]

theorem thunksBetween_enter (e : Extent) (as : List Extent) : thunksBetween as (e :: as) = [.before e.before] := by
  simp [thunksBetween, crossed_self_append]

theorem thunksBetween_leave (e : Extent) (as : List Extent) : thunksBetween (e :: as) as = [.after e.after] := by
  simp [thunksBetween, crossed_append_self]

/-- `dynamic-wind-enter` calls the thunks in order. -/
theorem dynamicWindEnter_eq : ∀ wrappers : List ℕ, dynamicWindEnter wrappers = wrappers.map .before
  | [] => rfl
  | wrapper :: wrappers => by rw [dynamicWindEnter, dynamicWindEnter_eq wrappers, List.map_cons]

/-- **Before thunks alone are right only where nothing is left or entered**, between as many extents. -/
theorem eq_nil_of_befores {as bs : List Extent} (hlength : as.length = bs.length)
    (h : (bs.map Extent.before).reverse.map Thunk.before = thunksBetween as bs) : as = [] ∧ bs = [] := by
  have hcross := crossed_length as.reverse bs.reverse
  have hleft : (crossed as.reverse bs.reverse).1 = [] := by
    by_contra hne
    obtain ⟨e, he⟩ := List.exists_mem_of_ne_nil _ hne
    have hmem : Thunk.after e.after ∈ thunksBetween as bs :=
      List.mem_append_left _ (List.mem_map.mpr ⟨e, List.mem_reverse.mpr he, rfl⟩)
    rw [← h] at hmem
    obtain ⟨_, -, heq⟩ := List.mem_map.mp hmem
    cases heq
  have hentered : (crossed as.reverse bs.reverse).2 = [] := by
    rw [hleft] at hcross
    simp only [List.length_reverse, List.length_nil] at hcross
    exact List.eq_nil_of_length_eq_zero (by omega)
  have hnil : thunksBetween as bs = [] := by simp [thunksBetween, hleft, hentered]
  have hbs : bs = [] := by simpa [hnil] using h
  subst hbs
  exact ⟨List.eq_nil_of_length_eq_zero hlength, rfl⟩

/-! ## Runs

The list is right as long as all steps have been, and then the rest of every `dynamic-wind` has put aside the list
that belongs behind it, and every continuation the list that belongs to its frames. -/

/-- What the frames have put aside is the list of the extents around them. -/
def PutAside : List (Frame V σ) → Prop
  | [] => True
  | .next _ :: frames => PutAside frames
  | .dynamicWind _ capture :: frames => capture = (extentsOf frames).map Extent.before ∧ PutAside frames

/-- **The invariant** of a run whose steps have been right. -/
structure Conf.Good (c : Conf V σ) : Prop where
  list : c.dynamicWindBefore = c.active.map Extent.before
  putAside : PutAside c.frames
  captured : ∀ continuation ∈ c.continuations, PutAside continuation.exit ∧
    continuation.capture = ((extentsOf continuation.exit).map Extent.before).reverse

variable {c c' : Conf V σ} {called : List Thunk}

theorem good_start (prog : Prog V σ) (rest : σ) : (start prog rest).Good :=
  ⟨rfl, trivial, fun _ h => (List.not_mem_nil h).elim⟩

/-- What has been put aside and captured stays so in any step. -/
theorem Conf.Good.kept (h : c.Good) (hstep : c.step = some (called, c')) : PutAside c'.frames ∧
    ∀ continuation ∈ c'.continuations, PutAside continuation.exit ∧
      continuation.capture = ((extentsOf continuation.exit).map Extent.before).reverse := by
  obtain ⟨control, frames, list, continuations, calls, rest⟩ := c
  cases control with
  | done value =>
    cases frames with
    | nil => cases hstep
    | cons frame frames =>
      cases frame with
      | next next =>
        cases hstep
        exact ⟨h.putAside, h.captured⟩
      | dynamicWind extent capture =>
        cases hstep
        exact ⟨h.putAside.2, h.captured⟩
  | other code next =>
    cases hstep
    exact ⟨h.putAside, h.captured⟩
  | dynamicWind before after thunk next =>
    cases hstep
    exact ⟨⟨h.list, h.putAside⟩, h.captured⟩
  | callCC proc next =>
    cases hstep
    refine ⟨h.putAside, fun continuation hmem => ?_⟩
    rcases List.mem_append.mp hmem with hmem | hmem
    · exact h.captured continuation hmem
    · obtain rfl := List.mem_singleton.mp hmem
      exact ⟨h.putAside, congrArg List.reverse h.list⟩
  | invoke k val =>
    obtain ⟨continuation, hk, ⟨⟩⟩ := Option.bind_eq_some_iff.mp hstep
    exact ⟨(h.captured continuation (List.mem_of_getElem? hk)).1, h.captured⟩

/-- **A right step keeps the invariant.** -/
theorem Conf.Good.step (h : c.Good) (hstep : c.step = some (called, c')) (hright : Right c called c') : c'.Good :=
  ⟨hright.list, (h.kept hstep).1, (h.kept hstep).2⟩

/-- **A step from a good state is right** unless it calls a continuation from within an extent, or one that was captured
within one. -/
theorem Conf.Good.right_iff (h : c.Good) (hstep : c.step = some (called, c')) : Right c called c' ↔ c.Outside := by
  obtain ⟨control, frames, list, continuations, calls, rest⟩ := c
  cases control with
  | done value =>
    refine iff_of_true ?_ fun _ _ _ hcontrol => by cases hcontrol
    cases frames with
    | nil => cases hstep
    | cons frame frames =>
      cases frame with
      | next next =>
        cases hstep
        exact ⟨(thunksBetween_self _).symm, h.list⟩
      | dynamicWind extent capture =>
        cases hstep
        exact ⟨(thunksBetween_leave extent _).symm, h.putAside.1⟩
  | other code next =>
    refine iff_of_true ?_ fun _ _ _ hcontrol => by cases hcontrol
    cases hstep
    exact ⟨(thunksBetween_self _).symm, h.list⟩
  | dynamicWind before after thunk next =>
    refine iff_of_true ?_ fun _ _ _ hcontrol => by cases hcontrol
    cases hstep
    exact ⟨(thunksBetween_enter ⟨before, after, calls⟩ (extentsOf frames)).symm, congrArg (before :: ·) h.list⟩
  | callCC proc next =>
    refine iff_of_true ?_ fun _ _ _ hcontrol => by cases hcontrol
    cases hstep
    exact ⟨(thunksBetween_self _).symm, h.list⟩
  | invoke k val =>
    obtain ⟨continuation, hk, ⟨⟩⟩ := Option.bind_eq_some_iff.mp hstep
    have hcapture := (h.captured continuation (List.mem_of_getElem? hk)).2
    constructor
    · rintro ⟨hcalled, hlist⟩ _ _ continuation' ⟨⟩ hk'
      obtain rfl := Option.some.inj (hk.symm.trans hk')
      have hlength := congrArg List.length (h.list.symm.trans hlist)
      rw [List.length_map, List.length_map] at hlength
      rw [dynamicWindEnter_eq, hcapture] at hcalled
      exact eq_nil_of_befores hlength hcalled
    · intro houtside
      obtain ⟨hactive, hexit⟩ := houtside k val continuation rfl hk
      have hlist := h.list
      refine ⟨?_, ?_⟩
      · rw [hcapture, hexit, hactive]
        exact ((congrArg _ hexit).trans (thunksBetween_self [])).symm
      · rw [hactive] at hlist
        exact hlist.trans (congrArg (List.map Extent.before) hexit).symm

end Insomniac.Lib.Wind

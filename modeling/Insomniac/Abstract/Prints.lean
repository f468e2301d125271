import Insomniac.Abstract.Simulate
import Insomniac.Abstract.Code
import Insomniac.Abstract.Known
import Insomniac.Vm.Output

/-!
# Abstract/Prints — runs that print

    m ──step──▸ … ──out v──▸ … ──out v'──▸ m'          Prints m [v, v'] m'

`out` takes a value off the stack and hands its text to the outside, which no other instruction of the
abstract machine speaks to.  The virtual machine takes such a run too: `output_object` ends for each of these
values, whatever was printed before, and the texts go out in this order (`Stands.prints`).
-/

open Bytes Insomniac.Asm Insomniac.Vm Run

namespace Insomniac.Abstract

/-- The step of `out`, and what it prints. -/
def Machine.out (m : Machine) : Option (Val × Machine) := do
  let code ← m.here.codeRef >>= m.codes
  if m.here.ip < m.here.length then
    let (instr, next) ← decodeAt code m.here.ip
    match instr.op, m.stack with
    | .output, v :: s => some (v, { m.goto next with stack := s })
    | _, _ => none
  else none

/-- **The runs that print some values.** -/
inductive Prints : Machine → List Val → Machine → Prop
  | refl (m : Machine) : Prints m [] m
  | step {m m' m'' : Machine} {vs : List Val} : m.step = some m' → Prints m' vs m'' → Prints m vs m''
  | out {m m' m'' : Machine} {v : Val} {vs : List Val} : m.out = some (v, m') → Prints m' vs m'' →
      Prints m (v :: vs) m''

section

variable {m m' m'' : Machine} {vs vs' : List Val}

/-- A run that prints nothing, before one. -/
theorem Prints.runs (h : Runs m m') (h' : Prints m' vs m'') : Prints m vs m'' := by
  induction h using Relation.ReflTransGen.head_induction_on with
  | refl => exact h'
  | head hstep _ ih => exact .step hstep ih

/-- One run behind the other prints what both print. -/
theorem Prints.trans (h : Prints m vs m') (h' : Prints m' vs' m'') : Prints m (vs ++ vs') m'' := by
  induction h with
  | refl => exact h'
  | step hstep _ ih => exact .step hstep (ih h')
  | out hout _ ih => exact .out hout (ih h')

end

/-! ## In its place

A token `out` in its place, and the printing of the parts of a run one behind the other. -/

/-- **`out`, where it stands.** -/
theorem Holds.out {L : Type} {labels : L → Option ℕ} {code : Code} {length ip : ℕ} {ts : List (Token L)}
    {m : Machine} {v : Val} {s : List Val} {plain : Op.output.operandKind = .none}
    (h : Holds labels code length ip (.op .output plain :: ts)) (hm : Executes m code length) :
    (m.at ip (v :: s)).out = some (v, m.at (ip + 1) s) := by
  have hlt : (m.at ip (v :: s)).here.ip < (m.at ip (v :: s)).here.length := by
    have hroom := h.room
    rw [codeSize_cons] at hroom
    have hlength : m.here.length = length := hm.2
    have hsize : (Token.op .output plain : Token L).size = 1 := rfl
    simp only [Machine.at]
    omega
  have hcode : (m.at ip (v :: s)).here.codeRef >>= (m.at ip (v :: s)).codes = some code := hm.1
  have hdecode : decodeAt code ip = some (⟨.output, .none⟩, ip + 1) := h.placed.decode rfl
  rw [Machine.out, hcode]
  change (if (m.at ip (v :: s)).here.ip < (m.at ip (v :: s)).here.length then _ else _) = _
  rw [if_pos hlt]
  change decodeAt code ip >>= _ = _
  rw [hdecode]
  rfl

/-- What `out` takes off the stack is known where all values are. -/
theorem Machine.Known.out {m m' : Machine} {v : Val} (h : m.Known) (hrun : m.out = some (v, m')) :
    v.known = true ∧ m'.Known := by
  obtain ⟨code, -, hrun⟩ := Option.bind_eq_some_iff.mp hrun
  split at hrun
  · obtain ⟨⟨instr, next⟩, -, hout⟩ := Option.bind_eq_some_iff.mp hrun
    dsimp only at hout
    split at hout
    · next w s _ hstack =>
      cases hout
      obtain ⟨hv, hs⟩ := h.cons hstack
      exact ⟨hv, (h.goto next).withStack hs⟩
    · cases hout
  · cases hrun

/-! ## The text of a value

A closure is printed with addresses, which are the host's; what else is known has one text in every state. -/

/-- **The text that `output_object` prints** of some object that means a value, from depth zero and back. -/
def Printed (host : Host) (text : List UInt8) (v : Val) : Prop :=
  ∃ vm r, Means vm r v ∧ outputObject host.printer vm outputMaxDepth (some r) ⟨[], 0⟩ = .ok ((), ⟨text, 0⟩)

/-- The text of a value that is neither a pair nor a closure: the same in every state, and for every host. -/
def Val.text : Val → Option (List UInt8)
  | .fixnum integer => some (decimal integer.toInt)
  | .bool boolean => some (if boolean then "#t" else "#f")
  | .char character => some (cstr (utf8EncodeChar character))
  | .string str | .symbol str => some str
  | .empty => some "()"
  | _ => none

/-- Such a value is printed with its text. -/
theorem Printed.text {host : Host} {text str : List UInt8} {v : Val} (h : Printed host text v)
    (hv : v.text = some str) : text = str := by
  obtain ⟨vm, r, hr, hrun⟩ := h
  have hprint : ∀ {o : Obj}, vm.deref r = some o →
      outputValue host.printer vm (outputObject host.printer vm (outputMaxDepth - 1)) r o = fprintf str →
      text = str := by
    intro o ho hvalue
    have hparts : outputValue host.printer vm (outputObject host.printer vm (outputMaxDepth - 1)) r o ⟨[], 1⟩ =
        .ok ((), ⟨str, 1⟩) := by
      rw [hvalue]
      rfl
    have hout : outputObject host.printer vm outputMaxDepth (some r) ⟨[], 0⟩ = .ok ((), ⟨str, 0⟩) :=
      outputObject_value (by decide) ho hparts
    cases hrun.symm.trans hout
    rfl
  cases hr with
  | ref | obj | pair | closure => cases hv
  | fixnum ho | bool ho | char ho | empty ho =>
    cases hv
    exact hprint ho rfl
  | string ho hname | symbol ho hname =>
    cases hv
    refine hprint ho ?_
    simp only [VmInternal.name] at hname
    simp only [outputValue, hname]

/-- A pointer to an object that a known value stands for. -/
def IsKnown (vm : VmInternal) (p : Ptr) : Prop := ∃ r v, p = some r ∧ Means vm r v ∧ v.known = true

section

variable {vm : VmInternal} {r : Ref} {v : Val}

/-- A reference to a known value is that of an object. -/
theorem Means.deref_of_known (h : Means vm r v) (hv : v.known = true) : ∃ o, vm.deref r = some o := by
  cases h with
  | ref | obj => cases hv
  | fixnum ho | bool ho | char ho | empty ho | string ho | symbol ho | pair ho | closure ho => exact ⟨_, ho⟩

/-- The two fields of a known pair are known. -/
theorem Means.fields_of_known (h : Means vm r v) (hv : v.known = true) {car cdr : Ptr}
    (ho : vm.deref r = some (.pair car cdr)) : IsKnown vm car ∧ IsKnown vm cdr := by
  cases h with
  | ref | obj => cases hv
  | pair hpair hcar hcdr =>
    obtain ⟨ha, hd⟩ := (Val.known_pair _ _).mp hv
    cases hpair.symm.trans ho
    exact ⟨⟨_, _, rfl, hcar, ha⟩, ⟨_, _, rfl, hcdr, hd⟩⟩
  | fixnum h | bool h | char h | empty h | string h | symbol h | closure h => cases h.symm.trans ho

/-- **Known values are printed to the end**: pairs lead to known values again, and nothing else that is known has
parts. -/
theorem graph_known (hs : Sound True vm) : vm.Graph (IsKnown vm) where
  valid := by
    rintro _ ⟨r, v, rfl, hr, hv⟩ _ ⟨⟩
    exact hr.deref_of_known hv
  pairs := by
    rintro _ car cdr ⟨r, v, ⟨⟩, hr, hv⟩ ho
    exact hr.fields_of_known hv ho
  vectors := by
    rintro _ length vector ⟨r, v, ⟨⟩, hr, hv⟩ ho
    cases hr with
    | ref | obj => cases hv
    | fixnum h | bool h | char h | empty h | string h | symbol h | pair h | closure h =>
      rcases ho with ho | ho <;> cases h.symm.trans ho
  strings := by
    rintro _ length bytes ⟨r, v, ⟨⟩, hr, hv⟩ ho
    cases hr with
    | ref | obj => cases hv
    | string h hname | symbol h hname =>
      rcases ho with ho | ho <;> cases h.symm.trans ho
      exact ⟨_, hname⟩
    | fixnum h | bool h | char h | empty h | pair h | closure h => rcases ho with ho | ho <;> cases h.symm.trans ho
  byteVectors := by
    rintro _ length vector ⟨r, v, ⟨⟩, hr, hv⟩ ho
    cases hr with
    | ref | obj => cases hv
    | fixnum h | bool h | char h | empty h | string h | symbol h | pair h | closure h => cases h.symm.trans ho
  closures := by
    rintro r env - ho
    cases r with
    | obj n => exact (hs.closures n env ho).1
    | cell n =>
      obtain ⟨c, -, hc⟩ := Option.map_eq_some_iff.mp ho
      cases hc
  parents e env parent henv hparent := (hs.parents e env parent henv hparent).1

/-- **A known value has a text.** -/
theorem Means.prints (printer : Printer) (h : Means vm r v) (hv : v.known = true) (hs : Sound True vm) :
    ∃ text, outputObject printer vm outputMaxDepth (some r) ⟨[], 0⟩ = .ok ((), ⟨text, 0⟩) := by
  refine (graph_known hs).prints printer ?_ ⟨r, v, rfl, h, hv⟩
  rintro ⟨r', v', hnone, -⟩
  cases hnone

end

/-! ## On the virtual machine

Printing changes no object: it adds a call to the log and leaves the static `depth` as it was.  So every fact
about values and stacks is carried over to the state behind it. -/

section

variable {vm : VmInternal} {m m' : Machine} {v : Val} {vs : List Val} {calls : List HostCall} {outputDepth : ℕ}

/-- What has been printed does not change what a reference means. -/
theorem Means.printed {r : Ref} (h : Means vm r v) : Means { vm with calls, outputDepth } r v := by
  induction h with
  | ref r => exact .ref r
  | obj ho => exact .obj ho
  | fixnum ho => exact .fixnum ho
  | bool ho => exact .bool ho
  | char ho => exact .char ho
  | string ho hname => exact .string ho hname
  | symbol ho hname => exact .symbol ho hname
  | empty ho => exact .empty ho
  | pair ho _ _ iha ihd => exact .pair ho iha ihd
  | closure ho hscope => exact .closure ho hscope

/-- The stack is what it was. -/
theorem listAt_printed {r : Ref} {l : List Ptr} (h : vm.ListAt r l) :
    VmInternal.ListAt { vm with calls, outputDepth } r l := by
  induction h with
  | nil => exact .nil
  | cons hr _ ih => exact .cons hr ih

/-- A binding means what it did. -/
theorem optionRel_printed {r : Option Ref} {w : Option Val} (h : Option.Rel (Means vm) r w) :
    Option.Rel (Means { vm with calls, outputDepth }) r w := by
  cases h with
  | some hr => exact .some hr.printed
  | none => exact .none

/-- Nor what a state shows. -/
theorem Shows.printed (h : Shows vm m) : Shows { vm with calls, outputDepth } m where
  codes := h.codes
  scope := h.scope
  stack := by
    obtain ⟨refs, hlist, hrefs⟩ := h.stack
    exact ⟨refs, listAt_printed hlist, hrefs.imp fun _ _ hr => hr.printed⟩
  depth := h.depth
  tables t bindings ht := by
    obtain ⟨hne, entries, hentries, hkept, hlookup⟩ := h.tables t bindings ht
    exact ⟨hne, entries, hentries, hkept, fun name => optionRel_printed (hlookup name)⟩
  next := h.next

/-- The state is in order as it was. -/
theorem Ordered.printed (h : Ordered vm) (text : List UInt8) :
    Ordered { vm with calls := .print text :: vm.calls, outputDepth } := by
  have hchanges : Changes Allow.names vm { vm with calls := .print text :: vm.calls, outputDepth } :=
    .single (.print vm text outputDepth)
  obtain ⟨entries, hin⟩ := h.interned
  exact ⟨hchanges.sound h.sound, (hchanges.interned h.sound hin).2, h.vmTrue, h.vmFalse⟩

/-- `out` is one byte. -/
theorem decodeAt_output {code : Code} {ip next : ℕ} {instr : Instr} (h : decodeAt code ip = some (instr, next))
    (hop : instr.op = .output) : Op.ofByte? (code ip) = some .output ∧ next = ip + 1 := by
  obtain ⟨o, ho, h⟩ := Option.bind_eq_some_iff.mp h
  cases o with
  | output =>
    cases h
    exact ⟨ho, rfl⟩
  | litString | litSymbol =>
    obtain ⟨⟨str, next'⟩, -, h⟩ := Option.bind_eq_some_iff.mp h
    cases h
    cases hop
  | _ =>
    cases h
    cases hop

/-- `output_object` on the standard output, where its text is known. -/
theorem printObject_run {printer : Printer} {r : Ref} {text : List UInt8} (hdepth : vm.outputDepth = 0)
    (hrun : outputObject printer vm outputMaxDepth (some r) ⟨[], 0⟩ = .ok ((), ⟨text, 0⟩)) :
    printObject printer r vm = .ok ((), { vm with calls := .print text :: vm.calls, outputDepth := 0 }) := by
  rw [printObject, hdepth, hrun]

/-- **The virtual machine prints.** -/
theorem Stands.out (host : Host) (h : Stands vm vm m) (hm : m.out = some (v, m')) (hv : v.known = true)
    (hdepth : vm.outputDepth = 0) :
    ∃ vm' text, Step host vm vm' ∧ Stands vm' vm' m' ∧ Printed host text v ∧ vm'.outputDepth = 0 ∧
      vm'.calls = .print text :: vm.calls ∧ vm'.exitStatus = vm.exitStatus := by
  obtain ⟨code, hcode, hm⟩ := Option.bind_eq_some_iff.mp hm
  split at hm
  · next hlt =>
    obtain ⟨⟨instr, next⟩, hdecode, hout⟩ := Option.bind_eq_some_iff.mp hm
    dsimp only at hout
    split at hout
    · next v' s hop hstack =>
      cases hout
      obtain ⟨ho, rfl⟩ := decodeAt_output hdecode hop
      obtain ⟨env, henv, hip, hlength, hcodeOf⟩ := h.code hcode
      have hrunning : vm.running = true := by simp [VmInternal.running, henv, hip, hlength, hlt]
      have h1 : Stands vm vm.fetched (m.goto (m.here.ip + 1)) := h.moveIp (· + 1)
      have hfetch : fetch vm = .ok (code m.here.ip, vm.fetched) := by
        rw [← hip]
        exact (run_bind (ofOption_run henv)).trans ((run_bind hcodeOf).trans (run_bind rfl))
      obtain ⟨r, cdr, hpop, -, hr, h2⟩ := h1.pop hstack
      let vm1 := vm.fetched.pop cdr
      have hdepth1 : vm1.outputDepth = 0 := h2.kept.outputDepth.trans hdepth
      obtain ⟨text, htext⟩ := hr.prints host.printer hv h2.ordered.sound
      refine ⟨{ vm1 with calls := .print text :: vm1.calls, outputDepth := 0 }, text, ⟨hrunning, ?_⟩,
        ⟨h2.ordered.printed text, h2.shows.printed, .refl _⟩, ⟨vm1, r, hr, htext⟩, rfl, ?_, h2.kept.exitStatus⟩
      · refine (run_bind hfetch).trans ?_
        simp only [ho, Option.bind_some]
        exact (run_bind hpop).trans (printObject_run hdepth1 htext)
      · exact congrArg _ h2.kept.calls
    · cases hout
  · cases hm

/-- **The virtual machine takes the run, and prints.** -/
theorem Stands.prints (host : Host) (h : Stands vm vm m) (hknown : m.Known) (hdepth : vm.outputDepth = 0)
    (hm : Prints m vs m') :
    ∃ vm' texts, Relation.ReflTransGen (Step host) vm vm' ∧ Ordered vm' ∧ Shows vm' m' ∧
      List.Forall₂ (Printed host) texts vs ∧ vm'.calls = texts.reverse.map .print ++ vm.calls ∧
        vm'.exitStatus = vm.exitStatus := by
  induction hm generalizing vm with
  | refl m => exact ⟨vm, [], .refl, h.ordered, h.shows, .nil, rfl, rfl⟩
  | step hstep _ ih =>
    obtain ⟨vm1, hstep1, h1⟩ := h.step host hstep
    obtain ⟨vm', texts, hsteps, hordered, hshows, htexts, hcalls, hexit⟩ :=
      ih ⟨h1.ordered, h1.shows, .refl vm1⟩ (hknown.step hstep) (h1.kept.outputDepth.trans hdepth)
    exact ⟨vm', texts, .head hstep1 hsteps, hordered, hshows, htexts, by rw [hcalls, h1.kept.calls],
      hexit.trans h1.kept.exitStatus⟩
  | out hout _ ih =>
    obtain ⟨hv, hknown'⟩ := hknown.out hout
    obtain ⟨vm1, text, hstep1, h1, htext, hdepth1, hcalls1, hexit1⟩ := h.out host hout hv hdepth
    obtain ⟨vm', texts, hsteps, hordered, hshows, htexts, hcalls, hexit⟩ := ih h1 hknown' hdepth1
    refine ⟨vm', text :: texts, .head hstep1 hsteps, hordered, hshows, .cons htext htexts, ?_, hexit.trans hexit1⟩
    rw [hcalls, hcalls1]
    simp

end

end Insomniac.Abstract

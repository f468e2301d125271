import Insomniac.Compile.Capture

/-!
# Compile/Library — whole programs with `prim-call/cc`

    preamble.asm ++ emit_stream tree ++ postamble.asm
    begin tree ──step──▸ ⋯ ──▸ ret v halt      ⇒      the machine prints the report of v, and ends

The routines of `prim-call/cc` are in the preamble of every program (`hasCallCc_of_sits`), and bound when the
program begins.  So whatever a program does with continuations, the machine does what its configurations do.
-/

open Insomniac.Asm Insomniac.Vm Insomniac.Abstract Insomniac.Lib

namespace Insomniac.Compile

/-! ## The routines, in the preamble

The preamble is one text, and the routines of `prim-call/cc` are a piece of its middle, whose labels lead to
where they stand. -/

section

variable {p : Program} {a b : ℕ} {ts : List Tok}

/-- Where tokens sit, there is room. -/
theorem Sits.room : ∀ {ts : List Tok} {a : ℕ} {t : Tok}, Sits p a (t :: ts) b → b ≤ p.length ∧ b < 2 ^ 63
  | [], a, t, h => by
      obtain rfl : a + t.size = b := h.rest
      exact ⟨h.2.2.1, h.2.1⟩
  | t' :: ts, a, t, h => h.rest.room

/-- Code in its place is a piece of the program. -/
theorem Sits.piece {t : Tok} (h : Sits p a (t :: ts) b) : Piece p.labels p.code p.length a b (t :: ts) := by
  have hend := h.end_eq
  refine ⟨⟨[], ?_⟩, hend, h.room.2⟩
  rw [List.append_nil]
  exact ⟨h.placed, hend ▸ h.room.1⟩

/-- **The routines of `prim-call/cc` are where they sit.** -/
theorem hasCallCc_of_sits (h : Sits p a (preambleCallCc ++ ts) b) :
    ∃ places, HasCallCc p.labels p.code p.length places := by
  obtain ⟨b', h, -⟩ := sits_append.mp h
  obtain ⟨a1, hempty, h⟩ := sits_append.mp h
  obtain ⟨a2, hemptyDone, h⟩ := sits_append.mp h
  obtain ⟨a3, hrestore, h⟩ := sits_append.mp h
  obtain ⟨a4, hrestoreDone, h⟩ := sits_append.mp h
  obtain ⟨a5, hexit, h⟩ := sits_append.mp h
  obtain ⟨a6, hentry, h⟩ := sits_append.mp h
  obtain ⟨a7, hsave, h⟩ := sits_append.mp h
  obtain ⟨a8, hsaveExit, hreturned⟩ := sits_append.mp h
  exact ⟨⟨a, a1, a2, a3, a4, a5, a6, a7, a8, b'⟩,
    { empty := hempty.piece
      emptyDone := hemptyDone.piece
      restore := hrestore.piece
      restoreDone := hrestoreDone.piece
      exit := hexit.piece
      entry := hentry.piece
      save := hsave.piece
      saveExit := hsaveExit.piece
      returned := hreturned.piece
      toReturn := hempty.label.1
      toEmpty := hempty.rest.label.1
      toEmptyDone := hemptyDone.label.1
      toRestore := hrestore.label.1
      toRestoreDone := hrestoreDone.label.1
      toExit := hexit.label.1
      toEntry := hentry.label.1
      toSave := hsave.label.1
      toSaveExit := hsaveExit.label.1 }⟩

/-- Where a routine that only calculates is in the preamble. -/
theorem Prim.sits (h : Sits p 0 (preamble ++ ts) b) (o : Prim) : ∃ a b, p.labels o.label = some a ∧ Sits p a o.code b := by
  obtain ⟨before, behind, heq⟩ : ∃ before behind, preamble = before ++ (.label o.label :: o.code ++ behind) := by
    cases o with
    | car => exact ⟨preamble.take 18, preamble.drop 24, rfl⟩
    | cdr => exact ⟨preamble.take 24, preamble.drop 30, rfl⟩
    | depth => exact ⟨preamble.take 5, preamble.drop 11, rfl⟩
  obtain ⟨_, h, -⟩ := sits_append.mp h
  rw [heq] at h
  obtain ⟨a, -, h⟩ := sits_append.mp h
  obtain ⟨b', h, -⟩ := sits_append.mp h
  exact ⟨a, b', h.label.1, h.rest⟩

end

/-! ## A program and its library

`Program.routines` are the closures that the preamble binds.  What a configuration says of the library is said
with them. -/

/-- The objects of the library of a program. -/
def Program.routines (p : Program) : Routines where
  callCc := p.routine p.main [p.root] "scheme-call-cc"
  exit t := .closure { p.main with
      ip := (p.labels "scheme-call-cc-exit").getD 0, bindings := t, handler := false, handlerAddr := 0 }
    [{ p.main with ip := (p.labels "scheme-call-cc").getD 0 }, p.root]
  prim o := p.routine p.main [p.root] o.label

/-- What a program begins with. -/
def Conf.begin (tree : Stream) : Conf where
  control := .eval [3, 2] (.stream tree false) .halt
  store := .main (.of (compilerCodeGen tree true))
  konts _ := none

/-- **Where the library of a program is.** -/
theorem exists_setting {p : Program} {b : ℕ} {ts : List Tok} {codes : ℕ → Option Code} (stop : ℕ)
    (hwithin : Within codes p.main p) (hsits : Sits p 0 (preamble ++ ts) b) :
    ∃ g : Setting, g.codes = codes ∧ g.p = p ∧ g.stop = stop ∧ g.routines = p.routines := by
  have hpre := hsits
  rw [preamble_eq, List.append_assoc, List.append_assoc] at hpre
  obtain ⟨_, -, hcallCc⟩ := sits_append.mp hpre
  obtain ⟨places, has⟩ := hasCallCc_of_sits hcallCc
  let g : Setting :=
    { codes, p, places, main := p.main, outer := [p.root], stop, within := hwithin, has, prims := Prim.sits hsits }
  refine ⟨g, rfl, rfl, rfl, ?_⟩
  have hentry : (p.labels "scheme-call-cc").getD 0 = places.entry := by rw [has.toEntry, Option.getD_some]
  have hexit : (p.labels "scheme-call-cc-exit").getD 0 = places.exit := by rw [has.toExit, Option.getD_some]
  rw [Program.routines, Program.routine, hentry, hexit]
  rfl

/-! ## From the first instruction on

The preamble is run as in `Compile/Whole`, and at the label of the program the machine mirrors the first
configuration. -/

/-- **The machine comes to every configuration of a program.** -/
theorem Conf.Steps.runs {tree : Stream} (hsize : codeSize (compilerCodeGen tree true) < 2 ^ 63) {p : Program}
    (hp : Program.of (compilerCodeGen tree true) = p) {c : Conf} (hsteps : Conf.Steps p.routines (.begin tree) c) :
    ∃ bytes m g, asmString (compilerCodeGen tree true) = some bytes ∧ Runs (begun bytes) m ∧ Mirrors g c m ∧ g.p = p ∧
      Sits p g.stop postamble p.length := by
  obtain ⟨bytes, m, a1, a2, hbytes, hstart, hstage, hhere, hsits, hcode, hpost⟩ := program_begins hsize hp
  have hwithin : Within m.codes m.here p := hstage.executing
  obtain ⟨g, hcodes, rfl, rfl, hroutines⟩ := exists_setting a2 (hhere ▸ hwithin) hsits
  rw [← hcodes] at hwithin
  have hrem : Remembers g (.main g.p) (fun _ => none) m := by
    refine ⟨hcodes.symm, hstage.agrees, fun t b ht => ?_, fun t k hk => ?_⟩
    · change (if t = 2 then _ else if t = 3 then _ else none) = _ at ht
      change t < 4
      grind
    · cases hk
  have hready : Ready g true .halt { m.here with ip := g.stop } m.outer [] := .halt hwithin rfl
  have hbegins : Begins g .halt { m.here with ip := a1 } m.outer [] (.stream tree false) :=
    .stream ⟨g.p, hwithin, hcode⟩ hready
  have hmirrors : Mirrors g (.begin tree) (m.at a1 []) := by
    rw [Conf.begin, hp]
    exact .eval hrem hstage.env hbegins
  rw [← hroutines] at hsteps
  obtain ⟨m', hruns, hmirrors'⟩ := hmirrors.steps hsteps
  exact ⟨bytes, m', g, hbytes, hstart.trans hruns, hmirrors', rfl, hpost⟩

/-- **The end of a program** is where its value is returned. -/
theorem Ready.stops {g : Setting} {pushed : Bool} {here : Frame} {outer : List Frame} {s : List Val}
    (h : Ready g pushed .halt here outer s) (hpushed : pushed = true) {store : Store} {konts : ℕ → Option Kont}
    {m : Machine} (hhere : m.here = here) (hrem : Remembers g store konts m) (w : Val) :
    Within g.codes here g.p ∧ Runs (m.at here.ip (w :: s)) (m.at g.stop [w]) := by
  generalize hk : Kont.halt = k at h
  induction h generalizing m with
  | halt hwithin hip =>
    refine ⟨hwithin, ?_⟩
    rw [hip]
  | jmp b hwithin hsits hl hready ih =>
    subst hhere
    obtain ⟨hwithin', hruns⟩ := ih hpushed (m := m.at b []) rfl (hrem.moved b []) hk
    exact ⟨hwithin', (hsits.jmp (hrem.executing hwithin) _ hl).trans hruns⟩
  | unit => cases hpushed
  | _ => cases hk

/-- What a program that comes to a value does. -/
theorem Conf.Steps.reports (host : Host) {tree : Stream} (hsize : codeSize (compilerCodeGen tree true) < 2 ^ 63)
    {p : Program} (hp : Program.of (compilerCodeGen tree true) = p) {v : Value} {store : Store} {konts : ℕ → Option Kont}
    (hsteps : Conf.Steps p.routines (.begin tree) ⟨.ret v .halt, store, konts⟩) :
    Reports host (compilerCodeGen tree true) v := by
  obtain ⟨bytes, m', g, hbytes, hruns, hmirrors, rfl, hpost⟩ := hsteps.runs hsize hp
  cases hmirrors with
  | @ret _ w _ _ _ m ip s hrem hw hready =>
    obtain ⟨hwithin, hend⟩ := hready.stops rfl (m := m.at ip []) rfl (hrem.moved ip []) w
    exact reports_of_runs host hbytes (hrem.executing hwithin) hpost (hrem.codes ▸ hw) (hruns.trans hend)

/-- **A program that comes to a value prints it and ends**, whatever continuations it captured on the way, and
whichever it went back to, and how often. -/
theorem program_with_continuations_ends (host : Host) {tree : Stream}
    (hsize : codeSize (compilerCodeGen tree true) < 2 ^ 63) {v : Value} {store : Store} {konts : ℕ → Option Kont}
    (hsteps : Conf.Steps (Program.of (compilerCodeGen tree true)).routines (.begin tree) ⟨.ret v .halt, store, konts⟩) :
    Reports host (compilerCodeGen tree true) v :=
  hsteps.reports host hsize rfl

namespace Reentry

def c : Text := .ofBytes [99]

def k : Text := .ofBytes [107]

def n : Text := .ofBytes [110]

def r : Text := .ofBytes [114]

def number (i : Int64) : Stream := .cons (.literal (.fixnum i)) .nil

def load (name : Text) : Stream := .cons (.load name) .nil

/-- `(prim-call/cc (lambda (c) (set! k c) 1))`. -/
def capture : Node := .call (load (.ofBytes (text "prim-call/cc")))
  (.cons (.lambda (.cons c .fixed) (.cons (.store (load c) k) (number 1))) .nil)

/-- `(define k 0) (define n 0) (define r` …`) (set! n (+ n r)) (if (< n 10) (k 4) n)`. -/
def program : Stream :=
  .cons (.bind (number 0) k) (.cons (.bind (number 0) n) (.cons (.bind (.cons capture .nil) r)
    (.cons (.store (.cons (.math .add (load n) (load r)) .nil) n)
      (.cons (.ifElse (.cons (.math .lt (load n) (number 10)) .nil)
        (.cons (.call (load k) (number 4)) .nil) (load n)) .nil))))

/-- Whether a configuration returns a number from the program. -/
def halts (i : Int64) (c : Conf) : Bool :=
  match c.control with
  | .ret (.fixnum j) .halt => i == j
  | _ => false

/-- A configuration that has come to its end with a number. -/
theorem of_halts {i : Int64} {c : Conf} (h : halts i c = true) :
    ∃ store konts, c = ⟨.ret (.fixnum i) .halt, store, konts⟩ := by
  obtain ⟨control, store, konts⟩ := c
  unfold halts at h
  split at h
  · next j hcontrol =>
    obtain rfl := eq_of_beq h
    exact ⟨store, konts, congrArg (Conf.mk · store konts) hcontrol⟩
  · cases h

/-- Whether a configuration calls continuation 4, and the program comes to a number when it goes on with `k`. -/
def goesBack (p : Program) (n : ℕ) (i : Int64) (k : Kont) (c : Conf) : Bool :=
  match c.control with
  | .call (.other f) (.pair v _) k' => f == p.routines.exit 4 && decide (k'.depth < 2 ^ 63) &&
      (Conf.run p.routines n ⟨.ret v k, c.store.skip, c.konts⟩).any (halts i)
  | _ => false

/-- A call of an exit procedure, and what comes of it. -/
theorem of_goesBack {p : Program} {n : ℕ} {i : Int64} {k : Kont} {c : Conf} (h : goesBack p n i k c = true) :
    ∃ v rest k' store konts store' konts', c = ⟨.call (.other (p.routines.exit 4)) (.pair v rest) k', store, konts⟩ ∧
      k'.depth < 2 ^ 63 ∧
      Conf.Steps p.routines ⟨.ret v k, store.skip, konts⟩ ⟨.ret (.fixnum i) .halt, store', konts'⟩ := by
  obtain ⟨control, store, konts⟩ := c
  unfold goesBack at h
  split at h
  · next f v rest k' hcontrol =>
    simp only [Bool.and_eq_true, decide_eq_true_eq] at h
    obtain ⟨⟨hf, hdepth⟩, hafter⟩ := h
    obtain rfl := eq_of_beq hf
    obtain ⟨c', hrun, hhalts⟩ := (Option.any_eq_true _ _).mp hafter
    obtain ⟨store', konts', rfl⟩ := of_halts hhalts
    exact ⟨v, rest, k', store, konts, store', konts', congrArg (Conf.mk · store konts) hcontrol, hdepth,
      Conf.steps_of_run _ hrun⟩
  · cases h

end Reentry

/-- The continuation of the definition of `r` is gone back to three times, and 13 is printed. -/
theorem program_with_continuations_ends_reentry :
    Reports Host.bare (compilerCodeGen Reentry.program true) (.fixnum 13) := by
  have hsize : codeSize (compilerCodeGen Reentry.program true) < 2 ^ 63 := by decide +kernel
  have hrun : ((Conf.begin Reentry.program).run (Program.of (compilerCodeGen Reentry.program true)).routines 167).any
      (Reentry.halts 13) = true := by decide +kernel
  obtain ⟨c', hrun, hhalts⟩ := (Option.any_eq_true _ _).mp hrun
  obtain ⟨store, konts, rfl⟩ := Reentry.of_halts hhalts
  exact program_with_continuations_ends Host.bare hsize (Conf.steps_of_run _ hrun)

/-- The exit procedure of a continuation is known by its frames. -/
theorem Program.role_exit (p : Program) (t : ℕ) : p.routines.role (p.routines.exit t) = some (.exit t) := by
  simp [Routines.role, Program.routines, Program.routine]

/-- At the beginning nothing has been captured. -/
theorem Conf.numbered_begin (tree : Stream) : (Conf.begin tree).Numbered := by
  intro t k hk
  cases hk

/-- A captured continuation takes what it is called with. -/
theorem Conf.Steps.goes_on {p : Program} {c c' : Conf} {t : ℕ} {k k' : Kont} {v rest : Value} {store : Store}
    {konts : ℕ → Option Kont} (hnumbered : c.Numbered) (hk : c.konts t = some k)
    (hcalled : Conf.Steps p.routines c ⟨.call (.other (p.routines.exit t)) (.pair v rest) k', store, konts⟩)
    (hdepth : k'.depth < 2 ^ 63) (hafter : Conf.Steps p.routines ⟨.ret v k, store.skip, konts⟩ c') :
    Conf.Steps p.routines c c' := by
  have hkept : konts t = some k := (hcalled.keeps hnumbered).2 t k hk
  refine hcalled.trans (.head ?_ hafter)
  change (Routines.role _ _).bind _ = _
  rw [Program.role_exit, Option.bind_some]
  change (if k'.depth < 2 ^ 63 then (konts t).map _ else none) = _
  rw [if_pos hdepth, hkept]
  rfl

/-- **A captured continuation goes on with what it is called with**, whenever it is called: what was left to do when
it was captured is done, and what is left to do where it is called is not. -/
theorem captured_continuation_goes_on (host : Host) {tree : Stream}
    (hsize : codeSize (compilerCodeGen tree true) < 2 ^ 63) {c : Conf} {t : ℕ} {k k' : Kont} {v rest v' : Value}
    {store store' : Store} {konts konts' : ℕ → Option Kont}
    (hcaptured : Conf.Steps (Program.of (compilerCodeGen tree true)).routines (.begin tree) c) (hk : c.konts t = some k)
    (hcalled : Conf.Steps (Program.of (compilerCodeGen tree true)).routines c
      ⟨.call (.other ((Program.of (compilerCodeGen tree true)).routines.exit t)) (.pair v rest) k', store, konts⟩)
    (hdepth : k'.depth < 2 ^ 63)
    (hafter : Conf.Steps (Program.of (compilerCodeGen tree true)).routines ⟨.ret v k, store.skip, konts⟩
      ⟨.ret v' .halt, store', konts'⟩) : Reports host (compilerCodeGen tree true) v' := by
  have hnumbered : c.Numbered := (hcaptured.keeps (Conf.numbered_begin tree)).1
  exact Conf.Steps.reports host hsize rfl (hcaptured.trans (hcalled.goes_on hnumbered hk hdepth hafter))

/-- The first time that the definition of `r` is gone back to. -/
theorem captured_continuation_goes_on_reentry : Reports Host.bare (compilerCodeGen Reentry.program true) (.fixnum 13) := by
  have hsize : codeSize (compilerCodeGen Reentry.program true) < 2 ^ 63 := by decide +kernel
  have hrun : ((Conf.begin Reentry.program).run (Program.of (compilerCodeGen Reentry.program true)).routines 24).any
      (fun c => (c.konts 4).any fun k => (c.run (Program.of (compilerCodeGen Reentry.program true)).routines 45).any
        (Reentry.goesBack (Program.of (compilerCodeGen Reentry.program true)) 97 13 k)) = true := by decide +kernel
  obtain ⟨c, hcaptured, hrun⟩ := (Option.any_eq_true _ _).mp hrun
  obtain ⟨k, hk, hrun⟩ := (Option.any_eq_true _ _).mp hrun
  obtain ⟨c', hcalled, hback⟩ := (Option.any_eq_true _ _).mp hrun
  obtain ⟨v, rest, k', store, konts, store', konts', rfl, hdepth, hafter⟩ := Reentry.of_goesBack hback
  exact captured_continuation_goes_on Host.bare hsize (Conf.steps_of_run _ hcaptured) hk (Conf.steps_of_run _ hcalled)
    hdepth hafter

/-- **A procedure that `prim-call/cc` is given, and that has a value**, has it where `prim-call/cc` was called. -/
theorem call_cc_returns (host : Host) {tree : Stream} (hsize : codeSize (compilerCodeGen tree true) < 2 ^ 63)
    {fuel : ℕ} {k : Kont} {proc rest v v' : Value} {store store1 store' : Store} {konts konts' : ℕ → Option Kont}
    (hcalled : Conf.Steps (Program.of (compilerCodeGen tree true)).routines (.begin tree)
      ⟨.call (.other (Program.of (compilerCodeGen tree true)).routines.callCc) (.pair proc rest) k, store, konts⟩)
    (hdepth : k.depth < 2 ^ 63)
    (heval : evalCall fuel proc
      (.pair (.other ((Program.of (compilerCodeGen tree true)).routines.exit store.next)) .empty) store.skip =
        .ok (v, store1))
    (hafter : Conf.Steps (Program.of (compilerCodeGen tree true)).routines
      ⟨.ret v k, store1, Function.update konts store.next (some k)⟩ ⟨.ret v' .halt, store', konts'⟩) :
    Reports host (compilerCodeGen tree true) v' :=
  Conf.Steps.reports host hsize rfl (hcalled.trans ((Conf.Steps.of_callCc (if_pos rfl) hdepth heval).trans hafter))

namespace Reentry

/-- Whether a configuration calls `prim-call/cc`, and the program comes to a number when it goes on with what the
procedure gives. -/
def captures (p : Program) (n : ℕ) (i : Int64) (c : Conf) : Bool :=
  match c.control with
  | .call (.other f) (.pair proc _) k => f == p.routines.callCc && decide (k.depth < 2 ^ 63) &&
      match evalCall 5 proc (.pair (.other (p.routines.exit c.store.next)) .empty) c.store.skip with
      | .ok (v, store1) =>
        (Conf.run p.routines n ⟨.ret v k, store1, Function.update c.konts c.store.next (some k)⟩).any (halts i)
      | .error _ => false
  | _ => false

/-- A call of `prim-call/cc`, and what comes of it. -/
theorem of_captures {p : Program} {n : ℕ} {i : Int64} {c : Conf} (h : captures p n i c = true) :
    ∃ proc rest k store konts v store1 store' konts',
      c = ⟨.call (.other p.routines.callCc) (.pair proc rest) k, store, konts⟩ ∧ k.depth < 2 ^ 63 ∧
      evalCall 5 proc (.pair (.other (p.routines.exit store.next)) .empty) store.skip = .ok (v, store1) ∧
      Conf.Steps p.routines ⟨.ret v k, store1, Function.update konts store.next (some k)⟩
        ⟨.ret (.fixnum i) .halt, store', konts'⟩ := by
  obtain ⟨control, store, konts⟩ := c
  unfold captures at h
  split at h
  · next f proc rest k hcontrol =>
    simp only [Bool.and_eq_true, decide_eq_true_eq] at h
    obtain ⟨⟨hf, hdepth⟩, h⟩ := h
    obtain rfl := eq_of_beq hf
    split at h
    · next v store1 heval =>
      obtain ⟨c', hrun, hhalts⟩ := (Option.any_eq_true _ _).mp h
      obtain ⟨store', konts', rfl⟩ := of_halts hhalts
      exact ⟨proc, rest, k, store, konts, v, store1, store', konts', congrArg (Conf.mk · store konts) hcontrol, hdepth,
        heval, Conf.steps_of_run _ hrun⟩
    · cases h
  · cases h

end Reentry

/-- Before any of it, the procedure that captures the continuation returns. -/
theorem call_cc_returns_reentry : Reports Host.bare (compilerCodeGen Reentry.program true) (.fixnum 13) := by
  have hsize : codeSize (compilerCodeGen Reentry.program true) < 2 ^ 63 := by decide +kernel
  have hrun : ((Conf.begin Reentry.program).run (Program.of (compilerCodeGen Reentry.program true)).routines 23).any
      (Reentry.captures (Program.of (compilerCodeGen Reentry.program true)) 132 13) = true := by decide +kernel
  obtain ⟨c, hcalled, hcaptures⟩ := (Option.any_eq_true _ _).mp hrun
  obtain ⟨proc, rest, k, store, konts, v, store1, store', konts', rfl, hdepth, heval, hafter⟩ :=
    Reentry.of_captures hcaptures
  exact call_cc_returns Host.bare hsize (Conf.steps_of_run _ hcalled) hdepth heval hafter

/-- **Every call is made on a stack as deep as what is left to do.**  In any run of a program, the machine comes
to each call: it has entered the procedure that is called, with a closure to return to and the arguments on top of
the stack.  The closure is the place where the continuation of the call goes on, and what is below the arguments are
the values that this continuation holds, no more and no fewer. -/
theorem calls_stack_continuation (host : Host) {tree : Stream} (hsize : codeSize (compilerCodeGen tree true) < 2 ^ 63)
    {f args : Value} {k : Kont} {store : Store} {konts : ℕ → Option Kont}
    (hsteps : Conf.Steps (Program.of (compilerCodeGen tree true)).routines (.begin tree) ⟨.call f args k, store, konts⟩) :
    ∃ bytes vm' g m here outer ret chain arg s, asmString (compilerCodeGen tree true) = some bytes ∧
      Relation.ReflTransGen (Step host) (startBytes bytes vmCreate) vm' ∧
      Shows vm' (Machine.entering m here outer ret chain arg s) ∧
      g.p = Program.of (compilerCodeGen tree true) ∧ Remembers g store konts m ∧
      Denotes g.codes f (.closure here outer) ∧ Denotes g.codes args arg ∧ Ready g true k ret chain s ∧
      s.length = k.depth ∧ vm'.depth = k.depth + 2 := by
  obtain ⟨bytes, m', g, hbytes, hruns, hmirrors, hp, -⟩ := hsteps.runs hsize rfl
  have hstands : Stands (startBytes bytes vmCreate) (startBytes bytes vmCreate) (begun bytes) :=
    ⟨ordered_begun bytes, shows_begun bytes, .refl _⟩
  obtain ⟨vm', hvm, hstands'⟩ := hstands.runs host hruns
  cases hmirrors with
  | @call f args arg k store konts m here ret outer chain s hrem hf harg hready =>
    refine ⟨bytes, vm', g, m, here, outer, ret, chain, arg, s, hbytes, hvm, hstands'.shows, hp, hrem, hf, harg, hready,
      hready.depth, ?_⟩
    rw [hstands'.shows.depth, ← hready.depth]
    rfl

namespace Reentry

/-- `(define k 0) (define n 0) (* 2 …)`, with `…` `(prim-call/cc (lambda (c) (set! k c) 1))`, `(set! n (+ n 1))`,
`(if (< n 3) (k 4) (depth))`. -/
def deep : Stream :=
  .cons (.bind (number 0) k) (.cons (.bind (number 0) n) (.cons (.math .mul (number 2)
    (.cons capture (.cons (.store (.cons (.math .add (load n) (number 1)) .nil) n)
      (.cons (.ifElse (.cons (.math .lt (load n) (number 3)) .nil) (.cons (.call (load k) (number 4)) .nil)
        (.cons (.call (load (.ofBytes (text "depth"))) .nil) .nil)) .nil)))) .nil))

/-- Whether a configuration calls `depth` behind an operand, with continuation 4 captured. -/
def counts (p : Program) (c : Conf) : Bool :=
  match c.control with
  | .call (.other f) _ k => f == p.routines.prim .depth && k.depth == 1 && (c.konts 4).isSome
  | _ => false

/-- A call of the routine that pushes the depth, behind a capture. -/
theorem of_counts {p : Program} {c : Conf} (h : counts p c = true) : ∃ args k store konts,
    k.depth = 1 ∧ konts 4 ≠ none ∧ c = ⟨.call (.other (p.routines.prim .depth)) args k, store, konts⟩ := by
  obtain ⟨control, store, konts⟩ := c
  unfold counts at h
  split at h
  · next f args k hcontrol =>
    simp only [Bool.and_eq_true] at h
    obtain ⟨⟨hf, hdepth⟩, hkonts⟩ := h
    obtain rfl := eq_of_beq hf
    exact ⟨args, k, store, konts, eq_of_beq hdepth, Option.isSome_iff_ne_none.mp hkonts,
      congrArg (Conf.mk · store konts) hcontrol⟩
  · cases h

end Reentry

/-- The operand has been put back twice when `depth` is called, and there is one of it. -/
theorem calls_stack_continuation_deep : ∃ bytes vm' g m here outer ret chain arg s store konts,
    asmString (compilerCodeGen Reentry.deep true) = some bytes ∧
    Relation.ReflTransGen (Step Host.bare) (startBytes bytes vmCreate) vm' ∧
    Shows vm' (Machine.entering m here outer ret chain arg s) ∧ Remembers g store konts m ∧ konts 4 ≠ none ∧
    .closure here outer = (Program.of (compilerCodeGen Reentry.deep true)).routines.prim .depth ∧
    s.length = 1 ∧ vm'.depth = 3 := by
  have hsize : codeSize (compilerCodeGen Reentry.deep true) < 2 ^ 63 := by decide +kernel
  have hrun : ((Conf.begin Reentry.deep).run (Program.of (compilerCodeGen Reentry.deep true)).routines 136).any
      (Reentry.counts (Program.of (compilerCodeGen Reentry.deep true))) = true := by decide +kernel
  obtain ⟨c, hrun, hcounts⟩ := (Option.any_eq_true _ _).mp hrun
  obtain ⟨args, k, store, konts, hdepth, hkonts, rfl⟩ := Reentry.of_counts hcounts
  obtain ⟨bytes, vm', g, m, here, outer, ret, chain, arg, s, hbytes, hvm, hshows, -, hrem, hf, -, -, hlength, heq⟩ :=
    calls_stack_continuation Host.bare hsize (Conf.steps_of_run _ hrun)
  rw [hdepth] at hlength heq
  refine ⟨bytes, vm', g, m, here, outer, ret, chain, arg, s, store, konts, hbytes, hvm, hshows, hrem, hkonts, ?_,
    hlength, heq⟩
  cases hf
  rfl

end Insomniac.Compile

import Insomniac.Abstract.Prints
import Insomniac.Compile.Whole

/-!
# Compile/Ending — a whole program, to its end

    _main ──▸ value ──▸ "Returned: " value ──▸ stack_dump ──▸ exit

Behind a program stands the postamble, which prints the value that the program left on the stack, and then
the stack below it, of which there is none.  So a program that has a value prints it, and the machine stops
behind the last instruction (`program_ends`).
-/

open Insomniac.Asm Insomniac.Vm Insomniac.Abstract Insomniac.Lib

namespace Insomniac.Compile

section

variable {p : Program} {m : Machine} {a b : ℕ} {ts : List Tok}

/-! ## Printing, in its place

The token `out` hands on what is on top; what `output_object` writes for it is looked at only when the whole run
is taken by the virtual machine. -/

/-- The value on top is printed. -/
theorem Sits.out {plain : Op.output.operandKind = .none} (h : Sits p a (.op .output plain :: ts) b)
    (hm : Executing m p) (v : Val) (s : List Val) :
    ∃ a', Sits p a' ts b ∧ Prints (m.at a (v :: s)) [v] (m.at a' s) :=
  ⟨a + 1, h.rest, .out (h.holds.out hm) (.refl _)⟩

/-- A character is printed. -/
theorem Sits.outChar {c : UInt32} {plain : Op.output.operandKind = .none}
    (h : Sits p a (.char c :: .op .output plain :: ts) b) (hm : Executing m p) (s : List Val) :
    ∃ a', Sits p a' ts b ∧ Prints (m.at a s) [.char c] (m.at a' s) := by
  obtain ⟨a', hsits, hout⟩ := h.rest.out hm (.char c) s
  exact ⟨a', hsits, hout.runs (h.holds.step hm rfl rfl)⟩

/-- A text is printed. -/
theorem Sits.outString {str : List UInt8} (hstr : 0 ∉ str) {plain : Op.output.operandKind = .none}
    (h : Sits p a (.string str :: .op .output plain :: ts) b) (hm : Executing m p) (s : List Val) :
    ∃ a', Sits p a' ts b ∧ Prints (m.at a s) [.string str] (m.at a' s) := by
  obtain ⟨a', hsits, hout⟩ := h.rest.out hm (.string str) s
  have hcstr : Bytes.cstr str = str := Bytes.cstr_eq_self fun b hb hzero => hstr (hzero ▸ hb)
  refine ⟨a', hsits, hout.runs (h.holds.step hm rfl ?_)⟩
  rw [hcstr]
  exact if_neg hstr

end

/-! ## The postamble

It calls its own routines with `call` and comes back with `ret`, so it is followed jump by jump.  The stack that
it dumps is the one below the value, and that one is empty. -/

/-- What `stack_dump` prints of an empty stack. -/
def emptyDump : List Val := [.string "Dumping Stack", .char 10, .char 10, .string "Empty", .char 10]

/-- What is printed of a value. -/
def report (v : Val) : List Val :=
  [.char 10, .char 10, .string "-----------------------------------", .char 10, .string "Returned: ", v, .char 10] ++
    emptyDump

/-- The texts of a report. -/
def reportTexts (text : List UInt8) : List (List UInt8) :=
  ["\n", "\n", "-----------------------------------", "\n", "Returned: ", text, "\n", "Dumping Stack", "\n", "\n",
    "Empty", "\n"]

/-- A value with a text is printed as that text. -/
theorem printed_texts {host : Host} {texts strs : List (List UInt8)} {vs : List Val}
    (h : List.Forall₂ (Printed host) texts vs) (hvs : vs.map Val.text = strs.map some) : texts = strs := by
  induction h generalizing strs with
  | nil => exact (List.map_eq_nil_iff.mp hvs.symm).symm
  | cons hv _ ih =>
    obtain ⟨str, strs, rfl, hstr, hstrs⟩ := List.map_eq_cons_iff.mp hvs.symm
    rw [hv.text hstr.symm, ih hstrs.symm]

/-- **What is printed of a report**: only the text of the value is open. -/
theorem report_texts {host : Host} {texts : List (List UInt8)} {v : Val}
    (h : List.Forall₂ (Printed host) texts (report v)) : ∃ text, Printed host text v ∧ texts = reportTexts text := by
  have hsplit : report v = (report .empty).take 5 ++ v :: (report .empty).drop 6 := rfl
  rw [hsplit] at h
  have hfront : texts.take 5 = (reportTexts []).take 5 :=
    printed_texts (List.forall₂_take_append texts _ _ h) (by decide +kernel)
  obtain ⟨text, rest, hv, hrest, hdrop⟩ := List.forall₂_cons_right_iff.mp (List.forall₂_drop_append texts _ _ h)
  have hback : rest = (reportTexts []).drop 6 := printed_texts hrest (by decide +kernel)
  refine ⟨text, hv, ?_⟩
  calc texts = texts.take 5 ++ texts.drop 5 := (List.take_append_drop 5 texts).symm
    _ = (reportTexts []).take 5 ++ text :: (reportTexts []).drop 6 := by
      rw [hfront, ← hback]
      exact congrArg _ hdrop
    _ = reportTexts text := rfl

section

variable {p : Program} {m : Machine} {a b : ℕ} {v : Val}

/-- **`stack_dump` of an empty stack**, from its label on, and back. -/
theorem stackDump_prints (hm : Executing m p) {ts : List Tok} (hsits : Sits p a (stackDump ++ (stackDumpLoop ++
    (stackDumpExit ++ (stackDumpRestore ++ (stackDumpDone ++ ts))))) b)
    (hnew : m.tables m.here.bindings = some fun _ => none) (here : Frame) (outer : List Frame) :
    ∃ m' : Machine, m'.codes = m.codes ∧
      Prints (m.at a [.closure here outer]) emptyDump ((m'.switch here outer).at here.ip []) := by
  obtain ⟨a1, hdump, hsits⟩ := sits_append.mp hsits
  obtain ⟨a2, hloop, hsits⟩ := sits_append.mp hsits
  obtain ⟨a3, hexit, hsits⟩ := sits_append.mp hsits
  obtain ⟨a4, hrestore, hsits⟩ := sits_append.mp hsits
  obtain ⟨a5, hdone, -⟩ := sits_append.mp hsits
  let ret : Val := .closure here outer
  obtain ⟨c1, hdump, htitle⟩ := hdump.rest.outString (by decide +kernel) hm [ret]
  obtain ⟨c2, hdump, hline⟩ := hdump.outChar hm [ret]
  have hempty : Runs (m.at c2 [ret]) (m.at (c2 + 1) [.empty, ret]) := hdump.op hm rfl
  obtain ⟨c3, hend, hbind⟩ := hdump.rest.bind hm (by decide +kernel) hnew .empty [ret]
  obtain rfl : c3 = a1 := hend
  let b1 : Bindings := Function.update (fun _ => none) "stack-save" (some .empty)
  let m1 := m.setTable m.here.bindings b1
  have hm1 : Executing m1 p := hm
  have hdepth : Runs (m1.at c3 [ret]) (m1.at (c3 + 1) [.fixnum 1, ret]) := hloop.rest.op hm1 rfl
  have hone : Runs (m1.at (c3 + 1) [.fixnum 1, ret]) (m1.at (c3 + 1 + 9) [.fixnum 1, .fixnum 1, ret]) :=
    hloop.rest.rest.holds.step hm1 rfl rfl
  have hsub : Runs (m1.at (c3 + 1 + 9) [.fixnum 1, .fixnum 1, ret]) (m1.at (c3 + 1 + 9 + 1) [.fixnum 0, ret]) :=
    hloop.rest.rest.rest.op hm1 rfl
  have hzero : Runs (m1.at (c3 + 1 + 9 + 1) [.fixnum 0, ret])
      (m1.at (c3 + 1 + 9 + 1 + 9) [.fixnum 0, .fixnum 0, ret]) := hloop.rest.rest.rest.rest.holds.step hm1 rfl rfl
  have heq : Runs (m1.at (c3 + 1 + 9 + 1 + 9) [.fixnum 0, .fixnum 0, ret])
      (m1.at (c3 + 1 + 9 + 1 + 9 + 1) [.bool true, ret]) := hloop.rest.rest.rest.rest.rest.op hm1 rfl
  have hjnf := hloop.rest.rest.rest.rest.rest.rest.jnf hm1 [ret] hexit.label (v := .bool true) rfl
  have hnothing : Runs (m1.at c3 [ret]) (m1.at a2 [ret]) :=
    hdepth.trans (hone.trans (hsub.trans (hzero.trans (heq.trans hjnf))))
  obtain ⟨c4, hexit, hline2⟩ := hexit.rest.outChar hm1 [ret]
  obtain ⟨c5, hexit, hword⟩ := hexit.outString (by decide +kernel) hm1 [ret]
  obtain ⟨c6, hexit, hline3⟩ := hexit.outChar hm1 [ret]
  have hfind := findFrame_here (m := m1) (setTable_tables m _ b1) (Function.update_self ..)
  obtain ⟨c7, hend, hread⟩ := hexit.read hm1 (by decide +kernel) hfind [ret]
  obtain rfl : c7 = a3 := hend
  have hdup : Runs (m1.at c7 [.empty, ret]) (m1.at (c7 + 1) [.empty, .empty, ret]) := hrestore.rest.op hm1 rfl
  have hnull : Runs (m1.at (c7 + 1) [.empty, .empty, ret]) (m1.at (c7 + 1 + 1) [.bool true, .empty, ret]) :=
    hrestore.rest.rest.op hm1 rfl
  have hjnf2 := hrestore.rest.rest.rest.jnf hm1 [.empty, ret] hdone.label (v := .bool true) rfl
  have hdrop : Runs (m1.at a4 [.empty, ret]) (m1.at (a4 + 1) [ret]) := hdone.rest.op hm1 rfl
  have hret : Runs (m1.at (a4 + 1) [ret]) ((m1.switch here outer).at here.ip []) := hdone.rest.rest.op hm1 rfl
  have hback : Runs (m1.at c7 [.empty, ret]) ((m1.switch here outer).at here.ip []) :=
    hdup.trans (hnull.trans (hjnf2.trans (hdrop.trans hret)))
  refine ⟨m1, rfl, ?_⟩
  refine htitle.trans (hline.trans (.runs (hempty.trans (hbind.trans hnothing)) ?_))
  exact hline2.trans (hword.trans (hline3.trans (.runs (hread.trans hback) (.refl _))))

/-- **The postamble** prints the value on the stack, and comes to the end. -/
theorem postamble_prints (hm : Executing m p) (hsits : Sits p a postamble b) (v : Val) :
    ∃ m', Same m m' ∧ Prints (m.at a [v]) (report v) (m'.at b []) := by
  obtain ⟨a1, hsits, hrest⟩ := sits_append.mp hsits
  obtain ⟨a2, -, hdump⟩ := sits_append.mp hrest
  obtain ⟨_, -, hexit⟩ := sits_append.mp hdump
  obtain ⟨_, -, hexit⟩ := sits_append.mp hexit
  obtain ⟨_, -, hexit⟩ := sits_append.mp hexit
  obtain ⟨_, -, hexit⟩ := sits_append.mp hexit
  obtain ⟨_, -, hexit⟩ := sits_append.mp hexit
  obtain rfl : _ = b := hexit.rest
  obtain ⟨c1, hsits, hline1⟩ := hsits.outChar hm [v]
  obtain ⟨c2, hsits, hline2⟩ := hsits.outChar hm [v]
  obtain ⟨c3, hsits, hrule⟩ := hsits.outString (by decide +kernel) hm [v]
  obtain ⟨c4, hsits, hline3⟩ := hsits.outChar hm [v]
  obtain ⟨c5, hsits, hword⟩ := hsits.outString (by decide +kernel) hm [v]
  obtain ⟨c6, hsits, hvalue⟩ := hsits.out hm v []
  obtain ⟨c7, hsits, hline4⟩ := hsits.outChar hm []
  have hcall := hsits.call hm [] hdump.label
  let m1 := (m.at (c7 + 9) [.closure { m.here with ip := c7 + 9 } m.outer]).child
  obtain ⟨m2, hcodes, hprints⟩ := stackDump_prints (m := m1) hm hdump (Function.update_self ..)
    { m.here with ip := c7 + 9 } m.outer
  have hm2 : Executing (m2.switch m.here m.outer) p := by
    refine ⟨?_, hm.2⟩
    change m.here.codeRef >>= m2.codes = some p.code
    rw [hcodes]
    exact hm.1
  have hjmp := hsits.rest.jmp hm2 [] hexit.label
  refine ⟨m2.switch m.here m.outer, ⟨hcodes, rfl, rfl⟩, ?_⟩
  refine hline1.trans (hline2.trans (hrule.trans (hline3.trans (hword.trans (hvalue.trans (hline4.trans ?_))))))
  exact .runs hcall (hprints.trans (.runs hjmp (.refl _)))

end

/-! ## The whole program

The preamble, the program and the postamble are three runs in one piece of code, and the tokens say where each
begins. -/

/-- A state at the end of its code is done. -/
theorem not_running {vm : VmInternal} {m : Machine} (h : Shows vm m) (hend : m.here.ip = m.here.length) :
    vm.running = false := by
  obtain ⟨env, henv, hhere, -⟩ := h.scope.cases
  have hip : env.ip = m.here.ip := congrArg Frame.ip hhere
  have hlength : env.length = m.here.length := congrArg Frame.length hhere
  simp [VmInternal.running, henv, hip, hlength, hend]

/-- **A program ends with the report of a value.**  It assembles; a new machine that is given it comes to the end
of the code, with nothing on the stack, and has printed the texts of the report around the text that `output_object`
prints of the value, and nothing else. -/
def Reports (host : Host) (program : List Tok) (v : Value) : Prop :=
  ∃ bytes vm' m' w text, asmString program = some bytes ∧
    Relation.ReflTransGen (Step host) (startBytes bytes vmCreate) vm' ∧ vm'.running = false ∧ Ordered vm' ∧
    Shows vm' m' ∧ m'.stack = [] ∧ Denotes m'.codes v w ∧ Printed host text w ∧
    vm'.calls = (reportTexts text).reverse.map .print ∧ vm'.exitStatus = 0

/-- Nothing is on the stack of a new machine, and nothing is bound in it. -/
theorem known_begun (bytes : List UInt8) : (begun bytes).Known where
  stack v hv := absurd hv List.not_mem_nil
  tables t bindings ht name v hv := by
    simp only [begun, Option.ite_none_right_eq_some] at ht
    obtain ⟨-, ⟨⟩⟩ := ht
    cases hv

/-- **What a new machine comes to**: the code of a program, with the postamble behind it. -/
theorem program_begins {tree : Stream} (hsize : codeSize (compilerCodeGen tree true) < 2 ^ 63) {p : Program}
    (hp : Program.of (compilerCodeGen tree true) = p) :
    ∃ bytes m a1 a2, asmString (compilerCodeGen tree true) = some bytes ∧ Runs (begun bytes) (m.at a1 []) ∧
      Stage p [3, 2] (.main p) m ∧ m.here = p.main ∧ Sits p 0 (preamble ++ ((emitStream tree false 0).1 ++ postamble))
        p.length ∧ Sits p a1 (emitStream tree false 0).1 a2 ∧ Sits p a2 postamble p.length := by
  obtain ⟨bytes, hbytes⟩ := compiler_code_assembles tree true
  have hsits := compilerCodeGen_sits hsize
  have hwhole : compilerCodeGen tree true = preamble ++ ((emitStream tree false 0).1 ++ postamble) :=
    withPreamble_eq _
  have hend : p.length = codeSize (compilerCodeGen tree true) := hp ▸ rfl
  rw [hp, ← hend] at hsits
  obtain ⟨m, hstart, hstage, hhere⟩ : ∃ m, Runs (begun bytes) (m.at (codeSize preamble) []) ∧
      Stage p [3, 2] (.main p) m ∧ m.here = p.main := by
    rw [hwhole] at hp hbytes hsize
    subst hp
    exact startup_runs hbytes hsize hsits
  obtain ⟨a1, hpre, hrest⟩ := sits_append.mp hsits
  obtain ⟨a2, hcode, hpost⟩ := sits_append.mp hrest
  have ha1 : codeSize preamble = a1 := by rw [hpre.end_eq, Nat.zero_add]
  rw [ha1] at hstart
  exact ⟨bytes, m, a1, a2, hbytes, hstart, hstage, hhere, hsits, hcode, hpost⟩

/-- **A machine that comes to the postamble with a value** alone on the stack reports it. -/
theorem reports_of_runs (host : Host) {program : List Tok} {bytes : List UInt8} {p : Program} {m : Machine} {a : ℕ}
    {v : Value} {w : Val} (hbytes : asmString program = some bytes) (hm : Executing m p)
    (hpost : Sits p a postamble p.length) (hw : Denotes m.codes v w) (hruns : Runs (begun bytes) (m.at a [w])) :
    Reports host program v := by
  obtain ⟨m', hsame, hprints⟩ := postamble_prints hm hpost w
  have hstands : Stands (startBytes bytes vmCreate) (startBytes bytes vmCreate) (begun bytes) :=
    ⟨ordered_begun bytes, shows_begun bytes, .refl _⟩
  obtain ⟨vm', texts, hsteps, hordered, hshows, htexts, hcalls, hexit⟩ :=
    hstands.prints host (known_begun bytes) rfl (.runs hruns hprints)
  have hdone : vm'.running = false := not_running hshows (hsame.executing hm).2.symm
  obtain ⟨text, htext, rfl⟩ := report_texts htexts
  refine ⟨bytes, vm', m'.at p.length [], w, text, hbytes, hsteps, hdone, hordered, hshows, rfl, ?_, htext, ?_, hexit⟩
  · change Denotes m'.codes v w
    rw [hsame.codes]
    exact hw
  · rw [hcalls]
    exact List.append_nil _

/-- **A program that has a value prints it and ends.** -/
theorem program_ends (host : Host) {tree : Stream} (hsize : codeSize (compilerCodeGen tree true) < 2 ^ 63) {fuel : ℕ}
    {v : Value} {store' : Store}
    (heval : evalStream fuel [3, 2] tree (.main (.of (compilerCodeGen tree true))) = .ok (v, store')) :
    Reports host (compilerCodeGen tree true) v := by
  obtain ⟨bytes, m, a1, a2, hbytes, hstart, hstage, -, -, hcode, hpost⟩ := program_begins hsize rfl
  obtain ⟨m1, w, hsame, hw, -, hruns⟩ := (correct fuel).stream (s := []) hstage heval hcode .next
  exact reports_of_runs host hbytes (hsame.executing hstage.executing) hpost (hsame.codes ▸ hw) (hstart.trans hruns)

/-- `((lambda (x) (* x 2)) 21)`. -/
def doubling : Stream :=
  let x : Text := .ofBytes [120]
  let number (i : Int64) : Stream := .cons (.literal (.fixnum i)) .nil
  let body : Stream := .cons (.math .mul (.cons (.load x) .nil) (number 2)) .nil
  .cons (.call (.cons (.lambda (.cons x .fixed) body) .nil) (number 21)) .nil

/-- It prints 42. -/
theorem program_ends_doubling : ∃ bytes vm', asmString (compilerCodeGen doubling true) = some bytes ∧
    Relation.ReflTransGen (Step Host.bare) (startBytes bytes vmCreate) vm' ∧ vm'.running = false ∧
    vm'.calls = (["\n", "\n", "-----------------------------------", "\n", "Returned: ", "42", "\n", "Dumping Stack",
      "\n", "\n", "Empty", "\n"] : List (List UInt8)).reverse.map .print := by
  have hsize : codeSize (compilerCodeGen doubling true) < 2 ^ 63 := by decide +kernel
  obtain ⟨store', heval⟩ : ∃ store', evalStream 20 [3, 2] doubling (.main (.of (compilerCodeGen doubling true))) =
      .ok (.fixnum 42, store') := ⟨_, rfl⟩
  obtain ⟨bytes, vm', m', w, text, hbytes, hsteps, hdone, -, -, -, hw, htext, hcalls, -⟩ :=
    program_ends Host.bare hsize heval
  cases hw
  obtain rfl : text = "42" := htext.text (by decide +kernel)
  exact ⟨bytes, vm', hbytes, hsteps, hdone, hcalls⟩

end Insomniac.Compile

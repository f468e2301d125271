import Insomniac.Abstract.Simulate
import Insomniac.Compile.Correct
import Insomniac.Vm.Runs

/-!
# Compile/Program — a compiled program on the virtual machine

    pre ++ emit_stream tree ++ post  ──asm_string──▸  code  ──vm_eval──▸  … a ──▸ … ──▸ b …

What is emitted for a stream stands somewhere in a program that is assembled and run.  When the machine
comes to it, with any stack and in any chain of environments, it computes the value of the stream.
-/

open Insomniac.Asm Insomniac.Vm Insomniac.Abstract Insomniac.Lib

namespace Insomniac.Compile

/-! ## In its place

The tokens of the program are known, so where the code of the stream begins and ends is the size of the tokens
in front. -/

/-- **The code of a stream, in an assembled program.**  Behind it stand other labels. -/
structure Compiled (tree : Stream) (tail : Bool) (index : ℕ) (pre post : List Tok) (p : Program) : Prop where
  fits : codeSize (pre ++ ((emitStream tree tail index).1 ++ post)) ≤ p.length
  lt : p.length < 2 ^ 63
  assembled : ∃ bytes, asmString (pre ++ ((emitStream tree tail index).1 ++ post)) = some bytes ∧
    p.code.Spells 0 bytes
  labels : p.labels = (Assembler.run (pre ++ ((emitStream tree tail index).1 ++ post))).labels
  others : ∀ l ∈ definedLabels (emitStream tree tail index).1, l ∉ definedLabels post

/-- What is emitted for the stream sits in the program. -/
theorem Compiled.sits {tree : Stream} {tail : Bool} {index : ℕ} {pre post : List Tok} {p : Program}
    (h : Compiled tree tail index pre post p) :
    Sits p (codeSize pre) (emitStream tree tail index).1
      (codeSize pre + codeSize (emitStream tree tail index).1) := by
  obtain ⟨hfits, hlt, ⟨bytes, hbytes, hcode⟩, hlabels, hothers⟩ := h
  have hsize := hfits.trans_lt hlt
  obtain ⟨-, hplaced⟩ := asm_string_placed hsize (label_mem_of_asmString hbytes) hbytes hcode
  have hmiddle := hplaced.append_right
  rw [← hlabels, Nat.zero_add] at hmiddle
  refine sits_of_placed hmiddle ?_ (emitStream_fresh tree tail index).nodup hothers
  rw [codeSize_append] at hfits
  exact hfits

/-- A program that is a stream alone. -/
theorem compiled_alone {tree : Stream} {tail : Bool} {index : ℕ} {bytes : List UInt8}
    (hbytes : asmString (emitStream tree tail index).1 = some bytes)
    (hsize : codeSize (emitStream tree tail index).1 < 2 ^ 63) :
    Compiled tree tail index [] []
      { labels := (Assembler.run (emitStream tree tail index).1).labels
        code := fun i => bytes.getD i 0
        length := bytes.length } := by
  have hcode : Code.Spells (fun i => bytes.getD i 0) 0 bytes := fun i hi => by
    rw [Nat.zero_add]
    exact List.getD_eq_getElem _ _ hi
  obtain ⟨hlength, -⟩ := asm_string_placed hsize (label_mem_of_asmString hbytes) hbytes hcode
  have happend : [] ++ ((emitStream tree tail index).1 ++ []) = (emitStream tree tail index).1 := List.append_nil _
  exact
    { fits := by rw [happend, hlength]
      lt := hlength ▸ hsize
      assembled := ⟨bytes, by rw [happend]; exact hbytes, hcode⟩
      labels := by rw [happend]
      others := fun _ _ => List.not_mem_nil }

/-! ## On the virtual machine

A new machine is in order, shows the abstract machine at its beginning, and agrees with a store that has no
scope but the first. -/

/-- **The code of a stream anywhere in a program**: where it is, on what stack it is run, and how it is
left. -/
structure Site (tree : Stream) (tail : Bool) where
  p : Program
  index : ℕ
  start : ℕ
  stop : ℕ
  stack : List Val
  exit : Machine → Val → Machine
  sits : Sits p start (emitStream tree tail index).1 stop
  leaves : Leaves p tail stop stack exit

namespace Site

variable {tree : Stream} {tail : Bool} {site : Site tree tail} {env : List ℕ} {store store' : Store}
  {vm : VmInternal} {m : Machine} {v : Value}

/-- The virtual machine stands before the code. -/
structure Before (site : Site tree tail) (env : List ℕ) (store : Store) (vm : VmInternal) (m : Machine) : Prop where
  ordered : Ordered vm
  shows : Shows vm (m.at site.start site.stack)
  stage : Stage site.p env store m

/-- **It leaves the code with a value.** -/
def Behind (site : Site tree tail) (host : Host) (vm : VmInternal) (m : Machine) (v : Value) (store' : Store) :
    Prop :=
  ∃ vm' m' w, Relation.ReflTransGen (Step host) vm vm' ∧ Shows vm' (site.exit m' w) ∧
    Same m m' ∧ Denotes m.codes v w ∧ Agrees store' m' ∧ Ordered vm' ∧ Kept vm vm'

/-- **The code computes what the stream means**, wherever it is. -/
theorem Before.behind (host : Host) (h : site.Before env store vm m) {fuel : ℕ}
    (heval : evalStream fuel env tree store = .ok (v, store')) : site.Behind host vm m v store' := by
  obtain ⟨m', w, hsame, hw, hagrees, hruns⟩ := (correct fuel).stream h.stage heval site.sits site.leaves
  have hstands : Stands vm vm (m.at site.start site.stack) := ⟨h.ordered, h.shows, .refl vm⟩
  obtain ⟨vm', hsteps, hstands'⟩ := hstands.runs host hruns
  exact ⟨vm', m', w, hsteps, hstands'.shows, hsame, hw, hagrees, hstands'.ordered, hstands'.kept⟩

end Site

/-- What a new machine shows when it begins to run some bytes. -/
def begun (bytes : List UInt8) : Machine where
  codes c := if c = 0 then some fun i => bytes.getD i 0 else none
  here :=
    { codeRef := some 0
      length := bytes.length
      ip := 0
      bindings := 2
      handler := false
      handlerAddr := 0 }
  outer := []
  stack := []
  tables t := if t = 2 then some fun _ => none else none
  next := 3

/-- A new machine with a program is in order. -/
theorem ordered_begun (bytes : List UInt8) : Ordered (startBytes bytes vmCreate) := by
  have hload : Call vmCreate (loadCode (fun i => bytes.getD i 0) vmCreate) := .load vmCreate _
  have heval : Call (loadCode (fun i => bytes.getD i 0) vmCreate) (startBytes bytes vmCreate) :=
    .eval _ rfl (by simp [loadCode])
  have hs := hload.sound (sound_vmCreate True)
  obtain ⟨-, hin⟩ := hload.interned (sound_vmCreate True) interned_vmCreate
  exact ⟨heval.sound hs, ⟨[], (heval.interned hs hin).2⟩, rfl, rfl⟩

/-- It shows the abstract machine with that program. -/
theorem shows_begun (bytes : List UInt8) : Shows (startBytes bytes vmCreate) (begun bytes) where
  codes c code hc := by
    simp only [begun, Option.ite_none_right_eq_some] at hc
    obtain ⟨rfl, hc⟩ := hc
    exact hc
  scope := by
    have henv : (startBytes bytes vmCreate).envs[0]? =
        some { rootEnv 2 with ip := 0, codeRef := some 0, length := bytes.length } := rfl
    exact Scope.cons henv .nil
  stack := ⟨[], .nil, .nil⟩
  depth := rfl
  tables t bindings ht := by
    simp only [begun, Option.ite_none_right_eq_some] at ht
    obtain ⟨rfl, ⟨⟩⟩ := ht
    exact ⟨by decide, [], rfl, rfl, fun _ => .none⟩
  next := rfl

/-- What is known of a new machine. -/
def Store.begun : Store where
  scopes t := if t = 2 then some fun _ => none else none
  next := 3

theorem agrees_begun (bytes : List UInt8) : Agrees .begun (begun bytes) where
  next := rfl
  scopes t bindings ht := by
    simp only [Store.begun, Option.ite_none_right_eq_some] at ht
    obtain ⟨rfl, ⟨⟩⟩ := ht
    exact ⟨_, rfl, fun _ => .none⟩

/-- The code of a stream that is a program. -/
def Site.alone {tree : Stream} {index : ℕ} {bytes : List UInt8}
    (hbytes : asmString (emitStream tree false index).1 = some bytes)
    (hsize : codeSize (emitStream tree false index).1 < 2 ^ 63) : Site tree false where
  p :=
    { labels := (Assembler.run (emitStream tree false index).1).labels
      code := fun i => bytes.getD i 0
      length := bytes.length }
  index := index
  start := 0
  stop := codeSize (emitStream tree false index).1
  stack := []
  exit m w := m.at (codeSize (emitStream tree false index).1) [w]
  sits := by
    have hsits := (compiled_alone hbytes hsize).sits
    rw [codeSize_nil, Nat.zero_add] at hsits
    exact hsits
  leaves := .next

/-- A new machine stands before it. -/
theorem Site.before_alone {tree : Stream} {index : ℕ} {bytes : List UInt8}
    (hbytes : asmString (emitStream tree false index).1 = some bytes)
    (hsize : codeSize (emitStream tree false index).1 < 2 ^ 63) :
    (Site.alone hbytes hsize).Before [2] .begun (startBytes bytes vmCreate) (begun bytes) where
  ordered := ordered_begun bytes
  shows := shows_begun bytes
  stage := ⟨⟨rfl, rfl⟩, rfl, agrees_begun bytes⟩

/-- **Compiler correctness.** -/
theorem compiled_code_computes (host : Host) {tree : Stream} {index : ℕ} {pre post : List Tok} {p : Program}
    (hcompiled : Compiled tree false index pre post p) {vm : VmInternal} {m : Machine} (hordered : Ordered vm)
    (hshows : Shows vm m) (hm : Executing m p) (hip : m.here.ip = codeSize pre) {store store' : Store}
    (hagrees : Agrees store m) {fuel : ℕ} {v : Value}
    (heval : evalStream fuel (scopesOf (m.here :: m.outer)) tree store = .ok (v, store')) :
    ∃ vm' m' w, Relation.ReflTransGen (Step host) vm vm' ∧
      Shows vm' (m'.at (codeSize pre + codeSize (emitStream tree false index).1) (w :: m.stack)) ∧
        Same m m' ∧ Denotes m.codes v w ∧ Agrees store' m' ∧ Ordered vm' ∧ Kept vm vm' := by
  have hstage : Stage p (scopesOf (m.here :: m.outer)) store m := ⟨hm, rfl, hagrees⟩
  obtain ⟨m', w, hsame, hw, hagrees', hruns⟩ :=
    (correct fuel).stream (s := m.stack) hstage heval hcompiled.sits .next
  rw [← hip, Machine.at_self] at hruns
  have hstands : Stands vm vm m := ⟨hordered, hshows, .refl vm⟩
  obtain ⟨vm', hsteps, hstands'⟩ := hstands.runs host hruns
  rw [hip] at hstands'
  exact ⟨vm', m', w, hsteps, hstands'.shows, hsame, hw, hagrees', hstands'.ordered, hstands'.kept⟩

/-- `((lambda (x) (let* ((y (* x 2))) (set! x 5) (if (< y 0) 'a (+ y x)))) 3)`. -/
def sample : Stream :=
  let load (name : Text) : Stream := .cons (.load name) .nil
  let number (i : Int64) : Stream := .cons (.literal (.fixnum i)) .nil
  let x : Text := ⟨[120], by decide⟩
  let y : Text := ⟨[121], by decide⟩
  let double : Stream := .cons (.math .mul (load x) (number 2)) .nil
  let sum : Stream := .cons (.math .add (load y) (load x)) .nil
  let choice : Node := .ifElse (.cons (.math .lt (load y) (number 0)) .nil)
    (.cons (.literal (.symbol x)) .nil) sum
  let body : Stream := .cons (.letStar (.cons (.bind double y) .nil)
    (.cons (.store (number 5) x) (.cons choice .nil))) .nil
  .cons (.call (.cons (.lambda (.cons x .fixed) body) .nil) (number 3)) .nil

/-- The sample runs to its end, with 11 on the stack. -/
theorem compiled_code_computes_sample : ∃ bytes, asmString (emitStream sample false 0).1 = some bytes ∧
    ∃ (vm' : VmInternal) (m' : Machine), Relation.ReflTransGen (Step Host.bare) (startBytes bytes vmCreate) vm' ∧
      Shows vm' (m'.at (codeSize (emitStream sample false 0).1) [.fixnum 11]) := by
  have hsome : (asmString (emitStream sample false 0).1).isSome = true := by decide +kernel
  have hsize : codeSize (emitStream sample false 0).1 < 2 ^ 63 := by decide +kernel
  obtain ⟨bytes, hbytes⟩ := Option.isSome_iff_exists.mp hsome
  obtain ⟨store', heval⟩ : ∃ store', evalStream 20 [2] sample .begun = .ok (.fixnum 11, store') := ⟨_, rfl⟩
  obtain ⟨vm', m', w, hsteps, hshows, -, hw, -⟩ :=
    compiled_code_computes Host.bare (compiled_alone hbytes hsize) (ordered_begun bytes) (shows_begun bytes)
      ⟨rfl, rfl⟩ rfl (agrees_begun bytes) heval
  cases hw
  exact ⟨bytes, hbytes, vm', m', hsteps, by simpa [begun] using hshows⟩

end Insomniac.Compile

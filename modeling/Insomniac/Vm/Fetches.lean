import Insomniac.Asm.Boundaries
import Insomniac.Vm.Grown

/-!
# Vm/Fetches — what is executed was written

    asm_string tokens  ──vm_eval──▸  round ──▸ round ──▸ …          each at the address of a token

Every environment goes on at an address that decoding its code from 0 on comes by, whether it runs, or a
closure saved it, or it waits as the caller of another one; and so does every handler.  So a round executes
an instruction that the text of the code says, from its first byte on, and inside of the code
(`instructions_are_written`).  Two instructions can take a handler to code that it was not made for; rounds
of these are asked not to.
-/

open Bytes Insomniac.Asm Run

namespace Insomniac.Vm

/-! ## Places

Where an environment goes on is in place when decoding its code from 0 on comes by, or when it is behind the
code. -/

/-- Code that some text is assembled to. -/
def Assembled (code : Code) (length : ℕ) : Prop :=
  ∃ (tokens : List (Token (List UInt8))) (bytes : List UInt8), asmString tokens = some bytes ∧
    bytes.length = length ∧ code = fun i => bytes.getD i 0

/-- An address of some code, where an instruction begins. -/
def Leads (codes : List Code) (codeRef : Option ℕ) (addr : ℕ) : Prop :=
  ∃ code, codeRef.bind (codes[·]?) = some code ∧ Entered code addr

/-- **Where some code goes on**: it was assembled, and the address is one of its instructions.  Or there is
none. -/
def Goes (codes : List Code) (codeRef : Option ℕ) (length ip : ℕ) : Prop :=
  codeRef = none ∧ length = 0 ∨ (∃ code, codeRef.bind (codes[·]?) = some code ∧ Assembled code length) ∧
    Leads codes codeRef ip

/-- An environment goes on where an instruction begins, and so does its handler. -/
structure Env.InPlace (codes : List Code) (env : Env) : Prop where
  goes : Goes codes env.codeRef env.length env.ip
  handler : env.handler = true → Leads codes env.codeRef env.handlerAddr

/-- **All environments do.** -/
def InPlace (vm : VmInternal) : Prop := ∀ env ∈ vm.envs, env.InPlace vm.codes

/-- Environments may go on where instructions of their code begin, and handlers may be set to instructions
of code that is there. -/
def Allow.inPlace (codes : List Code) : Allow where
  null := True
  write _ _ := True
  handler _ env := Leads codes env.codeRef env.handlerAddr
  sized := False
  place := Goes

section

variable {host : Host} {codes codes' : List Code} {codeRef : Option ℕ} {length ip : ℕ} {vm vm' : VmInternal}
  {env : Env}

/-- Code that there is stays where it is. -/
theorem bind_getElem?_mono {code : Code} (hcodes : codes <+: codes') (h : codeRef.bind (codes[·]?) = some code) :
    codeRef.bind (codes'[·]?) = some code := by
  obtain ⟨c, hc, hcode⟩ := Option.bind_eq_some_iff.mp h
  exact Option.bind_eq_some_iff.mpr ⟨c, hc, getElem?_of_isPrefix hcodes hcode⟩

/-- An address of it is led to as before. -/
theorem Leads.mono (hcodes : codes <+: codes') (h : Leads codes codeRef ip) : Leads codes' codeRef ip := by
  obtain ⟨code, hcode, hentered⟩ := h
  exact ⟨code, bind_getElem?_mono hcodes hcode, hentered⟩

/-- It may be gone on at as before. -/
theorem Goes.mono (hcodes : codes <+: codes') (h : Goes codes codeRef length ip) : Goes codes' codeRef length ip :=
  h.imp_right fun ⟨⟨code, hcode, hassembled⟩, hleads⟩ =>
    ⟨⟨code, bind_getElem?_mono hcodes hcode, hassembled⟩, hleads.mono hcodes⟩

/-- An environment stays in place while code is added. -/
theorem Env.InPlace.mono (hcodes : codes <+: codes') (h : env.InPlace codes) : env.InPlace codes' :=
  ⟨h.goes.mono hcodes, fun hhandler => (h.handler hhandler).mono hcodes⟩

/-- Code goes on at another of its instructions. -/
theorem Goes.to {ip' : ℕ} (h : Goes codes codeRef length ip) (hleads : Leads codes codeRef ip') :
    Goes codes codeRef length ip' :=
  h.imp_right fun ⟨hassembled, _⟩ => ⟨hassembled, hleads⟩

/-! ## Changes

Most changes leave alone where environments go on.  The others are jumps and calls, and these name a label of
their own code. -/

/-- Writing to the current environment. -/
theorem InPlace.update {f : Env → Env} (h : InPlace vm)
    (hf : ∀ env, vm.envs[vm.env]? = some env → (f env).InPlace vm.codes) : InPlace (vm.updateEnv f) := by
  intro env hmem
  obtain ⟨i, hi⟩ := List.mem_iff_getElem?.mp hmem
  rw [VmInternal.updateEnv, List.getElem?_modify] at hi
  obtain ⟨old, hold, rfl⟩ := Option.map_eq_some_iff.mp hi
  split
  · next hcurrent => exact hf old (hcurrent ▸ hold)
  · exact h old (List.mem_of_getElem? hold)

/-- A new environment. -/
theorem InPlace.concat (h : InPlace vm) (hcodes : codes <+: vm.codes) (hallowed : EnvAllowed (Allow.inPlace codes) vm env)
    (hplaced : EnvPlaced (Allow.inPlace codes) vm env) (henvs : vm'.envs = vm.envs ++ [env])
    (hcodes' : vm'.codes = vm.codes) : InPlace vm' := by
  intro env' hmem
  rw [henvs] at hmem
  rw [hcodes']
  rcases List.mem_append.mp hmem with hmem | hmem
  · exact h env' hmem
  · obtain rfl := List.mem_singleton.mp hmem
    refine ⟨?_, fun hhandler => ?_⟩
    · rcases hplaced with ⟨old, hold, hcode, hlength, hip⟩ | hgoes
      · have hin := h old hold
        rw [← hcode, ← hlength]
        rcases hip with hip | ⟨hhandler, haddr⟩
        · exact hip ▸ hin.goes
        · exact hin.goes.to (haddr ▸ hin.handler hhandler)
      · exact hgoes
    · rcases hallowed hhandler with ⟨old, hold, hhandler', hcode, -, haddr⟩ | hleads
      · rw [← hcode, ← haddr]
        exact (h old hold).handler hhandler'
      · exact Leads.mono hcodes hleads

/-- **A change leaves all environments in place.** -/
theorem Change.inPlace (hchange : Change (Allow.inPlace codes) vm vm') (hcodes : codes <+: vm.codes) (h : InPlace vm) :
    codes <+: vm'.codes ∧ InPlace vm' := by
  cases hchange with
  | newCode code =>
    have hmore : vm.codes <+: vm.codes ++ [code] := List.prefix_append ..
    exact ⟨hcodes.trans hmore, fun env hmem => (h env hmem).mono hmore⟩
  | @setIp env ip henv hplace =>
    refine ⟨hcodes, h.update fun env' henv' => ?_⟩
    cases henv.symm.trans henv'
    exact ⟨hplace, (h env (List.mem_of_getElem? henv)).handler⟩
  | @setHandler env addr henv hok =>
    refine ⟨hcodes, h.update fun env' henv' => ⟨(h env' (List.mem_of_getElem? henv')).goes, fun _ => ?_⟩⟩
    cases henv.symm.trans henv'
    rcases hok rfl with ⟨old, hold, hhandler, hcode, -, haddr⟩ | hleads
    · have hold := (h old hold).handler hhandler
      rw [hcode, haddr] at hold
      exact hold
    · exact Leads.mono hcodes hleads
  | closure hok hplaced hbindings hparent => exact ⟨hcodes, h.concat hcodes hok hplaced rfl rfl⟩
  | enter hok hplaced hbindings hparent => exact ⟨hcodes, h.concat hcodes hok hplaced rfl rfl⟩
  | @call env hok hplaced hbindings hparent =>
    exact ⟨hcodes, h.concat hcodes hok hplaced (Eq.refl (vm.envs ++ [env])) rfl⟩
  | _ => exact ⟨hcodes, h⟩

/-- **So does a round**, when what it asks for keeps them there. -/
theorem Changes.inPlace (hchanges : Changes (Allow.inPlace vm.codes) vm vm') (h : InPlace vm) : InPlace vm' := by
  have hboth : vm.codes <+: vm'.codes ∧ InPlace vm' := by
    induction hchanges with
    | refl => exact ⟨List.prefix_rfl, h⟩
    | tail _ hchange ih => exact hchange.inPlace ih.1 ih.2
  exact hboth.2

/-! ## Rounds

A round is at a token, and its operand leads to another one, so the environments stay in place. -/

/-- **A round leaves environments in place**: a string is assembled where there is no handler, and `restore` brings back one
that is at an instruction of its code.  (An object in memory is shorter than 2^63 bytes.) -/
structure StaysInPlace (vm : VmInternal) : Prop where
  small : ∀ env, vm.envs[vm.env]? = some env → env.length < 2 ^ 63
  asm : vm.Assembles → ∀ env, vm.envs[vm.env]? = some env → env.handler = false
  restore : vm.nextOp = some .restore → ∀ env, vm.envs[vm.env]? = some env →
    Leads vm.codes env.codeRef env.handlerAddr

/-- The code that runs. -/
theorem InPlace.current (h : InPlace vm) (hrunning : vm.running = true) : ∃ (env : Env) (c : ℕ) (code : Code),
    vm.envs[vm.env]? = some env ∧ env.ip < env.length ∧ env.codeRef = some c ∧ vm.codes[c]? = some code ∧
      Assembled code env.length ∧ Entered code env.ip := by
  unfold VmInternal.running at hrunning
  split at hrunning
  · next env henv =>
    have hlt : env.ip < env.length := of_decide_eq_true hrunning
    rcases (h env (List.mem_of_getElem? henv)).goes with ⟨-, hlength⟩ | ⟨⟨code, hcode, hassembled⟩, code', hcode', hentered⟩
    · rw [hlength] at hlt
      cases hlt
    · obtain rfl := Option.some.inj (hcode.symm.trans hcode')
      obtain ⟨c, hc, hcode⟩ := Option.bind_eq_some_iff.mp hcode
      exact ⟨env, c, code, henv, hlt, hc, hcode, hassembled, hentered⟩
  · cases hrunning

/-- **A jump of the code that runs leads to one of its instructions.** -/
theorem InPlace.target (h : InPlace vm) (hrunning : vm.running = true) (henv : vm.envs[vm.env]? = some env)
    (hsmall : env.length < 2 ^ 63) {code : Code} {o : Op} {d : Int64} {next : ℕ}
    (hcode : env.codeRef.bind (vm.codes[·]?) = some code) (hdecode : decodeAt code env.ip = some (⟨o, .int d⟩, next))
    (hkind : o.operandKind = .target) : Entered code (jumpTo next d) := by
  obtain ⟨env', c, code', henv', hlt, hc, hcode', ⟨tokens, bytes, htokens, hlength, rfl⟩, hentered⟩ := h.current hrunning
  obtain rfl := Option.some.inj (henv.symm.trans henv')
  obtain rfl : (fun i => bytes.getD i 0) = code := by
    rw [hc] at hcode
    exact Option.some.inj (hcode'.symm.trans hcode)
  have hspells : Code.Spells (fun i => bytes.getD i 0) 0 bytes := spells_getD bytes
  rw [← hlength] at hsmall hlt
  obtain ⟨pre, t, post, i, hsplit, hpre, hi⟩ := hentered.token htokens hsmall hspells hlt
  have hdecode' := decodeAt_token htokens hsmall hspells hsplit (hpre.symm ▸ hi)
  rw [hpre, hdecode, Option.some.injEq, Prod.mk.injEq] at hdecode'
  obtain ⟨rfl, rfl⟩ := hdecode'
  have hsize : t.size = 9 := by
    cases t <;> first | rfl | cases hi
  rw [hsize, ← hpre]
  exact entered_target htokens hsmall hspells hsplit hkind (hpre.symm ▸ hi)

/-- A round in place allows the changes that keep the others in place. -/
theorem permits_inPlace (h : InPlace vm) (hrunning : vm.running = true) (hstays : StaysInPlace vm) :
    Permits (Allow.inPlace vm.codes) host vm where
  null _ _ := trivial
  write _ _ _ _ _ := trivial
  asm hnext env henv hhandler := absurd hhandler (by rw [hstays.asm hnext env henv]; exact Bool.false_ne_true)
  cont hnext vm₁ env' htarget := by
    obtain ⟨env, henv, htarget⟩ := Option.bind_eq_some_iff.mp htarget
    obtain ⟨code, hcode, htarget⟩ := Option.bind_eq_some_iff.mp htarget
    obtain ⟨hcodeRef, haddr⟩ := Prod.mk.inj (Option.some.inj htarget)
    have hop : Op.ofByte? (code env.ip) = some .continue := by
      obtain ⟨c, hc, hcode⟩ := Option.bind_eq_some_iff.mp hcode
      rw [← hnext]
      simp [VmInternal.nextOp, henv, hc, hcode]
    have hentered := h.target hrunning henv (hstays.small env henv) hcode (decodeAt_of_op hop) rfl
    exact ⟨code, hcodeRef ▸ hcode, haddr ▸ hentered⟩
  restore hnext env henv vm₁ env' hcodeRef _ haddr := by
    change Leads vm.codes env'.codeRef env'.handlerAddr
    rw [hcodeRef, haddr]
    exact hstays.restore hnext env henv
  sized := False.elim
  next env code instr next henv hcode hdecode := by
    refine (h env (List.mem_of_getElem? henv)).goes.to ?_
    rcases (h env (List.mem_of_getElem? henv)).goes with ⟨hnone, -⟩ | ⟨-, code', hcode', hentered⟩
    · rw [hnone] at hcode
      cases hcode
    · obtain rfl := Option.some.inj (hcode.symm.trans hcode')
      exact ⟨code, hcode, hentered.next hdecode⟩
  target env code o target next henv hcode hdecode hkind :=
    (h env (List.mem_of_getElem? henv)).goes.to
      ⟨code, hcode, h.target hrunning henv (hstays.small env henv) hcode hdecode hkind⟩
  start hnext bytes hassembles := by
    obtain ⟨-, tokens, -, htokens⟩ := hassembles
    have hcode : (some vm.codes.length).bind ((vm.codes ++ [fun i => bytes.getD i 0])[·]?) =
        some fun i => bytes.getD i 0 := List.getElem?_concat_length
    exact .inr ⟨⟨_, hcode, tokens, bytes, htokens, rfl, rfl⟩, _, hcode, .zero⟩

/-! ## Runs

From the start of a run on, every environment is in place; what `asm` adds is decoded from its first byte. -/

/-- **The states of a machine that is given assembled code**, one program after another, where rounds leave
environments in place. -/
inductive Evaluates (host : Host) : VmInternal → Prop
  | create : Evaluates host vmCreate
  | eval {vm : VmInternal} {tokens : List (Token (List UInt8))} {bytes : List UInt8} : Evaluates host vm →
      vm.running = false → asmString tokens = some bytes →
      (∀ env, vm.envs[vm.env]? = some env → env.handler = false) → Evaluates host (startBytes bytes vm)
  | reset {vm : VmInternal} : Evaluates host vm → vm.running = false → Evaluates host (vmReset vm)
  | step {vm vm' : VmInternal} : Evaluates host vm → Step host vm vm' → StaysInPlace vm → Evaluates host vm'

/-- A run keeps the state in order. -/
theorem Evaluates.sound (h : Evaluates host vm) : Sound True vm := by
  induction h with
  | create => exact sound_vmCreate True
  | @eval vm _ bytes _ hrunning _ _ ih =>
    have hlater : Later host vm (Vm.startBytes bytes vm) := later_startBytes bytes hrunning
    exact hlater.sound ih
  | reset _ hrunning ih => exact Call.sound (.reset hrunning) ih
  | step _ hstep _ ih => exact (hstep.changes (A := Allow.all) ih (permits_all host _)).sound ih

/-- The root environment has no code to go on in. -/
theorem inPlace_rootEnv (bindings : ℕ) : (rootEnv bindings).InPlace codes := ⟨.inl ⟨rfl, rfl⟩, nofun⟩

/-- New code is started. -/
theorem InPlace.startBytes (h : InPlace vm) {tokens : List (Token (List UInt8))} {bytes : List UInt8}
    (htokens : asmString tokens = some bytes) (hhandler : ∀ env, vm.envs[vm.env]? = some env → env.handler = false) :
    InPlace (startBytes bytes vm) := by
  have hload : InPlace (loadCode (fun i => bytes.getD i 0) vm) := fun env hmem =>
    (h env hmem).mono (List.prefix_append ..)
  refine hload.update fun env henv => ⟨.inr ⟨⟨_, List.getElem?_concat_length, tokens, bytes, htokens, rfl, rfl⟩, _,
    List.getElem?_concat_length, .zero⟩, fun htrue => ?_⟩
  exact absurd htrue (by rw [hhandler env henv]; exact Bool.false_ne_true)

/-- **In every run, all environments are in place.** -/
theorem Evaluates.inPlace (h : Evaluates host vm) : InPlace vm := by
  induction h with
  | create =>
    intro env hmem
    obtain rfl := List.mem_singleton.mp hmem
    exact inPlace_rootEnv 2
  | eval _ _ htokens hhandler ih => exact ih.startBytes htokens hhandler
  | @reset vm _ _ ih =>
    intro env hmem
    rcases List.mem_append.mp hmem with hmem | hmem
    · exact ih env hmem
    · obtain rfl := List.mem_singleton.mp hmem
      exact inPlace_rootEnv _
  | step hruns hstep hstays ih =>
    exact (hstep.changes (A := Allow.inPlace _) hruns.sound (permits_inPlace ih hstep.1 hstays)).inPlace ih

/-- **The next round executes an instruction that was written**: the code that runs is what some text was
assembled to; the instruction pointer is at one of its tokens; and the instruction that is decoded there is
that of the token, with its operand, whatever lies behind the code. -/
def VmInternal.ExecutesToken (vm : VmInternal) : Prop :=
  ∃ (env : Env) (c : ℕ) (tokens : List (Token (List UInt8))) (bytes : List UInt8),
    vm.envs[vm.env]? = some env ∧ env.codeRef = some c ∧ vm.codes[c]? = some (fun i => bytes.getD i 0) ∧
      asmString tokens = some bytes ∧ env.length = bytes.length ∧ ∃ pre t post i,
        tokens = pre ++ t :: post ∧ env.ip = codeSize pre ∧ env.ip + t.size ≤ env.length ∧
          t.instr? (Assembler.run tokens).labels env.ip = some i ∧ vm.nextOp = some i.op ∧
            ∀ code : Code, (∀ a < env.length, code a = bytes.getD a 0) →
              decodeAt code env.ip = some (i, env.ip + t.size)

/-- **What is executed was written**: in every run of a machine that is given assembled code, every round executes
an instruction of the text, and wherever control goes later (where a closure was made, behind a call, or to a
handler), it goes to an instruction again. -/
theorem instructions_are_written (h : Evaluates host vm) : InPlace vm ∧
    (vm.running = true → (∀ env, vm.envs[vm.env]? = some env → env.length < 2 ^ 63) → vm.ExecutesToken) := by
  refine ⟨h.inPlace, fun hrunning hsmall => ?_⟩
  obtain ⟨env, c, code, henv, hlt, hc, hcode, ⟨tokens, bytes, htokens, hlength, rfl⟩, hentered⟩ :=
    h.inPlace.current hrunning
  have hsmall := hsmall env henv
  rw [← hlength] at hsmall hlt
  obtain ⟨pre, t, post, i, hsplit, hpre, hi⟩ := hentered.token htokens hsmall (spells_getD bytes) hlt
  have hdecode {code : Code} (hspells : code.Spells 0 bytes) : decodeAt code env.ip = some (i, env.ip + t.size) := by
    rw [← hpre] at hi ⊢
    exact decodeAt_token htokens hsmall hspells hsplit hi
  have hsum : codeSize tokens = env.ip + (t.size + codeSize post) := by
    rw [hsplit, codeSize_append, codeSize_cons, hpre]
  have htotal := length_of_asmString htokens
  refine ⟨env, c, tokens, bytes, henv, hc, hcode, htokens, hlength.symm, pre, t, post, i, hsplit, hpre.symm, ?_, hi,
    ?_, fun code hagrees => hdecode fun a ha => ?_⟩
  · omega
  · simp only [VmInternal.nextOp, henv, hc, hcode, Option.bind_eq_bind, Option.bind_some]
    exact ofByte?_of_decodeAt (hdecode (spells_getD bytes))
  · rw [Nat.zero_add, hagrees a (hlength ▸ ha), List.getD_eq_getElem _ _ ha]

end

/-! ## A run

A run with a handler that is used, as an example. -/

/-- Rounds that neither assemble nor bring a handler back. -/
def quietly (host : Host) : (rounds : ℕ) → VmInternal → Option VmInternal
  | 0, vm => some vm
  | rounds + 1, vm =>
    if vm.running ∧ vm.nextOp ≠ some .asm ∧ vm.nextOp ≠ some .restore ∧
        ∀ env ∈ vm.envs[vm.env]?, env.length < 2 ^ 63 then
      match evalStep host vm with
      | .ok ((), vm') => quietly host rounds vm'
      | .error _ => none
    else none

/-- They are rounds that leave environments in place. -/
theorem quietly_steps {host : Host} : ∀ {rounds : ℕ} {vm vm' : VmInternal}, quietly host rounds vm = some vm' →
    Relation.ReflTransGen (fun vm vm' => Step host vm vm' ∧ StaysInPlace vm) vm vm'
  | 0, _, _, hrun => by
      cases hrun
      exact .refl
  | rounds + 1, vm, vm', hrun => by
      obtain ⟨⟨hrunning, hasm, hrestore, hsmall⟩, hrun⟩ := Option.ite_none_right_eq_some.mp hrun
      cases hstep : evalStep host vm with
      | error e =>
        rw [hstep] at hrun
        cases hrun
      | ok r =>
        rw [hstep] at hrun
        exact .head ⟨⟨hrunning, hstep⟩,
          ⟨hsmall, fun hnext => absurd hnext.1 hasm, fun hnext => absurd hnext hrestore⟩⟩ (quietly_steps hrun)

/-- Such rounds go on with a run. -/
theorem Evaluates.steps {host : Host} {vm vm' : VmInternal} (h : Evaluates host vm)
    (hsteps : Relation.ReflTransGen (fun vm vm' => Step host vm vm' ∧ StaysInPlace vm) vm vm') : Evaluates host vm' := by
  induction hsteps with
  | refl => exact h
  | tail _ hstep ih => exact ih.step hstep.1 hstep.2

/-- A handler is set, and `car` throws. -/
def throwsToHandler : List (Token (List UInt8)) :=
  [.jump .continue Op.aTarget (text "L"), .op .litEmpty Op.noOperand, .op .car Op.noOperand, .label (text "L"),
    .op .drop Op.noOperand]

/-- The exception goes on at the `drop` that was written. -/
theorem instructions_are_written_handler : ∃ vm, Evaluates Host.bare vm ∧ vm.nextOp = some .drop ∧ InPlace vm ∧
    vm.ExecutesToken := by
  have hassembles : (asmString throwsToHandler).any (fun bytes => (quietly Host.bare 3 (startBytes bytes vmCreate)).any
      fun vm => vm.running ∧ vm.nextOp = some .drop ∧ ∀ env ∈ vm.envs[vm.env]?, env.length < 2 ^ 63) = true := by
    decide +kernel
  obtain ⟨bytes, hbytes, hrun⟩ := (Option.any_eq_true _ _).mp hassembles
  obtain ⟨vm, hrun, hvm⟩ := (Option.any_eq_true _ _).mp hrun
  obtain ⟨hrunning, hnext, hsmall⟩ := of_decide_eq_true hvm
  have hstart : Evaluates Host.bare (startBytes bytes vmCreate) := by
    refine .eval .create rfl hbytes fun env henv => ?_
    obtain rfl : rootEnv 2 = env := Option.some.inj henv
    rfl
  have h : Evaluates Host.bare vm := hstart.steps (quietly_steps hrun)
  obtain ⟨hinPlace, hexecutes⟩ := instructions_are_written h
  exact ⟨vm, h, hnext, hinPlace, hexecutes hrunning hsmall⟩

end Insomniac.Vm

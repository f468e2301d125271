import Insomniac.Asm.Lexer
import Insomniac.Vm.Fetches

/-!
# Vm/Reads — what a round reads of the code

    text ──asm_string──▸ op · operand · op · …        ip ──▸ op_code ──▸ vm->ops[op_code]
                         0                 length            └──▸ operand, up to `operandReads`

Code that a text is assembled to is read inside of its bounds, at the operations of its instructions, and
`vm->ops` has a function for each of them, but for two slips: `nop` has no function, and `op_lit_char` reads a
byte more than its operand has, which is the byte behind the code where a character comes last
(`fetch_is_closed_iff`).
-/

open Munch Insomniac.Asm Run

namespace Insomniac.Vm

/-! ## Reading

The operation is the byte at the instruction pointer, and its function reads the operand from the next byte on. -/

/-- How many bytes the function of an operation reads from its operand on: `parse_int` eight, `parse_string`
as many as these say besides, and the loop of `op_lit_char` five. -/
def operandReads (code : Code) (ip : ℕ) : OperandKind → ℕ
  | .none => 0
  | .fixnum | .target => 8
  | .char => 5
  | .string => 8 + (Asm.parseInt code ip).toInt.toNat

/-- Code of some length that a text is assembled to, with or without debugging information. -/
def FromText (code : Code) (length : ℕ) : Prop :=
  ∃ debug str tokens bytes, readText debug str = some tokens ∧ asmString tokens = some bytes ∧
    bytes.length = length ∧ code = fun i => bytes.getD i 0

/-- **An operation that was written**: a text is assembled to the code, and `asm_string` has put the operation at the
address for an instruction of it. -/
def WrittenAt (code : Code) (length ip : ℕ) (o : Op) : Prop :=
  ∃ debug str tokens bytes, readText debug str = some tokens ∧ asmString tokens = some bytes ∧
    bytes.length = length ∧ (code = fun i => bytes.getD i 0) ∧ ∃ pre t post i,
      tokens = pre ++ t :: post ∧ ip = codeSize pre ∧ t.instr? (Assembler.run tokens).labels ip = some i ∧ i.op = o

/-- **The fetch of the next round is closed**: the byte that is looked up is an operation that was written, all bytes
that are read are in the code, and `vm->ops` has a function for the operation. -/
def VmInternal.FetchIsClosed (host : Host) (vm : VmInternal) : Prop :=
  ∃ (env : Env) (code : Code) (o : Op), vm.envs[vm.env]? = some env ∧ env.codeRef.bind (vm.codes[·]?) = some code ∧
    Op.ofByte? (code env.ip) = some o ∧ WrittenAt code env.length env.ip o ∧
      (∀ a, env.ip ≤ a → a ≤ env.ip + operandReads code (env.ip + 1) o.operandKind → a < env.length) ∧
        (ops host handleException o).isSome = true

/-- **A round without a slip**: it does not execute `nop`, nor a character at the end of the code. -/
def VmInternal.NoSlip (vm : VmInternal) : Prop :=
  vm.nextOp ≠ some .nop ∧
    (vm.nextOp = some .litChar → ∀ env, vm.envs[vm.env]? = some env → env.ip + 5 ≠ env.length)

/-- The two operations without a function. -/
theorem ops_isSome {host : Host} {o : Op} : (ops host handleException o).isSome = true ↔ o ≠ .nop ∧ o ≠ .isLibrary := by
  cases o <;> simp [ops]

/-- A round whose fetch is closed has no slip. -/
theorem VmInternal.FetchIsClosed.noSlip {host : Host} {vm : VmInternal} (h : vm.FetchIsClosed host) : vm.NoSlip := by
  obtain ⟨env, code, o, henv, hcode, ho, -, hclosed, hsome⟩ := h
  have hop : vm.nextOp = some o := by
    obtain ⟨c, hc, hat⟩ := Option.bind_eq_some_iff.mp hcode
    simp only [VmInternal.nextOp, henv, hc, hat, Option.bind_eq_bind, Option.bind_some]
    exact ho
  refine ⟨fun hnop => (ops_isSome.mp hsome).1 (Option.some.inj (hop.symm.trans hnop)), fun hchar env' henv' => ?_⟩
  obtain rfl := Option.some.inj (henv.symm.trans henv')
  obtain rfl : o = .litChar := Option.some.inj (hop.symm.trans hchar)
  exact (hclosed (env.ip + 5) (by omega) le_rfl).ne

/-- What an operand takes is what is read of it, but for the byte behind a character. -/
theorem reads_of_decodeAt {code : Code} {ip next : ℕ} {i : Instr} (h : decodeAt code ip = some (i, next)) :
    ip + 1 + operandReads code (ip + 1) i.op.operandKind = if i.op = .litChar then next + 1 else next := by
  obtain ⟨o, -, h⟩ := Option.bind_eq_some_iff.mp h
  have hchar : o.operandKind = .char ↔ o = .litChar := by cases o <;> simp [Op.operandKind]
  cases hkind : o.operandKind with
  | string =>
    rw [hkind] at h
    obtain ⟨⟨str, next'⟩, hparse, hend⟩ := Option.bind_eq_some_iff.mp h
    cases hend
    have hne : o ≠ .litChar := fun ho => by
      rw [hchar.mpr ho] at hkind
      cases hkind
    unfold Asm.parseString at hparse
    dsimp only at hparse
    split at hparse
    · cases hparse
    · cases hparse
      rw [if_neg hne, hkind, operandReads]
      omega
  | char =>
    rw [hkind] at h
    cases h
    rw [if_pos (hchar.mp hkind), hkind, operandReads]
  | _ =>
    rw [hkind] at h
    cases h
    have hne : o ≠ .litChar := fun ho => by
      rw [hchar.mpr ho] at hkind
      cases hkind
    rw [if_neg hne, hkind, operandReads]

/-! ## The lexer

`setup_instructions` leaves two places empty.  The lexer has a name for `nop`, and none for `is_library`. -/

/-- No rule of the lexer returns `is_library`. -/
theorem library_unnamed (start : Start) : ∀ r ∈ lexRules start, r.token ≠ some (.op .isLibrary) := by
  cases start <;> decide +kernel

/-- So no text is lexed to it. -/
theorem lexFrom_library (start : Start) (str : List UInt8) : ∀ x ∈ lexFrom start str, x.1 ≠ .op .isLibrary := by
  intro x hx heq
  obtain ⟨start', r, hr, htoken⟩ := token_of_lex hx
  exact library_unnamed start' r hr (htoken.trans (congrArg some heq))

/-- What a string literal leaves comes behind it. -/
theorem asmLitString_subset {more rest : List (LexToken × List UInt8)} {str : List UInt8}
    (h : asmLitString more = some (str, rest)) : rest ⊆ more := by
  unfold asmLitString at h
  split at h <;> cases h
  · exact fun x hx => List.mem_cons_of_mem _ (List.mem_cons_of_mem _ hx)
  · exact fun x hx => List.mem_cons_of_mem _ hx

/-- So does what a directive leaves. -/
theorem addDebugFile_subset {more rest : List (LexToken × List UInt8)} (h : addDebugFile more = some rest) :
    rest ⊆ more := by
  unfold addDebugFile at h
  split at h
  · split at h
    · next h' =>
      cases h
      intro x hx
      exact List.mem_cons_of_mem _ (asmLitString_subset h'
        (List.mem_cons_of_mem _ (List.mem_cons_of_mem _ hx)))
    · cases h
  · cases h

/-- A token in front of those of the rest is either the operation or leaves it in the rest. -/
theorem lexed_cons {debug : Bool} {rest more : List (LexToken × List UInt8)} {t : Token (List UInt8)}
    {tokens : List (Token (List UInt8))} {o : Op} {ho : o.operandKind = .none} (hsubset : rest ⊆ more)
    (ih : ∀ {tokens}, readTokens debug rest = some tokens → Token.op o ho ∈ tokens → ∃ str, (LexToken.op o, str) ∈ rest)
    (h : (readTokens debug rest).map (t :: ·) = some tokens) (hmem : Token.op o ho ∈ tokens) :
    .op o ho = t ∨ ∃ str, (LexToken.op o, str) ∈ more := by
  obtain ⟨tokens', hrest, rfl⟩ := Option.map_eq_some_iff.mp h
  refine (List.mem_cons.mp hmem).imp_right fun hmem => ?_
  obtain ⟨str, hstr⟩ := ih hrest hmem
  exact ⟨str, hsubset hstr⟩

/-- **An operation that is assembled was lexed.** -/
theorem lexed_of_readTokens {debug : Bool} {more : List (LexToken × List UInt8)} {tokens : List (Token (List UInt8))}
    {o : Op} {ho : o.operandKind = .none} (h : readTokens debug more = some tokens) (hmem : Token.op o ho ∈ tokens) :
    ∃ str, (LexToken.op o, str) ∈ more := by
  fun_induction readTokens debug more generalizing tokens with
  | case1 =>
    cases h
    cases hmem
  | case2 o' str more ho' ih =>
    rcases lexed_cons (List.subset_cons_self _ more) ih h hmem with heq | hlexed
    · cases heq
      exact ⟨str, List.mem_cons_self⟩
    · exact hlexed
  | case3 o' str _ ht name more ih =>
    exact (lexed_cons (fun x hx => List.mem_cons_of_mem _ (List.mem_cons_of_mem _ hx)) ih h hmem).resolve_left nofun
  | case5 str more _ _ _ _ ih | case6 str more _ _ _ _ ih | case12 name more ih =>
    exact (lexed_cons (List.subset_cons_self _ more) ih h hmem).resolve_left nofun
  | case8 _ more str rest hstr _ ih | case10 _ more str rest hstr _ ih =>
    exact (lexed_cons (fun x hx => List.mem_cons_of_mem _ (asmLitString_subset hstr hx)) ih h hmem).resolve_left nofun
  | case13 _ more _ rest hrest _ ih =>
    obtain ⟨str, hstr⟩ := ih h hmem
    exact ⟨str, List.mem_cons_of_mem _ (addDebugFile_subset hrest hstr)⟩
  | case15 _ more _ ih | case16 _ more ih =>
    obtain ⟨str, hstr⟩ := ih h hmem
    exact ⟨str, List.mem_cons_of_mem _ hstr⟩
  | _ => cases h

/-- **No text is assembled to `is_library`.** -/
theorem readText_library {debug : Bool} {str : List UInt8} {tokens : List (Token (List UInt8))}
    (h : readText debug str = some tokens) (ho : Op.isLibrary.operandKind = .none) : Token.op .isLibrary ho ∉ tokens := by
  intro hmem
  obtain ⟨yytext, hlexed⟩ := lexed_of_readTokens h hmem
  exact lexFrom_library .initial str _ hlexed rfl

/-! ## Texts

Every environment runs the code of a text, with the length that it was assembled to, or no code. -/

/-- An environment's code and length are those of a text, or there is no code. -/
def RunsText (codes : List Code) (codeRef : Option ℕ) (length : ℕ) : Prop :=
  codeRef = none ∨ ∃ code, codeRef.bind (codes[·]?) = some code ∧ FromText code length

/-- **All environments run texts.** -/
def RunTexts (vm : VmInternal) : Prop := ∀ env ∈ vm.envs, RunsText vm.codes env.codeRef env.length

/-- Environments may go on anywhere in the code of a text. -/
def Allow.texts : Allow where
  null := True
  write _ _ := True
  handler _ _ := True
  sized := False
  place codes codeRef length _ := RunsText codes codeRef length

section

variable {host : Host} {codes codes' : List Code} {codeRef : Option ℕ} {length : ℕ} {vm vm' : VmInternal} {env : Env}

/-- Code that is added leaves the code of a text where it is. -/
theorem RunsText.mono (hcodes : codes <+: codes') (h : RunsText codes codeRef length) : RunsText codes' codeRef length :=
  h.imp_right fun ⟨code, hcode, htext⟩ => ⟨code, bind_getElem?_mono hcodes hcode, htext⟩

/-- Writing to the current environment, but not to its code. -/
theorem RunTexts.update {f : Env → Env} (h : RunTexts vm) (hcode : ∀ env, (f env).codeRef = env.codeRef)
    (hlength : ∀ env, (f env).length = env.length) : RunTexts (vm.updateEnv f) := by
  intro env hmem
  obtain ⟨i, hi⟩ := List.mem_iff_getElem?.mp hmem
  rw [VmInternal.updateEnv, List.getElem?_modify] at hi
  obtain ⟨old, hold, rfl⟩ := Option.map_eq_some_iff.mp hi
  have hruns := h old (List.mem_of_getElem? hold)
  split
  · rw [hcode, hlength]
    exact hruns
  · exact hruns

/-- A new environment. -/
theorem RunTexts.concat (h : RunTexts vm) (hplaced : EnvPlaced Allow.texts vm env) (henvs : vm'.envs = vm.envs ++ [env])
    (hcodes : vm'.codes = vm.codes) : RunTexts vm' := by
  intro env' hmem
  rw [henvs] at hmem
  rw [hcodes]
  rcases List.mem_append.mp hmem with hmem | hmem
  · exact h env' hmem
  · obtain rfl := List.mem_singleton.mp hmem
    rcases hplaced with ⟨old, hold, hcode, hlength, -⟩ | hruns
    · rw [← hcode, ← hlength]
      exact h old hold
    · exact hruns

/-- **A change leaves texts running.** -/
theorem Change.texts (hchange : Change Allow.texts vm vm') (h : RunTexts vm) : RunTexts vm' := by
  cases hchange with
  | newCode code => exact fun env hmem => (h env hmem).mono (List.prefix_append ..)
  | setIp henv hplace => exact h.update (fun _ => rfl) fun _ => rfl
  | setHandler henv hok => exact h.update (fun _ => rfl) fun _ => rfl
  | closure hok hplaced hbindings hparent => exact h.concat hplaced rfl rfl
  | enter hok hplaced hbindings hparent => exact h.concat hplaced rfl rfl
  | @call env hok hplaced hbindings hparent => exact h.concat hplaced (Eq.refl (vm.envs ++ [env])) rfl
  | _ => exact h

/-- So do all changes of a round. -/
theorem Changes.texts (hchanges : Changes Allow.texts vm vm') (h : RunTexts vm) : RunTexts vm' := by
  induction hchanges with
  | refl => exact h
  | tail _ hchange ih => exact hchange.texts ih

/-- A round only goes on in the code of its environment, but for `asm`, which assembles a text. -/
theorem permits_texts (hlex : host.lex = readText false) (h : RunTexts vm) : Permits Allow.texts host vm where
  null _ _ := trivial
  write _ _ _ _ _ := trivial
  asm _ _ _ _ _ _ := trivial
  cont _ _ _ _ := trivial
  restore _ _ _ _ _ _ _ _ := trivial
  sized := False.elim
  next env code instr next henv _ _ := h env (List.mem_of_getElem? henv)
  target env code o target next henv _ _ _ := h env (List.mem_of_getElem? henv)
  start hnext bytes hassembles := by
    obtain ⟨str, tokens, hread, htokens⟩ := hassembles
    rw [hlex] at hread
    exact .inr ⟨_, List.getElem?_concat_length, false, str, tokens, bytes, hread, htokens, rfl, rfl⟩

/-! ## Runs

`vm_eval` of one text after another, and what `asm` adds, in rounds that leave the environments in place. -/

/-- **The states of a machine that executes texts.** -/
inductive Executes (host : Host) : VmInternal → Prop
  | create : Executes host vmCreate
  | eval {vm : VmInternal} {debug : Bool} {str : List UInt8} {tokens : List (Token (List UInt8))} {bytes : List UInt8} :
      Executes host vm → vm.running = false → readText debug str = some tokens → asmString tokens = some bytes →
      (∀ env, vm.envs[vm.env]? = some env → env.handler = false) → Executes host (startBytes bytes vm)
  | reset {vm : VmInternal} : Executes host vm → vm.running = false → Executes host (vmReset vm)
  | step {vm vm' : VmInternal} : Executes host vm → Step host vm vm' → StaysInPlace vm → Executes host vm'

/-- A text is assembled code. -/
theorem Executes.evaluates (h : Executes host vm) : Evaluates host vm := by
  induction h with
  | create => exact .create
  | eval _ hrunning _ htokens hhandler ih => exact ih.eval hrunning htokens hhandler
  | reset _ hrunning ih => exact ih.reset hrunning
  | step _ hstep hstays ih => exact ih.step hstep hstays

/-- **In every run, all environments run texts.** -/
theorem Executes.texts (hlex : host.lex = readText false) (h : Executes host vm) : RunTexts vm := by
  induction h with
  | create =>
    intro env hmem
    obtain rfl := List.mem_singleton.mp hmem
    exact .inl rfl
  | @eval vm debug str tokens bytes _ _ hread htokens _ ih =>
    intro env hmem
    obtain ⟨i, hi⟩ := List.mem_iff_getElem?.mp hmem
    rw [startBytes, startEval, VmInternal.updateEnv, List.getElem?_modify] at hi
    obtain ⟨old, hold, rfl⟩ := Option.map_eq_some_iff.mp hi
    split
    · exact .inr ⟨_, List.getElem?_concat_length, debug, str, tokens, bytes, hread, htokens, rfl, rfl⟩
    · exact (ih old (List.mem_of_getElem? hold)).mono (List.prefix_append ..)
  | @reset vm _ _ ih =>
    intro env hmem
    rcases List.mem_append.mp hmem with hmem | hmem
    · exact ih env hmem
    · obtain rfl := List.mem_singleton.mp hmem
      exact .inl rfl
  | step hruns hstep hstays ih =>
    have hchanges := hstep.changes (A := Allow.texts) hruns.evaluates.sound (permits_texts hlex ih)
    exact hchanges.texts ih

/-- The next round is at an instruction of a text. -/
theorem Executes.at_token (hlex : host.lex = readText false) (h : Executes host vm) (hrunning : vm.running = true)
    (hsmall : ∀ env, vm.envs[vm.env]? = some env → env.length < 2 ^ 63) : ∃ env code i next,
      vm.envs[vm.env]? = some env ∧ env.codeRef.bind (vm.codes[·]?) = some code ∧
        decodeAt code env.ip = some (i, next) ∧ next ≤ env.length ∧ WrittenAt code env.length env.ip i.op ∧
          i.op ≠ .isLibrary := by
  obtain ⟨env, c, code, henv, hlt, hc, hcode, -, hentered⟩ := h.evaluates.inPlace.current hrunning
  have hbind : env.codeRef.bind (vm.codes[·]?) = some code := by rw [hc, Option.bind_some, hcode]
  rcases h.texts hlex env (List.mem_of_getElem? henv) with hnone | ⟨code', hcode', debug, str, tokens, bytes, hread,
    htokens, hlength, rfl⟩
  · cases hc.symm.trans hnone
  obtain rfl := Option.some.inj (hbind.symm.trans hcode')
  have hbytes : bytes.length < 2 ^ 63 := hlength ▸ hsmall env henv
  obtain ⟨pre, t, post, i, hsplit, hpre, hi⟩ := hentered.token htokens hbytes (spells_getD bytes) (hlength ▸ hlt)
  have hdecode := decodeAt_token htokens hbytes (spells_getD bytes) hsplit (hpre.symm ▸ hi)
  rw [hpre] at hdecode
  have hsum : codeSize tokens = env.ip + (t.size + codeSize post) := by
    rw [hsplit, codeSize_append, codeSize_cons, hpre]
  have htotal := length_of_asmString htokens
  refine ⟨env, _, i, _, henv, hbind, hdecode, by omega, ⟨debug, str, tokens, bytes, hread, htokens, hlength, rfl, pre, t,
    post, i, hsplit, hpre.symm, hi, rfl⟩, fun hlibrary => ?_⟩
  have hmem : t ∈ tokens := by
    rw [hsplit]
    simp
  cases t with
  | op o plain =>
    cases hi
    obtain rfl : o = .isLibrary := hlibrary
    exact readText_library hread plain hmem
  | jump o takes l =>
    cases hi
    obtain rfl : o = .isLibrary := hlibrary
    cases takes
  | label => cases hi
  | _ =>
    cases hi
    cases hlibrary

/-- **The fetch of a round is closed** unless it executes `nop` or a character at the end of the code, in every run of
a machine that executes texts. -/
theorem fetch_is_closed_iff (hlex : host.lex = readText false) (h : Executes host vm) (hrunning : vm.running = true)
    (hsmall : ∀ env, vm.envs[vm.env]? = some env → env.length < 2 ^ 63) : vm.FetchIsClosed host ↔ vm.NoSlip := by
  obtain ⟨env, code, i, next, henv, hcode, hdecode, hnext, hwritten, hlibrary⟩ := h.at_token hlex hrunning hsmall
  have hop : vm.nextOp = some i.op := by
    obtain ⟨c, hc, hat⟩ := Option.bind_eq_some_iff.mp hcode
    simp only [VmInternal.nextOp, henv, hc, hat, Option.bind_eq_bind, Option.bind_some]
    exact ofByte?_of_decodeAt hdecode
  have hreads := reads_of_decodeAt hdecode
  refine ⟨VmInternal.FetchIsClosed.noSlip, ?_⟩
  rintro ⟨hnop, hchar⟩
  refine ⟨env, code, i.op, henv, hcode, ofByte?_of_decodeAt hdecode, hwritten, fun a hle ha => ?_,
    ops_isSome.mpr ⟨fun heq => hnop (heq ▸ hop), hlibrary⟩⟩
  split at hreads
  · next heq =>
    have hne := hchar (heq ▸ hop) env henv
    rw [heq] at hreads ha
    change env.ip + 1 + 5 = next + 1 at hreads
    change a ≤ env.ip + 5 at ha
    omega
  · omega

end

/-- A machine with the assembler, that begins with a text. -/
def Host.assembling : Host := { Host.bare with lex := readText false }

/-- The state in which `vm_eval` begins with a text. -/
def beginsWith (str : List UInt8) : Option VmInternal :=
  ((readText false str).bind asmString).map fun bytes => startBytes bytes vmCreate

/-- It is one of a run. -/
theorem executes_beginsWith {str : List UInt8} {vm : VmInternal} (h : beginsWith str = some vm) :
    Executes Host.assembling vm := by
  obtain ⟨bytes, hbytes, rfl⟩ := Option.map_eq_some_iff.mp h
  obtain ⟨tokens, hread, htokens⟩ := Option.bind_eq_some_iff.mp hbytes
  refine .eval .create rfl hread htokens fun env henv => ?_
  obtain rfl : rootEnv 2 = env := Option.some.inj henv
  rfl

/-- Rounds that leave environments in place go on with a run. -/
theorem Executes.steps {host : Host} {vm vm' : VmInternal} (h : Executes host vm)
    (hsteps : Relation.ReflTransGen (fun vm vm' => Step host vm vm' ∧ StaysInPlace vm) vm vm') : Executes host vm' := by
  induction hsteps with
  | refl => exact h
  | tail _ hstep ih => exact ih.step hstep.1 hstep.2

/-- An exception is handled, and a character is read with the instruction behind it. -/
theorem fetch_is_closed_handled : ∃ vm, Executes Host.assembling vm ∧ vm.nextOp = some .litChar ∧
    (vm.FetchIsClosed Host.assembling ↔ vm.NoSlip) ∧ vm.FetchIsClosed Host.assembling := by
  have hruns : ((beginsWith (text "continue L () car L: #\\a drop")).bind (quietly Host.assembling 3)).any
      (fun vm => vm.running ∧ vm.nextOp = some .litChar ∧
        ∀ env ∈ vm.envs[vm.env]?, env.length < 2 ^ 63 ∧ env.ip + 5 ≠ env.length) = true := by
    decide +kernel
  obtain ⟨vm, hrun, hvm⟩ := (Option.any_eq_true _ _).mp hruns
  obtain ⟨begun, hbegun, hrun⟩ := Option.bind_eq_some_iff.mp hrun
  obtain ⟨hrunning, hnext, henv⟩ := of_decide_eq_true hvm
  have h := (executes_beginsWith hbegun).steps (quietly_steps hrun)
  have hiff := fetch_is_closed_iff rfl h hrunning fun env hmem => (henv env hmem).1
  refine ⟨vm, h, hnext, hiff, hiff.mpr ⟨?_, fun _ env hmem => (henv env hmem).2⟩⟩
  rw [hnext]
  nofun

/-- **The texts `nop` and `#\a`**: there is no function for the first one's operation, and the last byte that is read
of the second one is behind its code. -/
theorem fetch_leaves_code : ∃ vm₁ vm₂, beginsWith (text "nop") = some vm₁ ∧ beginsWith (text "#\\a") = some vm₂ ∧
    Executes Host.assembling vm₁ ∧ Executes Host.assembling vm₂ ∧ vm₁.running = true ∧ vm₂.running = true ∧
      ¬ vm₁.FetchIsClosed Host.assembling ∧ ¬ vm₂.FetchIsClosed Host.assembling := by
  have hnop : (beginsWith (text "nop")).any (fun vm => vm.running ∧ vm.nextOp = some .nop) = true := by decide +kernel
  have hchar : (beginsWith (text "#\\a")).any (fun vm => vm.running ∧ vm.nextOp = some .litChar ∧
      ∃ env ∈ vm.envs[vm.env]?, env.ip + 5 = env.length) = true := by
    decide +kernel
  obtain ⟨vm₁, h₁, hvm₁⟩ := (Option.any_eq_true _ _).mp hnop
  obtain ⟨vm₂, h₂, hvm₂⟩ := (Option.any_eq_true _ _).mp hchar
  obtain ⟨hrunning₁, hnext₁⟩ := of_decide_eq_true hvm₁
  obtain ⟨hrunning₂, hnext₂, env, henv, hlast⟩ := of_decide_eq_true hvm₂
  exact ⟨vm₁, vm₂, h₁, h₂, executes_beginsWith h₁, executes_beginsWith h₂, hrunning₁, hrunning₂,
    fun h => h.noSlip.1 hnext₁, fun h => h.noSlip.2 hnext₂ env henv hlast⟩

end Insomniac.Vm

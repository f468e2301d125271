import Insomniac.Asm.Agree
import Insomniac.Vm.Steps

/-!
# Vm/Literals — what the instructions of literals push

    ip ──▸ op · operand · …          stack_root ──▸ s
                  ip ──▸ …           stack_root ──▸ r ──▸ s

A state is `Ahead` of some bytes when they are next in its code.  A round there that `Pushes` an object
leaves it on top of the stack that was.
-/

open Bytes Insomniac.Asm Run

namespace Insomniac.Vm

/-- **Some bytes are next** in the code that is executed, and all of them are before its end. -/
structure VmInternal.Ahead (vm : VmInternal) (env : Env) (code : Code) (bytes : List UInt8) : Prop where
  current : vm.envs[vm.env]? = some env
  codeRef : ∃ c, env.codeRef = some c ∧ vm.codes[c]? = some code
  spells : code.Spells env.ip bytes
  room : env.ip + bytes.length ≤ env.length

/-- Whether some bytes are next in the code that is executed. -/
def VmInternal.isAhead (vm : VmInternal) (bytes : List UInt8) : Bool :=
  vm.envs[vm.env]?.any fun env => (env.codeRef.bind (vm.codes[·]?)).any fun code =>
    code.slice env.ip bytes.length = bytes && env.ip + bytes.length ≤ env.length

/-- Whether bytes are next can be tested. -/
theorem VmInternal.ahead_of_isAhead {vm : VmInternal} {bytes : List UInt8} (h : vm.isAhead bytes = true) :
    ∃ env code, vm.Ahead env code bytes := by
  obtain ⟨env, henv, h⟩ := (Option.any_eq_true _ _).mp h
  obtain ⟨code, hcode, h⟩ := (Option.any_eq_true _ _).mp h
  obtain ⟨c, hc, hcode⟩ := Option.bind_eq_some_iff.mp hcode
  obtain ⟨hslice, hroom⟩ := Bool.and_eq_true_iff.mp h
  refine ⟨env, code, henv, ⟨c, hc, hcode⟩, fun i hi => ?_, of_decide_eq_true hroom⟩
  have hget : (code.slice env.ip bytes.length)[i]? = bytes[i]? := by rw [of_decide_eq_true hslice]
  rw [List.getElem?_eq_getElem hi] at hget
  simpa [Code.slice, hi] using hget

/-- **One round pushes an object**, wherever some bytes are next. -/
def Pushes (host : Host) (bytes : List UInt8) (P : VmInternal → Ref → Prop) : Prop :=
  ∀ (vm : VmInternal) (env : Env) (code : Code), vm.Ahead env code bytes → ∃ vm' r, Step host vm vm' ∧
    vm'.Top r vm.stackRoot ∧ vm'.depth = vm.depth + 1 ∧ P vm' r

section

variable {vm : VmInternal} {env : Env} {code : Code} {o : Op} {bytes : List UInt8} {host : Host} {P : VmInternal → Ref → Prop}

/-- Where an instruction is next, the loop goes on. -/
theorem VmInternal.Ahead.running (h : vm.Ahead env code (o.byte :: bytes)) : vm.running = true := by
  have hroom := h.room
  rw [List.length_cons] at hroom
  simp only [VmInternal.running, h.current]
  exact decide_eq_true (by omega)

/-- **The operation is fetched**, and its operand is next. -/
theorem VmInternal.Ahead.fetch (h : vm.Ahead env code (o.byte :: bytes)) {m : VmM Unit}
    (hm : ops host handleException o = some m) :
    (vm.goto (env.ip + 1)).Ahead { env with ip := env.ip + 1 } code bytes ∧
      evalStep host vm = m (vm.goto (env.ip + 1)) := by
  obtain ⟨c, hc, hcode⟩ := h.codeRef
  obtain ⟨hop, hspells⟩ := Code.Spells.cons_iff.mp h.spells
  have hroom := h.room
  rw [List.length_cons] at hroom
  refine ⟨⟨getElem?_goto h.current _, ⟨c, hc, hcode⟩, hspells, ?_⟩, ?_⟩
  · change env.ip + 1 + bytes.length ≤ env.length
    omega
  have hfetch : Vm.fetch vm = .ok (o.byte, vm.goto (env.ip + 1)) := by
    refine (run_bind (ofOption_run h.current)).trans ((run_bind (codeOf_run hc hcode)).trans
      ((run_bind (skip_run h.current 1)).trans ?_))
    rw [hop]
    rfl
  refine (run_bind hfetch).trans ?_
  simp only [Op.ofByte?_byte, Option.bind_some, hm]

/-- An operation that makes an object out of its operand. -/
theorem pushes_of_run {m : VmM Unit} (hm : ops host handleException o = some m)
    (hrun : ∀ (vm : VmInternal) (env : Env), vm.Ahead env code bytes →
      ∃ (vm₁ : VmInternal) (r : Ref), m vm = .ok ((), vm₁.push (some r)) ∧
      vm₁.stackRoot = vm.stackRoot ∧ vm₁.depth = vm.depth ∧ P (vm₁.push (some r)) r)
    (h : vm.Ahead env code (o.byte :: bytes)) : ∃ vm' r, Step host vm vm' ∧
    vm'.Top r vm.stackRoot ∧ vm'.depth = vm.depth + 1 ∧ P vm' r := by
  obtain ⟨hnext, hstep⟩ := h.fetch hm
  obtain ⟨vm₁, r, hm, hroot, hdepth, hP⟩ := hrun _ _ hnext
  refine ⟨vm₁.push (some r), r, ⟨h.running, hstep.trans hm⟩, ?_, congrArg (· + 1) hdepth, hP⟩
  have htop := top_push vm₁ r
  rwa [hroot] at htop

end

section

variable {L : Type} (labels : L → Option ℕ) (addr : ℕ) (host : Host)

/-- **A number is pushed.** -/
theorem pushes_fixnum (i : Int64) : Pushes host ((Token.fixnum i : Token L).encode labels addr) fun vm r =>
    vm.deref r = some (.fixnum i) := fun _ _ _ =>
  pushes_of_run rfl fun vm env h => by
    obtain ⟨c, hc, hcode⟩ := h.codeRef
    refine ⟨{ vm.goto (env.ip + 8) with objs := vm.objs ++ [.fixnum i] }, .obj vm.objs.length, ?_, rfl, rfl, ?_⟩
    · refine (run_bind (parseInt_run h.current hc hcode)).trans ?_
      rw [parseInt_int64 h.spells]
      rfl
    · exact List.getElem?_concat_length

/-- **A character is pushed.** -/
theorem pushes_char (character : UInt32) : Pushes host ((Token.char character : Token L).encode labels addr) fun vm r =>
    vm.deref r = some (.char character) := fun _ _ _ =>
  pushes_of_run rfl fun vm env h => by
    obtain ⟨c, hc, hcode⟩ := h.codeRef
    refine ⟨{ vm.goto (env.ip + 4) with objs := vm.objs ++ [.char character] }, .obj vm.objs.length, ?_, rfl, rfl, ?_⟩
    · refine (run_bind (ofOption_run h.current)).trans ((run_bind (codeOf_run hc hcode)).trans
        ((run_bind (skip_run h.current 4)).trans ?_))
      rw [parseChar_char32 h.spells]
      rfl
    · exact List.getElem?_concat_length

/-- **A string is pushed**, with its length and its bytes. -/
theorem pushes_string {str : List UInt8} (hlen : (cstr str).length < 2 ^ 63) :
    Pushes host ((Token.string str : Token L).encode labels addr) fun vm r => ∃ a,
      vm.deref r = some (.string (Int64.ofNat (cstr str).length) a) ∧ vm.bytes[a]? = some (cstr str ++ [0]) :=
  fun _ _ _ => pushes_of_run rfl fun vm env h => by
    obtain ⟨c, hc, hcode⟩ := h.codeRef
    refine ⟨{ vm.goto (env.ip + 8 + (cstr str).length) with
        bytes := vm.bytes ++ [cstr str ++ [0]]
        objs := vm.objs ++ [.string (Int64.ofNat (cstr str).length) vm.bytes.length] }, .obj vm.objs.length, ?_, rfl, rfl,
      vm.bytes.length, ?_, ?_⟩
    · exact run_bind (parseString_run h.current hc hcode (parseString_litString hlen h.spells))
    · exact List.getElem?_concat_length
    · exact List.getElem?_concat_length

end

/-! ## Symbols

A symbol that was met before is the one that is pushed; a new one is interned first. -/

/-- The object is a symbol of some bytes: it has their length, and they are in its array. -/
def IsSymbol (vm : VmInternal) (r : Ref) (str : List UInt8) : Prop :=
  ∃ a, vm.deref r = some (.symbol (Int64.ofNat str.length) a) ∧ ∃ rest, vm.bytes[a]? = some (str ++ rest)

theorem isSymbol_push {vm : VmInternal} {p : Ptr} {str : List UInt8} : ∀ {r : Ref},
    IsSymbol (vm.push p) r str ↔ IsSymbol vm r str
  | .obj _ => Iff.rfl
  | .cell _ => by
      constructor <;>
      · rintro ⟨a, hderef, -⟩
        obtain ⟨_, -, hpair⟩ := Option.map_eq_some_iff.mp hderef
        cases hpair

/-- A state in which the string of a literal has been made. -/
def VmInternal.withString (vm : VmInternal) (str : List UInt8) : VmInternal :=
  { vm with
    bytes := vm.bytes ++ [str ++ [0]]
    objs := vm.objs ++ [.string (Int64.ofNat str.length) vm.bytes.length] }

/-- What the symbol table has under a name. -/
def VmInternal.interned (host : Host) (vm : VmInternal) (name : List UInt8) : Option Ref :=
  (vm.tables[vm.symbolTable]?).bind (getEntry host vm vm.symbolTable name)

section

variable {host : Host} {vm : VmInternal} {str : List UInt8} {entries : List Entry}

/-- The bytes of the new string are its name. -/
theorem name_withString (hnul : ∀ b ∈ str, b ≠ 0) :
    (vm.withString str).bytes[vm.bytes.length]?.bind cstr? = some str := by
  have hget : (vm.withString str).bytes[vm.bytes.length]? = some (str ++ [0]) := List.getElem?_concat_length
  rw [hget, Option.bind_some, cstr?_append_zero, cstr_eq_self hnul]

/-- The new string has its length and its bytes. -/
theorem stringFields_withString : stringFields (.obj vm.objs.length) (vm.withString str) =
    .ok ((Int64.ofNat str.length, vm.bytes.length), vm.withString str) := by
  have hget : (vm.withString str).objs[vm.objs.length]? = some (.string (Int64.ofNat str.length) vm.bytes.length) :=
    List.getElem?_concat_length
  exact ofOption_run (by simp [VmInternal.deref, hget, Obj.stringFields])

/-- The table of symbols is asked for the new name. -/
theorem hashGet_withString (hnul : ∀ b ∈ str, b ≠ 0) (ht : vm.tables[vm.symbolTable]? = some entries) :
    hashGet host vm.symbolTable vm.bytes.length (vm.withString str) =
      .ok ((vm.withString str).interned host str, vm.withString str) := by
  have hfound : (vm.withString str).interned host str = getEntry host (vm.withString str) vm.symbolTable str entries :=
    congrArg (fun o : Option (List Entry) => o.bind (getEntry host (vm.withString str) vm.symbolTable str)) ht
  rw [hfound]
  exact @hashGet_run host (vm.withString str) _ _ _ _ (name_withString hnul) ht

/-- **`make_symbol` of a literal whose name is taken** gives what the table has. -/
theorem makeSymbol_taken (hnul : ∀ b ∈ str, b ≠ 0) (ht : vm.tables[vm.symbolTable]? = some entries) {r : Ref}
    (hr : (vm.withString str).interned host str = some r) :
    makeSymbol host (.obj vm.objs.length) (vm.withString str) = .ok (r, vm.withString str) := by
  have hget := @hashGet_withString host _ _ _ hnul ht
  rw [hr] at hget
  exact (run_bind stringFields_withString).trans ((run_bind (a := vm.withString str) rfl).trans (run_bind hget))

/-- **`make_symbol` of a literal whose name is new** makes its string a symbol. -/
theorem makeSymbol_new (hnul : ∀ b ∈ str, b ≠ 0) (ht : vm.tables[vm.symbolTable]? = some entries)
    (hr : (vm.withString str).interned host str = none) :
    ∃ tables, makeSymbol host (.obj vm.objs.length) (vm.withString str) = .ok (.obj vm.objs.length,
      { vm.withString str with
        objs := vm.objs ++ [.symbol (Int64.ofNat str.length) vm.bytes.length], tables }) := by
  have hget := @hashGet_withString host _ _ _ hnul ht
  rw [hr] at hget
  let vm₁ : VmInternal := { vm.withString str with
    objs := vm.objs ++ [.symbol (Int64.ofNat str.length) vm.bytes.length] }
  have hstore : store (.obj vm.objs.length) (.symbol (Int64.ofNat str.length) vm.bytes.length) (vm.withString str) =
      .ok ((), vm₁) := by
    have hset : (vm.withString str).objs.set vm.objs.length (.symbol (Int64.ofNat str.length) vm.bytes.length) = vm₁.objs :=
      List.set_append_right vm.objs.length _ le_rfl |>.trans (by simp [vm₁])
    rw [store, hset]
  have hset : hashSet host vm.symbolTable vm.bytes.length (.obj vm.objs.length) vm₁ = _ :=
    hashSet_run (name_withString hnul) ht
  exact ⟨_, (run_bind stringFields_withString).trans ((run_bind (a := vm.withString str) rfl).trans ((run_bind hget).trans
    ((run_bind hstore).trans (run_bind hset))))⟩

/-- A state in which a literal has been parsed, and its string made. -/
def VmInternal.parsed (vm : VmInternal) (env : Env) (str : List UInt8) : VmInternal :=
  (vm.goto (env.ip + 9 + str.length)).withString str

variable {L : Type} {labels : L → Option ℕ} {addr : ℕ} {env : Env} {code : Code}

/-- **A round at a symbol's literal** pushes what `make_symbol` gives. -/
theorem litSymbol_run (hnul : ∀ b ∈ str, b ≠ 0) (hlen : str.length < 2 ^ 63)
    (h : vm.Ahead env code ((Token.symbol str : Token L).encode labels addr)) {r : Ref} {vm₁ : VmInternal}
    (hmake : makeSymbol host (.obj vm.objs.length) (vm.parsed env str) = .ok (r, vm₁)) :
    Step host vm (vm₁.push (some r)) := by
  obtain ⟨hnext, hstep⟩ := h.fetch (m := opLitSymbol host) rfl
  obtain ⟨c, hc, hcode⟩ := hnext.codeRef
  have hcstr : cstr str = str := cstr_eq_self hnul
  have hparse := parseString_litString (hcstr.symm ▸ hlen) hnext.spells
  rw [hcstr] at hparse
  have hrun := parseString_run hnext.current hc hcode hparse
  rw [goto_goto] at hrun
  have hparsed : parseString (vm.goto (env.ip + 1)) = .ok (.obj vm.objs.length, vm.parsed env str) := by
    rw [hrun]
    have hip : env.ip + 1 + 8 + str.length = env.ip + 9 + str.length := by omega
    simp only [VmInternal.parsed, VmInternal.withString]
    rw [← hip]
    rfl
  exact ⟨h.running, hstep.trans ((run_bind hparsed).trans (run_bind hmake))⟩

/-- **A symbol's literal pushes a symbol of its text** exactly when the name is new, or that of such a symbol. -/
theorem litSymbol_iff (hnul : ∀ b ∈ str, b ≠ 0) (hlen : str.length < 2 ^ 63)
    (ht : vm.tables[vm.symbolTable]? = some entries)
    (h : vm.Ahead env code ((Token.symbol str : Token L).encode labels addr)) :
    (∃ vm' r, Step host vm vm' ∧ vm'.Top r vm.stackRoot ∧ vm'.depth = vm.depth + 1 ∧ IsSymbol vm' r str) ↔
      ∀ r, (vm.parsed env str).interned host str = some r → IsSymbol (vm.parsed env str) r str := by
  cases hr : (vm.parsed env str).interned host str with
  | some r =>
    have hmake := @makeSymbol_taken host (vm.goto (env.ip + 9 + str.length)) _ _ hnul ht _ hr
    have hrun := litSymbol_run hnul hlen h hmake
    have htop := top_push (vm.parsed env str) r
    constructor
    · rintro ⟨vm', r', hstep, htop', -, hsymbol⟩ _ ⟨⟩
      cases hrun.2.symm.trans hstep.2
      cases htop.symm.trans htop'
      exact isSymbol_push.mp hsymbol
    · exact fun hsymbol => ⟨_, r, hrun, htop, rfl, isSymbol_push.mpr (hsymbol r rfl)⟩
  | none =>
    obtain ⟨tables, hmake⟩ := @makeSymbol_new host (vm.goto (env.ip + 9 + str.length)) _ _ hnul ht hr
    exact iff_of_true ⟨_, _, litSymbol_run hnul hlen h hmake, top_push _ _, rfl, vm.bytes.length,
      List.getElem?_concat_length, [0], List.getElem?_concat_length⟩ (by simp)

end

end Insomniac.Vm

import Insomniac.Vm.Runs

/-!
# Vm/Symbols — interning

    symbol_table:  name ──▸ SYMBOL object ──▸ byte array that holds the name

`make_symbol` turns a string object into a symbol where it is, and the key of its entry is the byte
array of the string.  As long as nothing is stored to the byte array of a symbol, a name has one symbol
for good.
-/

open Bytes Insomniac.Asm Run

namespace Insomniac.Vm

/-! ## Interned symbols

The table and the objects agree: each entry is a symbol of its name, and each symbol is the entry of its name. -/

/-- **The symbols are the values of the symbol table**, each under its name. -/
structure InternedIn (entries : List Entry) (vm : VmInternal) : Prop where
  table : vm.tables[0]? = some entries
  keys : ∀ e ∈ entries, vm.name e.key = some e.name ∧
    ∃ (n : ℕ) (length : Int64), vm.objs[n]? = some (.symbol length e.key)
  symbols : ∀ (n : ℕ) (length : Int64) (bytes : ℕ), vm.objs[n]? = some (.symbol length bytes) →
    ∃ name, vm.name bytes = some name ∧ lookup entries name = some (.obj n)

/-- The symbols that are there stay, with their names. -/
structure KeepsSymbols (vm vm' : VmInternal) : Prop where
  objs : ∀ (n : ℕ) (length : Int64) (bytes : ℕ), vm.objs[n]? = some (.symbol length bytes) →
    vm'.objs[n]? = some (.symbol length bytes)
  bytes : ∀ (n : ℕ) (length : Int64) (bytes : ℕ) (bs : List UInt8),
    vm.objs[n]? = some (.symbol length bytes) → vm.bytes[bytes]? = some bs → vm'.bytes[bytes]? = some bs

section

variable {vm vm' : VmInternal} {entries : List Entry} {n : ℕ} {length : Int64} {bytes : ℕ}
  {name : List UInt8}

/-- Where objects and bytes are the same, symbols are. -/
theorem KeepsSymbols.of_eq (hobjs : vm'.objs = vm.objs) (hbytes : vm'.bytes = vm.bytes) :
    KeepsSymbols vm vm' where
  objs n length bytes hn := by rw [hobjs, hn]
  bytes n length bytes bs hn hbs := by rw [hbytes, hbs]

/-- What is kept twice is kept. -/
theorem KeepsSymbols.trans {vm'' : VmInternal} (h : KeepsSymbols vm vm') (h' : KeepsSymbols vm' vm'') :
    KeepsSymbols vm vm'' where
  objs n length bytes hn := h'.objs n length bytes (h.objs n length bytes hn)
  bytes n length bytes bs hn hbs :=
    h'.bytes n length bytes bs (h.objs n length bytes hn) (h.bytes n length bytes bs hn hbs)

/-- A symbol that stays keeps its name. -/
theorem KeepsSymbols.name_eq (h : KeepsSymbols vm vm') (hn : vm.objs[n]? = some (.symbol length bytes))
    (hname : vm.name bytes = some name) : vm'.name bytes = some name := by
  obtain ⟨bs, hbs, hcstr⟩ := Option.bind_eq_some_iff.mp hname
  rw [VmInternal.name, h.bytes n length bytes bs hn hbs]
  exact hcstr

/-- Nothing new is interned. -/
theorem InternedIn.keep (h : InternedIn entries vm) (hkeeps : KeepsSymbols vm vm')
    (htable : vm'.tables[0]? = vm.tables[0]?)
    (hobjs : ∀ (n : ℕ) (length : Int64) (bytes : ℕ), vm'.objs[n]? = some (.symbol length bytes) →
      vm.objs[n]? = some (.symbol length bytes)) : InternedIn entries vm' where
  table := htable.trans h.table
  keys := by
    intro e he
    obtain ⟨hname, n, length, hn⟩ := h.keys e he
    exact ⟨hkeeps.name_eq hn hname, n, length, hkeeps.objs n length e.key hn⟩
  symbols := by
    intro n length bytes hn
    obtain ⟨name, hname, hlookup⟩ := h.symbols n length bytes (hobjs n length bytes hn)
    exact ⟨name, hkeeps.name_eq (hobjs n length bytes hn) hname, hlookup⟩

/-- The keys of the symbol table are what they were. -/
theorem InternedIn.keysKept (h : InternedIn entries vm) : vm.keysKept entries = true :=
  List.all_eq_true.mpr fun e he => decide_eq_true (h.keys e he).1

/-- An object whose name is not interned is no symbol yet. -/
theorem InternedIn.not_symbol (h : InternedIn entries vm) {o : Obj} (ho : vm.objs[n]? = some o)
    (hstring : o.stringFields = some (length, bytes)) (hname : vm.name bytes = some name)
    (hlookup : lookup entries name = none) : ∀ (length' : Int64) (bytes' : ℕ), o ≠ .symbol length' bytes' := by
  rintro length' bytes' rfl
  cases hstring
  obtain ⟨name', hname', hlookup'⟩ := h.symbols n length bytes ho
  cases hname.symm.trans hname'
  cases hlookup.symm.trans hlookup'

/-- A found value is the symbol of that name. -/
theorem InternedIn.symbol_of_lookup (h : InternedIn entries vm) {r : Ref}
    (hlookup : lookup entries name = some r) : ∃ (m : ℕ) (length : Int64) (bytes : ℕ),
      r = .obj m ∧ vm.objs[m]? = some (.symbol length bytes) ∧ vm.name bytes = some name := by
  obtain ⟨e, he, rfl⟩ := Option.map_eq_some_iff.mp hlookup
  have hmem := List.mem_of_find?_eq_some he
  have hname : e.name = name := by simpa using List.find?_some he
  obtain ⟨hkey, m, length, hm⟩ := h.keys e hmem
  obtain ⟨name', hname', hlookup'⟩ := h.symbols m length e.key hm
  cases hkey.symm.trans hname'
  rw [hname] at hkey hlookup'
  exact ⟨m, length, e.key, Option.some.inj (hlookup.symm.trans hlookup'), hm, hkey⟩

end

/-! ## Changes

A change that leaves the bytes of symbols alone keeps the agreement, and may add an entry. -/

/-- Nothing may be stored to the byte array of a symbol. -/
def Allow.names : Allow where
  null := True
  write vm bs := ∀ (n : ℕ) (length : Int64), vm.objs[n]? ≠ some (.symbol length bs)
  handler _ _ := True
  sized := False

section

variable {objs : List Obj} {o o' : Obj} {m n : ℕ} {length : Int64} {bytes : ℕ}

/-- A new object is no symbol. -/
theorem symbol_of_concat (ho : ∀ length bytes, o ≠ .symbol length bytes)
    (h : (objs ++ [o])[n]? = some (.symbol length bytes)) : objs[n]? = some (.symbol length bytes) := by
  rcases getElem?_concat h with h | ⟨-, h⟩
  · exact h
  · exact absurd h.symm (ho length bytes)

/-- Nor is one that is written over. -/
theorem symbol_of_set (ho' : ∀ length bytes, o' ≠ .symbol length bytes)
    (h : (objs.set m o')[n]? = some (.symbol length bytes)) : objs[n]? = some (.symbol length bytes) := by
  rcases getElem?_set_of_some h with h | ⟨-, h⟩
  · exact h
  · exact absurd h.symm (ho' length bytes)

/-- Writing to an object that is not a symbol. -/
theorem symbol_set (hm : objs[m]? = some o) (ho : ∀ length bytes, o ≠ .symbol length bytes)
    (h : objs[n]? = some (.symbol length bytes)) : (objs.set m o')[n]? = some (.symbol length bytes) := by
  have hne : m ≠ n := by
    rintro rfl
    exact ho length bytes (Option.some.inj (hm.symm.trans h))
  rw [List.getElem?_set_ne hne, h]

/-- A plain object is no symbol. -/
theorem Obj.Plain.ne_symbol (h : o.Plain) : ∀ length bytes, o ≠ .symbol length bytes := by
  rintro length bytes rfl
  exact h

theorem Obj.Sized.ne_symbol (h : o.Sized) : ∀ length bytes, o ≠ .symbol length bytes := by
  rintro length bytes rfl
  exact h

end

/-- **Interning** a new name. -/
theorem InternedIn.intern {entries : List Entry} {vm : VmInternal} (h : InternedIn entries vm)
    (htables : 0 < vm.tables.length) {n : ℕ} {o : Obj} {length : Int64} {bytes : ℕ} {name : List UInt8}
    (ho : vm.objs[n]? = some o) (hstring : o.stringFields = some (length, bytes))
    (hname : vm.name bytes = some name) (hlookup : lookup entries name = none) :
    InternedIn (⟨bytes, name, .obj n⟩ :: entries) { vm with
      objs := vm.objs.set n (.symbol length bytes)
      tables := vm.tables.set 0 (⟨bytes, name, .obj n⟩ :: entries) } where
  table := List.getElem?_set_self htables
  keys := by
    obtain ⟨hn, -⟩ := List.getElem?_eq_some_iff.mp ho
    intro e he
    rcases List.mem_cons.mp he with rfl | he
    · exact ⟨hname, n, length, List.getElem?_set_self hn⟩
    · obtain ⟨hkey, m, length', hm⟩ := h.keys e he
      exact ⟨hkey, m, length', symbol_set ho (h.not_symbol ho hstring hname hlookup) hm⟩
  symbols := by
    intro m length' bytes' hm
    rcases getElem?_set_of_some hm with hm | ⟨rfl, hsymbol⟩
    · obtain ⟨name', hname', hlookup'⟩ := h.symbols m length' bytes' hm
      have hne : name ≠ name' := by
        rintro rfl
        cases hlookup.symm.trans hlookup'
      exact ⟨name', hname', by simpa [lookup, hne] using hlookup'⟩
    · cases hsymbol
      exact ⟨name, hname, by simp [lookup]⟩

/-- **A change keeps symbols, and keeps them interned.** -/
theorem Change.interned {entries : List Entry} {vm vm' : VmInternal} (hchange : Change Allow.names vm vm')
    (hs : Sound True vm) (h : InternedIn entries vm) :
    KeepsSymbols vm vm' ∧ ∃ entries', InternedIn entries' vm' := by
  have hsame : ∀ {vm' : VmInternal}, KeepsSymbols vm vm' → vm'.tables[0]? = vm.tables[0]? →
      (∀ (n : ℕ) (length : Int64) (bytes : ℕ), vm'.objs[n]? = some (.symbol length bytes) →
        vm.objs[n]? = some (.symbol length bytes)) →
      KeepsSymbols vm vm' ∧ ∃ entries', InternedIn entries' vm' :=
    fun hkeeps htable hobjs => ⟨hkeeps, entries, h.keep hkeeps htable hobjs⟩
  have htables : 0 < vm.tables.length := Nat.lt_of_succ_lt hs.tables
  have happend : ∀ o : Obj, ∀ vm' : VmInternal, vm'.objs = vm.objs ++ [o] → vm.bytes <+: vm'.bytes →
      KeepsSymbols vm vm' := by
    rintro o vm' hobjs ⟨new, hbytes⟩
    exact ⟨fun n l b hn => by rw [hobjs]; exact getElem?_append_of_some hn,
      fun n l b bs hn hbs => by rw [← hbytes]; exact getElem?_append_of_some hbs⟩
  cases hchange with
  | alloc ho => exact hsame (happend _ _ rfl List.prefix_rfl) rfl fun _ _ _ => symbol_of_concat ho.ne_symbol
  | allocBytes bs ho howns =>
    exact hsame (happend _ _ rfl (List.prefix_append _ _)) rfl fun _ _ _ => symbol_of_concat ho.ne_symbol
  | allocArray ho hps howns =>
    exact hsame (happend _ _ rfl List.prefix_rfl) rfl fun _ _ _ => symbol_of_concat ho.ne_symbol
  | slice hn => exact hsame (happend _ _ rfl List.prefix_rfl) rfl fun _ _ _ => symbol_of_concat (by rintro _ _ ⟨⟩)
  | closure hok hbindings hparent =>
    exact hsame (happend _ _ rfl List.prefix_rfl) rfl fun _ _ _ => symbol_of_concat (by rintro _ _ ⟨⟩)
  | call hok hbindings hparent =>
    exact hsame (happend _ _ rfl List.prefix_rfl) rfl fun _ _ _ => symbol_of_concat (by rintro _ _ ⟨⟩)
  | newBytes bs =>
    exact hsame ⟨fun _ _ _ h => h, fun _ _ _ _ _ hbs => getElem?_append_of_some hbs⟩ rfl fun _ _ _ h => h
  | newTable hentries => exact hsame (.of_eq rfl rfl) (List.getElem?_append_left htables) fun _ _ _ h => h
  | setTable ht hold hname hkey hnew hentries hallowed =>
    exact hsame (.of_eq rfl rfl) (List.getElem?_set_ne ht) fun _ _ _ h => h
  | setPair hpair hcar hcdr hallowed =>
    refine hsame ⟨fun _ _ _ => symbol_set hpair (by rintro _ _ ⟨⟩), fun _ _ _ _ _ hbs => hbs⟩ rfl
      fun _ _ _ => symbol_of_set (by rintro _ _ ⟨⟩)
  | @setByte bs i old b hbs hwrite hends =>
    refine hsame ⟨fun _ _ _ h => h, fun n l bytes content hn hcontent => ?_⟩ rfl fun _ _ _ h => h
    have hne : bs ≠ bytes := by
      rintro rfl
      exact hwrite n l hn
    exact (List.getElem?_set_ne hne).trans hcontent
  | @intern n o length bytes name old new ho hstring hname hold hnew hvalues =>
    cases h.table.symm.trans hold
    obtain ⟨hlookup, rfl⟩ := hnew h.keysKept
    have hinsert : insert entries bytes name (.obj n) = ⟨bytes, name, .obj n⟩ :: entries := by
      have hnone : entries.find? (fun e => e.name = name) = none := Option.map_eq_none_iff.mp hlookup
      rw [insert, if_neg]
      simpa using hnone
    rw [hinsert]
    refine ⟨⟨fun _ _ _ => symbol_set ho (h.not_symbol ho hstring hname hlookup), fun _ _ _ _ _ hbs => hbs⟩, _,
      h.intern htables ho hstring hname hlookup⟩
  | _ => exact hsame (.of_eq rfl rfl) rfl fun _ _ _ h => h

/-! ## Runs

As long as no round writes to the name of a symbol, all symbols that were interned stay. -/

/-- The next round does not store to the byte array of a symbol. -/
def VmInternal.KeepsNames (vm : VmInternal) : Prop :=
  vm.nextOp = some .indexSet → ∀ bs, vm.WritesTo bs →
    ∀ (n : ℕ) (length : Int64), vm.objs[n]? ≠ some (.symbol length bs)

/-- A round that keeps names makes such changes only. -/
theorem permits_names {host : Host} {vm : VmInternal} (h : vm.KeepsNames) : Permits Allow.names host vm where
  null _ _ := trivial
  write hnext bs hwrites vm₁ hobjs := by
    intro n length hn
    rw [hobjs] at hn
    exact h hnext bs hwrites n length hn
  asm _ _ _ _ _ _ := trivial
  cont _ _ _ _ := trivial
  restore _ _ _ _ _ _ _ _ := trivial
  sized := False.elim

/-- **Interned symbols stay interned.** -/
theorem Changes.interned {entries : List Entry} {vm vm' : VmInternal} (h : Changes Allow.names vm vm')
    (hs : Sound True vm) (hin : InternedIn entries vm) :
    KeepsSymbols vm vm' ∧ ∃ entries', InternedIn entries' vm' := by
  induction h with
  | refl => exact ⟨.of_eq rfl rfl, entries, hin⟩
  | tail hchanges hchange ih =>
    obtain ⟨hkeeps, entries', hin'⟩ := ih
    obtain ⟨hkeeps', hin''⟩ := hchange.interned (Changes.sound hchanges hs) hin'
    exact ⟨hkeeps.trans hkeeps', hin''⟩

/-- The owner of the machine leaves them alone. -/
theorem Call.interned {entries : List Entry} {vm vm' : VmInternal} (h : Call vm vm')
    (hs : Sound True vm) (hin : InternedIn entries vm) :
    KeepsSymbols vm vm' ∧ InternedIn entries vm' := by
  have htables : 0 < vm.tables.length := Nat.lt_of_succ_lt hs.tables
  have hkeeps : KeepsSymbols vm vm' := by cases h <;> exact .of_eq rfl rfl
  refine ⟨hkeeps, hin.keep hkeeps ?_ ?_⟩
  · cases h with
    | reset => exact List.getElem?_append_left htables
    | _ => rfl
  · cases h <;> exact fun _ _ _ h => h

/-- **Every later state** has the symbols that were there, and they are still interned. -/
theorem LaterIf.interned {host : Host} {entries : List Entry} {vm vm' : VmInternal}
    (h : LaterIf host VmInternal.KeepsNames vm vm') (hs : Sound True vm) (hin : InternedIn entries vm) :
    KeepsSymbols vm vm' ∧ ∃ entries', InternedIn entries' vm' := by
  induction h with
  | refl => exact ⟨.of_eq rfl rfl, entries, hin⟩
  | tail hlater hnext ih =>
    obtain ⟨hkeeps, entries', hin'⟩ := ih
    have hs' : Sound True _ := LaterIf.sound (A := Allow.names) (fun _ => permits_names) hlater hs
    cases hnext with
    | step h hc =>
      obtain ⟨hkeeps', hin''⟩ := (h.changes hs' (permits_names hc)).interned hs' hin'
      exact ⟨hkeeps.trans hkeeps', hin''⟩
    | call h =>
      obtain ⟨hkeeps', hin''⟩ := h.interned hs' hin'
      exact ⟨hkeeps.trans hkeeps', entries', hin''⟩

/-! ## What the symbol table and `sym` do

A name that is in the table is not added a second time, so two symbols of one name are one object. -/

section

variable {host : Host} {throw : Throw} {vm : VmInternal} {entries : List Entry} {n : ℕ} {length : Int64}
  {bytes : ℕ} {name : List UInt8} {cdr : Ref}

/-- The table is asked by name. -/
theorem InternedIn.getEntry (h : InternedIn entries vm) (name : List UInt8) :
    getEntry host vm 0 name entries = lookup entries name := by
  rw [Vm.getEntry, if_pos h.keysKept]

/-- The table leads from the name of a symbol to it. -/
theorem InternedIn.hashGet (h : InternedIn entries vm) (host : Host) (hs : Sound True vm)
    (hn : vm.objs[n]? = some (.symbol length bytes)) :
    ∃ name, vm.name bytes = some name ∧
      hashGet host vm.symbolTable bytes vm = .ok (some (.obj n), vm) := by
  obtain ⟨name, hname, hlookup⟩ := h.symbols n length bytes hn
  refine ⟨name, hname, ?_⟩
  rw [hs.symbolTable, hashGet_run hname h.table, h.getEntry, hlookup]

/-- `make_symbol` of a string whose name is interned. -/
theorem makeSymbol_run_found (h : InternedIn entries vm) (hs : Sound True vm)
    (hn : vm.objs[n]? = some (.string length bytes)) (hname : vm.name bytes = some name) {r : Ref}
    (hlookup : lookup entries name = some r) : makeSymbol host (.obj n) vm = .ok (r, vm) := by
  have hfields : stringFields (.obj n) vm = .ok ((length, bytes), vm) :=
    ofOption_run (by simp [VmInternal.deref, hn, Obj.stringFields])
  have hget : Vm.hashGet host vm.symbolTable bytes vm = .ok (some r, vm) := by
    rw [hs.symbolTable, hashGet_run hname h.table, h.getEntry, hlookup]
  exact (run_bind hfields).trans ((run_bind rfl).trans (run_bind hget))

/-- `make_symbol` of a string whose name is new. -/
theorem makeSymbol_run_new (h : InternedIn entries vm) (hs : Sound True vm)
    (hn : vm.objs[n]? = some (.string length bytes)) (hname : vm.name bytes = some name)
    (hlookup : lookup entries name = none) : makeSymbol host (.obj n) vm = .ok (.obj n, { vm with
      objs := vm.objs.set n (.symbol length bytes)
      tables := vm.tables.set 0 (insert entries bytes name (.obj n)) }) := by
  have hfields : stringFields (.obj n) vm = .ok ((length, bytes), vm) :=
    ofOption_run (by simp [VmInternal.deref, hn, Obj.stringFields])
  have hget : Vm.hashGet host vm.symbolTable bytes vm = .ok (none, vm) := by
    rw [hs.symbolTable, hashGet_run hname h.table, h.getEntry, hlookup]
  let vm₁ : VmInternal := { vm with objs := vm.objs.set n (.symbol length bytes) }
  have hset : hashSet host vm.symbolTable bytes (.obj n) vm₁ = .ok ((), { vm₁ with
      tables := vm.tables.set 0 (insert entries bytes name (.obj n)) }) := by
    have hkept : vm₁.keysKept entries = true := h.keysKept
    have hname₁ : vm₁.bytes[bytes]?.bind cstr? = some name := hname
    have hzero : hashSet host vm.symbolTable = hashSet host 0 := by rw [hs.symbolTable]
    rw [hzero, hashSet_run hname₁ h.table, setEntries, if_pos hkept]
  exact (run_bind hfields).trans ((run_bind rfl).trans ((run_bind hget).trans
    ((run_bind (t := vm₁) rfl).trans (run_bind hset))))

/-- What `sym` leaves of a state with a string on the stack: a symbol of its name is on the stack, and
nothing else is changed, or else that string is now the symbol, the first one of its name. -/
def Symbolizes (vm : VmInternal) (n : ℕ) (length : Int64) (bytes : ℕ) (cdr : Ref) (vm' : VmInternal) :
    Prop :=
  ∃ (m : ℕ) (length' : Int64) (bytes' : ℕ) (objs : List Obj) (tables : List (List Entry)),
    vm' = VmInternal.push { vm.pop cdr with objs, tables } (some (.obj m)) ∧
      objs[m]? = some (.symbol length' bytes') ∧ vm.name bytes' = vm.name bytes ∧
      (objs = vm.objs ∧ tables = vm.tables ∨
        (∀ (i : ℕ) (length' : Int64) (bytes' : ℕ), vm.objs[i]? = some (.symbol length' bytes') →
          vm.name bytes' ≠ vm.name bytes) ∧
        objs = vm.objs.set n (.symbol length bytes) ∧ ∀ t ≠ 0, tables[t]? = vm.tables[t]?)

/-- **`op_make_symbol` of a string.** -/
theorem opMakeSymbol_run (h : InternedIn entries vm) (hs : Sound True vm) (htop : vm.Top (.obj n) cdr)
    (hn : vm.objs[n]? = some (.string length bytes)) (hname : vm.name bytes = some name) :
    ∃ vm', opMakeSymbol host throw vm = .ok ((), vm') ∧ Symbolizes vm n length bytes cdr vm' := by
  have hload : load (.obj n) (vm.pop cdr) = .ok (.string length bytes, vm.pop cdr) := ofOption_run hn
  have hcheck : checkString throw (.obj n) (vm.pop cdr) = .ok ((), vm.pop cdr) := run_bind hload
  have hsymbol : ∀ {r : Ref} {vm₁ : VmInternal}, makeSymbol host (.obj n) (vm.pop cdr) = .ok (r, vm₁) →
      opMakeSymbol host throw vm = .ok ((), vm₁.push (some r)) := fun hmake =>
    (run_bind (vmPop_run htop)).trans ((run_bind hcheck).trans (run_bind hmake))
  have hin : InternedIn entries (vm.pop cdr) := h.keep (.of_eq rfl rfl) rfl fun _ _ _ h => h
  have hs' : Sound True (vm.pop cdr) := hs.pop htop
  cases hlookup : lookup entries name with
  | some r =>
    obtain ⟨m, length', bytes', rfl, hm, hname'⟩ := h.symbol_of_lookup hlookup
    exact ⟨_, hsymbol (makeSymbol_run_found hin hs' hn hname hlookup), m, length', bytes', vm.objs, vm.tables,
      rfl, hm, hname'.trans hname.symm, .inl ⟨rfl, rfl⟩⟩
  | none =>
    obtain ⟨hlt, -⟩ := List.getElem?_eq_some_iff.mp hn
    refine ⟨_, hsymbol (makeSymbol_run_new hin hs' hn hname hlookup), n, length, bytes, _, _, rfl,
      List.getElem?_set_self hlt, rfl, .inr ⟨fun i length' bytes' hi hsame => ?_, rfl, fun t ht => ?_⟩⟩
    · obtain ⟨name', hname', hlookup'⟩ := h.symbols i length' bytes' hi
      cases hname'.symm.trans (hsame.trans hname)
      cases hlookup.symm.trans hlookup'
    · exact List.getElem?_set_ne ht.symm

end

/-- At the start no symbol is interned. -/
theorem interned_vmCreate : InternedIn [] vmCreate where
  table := rfl
  keys := by simp
  symbols := by
    intro n length bytes hn
    have hmem : Obj.symbol length bytes ∈ [.empty, .bool true, .bool false] := List.mem_of_getElem? hn
    simp at hmem

/-- `dup`, and `sym` of one of the two. -/
def symOfDup : List (Token ℕ) := [.string "a", .op .dupRef Op.noOperand, .op .makeSymbol Op.noOperand]

/-- A byte of a string is written after `sym` of it. -/
def writesName : List (Token ℕ) :=
  [.fixnum 0, .fixnum 98, .string "a", .op .dupRef Op.noOperand, .op .stringByteVector Op.noOperand, .op .swap Op.noOperand,
    .op .makeSymbol Op.noOperand, .op .drop Op.noOperand, .op .indexSet Op.noOperand]

/-- **Symbols are not strings of their own**: the string that was left on the stack is a symbol after
`sym`, and the name of a symbol can be written to. -/
theorem symbols_share : (∃ vm vm', Reachable Host.bare vm ∧ Later Host.bare vm vm' ∧
      vm.operand 1 = some (.obj 3) ∧ vm.objs[3]? = some (.string 1 0) ∧
      vm'.operand 1 = some (.obj 3) ∧ vm'.objs[3]? = some (.symbol 1 0)) ∧
    ∃ vm vm', Reachable Host.bare vm ∧ Later Host.bare vm vm' ∧
      vm.objs[5]? = some (.symbol 1 0) ∧ vm.name 0 = some "a" ∧
      vm'.objs[5]? = some (.symbol 1 0) ∧ vm'.name 0 = some "b" := by
  have hdup : passes (vmLoop Host.bare 2) (startBytes ((asmString symOfDup).getD []) vmCreate) (fun vm =>
      (vm.operand 1 = some (.obj 3) && vm.objs[3]? = some (.string 1 0)) &&
        passes (vmLoop Host.bare 1) vm fun vm =>
          vm.operand 1 = some (.obj 3) && vm.objs[3]? = some (.symbol 1 0)) = true := by
    decide +kernel
  have hwrite : passes (vmLoop Host.bare 8) (startBytes ((asmString writesName).getD []) vmCreate) (fun vm =>
      (vm.objs[5]? = some (.symbol 1 0) && vm.name 0 = some (text "a")) &&
        passes (vmLoop Host.bare 1) vm fun vm =>
          vm.objs[5]? = some (.symbol 1 0) && vm.name 0 = some (text "b")) = true := by
    decide +kernel
  obtain ⟨vm, vm', hvm, hvm', h, h'⟩ := reached hdup
  obtain ⟨vm₁, vm₁', hvm₁, hvm₁', h₁, h₁'⟩ := reached hwrite
  simp only [Bool.and_eq_true, decide_eq_true_eq] at h h' h₁ h₁'
  exact ⟨⟨vm, vm', hvm, hvm', h.1, h.2, h'⟩, vm₁, vm₁', hvm₁, hvm₁', h₁.1, h₁.2, h₁'⟩

/-- **Symbols are interned** while nothing is stored to the byte array of a symbol: symbols with one
name are one object, every symbol keeps its name and is what the symbol table has for it, and `sym`
changes nothing but the type of a string whose name has no symbol yet. -/
theorem symbols_stay_interned {host : Host} {vm : VmInternal}
    (h : LaterIf host VmInternal.KeepsNames vmCreate vm) :
    (∀ (n m : ℕ) (length length' : Int64) (bytes bytes' : ℕ),
      vm.objs[n]? = some (.symbol length bytes) → vm.objs[m]? = some (.symbol length' bytes') →
        (vm.name bytes = vm.name bytes' ↔ n = m)) ∧
    (∀ (n : ℕ) (length : Int64) (bytes : ℕ), vm.objs[n]? = some (.symbol length bytes) →
      ∃ name, ∀ vm', LaterIf host VmInternal.KeepsNames vm vm' →
        vm'.objs[n]? = some (.symbol length bytes) ∧ vm'.name bytes = some name ∧
          hashGet host vm'.symbolTable bytes vm' = .ok (some (.obj n), vm')) ∧
    ∀ (n : ℕ) (length : Int64) (bytes : ℕ) (name : List UInt8) (cdr : Ref) (throw : Throw),
      vm.Top (.obj n) cdr → vm.objs[n]? = some (.string length bytes) → vm.name bytes = some name →
      ∃ vm', opMakeSymbol host throw vm = .ok ((), vm') ∧ Symbolizes vm n length bytes cdr vm' := by
  have hsound : ∀ {vm vm' : VmInternal}, LaterIf host VmInternal.KeepsNames vm vm' → Sound True vm →
      Sound True vm' := LaterIf.sound (A := Allow.names) fun _ => permits_names
  have hs := hsound h (sound_vmCreate True)
  obtain ⟨-, entries, hin⟩ := h.interned (sound_vmCreate True) interned_vmCreate
  refine ⟨fun n m length length' bytes bytes' hn hm => ⟨fun hname => ?_, ?_⟩, fun n length bytes hn => ?_,
    fun n length bytes name cdr throw htop hn hname => opMakeSymbol_run hin hs htop hn hname⟩
  · obtain ⟨name₁, hname₁, hlookup₁⟩ := hin.symbols n length bytes hn
    obtain ⟨name₂, hname₂, hlookup₂⟩ := hin.symbols m length' bytes' hm
    cases hname₁.symm.trans (hname.trans hname₂)
    exact Ref.obj.inj (Option.some.inj (hlookup₁.symm.trans hlookup₂))
  · rintro rfl
    cases hn.symm.trans hm
    rfl
  · obtain ⟨name, hname, -⟩ := hin.symbols n length bytes hn
    refine ⟨name, fun vm' hlater => ?_⟩
    obtain ⟨hkeeps, entries', hin'⟩ := hlater.interned hs hin
    have hn' := hkeeps.objs n length bytes hn
    obtain ⟨name', hname', hget⟩ := hin'.hashGet host (hsound hlater hs) hn'
    exact ⟨hn', hkeeps.name_eq hn hname, hget⟩

/-- `sym` of the first string. -/
theorem symbols_stay_interned_string : ∃ vm, LaterIf Host.bare VmInternal.KeepsNames vmCreate vm ∧
    ∃ vm', opMakeSymbol Host.bare handleException vm = .ok ((), vm') ∧
      Symbolizes vm 3 1 0 (.obj 0) vm' := by
  let vm₀ := startBytes (Op.litString.byte :: litString "a") vmCreate
  have hpasses : passes (evalStep Host.bare) vm₀ (fun vm =>
      vm.deref vm.stackRoot = some (.pair (some (.obj 3)) (some (.obj 0))) &&
        vm.objs[3]? = some (.string 1 0) && vm.name 0 = some (text "a")) = true := by decide +kernel
  obtain ⟨⟨⟩, vm, hrun, hvm⟩ := exists_of_passes hpasses
  simp only [Bool.and_eq_true, decide_eq_true_eq] at hvm
  have hnext : vm₀.nextOp = some .litString := rfl
  have hkeeps : vm₀.KeepsNames := fun h => absurd (hnext.symm.trans h) (by decide)
  have h : LaterIf Host.bare VmInternal.KeepsNames vmCreate vm :=
    .tail (later_startBytes _ rfl) (.step ⟨rfl, hrun⟩ hkeeps)
  obtain ⟨-, -, hsym⟩ := symbols_stay_interned h
  exact ⟨vm, h, hsym 3 1 0 "a" (.obj 0) handleException hvm.1.1 hvm.1.2 hvm.2⟩

end Insomniac.Vm

import Insomniac.Vm.Steps

/-!
# Vm/Runs — every reached state is in order

    vmCreate ──Call──▸ · ──Changes──▸ · ──Changes──▸ · ──Call──▸ …

A round is a sequence of changes, and what the owner does in between keeps the order too.
-/

open Bytes Insomniac.Asm Run

namespace Insomniac.Vm

/-- The machine is in order at the start. -/
theorem sound_vmCreate (null : Prop) : Sound null vmCreate where
  cars := by simp [vmCreate]
  fields := by simp [vmCreate, Obj.Fields]
  slots := by simp [vmCreate]
  values := by simp [vmCreate]
  stack := ⟨0, .nil, rfl⟩
  empty := ⟨0, rfl, rfl⟩
  booleans := ⟨trivial, trivial⟩
  current := by simp [vmCreate]
  parents := by
    intro i env p hi hp
    have hmem : env ∈ [rootEnv 2] := List.mem_of_getElem? hi
    obtain rfl := List.mem_singleton.mp hmem
    cases hp
  closures := by
    intro n e hn
    have hmem : Obj.closure e ∈ [.empty, .bool true, .bool false] := List.mem_of_getElem? hn
    simp at hmem
  tables := by simp [vmCreate]
  symbolTable := rfl
  importTable := rfl
  bindings := by simp [vmCreate, rootEnv]

/-- What the owner does keeps the order. -/
theorem Call.sound {null : Prop} {vm vm' : VmInternal} (h : Call vm vm') (hs : Sound null vm) :
    Sound null vm' := by
  cases h with
  | load code => exact { hs with }
  | eval length hrunning hcode => exact hs.updateEnv (fun _ => rfl) fun _ => rfl
  | reset hrunning =>
    have hbindings : vm.tables.length ≠ 0 := (Nat.lt_of_succ_lt hs.tables).ne'
    have henv : Sound null (vm.enter (rootEnv vm.tables.length)) :=
      hs.newEnv hbindings (.inr rfl) (by rintro p ⟨⟩)
    exact
      { henv with
        stack := ⟨0, .nil, rfl⟩
        tables := by simpa [vmReset] using Nat.lt_succ_of_lt hs.tables
        values := by
          intro t hmem
          rcases List.mem_append.mp hmem with hmem | hmem
          · exact hs.values t hmem
          · obtain rfl := List.mem_singleton.mp hmem
            simp }

/-- A round that is permitted is made of allowed changes. -/
theorem Step.changes {A : Allow} {host : Host} {vm vm' : VmInternal} (h : Step host vm vm')
    (hs : Sound A.null vm) (hpermits : Permits A host vm) : Changes A vm vm' :=
  ((evalStep_changes hs hpermits).of_ok h.2).1

/-- **A state that is reached from one in order is in order**, when each round asks for what is
allowed. -/
theorem LaterIf.sound {A : Allow} {host : Host} {C : VmInternal → Prop} {vm vm' : VmInternal}
    (hC : ∀ vm, C vm → Permits A host vm) (h : LaterIf host C vm vm') (hs : Sound A.null vm) :
    Sound A.null vm' := by
  induction h with
  | refl => exact hs
  | tail _ hnext ih =>
    cases hnext with
    | step h hc => exact (h.changes ih (hC _ hc)).sound ih
    | call h => exact h.sound ih

/-- Everything is allowed. -/
def Allow.all : Allow where
  null := True
  write _ _ := True
  handler _ _ := True
  sized := False

/-- Where everything is allowed, every round is permitted. -/
theorem permits_all (host : Host) (vm : VmInternal) : Permits Allow.all host vm where
  null _ _ := trivial
  write _ _ _ _ _ := trivial
  asm _ _ _ _ _ _ := trivial
  cont _ _ _ _ := trivial
  restore _ _ _ _ _ _ _ _ := trivial
  sized := False.elim

/-- **A run keeps the state in order.** -/
theorem Later.sound {host : Host} {vm vm' : VmInternal} (h : Later host vm vm') (hs : Sound True vm) :
    Sound True vm' :=
  LaterIf.sound (A := Allow.all) (fun vm _ => permits_all host vm) h hs

theorem Reachable.sound {host : Host} {vm : VmInternal} (h : Reachable host vm) : Sound True vm :=
  Later.sound h (sound_vmCreate True)

/-! ## Constants

The first three objects are the constants of the machine, in every state. -/

/-- The constants of the machine are where it has them. -/
structure Constants (vm : VmInternal) : Prop where
  empty : vm.deref vm.empty = some .empty
  vmTrue : vm.deref vm.vmTrue = some (.bool true)
  vmFalse : vm.deref vm.vmFalse = some (.bool false)

/-- An object that is neither a pair nor has bytes stays as it is. -/
theorem Change.fixed {A : Allow} {vm vm' : VmInternal} (h : Change A vm vm') {n : ℕ} {o : Obj}
    (hn : vm.objs[n]? = some o) (hpair : o.type ≠ .pair) (hstring : o.stringFields = none) : vm'.objs[n]? = some o := by
  have hset : ∀ {m : ℕ} {old new : Obj}, vm.objs[m]? = some old → old ≠ o → (vm.objs.set m new)[n]? = some o := by
    intro m old new hm hne
    have hmn : m ≠ n := by
      rintro rfl
      exact hne (Option.some.inj (hm.symm.trans hn))
    rw [List.getElem?_set_ne hmn, hn]
  cases h with
  | alloc | allocBytes | allocArray | slice | closure | call => exact getElem?_append_of_some hn
  | setPair hm =>
    refine hset hm ?_
    rintro rfl
    exact hpair rfl
  | intern hm hfields =>
    refine hset hm ?_
    rintro rfl
    cases hstring.symm.trans hfields
  | _ => exact hn

/-- The constants are the first three objects. -/
structure FirstObjects (vm : VmInternal) : Prop where
  empty : vm.empty = .obj 0 ∧ vm.objs[0]? = some .empty
  vmTrue : vm.vmTrue = .obj 1 ∧ vm.objs[1]? = some (.bool true)
  vmFalse : vm.vmFalse = .obj 2 ∧ vm.objs[2]? = some (.bool false)

/-- No change writes to the constants. -/
theorem Changes.firstObjects {A : Allow} {vm vm' : VmInternal} (h : Changes A vm vm') (hf : FirstObjects vm) :
    FirstObjects vm' := by
  induction h with
  | refl => exact hf
  | tail _ hchange ih =>
    have hempty := hchange.fixed ih.empty.2 (by decide) rfl
    have hfalse := hchange.fixed ih.vmFalse.2 (by decide) rfl
    have htrue := hchange.fixed ih.vmTrue.2 (by decide) rfl
    cases hchange <;> exact ⟨⟨ih.empty.1, hempty⟩, ⟨ih.vmTrue.1, htrue⟩, ih.vmFalse.1, hfalse⟩

/-- **Every state has its constants.** -/
theorem Reachable.constants {host : Host} {vm : VmInternal} (h : Reachable host vm) : Constants vm := by
  have hf : FirstObjects vm := by
    induction h with
    | refl => exact ⟨⟨rfl, rfl⟩, ⟨rfl, rfl⟩, rfl, rfl⟩
    | @tail vm₁ _ hreach hnext ih =>
      cases hnext with
      | step h => exact (h.changes (A := Allow.all) (Reachable.sound hreach) (permits_all _ vm₁)).firstObjects ih
      | call h => cases h <;> exact ⟨ih.empty, ih.vmTrue, ih.vmFalse⟩
  refine ⟨?_, ?_, ?_⟩
  · rw [hf.empty.1]
    exact hf.empty.2
  · rw [hf.vmTrue.1]
    exact hf.vmTrue.2
  · rw [hf.vmFalse.1]
    exact hf.vmFalse.2

end Insomniac.Vm

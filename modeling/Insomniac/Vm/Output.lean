import Insomniac.Machinery.Fuel
import Insomniac.Vm.Stack

/-!
# Vm/Output — what printing leaves behind

    output_object  depth++ ─▸ output_pair, output_vector, … ─▸ output_object … ─▸ depth--
                           ╲
                            ─▸ <nil>

What is deeper than the limit is left out, so printing ends on a cycle (`Tracks`).  A null is printed and
`depth` stays as it is there: each null that is printed leaves a level less (`printing_leaves_no_trace_iff`).
-/

open Bytes Fuel Run

namespace Insomniac.Vm

/-! ## What is printed

The objects that printing comes by are those that the object refers to, over any number of references. -/

/-- The object that `output_pair` prints at the end. -/
def tailParts (vm : VmInternal) (pair : Ptr) : List Ptr :=
  if pair.bind vm.deref = some .empty then [] else [pair]

/-- The objects that `output_pair` prints, with the rounds that may follow the first. -/
def pairParts (vm : VmInternal) : (left : ℕ) → (car pair : Ptr) → List Ptr
  | 0, car, pair => car :: tailParts vm pair
  | left + 1, car, pair =>
    match pair.bind vm.deref with
    | some (.pair car' pair) => car :: pairParts vm left car' pair
    | _ => car :: tailParts vm pair

/-- **The parts of an object**: what is printed for it, besides texts. -/
def VmInternal.parts (vm : VmInternal) : Obj → List Ptr
  | .pair car cdr => pairParts vm (outputMaxLength - 1) car cdr
  | .vector length vector | .record length vector => (vm.arrays.getD vector []).take length.toInt.toNat
  | _ => []

/-- **Whether a null is met**, some levels of objects deep. -/
def VmInternal.meetsNull (vm : VmInternal) : (levels : ℕ) → Ptr → Bool
  | 0, _ => false
  | _ + 1, none => true
  | levels + 1, some r => ((vm.deref r).map vm.parts).any fun ps => ps.any (vm.meetsNull levels)

/-- There is an object at a pointer that is not null. -/
def VmInternal.Valid (vm : VmInternal) (p : Ptr) : Prop := ∀ r ∈ p, ∃ o, vm.deref r = some o

/-- **The memory is a graph of objects**: pointers lead to objects or are null, vectors have the slots and strings
the bytes that they say, and the parents of an environment come to an end. -/
structure VmInternal.IsGraph (vm : VmInternal) : Prop where
  pairs : ∀ r car cdr, vm.deref r = some (.pair car cdr) → vm.Valid car ∧ vm.Valid cdr
  vectors : ∀ r length vector, vm.deref r = some (.vector length vector) ∨ vm.deref r = some (.record length vector) →
    length.toInt.toNat ≤ (vm.arrays.getD vector []).length ∧ ∀ p ∈ vm.arrays.getD vector [], vm.Valid p
  strings : ∀ r length bytes, vm.deref r = some (.string length bytes) ∨ vm.deref r = some (.symbol length bytes) →
    ∃ str, vm.bytes[bytes]?.bind cstr? = some str
  byteVectors : ∀ r length vector, vm.deref r = some (.byteVector length vector) →
    length.toInt.toNat ≤ (vm.bytes.getD vector []).length
  closures : ∀ r env, vm.deref r = some (.closure env) → env < vm.envs.length
  parents : ∀ (e : ℕ) (env : Env) (parent : ℕ), vm.envs[e]? = some env → env.parent = some parent → parent < e

/-- **The pointers of a graph**: there are objects at those of them that are not null, and what is printed for these
leads to pointers of the graph again. -/
structure VmInternal.Graph (vm : VmInternal) (S : Ptr → Prop) : Prop where
  valid : ∀ p, S p → vm.Valid p
  pairs : ∀ r car cdr, S (some r) → vm.deref r = some (.pair car cdr) → S car ∧ S cdr
  vectors : ∀ r length vector, S (some r) →
    vm.deref r = some (.vector length vector) ∨ vm.deref r = some (.record length vector) →
      length.toInt.toNat ≤ (vm.arrays.getD vector []).length ∧ ∀ p ∈ vm.arrays.getD vector [], S p
  strings : ∀ r length bytes, S (some r) →
    vm.deref r = some (.string length bytes) ∨ vm.deref r = some (.symbol length bytes) →
      ∃ str, vm.bytes[bytes]?.bind cstr? = some str
  byteVectors : ∀ r length vector, S (some r) → vm.deref r = some (.byteVector length vector) →
    length.toInt.toNat ≤ (vm.bytes.getD vector []).length
  closures : ∀ r env, S (some r) → vm.deref r = some (.closure env) → env < vm.envs.length
  parents : ∀ (e : ℕ) (env : Env) (parent : ℕ), vm.envs[e]? = some env → env.parent = some parent → parent < e

/-- All pointers together are one. -/
theorem VmInternal.IsGraph.graph {vm : VmInternal} (h : vm.IsGraph) : vm.Graph vm.Valid where
  valid _ hp := hp
  pairs r car cdr _ := h.pairs r car cdr
  vectors r length vector _ := h.vectors r length vector
  strings r length bytes _ := h.strings r length bytes
  byteVectors r length vector _ := h.byteVectors r length vector
  closures r env _ := h.closures r env
  parents := h.parents

section Graph

variable {vm : VmInternal} {S : Ptr → Prop}

/-- The parts of a list are among what is printed. -/
theorem tailParts_graph {pair : Ptr} (hpair : S pair) : ∀ p ∈ tailParts vm pair, S p := by
  intro p hp
  rw [tailParts] at hp
  split at hp
  · cases hp
  · rwa [List.mem_singleton.mp hp]

/-- What `output_pair` prints of a list in the graph is in the graph. -/
theorem pairParts_graph (h : vm.Graph S) : ∀ (left : ℕ) (car pair : Ptr), S car → S pair →
    ∀ p ∈ pairParts vm left car pair, S p
  | 0, car, pair, hcar, hpair => List.forall_mem_cons.mpr ⟨hcar, tailParts_graph hpair⟩
  | left + 1, car, pair, hcar, hpair => by
    rw [pairParts]
    split
    · next car' pair' ho =>
      obtain ⟨r, rfl, hr⟩ := Option.bind_eq_some_iff.mp ho
      obtain ⟨hcar', hpair'⟩ := h.pairs r car' pair' hpair hr
      exact List.forall_mem_cons.mpr ⟨hcar, pairParts_graph h left car' pair' hcar' hpair'⟩
    · exact List.forall_mem_cons.mpr ⟨hcar, tailParts_graph hpair⟩

/-- **The parts of an object** of the graph are in the graph. -/
theorem VmInternal.Graph.parts (h : vm.Graph S) {r : Ref} (hr : S (some r)) {o : Obj} (ho : vm.deref r = some o) :
    ∀ p ∈ vm.parts o, S p := by
  have hslots : ∀ {length : Int64} {vector : ℕ},
      vm.deref r = some (.vector length vector) ∨ vm.deref r = some (.record length vector) →
      ∀ p ∈ (vm.arrays.getD vector []).take length.toInt.toNat, S p :=
    fun hv p hp => (h.vectors r _ _ hr hv).2 p (List.mem_of_mem_take hp)
  cases o with
  | pair car cdr =>
    obtain ⟨hcar, hcdr⟩ := h.pairs r car cdr hr ho
    exact pairParts_graph h _ car cdr hcar hcdr
  | vector length vector => exact hslots (.inl ho)
  | record length vector => exact hslots (.inr ho)
  | _ => exact fun _ hp => absurd hp List.not_mem_nil

/-- **No null is met** in a graph without null. -/
theorem VmInternal.Graph.meetsNull (h : vm.Graph S) (hnull : ¬ S none) : ∀ (levels : ℕ) (p : Ptr), S p →
    vm.meetsNull levels p = false
  | 0, _, _ => by rw [VmInternal.meetsNull]
  | _ + 1, none, hp => absurd hp hnull
  | levels + 1, some r, hp => by
    obtain ⟨o, ho⟩ := h.valid _ hp r rfl
    rw [VmInternal.meetsNull, ho, Option.map_some, Option.any_some, List.any_eq_false]
    intro q hq
    rw [h.meetsNull hnull levels q (h.parts hp ho q hq)]
    exact Bool.false_ne_true

end Graph

/-! ## Programs that print

A program that prints is looked at from a depth on, so that a sequence of programs can be looked at part by part. -/

/-- **A program prints, from a depth on**: it ends, what it prints depends on the depth only, and the depth grows
exactly when a null is met. -/
def Tracks (depth : ℕ) (null : Prop) (m : OutM Unit) : Prop :=
  ∀ d, depth ≤ d → ∃ str d', (∀ t, m ⟨t, d⟩ = .ok ((), ⟨t ++ str, d'⟩)) ∧ d ≤ d' ∧ (d = depth → (d' = depth ↔ ¬ null))

section Tracks

variable {depth : ℕ} {null null' : Prop} {m m' : OutM Unit}

theorem tracks_fprintf (str : List UInt8) : Tracks depth False (fprintf str) :=
  fun d _ => ⟨str, d, fun _ => rfl, Nat.le_refl d, fun h => by simp [h]⟩

theorem tracks_pure : Tracks depth False (pure ()) :=
  fun d _ => ⟨[], d, fun t => by rw [List.append_nil]; rfl, Nat.le_refl d, fun h => by simp [h]⟩

/-- The condition may be said in other words. -/
theorem Tracks.congr (h : Tracks depth null m) (hiff : null ↔ null') : Tracks depth null' m :=
  propext hiff ▸ h

/-- **A sequence.** -/
theorem Tracks.bind (h : Tracks depth null m) (h' : Tracks depth null' m') :
    Tracks depth (null ∨ null') (m >>= fun _ => m') := by
  intro d hd
  obtain ⟨str, d₁, hrun, hle, hiff⟩ := h d hd
  obtain ⟨str', d₂, hrun', hle', hiff'⟩ := h' d₁ (Nat.le_trans hd hle)
  refine ⟨str ++ str', d₂, fun t => ?_, Nat.le_trans hle hle', fun heq => ?_⟩
  · rw [run_bind (hrun t), hrun', List.append_assoc]
  · have hfirst := hiff heq
    by_cases hnull : null
    · have hne : d₁ ≠ depth := fun h => hfirst.mp h hnull
      exact iff_of_false (by omega) (fun hno => hno (.inl hnull))
    · rw [hiff' (hfirst.mpr hnull)]
      simp [hnull]

/-- Texts around a program. -/
theorem Tracks.text_bind (str : List UInt8) (h : Tracks depth null m) :
    Tracks depth null (fprintf str >>= fun _ => m) :=
  ((tracks_fprintf str).bind h).congr (by simp)

/-- A text behind it changes nothing. -/
theorem Tracks.bind_text (h : Tracks depth null m) (str : List UInt8) :
    Tracks depth null (m >>= fun _ => fprintf str) :=
  (h.bind (tracks_fprintf str)).congr (by simp)

/-- A space between two elements. -/
theorem Tracks.spaced {p : Prop} [Decidable p] (str : List UInt8) (h : Tracks depth null m) :
    Tracks depth null (if p then fprintf str >>= fun _ => m else m) := by
  split
  · exact h.text_bind str
  · exact h

end Tracks

section Loops

variable {printer : Printer} {vm : VmInternal} {S : Ptr → Prop} {out : Ptr → OutM Unit} {depth : ℕ} {null : Ptr → Bool}

theorem tracks_outputTail (h : vm.Graph S) (hout : ∀ p, S p → Tracks depth (null p = true) (out p)) {pair : Ptr}
    (hpair : S pair) : Tracks depth ((tailParts vm pair).any null = true) (outputTail vm out pair) := by
  cases pair with
  | none => exact ((hout none hpair).text_bind " . ").congr (by simp [tailParts])
  | some r =>
    obtain ⟨o, ho⟩ := h.valid _ hpair r rfl
    have hdot := (hout (some r) hpair).text_bind " . "
    simp only [outputTail, tailParts, Option.bind_some, ho]
    cases o with
    | empty => exact tracks_pure.congr (by simp)
    | _ => exact hdot.congr (by simp)

/-- **The loop of `output_pair`** prints the parts of the list. -/
theorem tracks_outputPairFrom (h : vm.Graph S) (hout : ∀ p, S p → Tracks depth (null p = true) (out p)) :
    ∀ (left : ℕ) (flag : Bool) (car pair : Ptr), S car → S pair →
      Tracks depth ((pairParts vm left car pair).any null = true) (outputPairFrom vm out left flag car pair)
  | 0, flag, car, pair, hcar, hpair => by
    rw [outputPairFrom, pairParts]
    refine Tracks.congr (.spaced (p := flag = true) " " ((hout car hcar).bind (tracks_outputTail h hout hpair))) ?_
    simp
  | left + 1, flag, car, pair, hcar, hpair => by
    have htail := (hout car hcar).bind (tracks_outputTail h hout hpair)
    rw [outputPairFrom, pairParts]
    cases ho : pair.bind vm.deref with
    | none => exact Tracks.congr (.spaced (p := flag = true) " " htail) (by simp)
    | some o =>
      cases o with
      | pair car' pair' =>
        obtain ⟨r, rfl, hr⟩ := Option.bind_eq_some_iff.mp ho
        obtain ⟨hcar', hpair'⟩ := h.pairs r car' pair' hpair hr
        have hrest := tracks_outputPairFrom h hout left true car' pair' hcar' hpair'
        exact Tracks.congr (.spaced (p := flag = true) " " ((hout car hcar).bind hrest)) (by simp)
      | _ => exact Tracks.congr (.spaced (p := flag = true) " " htail) (by simp)

/-- **The loop of `output_vector`** prints the slots. -/
theorem tracks_outputSlots (hout : ∀ p, S p → Tracks depth (null p = true) (out p)) {vector : List Ptr}
    (hvalid : ∀ p ∈ vector, S p) : ∀ (left index : ℕ), index + left ≤ vector.length →
      Tracks depth (((vector.drop index).take left).any null = true) (outputSlots out vector index left)
  | 0, index, _ => by
    rw [outputSlots]
    exact tracks_pure.congr (by simp)
  | left + 1, index, hle => by
    have hlt : index < vector.length := by omega
    have hrest := tracks_outputSlots hout hvalid left (index + 1) (by omega)
    rw [outputSlots, List.drop_eq_getElem_cons hlt, List.take_succ_cons]
    simp only [List.getElem?_eq_getElem hlt]
    refine Tracks.congr (.spaced (p := 0 < index) " " ((hout _ (hvalid _ (List.getElem_mem hlt))).bind hrest)) ?_
    simp

/-- The loop of `output_byte_vector` prints no objects. -/
theorem tracks_outputBytes (bytes : List UInt8) : ∀ (left index : ℕ), index + left ≤ bytes.length →
    Tracks depth False (outputBytes bytes index left)
  | 0, index, _ => by
    rw [outputBytes]
    exact tracks_pure
  | left + 1, index, hle => by
    have hlt : index < bytes.length := by omega
    rw [outputBytes]
    simp only [List.getElem?_eq_getElem hlt]
    exact .spaced (p := 0 < index) " " ((tracks_outputBytes bytes left (index + 1) (by omega)).text_bind _)

/-- The loop over the environments of a closure ends with the last parent. -/
theorem tracks_outputEnvs (h : vm.Graph S) (obj : Ref) : ∀ (fuel : ℕ) (env : Option ℕ),
    (∀ e ∈ env, e < fuel ∧ e < vm.envs.length) → Tracks depth False (outputEnvs printer vm obj fuel env)
  | fuel, none, _ => by
    rw [outputEnvs]
    exact tracks_pure
  | 0, some e, he => absurd (he e rfl).1 (Nat.not_lt_zero e)
  | fuel + 1, some e, he => by
    obtain ⟨hfuel, hlt⟩ := he e rfl
    have henv : vm.envs[e]? = some vm.envs[e] := List.getElem?_eq_getElem hlt
    rw [outputEnvs, henv]
    refine (((tracks_outputEnvs h obj fuel _ fun parent hparent => ?_).text_bind _).text_bind _).text_bind _
    have hless := h.parents e _ parent henv hparent
    omega

/-- **The `switch`** prints the parts of the object. -/
theorem tracks_outputValue (h : vm.Graph S) (hout : ∀ p, S p → Tracks depth (null p = true) (out p))
    {r : Ref} (hr : S (some r)) {o : Obj} (ho : vm.deref r = some o) :
    Tracks depth ((vm.parts o).any null = true) (outputValue printer vm out r o) := by
  have hslots : ∀ {length : Int64} {vector : ℕ} (opening closing : List UInt8),
      vm.deref r = some (.vector length vector) ∨ vm.deref r = some (.record length vector) →
      Tracks depth (((vm.arrays.getD vector []).take length.toInt.toNat).any null = true)
        (outputVector vm out opening closing length vector) := by
    intro length vector opening closing hv
    obtain ⟨hle, hvalid⟩ := h.vectors r length vector hr hv
    have hloop := tracks_outputSlots hout hvalid length.toInt.toNat 0 (by omega)
    rw [List.drop_zero] at hloop
    exact (hloop.bind_text closing).text_bind opening
  cases o with
  | pair car cdr =>
    obtain ⟨hcar, hcdr⟩ := h.pairs r car cdr hr ho
    exact ((tracks_outputPairFrom h hout _ false car cdr hcar hcdr).bind_text ")").text_bind "("
  | vector length vector => exact hslots "#(" ")" (.inl ho)
  | record length vector => exact hslots "<RECORD " ">" (.inr ho)
  | string length bytes =>
    obtain ⟨str, hstr⟩ := h.strings r length bytes hr (.inl ho)
    simp only [outputValue, hstr]
    exact (tracks_fprintf str).congr (by simp [VmInternal.parts])
  | symbol length bytes =>
    obtain ⟨str, hstr⟩ := h.strings r length bytes hr (.inr ho)
    simp only [outputValue, hstr]
    exact (tracks_fprintf str).congr (by simp [VmInternal.parts])
  | byteVector length vector =>
    have hle := h.byteVectors r length vector hr ho
    have hloop : Tracks depth False _ := tracks_outputBytes (vm.bytes.getD vector []) length.toInt.toNat 0 (by omega)
    exact ((hloop.bind_text ")").text_bind "#u8(").congr (by simp [VmInternal.parts])
  | closure env =>
    have hlt := h.closures r env hr ho
    have hloop : Tracks depth False (outputEnvs printer vm r _ _) := tracks_outputEnvs h r _ (some env) fun e he => by
      obtain rfl : env = e := Option.some.inj he
      exact ⟨hlt, hlt⟩
    exact ((hloop.bind_text "\x7d").text_bind "\x7b").congr (by simp [VmInternal.parts])
  | _ => exact (tracks_fprintf _).congr (by simp [VmInternal.parts])

end Loops

/-! ## More fuel

Fuel that was enough stays enough, so the fuel does not show in what is printed. -/

section Extends

variable {printer : Printer} {vm : VmInternal} {out out' : Ptr → OutM Unit}

theorem extends_outputTail (h : ∀ p, Extends (out p) (out' p)) (pair : Ptr) :
    Extends (outputTail vm out pair) (outputTail vm out' pair) := by
  unfold outputTail
  split
  · exact Extends.refl.bind fun _ => h none
  · split
    · exact extends_throw
    · exact .refl
    · exact Extends.refl.bind fun _ => h _

theorem extends_outputPairFrom (h : ∀ p, Extends (out p) (out' p)) : ∀ (left : ℕ) (flag : Bool) (car pair : Ptr),
    Extends (outputPairFrom vm out left flag car pair) (outputPairFrom vm out' left flag car pair)
  | 0, flag, car, pair => by
    have hrest : Extends (out car >>= fun _ => outputTail vm out pair) (out' car >>= fun _ => outputTail vm out' pair) :=
      (h car).bind fun _ => extends_outputTail h pair
    rw [outputPairFrom, outputPairFrom]
    exact .ite (Extends.refl.bind fun _ => hrest) hrest
  | left + 1, flag, car, pair => by
    have hrest : Extends (out car >>= fun _ => match pair.bind vm.deref with
        | some (.pair car pair) => outputPairFrom vm out left true car pair
        | _ => outputTail vm out pair) (out' car >>= fun _ => match pair.bind vm.deref with
        | some (.pair car pair) => outputPairFrom vm out' left true car pair
        | _ => outputTail vm out' pair) := by
      refine (h car).bind fun _ => ?_
      split
      · exact extends_outputPairFrom h left true _ _
      · exact extends_outputTail h pair
    rw [outputPairFrom, outputPairFrom]
    exact .ite (Extends.refl.bind fun _ => hrest) hrest

theorem extends_outputSlots (h : ∀ p, Extends (out p) (out' p)) (vector : List Ptr) : ∀ left index : ℕ,
    Extends (outputSlots out vector index left) (outputSlots out' vector index left)
  | 0, index => .refl
  | left + 1, index => by
    have hrest := extends_outputSlots h vector left (index + 1)
    rw [outputSlots, outputSlots]
    cases vector[index]? with
    | none => exact .ite (Extends.refl.bind fun _ => extends_throw) extends_throw
    | some obj => exact .ite (Extends.refl.bind fun _ => (h obj).bind fun _ => hrest) ((h obj).bind fun _ => hrest)

theorem extends_outputValue (h : ∀ p, Extends (out p) (out' p)) (r : Ref) (o : Obj) :
    Extends (outputValue printer vm out r o) (outputValue printer vm out' r o) := by
  have hvector : ∀ (opening closing : List UInt8) (length : Int64) (vector : ℕ),
      Extends (outputVector vm out opening closing length vector)
        (outputVector vm out' opening closing length vector) :=
    fun _ _ _ _ => Extends.refl.bind fun _ => (extends_outputSlots h _ _ _).bind fun _ => .refl
  cases o with
  | pair car cdr => exact Extends.refl.bind fun _ => (extends_outputPairFrom h _ _ car cdr).bind fun _ => .refl
  | vector length vector => exact hvector _ _ _ _
  | record length vector => exact hvector _ _ _ _
  | _ => exact .refl

/-- **More fuel** changes nothing where printing ends. -/
theorem extends_outputObject : ∀ (fuel more : ℕ) (p : Ptr),
    Extends (outputObject printer vm fuel p) (outputObject printer vm (fuel + more) p)
  | 0, _, _ => extends_throw
  | fuel + 1, more, p => by
    have hadd : fuel + 1 + more = fuel + more + 1 := by omega
    rw [hadd]
    refine Extends.refl.bind fun _ => Extends.refl.bind fun o => .ite .refl ?_
    cases p with
    | none => exact .refl
    | some r =>
      dsimp only
      cases vm.deref r with
      | none => exact .refl
      | some o => exact (extends_outputValue (extends_outputObject fuel more) r o).bind fun _ => .refl

end Extends

/-! ## Printing an object

What is deeper than the limit is one text, and a null is another; the rest is printed part by part.  The
induction is on how much of the limit is left. -/

section Object

variable {printer : Printer} {vm : VmInternal}

/-- What is too deep is three dots. -/
theorem outputObject_deep {fuel d : ℕ} (hdeep : outputMaxDepth ≤ d + 1) (p : Ptr) (t : List UInt8) :
    outputObject printer vm (fuel + 1) p ⟨t, d⟩ = .ok ((), ⟨t ++ " ...", d⟩) := by
  change (if outputMaxDepth ≤ d + 1 then _ else _ : OutM Unit) ⟨t, d + 1⟩ = _
  rw [if_pos hdeep]
  rfl

/-- A null is `<nil>`, and the level stays. -/
theorem outputObject_null {fuel d : ℕ} (hdeep : ¬ outputMaxDepth ≤ d + 1) (t : List UInt8) :
    outputObject printer vm (fuel + 1) none ⟨t, d⟩ = .ok ((), ⟨t ++ "<nil>", d + 1⟩) := by
  change (if outputMaxDepth ≤ d + 1 then _ else _ : OutM Unit) ⟨t, d + 1⟩ = _
  rw [if_neg hdeep]
  rfl

/-- Everything else gives back its level. -/
theorem outputObject_value {fuel d d' : ℕ} (hdeep : ¬ outputMaxDepth ≤ d + 1) {r : Ref} {o : Obj}
    (ho : vm.deref r = some o) {t t' : List UInt8}
    (hrun : outputValue printer vm (outputObject printer vm fuel) r o ⟨t, d + 1⟩ = .ok ((), ⟨t', d'⟩)) :
    outputObject printer vm (fuel + 1) (some r) ⟨t, d⟩ = .ok ((), ⟨t', d' - 1⟩) := by
  change (if outputMaxDepth ≤ d + 1 then _ else _ : OutM Unit) ⟨t, d + 1⟩ = _
  rw [if_neg hdeep]
  simp only [ho]
  rw [run_bind hrun]
  rfl

/-- **Printing ends at every depth**, and leaves the depth as it was exactly when no null is met. -/
theorem tracks_outputObject {S : Ptr → Prop} (h : vm.Graph S) : ∀ (fuel depth : ℕ) (p : Ptr), outputMaxDepth ≤ fuel + depth →
    0 < fuel → S p →
      Tracks depth (vm.meetsNull (outputMaxDepth - 1 - depth) p = true) (outputObject printer vm fuel p)
  | 0, _, _, _, hpos, _ => absurd hpos (Nat.lt_irrefl 0)
  | fuel + 1, depth, p, hle, _, hp => by
    intro d hd
    by_cases hdeep : outputMaxDepth ≤ d + 1
    · -- what is at the limit is left out
      refine ⟨" ...", d, outputObject_deep hdeep p, Nat.le_refl d, ?_⟩
      rintro rfl
      have hzero : outputMaxDepth - 1 - d = 0 := by omega
      simp [hzero, VmInternal.meetsNull]
    · have hlevels : outputMaxDepth - 1 - depth = outputMaxDepth - 1 - (depth + 1) + 1 := by omega
      cases p with
      | none =>
        refine ⟨"<nil>", d + 1, outputObject_null hdeep, Nat.le_succ d, fun heq => ?_⟩
        rw [hlevels, VmInternal.meetsNull]
        simp only [not_true_eq_false, iff_false]
        omega
      | some r =>
        obtain ⟨o, ho⟩ := h.valid _ hp r rfl
        have hparts : Tracks (depth + 1) _ (outputValue printer vm (outputObject printer vm fuel) r o) :=
          tracks_outputValue h (fun q hq => tracks_outputObject h fuel (depth + 1) q (by omega) (by omega) hq) hp ho
        obtain ⟨str, d', hrun, hle, hiff⟩ := hparts (d + 1) (by omega)
        refine ⟨str, d' - 1, fun t => outputObject_value hdeep ho (hrun t), by omega, fun heq => ?_⟩
        rw [hlevels, VmInternal.meetsNull, ho, Option.map_some, Option.any_some, ← hiff (by omega)]
        omega

/-- **An object of a graph without null** is printed from depth zero, and the depth is zero again. -/
theorem VmInternal.Graph.prints {S : Ptr → Prop} (printer : Printer) (h : vm.Graph S) (hnull : ¬ S none) {p : Ptr}
    (hp : S p) : ∃ str, outputObject printer vm outputMaxDepth p ⟨[], 0⟩ = .ok ((), ⟨str, 0⟩) := by
  have htracks : Tracks 0 _ (outputObject printer vm outputMaxDepth p) :=
    tracks_outputObject h outputMaxDepth 0 p (Nat.le_refl _) (by decide) hp
  obtain ⟨str, d', hrun, -, hiff⟩ := htracks 0 (Nat.le_refl 0)
  have hno : ¬ vm.meetsNull (outputMaxDepth - 1 - 0) p = true := by simp [h.meetsNull hnull _ p hp]
  obtain rfl : d' = 0 := (hiff rfl).mpr hno
  exact ⟨str, hrun []⟩

/-- Objects without null, one after the other, from depth zero. -/
theorem tracks_forM (h : vm.IsGraph) {fuel : ℕ} (hfuel : outputMaxDepth ≤ fuel) :
    ∀ ps : List Ptr, (∀ q ∈ ps, vm.Valid q ∧ vm.meetsNull (outputMaxDepth - 1) q = false) →
      Tracks 0 False (ps.forM (outputObject printer vm fuel))
  | [], _ => tracks_pure
  | q :: ps, hps => by
    obtain ⟨hq, hno⟩ := hps q List.mem_cons_self
    have hfirst : Tracks 0 _ (outputObject printer vm fuel q) :=
      tracks_outputObject h.graph fuel 0 q hfuel (Nat.lt_of_lt_of_le (by decide) hfuel) hq
    have hrest := tracks_forM h hfuel ps fun q' hq' => hps q' (List.mem_cons_of_mem q hq')
    exact (hfirst.bind hrest).congr (by simp [hno])

/-- **Printing leaves no trace** from a depth on: it ends, and the depth is what it was. -/
def LeavesNoTrace (printer : Printer) (vm : VmInternal) (p : Ptr) (d : ℕ) : Prop :=
  ∀ t, ∃ str, Settles (fun fuel => outputObject printer vm fuel p) ⟨t, d⟩ (.ok ((), ⟨t ++ str, d⟩))

/-- A run of a program that prints is its outcome, for a program that more fuel extends. -/
theorem Tracks.settles {depth : ℕ} {null : Prop} {m : ℕ → OutM Unit} {enough : ℕ} (h : Tracks depth null (m enough))
    (hm : ∀ fuel, enough ≤ fuel → Extends (m enough) (m fuel)) : ∃ str d',
      (∀ t, Settles m ⟨t, depth⟩ (.ok ((), ⟨t ++ str, d'⟩))) ∧ (d' = depth ↔ ¬ null) := by
  obtain ⟨str, d', hrun, -, hiff⟩ := h depth (Nat.le_refl depth)
  exact ⟨str, d', fun t => settles_of_extends (hrun t) hm, hiff rfl⟩

/-- **Printing ends**, whatever the objects refer to. -/
theorem outputObject_settles (printer : Printer) (h : vm.IsGraph) {p : Ptr} (hp : vm.Valid p) (d : ℕ) : ∃ str d',
    (∀ t, Settles (fun fuel => outputObject printer vm fuel p) ⟨t, d⟩ (.ok ((), ⟨t ++ str, d'⟩))) ∧
      (d' = d ↔ vm.meetsNull (outputMaxDepth - 1 - d) p = false) := by
  have htracks : Tracks d _ (outputObject printer vm outputMaxDepth p) :=
    tracks_outputObject h.graph outputMaxDepth d p (Nat.le_add_right ..) (by decide) hp
  obtain ⟨str, d', hsettles, hiff⟩ :=
    htracks.settles (m := fun fuel => outputObject printer vm fuel p) fun fuel hle => by
      obtain ⟨more, rfl⟩ := Nat.exists_eq_add_of_le hle
      exact extends_outputObject outputMaxDepth more p
  exact ⟨str, d', hsettles, hiff.trans (by simp)⟩

/-- Objects without null, one after the other, print some text at depth zero. -/
theorem forM_settles (printer : Printer) (h : vm.IsGraph) {ps : List Ptr}
    (hps : ∀ q ∈ ps, vm.Valid q ∧ vm.meetsNull (outputMaxDepth - 1) q = false) : ∃ str,
      Settles (fun fuel => ps.forM (outputObject printer vm fuel)) ⟨[], 0⟩ (.ok ((), ⟨str, 0⟩)) := by
  have htracks : Tracks 0 False (ps.forM (outputObject printer vm outputMaxDepth)) :=
    tracks_forM h (Nat.le_refl outputMaxDepth) ps hps
  obtain ⟨str, d', hsettles, hiff⟩ :=
    htracks.settles (m := fun fuel => ps.forM (outputObject printer vm fuel)) fun fuel hle => by
      obtain ⟨more, rfl⟩ := Nat.exists_eq_add_of_le hle
      exact .forM (extends_outputObject outputMaxDepth more) ps
  obtain rfl : d' = 0 := hiff.mpr not_false
  exact ⟨str, hsettles []⟩

/-- **Printing an object** ends at every depth.  It leaves the depth as it was exactly when no null is met in it, and
after objects without null the same text is printed as before them. -/
theorem printing_leaves_no_trace_iff (printer : Printer) (h : vm.IsGraph) {p : Ptr} (hp : vm.Valid p) :
    (∀ s, ∃ s', Settles (fun fuel => outputObject printer vm fuel p) s (.ok ((), s'))) ∧
      (∀ d, LeavesNoTrace printer vm p d ↔ vm.meetsNull (outputMaxDepth - 1 - d) p = false) ∧
      ∀ before : List Ptr, (∀ q ∈ before, vm.Valid q ∧ vm.meetsNull (outputMaxDepth - 1) q = false) →
        ∃ str d' earlier, Settles (fun fuel => outputObject printer vm fuel p) ⟨[], 0⟩ (.ok ((), ⟨str, d'⟩)) ∧
          Settles (fun fuel => before.forM (outputObject printer vm fuel) >>= fun _ => outputObject printer vm fuel p)
            ⟨[], 0⟩ (.ok ((), ⟨earlier ++ str, d'⟩)) := by
  refine ⟨fun ⟨t, d⟩ => ?_, fun d => ?_, fun before hbefore => ?_⟩
  · obtain ⟨str, d', hsettles, -⟩ := outputObject_settles printer h hp d
    exact ⟨_, hsettles t⟩
  · obtain ⟨str, d', hsettles, hiff⟩ := outputObject_settles printer h hp d
    rw [← hiff]
    constructor
    · intro hno
      obtain ⟨str', hsettles'⟩ := hno []
      cases (hsettles []).unique hsettles'
      rfl
    · rintro rfl t
      exact ⟨str, hsettles t⟩
  · obtain ⟨str, d', hsettles, -⟩ := outputObject_settles printer h hp 0
    obtain ⟨earlier, hearlier⟩ := forM_settles printer h hbefore
    exact ⟨str, d', earlier, hsettles [], hearlier.bind (hsettles earlier)⟩

/-! ## Traces

What printing leaves behind is in `depth` alone, which is what it was unless a null has been printed. -/

/-- The circular list of sevens. -/
def withCircle : VmInternal :=
  { vmCreate with objs := [.fixnum 7, .pair (some (.obj 0)) (some (.obj 1))], envs := [] }

theorem deref_withCircle {r : Ref} {o : Obj} (h : withCircle.deref r = some o) :
    o = .fixnum 7 ∨ o = .pair (some (.obj 0)) (some (.obj 1)) := by
  rcases r with (_ | _ | n) | n
  · exact .inl (Option.some.inj h).symm
  · exact .inr (Option.some.inj h).symm
  · cases h
  · cases h

theorem isGraph_withCircle : withCircle.IsGraph where
  pairs r car cdr h := by
    rcases deref_withCircle h with h | h <;> cases h
    exact ⟨fun r hr => ⟨.fixnum 7, by cases hr; rfl⟩, fun r hr => ⟨_, by cases hr; rfl⟩⟩
  vectors r length vector h := by rcases h with h | h <;> rcases deref_withCircle h with h | h <;> cases h
  strings r length bytes h := by rcases h with h | h <;> rcases deref_withCircle h with h | h <;> cases h
  byteVectors r length vector h := by rcases deref_withCircle h with h | h <;> cases h
  closures r env h := by rcases deref_withCircle h with h | h <;> cases h
  parents e env parent h := by cases h

/-- A printer that prints no addresses. -/
def plainPrinter : Printer := ⟨fun _ _ _ => [], fun _ _ => [], fun _ _ => []⟩

/-- A list that is its own tail is printed up to the limit, without a trace. -/
theorem printing_leaves_no_trace_circle : LeavesNoTrace plainPrinter withCircle (some (.obj 1)) 0 :=
  ((printing_leaves_no_trace_iff plainPrinter isGraph_withCircle fun _ hr => ⟨_, by cases hr; rfl⟩).2.1 0).mpr
    (by decide +kernel)

/-- A vector with a slot that nothing was stored to, a number, and a vector with the number. -/
def withHole : VmInternal :=
  { vmCreate with objs := [.vector 1 0, .fixnum 7, .vector 1 1], arrays := [[none], [some (.obj 1)]] }

/-- **An unset slot leaves a trace**: the depth stays one higher, and when a vector with one has been printed 98 times
`#(7)` is not printed as it was before. -/
theorem printing_leaves_a_trace : ¬ LeavesNoTrace plainPrinter withHole (some (.obj 0)) 0 ∧
    outputObject plainPrinter withHole 2 (some (.obj 2)) ⟨[], 0⟩ = .ok ((), ⟨"#(7)", 0⟩) ∧
    ∃ t, (List.replicate 98 (some (.obj 0))).forM (outputObject plainPrinter withHole 2) ⟨[], 0⟩ = .ok ((), t) ∧
      outputObject plainPrinter withHole 2 (some (.obj 2)) t = .ok ((), ⟨t.text ++ "#( ...)", t.depth⟩) := by
  refine ⟨fun hno => ?_, by decide +kernel,
    ⟨(List.replicate 98 (text "#(<nil>)")).flatten, 98⟩, by decide +kernel, by decide +kernel⟩
  obtain ⟨str, hsettles⟩ := hno []
  have hrun : outputObject plainPrinter withHole 2 (some (.obj 0)) ⟨[], 0⟩ = .ok ((), ⟨"#(<nil>)", 1⟩) := by
    decide +kernel
  have hone := settles_of_extends (x := fun fuel => outputObject plainPrinter withHole fuel (some (.obj 0))) hrun
    fun fuel hle => by
      obtain ⟨more, rfl⟩ := Nat.exists_eq_add_of_le hle
      exact extends_outputObject 2 more _
  cases hsettles.unique hone

end Object

end Insomniac.Vm

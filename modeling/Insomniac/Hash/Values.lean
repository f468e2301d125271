import Insomniac.Hash.Cow
import Insomniac.Machinery.Mirror

/-!
# Hash/Values — the values of a table are opaque

No operation looks at a value, so a run on a store with its values replaced by `f` is the image of the
run on the store (`Call.run_mirrors`).  With `f` into a one-point type only the keys are left.
-/

open Mirror

namespace Insomniac.Hash

variable {K V W : Type} (f : V → W)

/-- A node with its value replaced. -/
def KeyValue.mapValue (kv : KeyValue K V) : KeyValue K W := ⟨kv.key, f kv.value, kv.next⟩

/-- A store with its values replaced. -/
def Store.mapValues (s : Store K V) : Store K W := ⟨s.kvs.map (KeyValue.mapValue f), s.arrays, s.table⟩

/-- The tables with their values replaced. -/
def Tables.mapValues (w : Tables K V) : Tables K W := ⟨w.kvs.map (KeyValue.mapValue f), w.arrays, w.tables⟩

/-- A call with its value replaced. -/
def Call.mapValue : Call K V → Call K W
  | create => create
  | cow src => cow src
  | set i key value => set i key (f value)
  | erase i key => erase i key
  | get i key => get i key

variable {f} {F : HashFns K}

/-! ## The operations on nodes and buckets

Values are only moved: from the caller into a node, from a node to another, and back to the caller. -/

theorem readBucket_mirrors (array : Option Addr) (index : ℕ) :
    Mirrors (Store.mapValues f) id (readBucket (K := K) array index) (readBucket array index) := fun s => by
  cases array with
  | none => rfl
  | some t =>
    simp only [readBucket, Store.mapValues, Option.map_map]
    rfl

theorem setBucket_mirrors (index : ℕ) (kv : Option Addr) :
    Mirrors (Store.mapValues f) id (setBucket (K := K) index kv) (setBucket index kv) := fun s => by
  simp only [setBucket, Store.mapValues]
  split
  · rfl
  · split
    · rfl
    · split <;> rfl

theorem readNode_mirrors (a : Addr) :
    Mirrors (Store.mapValues f) (KeyValue.mapValue f) (readNode (K := K) a) (readNode a) := fun s => by
  simp only [readNode, Store.mapValues, List.getElem?_map, Option.map_map]
  rfl

theorem writeNode_mirrors (a : Addr) (kv : KeyValue K V) :
    Mirrors (Store.mapValues f) id (writeNode a kv) (writeNode a (kv.mapValue f)) := fun s => by
  simp only [writeNode, Store.mapValues, List.length_map]
  split
  · simp [Store.mapValues]
  · rfl

theorem setValue_mirrors (a : Addr) (value : V) :
    Mirrors (Store.mapValues f) id (setValue (K := K) a value) (setValue a (f value)) :=
  mirrors_bind (readNode_mirrors a) fun kv => writeNode_mirrors a { kv with value }

theorem walkChain_mirrors (key : K) : ∀ (n : ℕ) (prev kv : Option Addr),
    Mirrors (Store.mapValues f) id (walkChain F key n prev kv) (walkChain F key n prev kv)
  | 0, _, _ => mirrors_fail
  | _ + 1, _, none => mirrors_pure rfl
  | n + 1, _, some a => mirrors_bind (readNode_mirrors a) fun kv =>
      mirrors_ite Iff.rfl (mirrors_pure rfl) (walkChain_mirrors key n (some a) kv.next)

theorem copyChain_mirrors {put : K → V → HashM K V Unit} {put' : K → W → HashM K W Unit}
    (hput : ∀ key value, Mirrors (Store.mapValues f) id (put key value) (put' key (f value))) :
    ∀ (n : ℕ) (kv : Option Addr), Mirrors (Store.mapValues f) id (copyChain put n kv) (copyChain put' n kv)
  | 0, _ => mirrors_fail
  | _ + 1, none => mirrors_pure rfl
  | n + 1, some a => mirrors_bind (readNode_mirrors a) fun kv =>
      mirrors_bind (hput kv.key kv.value) fun _ => copyChain_mirrors hput n kv.next

/-! ## The operations on tables

`hash_find` and `hash_resize` by induction on how deep they call one another, the others from them. -/

section Tables

variable [Inhabited V] [Inhabited W] (hf : f default = default)
include hf

theorem finishFind_mirrors (key : K) (action : Action) (index : ℕ) : ∀ found : Option (Option Addr × Addr),
    Mirrors (Store.mapValues f) id (finishFind key action index found) (finishFind key action index found)
  | some (prev, a) => by
      refine mirrors_ite Iff.rfl ?_ (mirrors_pure rfl)
      refine mirrors_bind (readNode_mirrors a) fun kv => ?_
      cases prev with
      | none => exact mirrors_bind (setBucket_mirrors index kv.next) fun _ => mirrors_pure rfl
      | some p =>
        refine mirrors_bind (readNode_mirrors p) fun prevKv => ?_
        exact mirrors_bind (writeNode_mirrors p { prevKv with next := kv.next }) fun _ => mirrors_pure rfl
  | none => by
      refine mirrors_ite Iff.rfl ?_ (mirrors_pure rfl)
      refine mirrors_bind mirrors_get fun s => ?_
      have hlen : (s.mapValues f).kvs.length = s.kvs.length := List.length_map _
      dsimp only
      rw [hlen]
      refine mirrors_bind (readBucket_mirrors s.table.table index) fun head => ?_
      refine mirrors_bind (mirrors_set ?_) fun _ => mirrors_bind (setBucket_mirrors index _) fun _ =>
        mirrors_bind (mirrors_modify fun s => rfl) fun _ => mirrors_pure rfl
      simp [Store.mapValues, KeyValue.mapValue, hf]

/-- The walk of `hash_find`, once its table has an array of its own. -/
theorem walk_mirrors (key : K) (action : Action) (index : ℕ) : Mirrors (Store.mapValues f) id
    (do let s ← get
        let kv ← readBucket s.table.table index
        let found ← walkChain F key (s.kvs.length + 1) none kv
        finishFind key action index found : HashM K V (Option Addr))
    (do let s ← get
        let kv ← readBucket s.table.table index
        let found ← walkChain F key (s.kvs.length + 1) none kv
        finishFind key action index found) := by
  refine mirrors_bind mirrors_get fun s => ?_
  have hlen : (s.mapValues f).kvs.length = s.kvs.length := List.length_map _
  rw [hlen]
  exact mirrors_bind (readBucket_mirrors s.table.table index) fun kv =>
    mirrors_bind (walkChain_mirrors key _ none kv) (finishFind_mirrors hf key action index)

/-- **`hash_find` and `hash_resize`** do not look at values. -/
theorem find_resize_mirrors : ∀ n : ℕ,
    (∀ key action, Mirrors (Store.mapValues f) id (hashFind F n key action) (hashFind F n key action)) ∧
      ∀ size, Mirrors (Store.mapValues f) id (hashResize F n size) (hashResize F n size)
  | 0 => ⟨fun _ _ => mirrors_fail, fun _ => mirrors_fail⟩
  | n + 1 => by
      obtain ⟨hfind, hresize⟩ := find_resize_mirrors n
      refine ⟨fun key action => ?_, fun size => ?_⟩
      · rw [hashFind, hashFind]
        refine mirrors_bind mirrors_get fun s => mirrors_ite Iff.rfl mirrors_fail ?_
        refine mirrors_ite Iff.rfl ?_ (walk_mirrors hf key action _)
        exact mirrors_bind (hresize _) fun _ => mirrors_bind (mirrors_modify fun s => rfl) fun _ =>
          walk_mirrors hf key action _
      · rw [hashResize, hashResize]
        refine mirrors_bind mirrors_get fun s => mirrors_bind (mirrors_set rfl) fun _ => ?_
        refine mirrors_ite Iff.rfl (mirrors_forM (fun i => ?_) _) (mirrors_pure rfl)
        refine mirrors_bind (readBucket_mirrors _ i) fun kv => ?_
        have hlen : (s.mapValues f).kvs.length = s.kvs.length := List.length_map _
        rw [hlen]
        refine copyChain_mirrors (fun key value => ?_) _ kv
        refine mirrors_bind (hfind key .create) fun a => ?_
        cases a with
        | none => exact mirrors_fail
        | some a => exact setValue_mirrors a value

theorem hashSet_mirrors (R : LoadRule) (key : K) (value : V) :
    Mirrors (Store.mapValues f) id (hashSet F R key value) (hashSet F R key (f value)) := by
  obtain ⟨hfind, -⟩ := find_resize_mirrors (F := F) hf nesting
  refine mirrors_bind (hfind key .create) fun kv => ?_
  cases kv with
  | none => exact mirrors_fail
  | some kv =>
    refine mirrors_bind (setValue_mirrors kv value) fun _ => mirrors_bind mirrors_get fun s => ?_
    exact mirrors_ite Iff.rfl ((find_resize_mirrors hf nesting).2 _) (mirrors_pure rfl)

theorem hashErase_mirrors (key : K) :
    Mirrors (Store.mapValues f) id (hashErase (V := V) F key) (hashErase F key) :=
  ((find_resize_mirrors hf nesting).1 key .delete).drop

/-- **`hash_get`** returns the image of the value. -/
theorem hashGet_mirrors (key : K) :
    Mirrors (Store.mapValues f) (Option.map f) (hashGet F key) (hashGet F key) := by
  refine mirrors_bind ((find_resize_mirrors hf nesting).1 key .read) fun kv => ?_
  cases kv with
  | none => exact mirrors_pure rfl
  | some a => exact mirrors_bind (readNode_mirrors a) fun kv => mirrors_pure rfl

theorem hashCreate_mirrors : Mirrors (Store.mapValues f) id (hashCreate (V := V) F) (hashCreate F) :=
  mirrors_bind (mirrors_modify fun _ => rfl) fun _ => (find_resize_mirrors hf nesting).2 _

/-! ## Calls

A run is followed call by call. -/

omit hf [Inhabited V] [Inhabited W] in
theorem onTable_mirrors {α β : Type} {g : α → β} {x : HashM K V α} {y : HashM K W β} (i : Handle)
    (hx : Mirrors (Store.mapValues f) g x y) : Mirrors (Tables.mapValues f) g (onTable i x) (onTable i y) := by
  intro w
  simp only [onTable, Tables.mapValues]
  split
  · rfl
  · next t ht =>
    have hrun := hx (w.store t)
    rw [Option.map_map]
    refine (congrArg _ hrun).trans ?_
    rw [Option.map_map]
    rfl

/-- **A call** on the tables with other values. -/
theorem Call.run_mirrors (R : LoadRule) (c : Call K V) :
    Mirrors (Tables.mapValues f) id (c.run F R) ((c.mapValue f).run F R) := by
  cases c with
  | create =>
    intro w
    have hrun : hashCreate F ((w.mapValues f).store emptyTable) = _ := hashCreate_mirrors hf (w.store emptyTable)
    simp only [Call.run, Call.mapValue, newTable, hrun, Option.map_map]
    rfl
  | cow src =>
    intro w
    simp only [Call.run, Call.mapValue, hashCow, Tables.mapValues]
    split <;> rfl
  | set i key value => exact onTable_mirrors i (hashSet_mirrors hf R key value)
  | erase i key => exact onTable_mirrors i (hashErase_mirrors hf key)
  | get i key => exact (onTable_mirrors i (hashGet_mirrors hf key)).drop

end Tables

end Insomniac.Hash

import Insomniac.Machinery.Run
import Insomniac.Vm.Memory
import Mathlib.Data.List.Basic

/-!
# Bootstrap/Include — the include stack

    buffers of the lexer:     baselib.scm · lists.scm · main.scm
                                  │            │          │
    include_stack:                2            1          0        include_depth = 2

`include` pushes a buffer and a path, the end of a file pops both.  As long as fewer than 64 files are
open where another one is included, and nodes are made only while a file is read, every access is in range
and the current path is that of the file which the lexer reads (`include_stack_in_range`).  Neither is
looked at; a string that is compiled is not a file.
-/

open Insomniac.Vm Run

namespace Insomniac.Bootstrap

/-! ## The compiler and its lexer

The scanner's buffers and the compiler's paths are two stacks, pushed and popped by different functions.  An
access of `include_stack` outside of its 64 slots is a fault of its own, so that a run which makes one can be
told from a run that goes on. -/

/-- What the lexer reads: a file with its path, or a string, and the tokens that are left. -/
structure Buffer (T : Type) where
  path : Option (List UInt8)
  rest : List T
  deriving DecidableEq

/-- The file system: `dirname`, `realpath` and `fopen`. -/
structure Files (T : Type) where
  dirname : List UInt8 → List UInt8
  realpath : List UInt8 → Option (List UInt8)
  fopen : List UInt8 → Option (List T)

/-- `compiler_core_type`, with the buffer stack of its scanner, the current buffer first. -/
structure Compiler (T : Type) where
  includeDepth : ℤ
  includeStack : List (Option (List UInt8))
  buffers : List (Buffer T)
  deriving DecidableEq

/-- How compiling may stop. -/
inductive Fault
  /-- An access of `include_stack` that is not in range. -/
  | outOfRange (index : ℤ)
  /-- `Search path too long`. -/
  | pathTooLong
  deriving DecidableEq

/-- The programs of the compiler. -/
abbrev CompileM (T : Type) := StateT (Compiler T) (Except Fault)

/-- `MAX_INCLUDE_DEPTH`. -/
def maxIncludeDepth : ℕ := 64

/-- `PATH_MAX`. -/
def pathMax : ℕ := 4096

variable {T : Type}

/-- The slot `include_stack[include_depth]`. -/
def slot : CompileM T ℕ := fun c =>
  if 0 ≤ c.includeDepth ∧ c.includeDepth < c.includeStack.length then .ok (c.includeDepth.toNat, c)
  else .error (.outOfRange c.includeDepth)

/-- `push_include_path`. -/
def pushIncludePath (fileName : List UInt8) : CompileM T Unit := do
  modify fun c => { c with includeDepth := c.includeDepth + 1 }
  let i ← slot
  modify fun c => { c with includeStack := c.includeStack.set i (some fileName) }

/-- `pop_include_path`. -/
def popIncludePath : CompileM T Unit := do
  if 0 ≤ (← get).includeDepth then
    let i ← slot
    modify fun c => { c with includeStack := c.includeStack.set i none }
  modify fun c => { c with includeDepth := c.includeDepth - 1 }

/-- `stream_alloc_node`, with the `file` of the node. -/
def streamAllocNode : CompileM T (Option (List UInt8)) := do
  let i ← slot
  pure ((← get).includeStack.getD i none)

/-- `parse_error`. -/
def parseError : CompileM T Unit := do
  if 0 ≤ (← get).includeDepth then
    let _ ← slot

/-- `parse_push_state`. -/
def parsePushState (path : List UInt8) (rest : List T) : CompileM T Unit :=
  modify fun c => { c with buffers := ⟨some path, rest⟩ :: c.buffers }

variable (files : Files T)

/-- Where `setup_include` looks for a file: beside the current one, unless the name begins with `/`. -/
def located (name : List UInt8) : Option (List UInt8) → Except Fault (Option (List UInt8))
  | none => .ok (some name)
  | some current =>
    if name.head? = some 47 then .ok (some name)
    else
      let path := files.dirname current
      if pathMax < path.length + name.length + 2 then .error .pathTooLong
      else .ok (files.realpath (path ++ 47 :: name))

/-- The file at a path is opened, and read first from now on. -/
def openInclude (path : Option (List UInt8)) : CompileM T Unit :=
  match path.bind fun path => (files.fopen path).map fun rest => (path, rest) with
  | some (path, rest) => do
    parsePushState path rest
    pushIncludePath path
  | none => parseError

/-- `setup_include`. -/
def setupInclude (name : List UInt8) : CompileM T Unit := do
  let c ← get
  let current ←
    if name.head? = some 47 ∨ c.includeDepth < 0 then pure none
    else do
      let i ← slot
      pure (some ((c.includeStack.getD i none).getD []))
  match located files name current with
  | .error e => throw e
  | .ok path => openInclude files path

/-- `yylex`: a token of the current buffer.  At its end the rule of `<<EOF>>` goes back to the one below. -/
def yylexFrom : List (Buffer T) → CompileM T (Option T)
  | [] => pure none
  | ⟨path, token :: rest⟩ :: buffers => do
    modify fun c => { c with buffers := ⟨path, rest⟩ :: buffers }
    pure (some token)
  | ⟨_, []⟩ :: buffers => do
    modify fun c => { c with buffers }
    popIncludePath
    yylexFrom buffers

@[inherit_doc yylexFrom] def yylex : CompileM T (Option T) := do yylexFrom (← get).buffers

/-! ## Runs

What the parser asks for depends on the grammar and on the text; here it may ask for anything at any time, with
one exception: once it has been told of the end of the input, it asks for no more tokens. -/

/-- What the parser does: it asks for a token, makes a node, or includes a file. -/
inductive ParserOp
  | token
  | node
  | includes (name : List UInt8)

/-- One of these. -/
def exec : ParserOp → CompileM T Unit
  | .token => do let _ ← yylex
  | .node => do let _ ← streamAllocNode
  | .includes name => setupInclude files name

/-- `compiler_create`, and what the scanner reads first. -/
def compilerCreate (buffer : Buffer T) : Compiler T where
  includeDepth := -1
  includeStack := List.replicate maxIncludeDepth none
  buffers := [buffer]

/-- The files that are open, the current one first. -/
def Compiler.open (c : Compiler T) : List (List UInt8) := c.buffers.filterMap Buffer.path

/-- The parser has been told of the end: it may still make nodes, but neither asks nor includes. -/
def Compiler.Asks (c : Compiler T) : ParserOp → Prop
  | .node => True
  | _ => c.buffers ≠ []

/-- **A step that stays in range**: a node is made while a file is read, and a file that can be opened is
included while fewer than 64 are open. -/
def Compiler.Meets (c : Compiler T) : ParserOp → Prop
  | .token => True
  | .node => ∃ b ∈ c.buffers.head?, b.path ≠ none
  | .includes name => ∀ path rest, located files name c.open.head? = .ok (some path) →
      files.fopen path = some rest → c.open.length < maxIncludeDepth

/-- **The current path is that of the current file**, and the paths below it are those of the files below. -/
def Compiler.Named (c : Compiler T) : Prop :=
  c.buffers ≠ [] → c.includeDepth + 1 = c.open.length ∧
    c.includeStack = c.open.reverse.map some ++ List.replicate (maxIncludeDepth - c.open.length) none

/-- The states of `compile_file` and `compile_string`, by steps that stay in range.  The base library is included
like any file, once a node has been made for its name. -/
inductive Compiled : Compiler T → Prop
  | file {path : List UInt8} {rest : List T} {c : Compiler T} : files.fopen path = some rest →
      pushIncludePath path (compilerCreate ⟨some path, rest⟩) = .ok ((), c) → Compiled c
  | string (rest : List T) : Compiled (compilerCreate ⟨none, rest⟩)
  | step {c c' : Compiler T} {op : ParserOp} : Compiled c → c.Asks op → c.Meets files op →
      exec files op c = .ok ((), c') → Compiled c'

/-! ## The invariant

The depth is one less than the number of open files, and minus two at most when the input has come to its end.
A compiled string is a buffer without a path, and it can only be the lowest. -/

/-- What the steps keep: the stack of the paths goes with that of the buffers, and only the last buffer may be
a string. -/
structure Compiler.Kept (c : Compiler T) : Prop where
  size : c.includeStack.length = maxIncludeDepth
  named : c.Named
  few : c.open.length ≤ maxIncludeDepth
  ended : c.buffers = [] → c.includeDepth < 0
  inFiles : ∀ b ∈ c.buffers.dropLast, b.path ≠ none

variable {files : Files T} {c : Compiler T}

theorem slot_run (h : 0 ≤ c.includeDepth) (hlt : c.includeDepth < c.includeStack.length) :
    slot c = .ok (c.includeDepth.toNat, c) := by
  rw [slot, if_pos ⟨h, hlt⟩]

theorem slot_fault (h : ¬ (0 ≤ c.includeDepth ∧ c.includeDepth < c.includeStack.length)) :
    slot c = .error (.outOfRange c.includeDepth) := by
  rw [slot, if_neg h]

/-- The current buffer of a compiler, with the others. -/
theorem Compiler.Kept.below (h : c.Kept) {b : Buffer T} {buffers : List (Buffer T)} (hb : c.buffers = b :: buffers) :
    (buffers ≠ [] → b.path ≠ none) ∧ ∀ b' ∈ buffers.dropLast, b'.path ≠ none := by
  have hf := h.inFiles
  rw [hb] at hf
  cases buffers with
  | nil => exact ⟨fun h => absurd rfl h, by simp⟩
  | cons b' buffers =>
    rw [List.dropLast_cons_of_ne_nil (by simp)] at hf
    exact ⟨fun _ => hf b (by simp), fun b'' hb'' => hf b'' (List.mem_cons_of_mem _ hb'')⟩

/-- **The depth is below zero exactly when no file is open.** -/
theorem Compiler.Kept.depth_neg_iff (h : c.Kept) (hc : c.buffers ≠ []) : c.includeDepth < 0 ↔ c.open = [] := by
  rw [← List.length_eq_zero_iff]
  have := (h.named hc).1
  omega

/-- While a file is open, the access is in range. -/
theorem Compiler.Kept.slot_run (h : c.Kept) (hc : c.buffers ≠ []) (hd : 0 ≤ c.includeDepth) :
    slot c = .ok (c.includeDepth.toNat, c) :=
  Bootstrap.slot_run hd (by have := (h.named hc).1; have := h.few; have := h.size; omega)

/-- **The path at the depth is that of the current file.** -/
theorem Compiler.Kept.current (h : c.Kept) (hc : c.buffers ≠ []) (hd : 0 ≤ c.includeDepth) :
    c.includeStack.getD c.includeDepth.toNat none = c.open.head? := by
  obtain ⟨hdepth, hstack⟩ := h.named hc
  cases ho : c.open with
  | nil =>
    rw [ho] at hdepth
    simp at hdepth
    omega
  | cons p ps =>
    rw [ho] at hdepth hstack
    have hp : c.includeDepth.toNat = (ps.reverse.map some).length := by
      simp at hdepth ⊢
      omega
    rw [hstack, hp, List.getD_eq_getElem?_getD]
    simp

/-! ## The steps

Each function of the source either keeps the stacks together or makes an access outside of the slots, and which
of the two it does is read off the state before it. -/

/-- Below zero, `pop_include_path` counts down and touches no slot. -/
theorem popIncludePath_below (h : c.includeDepth < 0) :
    popIncludePath c = .ok ((), { c with includeDepth := c.includeDepth - 1 }) := by
  have hneg : ¬ 0 ≤ c.includeDepth := by omega
  simp only [popIncludePath]
  rw [run_bind (a := c) (t := c) rfl, if_neg hneg]
  rfl

/-- `pop_include_path` empties the current slot and counts down. -/
theorem popIncludePath_run (h : 0 ≤ c.includeDepth) (hlt : c.includeDepth < c.includeStack.length) :
    popIncludePath c = .ok ((),
      { c with includeDepth := c.includeDepth - 1, includeStack := c.includeStack.set c.includeDepth.toNat none }) := by
  simp only [popIncludePath]
  rw [run_bind (a := c) (t := c) rfl, if_pos h, run_bind (a := c.includeDepth.toNat) (t := c) (slot_run h hlt)]
  rfl

/-- A compiler after `setup_include` of the file `path`. -/
def Compiler.push (c : Compiler T) (path : List UInt8) (rest : List T) : Compiler T where
  includeDepth := c.includeDepth + 1
  includeStack := c.includeStack.set (c.includeDepth + 1).toNat (some path)
  buffers := ⟨some path, rest⟩ :: c.buffers

/-- `push_include_path` counts up and fills the slot it comes to. -/
theorem pushIncludePath_run (path : List UInt8) (h : 0 ≤ c.includeDepth + 1)
    (hlt : c.includeDepth + 1 < c.includeStack.length) :
    pushIncludePath path c = .ok ((), { c.push path ([] : List T) with buffers := c.buffers }) := by
  let d : Compiler T := { c with includeDepth := c.includeDepth + 1 }
  simp only [pushIncludePath]
  rw [run_bind (a := ()) (t := d) rfl, run_bind (a := (c.includeDepth + 1).toNat) (t := d) (slot_run (c := d) h hlt)]
  rfl

/-- There may be no such slot. -/
theorem pushIncludePath_fault (path : List UInt8)
    (h : ¬ (0 ≤ c.includeDepth + 1 ∧ c.includeDepth + 1 < c.includeStack.length)) :
    pushIncludePath path c = .error (.outOfRange (c.includeDepth + 1)) := by
  let d : Compiler T := { c with includeDepth := c.includeDepth + 1 }
  simp only [pushIncludePath]
  rw [run_bind (a := ()) (t := d) rfl]
  exact bind_error _ (slot_fault (c := d) h)

/-- **The end of a buffer** keeps the stacks together. -/
theorem Compiler.Kept.pop (h : c.Kept) {b : Buffer T} {buffers : List (Buffer T)} (hb : c.buffers = b :: buffers) :
    ∃ c', popIncludePath { c with buffers } = .ok ((), c') ∧ c'.buffers = buffers ∧ c'.Kept := by
  have hc : c.buffers ≠ [] := by simp [hb]
  obtain ⟨hpath, hfiles⟩ := h.below hb
  obtain ⟨hdepth, hstack⟩ := h.named hc
  have hfew := h.few
  have hsize := h.size
  rcases ho : b.path with _ | p
  · -- the string, which is the last buffer
    have hnil : buffers = [] := by
      by_contra hne
      exact hpath hne ho
    have hneg : c.includeDepth < 0 := (h.depth_neg_iff hc).mpr (by simp [Compiler.open, hb, hnil, ho])
    refine ⟨_, popIncludePath_below (c := { c with buffers }) hneg, rfl, hsize, fun hne => absurd hnil hne, ?_,
      fun _ => ?_, hfiles⟩
    · simp [Compiler.open, hnil]
    · change c.includeDepth - 1 < 0
      omega
  · -- a file, whose path is the last one of the stack
    let paths := buffers.filterMap Buffer.path
    have hopen : c.open = p :: paths := by simp [Compiler.open, hb, ho, paths]
    rw [hopen] at hdepth hstack hfew
    simp only [List.length_cons, Nat.cast_add, Nat.cast_one] at hdepth hfew
    have hat : c.includeDepth.toNat = (paths.reverse.map some).length := by
      rw [List.length_map, List.length_reverse]
      omega
    have hset : c.includeStack.set c.includeDepth.toNat none =
        paths.reverse.map some ++ List.replicate (maxIncludeDepth - paths.length) none := by
      have hm : maxIncludeDepth - paths.length = maxIncludeDepth - (paths.length + 1) + 1 := by omega
      rw [hstack, hat, hm, List.replicate_succ]
      simp [List.set_append_right]
    refine ⟨_, popIncludePath_run (c := { c with buffers }) (by change 0 ≤ c.includeDepth; omega)
      (by change c.includeDepth < c.includeStack.length; omega), rfl, ?_, fun _ => ⟨?_, hset⟩, ?_,
      fun hnil => ?_, hfiles⟩
    · exact (List.length_set ..).trans hsize
    · change c.includeDepth - 1 + 1 = (paths.length : ℤ)
      omega
    · change paths.length ≤ maxIncludeDepth
      omega
    · have hnil : buffers = [] := hnil
      have hp : paths.length = 0 := by simp [paths, hnil]
      change c.includeDepth - 1 < 0
      omega

/-- **Asking for a token** keeps the stacks together, through every end that is passed. -/
theorem yylexFrom_kept : ∀ {buffers : List (Buffer T)} {c : Compiler T}, c.Kept → c.buffers = buffers →
    ∃ t c', yylexFrom buffers c = .ok (t, c') ∧ c'.Kept
  | [], c, h, _ => ⟨none, c, rfl, h⟩
  | ⟨path, token :: rest⟩ :: buffers, c, h, hb => by
    let c' : Compiler T := { c with buffers := ⟨path, rest⟩ :: buffers }
    have hopen : c'.open = c.open := by simp [c', Compiler.open, hb, List.filterMap_cons]
    have hne : c.buffers ≠ [] := by simp [hb]
    obtain ⟨hpath, hfiles⟩ := h.below hb
    refine ⟨some token, c', rfl, h.size, fun _ => hopen ▸ h.named hne, hopen ▸ h.few, nofun, ?_⟩
    change ∀ b ∈ (⟨path, rest⟩ :: buffers).dropLast, b.path ≠ none
    cases buffers with
    | nil => simp
    | cons b' buffers =>
      rw [List.dropLast_cons_of_ne_nil (by simp), List.forall_mem_cons]
      exact ⟨hpath (by simp), hfiles⟩
  | ⟨_, []⟩ :: buffers, c, h, hb => by
    obtain ⟨c₁, hpop, hb₁, h₁⟩ := h.pop hb
    obtain ⟨t, c₂, hlex, h₂⟩ := yylexFrom_kept h₁ hb₁
    refine ⟨t, c₂, ?_, h₂⟩
    rw [yylexFrom, run_bind (a := ()) (t := { c with buffers }) rfl, run_bind hpop, hlex]

/-- A node is in range exactly while a file is read. -/
theorem streamAllocNode_run (h : c.Kept) : streamAllocNode c =
    match c.buffers.head?.bind Buffer.path with
    | some path => .ok (some path, c)
    | none => .error (.outOfRange c.includeDepth) := by
  cases hb : c.buffers with
  | nil =>
    have hneg := h.ended hb
    exact bind_error _ (slot_fault (by omega))
  | cons b buffers =>
    have hc : c.buffers ≠ [] := by simp [hb]
    rcases ho : b.path with _ | p
    · have hnil : buffers = [] := by
        by_contra hne
        exact (h.below hb).1 hne ho
      have hneg : c.includeDepth < 0 := (h.depth_neg_iff hc).mpr (by simp [Compiler.open, hb, hnil, ho])
      simp only [List.head?_cons, Option.bind_some, ho]
      exact bind_error _ (slot_fault (by omega))
    · have hopen : c.open.head? = some p := by simp [Compiler.open, hb, ho]
      have hd : 0 ≤ c.includeDepth := by
        by_contra hneg
        rw [(h.depth_neg_iff hc).mp (by omega)] at hopen
        cases hopen
      simp only [List.head?_cons, Option.bind_some, ho]
      rw [streamAllocNode, run_bind (h.slot_run hc hd), run_bind (a := c) (t := c) rfl, h.current hc hd, hopen]
      rfl

/-- **A file that is pushed** keeps the stacks together, while there is room. -/
theorem Compiler.Kept.push (h : c.Kept) (hc : c.buffers ≠ []) (hlt : c.open.length < maxIncludeDepth)
    (path : List UInt8) (rest : List T) : (c.push path rest).Kept := by
  obtain ⟨hdepth, hstack⟩ := h.named hc
  have hopen : (c.push path rest).open = path :: c.open := rfl
  have hat : (c.includeDepth + 1).toNat = (c.open.reverse.map some).length := by
    rw [List.length_map, List.length_reverse]
    omega
  have hset : c.includeStack.set (c.includeDepth + 1).toNat (some path) =
      (path :: c.open).reverse.map some ++ List.replicate (maxIncludeDepth - (c.open.length + 1)) none := by
    have hm : maxIncludeDepth - c.open.length = maxIncludeDepth - (c.open.length + 1) + 1 := by omega
    rw [hat, hstack, hm, List.replicate_succ]
    simp [List.set_append_right]
  refine ⟨(List.length_set ..).trans h.size, fun _ => ⟨?_, hset⟩, hlt, nofun, ?_⟩
  · change c.includeDepth + 1 + 1 = ((c.open.length + 1 : ℕ) : ℤ)
    omega
  · change ∀ b ∈ (⟨some path, rest⟩ :: c.buffers).dropLast, b.path ≠ none
    rw [List.dropLast_cons_of_ne_nil hc, List.forall_mem_cons]
    exact ⟨nofun, h.inFiles⟩

/-- Messages name the current file, which is in range. -/
theorem parseError_run (h : c.Kept) (hc : c.buffers ≠ []) : parseError c = .ok ((), c) := by
  rw [parseError, run_bind (a := c) (t := c) rfl]
  by_cases hd : 0 ≤ c.includeDepth
  · rw [if_pos hd, run_bind (h.slot_run hc hd)]
    rfl
  · rw [if_neg hd]
    rfl

/-- **A file is pushed**, unless 64 are open. -/
theorem openInclude_run (h : c.Kept) (hc : c.buffers ≠ []) (path : Option (List UInt8)) : openInclude files path c =
    match path.bind fun path => (files.fopen path).map fun rest => (path, rest) with
    | some (path, rest) =>
      if c.open.length < maxIncludeDepth then .ok ((), c.push path rest) else .error (.outOfRange c.open.length)
    | none => .ok ((), c) := by
  have hdepth := (h.named hc).1
  have hsize := h.size
  rw [openInclude]
  rcases path.bind fun path => (files.fopen path).map fun rest => (path, rest) with _ | ⟨path, rest⟩
  · exact parseError_run h hc
  · let d : Compiler T := { c with buffers := ⟨some path, rest⟩ :: c.buffers }
    dsimp only
    rw [run_bind (a := ()) (t := d) rfl]
    split_ifs with hlt
    · exact pushIncludePath_run (c := d) path (by change 0 ≤ c.includeDepth + 1; omega)
        (by change c.includeDepth + 1 < c.includeStack.length; omega)
    · rw [← hdepth]
      exact pushIncludePath_fault (c := d) path (by
        change ¬ (0 ≤ c.includeDepth + 1 ∧ c.includeDepth + 1 < c.includeStack.length)
        omega)

/-- **An include** looks for the file beside the current one. -/
theorem setupInclude_run (h : c.Kept) (hc : c.buffers ≠ []) (name : List UInt8) : setupInclude files name c =
    match located files name c.open.head? with
    | .error e => .error e
    | .ok path => openInclude files path c := by
  rw [setupInclude, run_bind (a := c) (t := c) rfl]
  split_ifs with hn
  · have hl : located files name c.open.head? = .ok (some name) := by
      rcases hn with hn | hneg
      · cases c.open.head? <;> simp [located, hn]
      · rw [(h.depth_neg_iff hc).mp hneg]
        rfl
    rw [run_bind (a := none) (t := c) rfl, hl]
    rfl
  · have hd : 0 ≤ c.includeDepth := by
      by_contra hneg
      exact hn (.inr (by omega))
    have hne : c.open ≠ [] := fun ho => hn (.inr ((h.depth_neg_iff hc).mpr ho))
    rw [run_bind (h.slot_run hc hd), pure_bind, h.current hc hd, List.head?_eq_some_head hne]
    simp only [Option.getD_some]
    cases located files name (some (c.open.head hne)) <;> rfl

/-! ## The runs

A step meets the condition exactly when its accesses are in range.  The invariant is kept by every step that is
in range, so along a run it holds up to the first step that is not. -/

/-- Looking for a file makes no access. -/
theorem located_not_outOfRange {name : List UInt8} {current : Option (List UInt8)} {i : ℤ} :
    located files name current ≠ .error (.outOfRange i) := by
  unfold located
  split
  · nofun
  · dsimp only
    split_ifs <;> nofun

/-- **A step that stays in range** keeps the stacks together. -/
theorem exec_kept (h : c.Kept) {op : ParserOp} (ha : c.Asks op) (hm : c.Meets files op) {c' : Compiler T}
    (he : exec files op c = .ok ((), c')) : c'.Kept := by
  cases op with
  | token =>
    obtain ⟨t, c₁, hlex, h₁⟩ := yylexFrom_kept h rfl
    have hlex : yylex c = .ok (t, c₁) := hlex
    rw [exec, run_bind hlex] at he
    cases he
    exact h₁
  | node =>
    obtain ⟨b, hb, hpath⟩ := hm
    obtain ⟨p, hp⟩ := Option.ne_none_iff_exists'.mp hpath
    have hrun := streamAllocNode_run h
    rw [Option.mem_def.mp hb, Option.bind_some, hp] at hrun
    rw [exec, run_bind hrun] at he
    cases he
    exact h
  | includes name =>
    rw [exec, setupInclude_run h ha] at he
    cases hl : located files name c.open.head? with
    | error e =>
      rw [hl] at he
      cases he
    | ok path =>
      rw [hl] at he
      dsimp only at he
      rw [openInclude_run h ha] at he
      rcases hf : path.bind fun path => (files.fopen path).map fun rest => (path, rest) with _ | ⟨p, rest⟩
      · rw [hf] at he
        cases he
        exact h
      · rw [hf] at he
        dsimp only at he
        split_ifs at he with hlt
        cases he
        exact h.push ha hlt p rest

/-- **A step is in range exactly when it meets the condition.** -/
theorem exec_in_range_iff (h : c.Kept) {op : ParserOp} (ha : c.Asks op) :
    (∀ i, exec files op c ≠ .error (.outOfRange i)) ↔ c.Meets files op := by
  cases op with
  | token =>
    obtain ⟨t, c₁, hlex, -⟩ := yylexFrom_kept h rfl
    have hlex : yylex c = .ok (t, c₁) := hlex
    rw [exec, run_bind hlex]
    exact ⟨fun _ => trivial, fun _ => nofun⟩
  | node =>
    have hrun := streamAllocNode_run h
    cases hp : c.buffers.head?.bind Buffer.path with
    | none =>
      rw [hp] at hrun
      refine ⟨fun hn => absurd (bind_error _ hrun) (hn _), fun ⟨b, hb, hpath⟩ => ?_⟩
      rw [Option.mem_def.mp hb] at hp
      exact absurd hp hpath
    | some p =>
      rw [hp] at hrun
      rw [exec, run_bind hrun]
      obtain ⟨b, hb, hpath⟩ := Option.bind_eq_some_iff.mp hp
      exact ⟨fun _ => ⟨b, hb, by rw [hpath]; nofun⟩, fun _ => nofun⟩
  | includes name =>
    have hrun : setupInclude files name c = _ := setupInclude_run h ha name
    change (∀ i, setupInclude files name c ≠ _) ↔
      ∀ path rest, located files name c.open.head? = .ok (some path) → files.fopen path = some rest →
        c.open.length < maxIncludeDepth
    rw [hrun]
    cases hl : located files name c.open.head? with
    | error e =>
      refine ⟨fun _ => nofun, fun _ i he => ?_⟩
      obtain rfl : e = .outOfRange i := Except.error.inj he
      exact located_not_outOfRange hl
    | ok path =>
      dsimp only
      rw [openInclude_run h ha]
      rcases path with _ | path
      · exact ⟨fun _ => nofun, fun _ => nofun⟩
      · cases hf : files.fopen path with
        | none =>
          refine ⟨fun _ path' rest hp hr => ?_, fun _ _ => by simp [hf]⟩
          obtain rfl : path = path' := Option.some.inj (Except.ok.inj hp)
          rw [hf] at hr
          cases hr
        | some rest =>
          simp only [Option.bind_some, hf, Option.map_some]
          split_ifs with hlt
          · exact ⟨fun _ _ _ _ _ => hlt, fun _ => nofun⟩
          · exact ⟨fun hn => absurd rfl (hn _), fun hm => absurd (hm path rest rfl hf) hlt⟩

/-- The compiler before anything is read, of a file or a string. -/
theorem compilerCreate_kept (rest : List T) : (compilerCreate ⟨none, rest⟩).Kept where
  size := List.length_replicate
  named _ := ⟨rfl, rfl⟩
  few := by simp [compilerCreate, Compiler.open]
  ended := nofun
  inFiles := by simp [compilerCreate]

/-- **Every state of a run in range** keeps the stacks together. -/
theorem Compiled.kept (h : Compiled files c) : c.Kept := by
  induction h with
  | @file path rest c _ hpush =>
    let d := compilerCreate (⟨some path, rest⟩ : Buffer T)
    have hrun := pushIncludePath_run (c := d) path (Int.le_refl 0)
      (by simp [d, compilerCreate, maxIncludeDepth])
    rw [hrun] at hpush
    cases hpush
    exact ⟨by simp [Compiler.push, d, compilerCreate], fun _ => ⟨rfl, rfl⟩,
      by simp [Compiler.open, d, compilerCreate, maxIncludeDepth], nofun, by simp [d, compilerCreate]⟩
  | string rest => exact compilerCreate_kept rest
  | step _ ha hm he ih => exact exec_kept ih ha hm he

/-- **The include stack.**  In every state of a run whose steps stay in range the depth names the current file,
and the next step is in range exactly when it meets the condition too. -/
theorem include_stack_in_range (h : Compiled files c) :
    c.Named ∧ ∀ op, c.Asks op → ((∀ i, exec files op c ≠ .error (.outOfRange i)) ↔ c.Meets files op) :=
  ⟨h.kept.named, fun _ => exec_in_range_iff h.kept⟩

/-- A file system with a file `m` of six tokens, those of `1 (include "n") 2`, and a file `n` of two. -/
def nested : Files Unit where
  dirname _ := [46]
  realpath path := some (path.drop 2)
  fopen path := if path = [109] then some (List.replicate 6 ()) else if path = [110] then some [(), ()] else none

/-- **A run with a nested include**: while `n` is read, inside of `m`, the depth is 1, and behind the end of `n` the
current file is `m` again. -/
theorem include_stack_in_range_nested : ∃ c c' : Compiler Unit, Compiled nested c ∧ Compiled nested c' ∧
    c.open = [[110], [109]] ∧ c.includeDepth = 1 ∧ c.Named ∧ (∀ i, exec nested .node c ≠ .error (.outOfRange i)) ∧
    c'.open = [[109]] ∧ c'.includeDepth = 0 ∧ c'.Named ∧ (∀ i, exec nested .node c' ≠ .error (.outOfRange i)) := by
  have hm := @Compiled.file Unit nested [109] _ _ rfl rfl
  have htokens : ∀ {c c' : Compiler Unit}, Compiled nested c → c.Asks .token →
      exec nested .token c = .ok ((), c') → Compiled nested c' := fun h hc hrun => h.step hc trivial hrun
  have hbefore := htokens (htokens (htokens (htokens (htokens hm nofun rfl) nofun rfl) nofun rfl) nofun rfl) nofun rfl
  have hn := @Compiled.step Unit nested _ _ (.includes [110]) hbefore nofun (fun _ _ _ _ => by decide) rfl
  have hafter := htokens (htokens (htokens hn nofun rfl) nofun rfl) nofun rfl
  obtain ⟨hnamed, hin⟩ := include_stack_in_range hn
  obtain ⟨hnamed', hin'⟩ := include_stack_in_range hafter
  refine ⟨_, _, hn, hafter, rfl, rfl, hnamed, (hin .node trivial).mpr ⟨_, rfl, nofun⟩, rfl, rfl, hnamed',
    (hin' .node trivial).mpr ⟨_, rfl, nofun⟩⟩

/-- A file system with one file, the six tokens of `(include "m")` under the name `m`. -/
def selfIncluding : Files Unit where
  dirname _ := [46]
  realpath path := some (path.drop 2)
  fopen path := if path = [109] then some (List.replicate 6 ()) else none

/-- What the parser does at `(include "m")`: the node is that of the string. -/
def includesItself : List ParserOp := [.token, .token, .token, .token, .node, .token, .token, .includes [109]]

/-- **The stack is left at both ends**: a string that is compiled makes its first node at depth `-1`, and a file that
includes itself is pushed at depth `64`. -/
theorem include_stack_out_of_range :
    [ParserOp.token, .node].forM (exec selfIncluding) (compilerCreate ⟨none, [()]⟩) = .error (.outOfRange (-1)) ∧
      (do pushIncludePath [109]; (List.replicate 64 includesItself).flatten.forM (exec selfIncluding))
        (compilerCreate ⟨some [109], List.replicate 6 ()⟩) = .error (.outOfRange 64) := by
  decide +kernel

end Insomniac.Bootstrap

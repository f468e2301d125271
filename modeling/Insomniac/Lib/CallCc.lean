import Insomniac.Abstract.Code
import Insomniac.Lib.Preamble

/-!
# Lib/CallCc — the routines of `prim-call/cc`

    scheme-call-cc ─▸ save loop ─▸ call p ─▸ returned ─┐
                                                       ├─▸ empty loop ─▸ restore loop ─▸ return
    scheme-call-cc-exit ───────────────────────────────┘

Each loop has one lemma, by induction on the stack it takes apart or the list it builds it from.  The
frame of the call holds what is saved: `stack-save`, the stack from its bottom on, and `return`.
-/

open Insomniac.Asm Insomniac.Vm Insomniac.Abstract

namespace Insomniac.Lib

/-! ## Where the routines are

The routines jump to one another, so all of their labels are taken together; what is asked for is that each
piece stands where its label leads to. -/

/-- Some tokens at an address, with what follows them at another. -/
def Piece (labels : List UInt8 → Option ℕ) (code : Code) (length ip next : ℕ) (ts : List Tok) : Prop :=
  (∃ ts', Holds labels code length ip (ts ++ ts')) ∧ next = ip + codeSize ts ∧ next < 2 ^ 63

/-- The addresses of the routines. -/
structure Places where
  empty : ℕ
  emptyDone : ℕ
  restore : ℕ
  restoreDone : ℕ
  exit : ℕ
  entry : ℕ
  save : ℕ
  saveExit : ℕ
  returned : ℕ
  after : ℕ

/-- **The routines are in some code**, and their labels lead to them. -/
structure HasCallCc (labels : List UInt8 → Option ℕ) (code : Code) (length : ℕ) (p : Places) : Prop where
  empty : Piece labels code length p.empty p.emptyDone schemeCallCcEmpty
  emptyDone : Piece labels code length p.emptyDone p.restore schemeCallCcEmptyDone
  restore : Piece labels code length p.restore p.restoreDone schemeCallCcRestore
  restoreDone : Piece labels code length p.restoreDone p.exit schemeCallCcRestoreDone
  exit : Piece labels code length p.exit p.entry schemeCallCcExit
  entry : Piece labels code length p.entry p.save schemeCallCc
  save : Piece labels code length p.save p.saveExit schemeCallCcSave
  saveExit : Piece labels code length p.saveExit p.returned schemeCallCcStackSaveExit
  returned : Piece labels code length p.returned p.after schemeCallCcReturned
  toReturn : labels "scheme-call-cc-return" = some p.empty
  toEmpty : labels "scheme-call-cc-empty" = some p.empty
  toEmptyDone : labels "scheme-call-cc-empty-done" = some p.emptyDone
  toRestore : labels "scheme-call-cc-restore" = some p.restore
  toRestoreDone : labels "scheme-call-cc-restore-done" = some p.restoreDone
  toExit : labels "scheme-call-cc-exit" = some p.exit
  toEntry : labels "scheme-call-cc" = some p.entry
  toSave : labels "scheme-call-cc-save" = some p.save
  toSaveExit : labels "scheme-call-cc-stack-save-exit" = some p.saveExit

/-- The address of a piece is that of a byte in memory. -/
theorem Piece.lt {labels : List UInt8 → Option ℕ} {code : Code} {length ip next : ℕ} {ts : List Tok}
    (h : Piece labels code length ip next ts) : ip < 2 ^ 63 := by
  have := h.2
  omega

/-! ## The loops

A loop is a test and a body with a jump back.  One lemma follows a round, and the induction is on what is left
to take or to put back. -/

section

variable {labels : List UInt8 → Option ℕ} {code : Code} {length : ℕ} {p : Places} {m : Machine}

/-- A depth below 2^63 is zero only when there is nothing. -/
theorem depth_eq_zero {n : ℕ} (h : n < 2 ^ 63) : (Int64.ofInt (n : ℤ) == 0) = decide (n = 0) := by
  have hint : Int64.ofInt (n : ℤ) = Int64.ofNat n := rfl
  have hzero : (Int64.ofNat n = 0) ↔ n = 0 := by
    rw [← Int64.toInt_inj, Int64.toInt_ofNat_of_lt h]
    change ((n : ℤ) = 0) ↔ _
    omega
  rw [hint, Bool.eq_iff_iff]
  simpa using hzero

/-- `depth 0 = jnf`: on when there is nothing on the stack. -/
theorem runs_depthTest {l : List UInt8} {ip a : ℕ} {ts : List Tok}
    (h : Holds labels code length ip (.op .depth rfl :: .fixnum 0 :: .op .numericEqual rfl ::
      .jump .jnf rfl l :: ts)) (hm : Executes m code length) (hl : labels l = some a) (ha : a < 2 ^ 63)
    {s : List Val} (hs : s.length < 2 ^ 63) :
    Runs (m.at ip s) (m.at (if s = [] then a else ip + 20) s) := by
  have hdepth : Runs (m.at ip s) (m.at (ip + 1) (.fixnum (Int64.ofInt s.length) :: s)) := h.step hm rfl rfl
  have hfixnum : Runs (m.at (ip + 1) (.fixnum (Int64.ofInt s.length) :: s))
      (m.at (ip + 10) (.fixnum 0 :: .fixnum (Int64.ofInt s.length) :: s)) := h.rest.step hm rfl rfl
  have heq : Runs (m.at (ip + 10) (.fixnum 0 :: .fixnum (Int64.ofInt s.length) :: s))
      (m.at (ip + 11) (.bool (Int64.ofInt s.length == 0) :: s)) := h.rest.rest.step hm rfl rfl
  have hjnf := h.rest.rest.rest.jnf (s := s) hm hl ha (v := .bool (Int64.ofInt s.length == 0)) rfl
  refine ((hdepth.trans hfixnum).trans heq).trans ?_
  rw [depth_eq_zero hs] at hjnf ⊢
  cases s with
  | nil => exact hjnf
  | cons v s => exact hjnf

/-- **The empty loop** leaves nothing on the stack. -/
theorem HasCallCc.runs_empty (h : HasCallCc labels code length p) (hm : Executes m code length) :
    ∀ {t : List Val}, t.length < 2 ^ 63 → Runs (m.at p.empty t) (m.at p.emptyDone [])
  | t, ht => by
      obtain ⟨ts', hat⟩ := h.empty.1
      have hloop : Holds labels code length p.empty (.op .depth rfl :: .fixnum 0 :: .op .numericEqual rfl ::
          .jump .jnf rfl "scheme-call-cc-empty-done" :: .op .drop rfl ::
          .jump .jmp rfl "scheme-call-cc-empty" :: ts') := hat.rest.rest
      have htest := runs_depthTest hloop hm h.toEmptyDone h.emptyDone.lt ht
      cases t with
      | nil => exact htest
      | cons v t =>
        have hdrop : Runs (m.at (p.empty + 20) (v :: t)) (m.at (p.empty + 21) t) :=
          hloop.rest.rest.rest.rest.step hm rfl rfl
        have hjmp : Runs (m.at (p.empty + 21) t) (m.at p.empty t) :=
          hloop.rest.rest.rest.rest.rest.jmp hm h.toEmpty h.empty.lt
        have hlt : t.length < 2 ^ 63 := by
          rw [List.length_cons] at ht
          omega
        exact ((htest.trans hdrop).trans hjmp).trans (h.runs_empty hm hlt)

/-- **The restore loop** puts the values of the list on the stack, the last one on top. -/
theorem HasCallCc.runs_restore (h : HasCallCc labels code length p) (hm : Executes m code length) :
    ∀ (vs s : List Val), Runs (m.at p.restore (.list vs :: s))
      (m.at p.restoreDone (.empty :: (vs.reverse ++ s)))
  | vs, s => by
      obtain ⟨ts', hat⟩ := h.restore.1
      have hloop : Holds labels code length p.restore (.op .dupRef rfl :: .op .isEmpty rfl ::
          .jump .jnf rfl "scheme-call-cc-restore-done" :: .op .dupRef rfl :: .op .car rfl :: .op .swap rfl ::
          .op .cdr rfl :: .jump .jmp rfl "scheme-call-cc-restore" :: ts') := hat.rest
      have hdup : Runs (m.at p.restore (.list vs :: s)) (m.at (p.restore + 1) (.list vs :: .list vs :: s)) :=
        hloop.step hm rfl rfl
      refine hdup.trans ?_
      cases vs with
      | nil =>
        have hnull : Runs (m.at (p.restore + 1) (.list [] :: .list [] :: s))
            (m.at (p.restore + 2) (.bool true :: .list [] :: s)) := hloop.rest.step hm rfl rfl
        have hjnf : Runs (m.at (p.restore + 2) (.bool true :: .list [] :: s)) (m.at p.restoreDone (.list [] :: s)) :=
          hloop.rest.rest.jnf hm h.toRestoreDone h.restoreDone.lt (v := .bool true) rfl
        exact hnull.trans hjnf
      | cons v vs =>
        have hnull : Runs (m.at (p.restore + 1) (.list (v :: vs) :: .list (v :: vs) :: s))
            (m.at (p.restore + 2) (.bool false :: .list (v :: vs) :: s)) := hloop.rest.step hm rfl rfl
        have hjnf : Runs (m.at (p.restore + 2) (.bool false :: .list (v :: vs) :: s))
            (m.at (p.restore + 11) (.list (v :: vs) :: s)) :=
          hloop.rest.rest.jnf hm h.toRestoreDone h.restoreDone.lt (v := .bool false) rfl
        have hdup : Runs (m.at (p.restore + 11) (.list (v :: vs) :: s))
            (m.at (p.restore + 12) (.list (v :: vs) :: .list (v :: vs) :: s)) :=
          hloop.rest.rest.rest.step hm rfl rfl
        have hcar : Runs (m.at (p.restore + 12) (.list (v :: vs) :: .list (v :: vs) :: s))
            (m.at (p.restore + 13) (v :: .list (v :: vs) :: s)) := hloop.rest.rest.rest.rest.step hm rfl rfl
        have hswap : Runs (m.at (p.restore + 13) (v :: .list (v :: vs) :: s))
            (m.at (p.restore + 14) (.list (v :: vs) :: v :: s)) := hloop.rest.rest.rest.rest.rest.step hm rfl rfl
        have hcdr : Runs (m.at (p.restore + 14) (.list (v :: vs) :: v :: s))
            (m.at (p.restore + 15) (.list vs :: v :: s)) := hloop.rest.rest.rest.rest.rest.rest.step hm rfl rfl
        have hjmp : Runs (m.at (p.restore + 15) (.list vs :: v :: s)) (m.at p.restore (.list vs :: v :: s)) :=
          hloop.rest.rest.rest.rest.rest.rest.rest.jmp hm h.toRestore h.restore.lt
        have hrest := h.runs_restore hm vs (v :: s)
        rw [List.reverse_cons, List.append_assoc]
        exact ((((((hnull.trans hjnf).trans hdup).trans hcar).trans hswap).trans hcdr).trans hjmp).trans hrest

/-! ## The frame of the call

`prim-call/cc` binds what it saves in the frame that its call has made, which nothing else is bound in but what
the exit procedure binds later. -/

/-- To set the bindings that are there changes nothing. -/
theorem setTable_self {table : ℕ} {b : Bindings} (hb : m.tables table = some b) : m.setTable table b = m := by
  rw [Machine.setTable, ← hb, Function.update_eq_self]

/-- Of two settings the later one counts. -/
theorem setTable_setTable (m : Machine) (table : ℕ) (b b' : Bindings) :
    (m.setTable table b).setTable table b' = m.setTable table b' := by
  simp [Machine.setTable]

/-- The bindings that have been set. -/
theorem setTable_tables (m : Machine) (table : ℕ) (b : Bindings) :
    (m.setTable table b).tables table = some b := by simp [Machine.setTable]

/-- A name that the current frame has. -/
theorem findFrame_here {name : List UInt8} {b : Bindings} {v : Val} (hb : m.tables m.here.bindings = some b)
    (hv : b name = some v) : findFrame m.tables name (m.here :: m.outer) = some (m.here.bindings, v) := by
  simp [findFrame, hb, hv]

/-- **The save loop** puts the stack in front of what is saved, the top last taken off first put in. -/
theorem HasCallCc.runs_save (h : HasCallCc labels code length p) :
    ∀ {s acc : List Val} {m : Machine} {b : Bindings}, Executes m code length →
      m.tables m.here.bindings = some b → b "stack-save" = some (.list acc) → s.length < 2 ^ 63 →
      Runs (m.at p.save s) ((m.setTable m.here.bindings
        (Function.update b "stack-save" (some (.list (s.reverse ++ acc))))).at p.saveExit [])
  | s, acc, m, b, hm, hb, hsave, hs => by
      obtain ⟨ts', hat⟩ := h.save.1
      have hloop : Holds labels code length p.save (.op .depth rfl :: .fixnum 0 :: .op .numericEqual rfl ::
          .jump .jnf rfl "scheme-call-cc-stack-save-exit" :: .symbol "stack-save" :: .op .read rfl ::
          .op .swap rfl :: .op .cons rfl :: .symbol "stack-save" :: .op .set rfl ::
          .jump .jmp rfl "scheme-call-cc-save" :: ts') := hat.rest
      have htest := runs_depthTest hloop hm h.toSaveExit h.saveExit.lt hs
      cases s with
      | nil =>
        have hself : Function.update b "stack-save" (some (.list ([].reverse ++ acc))) = b := by
          rw [List.reverse_nil, List.nil_append, ← hsave, Function.update_eq_self]
        rw [hself, setTable_self hb]
        exact htest
      | cons v s =>
        have hname : (0 : UInt8) ∉ (("stack-save" : String) : List UInt8) := by decide +kernel
        have hfind := findFrame_here hb hsave
        have hread : Runs (m.at (p.save + 20) (v :: s)) (m.at (p.save + 40) (.list acc :: v :: s)) :=
          hloop.rest.rest.rest.rest.read hm hname hfind
        have hswap : Runs (m.at (p.save + 40) (.list acc :: v :: s)) (m.at (p.save + 41) (v :: .list acc :: s)) :=
          hloop.rest.rest.rest.rest.rest.rest.step hm rfl rfl
        have hcons : Runs (m.at (p.save + 41) (v :: .list acc :: s)) (m.at (p.save + 42) (.list (v :: acc) :: s)) :=
          hloop.rest.rest.rest.rest.rest.rest.rest.step hm rfl rfl
        let m₁ := m.setTable m.here.bindings (Function.update b "stack-save" (some (.list (v :: acc))))
        have hset : Runs (m.at (p.save + 42) (.list (v :: acc) :: s)) (m₁.at (p.save + 62) s) :=
          hloop.rest.rest.rest.rest.rest.rest.rest.rest.set hm hname hfind hb _
        have hjmp : Runs (m₁.at (p.save + 62) s) (m₁.at p.save s) :=
          hloop.rest.rest.rest.rest.rest.rest.rest.rest.rest.rest.jmp (m := m₁) hm h.toSave h.save.lt
        have hlt : s.length < 2 ^ 63 := by
          rw [List.length_cons] at hs
          omega
        have hrest := h.runs_save (m := m₁) (s := s) hm (setTable_tables _ _ _) (Function.update_self _ _ _) hlt
        have hsame : m₁.setTable m₁.here.bindings (Function.update (Function.update b "stack-save"
            (some (.list (v :: acc)))) "stack-save" (some (.list (s.reverse ++ v :: acc)))) =
            m.setTable m.here.bindings
              (Function.update b "stack-save" (some (.list ((v :: s).reverse ++ acc)))) := by
          rw [Function.update_idem, List.reverse_cons, List.append_assoc]
          exact setTable_setTable _ _ _ _
        rw [hsame] at hrest
        exact (((((htest.trans hread).trans hswap).trans hcons).trans hset).trans hjmp).trans hrest

/-! ## Saving

The stack is taken off value by value into a list, and put back from that list, so that the call goes on with
the stack as it was. -/

/-- The exit procedure of a call in a frame. -/
def exitClosure (p : Places) (m : Machine) : Val := .closure { m.here with ip := p.exit } m.outer

/-- What the frame of a call has once the stack has been saved. -/
def savedBindings (b : Bindings) (proc ret : Val) (s : List Val) : Bindings :=
  Function.update (Function.update (Function.update b "proc" (some proc)) "return" (some ret)) "stack-save"
    (some (.list s.reverse))

/-- **Coming in**: the procedure, the return closure and the whole stack are bound in the frame. -/
theorem HasCallCc.runs_entry (h : HasCallCc labels code length p) (hm : Executes m code length)
    {b : Bindings} (hb : m.tables m.here.bindings = some b) {ret proc rest : Val} {s : List Val}
    (hs : s.length < 2 ^ 63) :
    Runs (m.at p.entry (ret :: .pair proc rest :: s))
      ((m.setTable m.here.bindings (savedBindings b proc ret s)).at p.saveExit []) := by
  obtain ⟨⟨ts', hat⟩, hnext, -⟩ := h.entry
  have hin : Holds labels code length p.entry (.op .swap rfl :: .op .car rfl :: .symbol "proc" :: .op .bind rfl ::
      .symbol "return" :: .op .bind rfl :: .op .litEmpty rfl :: .symbol "stack-save" :: .op .bind rfl :: ts') :=
    hat.rest
  have hswap : Runs (m.at p.entry (ret :: .pair proc rest :: s))
      (m.at (p.entry + 1) (.pair proc rest :: ret :: s)) := hin.step hm rfl rfl
  have hcar : Runs (m.at (p.entry + 1) (.pair proc rest :: ret :: s))
      (m.at (p.entry + 2) (proc :: ret :: s)) := hin.rest.step hm rfl rfl
  let b₁ := Function.update b "proc" (some proc)
  let b₂ := Function.update b₁ "return" (some ret)
  let b₃ := Function.update b₂ "stack-save" (some (.list []))
  let m₁ := m.setTable m.here.bindings b₁
  let m₂ := m₁.setTable m.here.bindings b₂
  let m₃ := m₂.setTable m.here.bindings b₃
  have hproc : Runs (m.at (p.entry + 2) (proc :: ret :: s)) (m₁.at (p.entry + 16) (ret :: s)) :=
    hin.rest.rest.bind hm (by decide +kernel) hb proc
  have hreturn : Runs (m₁.at (p.entry + 16) (ret :: s)) (m₂.at (p.entry + 32) s) :=
    hin.rest.rest.rest.rest.bind (m := m₁) hm (by decide +kernel) (setTable_tables _ _ _) ret
  have hempty : Runs (m₂.at (p.entry + 32) s) (m₂.at (p.entry + 33) (.list [] :: s)) :=
    hin.rest.rest.rest.rest.rest.rest.step (m := m₂) hm rfl rfl
  have hsave : Runs (m₂.at (p.entry + 33) (.list [] :: s)) (m₃.at (p.entry + 53) s) :=
    hin.rest.rest.rest.rest.rest.rest.rest.bind (m := m₂) hm (by decide +kernel) (setTable_tables _ _ _) _
  have hnext : p.save = p.entry + 53 := hnext
  rw [← hnext] at hsave
  have hloop := h.runs_save (m := m₃) (s := s) hm (setTable_tables _ _ _) (Function.update_self _ _ _) hs
  have hsame : m₃.setTable m₃.here.bindings (Function.update b₃ "stack-save" (some (.list (s.reverse ++ [])))) =
      m.setTable m.here.bindings (savedBindings b proc ret s) := by
    rw [List.append_nil, Function.update_idem]
    change ((m₁.setTable m.here.bindings b₂).setTable m.here.bindings b₃).setTable m.here.bindings _ = _
    rw [setTable_setTable, setTable_setTable, setTable_setTable]
    rfl
  rw [hsame] at hloop
  exact (((((hswap.trans hcar).trans hproc).trans hreturn).trans hempty).trans hsave).trans hloop

/-- **The procedure is called** with the exit procedure, on a stack with nothing else. -/
theorem HasCallCc.runs_saveExit (h : HasCallCc labels code length p) (hm : Executes m code length)
    {b : Bindings} (hb : m.tables m.here.bindings = some b) {here : Frame} {outer : List Frame}
    (hproc : b "proc" = some (.closure here outer)) :
    Runs (m.at p.saveExit []) ((m.at p.returned [.closure { m.here with ip := p.returned } m.outer,
      .list [exitClosure p m]]).switch here outer).child := by
  obtain ⟨⟨ts', hat⟩, hnext, -⟩ := h.saveExit
  have hin : Holds labels code length p.saveExit (.op .litEmpty rfl :: .jump .proc rfl "scheme-call-cc-exit" ::
      .op .cons rfl :: .symbol "proc" :: .op .read rfl :: .op .callIn rfl :: ts') := hat.rest
  have hempty : Runs (m.at p.saveExit []) (m.at (p.saveExit + 1) [.list []]) := hin.step hm rfl rfl
  have hexit : Runs (m.at (p.saveExit + 1) [.list []]) (m.at (p.saveExit + 10) [exitClosure p m, .list []]) :=
    hin.rest.proc hm h.toExit h.exit.lt
  have hcons : Runs (m.at (p.saveExit + 10) [exitClosure p m, .list []])
      (m.at (p.saveExit + 11) [.list [exitClosure p m]]) := hin.rest.rest.step hm rfl rfl
  have hread : Runs (m.at (p.saveExit + 11) [.list [exitClosure p m]])
      (m.at (p.saveExit + 25) [.closure here outer, .list [exitClosure p m]]) :=
    hin.rest.rest.rest.read hm (by decide +kernel) (findFrame_here hb hproc)
  have hcall : Runs (m.at (p.saveExit + 25) [.closure here outer, .list [exitClosure p m]])
      ((m.at (p.saveExit + 26) [.closure { m.here with ip := p.saveExit + 26 } m.outer,
        .list [exitClosure p m]]).switch here outer).child := hin.rest.rest.rest.rest.rest.step hm rfl rfl
  have hnext : p.returned = p.saveExit + 26 := hnext
  rw [hnext]
  exact (((hempty.trans hexit).trans hcons).trans hread).trans hcall

/-! ## Restoring

Whatever lies on the stack when a continuation is called is taken off first. -/

/-- **What both ways back do**: the stack is what was saved, with the value on top, and the caller goes
on. -/
theorem HasCallCc.runs_return (h : HasCallCc labels code length p) (hm : Executes m code length)
    {i j k : ℕ} {v : Val} {here : Frame} {outer : List Frame} {s t : List Val}
    (hvalue : findFrame m.tables "ret-val" (m.here :: m.outer) = some (i, v))
    (hreturn : findFrame m.tables "return" (m.here :: m.outer) = some (j, .closure here outer))
    (hsave : findFrame m.tables "stack-save" (m.here :: m.outer) = some (k, .list s.reverse))
    (ht : t.length < 2 ^ 63) :
    Runs (m.at p.empty t) ({ m with stack := v :: s }.switch here outer) := by
  have hempty := h.runs_empty hm ht
  obtain ⟨⟨ts, hdone⟩, hdoneNext, -⟩ := h.emptyDone
  have hdoneNext : p.restore = p.emptyDone + 20 := hdoneNext
  have hread : Runs (m.at p.emptyDone []) (m.at (p.emptyDone + 20) [.list s.reverse]) :=
    hdone.rest.read hm (by decide +kernel) hsave
  rw [← hdoneNext] at hread
  have hrestore := h.runs_restore hm s.reverse []
  rw [List.reverse_reverse, List.append_nil] at hrestore
  obtain ⟨⟨ts', hback⟩, -, -⟩ := h.restoreDone
  have hback : Holds labels code length p.restoreDone (.op .drop rfl :: .symbol "ret-val" :: .op .read rfl ::
      .symbol "return" :: .op .read rfl :: .op .ret rfl :: ts') := hback.rest
  have hdrop : Runs (m.at p.restoreDone (.empty :: s)) (m.at (p.restoreDone + 1) s) := hback.step hm rfl rfl
  have hval : Runs (m.at (p.restoreDone + 1) s) (m.at (p.restoreDone + 18) (v :: s)) :=
    hback.rest.read hm (by decide +kernel) hvalue
  have hto : Runs (m.at (p.restoreDone + 18) (v :: s)) (m.at (p.restoreDone + 34) (.closure here outer :: v :: s)) :=
    hback.rest.rest.rest.read hm (by decide +kernel) hreturn
  have hret : Runs (m.at (p.restoreDone + 34) (.closure here outer :: v :: s))
      ({ m with stack := v :: s }.switch here outer) := hback.rest.rest.rest.rest.rest.step hm rfl rfl
  exact (((((hempty.trans hread).trans hrestore).trans hdrop).trans hval).trans hto).trans hret

/-- **The frame of a call still has** what was saved in it. -/
structure SavedIn (b : Bindings) (here : Frame) (outer : List Frame) (s : List Val) : Prop where
  ret : b "return" = some (.closure here outer)
  save : b "stack-save" = some (.list s.reverse)

/-- What is saved stays saved when a value is bound beside it. -/
theorem SavedIn.bind_value {b : Bindings} {here : Frame} {outer : List Frame} {s : List Val}
    (h : SavedIn b here outer s) (v : Val) : SavedIn (Function.update b "ret-val" (some v)) here outer s where
  ret := by
    rw [Function.update_of_ne (by decide +kernel)]
    exact h.ret
  save := by
    rw [Function.update_of_ne (by decide +kernel)]
    exact h.save

/-- **The procedure returns a value.** -/
theorem HasCallCc.runs_returned (h : HasCallCc labels code length p) (hm : Executes m code length)
    {b : Bindings} (hb : m.tables m.here.bindings = some b) {here : Frame} {outer : List Frame}
    {s t : List Val} {v : Val} (hsaved : SavedIn b here outer s) (ht : t.length < 2 ^ 63) :
    Runs (m.at p.returned (v :: t)) ({ (m.setTable m.here.bindings (Function.update b "ret-val" (some v))) with
      stack := v :: s }.switch here outer) := by
  obtain ⟨ts', hin⟩ := h.returned.1
  have hin : Holds labels code length p.returned (.symbol "ret-val" :: .op .bind rfl ::
      .jump .jmp rfl "scheme-call-cc-return" :: ts') := hin
  let b₁ := Function.update b "ret-val" (some v)
  let m₁ := m.setTable m.here.bindings b₁
  have hsaved₁ : SavedIn b₁ here outer s := hsaved.bind_value v
  have hb₁ : m₁.tables m₁.here.bindings = some b₁ := setTable_tables _ _ _
  have hbind : Runs (m.at p.returned (v :: t)) (m₁.at (p.returned + 17) t) :=
    hin.bind hm (by decide +kernel) hb v
  have hjmp : Runs (m₁.at (p.returned + 17) t) (m₁.at p.empty t) :=
    hin.rest.rest.jmp (m := m₁) hm h.toReturn h.empty.lt
  have hreturn := h.runs_return (m := m₁) hm (findFrame_here hb₁ (Function.update_self _ _ _))
    (findFrame_here hb₁ hsaved₁.ret) (findFrame_here hb₁ hsaved₁.save) ht
  exact (hbind.trans hjmp).trans hreturn

/-- A name that the current frame does not have, but the next one has. -/
theorem findFrame_next {name : List UInt8} {c b : Bindings} {v : Val} {f : Frame} {outer : List Frame}
    (hc : m.tables m.here.bindings = some c) (hname : c name = none) (hb : m.tables f.bindings = some b)
    (hv : b name = some v) : findFrame m.tables name (m.here :: f :: outer) = some (f.bindings, v) := by
  simp [findFrame, hc, hname, hb, hv]

/-- **The exit procedure is called with a value.** -/
theorem HasCallCc.runs_exit (h : HasCallCc labels code length p) (hm : Executes m code length)
    {c b : Bindings} (hc : m.tables m.here.bindings = some c) (hret : c "return" = none)
    (hsave : c "stack-save" = none) {f : Frame} {fs : List Frame} (hf : m.outer = f :: fs)
    (hne : m.here.bindings ≠ f.bindings) (hb : m.tables f.bindings = some b) {here : Frame}
    {outer : List Frame} {s t : List Val} {r w rest : Val} (hsaved : SavedIn b here outer s)
    (ht : t.length < 2 ^ 63) :
    Runs (m.at p.exit (r :: .pair w rest :: t))
      ({ (m.setTable m.here.bindings (Function.update c "ret-val" (some w))) with
        stack := w :: s }.switch here outer) := by
  obtain ⟨ts', hin⟩ := h.exit.1
  have hin : Holds labels code length p.exit (.op .drop rfl :: .op .car rfl :: .symbol "ret-val" :: .op .bind rfl ::
      .jump .jmp rfl "scheme-call-cc-return" :: ts') := hin.rest
  let c₁ := Function.update c "ret-val" (some w)
  let m₁ := m.setTable m.here.bindings c₁
  have hc₁ : m₁.tables m₁.here.bindings = some c₁ := setTable_tables _ _ _
  have hb₁ : m₁.tables f.bindings = some b := by
    change Function.update m.tables m.here.bindings _ f.bindings = _
    rw [Function.update_of_ne hne.symm, hb]
  have hret₁ : c₁ "return" = none := by
    change Function.update c "ret-val" _ _ = _
    rw [Function.update_of_ne (by decide +kernel), hret]
  have hsave₁ : c₁ "stack-save" = none := by
    change Function.update c "ret-val" _ _ = _
    rw [Function.update_of_ne (by decide +kernel), hsave]
  have hdrop : Runs (m.at p.exit (r :: .pair w rest :: t)) (m.at (p.exit + 1) (.pair w rest :: t)) :=
    hin.step hm rfl rfl
  have hcar : Runs (m.at (p.exit + 1) (.pair w rest :: t)) (m.at (p.exit + 2) (w :: t)) := hin.rest.step hm rfl rfl
  have hbind : Runs (m.at (p.exit + 2) (w :: t)) (m₁.at (p.exit + 19) t) :=
    hin.rest.rest.bind hm (by decide +kernel) hc w
  have hjmp : Runs (m₁.at (p.exit + 19) t) (m₁.at p.empty t) :=
    hin.rest.rest.rest.rest.jmp (m := m₁) hm h.toReturn h.empty.lt
  have houter : m₁.outer = f :: fs := hf
  have hreturn := h.runs_return (m := m₁) (s := s) hm (findFrame_here hc₁ (Function.update_self _ _ _))
    (by rw [houter]; exact findFrame_next hc₁ hret₁ hb₁ hsaved.ret)
    (by rw [houter]; exact findFrame_next hc₁ hsave₁ hb₁ hsaved.save) ht
  exact (((hdrop.trans hcar).trans hbind).trans hjmp).trans hreturn

end

end Insomniac.Lib

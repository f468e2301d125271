import Insomniac.Compile.Program

/-!
# Compile/Quoted — quoted data

    '(a (b . c))  ──parser──▸  (  ()  ( c b )  a )  ──emit_quoted──▸  ()  c b cons  cons  a cons

The grammar of quoted data, the streams that its actions build, and the code of `emit_quoted`.  A list is a
stream in reverse with its tail in front, and behind every node but the first the code has a `cons`.

The rule of a quoted datum inside of another one drops its `quote`, and `(quote d)` is read with the rule of
a list.  So `'d` pushes the datum exactly when nothing is quoted inside of it, and `(quote d)` pushes the list
of the datum (`quoted_rebuilds_iff`).
-/

open Insomniac.Asm Insomniac.Vm Insomniac.Abstract Insomniac.Lib

namespace Insomniac.Compile

/-! ## Data

One type for each symbol of the grammar. -/

mutual

/-- `datum`: `self_evaluating` and `symbol` are atoms. -/
inductive Datum
  | atom (l : Literal)
  | quoted (q : Quoted)
  | list (e : ListEnd)

/-- `quoted`: `'d`, and `(quote …)`, whose rule takes the rest of any list. -/
inductive Quoted
  | quote (d : Datum)
  | primQuote (e : ListEnd)

/-- `list_end`. -/
inductive ListEnd
  | close
  | next (l : ListNext)
  | dot (l : ListNext) (d : Datum)

/-- `list_next`. -/
inductive ListNext
  | last (d : Datum)
  | more (d : Datum) (l : ListNext)

end

mutual

/-- A node of quoted data: `STREAM_LITERAL`, `STREAM_STRING` or `STREAM_SYMBOL`, or `STREAM_QUOTED`. -/
inductive QuotedNode
  | literal (l : Literal)
  | quoted (stream : QuotedStream)

/-- The streams of quoted data. -/
inductive QuotedStream
  | nil
  | cons (head : QuotedNode) (next : QuotedStream)

end

/-- `stream_concat`. -/
def QuotedStream.concat : QuotedStream → QuotedStream → QuotedStream
  | .nil, source => source
  | .cons head next, source => .cons head (next.concat source)

/-- A stream of one node. -/
def QuotedNode.stream (node : QuotedNode) : QuotedStream := .cons node .nil

/-! ### The actions of the grammar

Each of them is what the rule assigns. -/

mutual

/-- The rules of `datum`. -/
def Datum.stream : Datum → QuotedStream
  | .atom l => (QuotedNode.literal l).stream
  | .quoted q => (QuotedNode.quoted q.stream).stream
  | .list e => (QuotedNode.quoted e.stream).stream

/-- The rules of `quoted`. -/
def Quoted.stream : Quoted → QuotedStream
  | .quote d => d.stream
  | .primQuote e => e.stream

/-- The rules of `list_end`. -/
def ListEnd.stream : ListEnd → QuotedStream
  | .next l => (QuotedNode.literal .empty).stream.concat l.stream
  | .dot l d => d.stream.concat l.stream
  | .close => (QuotedNode.literal .empty).stream

/-- The rules of `list_next`. -/
def ListNext.stream : ListNext → QuotedStream
  | .last d => d.stream
  | .more d l => l.stream.concat d.stream

end

mutual

/-- A node of the loop of `emit_quoted`. -/
def QuotedNode.emit : QuotedNode → List Tok
  | .literal l => [l.token]
  | .quoted stream => stream.emitFrom false

/-- The loop of `emit_quoted`. -/
def QuotedStream.emitFrom : QuotedStream → (isList : Bool) → List Tok
  | .nil, _ => []
  | .cons head next, isList =>
    head.emit ++ ((if isList then [.op .cons Op.noOperand] else []) ++ next.emitFrom true)

end

/-- `emit_quoted`. -/
def emitQuoted (tree : QuotedStream) : List Tok := tree.emitFrom false

/-- The code of a quoted expression. -/
def Quoted.code (q : Quoted) : List Tok := emitQuoted q.stream

/-- `(quote d)`. -/
def quoteOf (d : Datum) : Quoted := .primQuote (.next (.last d))

/-! ## What a datum is

Inside of a datum both spellings of a quoted one stand for the list of `quote` and what is quoted. -/

/-- The value of a literal on the machine. -/
def Literal.val : Literal → Val
  | .empty => .empty
  | .boolean b => .bool b
  | .fixnum i => .fixnum i
  | .char c => .char c
  | .string str => .string str.bytes
  | .symbol name => .symbol name.bytes

mutual

/-- **The datum itself.** -/
def Datum.val : Datum → Val
  | .atom l => l.val
  | .quoted q => q.val
  | .list e => e.val

/-- A quoted datum inside of another one. -/
def Quoted.val : Quoted → Val
  | .quote d => .list [.symbol (text "quote"), d.val]
  | .primQuote e => .pair (.symbol (text "quote")) e.val

/-- The rest of a list. -/
def ListEnd.val : ListEnd → Val
  | .close => .empty
  | .next l => l.val .empty
  | .dot l d => l.val d.val

/-- The elements of a list, in front of its tail. -/
def ListNext.val : ListNext → (tail : Val) → Val
  | .last d, tail => .pair d.val tail
  | .more d l, tail => .pair d.val (l.val tail)

end

mutual

/-- How often something is quoted inside of a datum. -/
def Datum.quotes : Datum → ℕ
  | .atom _ => 0
  | .quoted q => q.quotes
  | .list e => e.quotes

/-- How often something is quoted in quoted data. -/
def Quoted.quotes : Quoted → ℕ
  | .quote d => d.quotes + 1
  | .primQuote e => e.quotes + 1

/-- How often something is quoted in the rest of a list. -/
def ListEnd.quotes : ListEnd → ℕ
  | .close => 0
  | .next l => l.quotes
  | .dot l d => l.quotes + d.quotes

/-- How often something is quoted in the elements of a list. -/
def ListNext.quotes : ListNext → ℕ
  | .last d => d.quotes
  | .more d l => d.quotes + l.quotes

end

/-- **Nothing is quoted inside of a datum.** -/
def Datum.Plain (d : Datum) : Prop := d.quotes = 0

/-! ## What the code does

The code has no jumps, so it does the same in a row and in its place. -/

/-- The instructions of some tokens in a row. -/
def straight : List Tok → Machine → Option Machine
  | [], m => some m
  | t :: ts, m => do
    let instr ← t.instr? (fun _ => none) 0
    let m ← m.exec instr.op instr.operand
    straight ts m

/-- **Some code pushes one value**, and does nothing else: in a row, and on the virtual machine wherever it sits. -/
structure Pushes (code : List Tok) (v : Val) : Prop where
  straight : ∀ m : Machine, straight code m = some (m.push v)
  placed : ∀ (host : Host) {p : Program} {a b : ℕ} {vm : VmInternal} {m : Machine}, Sits p a code b →
    Executing m p → m.here.ip = a → Ordered vm → Shows vm m →
      ∃ vm', Relation.ReflTransGen (Step host) vm vm' ∧ Shows vm' (m.at b (v :: m.stack)) ∧ Ordered vm' ∧ Kept vm vm'

/-- Some code takes a stack to another one. -/
structure Carries (code : List Tok) (s s' : List Val) : Prop where
  straight : ∀ m : Machine, Compile.straight code { m with stack := s } = some { m with stack := s' }
  runs : ∀ {p : Program} {a b : ℕ} {m : Machine}, Sits p a code b → Executing m p → Runs (m.at a s) (m.at b s')

section

variable {code code' : List Tok} {s s' s'' : List Val} {v w : Val}

theorem Carries.nil (s : List Val) : Carries [] s s where
  straight _ := rfl
  runs hsits _ := by
    obtain rfl := hsits
    exact .refl

/-- The instructions of two pieces of code in a row. -/
theorem straight_append : ∀ (code : List Tok) (m : Machine),
    straight (code ++ code') m = (straight code m).bind (straight code')
  | [], m => rfl
  | t :: ts, m => by
      rw [List.cons_append, straight, straight]
      cases t.instr? (fun _ => none) 0 with
      | none => rfl
      | some instr =>
        change (m.exec instr.op instr.operand).bind _ = ((m.exec instr.op instr.operand).bind _).bind _
        rw [Option.bind_assoc]
        exact congrArg _ (funext fun m => straight_append ts m)

/-- One piece of code behind another. -/
theorem Carries.append (h : Carries code s s') (h' : Carries code' s' s'') : Carries (code ++ code') s s'' where
  straight m := by
    rw [straight_append, h.straight m]
    exact h'.straight m
  runs hsits hm := by
    obtain ⟨c, hsits, hsits'⟩ := sits_append.mp hsits
    exact (h.runs hsits hm).trans (h'.runs hsits' hm)

/-- A literal. -/
theorem Literal.carries (l : Literal) (s : List Val) : Carries [l.token] s (l.val :: s) where
  straight m := by
    cases l with
    | empty => rfl
    | boolean b => cases b <;> rfl
    | fixnum i => rfl
    | char c => rfl
    | string str =>
      have hcstr : Bytes.cstr str.bytes = str.bytes :=
        Bytes.cstr_eq_self fun b hb hzero => str.noNul (hzero ▸ hb)
      change (if 0 ∈ Bytes.cstr str.bytes then none else _) >>= _ = _
      rw [hcstr, if_neg str.noNul]
      rfl
    | symbol name =>
      have hcstr : Bytes.cstr name.bytes = name.bytes :=
        Bytes.cstr_eq_self fun b hb hzero => name.noNul (hzero ▸ hb)
      change (if 0 ∈ Bytes.cstr name.bytes then none else _) >>= _ = _
      rw [hcstr, if_neg name.noNul]
      rfl
  runs {p a b m} hsits hm := by
    obtain ⟨w, hw, hruns⟩ := l.denotes m.codes
    obtain rfl : w = l.val := by cases l <;> cases hw <;> rfl
    obtain rfl : a + l.token.size = b := hsits.rest
    exact hruns p a _ [] m s hsits hm

/-- A `cons`. -/
theorem cons_carries (car cdr : Val) (s : List Val) :
    Carries [.op .cons Op.noOperand] (car :: cdr :: s) (.pair car cdr :: s) where
  straight _ := rfl
  runs {p a b m} hsits hm := by
    obtain rfl : a + 1 = b := hsits.rest
    exact hsits.op hm rfl

/-- Code that carries every stack to the one with a value more. -/
theorem Pushes.of_carries (h : ∀ s, Carries code s (v :: s)) : Pushes code v where
  straight m := (h m.stack).straight m
  placed host {p a b vm m} hsits hm hip hordered hshows := by
    have hruns := (h m.stack).runs hsits hm
    rw [← hip, Machine.at_self] at hruns
    have hstands : Stands vm vm m := ⟨hordered, hshows, .refl vm⟩
    obtain ⟨vm', hsteps, hstands'⟩ := hstands.runs host hruns
    exact ⟨vm', hsteps, hstands'.shows, hstands'.ordered, hstands'.kept⟩

/-- **Code pushes one value only.** -/
theorem Pushes.unique (h : Pushes code v) (h' : Pushes code w) : v = w := by
  have heq := Option.some.inj ((h.straight (begun [])).symm.trans (h'.straight (begun [])))
  have hstack : [v] = [w] := congrArg Machine.stack heq
  exact List.head_eq_of_cons_eq hstack

end

/-! ### What is pushed

The data without any `quote`: the code of a quoted datum inside of another one is that of the datum. -/

mutual

/-- What the code of a datum pushes. -/
def Datum.pushed : Datum → Val
  | .atom l => l.val
  | .quoted q => q.pushed
  | .list e => e.pushed

/-- What the code of quoted data pushes. -/
def Quoted.pushed : Quoted → Val
  | .quote d => d.pushed
  | .primQuote e => e.pushed

/-- What the code of the rest of a list pushes. -/
def ListEnd.pushed : ListEnd → Val
  | .close => .empty
  | .next l => l.pushed .empty
  | .dot l d => l.pushed d.pushed

/-- What the code of the elements of a list makes of the tail. -/
def ListNext.pushed : ListNext → (tail : Val) → Val
  | .last d, tail => .pair d.pushed tail
  | .more d l, tail => .pair d.pushed (l.pushed tail)

end

/-- The code of two streams. -/
theorem QuotedStream.emitFrom_concat : ∀ (stream source : QuotedStream),
    (stream.concat source).emitFrom true = stream.emitFrom true ++ source.emitFrom true
  | .nil, source => rfl
  | .cons head next, source => by
      rw [concat, emitFrom, emitFrom, emitFrom_concat next source, List.append_assoc, List.append_assoc]

/-- Elements behind the tail of a list. -/
theorem QuotedNode.emitQuoted_concat (node : QuotedNode) (source : QuotedStream) :
    emitQuoted (node.stream.concat source) = node.emit ++ source.emitFrom true := rfl

/-- The code of one node. -/
theorem QuotedNode.emit_stream (node : QuotedNode) (isList : Bool) : node.stream.emitFrom isList =
    node.emit ++ if isList then [.op .cons Op.noOperand] else [] := by
  rw [QuotedNode.stream, QuotedStream.emitFrom, QuotedStream.emitFrom, List.append_nil]

/-- A datum is one node. -/
theorem Datum.stream_node : ∀ d : Datum, ∃ node : QuotedNode, d.stream = node.stream
  | .atom l => ⟨.literal l, rfl⟩
  | .quoted q => ⟨.quoted q.stream, rfl⟩
  | .list e => ⟨.quoted e.stream, rfl⟩

/-- In a list a datum has a `cons` behind it. -/
theorem Datum.emitFrom_true (d : Datum) : d.stream.emitFrom true = d.stream.emitFrom false ++ [.op .cons Op.noOperand] := by
  obtain ⟨node, hnode⟩ := d.stream_node
  rw [hnode, node.emit_stream, node.emit_stream, if_pos rfl, if_neg Bool.false_ne_true, List.append_nil]

mutual

/-- **The code of a datum**, one node at a time. -/
theorem Datum.carries : ∀ (d : Datum) (s : List Val), Carries (emitQuoted d.stream) s (d.pushed :: s)
  | .atom l, s => l.carries s
  | .quoted q, s => by
      have h := q.carries s
      rwa [emitQuoted, Datum.stream, QuotedNode.emit_stream, if_neg Bool.false_ne_true, List.append_nil]
  | .list e, s => by
      have h := e.carries s
      rwa [emitQuoted, Datum.stream, QuotedNode.emit_stream, if_neg Bool.false_ne_true, List.append_nil]

/-- The code of quoted data. -/
theorem Quoted.carries : ∀ (q : Quoted) (s : List Val), Carries (emitQuoted q.stream) s (q.pushed :: s)
  | .quote d, s => d.carries s
  | .primQuote e, s => e.carries s

/-- The code of the rest of a list: the tail, and the elements from the last on. -/
theorem ListEnd.carries : ∀ (e : ListEnd) (s : List Val), Carries (emitQuoted e.stream) s (e.pushed :: s)
  | .close, s => Literal.empty.carries s
  | .next l, s => (Literal.empty.carries s).append (l.carries .empty s)
  | .dot l d, s => by
      have h := (d.carries s).append (l.carries d.pushed s)
      obtain ⟨node, hnode⟩ := d.stream_node
      rw [hnode, emitQuoted, node.emit_stream, if_neg Bool.false_ne_true, List.append_nil] at h
      rwa [ListEnd.stream, hnode]

/-- The code of the elements of a list, with the tail on the stack. -/
theorem ListNext.carries : ∀ (l : ListNext) (tail : Val) (s : List Val),
    Carries (l.stream.emitFrom true) (tail :: s) (l.pushed tail :: s)
  | .last d, tail, s => by
      rw [ListNext.stream, d.emitFrom_true]
      exact (d.carries (tail :: s)).append (cons_carries d.pushed tail s)
  | .more d l, tail, s => by
      rw [ListNext.stream, QuotedStream.emitFrom_concat, d.emitFrom_true]
      exact (l.carries tail s).append
        ((d.carries (l.pushed tail :: s)).append (cons_carries d.pushed (l.pushed tail) s))

end

/-- **The code of a quoted expression** pushes the data without any `quote`. -/
theorem Quoted.pushes (q : Quoted) : Pushes q.code q.pushed := .of_carries q.carries

/-! ## Where that is the datum

A `quote` that is dropped leaves fewer pairs. -/

/-- The pairs of a value. -/
def pairs : Val → ℕ
  | .pair car cdr => pairs car + pairs cdr + 1
  | _ => 0

mutual

theorem Datum.pairs_le : ∀ d : Datum, pairs d.pushed + d.quotes ≤ pairs d.val
  | .atom _ => le_rfl
  | .quoted q => q.pairs_le
  | .list e => e.pairs_le

theorem Quoted.pairs_le : ∀ q : Quoted, pairs q.pushed + q.quotes ≤ pairs q.val
  | .quote d => by
      have h := d.pairs_le
      simp only [Quoted.pushed, Quoted.quotes, Quoted.val, Val.list_cons, Val.list_nil, pairs]
      omega
  | .primQuote e => by
      have h := e.pairs_le
      simp only [Quoted.pushed, Quoted.quotes, Quoted.val, pairs]
      omega

theorem ListEnd.pairs_le : ∀ e : ListEnd, pairs e.pushed + e.quotes ≤ pairs e.val
  | .close => le_rfl
  | .next l => by
      have h : pairs .empty + 0 ≤ pairs .empty := le_rfl
      exact l.pairs_le h
  | .dot l d => by
      have h := l.pairs_le d.pairs_le
      rwa [ListEnd.pushed, ListEnd.quotes, ListEnd.val]

/-- **A `quote` that is dropped leaves fewer pairs.** -/
theorem ListNext.pairs_le : ∀ (l : ListNext) {tail tail' : Val} {quotes : ℕ}, pairs tail + quotes ≤ pairs tail' →
    pairs (l.pushed tail) + (l.quotes + quotes) ≤ pairs (l.val tail')
  | .last d, tail, tail', quotes, htail => by
      have h := d.pairs_le
      simp only [ListNext.pushed, ListNext.quotes, ListNext.val, pairs]
      omega
  | .more d l, tail, tail', quotes, htail => by
      have h := d.pairs_le
      have hl := l.pairs_le htail
      simp only [ListNext.pushed, ListNext.quotes, ListNext.val, pairs]
      omega

end

mutual

/-- **Without a `quote` the datum is pushed.** -/
theorem Datum.pushed_eq : ∀ d : Datum, d.quotes = 0 → d.pushed = d.val
  | .atom l, _ => rfl
  | .quoted q, h => by
      cases q with
      | quote d => cases h
      | primQuote e => cases h
  | .list e, h => e.pushed_eq h

@[inherit_doc Datum.pushed_eq] theorem ListEnd.pushed_eq : ∀ e : ListEnd, e.quotes = 0 → e.pushed = e.val
  | .close, _ => rfl
  | .next l, h => l.pushed_eq h .empty
  | .dot l d, h => by
      obtain ⟨hl, hd⟩ := Nat.add_eq_zero_iff.mp h
      rw [ListEnd.pushed, ListEnd.val, d.pushed_eq hd, l.pushed_eq hl]

@[inherit_doc Datum.pushed_eq] theorem ListNext.pushed_eq : ∀ l : ListNext, l.quotes = 0 → ∀ tail,
    l.pushed tail = l.val tail
  | .last d, h, tail => by rw [ListNext.pushed, ListNext.val, d.pushed_eq h]
  | .more d l, h, tail => by
      obtain ⟨hd, hl⟩ := Nat.add_eq_zero_iff.mp h
      rw [ListNext.pushed, ListNext.val, d.pushed_eq hd, l.pushed_eq hl]

end

/-- What is pushed is the datum exactly when nothing is quoted inside of it. -/
theorem Datum.pushed_eq_iff (d : Datum) : d.pushed = d.val ↔ d.Plain := by
  refine ⟨fun h => ?_, d.pushed_eq⟩
  have hle := d.pairs_le
  rw [h] at hle
  exact Nat.le_zero.mp (by omega)

/-- The elements of a list are a pair. -/
theorem ListNext.val_pair : ∀ (l : ListNext) (tail : Val), ∃ car cdr, l.val tail = .pair car cdr
  | .last _, _ => ⟨_, _, rfl⟩
  | .more _ _, _ => ⟨_, _, rfl⟩

/-- A datum that is `()` is pushed as it is. -/
theorem Datum.pushed_eq_empty {d : Datum} (h : d.val = .empty) : d.pushed = .empty := by
  cases d with
  | atom l => exact h
  | quoted q => cases q <;> cases h
  | list e =>
    cases e with
    | close => rfl
    | next l =>
      obtain ⟨car, cdr, hpair⟩ := l.val_pair .empty
      cases hpair.symm.trans h
    | dot l d =>
      obtain ⟨car, cdr, hpair⟩ := l.val_pair d.val
      cases hpair.symm.trans h

/-- **The list of what is pushed is not the datum**: a list of one element would have to have such an element. -/
theorem Datum.list_pushed_ne : ∀ d : Datum, Val.pair d.pushed .empty ≠ d.val
  | .atom l, h => by cases l <;> cases h
  | .quoted (.quote d), h => by cases (Val.pair.inj h).2
  | .quoted (.primQuote .close), h => by cases h
  | .quoted (.primQuote (.next l)), h => by
      obtain ⟨car, cdr, hpair⟩ := l.val_pair .empty
      cases hpair.symm.trans (Val.pair.inj h).2.symm
  | .quoted (.primQuote (.dot l d)), h => by
      obtain ⟨car, cdr, hpair⟩ := l.val_pair d.val
      cases hpair.symm.trans (Val.pair.inj h).2.symm
  | .list .close, h => by cases h
  | .list (.next (.last d)), h => d.list_pushed_ne (Val.pair.inj h).1
  | .list (.next (.more d l)), h => by
      obtain ⟨car, cdr, hpair⟩ := l.val_pair .empty
      cases hpair.symm.trans (Val.pair.inj h).2.symm
  | .list (.dot (.last d) tail), h => by
      obtain ⟨hcar, hcdr⟩ := Val.pair.inj h
      have htail := Datum.pushed_eq_empty hcdr.symm
      rw [Datum.pushed, ListEnd.pushed, ListNext.pushed, htail] at hcar
      exact d.list_pushed_ne hcar
  | .list (.dot (.more d l) tail), h => by
      obtain ⟨car, cdr, hpair⟩ := l.val_pair tail.val
      cases hpair.symm.trans (Val.pair.inj h).2.symm

/-! ## Both spellings -/

/-- **Quotation rebuilds a datum** in the spelling `'d` exactly when nothing is quoted inside of it, and never in the
spelling `(quote d)`, whose code pushes the list of the datum. -/
theorem quoted_rebuilds_iff (d : Datum) :
    (Pushes (Quoted.quote d).code d.val ↔ d.Plain) ∧ ¬ Pushes (quoteOf d).code d.val := by
  constructor
  · rw [← d.pushed_eq_iff]
    refine ⟨fun h => (Quoted.quote d).pushes.unique h, fun h => ?_⟩
    have hpushes := (Quoted.quote d).pushes
    rwa [Quoted.pushed, h] at hpushes
  · exact fun h => d.list_pushed_ne ((quoteOf d).pushes.unique h)

/-- A symbol. -/
def letter : Datum := .atom (.symbol ⟨text "a", by decide⟩)

/-- **`(quote a)` is the list `(a)`**, and `''a` is `a`. -/
theorem quote_pushes_list : Pushes (quoteOf letter).code (.list [letter.val]) ∧
    ¬ Pushes (quoteOf letter).code letter.val ∧ Pushes (Quoted.quote (.quoted (.quote letter))).code letter.val ∧
      ¬ Pushes (Quoted.quote (.quoted (.quote letter))).code (Datum.quoted (.quote letter)).val := by
  have hlist := (quoteOf letter).pushes
  have hletter := (Quoted.quote (.quoted (.quote letter))).pushes
  refine ⟨hlist, fun h => ?_, hletter, fun h => ?_⟩
  · cases hlist.unique h
  · cases hletter.unique h

end Insomniac.Compile

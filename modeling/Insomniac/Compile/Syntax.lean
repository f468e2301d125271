import Insomniac.Asm.Assemble

/-!
# Compile/Syntax — instruction streams

What the parser hands to `emit_stream`: streams of nodes, whose parts are streams again.  The nodes are
those of the core language; `begin` has none, its expressions are spliced into the stream around it.
Three kinds of node are outside of it: a quoted list, a record type and `(asm …)`, whose text is the
program's own and may jump to labels that it does not have.

    Stream:  node ──▸ node ──▸ …          if ⟨test⟩ ⟨yes⟩ ⟨no⟩ · call ⟨operator⟩ ⟨operands⟩ · …
-/

open Insomniac.Asm

namespace Insomniac.Compile

/-- A text without `NUL`, as the lexer's texts are. -/
structure Text where
  bytes : List UInt8
  noNul : 0 ∉ bytes
  deriving DecidableEq

/-- The text that some bytes are, up to `NUL`. -/
def Text.ofBytes (bytes : List UInt8) : Text where
  bytes := Bytes.cstr bytes
  noNul h := Bytes.ne_zero_of_mem_cstr h rfl

/-- `STREAM_LITERAL`, `STREAM_STRING`, and the quoted symbols. -/
inductive Literal
  | empty
  | boolean (b : Bool)
  | fixnum (i : Int64)
  | char (c : UInt32)
  | string (str : Text)
  | symbol (name : Text)
  deriving DecidableEq

/-- `MATH_OPS`. -/
inductive MathOp
  | add | sub | mul | div | mod | equal | lt | gt
  deriving DecidableEq

/-- The formals of a lambda, as the stream of their nodes: it ends with `()` when the list is fixed, and
with a symbol that takes the rest of the arguments when it is not. -/
inductive Formals
  | fixed
  | rest (name : Text)
  | cons (name : Text) (next : Formals)
  deriving DecidableEq

mutual

/-- `ins_node_type`, without the nodes of quoted lists, of record types and of `asm`: the trees that are compiled here
are those of the core language. -/
inductive Node
  | literal (l : Literal)
  | load (name : Text)
  | cond (clauses : Clauses)
  | ifElse (test yes no : Stream)
  | and (nodes : Stream)
  | or (nodes : Stream)
  | math (op : MathOp) (stream1 stream2 : Stream)
  | lambda (formals : Formals) (body : Stream)
  | call (operator operands : Stream)
  | bind (value : Stream) (name : Text)
  | store (value : Stream) (name : Text)
  | letStar (bindings body : Stream)

/-- `ins_stream_type`. -/
inductive Stream
  | nil
  | cons (head : Node) (next : Stream)

/-- The clauses of a `cond`, each with its test and its body. -/
inductive Clauses
  | nil
  | cons (test body : Stream) (next : Clauses)

end

/-- Whether the code of a node leaves a value on the stack: that of `define` and `set!` does not. -/
def Node.pushes : Node → Bool
  | .bind .. => false
  | .store .. => false
  | _ => true

end Insomniac.Compile

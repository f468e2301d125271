import Insomniac.Compile.Evaluate

/-!
# Compile/Names — what streams look up, capture and define

    uses       a name may be looked up outside of what the code binds itself
    captures   … by a lambda in it
    defines    a name may be defined in the scope that the code is evaluated in

A name that a node of a stream defines is bound for the nodes behind it, as the formals of a lambda are for
its body.
-/

namespace Insomniac.Compile

/-- A name. -/
abbrev Name := List UInt8

/-- Whether a lambda binds a name. -/
def Formals.Binds (x : Name) : Formals → Prop
  | .fixed => False
  | .rest name => name.bytes = x
  | .cons name next => name.bytes = x ∨ next.Binds x

/-- Whether a node is the definition of a name. -/
def Node.Binds (x : Name) : Node → Prop
  | .bind _ name => name.bytes = x
  | _ => False

/-- Whether a stream has a definition of a name. -/
def Stream.Binds (x : Name) : Stream → Prop
  | .nil => False
  | .cons head next => head.Binds x ∨ next.Binds x

mutual

/-- Whether a node may look up a name that it does not bind, or only whether a lambda in it may. -/
def Node.Uses (captured : Prop) (x : Name) : Node → Prop
  | .literal _ => False
  | .load name => ¬captured ∧ name.bytes = x
  | .cond clauses => clauses.Uses captured x
  | .ifElse test yes no => test.Uses captured x ∨ yes.Uses captured x ∨ no.Uses captured x
  | .and nodes => nodes.Uses captured x
  | .or nodes => nodes.Uses captured x
  | .math _ stream1 stream2 => stream1.Uses captured x ∨ stream2.Uses captured x
  | .lambda formals body => ¬formals.Binds x ∧ body.Uses False x
  | .call operator operands => operands.Uses captured x ∨ operator.Uses captured x
  | .bind value _ => value.Uses captured x
  | .store value name => value.Uses captured x ∨ ¬captured ∧ name.bytes = x
  | .letStar bindings body => bindings.Uses captured x ∨ ¬bindings.Binds x ∧ body.Uses captured x

@[inherit_doc Node.Uses] def Stream.Uses (captured : Prop) (x : Name) : Stream → Prop
  | .nil => False
  | .cons head next => head.Uses captured x ∨ ¬head.Binds x ∧ next.Uses captured x

@[inherit_doc Node.Uses] def Clauses.Uses (captured : Prop) (x : Name) : Clauses → Prop
  | .nil => False
  | .cons test body next => test.Uses captured x ∨ body.Uses captured x ∨ next.Uses captured x

end

mutual

/-- What lambdas look up is looked up. -/
theorem Node.uses_of_captures : ∀ {node : Node} {x : Name}, node.Uses True x → node.Uses False x
  | .literal _, _, h => h
  | .load _, _, h => absurd trivial h.1
  | .cond _, _, h => Clauses.uses_of_captures h
  | .ifElse .., _, h =>
    h.imp Stream.uses_of_captures fun h => h.imp Stream.uses_of_captures Stream.uses_of_captures
  | .and _, _, h => Stream.uses_of_captures h
  | .or _, _, h => Stream.uses_of_captures h
  | .math .., _, h => h.imp Stream.uses_of_captures Stream.uses_of_captures
  | .lambda .., _, h => h
  | .call .., _, h => h.imp Stream.uses_of_captures Stream.uses_of_captures
  | .bind .., _, h => Stream.uses_of_captures h
  | .store .., _, h => h.imp Stream.uses_of_captures fun h => absurd trivial h.1
  | .letStar .., _, h => h.imp Stream.uses_of_captures fun h => ⟨h.1, Stream.uses_of_captures h.2⟩

@[inherit_doc Node.uses_of_captures] theorem Stream.uses_of_captures : ∀ {tree : Stream} {x : Name},
    tree.Uses True x → tree.Uses False x
  | .nil, _, h => h
  | .cons .., _, h => h.imp Node.uses_of_captures fun h => ⟨h.1, Stream.uses_of_captures h.2⟩

@[inherit_doc Node.uses_of_captures] theorem Clauses.uses_of_captures : ∀ {clauses : Clauses} {x : Name},
    clauses.Uses True x → clauses.Uses False x
  | .nil, _, h => h
  | .cons .., _, h =>
    h.imp Stream.uses_of_captures fun h => h.imp Stream.uses_of_captures Clauses.uses_of_captures

end

mutual

/-- Whether a node may define a name in the scope that it is evaluated in. -/
def Node.Defines (x : Name) : Node → Prop
  | .literal _ => False
  | .load _ => False
  | .cond clauses => clauses.Defines x
  | .ifElse test yes no => test.Defines x ∨ yes.Defines x ∨ no.Defines x
  | .and nodes => nodes.Defines x
  | .or nodes => nodes.Defines x
  | .math _ stream1 stream2 => stream1.Defines x ∨ stream2.Defines x
  | .lambda _ _ => False
  | .call operator operands => operands.Defines x ∨ operator.Defines x
  | .bind value name => value.Defines x ∨ name.bytes = x
  | .store value _ => value.Defines x
  | .letStar _ _ => False

@[inherit_doc Node.Defines] def Stream.Defines (x : Name) : Stream → Prop
  | .nil => False
  | .cons head next => head.Defines x ∨ next.Defines x

@[inherit_doc Node.Defines] def Clauses.Defines (x : Name) : Clauses → Prop
  | .nil => False
  | .cons test body next => test.Defines x ∨ body.Defines x ∨ next.Defines x

end

/-- What some code asks of the scopes around it. -/
structure Needs where
  uses : Name → Prop
  captures : Name → Prop
  defines : Name → Prop

/-- What a node needs. -/
def Node.needs (node : Node) : Needs := ⟨(node.Uses False ·), (node.Uses True ·), (node.Defines ·)⟩

@[inherit_doc Node.needs] def Stream.needs (tree : Stream) : Needs :=
  ⟨(tree.Uses False ·), (tree.Uses True ·), (tree.Defines ·)⟩

@[inherit_doc Node.needs] def Clauses.needs (clauses : Clauses) : Needs :=
  ⟨(clauses.Uses False ·), (clauses.Uses True ·), (clauses.Defines ·)⟩

/-- What a closure needs: its body is evaluated in a scope of its own. -/
def Needs.closure (formals : Formals) (body : Stream) : Needs :=
  let free x := ¬formals.Binds x ∧ body.Uses False x
  ⟨free, free, fun _ => False⟩

/-- What is needed by less code, or behind the definition of some names. -/
structure Needs.Within (n' n : Needs) (bound : Name → Prop) : Prop where
  uses : ∀ x, n'.uses x → n.uses x ∨ bound x
  captures : ∀ x, n'.captures x → n.captures x ∨ bound x
  defines : ∀ x, n'.defines x → n.defines x

end Insomniac.Compile

import Docpress.Diagnostic
import Docpress.Fault

/-!
# Drafts

A parser builds its result in a draft: the finished declarations, and a stack of constructs
that are still open.  Merging closes the construct on top; it becomes part of the one beneath
or, if there is none, a declaration.
-/

namespace Docpress

/-- Constructs that can hold other constructs of their type. -/
class Construct (α : Type) where
  /-- Attaches a finished construct to the one it was opened in. -/
  attach : (parent child : α) → Except Fault α

/-- A finished construct and the place where it was opened. -/
structure Decl (α : Type) where
  node : α
  position : Position
deriving DecidableEq, Repr, Inhabited

/-- Finished declarations and open constructs, the innermost first. -/
structure Draft (α : Type) where
  decls : Array (Decl α) := #[]
  stack : List (α × Position) := []
deriving Repr, Inhabited

namespace Draft

variable {α : Type}

/-- Opens a construct. -/
def push (draft : Draft α) (node : α) (position : Position) : Draft α :=
  { draft with stack := (node, position) :: draft.stack }

/-- The construct opened last. -/
def top (draft : Draft α) : Except Fault α :=
  match draft.stack with
  | [] => .error (.nothingOpen .access)
  | (node, _) :: _ => .ok node

/-- Exchanges the construct opened last. -/
def setTop (draft : Draft α) (node : α) : Draft α :=
  match draft.stack with
  | [] => draft
  | (_, position) :: rest => { draft with stack := (node, position) :: rest }

/-- Closes the construct opened last.  It is gone from the stack even if the one beneath it
does not take it. -/
def merge [Construct α] (draft : Draft α) : Except Fault Unit × Draft α :=
  match draft.stack with
  | [] => (.error (.nothingOpen .merge), draft)
  | [(node, position)] => (.ok (), { decls := draft.decls.push ⟨node, position⟩, stack := [] })
  | (node, _) :: (parent, position) :: rest =>
    match Construct.attach parent node with
    | .error fault => (.error fault, { draft with stack := (parent, position) :: rest })
    | .ok parent => (.ok (), { draft with stack := (parent, position) :: rest })

/-- Closes the construct opened last. -/
def merged [Construct α] (draft : Draft α) : Except Fault (Draft α) :=
  match draft.merge with
  | (.error fault, _) => .error fault
  | (.ok (), draft) => .ok draft

/-- The declarations of an input that was parsed to its end. -/
def finish (draft : Draft α) : Except Fault (List (Decl α)) :=
  if draft.stack.isEmpty then .ok draft.decls.toList
  else .error (.stillOpen draft.stack.length)

end Draft
end Docpress

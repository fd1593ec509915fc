import Docpress.Assembly.Statement

/-!
# The layout of a program

The offset of a statement is the number of objects before it.  A first pass gives every label
the offset of its first definition; a second pass writes the objects, with offsets in place
of labels.
-/

namespace Docpress.Assembly

/-! ## Offsets -/

/-- The offsets of statements that follow `offset` objects. -/
def offsetsFrom (offset : Nat) : List (Decl Statement) → List Nat
  | [] => []
  | decl :: rest => offset :: offsetsFrom (offset + decl.node.size) rest

/-- The offset of every statement. -/
def offsets (decls : List (Decl Statement)) : List Nat :=
  offsetsFrom 0 decls

/-! ## Labels -/

/-- Labels with the offsets they stand for. -/
structure Labels where
  entries : List (String × Nat) := []
deriving DecidableEq, Repr, Inhabited

namespace Labels

/-- The offset of a label. -/
def lookup? (labels : Labels) (name : String) : Option Nat :=
  labels.entries.lookup name

/-- The labels and one more. -/
def insert (labels : Labels) (name : String) (offset : Nat) : Labels :=
  ⟨labels.entries ++ [(name, offset)]⟩

end Labels

/-- Adds the labels of statements that follow `offset` objects.  A label that is defined again
is reported and keeps its offset. -/
def collectLabels (offset : Nat) (labels : Labels) :
    List (Decl Statement) → Labels × List Diagnostic
  | [] => (labels, [])
  | decl :: rest =>
    let next := offset + decl.node.size
    match decl.node with
    | .label name =>
      if (labels.lookup? name).isSome then
        let (labels, diagnostics) := collectLabels next labels rest
        (labels, ⟨decl.position, .duplicateLabel name⟩ :: diagnostics)
      else collectLabels next (labels.insert name offset) rest
    | _ => collectLabels next labels rest

/-- The labels of a program, and a diagnostic for every one that is defined again. -/
def labelsOf (decls : List (Decl Statement)) : Labels × List Diagnostic :=
  collectLabels 0 {} decls

/-! ## Objects -/

/-- The objects of a statement. -/
def Statement.objects (labels : Labels) : Statement → List Object
  | .label _ => []
  | .literal text => [.string text]
  | .value object => [object]
  | .operation op => [.op op]
  | .push operand => [.op .push, operand.getD .null]
  | .invoke op name id =>
    [.op op, match id with
      | some id => .u64 id
      | none => .string name]
  | .forward operand => [.op .forward, operand.getD (.uuid 0)]
  | .jump op target => [.op op, .u64 (.ofNat ((labels.lookup? target).getD 0))]

/-- The diagnostic for a jump to a label that is not defined. -/
def unresolved (labels : Labels) (decl : Decl Statement) : List Diagnostic :=
  match decl.node with
  | .jump _ target =>
    if (labels.lookup? target).isSome then []
    else [⟨decl.position, .unresolvedLabel target⟩]
  | _ => []

/-- The objects of a program, and a diagnostic for every jump to a label that is not
defined. -/
def objectsOf (labels : Labels) (decls : List (Decl Statement)) :
    List Object × List Diagnostic :=
  (decls.flatMap (·.node.objects labels), decls.flatMap (unresolved labels))

/-! ## Listings -/

/-- The form in which a listing shows a statement. -/
def Statement.listing (labels : Labels) : Statement → String
  | .label name => name ++ ":"
  | .literal text => "    " ++ Text.quoted text
  | .value object => "    " ++ object.text
  | .operation op => "    " ++ op.mnemonic
  | .push (some object) => "    push " ++ object.text
  | .push none => "    push null"
  | .invoke op name (some id) =>
    "    " ++ op.mnemonic ++ " " ++ name ++ " (#" ++ Text.decimal id.toNat ++ ")"
  | .invoke op name none => "    " ++ op.mnemonic ++ " " ++ name
  | .forward (some object) => "    forward " ++ object.text
  | .forward none => "    forward ?"
  | .jump op target =>
    let resolution := match labels.lookup? target with
      | some offset => "(-> " ++ Text.paddedDecimal 4 offset ++ ")"
      | none => "(unresolved)"
    "    " ++ op.mnemonic ++ " " ++ target ++ " " ++ resolution

/-- A table of the offsets and what stands there, one statement a line. -/
def listing (decls : List (Decl Statement)) (labels : Labels) : String :=
  String.join ((decls.zip (offsets decls)).map fun (decl, offset) =>
    Text.paddedDecimal 4 offset ++ "  " ++ decl.node.listing labels ++ "\n")

end Docpress.Assembly

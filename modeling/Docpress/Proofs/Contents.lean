import Docpress.Proofs.Meaning

/-!
# What trees are made of

`Call.Everywhere names payloads` says that every method called anywhere in a tree satisfies
`names`, and every constant `payloads`.  Parameters that still wait for their values are of no
account, so that it makes sense for open calls as well.
-/

namespace Docpress.Document

section

variable (names : String → Prop) (payloads : Payload → Prop)

mutual

/-- All names and constants in the value satisfy the predicates. -/
def Value.Everywhere : Value → Prop
  | .constant constant => payloads constant.payload
  | .call call => call.Everywhere

/-- All names and constants in the call satisfy the predicates. -/
def Call.Everywhere : Call → Prop
  | .vector name _ args => names name ∧ Value.AllEverywhere args
  | .map name _ params => names name ∧ Param.AllEverywhere params

/-- All names and constants in the value of the parameter satisfy the predicates. -/
def Param.Everywhere : Param → Prop
  | .pending _ => True
  | .bound _ value => value.Everywhere

def Value.AllEverywhere : List Value → Prop
  | [] => True
  | value :: rest => value.Everywhere ∧ Value.AllEverywhere rest

def Param.AllEverywhere : List Param → Prop
  | [] => True
  | param :: rest => param.Everywhere ∧ Param.AllEverywhere rest

end

end

variable {names : String → Prop} {payloads : Payload → Prop}

theorem Value.allEverywhere_iff {values : List Value} :
    Value.AllEverywhere names payloads values ↔
      ∀ value ∈ values, value.Everywhere names payloads := by
  induction values with
  | nil => simp [Value.AllEverywhere]
  | cons value values ih => simp [Value.AllEverywhere, ih]

theorem Param.allEverywhere_iff {params : List Param} :
    Param.AllEverywhere names payloads params ↔
      ∀ param ∈ params, param.Everywhere names payloads := by
  induction params with
  | nil => simp [Param.AllEverywhere]
  | cons param params ih => simp [Param.AllEverywhere, ih]

end Docpress.Document

import Docpress.Proofs.DocumentMoves

/-!
# Leaves of document trees

The leaves of a tree are the texts it was made from: the literals of its constants and the keys
of its parameters, in order.

When a map call is closed, a parameter without a value gets an empty text that nobody wrote.
To tell such texts from written ones, the parser is followed on sparse trees, in which these
parameters stay pending.  `supplied` turns a sparse tree into the one that the parser returns,
`leaves` lists what was written, and `emptied` what was reported as empty.  The lemmas say how
the three go along with the operations of the parser on trees.
-/

namespace Docpress.Document

/-! ## Sparse trees -/

mutual

/-- The value with an empty text for every parameter that has none. -/
def Value.supplied : Value → Value
  | .constant constant => .constant constant
  | .call call => .call call.supplied

/-- The call with an empty text for every parameter that has none. -/
def Call.supplied : Call → Call
  | .vector name entry args => .vector name entry (Value.suppliedAll args)
  | .map name entry params => .map name entry (Param.suppliedAll params)

/-- The parameter with an empty text if it has no value. -/
def Param.supplied : Param → Param
  | .pending key => .bound key (.constant (.string ""))
  | .bound key value => .bound key value.supplied

/-- The values, each with the empty texts it needs. -/
def Value.suppliedAll : List Value → List Value
  | [] => []
  | value :: rest => value.supplied :: Value.suppliedAll rest

/-- The parameters, each with the empty texts it needs. -/
def Param.suppliedAll : List Param → List Param
  | [] => []
  | param :: rest => param.supplied :: Param.suppliedAll rest

end

mutual

/-- The texts that the value was made from. -/
def Value.leaves : Value → List String
  | .constant constant => [constant.literal]
  | .call call => call.leaves

/-- The texts that the call was made from, apart from its name. -/
def Call.leaves : Call → List String
  | .vector _ _ args => Value.allLeaves args
  | .map _ _ params => Param.allLeaves params

/-- The key of the parameter, and the texts of its value if it has one. -/
def Param.leaves : Param → List String
  | .pending key => [key]
  | .bound key value => key :: value.leaves

/-- The texts that the values were made from. -/
def Value.allLeaves : List Value → List String
  | [] => []
  | value :: rest => value.leaves ++ Value.allLeaves rest

/-- The texts that the parameters were made from. -/
def Param.allLeaves : List Param → List String
  | [] => []
  | param :: rest => param.leaves ++ Param.allLeaves rest

end

mutual

/-- The methods and keys of the parameters in the value that have none, inner calls first. -/
def Value.emptied : Value → List (String × String)
  | .constant _ => []
  | .call call => call.emptied

/-- The methods and keys of the parameters in the call that have no value, inner calls
first. -/
def Call.emptied : Call → List (String × String)
  | .vector _ _ args => Value.allEmptied args
  | .map name _ params =>
    Param.allEmptied params ++ (Call.pendingKeys params).map fun key => (name, key)

/-- The methods and keys of the parameters without a value in the value of the parameter. -/
def Param.emptied : Param → List (String × String)
  | .pending _ => []
  | .bound _ value => value.emptied

/-- The methods and keys of the parameters in the values that have none. -/
def Value.allEmptied : List Value → List (String × String)
  | [] => []
  | value :: rest => value.emptied ++ Value.allEmptied rest

/-- The methods and keys of the parameters without a value in the values of the parameters. -/
def Param.allEmptied : List Param → List (String × String)
  | [] => []
  | param :: rest => param.emptied ++ Param.allEmptied rest

end

namespace Value

@[simp] theorem suppliedAll_eq_map (values : List Value) :
    suppliedAll values = values.map supplied := by
  induction values with
  | nil => rfl
  | cons value values ih => simp [suppliedAll, ih]

@[simp] theorem allLeaves_eq_flatMap (values : List Value) :
    allLeaves values = values.flatMap leaves := by
  induction values with
  | nil => rfl
  | cons value values ih => simp [allLeaves, ih]

@[simp] theorem allEmptied_eq_flatMap (values : List Value) :
    allEmptied values = values.flatMap emptied := by
  induction values with
  | nil => rfl
  | cons value values ih => simp [allEmptied, ih]

end Value

namespace Param

@[simp] theorem suppliedAll_eq_map (params : List Param) :
    suppliedAll params = params.map supplied := by
  induction params with
  | nil => rfl
  | cons param params ih => simp [suppliedAll, ih]

@[simp] theorem allLeaves_eq_flatMap (params : List Param) :
    allLeaves params = params.flatMap leaves := by
  induction params with
  | nil => rfl
  | cons param params ih => simp [allLeaves, ih]

@[simp] theorem allEmptied_eq_flatMap (params : List Param) :
    allEmptied params = params.flatMap emptied := by
  induction params with
  | nil => rfl
  | cons param params ih => simp [allEmptied, ih]

end Param

/-! ## Joined marks and parameter values -/

namespace Value

theorem isPunctuation_supplied (value : Value) :
    value.supplied.isPunctuation = value.isPunctuation := by
  cases value <;> simp [supplied, isPunctuation]

theorem supplied_join (left right : Value) :
    (join left right).supplied = join left.supplied right.supplied := by
  simp [join, supplied, Call.supplied]

theorem map_supplied_coalesceAfter (current : Value) (args : List Value) :
    (coalesceAfter current args).map supplied =
      coalesceAfter current.supplied (args.map supplied) := by
  induction args generalizing current with
  | nil => rfl
  | cons arg args ih =>
    simp only [coalesceAfter, List.map_cons, isPunctuation_supplied]
    split
    · rw [ih, supplied_join]
    · rw [List.map_cons, ih]

/-- Marks are joined alike in a sparse tree. -/
theorem map_supplied_coalesce (args : List Value) :
    (coalesce args).map supplied = coalesce (args.map supplied) := by
  cases args with
  | nil => rfl
  | cons first rest => exact map_supplied_coalesceAfter first rest

theorem flatMap_coalesceAfter {α : Type} {measure : Value → List α}
    (hjoin : ∀ left right, measure (join left right) = measure left ++ measure right)
    (current : Value) (args : List Value) :
    (coalesceAfter current args).flatMap measure = measure current ++ args.flatMap measure := by
  induction args generalizing current with
  | nil => simp [coalesceAfter]
  | cons arg args ih =>
    simp only [coalesceAfter, List.flatMap_cons]
    split
    · rw [ih, hjoin, List.append_assoc]
    · rw [List.flatMap_cons, ih]

/-- Joining marks keeps what the values list, in its order. -/
theorem flatMap_coalesce {α : Type} {measure : Value → List α}
    (hjoin : ∀ left right, measure (join left right) = measure left ++ measure right)
    (args : List Value) : (coalesce args).flatMap measure = args.flatMap measure := by
  cases args with
  | nil => rfl
  | cons first rest => exact flatMap_coalesceAfter hjoin first rest

theorem leaves_join (left right : Value) :
    (join left right).leaves = left.leaves ++ right.leaves := by
  simp [join, leaves, Call.leaves]

theorem emptied_join (left right : Value) :
    (join left right).emptied = left.emptied ++ right.emptied := by
  simp [join, emptied, Call.emptied]

theorem supplied_asParameter (value : Value) :
    value.asParameter.supplied = value.supplied.asParameter := by
  cases value with
  | constant c => rfl
  | call call =>
    cases call with
    | map name entry params => rfl
    | vector name entry args =>
      simp only [asParameter, supplied, Call.supplied]
      split <;> rfl

theorem leaves_asParameter (value : Value) : value.asParameter.leaves = value.leaves := by
  cases value with
  | constant c =>
    simp only [asParameter, leaves, Constant.asParameter]
    split <;> rfl
  | call call =>
    cases call with
    | map name entry params => rfl
    | vector name entry args =>
      simp only [asParameter]
      split <;> rfl

theorem emptied_asParameter (value : Value) : value.asParameter.emptied = value.emptied := by
  cases value with
  | constant c => rfl
  | call call =>
    cases call with
    | map name entry params => rfl
    | vector name entry args =>
      simp only [asParameter]
      split <;> rfl

end Value

/-! ## Open calls -/

/-- An open parameter that has no value yet may still get one. -/
def Param.suppliedWithin : Param → Param
  | .pending key => .pending key
  | .bound key value => .bound key value.supplied

namespace Call

/-- The call while it is open: only what it holds has got its empty texts. -/
def suppliedWithin : Call → Call
  | .vector name entry args => .vector name entry (args.map Value.supplied)
  | .map name entry params => .map name entry (params.map Param.suppliedWithin)

/-- What was reported as empty while the call is open. -/
def emptiedWithin : Call → List (String × String)
  | .vector _ _ args => args.flatMap Value.emptied
  | .map _ _ params => params.flatMap Param.emptied

/-- The call when it is closed, its empty parameters still pending. -/
def joined : Call → Call
  | .vector name entry args => .vector name entry (Value.coalesce args)
  | .map name entry params => .map name entry params

/-- The parameters that are reported as empty when the call is closed. -/
def ownEmptied : Call → List (String × String)
  | .vector _ _ _ => []
  | .map name _ params => (pendingKeys params).map fun key => (name, key)

theorem ofName_cases (name : String) :
    ofName name = .vector name (lookup? name) [] ∨ ofName name = .map name (lookup? name) [] := by
  unfold ofName start
  split
  · exact .inr rfl
  · exact .inl rfl

theorem closed_suppliedWithin (call : Call) : call.suppliedWithin.closed = call.joined.supplied := by
  cases call with
  | vector name entry args =>
    simp [suppliedWithin, closed, joined, supplied, Value.map_supplied_coalesce]
  | map name entry params =>
    have hfilled (param : Param) : param.suppliedWithin.filled = param.supplied := by
      cases param <;> rfl
    simp [suppliedWithin, closed, joined, supplied, fillEmpty, hfilled]

theorem leaves_joined (call : Call) : call.joined.leaves = call.leaves := by
  cases call with
  | vector name entry args =>
    simp [joined, leaves, Value.flatMap_coalesce Value.leaves_join]
  | map name entry params => rfl

theorem emptied_joined (call : Call) : call.joined.emptied = call.emptiedWithin ++ call.ownEmptied := by
  cases call with
  | vector name entry args =>
    simp [joined, emptied, emptiedWithin, ownEmptied, Value.flatMap_coalesce Value.emptied_join]
  | map name entry params => simp [joined, emptied, emptiedWithin, ownEmptied]

/-- A value that an open call takes becomes part of its sparse tree. -/
theorem append_suppliedWithin {call next : Call} (value : Value)
    (happend : call.suppliedWithin.append value.supplied = .ok next) :
    ∃ sparse : Call, next = sparse.suppliedWithin ∧ sparse.leaves = call.leaves ++ value.leaves ∧
      sparse.emptiedWithin = call.emptiedWithin ++ value.emptied := by
  cases call with
  | vector name entry args =>
    cases happend
    refine ⟨.vector name entry (args ++ [value]), ?_, ?_, ?_⟩ <;>
      simp [suppliedWithin, leaves, emptiedWithin]
  | map name entry params =>
    rcases append_cases happend with ⟨_, _, _, hcall, _⟩ | ⟨_, _, before, key, hcall, rfl⟩
    · cases hcall
    · simp only [suppliedWithin, Call.map.injEq] at hcall
      obtain ⟨rfl, rfl, hparams⟩ := hcall
      obtain ⟨before, last, rfl, rfl, hlast⟩ := List.map_eq_append_iff.1 hparams
      obtain ⟨param, rfl, hparam⟩ := List.map_eq_singleton_iff.1 hlast
      obtain rfl : param = .pending key := by
        cases param with
        | pending name => cases hparam; rfl
        | bound name value => cases hparam
      refine ⟨.map name entry (before ++ [Param.bound key value.asParameter]), ?_, ?_, ?_⟩
      · simp [suppliedWithin, Param.suppliedWithin, Value.supplied_asParameter]
      · simp [leaves, Param.leaves, Value.leaves_asParameter]
      · simp [emptiedWithin, Param.emptied, Value.emptied_asParameter]

end Call
end Docpress.Document

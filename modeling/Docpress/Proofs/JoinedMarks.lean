import Docpress.Proofs.WellFormedTrees
import Mathlib.Data.List.Induction

/-!
# Marks joined with the words before them

When a vector call is closed, its arguments fall into groups: the first argument and every one that
is no mark start a group, and the marks behind it belong to it.  A group becomes one argument, in
which the marks are joined to its head one after the other.

`Splits` says what the groups of an argument list are.  There is exactly one such list of groups
(`exists_splits`, `Splits.unique`), and joining the marks of each of them is what `coalesce` does
(`coalesce_eq`).  `Value.spine` takes the joins of a group apart again.
-/

namespace Docpress.Document

/-! ## Groups -/

/-- An argument and the marks that follow it. -/
structure Group where
  head : Value
  marks : List Value

namespace Group

/-- The arguments of the group. -/
def members (group : Group) : List Value := group.head :: group.marks

/-- The marks joined to the head, the first of them innermost. -/
def joined (group : Group) : Value := group.marks.foldl Value.join group.head

end Group

/-- The groups make up the arguments.  A group starts at the first argument and at every one that is
no mark, and nowhere else. -/
structure Splits (groups : List Group) (args : List Value) : Prop where
  members : groups.flatMap Group.members = args
  marks : ∀ group ∈ groups, ∀ mark ∈ group.marks, mark.IsMark
  heads : ∀ group ∈ groups.tail, ¬ group.head.IsMark

/-- Takes apart as many joins as are given, from the outermost inwards. -/
def Value.spine : Nat → Value → List Value
  | joins + 1, .call (.vector name entry [left, right]) =>
    if name = cat then left.spine joins ++ [right] else [.call (.vector name entry [left, right])]
  | _, value => [value]

/-! ## The groups of an argument list -/

namespace Splits

variable {groups others : List Group} {args : List Value} {group : Group}

/-- The groups behind the first one split the arguments that are left. -/
theorem rest (hsplits : Splits (group :: groups) args) :
    Splits groups (groups.flatMap Group.members) where
  members := rfl
  marks other hmem := hsplits.marks other (List.mem_cons_of_mem _ hmem)
  heads other hmem := hsplits.heads other (List.mem_of_mem_tail hmem)

/-- Behind the first argument, the first group takes all marks up to one that is none. -/
theorem first_eq (hsplits : Splits (group :: groups) args) :
    ∃ behind, args = group.head :: behind ∧
      group.marks = behind.takeWhile Value.isPunctuation ∧
      groups.flatMap Group.members = behind.dropWhile Value.isPunctuation := by
  have hmarks : ∀ mark ∈ group.marks, mark.isPunctuation = true := fun mark hmem =>
    mark.isPunctuation_iff.2 (hsplits.marks group List.mem_cons_self mark hmem)
  have hstops : (groups.flatMap Group.members).takeWhile Value.isPunctuation = [] ∧
      (groups.flatMap Group.members).dropWhile Value.isPunctuation =
        groups.flatMap Group.members := by
    cases groups with
    | nil => exact ⟨rfl, rfl⟩
    | cons next groups =>
      have hhead : next.head.isPunctuation = false :=
        next.head.isPunctuation_eq_false_iff.2 (hsplits.heads next List.mem_cons_self)
      simp [Group.members, hhead]
  refine ⟨group.marks ++ groups.flatMap Group.members, hsplits.members.symm, ?_, ?_⟩
  · rw [List.takeWhile_append_of_pos hmarks, hstops.1, List.append_nil]
  · rw [List.dropWhile_append_of_pos hmarks, hstops.2]

/-- There is one way to split arguments into groups. -/
theorem unique (hsplits : Splits groups args) (hothers : Splits others args) : groups = others := by
  induction groups generalizing args others with
  | nil =>
    cases others with
    | nil => rfl
    | cons other others =>
      have hmembers := hothers.members.trans hsplits.members.symm
      cases hmembers
  | cons group groups ih =>
    cases others with
    | nil =>
      have hmembers := hsplits.members.trans hothers.members.symm
      cases hmembers
    | cons other others =>
      obtain ⟨behind, hargs, hmarks, hrest⟩ := hsplits.first_eq
      obtain ⟨behind', hargs', hmarks', hrest'⟩ := hothers.first_eq
      obtain ⟨hhead, rfl⟩ := List.cons.inj (hargs.symm.trans hargs')
      have hgroup : group = other := by
        obtain ⟨head, marks⟩ := group
        obtain ⟨head', marks'⟩ := other
        exact congrArg₂ Group.mk hhead (hmarks.trans hmarks'.symm)
      have hgroups := ih hsplits.rest (hrest.trans hrest'.symm ▸ hothers.rest)
      rw [hgroup, hgroups]

end Splits

/-- Every argument list falls into groups. -/
theorem exists_splits (args : List Value) : ∃ groups, Splits groups args := by
  induction args with
  | nil => exact ⟨[], rfl, by simp, by simp⟩
  | cons arg args ih =>
    obtain ⟨groups, hsplits⟩ := ih
    cases groups with
    | nil =>
      refine ⟨[⟨arg, []⟩], ?_, by simp, by simp⟩
      rw [← hsplits.members]
      rfl
    | cons group groups =>
      by_cases hmark : group.head.IsMark
      · -- the group that begins with a mark belongs to the argument in front of it
        refine ⟨⟨arg, group.members⟩ :: groups, ?_, ?_, hsplits.heads⟩
        · rw [← hsplits.members]
          rfl
        · rw [List.forall_mem_cons]
          refine ⟨List.forall_mem_cons.2 ⟨hmark, hsplits.marks group List.mem_cons_self⟩, ?_⟩
          exact fun other hmem => hsplits.marks other (List.mem_cons_of_mem _ hmem)
      · refine ⟨⟨arg, []⟩ :: group :: groups, ?_, ?_, ?_⟩
        · rw [← hsplits.members]
          rfl
        · exact List.forall_mem_cons.2 ⟨by simp, hsplits.marks⟩
        · exact List.forall_mem_cons.2 ⟨hmark, hsplits.heads⟩

/-! ## Joining -/

namespace Value

/-- Marks are joined to what stands before them, one after the other. -/
theorem coalesceAfter_marks {marks : List Value} (hmarks : ∀ mark ∈ marks, mark.IsMark)
    (current : Value) (args : List Value) :
    coalesceAfter current (marks ++ args) = coalesceAfter (marks.foldl join current) args := by
  induction marks generalizing current with
  | nil => rfl
  | cons mark marks ih =>
    rw [List.forall_mem_cons] at hmarks
    rw [List.cons_append, coalesceAfter, if_pos (mark.isPunctuation_iff.2 hmarks.1), ih hmarks.2,
      List.foldl_cons]

theorem coalesceAfter_groups {groups : List Group}
    (hmarks : ∀ group ∈ groups, ∀ mark ∈ group.marks, mark.IsMark)
    (hheads : ∀ group ∈ groups, ¬ group.head.IsMark) (current : Value) :
    coalesceAfter current (groups.flatMap Group.members) = current :: groups.map Group.joined := by
  induction groups generalizing current with
  | nil => rfl
  | cons group groups ih =>
    rw [List.forall_mem_cons] at hmarks hheads
    have hhead : ¬ group.head.isPunctuation = true := mt group.head.isPunctuation_iff.1 hheads.1
    rw [List.flatMap_cons, Group.members, List.cons_append, coalesceAfter, if_neg hhead,
      coalesceAfter_marks hmarks.1, ih hmarks.2 hheads.2]
    rfl

/-- Each group becomes one argument. -/
theorem coalesce_eq {groups : List Group} {args : List Value} (hsplits : Splits groups args) :
    coalesce args = groups.map Group.joined := by
  cases groups with
  | nil =>
    rw [← hsplits.members]
    rfl
  | cons group groups =>
    have hrest := List.forall_mem_cons.1 hsplits.marks
    rw [← hsplits.members, List.flatMap_cons, Group.members, List.cons_append, coalesce,
      coalesceAfter_marks hrest.1, coalesceAfter_groups hrest.2 hsplits.heads]
    rfl

/-- Arguments without marks behind the first one stay as they are. -/
theorem coalesce_of_noMarks {args : List Value} (hargs : ∀ arg ∈ args.tail, ¬ arg.IsMark) :
    coalesce args = args := by
  have hsplits : Splits (args.map (⟨·, []⟩)) args := by
    refine ⟨?_, ?_, ?_⟩
    · simp [List.flatMap_map, Group.members]
    · simp
    · simpa [← List.map_tail] using hargs
  rw [coalesce_eq hsplits, List.map_map]
  exact List.map_id args

/-! ## Taking apart -/

theorem spine_join (joins : Nat) (left right : Value) :
    (left.join right).spine (joins + 1) = left.spine joins ++ [right] := by
  rw [join, spine, if_pos rfl]

theorem spine_foldl_join (head : Value) (marks : List Value) :
    (marks.foldl join head).spine marks.length = head :: marks := by
  induction marks using List.reverseRecOn with
  | nil => simp [spine]
  | append_singleton marks mark ih =>
    rw [List.foldl_append, List.length_append, List.foldl_cons, List.foldl_nil,
      List.length_singleton, spine_join, ih]
    rfl

end Value

/-- The joins that a group got are its members. -/
theorem Group.spine_joined (group : Group) :
    group.joined.spine group.marks.length = group.members :=
  Value.spine_foldl_join group.head group.marks

/-- The arguments of a vector call fall into groups in one way, and each group becomes one argument.
Taking these apart gives the arguments back.  No mark is left behind the first argument, so that
doing it again changes nothing. -/
theorem coalesce_joins_groups (args : List Value) :
    ∃ groups, Splits groups args ∧ (∀ others, Splits others args → others = groups) ∧
      Value.coalesce args = groups.map Group.joined ∧
      (List.zipWith Value.spine (groups.map (·.marks.length)) (Value.coalesce args)).flatten =
        args ∧
      (∀ arg ∈ (Value.coalesce args).tail, ¬ arg.IsMark) ∧
      Value.coalesce (Value.coalesce args) = Value.coalesce args := by
  obtain ⟨groups, hsplits⟩ := exists_splits args
  have hjoined := Value.coalesce_eq hsplits
  refine ⟨groups, hsplits, fun others hothers => hothers.unique hsplits, hjoined, ?_,
    Value.noMarks_coalesce args, Value.coalesce_of_noMarks (Value.noMarks_coalesce args)⟩
  rw [hjoined, List.zipWith_map, List.zipWith_self]
  simp only [Group.spine_joined]
  exact hsplits.members

/-- A mark at the front, a word with two marks behind it, and a colon. -/
def sampleGroups : List Group :=
  [⟨.constant (.string "."), []⟩,
    ⟨.constant (.string "a"), [.constant (.string "?"), .constant (.string "!")]⟩,
    ⟨.constant (.string ":"), []⟩]

/-- The mark at the front starts a group, the two marks nest, and a colon is no mark. -/
theorem coalesce_joins_groups_sample :
    Splits sampleGroups (sampleGroups.flatMap Group.members) ∧
    Value.coalesce (sampleGroups.flatMap Group.members) =
      [.constant (.string "."), ((Value.constant (.string "a")).join (.constant (.string "?"))).join
        (.constant (.string "!")), .constant (.string ":")] ∧
    ¬ (Value.constant (.string ":")).IsMark := by
  have hsplits : Splits sampleGroups (sampleGroups.flatMap Group.members) := by
    refine ⟨rfl, ?_, ?_⟩
    · simp [sampleGroups, Value.IsMark, Constant.string]
    · simp [sampleGroups, Value.IsMark, Constant.string]
  obtain ⟨groups, -, hunique, hjoined, -, hnone, -⟩ :=
    coalesce_joins_groups (sampleGroups.flatMap Group.members)
  rw [← hunique sampleGroups hsplits] at hjoined
  refine ⟨hsplits, hjoined, hnone _ ?_⟩
  rw [hjoined]
  exact List.mem_cons_of_mem _ List.mem_cons_self

end Docpress.Document

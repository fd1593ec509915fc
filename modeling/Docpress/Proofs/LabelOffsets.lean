import Docpress.Assembly.Program
import Docpress.Proofs.LineNumbering
import Mathlib.Data.List.Induction

/-!
# Offsets of labels and jumps

Two passes lay out a program: the first adds up sizes and notes where the labels stand, the
second writes objects.  They agree only if every statement occupies as many objects as its size
says.  This holds of the statements that the parser declares (`Statement.length_objects`), so the
offset of a statement is the number of objects before it, and a label stands where an instruction
begins or the stream ends.

* `IsFirst` says which declaration of a label counts, and `collectLabels_correct` that the first
  pass finds it.  The induction is over the declarations still to come; what was collected so far
  is correct for those already seen.
* `repeatedLabels` and `danglingJumps` list the diagnostics of the two passes without reference
  to the collected labels.
* `Program.LaidOut` puts the facts about an assembled program together.
-/

namespace Docpress.Assembly

/-! ## Sizes -/

/-- A declared statement occupies as many objects as its size says. -/
theorem Statement.length_objects {statement : Statement} (hdeclared : statement.IsDeclared)
    (labels : Labels) : (statement.objects labels).length = statement.size := by
  -- the size goes by the class of the opcode, the objects by the form of the statement
  have hsize {op : Opcode} {kind : OperandKind} (hkind : op.operand = kind) :
      op.size = if kind = .bare then 1 else 2 := by
    rw [Opcode.size, hkind]
  cases statement with
  | label name => rfl
  | literal text => rfl
  | value object => rfl
  | operation op => exact (hsize hdeclared).symm
  | push operand => rfl
  | invoke op name id => exact (hsize hdeclared).symm
  | forward operand => rfl
  | jump op target => exact (hsize hdeclared).symm

/-- The objects of the declarations, one after the other. -/
def emitted (labels : Labels) (decls : List (Decl Statement)) : List Object :=
  decls.flatMap (·.node.objects labels)

@[simp] theorem emitted_nil (labels : Labels) : emitted labels [] = [] := rfl

@[simp] theorem emitted_cons (labels : Labels) (decl : Decl Statement)
    (decls : List (Decl Statement)) :
    emitted labels (decl :: decls) = decl.node.objects labels ++ emitted labels decls := by
  simp [emitted]

@[simp] theorem emitted_append (labels : Labels) (first second : List (Decl Statement)) :
    emitted labels (first ++ second) = emitted labels first ++ emitted labels second := by
  simp [emitted]

/-- The sum of the sizes of the declarations. -/
def totalSize : List (Decl Statement) → Nat
  | [] => 0
  | decl :: rest => decl.node.size + totalSize rest

theorem totalSize_concat (decls : List (Decl Statement)) (decl : Decl Statement) :
    totalSize (decls ++ [decl]) = totalSize decls + decl.node.size := by
  induction decls with
  | nil => simp [totalSize]
  | cons first decls ih => rw [List.cons_append, totalSize, totalSize, ih, Nat.add_assoc]

theorem length_emitted {decls : List (Decl Statement)}
    (hdeclared : ∀ decl ∈ decls, decl.node.IsDeclared) (labels : Labels) :
    (emitted labels decls).length = totalSize decls := by
  induction decls with
  | nil => rfl
  | cons decl decls ih =>
    rw [List.forall_mem_cons] at hdeclared
    rw [emitted_cons, List.length_append, Statement.length_objects hdeclared.1, ih hdeclared.2]
    rfl

/-- The offset of a statement is the sum of the sizes before it. -/
theorem getElem?_offsetsFrom (offset : Nat) (before : List (Decl Statement))
    (decl : Decl Statement) (after : List (Decl Statement)) :
    (offsetsFrom offset (before ++ decl :: after))[before.length]? =
      some (offset + totalSize before) := by
  induction before generalizing offset with
  | nil => rfl
  | cons first before ih =>
    rw [List.cons_append, offsetsFrom, List.length_cons, List.getElem?_cons_succ, ih, totalSize,
      Nat.add_assoc]

/-! ## Instruction boundaries -/

/-- An instruction begins at the offset, or the stream ends there. -/
def IsBoundary (objects : List Object) (offset : Nat) : Prop :=
  offset = objects.length ∨ ∃ op, objects[offset]? = some (.op op)

/-- What the parser declares begins with an instruction, as far as it has objects at all. -/
theorem isBoundary_emitted {decls : List (Decl Statement)}
    (hdeclared : ∀ decl ∈ decls, decl.node.IsDeclared) (labels : Labels) :
    IsBoundary (emitted labels decls) 0 := by
  induction decls with
  | nil => exact .inl rfl
  | cons decl decls ih =>
    rw [List.forall_mem_cons] at hdeclared
    obtain ⟨node, position⟩ := decl
    rw [emitted_cons]
    cases node with
    | label name => exact ih hdeclared.2
    | literal text => exact hdeclared.1.elim
    | value object => exact hdeclared.1.elim
    | operation op => exact .inr ⟨op, rfl⟩
    | push operand => exact .inr ⟨.push, rfl⟩
    | invoke op name id => exact .inr ⟨op, rfl⟩
    | forward operand => exact .inr ⟨.forward, rfl⟩
    | jump op target => exact .inr ⟨op, rfl⟩

/-- Where some objects end, the boundary is that of the objects behind them. -/
theorem IsBoundary.behind {objects : List Object} (hboundary : IsBoundary objects 0)
    (before : List Object) : IsBoundary (before ++ objects) before.length := by
  rcases hboundary with hnil | ⟨op, hop⟩
  · left
    rw [List.length_append]
    omega
  · right
    refine ⟨op, ?_⟩
    rw [List.getElem?_append_right (Nat.le_refl _), Nat.sub_self]
    exact hop

/-! ## Definitions of labels -/

/-- One of the declarations defines the label. -/
def Defines (decls : List (Decl Statement)) (name : String) : Prop :=
  ∃ decl ∈ decls, decl.node = .label name

instance (decls : List (Decl Statement)) (name : String) : Decidable (Defines decls name) :=
  inferInstanceAs (Decidable (∃ decl ∈ decls, decl.node = .label name))

/-- The first definition of the label stands behind the declarations `before`. -/
def IsFirst (decls : List (Decl Statement)) (name : String) (before : List (Decl Statement)) :
    Prop :=
  (∃ position, before ++ [⟨.label name, position⟩] <+: decls) ∧ ¬ Defines before name

/-- The diagnostics for labels among `rest` that are defined by then, behind `seen`. -/
def repeatedLabels (seen : List (Decl Statement)) : List (Decl Statement) → List Diagnostic
  | [] => []
  | decl :: rest =>
    match decl.node with
    | .label name =>
      (if Defines seen name then [⟨decl.position, .duplicateLabel name⟩] else []) ++
        repeatedLabels (seen ++ [decl]) rest
    | _ => repeatedLabels (seen ++ [decl]) rest

/-- The diagnostics for jumps to labels that none of the declarations defines. -/
def danglingJumps (decls : List (Decl Statement)) : List Diagnostic :=
  decls.flatMap fun decl =>
    match decl.node with
    | .jump _ target =>
      if Defines decls target then [] else [⟨decl.position, .unresolvedLabel target⟩]
    | _ => []

theorem defines_iff_exists_isFirst {decls : List (Decl Statement)} {name : String} :
    Defines decls name ↔ ∃ before, IsFirst decls name before := by
  constructor
  · intro hdefines
    induction decls using List.reverseRecOn with
    | nil => simp [Defines] at hdefines
    | append_singleton decls last ih =>
      by_cases hearlier : Defines decls name
      · obtain ⟨before, ⟨position, hbefore⟩, hnot⟩ := ih hearlier
        exact ⟨before, ⟨position, hbefore.trans (List.prefix_append _ _)⟩, hnot⟩
      · obtain ⟨decl, hmem, hnode⟩ := hdefines
        rcases List.mem_append.1 hmem with hmem | hmem
        · exact absurd ⟨decl, hmem, hnode⟩ hearlier
        · obtain ⟨node, position⟩ := decl
          obtain rfl := List.mem_singleton.1 hmem
          obtain rfl : node = .label name := hnode
          exact ⟨decls, ⟨position, List.prefix_refl _⟩, hearlier⟩
  · rintro ⟨before, ⟨position, hbefore⟩, -⟩
    exact ⟨⟨.label name, position⟩, hbefore.subset (by simp), rfl⟩

/-- Another declaration behind the others is first where the label is new. -/
theorem isFirst_concat {decls before : List (Decl Statement)} {last : Decl Statement}
    {name : String} :
    IsFirst (decls ++ [last]) name before ↔
      IsFirst decls name before ∨
        (last.node = .label name ∧ ¬ Defines decls name ∧ before = decls) := by
  constructor
  · rintro ⟨⟨position, hbefore⟩, hnot⟩
    rcases List.prefix_concat_iff.1 hbefore with heq | hbefore
    · obtain ⟨rfl, hlast⟩ := List.append_inj' heq rfl
      obtain rfl := List.singleton_inj.1 hlast
      exact .inr ⟨rfl, hnot, rfl⟩
    · exact .inl ⟨⟨position, hbefore⟩, hnot⟩
  · rintro (⟨⟨position, hbefore⟩, hnot⟩ | ⟨hnode, hnot, rfl⟩)
    · exact ⟨⟨position, hbefore.trans (List.prefix_append _ _)⟩, hnot⟩
    · obtain ⟨node, position⟩ := last
      obtain rfl : node = .label name := hnode
      exact ⟨⟨position, List.prefix_refl _⟩, hnot⟩

/-! ## The first pass -/

/-- The labels are those of the declarations, each with the sum of the sizes before its first
definition. -/
structure Labels.Correct (labels : Labels) (decls : List (Decl Statement)) : Prop where
  distinct : (labels.entries.map Prod.fst).Nodup
  lookup (name : String) (offset : Nat) : labels.lookup? name = some offset ↔
    ∃ before, IsFirst decls name before ∧ offset = totalSize before

namespace Labels

theorem lookup?_insert (labels : Labels) (name other : String) (offset : Nat) :
    (labels.insert name offset).lookup? other =
      (labels.lookup? other).or (if other = name then some offset else none) := by
  rw [lookup?, insert, List.lookup_append, lookup?]
  by_cases hother : other = name
  · rw [if_pos hother, hother, List.lookup_cons_self]
  · rw [if_neg hother, List.lookup_cons, beq_false_of_ne hother, List.lookup_nil]

theorem mem_names_iff {labels : Labels} {name : String} :
    name ∈ labels.entries.map Prod.fst ↔ (labels.lookup? name).isSome = true := by
  rw [lookup?, List.lookup_isSome_iff, List.mem_map]
  constructor
  · rintro ⟨entry, hmem, rfl⟩
    exact ⟨entry, hmem, by simp⟩
  · rintro ⟨entry, hmem, hname⟩
    exact ⟨entry, hmem, (eq_of_beq hname).symm⟩

namespace Correct

variable {labels : Labels} {decls : List (Decl Statement)}

theorem empty : Correct {} [] where
  distinct := List.nodup_nil
  lookup name offset := by
    have hnone : ¬ ∃ before, IsFirst [] name before := by
      rw [← defines_iff_exists_isFirst]
      simp [Defines]
    constructor
    · intro hlookup
      cases hlookup
    · rintro ⟨before, hfirst, -⟩
      exact absurd ⟨before, hfirst⟩ hnone

theorem isSome_iff (hcorrect : labels.Correct decls) (name : String) :
    (labels.lookup? name).isSome = true ↔ Defines decls name := by
  rw [defines_iff_exists_isFirst, Option.isSome_iff_exists]
  constructor
  · rintro ⟨offset, hlookup⟩
    obtain ⟨before, hfirst, -⟩ := (hcorrect.lookup name offset).1 hlookup
    exact ⟨before, hfirst⟩
  · rintro ⟨before, hfirst⟩
    exact ⟨_, (hcorrect.lookup name _).2 ⟨before, hfirst, rfl⟩⟩

/-- A declaration that defines no new label changes nothing. -/
theorem skip (hcorrect : labels.Correct decls) (decl : Decl Statement)
    (hold : ∀ name, decl.node = .label name → Defines decls name) :
    labels.Correct (decls ++ [decl]) where
  distinct := hcorrect.distinct
  lookup name offset := by
    have hsame (before : List (Decl Statement)) :
        IsFirst (decls ++ [decl]) name before ↔ IsFirst decls name before := by
      rw [isFirst_concat]
      constructor
      · rintro (hfirst | ⟨hnode, hnot, -⟩)
        · exact hfirst
        · exact absurd (hold name hnode) hnot
      · exact .inl
    simp only [hcorrect.lookup, hsame]

/-- A new label stands behind all that was seen. -/
theorem insert {name : String} (hcorrect : labels.Correct decls) (decl : Decl Statement)
    (hnode : decl.node = .label name) (hnew : ¬ Defines decls name) :
    (labels.insert name (totalSize decls)).Correct (decls ++ [decl]) where
  distinct := by
    have hfresh : name ∉ labels.entries.map Prod.fst := by
      rw [mem_names_iff, hcorrect.isSome_iff]
      exact hnew
    rw [Labels.insert, List.map_append, List.nodup_append]
    refine ⟨hcorrect.distinct, by simp, ?_⟩
    intro old hold added hadded
    rintro rfl
    obtain rfl : old = name := by simpa using hadded
    exact hfresh hold
  lookup other offset := by
    rw [lookup?_insert]
    simp only [isFirst_concat, hnode, Statement.label.injEq]
    by_cases hother : other = name
    · subst hother
      have hnone : labels.lookup? other = none := by
        rw [← Option.not_isSome_iff_eq_none, hcorrect.isSome_iff]
        exact hnew
      have hnotFirst (before : List (Decl Statement)) : ¬ IsFirst decls other before :=
        fun hfirst => hnew (defines_iff_exists_isFirst.2 ⟨before, hfirst⟩)
      simp [hnone, hnotFirst, hnew, eq_comm]
    · simp [hother, Ne.symm hother, hcorrect.lookup]

end Correct
end Labels

/-- The first pass finds the labels of all declarations, and reports the repeated ones. -/
theorem collectLabels_correct {seen : List (Decl Statement)} {labels : Labels}
    (hcorrect : labels.Correct seen) (rest : List (Decl Statement)) :
    (collectLabels (totalSize seen) labels rest).1.Correct (seen ++ rest) ∧
      (collectLabels (totalSize seen) labels rest).2 = repeatedLabels seen rest := by
  induction rest generalizing seen labels with
  | nil =>
    rw [List.append_nil]
    exact ⟨hcorrect, rfl⟩
  | cons decl rest ih =>
    obtain ⟨node, position⟩ := decl
    have hnext : totalSize (seen ++ [⟨node, position⟩]) = totalSize seen + node.size :=
      totalSize_concat seen _
    have hsplit : seen ++ ⟨node, position⟩ :: rest = seen ++ [⟨node, position⟩] ++ rest := by simp
    rw [hsplit]
    cases node with
    | label name =>
      have hdefined := hcorrect.isSome_iff name
      simp only [collectLabels, repeatedLabels, ← hnext]
      by_cases hold : Defines seen name
      · have hskip := ih (hcorrect.skip ⟨.label name, position⟩ fun other hnode => by
          cases hnode
          exact hold)
        rw [if_pos (hdefined.2 hold), if_pos hold]
        exact ⟨hskip.1, by rw [← hskip.2]; rfl⟩
      · have hinsert := ih (hcorrect.insert ⟨.label name, position⟩ rfl hold)
        rw [if_neg (mt hdefined.1 hold), if_neg hold]
        exact hinsert
    | _ =>
      simp only [collectLabels, repeatedLabels, ← hnext]
      exact ih (hcorrect.skip _ fun _ hnode => by cases hnode)

theorem labelsOf_correct (decls : List (Decl Statement)) :
    (labelsOf decls).1.Correct decls ∧ (labelsOf decls).2 = repeatedLabels [] decls := by
  have hcorrect := collectLabels_correct Labels.Correct.empty decls
  rwa [List.nil_append] at hcorrect

/-! ## The second pass -/

/-- The second pass reports the jumps without a target. -/
theorem unresolved_eq {labels : Labels} {decls : List (Decl Statement)}
    (hcorrect : labels.Correct decls) :
    decls.flatMap (unresolved labels) = danglingJumps decls := by
  unfold danglingJumps
  congr 1
  funext ⟨node, position⟩
  cases node with
  | jump op target =>
    simp only [unresolved, hcorrect.isSome_iff]
  | _ => rfl

/-! ## Programs -/

/-- The two passes agree on where everything stands.  A declaration `decl` behind the
declarations `before` is one with `before ++ [decl] <+: program.decls`; `parsed` are the
diagnostics of the parser. -/
structure Program.LaidOut (program : Program) (parsed : List Diagnostic) : Prop where
  /-- the stream consists of the objects of the declarations -/
  objects : program.objects = emitted program.labels program.decls
  size : ∀ decl ∈ program.decls, (decl.node.objects program.labels).length = decl.node.size
  length : program.objects.length = totalSize program.decls
  /-- the offset of a declaration is the number of objects before it -/
  offset : ∀ before decl, before ++ [decl] <+: program.decls →
    (offsets program.decls)[before.length]? = some (emitted program.labels before).length
  distinct : (program.labels.entries.map Prod.fst).Nodup
  /-- a label stands for the number of objects before its first definition -/
  label : ∀ name offset, program.labels.lookup? name = some offset ↔
    ∃ before, IsFirst program.decls name before ∧ offset = (emitted program.labels before).length
  /-- a jump to a label holds the label's offset, where an instruction begins -/
  resolved : ∀ before op target position offset,
    before ++ [⟨.jump op target, position⟩] <+: program.decls →
    program.labels.lookup? target = some offset →
    emitted program.labels before ++ [.op op, .u64 (.ofNat offset)] <+: program.objects ∧
      IsBoundary program.objects offset
  /-- any other jump holds zero -/
  dangling : ∀ before op target position,
    before ++ [⟨.jump op target, position⟩] <+: program.decls →
    program.labels.lookup? target = none →
    emitted program.labels before ++ [.op op, .u64 0] <+: program.objects
  diagnostics : program.diagnostics =
    parsed ++ repeatedLabels [] program.decls ++ danglingJumps program.decls

/-- Declarations that come first have objects that come first. -/
theorem emitted_prefix {first decls : List (Decl Statement)} (hfirst : first <+: decls)
    (labels : Labels) : emitted labels first <+: emitted labels decls := by
  obtain ⟨rest, rfl⟩ := hfirst
  rw [emitted_append]
  exact List.prefix_append _ _

theorem IsFirst.isBoundary {decls before : List (Decl Statement)} {name : String}
    (hfirst : IsFirst decls name before) (hdeclared : ∀ decl ∈ decls, decl.node.IsDeclared)
    (labels : Labels) : IsBoundary (emitted labels decls) (emitted labels before).length := by
  obtain ⟨⟨position, rest, rfl⟩, -⟩ := hfirst
  rw [List.append_assoc, emitted_append]
  refine (isBoundary_emitted (fun decl hmem => hdeclared decl ?_) labels).behind _
  rw [List.append_assoc]
  exact List.mem_append_right _ hmem

theorem Program.laidOut_ofStatements {decls : List (Decl Statement)}
    (hdeclared : ∀ decl ∈ decls, decl.node.IsDeclared) (parsed : List Diagnostic) :
    (Program.ofStatements decls parsed).LaidOut parsed := by
  obtain ⟨hcorrect, hrepeated⟩ := labelsOf_correct decls
  have hlength {before : List (Decl Statement)} (hbefore : before <+: decls) (labels : Labels) :
      totalSize before = (emitted labels before).length :=
    (length_emitted (fun decl hmem => hdeclared decl (hbefore.subset hmem)) labels).symm
  have hfirst {before : List (Decl Statement)} {name : String} (h : IsFirst decls name before) :
      before <+: decls := by
    obtain ⟨⟨position, hprefix⟩, -⟩ := h
    exact (List.prefix_append _ _).trans hprefix
  have hlabel (name : String) (offset : Nat) : (labelsOf decls).1.lookup? name = some offset ↔
      ∃ before, IsFirst decls name before ∧
        offset = (emitted (labelsOf decls).1 before).length := by
    rw [hcorrect.lookup]
    constructor
    · rintro ⟨before, h, hoffset⟩
      exact ⟨before, h, hoffset.trans (hlength (hfirst h) _)⟩
    · rintro ⟨before, h, hoffset⟩
      exact ⟨before, h, hoffset.trans (hlength (hfirst h) _).symm⟩
  have hjump {before : List (Decl Statement)} {op : Opcode} {target : String}
      {position : Position} (hbefore : before ++ [⟨.jump op target, position⟩] <+: decls) :
      emitted (labelsOf decls).1 before ++
          [.op op, .u64 (.ofNat (((labelsOf decls).1.lookup? target).getD 0))] <+:
        emitted (labelsOf decls).1 decls := by
    have hobjects := emitted_prefix hbefore (labelsOf decls).1
    rwa [emitted_append] at hobjects
  refine
    { objects := rfl
      size := fun decl hmem => Statement.length_objects (hdeclared decl hmem) _
      length := length_emitted hdeclared _
      offset := ?_
      distinct := hcorrect.distinct
      label := hlabel
      resolved := ?_
      dangling := ?_
      diagnostics := ?_ }
  · rintro before decl hbefore
    rw [← hlength ((List.prefix_append _ _).trans hbefore) _]
    obtain ⟨after, hdecls⟩ := hbefore
    have hoffset := getElem?_offsetsFrom 0 before decl after
    rw [List.append_cons, hdecls, Nat.zero_add] at hoffset
    exact hoffset
  · intro before op target position offset hbefore hlookup
    have hobjects := hjump hbefore
    have hlookup' : (labelsOf decls).1.lookup? target = some offset := hlookup
    rw [hlookup'] at hobjects
    obtain ⟨place, h, rfl⟩ := (hlabel target offset).1 hlookup
    exact ⟨hobjects, h.isBoundary hdeclared _⟩
  · intro before op target position hbefore hlookup
    have hobjects := hjump hbefore
    have hlookup' : (labelsOf decls).1.lookup? target = none := hlookup
    rw [hlookup'] at hobjects
    exact hobjects
  · show parsed ++ (labelsOf decls).2 ++ decls.flatMap (unresolved (labelsOf decls).1) = _
    rw [hrepeated, unresolved_eq hcorrect]
    rfl

/-- Every text is assembled into a program whose offsets, labels and jumps are exact, and whose
diagnostics are those of the parser, of repeated labels and of jumps that lead nowhere.  Only a line
whose number does not fit keeps a text from being assembled. -/
theorem assemble_laidOut (file text : String) (retryLimit : Nat) (functions : FunctionTable) :
    (∃ program parsed, assemble file text retryLimit functions = .ok program ∧
      parse file text retryLimit functions = .ok (program.decls, parsed) ∧
      program.LaidOut parsed) ∨
    ∃ operation, assemble file text retryLimit functions = .error (.overflow operation) ∧
      (1 + text.toList.count '\n' < 2 ^ 63 → lineOverflow? text = some operation) := by
  obtain ⟨items, _, _, hlex, _⟩ := lex_eq_scans Mode.patient .start text
  obtain ⟨decls, parsed, hitems, hdeclared⟩ | ⟨operation, hitems⟩ :=
    parseItems_cases items file retryLimit functions
  · have hparse : parse file text retryLimit functions = .ok (decls, parsed) := by
      rw [parse, lex, hlex, ok_bind, hitems]
    refine .inl ⟨.ofStatements decls parsed, parsed, ?_, hparse,
      Program.laidOut_ofStatements hdeclared _⟩
    rw [assemble, hparse, ok_bind]
    rfl
  · have hassemble : assemble file text retryLimit functions = .error (.overflow operation) := by
      rw [assemble, parse, lex, hlex, ok_bind, hitems]
      rfl
    exact .inr ⟨operation, hassemble, fun hlines => lineOverflow?_of_assemble hlines hassemble⟩

end Docpress.Assembly

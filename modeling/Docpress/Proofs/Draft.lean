import Docpress.Draft

/-!
# Drafts in use

What the operations of a draft do when the constructs they need are open.  Both parsers call
them only then.

A parser adds to its declarations and its diagnostics and takes nothing back.  `Grows` compares the
two at different times.
-/

namespace Docpress

theorem ok_bind {ε α β : Type} (a : α) (next : α → Except ε β) :
    (Except.ok a >>= next) = next a := rfl

/-- A computation in two parts succeeds if both of them do. -/
theorem exists_of_bind_ok {ε α β : Type} {first : Except ε α} {next : α → Except ε β} {b : β}
    (hbind : (first >>= next) = .ok b) : ∃ a, first = .ok a ∧ next a = .ok b := by
  cases first with
  | error fault => cases hbind
  | ok a => exact ⟨a, rfl, hbind⟩

end Docpress

namespace Docpress.Draft

variable {α : Type} {draft : Draft α} {node parent : α} {position place : Position}
  {below : List (α × Position)}

theorem top_of_stack (hstack : draft.stack = (node, position) :: below) :
    draft.top = .ok node := by
  rw [top, hstack]

theorem setTop_of_stack (hstack : draft.stack = (node, position) :: below) (next : α) :
    draft.setTop next = { draft with stack := (next, position) :: below } := by
  rw [setTop, hstack]

/-- Closing the only open construct declares it. -/
theorem merged_of_single [Construct α] (hstack : draft.stack = [(node, position)]) :
    draft.merged = .ok { decls := draft.decls.push ⟨node, position⟩, stack := [] } := by
  rw [merged, merge, hstack]

/-- Closing a construct attaches it to the one it was opened in. -/
theorem merged_of_attach [Construct α] {next : α}
    (hstack : draft.stack = (node, position) :: (parent, place) :: below)
    (hattach : Construct.attach parent node = .ok next) :
    draft.merged = .ok { draft with stack := (next, place) :: below } := by
  rw [merged, merge, hstack]
  simp only [hattach]

@[simp] theorem setTop_decls (draft : Draft α) (next : α) :
    (draft.setTop next).decls = draft.decls := by
  unfold setTop
  split <;> rfl

/-- Closing a construct keeps the declarations. -/
theorem decls_prefix_of_merged [Construct α] {next : Draft α} (hmerged : draft.merged = .ok next) :
    draft.decls.toList <+: next.decls.toList := by
  unfold merged merge at hmerged
  split at hmerged
  · cases hmerged
  · rename_i hmerge
    split at hmerge
    · cases hmerge
    · cases hmerge
      cases hmerged
      exact Array.toList_push ▸ List.prefix_append _ _
    · split at hmerge <;> cases hmerge
      cases hmerged
      exact List.prefix_rfl

end Docpress.Draft

namespace Docpress

/-- Whether the cause is a mistake in the text.  Others are limits of the compiler and files that
are missing. -/
def Cause.isMistake : Cause → Bool
  | .retryLimit _ | .includeFailed _ | .includeDepth _ => false
  | _ => true

/-- Whether the cause is that a parser has given up on its input. -/
def Cause.isRetryLimit : Cause → Bool
  | .retryLimit _ => true
  | _ => false

theorem Cause.isRetryLimit_of_isMistake {cause : Cause} (hmistake : cause.isMistake = true) :
    cause.isRetryLimit = false := by
  cases cause <;> first | rfl | cases hmistake

variable {α : Type}

/-- Declarations and diagnostics were added, and the diagnostics are about mistakes in the text. -/
structure Grows (before after : List (Decl α) × List Diagnostic) : Prop where
  decls : before.1 <+: after.1
  diagnostics : ∃ added, after.2 = before.2 ++ added ∧
    ∀ diagnostic ∈ added, diagnostic.cause.isMistake = true

namespace Grows

variable {before between after : List (Decl α) × List Diagnostic}

theorem refl (outcome : List (Decl α) × List Diagnostic) : Grows outcome outcome :=
  ⟨List.prefix_rfl, [], (List.append_nil _).symm, by simp⟩

theorem trans (hfirst : Grows before between) (hsecond : Grows between after) :
    Grows before after := by
  obtain ⟨added, hadded, hmistakes⟩ := hfirst.diagnostics
  obtain ⟨more, hmore, hothers⟩ := hsecond.diagnostics
  refine ⟨hfirst.decls.trans hsecond.decls, added ++ more, ?_, ?_⟩
  · rw [hmore, hadded, List.append_assoc]
  · exact List.forall_mem_append.2 ⟨hmistakes, hothers⟩

/-- A mistake is reported. -/
theorem report {decls : List (Decl α)} {diagnostics : List Diagnostic} {diagnostic : Diagnostic}
    (hmistake : diagnostic.cause.isMistake = true) :
    Grows (decls, diagnostics) (decls, diagnostics ++ [diagnostic]) :=
  ⟨List.prefix_rfl, [diagnostic], rfl, by simpa using hmistake⟩

end Grows
end Docpress

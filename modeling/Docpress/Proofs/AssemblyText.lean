import Docpress.Assembly.Program
import Docpress.Proofs.AssemblyLines
import Docpress.Proofs.AssemblyStrings
import Docpress.Proofs.Patience

/-!
# Assembling texts line by line

A line `Means` objects if the parser reads it as statements that are laid out as these objects
wherever they stand, that is, without labels and jumps.  Lines that mean objects can be put
together: a text of such lines below a comment is assembled into the objects of its lines, one
after the other (`assemble_of_means`).
-/

namespace Docpress.Assembly

open Mode

/-! ## Layout -/

/-- The statement neither defines a label nor refers to one. -/
def Statement.IsPlain : Statement → Prop
  | .label _ => False
  | .jump _ _ => False
  | _ => True

theorem collectLabels_of_isPlain {decls : List (Decl Statement)}
    (hplain : ∀ decl ∈ decls, decl.node.IsPlain) (offset : Nat) (labels : Labels) :
    collectLabels offset labels decls = (labels, []) := by
  induction decls generalizing offset with
  | nil => rfl
  | cons decl decls ih =>
    obtain ⟨node, position⟩ := decl
    have hnode := hplain ⟨node, position⟩ (by simp)
    have hrest := ih fun decl hmem => hplain decl (List.mem_cons_of_mem _ hmem)
    cases node with
    | label name => exact absurd hnode id
    | _ => exact hrest _

theorem unresolved_of_isPlain {decl : Decl Statement} (hplain : decl.node.IsPlain)
    (labels : Labels) : unresolved labels decl = [] := by
  obtain ⟨node, position⟩ := decl
  cases node with
  | jump op target => exact absurd hplain id
  | _ => rfl

/-- Plain statements are laid out one after the other, without labels and without mistakes. -/
theorem Program.ofStatements_of_isPlain {decls : List (Decl Statement)}
    (hplain : ∀ decl ∈ decls, decl.node.IsPlain) :
    (Program.ofStatements decls []).labels = {} ∧
      (Program.ofStatements decls []).diagnostics = [] ∧
      (Program.ofStatements decls []).objects =
        (decls.map Decl.node).flatMap (·.objects {}) := by
  have hlabels : labelsOf decls = ({}, []) := collectLabels_of_isPlain hplain 0 {}
  have hresolved : decls.flatMap (unresolved {}) = [] :=
    List.flatMap_eq_nil_iff.2 fun decl hmem => unresolved_of_isPlain (hplain decl hmem) {}
  rw [Program.ofStatements, hlabels]
  exact ⟨rfl, hresolved, (List.flatMap_map ..).symm⟩

/-! ## Lines -/

/-- The lines with a line break behind each. -/
def unlines (lines : List (List Char)) : List Char :=
  lines.flatMap (· ++ ['\n'])

theorem unlines_cons (line : List Char) (lines : List (List Char)) :
    unlines (line :: lines) = line ++ '\n' :: unlines lines := by
  simp [unlines]

theorem unlines_append (first second : List (List Char)) :
    unlines (first ++ second) = unlines first ++ unlines second :=
  List.flatMap_append

theorem exists_unlines_cons (line : List Char) (lines : List (List Char)) :
    ∃ front, unlines (line :: lines) = front ++ ['\n'] := by
  induction lines generalizing line with
  | nil => exact ⟨line, by simp [unlines]⟩
  | cons next lines ih =>
    obtain ⟨front, hfront⟩ := ih next
    refine ⟨line ++ '\n' :: front, ?_⟩
    rw [unlines_cons, hfront]
    simp

theorem StandsFor.head?_append {line : List Char} {symbols : List Symbol}
    (hstands : StandsFor line symbols) (text : List Char) :
    (line ++ text).head? ≠ some '\n' := by
  obtain ⟨first, rest, rfl, -⟩ := hstands.head
  have hbreak := hstands.noBreak
  rw [List.cons_append, List.head?_cons, ne_eq, Option.some.injEq]
  rintro rfl
  exact hbreak List.mem_cons_self

/-- No line begins with a line break, so that those between the lines are runs of their own. -/
theorem head?_unlines {lines : List (List Char)}
    (hlines : ∀ line ∈ lines, ∃ symbols, StandsFor line symbols) :
    (unlines lines).head? ≠ some '\n' := by
  cases lines with
  | nil => exact nofun
  | cons line lines =>
    obtain ⟨symbols, hstands⟩ := hlines line List.mem_cons_self
    rw [unlines_cons]
    exact hstands.head?_append _

theorem dropReturns_unlines {lines : List (List Char)}
    (hlines : ∀ line ∈ lines, ∃ symbols, StandsFor line symbols) :
    dropReturns (unlines lines) = unlines lines := by
  induction lines with
  | nil => rfl
  | cons line lines ih =>
    rw [List.forall_mem_cons] at hlines
    obtain ⟨⟨symbols, hstands⟩, hlines⟩ := hlines
    rw [unlines_cons, dropReturns_line hstands.noBreak hstands.last, ih hlines]

/-- The parser reads the line as plain statements with the objects. -/
def LineMeans (functions : FunctionTable) (limit : Nat) (line : List Char)
    (objects : List Object) : Prop :=
  ∃ symbols statements, StandsFor line symbols ∧
    Parser.Declares functions limit symbols statements ∧
    (∀ statement ∈ statements, statement.IsPlain) ∧ statements.flatMap (·.objects {}) = objects

/-- Line by line the parser reads the lines as plain statements with the objects. -/
inductive Means (functions : FunctionTable) (limit : Nat) :
    List (List Char) → List Object → Prop where
  | nil : Means functions limit [] []
  | cons {line : List Char} {lines : List (List Char)} {objects more : List Object}
      (hline : LineMeans functions limit line objects) (hlines : Means functions limit lines more) :
      Means functions limit (line :: lines) (objects ++ more)

variable {functions : FunctionTable} {limit : Nat}

namespace Means

theorem single {line : List Char} {objects : List Object}
    (hline : LineMeans functions limit line objects) : Means functions limit [line] objects := by
  rw [← List.append_nil objects]
  exact .cons hline .nil

theorem append {first second : List (List Char)} {objects more : List Object}
    (hfirst : Means functions limit first objects) (hsecond : Means functions limit second more) :
    Means functions limit (first ++ second) (objects ++ more) := by
  induction hfirst with
  | nil => exact hsecond
  | cons hline _ ih =>
    rw [List.append_assoc]
    exact .cons hline ih

theorem standsFor {lines : List (List Char)} {objects : List Object}
    (hmeans : Means functions limit lines objects) :
    ∀ line ∈ lines, ∃ symbols, StandsFor line symbols := by
  induction hmeans with
  | nil => simp
  | cons hline _ ih =>
    obtain ⟨symbols, statements, hstands, -⟩ := hline
    exact List.forall_mem_cons.2 ⟨⟨symbols, hstands⟩, ih⟩

end Means

/-- A line is scanned for itself where another one follows. -/
theorem StandsFor.scans_append {line text : List Char} {symbols : List Symbol} {last : Mode}
    {items : List Item} (hstands : StandsFor line symbols) (htext : text.head? ≠ some '\n')
    (hscans : Scans step .start (Token.runs text) last items) :
    Scans step .start (Token.runs (line ++ '\n' :: text)) last
      ((symbols ++ [Symbol.newline]).map .symbol ++ items) := by
  have hbreak : line.getLast? ≠ some '\n' := fun h =>
    hstands.noBreak (List.mem_of_getLast? h)
  have hruns : Token.runs (line ++ '\n' :: text) =
      Token.runs line ++ [Token.run '\n' 1] ++ Token.runs text := by
    rw [Token.runs_append hbreak, List.append_assoc]
    congr 1
    cases text with
    | nil => rfl
    | cons d text =>
      have hd : ['\n'].getLast? ≠ some d := by
        rintro heq
        cases heq
        exact htext rfl
      exact Token.runs_append hd
  rw [hruns, List.map_append]
  exact hstands.readsAs.append hscans

/-! ## Texts -/

/-- What the scanner and the parser make of lines with a meaning. -/
theorem Means.exists_symbols {lines : List (List Char)} {objects : List Object}
    (hmeans : Means functions limit lines objects) :
    ∃ symbols statements,
      Scans step .start (Token.runs (unlines lines)) .start (symbols.map .symbol) ∧
      (∀ symbol ∈ symbols, symbol.kind ≠ .lineMark) ∧
      (∀ nodes, Parser.FeedsAll functions limit symbols (Parser.atLine nodes)
        (Parser.atLine (nodes ++ statements))) ∧
      (∀ statement ∈ statements, statement.IsPlain) ∧
      statements.flatMap (·.objects {}) = objects := by
  induction hmeans with
  | nil =>
    refine ⟨[], [], .nil _, by simp, fun nodes => ?_, by simp, rfl⟩
    rw [List.append_nil]
    exact .nil _
  | @cons line lines objects more hline hlines ih =>
    obtain ⟨symbols, statements, hstands, hdeclares, hplain, rfl⟩ := hline
    obtain ⟨symbols', statements', hscans, hmarks, hfeeds, hplain', rfl⟩ := ih
    refine ⟨symbols ++ [Symbol.newline] ++ symbols', statements ++ statements', ?_, ?_, ?_, ?_, ?_⟩
    · rw [unlines_cons, List.map_append]
      exact hstands.scans_append (head?_unlines hlines.standsFor) hscans
    · intro symbol hmem
      simp only [List.mem_append, List.mem_singleton] at hmem
      rcases hmem with (hmem | rfl) | hmem
      · exact hdeclares.noMarks symbol hmem
      · exact nofun
      · exact hmarks symbol hmem
    · intro nodes
      have hrest := hfeeds (nodes ++ statements)
      rw [List.append_assoc] at hrest
      exact (hdeclares.feedsAll nodes).append hrest
    · intro statement hmem
      exact (List.mem_append.1 hmem).elim (hplain statement) (hplain' statement)
    · rw [List.flatMap_append]

theorem unmarked_symbols {symbols : List Symbol}
    (hmarks : ∀ symbol ∈ symbols, symbol.kind ≠ .lineMark) :
    unmarked (symbols.map .symbol) = symbols.map .symbol := by
  refine unmarked_eq_self fun item hmem => ?_
  obtain ⟨symbol, hsymbol, rfl⟩ := List.mem_map.1 hmem
  simpa [Item.isLineMark] using hmarks symbol hsymbol

/-- A text of lines with a meaning, below a comment, is assembled into what the lines mean. -/
theorem assemble_of_means (hlimit : 6 ≤ limit) {header : List Char} {lines : List (List Char)}
    {objects : List Object} (hheader : StandsFor header [])
    (hmeans : Means functions limit lines objects) {text : String}
    (htext : text.toList = unlines (header :: lines)) (file : String) :
    ∃ program, assemble file text limit functions = .ok program ∧ program.diagnostics = [] ∧
      program.labels = {} ∧ program.objects = objects := by
  obtain ⟨symbols, statements, hscans, hmarks, hfeeds, hplain, rfl⟩ := hmeans.exists_symbols
  -- the scanner: a line break for the comment, the symbols of the lines, and the end
  have hwhole : Scans step .start (Token.runs (dropReturns text.toList) ++ [Token.endOfText]) .start
      ((Symbol.newline :: symbols ++ [Symbol.endOfData]).map .symbol) := by
    rw [htext, unlines_cons, dropReturns_line hheader.noBreak hheader.last,
      dropReturns_unlines hmeans.standsFor, List.map_append]
    have hend : step .start .endOfText = accept .start [.symbol .endOfData] := rfl
    exact (hheader.scans_append (head?_unlines hmeans.standsFor) hscans).append (.of_taken hend)
  obtain ⟨items, last, raw, hlex, hraw, hitems⟩ := lex_eq_scans Mode.patient .start text
  obtain ⟨-, rfl⟩ := hraw.unique hwhole
  have hmarks' : ∀ symbol ∈ Symbol.newline :: symbols ++ [Symbol.endOfData],
      symbol.kind ≠ .lineMark := by
    intro symbol hmem
    simp only [List.cons_append, List.mem_cons, List.mem_append, List.not_mem_nil, or_false] at hmem
    rcases hmem with rfl | hmem | rfl
    · exact nofun
    · exact hmarks symbol hmem
    · exact nofun
  rw [unmarked_symbols hmarks'] at hitems
  -- the parser: the comment is an empty line
  have hall : Parser.FeedsAll functions limit (.newline :: symbols) ⟨[.body], [], []⟩
      (Parser.atLine statements) := .cons (Parser.feeds_firstLine hlimit) (hfeeds [])
  obtain ⟨decls, hparse, hnodes⟩ := parseItems_of_feedsAll hlimit hall hitems file
  have hassemble : assemble file text limit functions = .ok (.ofStatements decls []) := by
    rw [assemble, parse, lex, hlex, ok_bind, hparse, ok_bind]
    rfl
  have hplain' : ∀ decl ∈ decls, decl.node.IsPlain := fun decl hmem =>
    hplain decl.node (hnodes ▸ List.mem_map_of_mem hmem)
  obtain ⟨hlabels, hdiagnostics, hobjects⟩ := Program.ofStatements_of_isPlain hplain'
  exact ⟨_, hassemble, hdiagnostics, hlabels, by rw [hobjects, hnodes]⟩

end Docpress.Assembly

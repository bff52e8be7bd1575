import ContentSecurity.Proofs.Grammar.Parts
import ContentSecurity.Proofs.Grammar.Trees
/-!
# Clauses

A clause is the text of one directive: a name, and possibly blanks and a value.  Every clause
without blanks at its ends is read as a directive if no visible character follows, and the node
gives its name and its value; nothing else is read as a directive.
-/

namespace ContentSecurity

open Text Grammar
open String (utf8Len)

namespace Directive

/-- A name, alone or with blanks and a value behind it. -/
def IsClause (text : List Char) : Prop :=
  ∃ name tail, text = name ++ tail ∧ name ≠ [] ∧ (∀ c ∈ name, isNameChar c) ∧
    (tail = [] ∨ ∃ gap value, tail = gap ++ value ∧ gap ≠ [] ∧ (∀ c ∈ gap, isBlank c) ∧
      value ≠ [] ∧ ∀ c ∈ value, isBlank c ∨ isValueChar c)

/-- The name in front of a clause. -/
def clauseName (text : List Char) : List Char :=
  text.takeWhile isNameChar

/-- What stands behind the name of a clause, without blanks at its ends. -/
def clauseValue (text : List Char) : List Char :=
  trimmed isBlank (text.dropWhile isNameChar)

/-- The node of a directive in a header gives the name and the value of the clause. -/
def Gives (header : String) (text : List Char) (node : Tree) : Prop :=
  node.part? header .directiveName = some (.ofList (clauseName text)) ∧
    (node.part? header .directiveValue).getD "" = .ofList (clauseValue text)

/-- The node is that of a directive, and it covers the clause. -/
structure Covers (header : String) (text : List Char) (node : Tree) : Prop where
  rule : node.rule = .serializedDirective
  text_eq : node.text header = .ofList text

variable {text name tail gap value front back rest : List Char} {header : String}

theorem stops_isNameChar_of_isBlank (h : ∀ c ∈ gap, isBlank c) : Stops isNameChar gap := by
  apply stops_of_forall
  intro c hc
  by_contra hname
  have hvisible : isValueChar c := isValueChar_of_isNameChar (by simpa using hname)
  have hblank := h c hc
  simp [isBlank_eq_false_of_isValueChar hvisible] at hblank

/-! ### The parts of a clause -/

theorem exists_of_isClause (h : IsClause text) (hbare : Bare isBlank text) :
    ∃ name, name ∈ Lexeme.directiveName.language ∧
      (text = name ∨ ∃ gap value, text = name ++ (gap ++ value) ∧ gap ≠ [] ∧
        (∀ c ∈ gap, isBlank c) ∧ value ∈ Lexeme.directiveValue.language) := by
  rcases h with ⟨name, tail, rfl, hne, hname, rfl | ⟨gap, value, rfl, hgne, hgap, hvne, hvalue⟩⟩
  · exact ⟨name, Lexeme.mem_language_directiveName.mpr ⟨hne, hname⟩, by simp⟩
  · refine ⟨name, Lexeme.mem_language_directiveName.mpr ⟨hne, hname⟩, Or.inr ?_⟩
    -- the blanks in front of the value belong to the gap
    have hcut : value = value.takeWhile isBlank ++ value.dropWhile isBlank :=
      List.takeWhile_append_dropWhile.symm
    have hend : Stops isBlank value.reverse :=
      Stops.of_reverse_append (Stops.of_reverse_append hbare.2 (by simp [hvne])) hvne
    refine ⟨gap ++ value.takeWhile isBlank, value.dropWhile isBlank, ?_, by simp [hgne], ?_, ?_⟩
    · rw [List.append_assoc, ← hcut]
    · intro c hc
      rcases List.mem_append.mp hc with hc | hc
      · exact hgap c hc
      · exact List.mem_takeWhile_imp hc
    · exact Lexeme.mem_language_directiveValue.mpr ⟨dropWhile_ne_nil hend hvne,
        fun c hc => hvalue c (List.dropWhile_subset _ hc), bare_dropWhile hend hvne⟩

theorem IsClause.visible (h : IsClause text) : ∀ c ∈ text, isBlank c ∨ isValueChar c := by
  rcases h with ⟨name, tail, rfl, -, hname, htail⟩
  intro c hc
  rcases List.mem_append.mp hc with hc | hc
  · exact Or.inr (isValueChar_of_isNameChar (hname c hc))
  · rcases htail with rfl | ⟨gap, value, rfl, -, hgap, -, hvalue⟩
    · cases hc
    · rcases List.mem_append.mp hc with hc | hc
      · exact Or.inl (hgap c hc)
      · exact hvalue c hc

theorem isClause_of_name (h : name ∈ Lexeme.directiveName.language) : IsClause name := by
  obtain ⟨hne, hname⟩ := Lexeme.mem_language_directiveName.mp h
  exact ⟨name, [], by simp, hne, hname, Or.inl rfl⟩

theorem isClause_of_value (h : name ∈ Lexeme.directiveName.language) (hgne : gap ≠ [])
    (hgap : ∀ c ∈ gap, isBlank c) (hvalue : value ∈ Lexeme.directiveValue.language) :
    IsClause (name ++ (gap ++ value)) := by
  obtain ⟨hne, hname⟩ := Lexeme.mem_language_directiveName.mp h
  obtain ⟨hvne, hall, -⟩ := Lexeme.mem_language_directiveValue.mp hvalue
  exact ⟨name, _, rfl, hne, hname, Or.inr ⟨gap, value, rfl, hgne, hgap, hvne, hall⟩⟩

theorem clauseName_append (h : name ∈ Lexeme.directiveName.language)
    (htail : Stops isNameChar tail) : clauseName (name ++ tail) = name :=
  takeWhile_append_of_stops (Lexeme.mem_language_directiveName.mp h).2 htail

theorem clauseValue_append (h : name ∈ Lexeme.directiveName.language)
    (htail : Stops isNameChar tail) : clauseValue (name ++ tail) = trimmed isBlank tail := by
  rw [clauseValue, dropWhile_append_of_stops (Lexeme.mem_language_directiveName.mp h).2 htail]

theorem clause_parts (h : name ∈ Lexeme.directiveName.language) (hgne : gap ≠ [])
    (hgap : ∀ c ∈ gap, isBlank c) (hvalue : value ∈ Lexeme.directiveValue.language) :
    clauseName (name ++ (gap ++ value)) = name ∧ clauseValue (name ++ (gap ++ value)) = value := by
  obtain ⟨-, -, hbare⟩ := Lexeme.mem_language_directiveValue.mp hvalue
  have hstop : Stops isNameChar (gap ++ value) :=
    (stops_isNameChar_of_isBlank hgap).append_left hgne
  rw [clauseName_append h hstop, clauseValue_append h hstop, trimmed_append_left hgap,
    trimmed_of_bare hbare]
  exact ⟨rfl, rfl⟩

theorem clause_parts_of_name (h : name ∈ Lexeme.directiveName.language) :
    clauseName name = name ∧ clauseValue name = [] := by
  rw [← List.append_nil name, clauseName_append h stops_nil, clauseValue_append h stops_nil,
    List.append_nil]
  exact ⟨rfl, rfl⟩

/-- A clause without blanks at its ends is its name, or its name, a gap and its value. -/
theorem clause_cases (h : IsClause text) (hbare : Bare isBlank text) :
    clauseName text ∈ Lexeme.directiveName.language ∧
      (text = clauseName text ∧ clauseValue text = [] ∨
        ∃ gap, text = clauseName text ++ (gap ++ clauseValue text) ∧ gap ≠ [] ∧
          clauseValue text ∈ Lexeme.directiveValue.language) := by
  obtain ⟨name, hname, rfl | ⟨gap, value, rfl, hgne, hgap, hvalue⟩⟩ := exists_of_isClause h hbare
  · obtain ⟨hsame, hnil⟩ := clause_parts_of_name hname
    rw [hsame, hnil]
    exact ⟨hname, Or.inl ⟨rfl, rfl⟩⟩
  · obtain ⟨hsame, hvalue'⟩ := clause_parts hname hgne hgap hvalue
    rw [hsame, hvalue']
    exact ⟨hname, Or.inr ⟨gap, rfl, hgne, hvalue⟩⟩

theorem forall_isValueChar_of_name (h : name ∈ Lexeme.directiveName.language) :
    ∀ c ∈ name, isValueChar c := by
  intro c hc
  exact isValueChar_of_isNameChar ((Lexeme.mem_language_directiveName.mp h).2 c hc)

/-! ### Reading a clause -/

/-- What is read as a directive is a clause, and the node gives its name and its value. -/
theorem gives_of_derives {trees : List Tree}
    (h : Phrase.serializedDirective.Derives (utf8Len front) text back trees)
    (hheader : header.toList = front ++ (text ++ back)) :
    IsClause text ∧ Bare isBlank text ∧
      ∃ node, trees = [node] ∧ Covers header text node ∧ Gives header text node := by
  rcases h with ⟨children, ⟨name, tail, ss, ts, ⟨hname, rfl⟩, htail, rfl, rfl⟩, rfl⟩
  have hcovers := fun children => Tree.text_of_append .serializedDirective children hheader
  have hvisible := forall_isValueChar_of_name hname
  obtain ⟨hne, -⟩ := Lexeme.mem_language_directiveName.mp hname
  have hbareName : Bare isBlank name :=
    bare_of_forall fun c hc => isBlank_eq_false_of_isValueChar (hvisible c hc)
  rcases Phrase.derives_opt.mp htail with ⟨gap, value, _, _, ⟨hgap, rfl⟩, ⟨hvalue, rfl⟩, rfl, rfl⟩ |
      ⟨rfl, rfl⟩
  · obtain ⟨hgne, hgall⟩ := Lexeme.mem_language_gap.mp hgap
    obtain ⟨hvne, -, hbare⟩ := Lexeme.mem_language_directiveValue.mp hvalue
    obtain ⟨hclauseName, hclauseValue⟩ := clause_parts hname hgne hgall hvalue
    refine ⟨isClause_of_value hname hgne hgall hvalue, ?_, _, rfl, ⟨rfl, hcovers _⟩, ?_, ?_⟩
    · rw [← List.append_assoc]
      exact hbareName.append hbare hne hvne
    · rw [Tree.part?_mk (by decide), hclauseName]
      have hsplit : header.toList = front ++ (name ++ (gap ++ value ++ back)) := by
        rw [hheader]
        simp
      simp [Tree.text_of_append .directiveName [] hsplit]
    · rw [Tree.part?_mk (by decide), hclauseValue]
      have hsplit : header.toList = front ++ name ++ gap ++ (value ++ back) := by
        rw [hheader]
        simp
      have htext := Tree.text_of_append .directiveValue [] hsplit
      rw [String.utf8Len_append, String.utf8Len_append] at htext
      simp [htext]
  · rw [List.append_nil] at *
    obtain ⟨hclauseName, hclauseValue⟩ := clause_parts_of_name hname
    refine ⟨isClause_of_name hname, hbareName, _, rfl, ⟨rfl, hcovers _⟩, ?_, ?_⟩
    · rw [Tree.part?_mk (by decide), hclauseName]
      simp [Tree.text_of_append .directiveName [] hheader]
    · rw [Tree.part?_mk (by decide), hclauseValue]
      rfl

/-- **Every clause is read as a directive**, if behind the blanks that follow there is no visible
character. -/
theorem takes_serializedDirective (h : IsClause text) (hbare : Bare isBlank text)
    (hrest : Stops isValueChar (rest.dropWhile isBlank)) :
    Phrase.serializedDirective.Takes text rest := by
  have hcut : rest.takeWhile isBlank ++ rest.dropWhile isBlank = rest :=
    List.takeWhile_append_dropWhile
  have hblank : ∀ c ∈ rest.takeWhile isBlank, isBlank c :=
    fun _ => List.mem_takeWhile_imp
  have hstop : Stops isNameChar rest := by
    rw [← hcut]
    exact stops_append (stops_isNameChar_of_isBlank hblank)
      (hrest.mono fun c hc => isValueChar_of_isNameChar hc)
  obtain ⟨name, hname, rfl | ⟨gap, value, rfl, hgne, hgap, hvalue⟩⟩ := exists_of_isClause h hbare
  · -- no value stands behind the blanks that follow
    have hfail : (Phrase.seq (.text .gap) (.token .directiveValue .directiveValue)).Fails rest := by
      have hvalue : Lexeme.directiveValue.Fails (rest.dropWhile isBlank) :=
        (Lexeme.fails_one hrest).plus.seq_left
      by_cases hnil : rest.takeWhile isBlank = []
      · rw [hnil, List.nil_append] at hcut
        rw [← hcut]
        exact (Phrase.fails_text (Lexeme.fails_one stops_dropWhile).plus).seq_left
      · rw [← hcut]
        exact (Phrase.fails_token hvalue).seq_right
          (Phrase.takes_text (Lexeme.takes_gap hnil hblank stops_dropWhile))
    have hread : (Phrase.token .directiveName .directiveName).Takes text ([] ++ rest) :=
      Phrase.takes_token (Lexeme.takes_directiveName hname hstop)
    rw [← List.append_nil text]
    exact (hread.seq (Phrase.takes_opt_nil hfail)).node
  · obtain ⟨hvne, -, hbareValue⟩ := Lexeme.mem_language_directiveValue.mp hvalue
    have hgapStop : Stops isNameChar (gap ++ value ++ rest) :=
      ((stops_isNameChar_of_isBlank hgap).append_left hgne).append_left (by simp [hgne])
    have hgapTake : (Phrase.text .gap).Takes gap (value ++ rest) :=
      Phrase.takes_text (Lexeme.takes_gap hgne hgap (hbareValue.1.append_left hvne))
    have hvalueTake : (Phrase.token .directiveValue .directiveValue).Takes value rest :=
      Phrase.takes_token (Lexeme.takes_directiveValue hvalue hrest)
    exact ((Phrase.takes_token (Lexeme.takes_directiveName hname hgapStop)).seq
      (hgapTake.seq hvalueTake).opt).node

end Directive

end ContentSecurity

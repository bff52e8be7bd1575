import ContentSecurity.Proofs.Grammar.Classes
import ContentSecurity.Proofs.Grammar.Derivation
import ContentSecurity.Source.Interpretation
import ContentSecurity.Grammar.Recognition
import Mathlib.Data.List.Basic
/-!
# Matched trees

A tree of a derivation covers a stretch of the input, and `Tree.text` gives that stretch back.
Rules are sought in trees of at most two levels, where a search lists children and `find?` is a
search of the list.  Matching a rule gives a derivation of some front part of the input, and it
succeeds where the phrase of the rule takes the whole of it.
-/

namespace ContentSecurity.Grammar

open String (utf8Len)

/-! ### Bytes and characters -/

theorem isValid_of_append {input : String} {front back : List Char}
    (h : input.toList = front ++ back) : String.Pos.Raw.IsValid input ⟨utf8Len front⟩ := by
  rw [String.Pos.Raw.isValid_iff_exists_append]
  refine ⟨.ofList front, .ofList back, ?_, ?_⟩
  · rw [← String.ofList_append, ← h, String.ofList_toList]
  · rw [← String.utf8ByteSize_ofList]
    rfl

theorem exists_pos?_of_append {input : String} {front back : List Char}
    (h : input.toList = front ++ back) :
    ∃ pos, input.pos? ⟨utf8Len front⟩ = some pos ∧ pos.offset = ⟨utf8Len front⟩ := by
  have hvalid := isValid_of_append h
  have hslice := String.Pos.Raw.isValidForSlice_eq_true_iff.mpr hvalid.toSlice
  refine ⟨.ofToSlice (input.toSlice.pos _ hvalid.toSlice), ?_, rfl⟩
  rw [String.pos?, String.Slice.pos?, dif_pos hslice]
  rfl

namespace Tree

/-- **The text of a tree is the stretch of the input that it covers.** -/
theorem text_of_append (rule : Rule) (children : List Tree) {input : String}
    {front covered back : List Char} (h : input.toList = front ++ (covered ++ back)) :
    (Tree.mk rule (utf8Len front) (utf8Len front + utf8Len covered) children).text input =
      .ofList covered := by
  obtain ⟨start, hstart, hstarto⟩ := exists_pos?_of_append h
  obtain ⟨stop, hstop, hstopo⟩ := exists_pos?_of_append (h.trans (List.append_assoc ..).symm)
  rw [String.utf8Len_append] at hstop hstopo
  have hinput : input = .ofList front ++ (.ofList covered ++ .ofList back) := by
    rw [← String.ofList_append, ← String.ofList_append, ← h, String.ofList_toList]
  have hsize : ∀ text : List Char, (String.ofList text).toByteArray.size = utf8Len text := by
    intro text
    rw [String.size_toByteArray, String.utf8ByteSize_ofList]
  simp only [text, hstart, hstop]
  apply String.toByteArray_inj.mp
  rw [String.toByteArray_extract, hstarto, hstopo]
  have hbytes : input.toByteArray = (String.ofList front).toByteArray ++
      ((String.ofList covered).toByteArray ++ (String.ofList back).toByteArray) := by
    rw [hinput, String.toByteArray_append, String.toByteArray_append]
  rw [hbytes, ← hsize front, ← hsize covered]
  exact (ByteArray.extract_append_size_add (i := 0)).trans (ByteArray.extract_append_eq_left rfl)

/-! ### Searching -/

variable {targets : List Rule} {rule : Rule} {start stop depth : Nat} {trees : List Tree}

theorem search_mk (h : rule ∉ targets) (depth : Nat) :
    search targets (depth + 1) ⟨rule, start, stop, trees⟩ = searchAll targets depth trees := by
  simp [search, h]

theorem search_of_mem {tree : Tree} (h : tree.rule ∈ targets) :
    tree.search targets depth = [tree] := by
  rcases tree with ⟨rule, start, stop, children⟩
  simp only at h
  cases depth <;> simp [search, h]

/-- A search of trees that are all sought lists them, and leaves out a leaf of another rule. -/
theorem searchAll_concat {leaf : Tree} (h : ∀ tree ∈ trees, tree.rule ∈ targets)
    (hleaf : leaf.rule ∉ targets) (hchildren : leaf.children = []) :
    searchAll targets depth (trees ++ [leaf]) = trees := by
  induction trees with
  | nil =>
    rcases leaf with ⟨rule, start, stop, children⟩
    simp only at hleaf hchildren
    subst hchildren
    cases depth <;> simp [searchAll, search, hleaf]
  | cons tree trees ih =>
    rw [List.cons_append, searchAll, search_of_mem (h tree (by simp)),
      ih fun t ht => h t (List.mem_cons_of_mem _ ht)]
    rfl

theorem findAmong?_zero : findAmong? targets 0 trees = trees.find? (·.rule ∈ targets) := by
  induction trees with
  | nil => simp [findAmong?]
  | cons tree trees ih =>
    rcases tree with ⟨rule, start, stop, children⟩
    by_cases h : rule ∈ targets <;> simp [findAmong?, find?, h, ih]

theorem part?_mk {node : Rule} (h : node ≠ rule) (input : String) :
    part? ⟨node, start, stop, trees⟩ input rule =
      (trees.find? (·.rule = rule)).map (·.text input) := by
  simp [part?, find?, h, findAmong?_zero]

theorem part?_cons_self {node : Rule} {child : Tree} (h : node ≠ child.rule) (input : String) :
    part? ⟨node, start, stop, child :: trees⟩ input child.rule = some (child.text input) := by
  simp [part?_mk h]

theorem part?_cons_of_ne {node : Rule} {child : Tree} (h : node ≠ rule) (hchild : child.rule ≠ rule)
    (input : String) :
    part? ⟨node, start, stop, child :: trees⟩ input rule =
      part? ⟨node, start, stop, trees⟩ input rule := by
  simp [part?_mk h, hchild]

/-- The tree of a part that may be missing. -/
def ofPart (rule : Rule) (offset : Nat) (part : Option String) : List Tree :=
  (part.map fun text => ⟨rule, offset, offset + utf8Len text.toList, []⟩).toList

theorem find?_ofPart_of_ne {target : Rule} (h : rule ≠ target) (offset : Nat)
    (part : Option String) : (ofPart rule offset part).find? (·.rule = target) = none := by
  cases part <;> simp [ofPart, h]

theorem text_find?_ofPart (rule : Rule) {input : String} {front : List Char} {part : Option String}
    (h : ∀ text ∈ part, ∃ back, input.toList = front ++ (text.toList ++ back)) :
    ((ofPart rule (utf8Len front) part).find? (·.rule = rule)).map (·.text input) = part := by
  cases part with
  | none => rfl
  | some text =>
    obtain ⟨back, hinput⟩ := h text rfl
    have htext := text_of_append rule [] hinput
    rw [String.utf8Len_toList, String.ofList_toList] at htext
    simp [ofPart, htext]

theorem exists_ofPart_of_derives {lexeme : Lexeme} {offset : Nat} {taken rest : List Char}
    (h : (Phrase.opt (.token rule lexeme)).Derives offset taken rest trees) :
    ∃ part : Option String, (∀ text ∈ part, lexeme.Matches text) ∧
      taken = (part.getD "").toList ∧ trees = ofPart rule offset part := by
  rcases Phrase.derives_opt.mp h with ⟨hmem, rfl⟩ | ⟨rfl, rfl⟩
  · refine ⟨some (.ofList taken), ?_, by simp, by simp [ofPart, String.utf8ByteSize_ofList]⟩
    simpa [Lexeme.Matches] using hmem
  · exact ⟨none, by simp, by simp, rfl⟩

end Tree

/-! ### Matching -/

namespace Rule

variable {rule : Rule} {input : String} {trees : List Tree} {error : Error}

theorem trees_eq_ok_iff :
    rule.trees input = .ok trees ↔
      ∃ d, (rule.phrase.read (.start input)).found = some (trees, d) := by
  unfold Rule.trees
  split
  · rename_i hread
    simp [hread]
  · rename_i hread
    simp [hread]

theorem trees_eq_error_iff :
    rule.trees input = .error error ↔ (rule.phrase.read (.start input)).found = none ∧
      error = rule.mismatch input (rule.phrase.read (.start input)).reach := by
  unfold Rule.trees
  split
  · rename_i hread
    simp [hread]
  · rename_i hread
    simp [hread, eq_comm]

theorem exists_derives_of_trees (h : rule.trees input = .ok trees) :
    ∃ taken rest, input.toList = taken ++ rest ∧ rule.phrase.Derives 0 taken rest trees := by
  obtain ⟨d, hread⟩ := trees_eq_ok_iff.mp h
  obtain ⟨taken, htaken, -, hderives⟩ := Phrase.exists_of_read hread
  exact ⟨taken, d.rest, htaken, hderives⟩

theorem exists_trees_of_takes (h : rule.phrase.Takes input.toList []) :
    ∃ trees, rule.trees input = .ok trees := by
  obtain ⟨trees, htrees⟩ := h 0
  rw [List.append_nil] at htrees
  exact ⟨trees, trees_eq_ok_iff.mpr ⟨_, htrees⟩⟩

theorem tree_eq_ok_iff {tree : Tree} :
    rule.tree input = .ok tree ↔ ∃ others, rule.trees input = .ok (tree :: others) := by
  unfold Rule.tree
  cases rule.trees input with
  | error error => simp
  | ok trees => cases trees <;> simp

/-- A text that is refused does not match the rule; there is no other reason. -/
theorem exists_mismatch_of_tree (h : rule.tree input = .error error) :
    ∃ position, error = rule.mismatch input position := by
  unfold Rule.tree at h
  cases htrees : rule.trees input with
  | error other =>
    rw [htrees] at h
    rw [← Except.error.inj h]
    exact ⟨_, (trees_eq_error_iff.mp htrees).2⟩
  | ok trees =>
    rw [htrees] at h
    cases trees with
    | nil => exact ⟨0, (Except.error.inj h).symm⟩
    | cons tree others => cases h

end Rule

end ContentSecurity.Grammar

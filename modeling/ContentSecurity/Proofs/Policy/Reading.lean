import ContentSecurity.Policy.Reading
import ContentSecurity.Proofs.Directive.Values
import ContentSecurity.Proofs.Policy.Clauses
/-!
# Reading policies

A header means a list of directives, one for each clause (`Means`), and reading a policy gives just
these in their places, provided that the limits admit them (`parse_eq_ok_iff`).
-/

namespace ContentSecurity

open Text Grammar Directive

/-- The header, its directives and their sources are within the limits. -/
structure Limits.Admit (limits : Limits) (header : String) (directives : List Directive) :
    Prop where
  size : header.utf8ByteSize ≤ limits.headerLength
  count : directives.length ≤ limits.directives
  sources : ∀ directive ∈ directives, directive.body.Within limits

namespace Policy

variable {limits : Limits} {header : String} {directives : List Directive}

/-- The clauses that stand between the semicolons. -/
def filled (header : String) : List (List Char) :=
  (clauses header).filter (!·.isEmpty)

/-- What a header means: a directive for each clause, in order. -/
structure Means (header : String) (directives : List Directive) : Prop where
  outline : IsOutline (clauses header)
  reads : List.Forall₂ ReadClause (filled header) directives

/-- Reading the directive of a node is reading its clause; where it stands makes no difference. -/
theorem ofTree_of_gives {clause : List Char} {tree : Tree} (h : Gives header clause tree) :
    ofTree limits header tree =
      ofText limits (.ofList (clauseName clause)) (.ofList (clauseValue clause)) := by
  rcases h with ⟨hname, hvalue⟩
  unfold ofTree
  simp only [hname, hvalue]

theorem ofTree_eq_ok_iff {clause : List Char} {tree : Tree} {directive : Directive}
    (h : Gives header clause tree) :
    (ofTree limits header tree).result = .ok directive ↔
      ReadClause clause directive ∧ directive.body.Within limits := by
  rw [ofTree_of_gives h]
  exact ofText_eq_ok_iff

/-- Which names were there before makes no difference to the directives that are read. -/
theorem result_readDirectives (limits : Limits) (header : String) (seen : List String)
    (trees : List Tree) :
    (readDirectives limits header seen trees).result =
      trees.mapM fun tree => (ofTree limits header tree).result := by
  induction trees generalizing seen with
  | nil => rfl
  | cons tree rest ih =>
    rw [readDirectives, Reading.result_bind, List.mapM_cons]
    congr 1
    funext directive
    rw [Reading.result_bind]
    change
      ((directive :: ·) <$> readDirectives limits header (directive.name :: seen) rest).result = _
    rw [Reading.result_map, ih, map_eq_pure_bind]

theorem mapM_ofTree_of_gives {clauses : List (List Char)} {trees : List Tree}
    (h : List.Forall₂ (Gives header) clauses trees) :
    (trees.mapM fun tree => (ofTree limits header tree).result) = .ok directives ↔
      List.Forall₂ ReadClause clauses directives ∧
        ∀ directive ∈ directives, directive.body.Within limits := by
  rw [mapM_eq_ok_iff]
  induction h generalizing directives with
  | nil =>
    rw [List.forall₂_nil_left_iff, List.forall₂_nil_left_iff]
    constructor
    · rintro rfl
      exact ⟨rfl, by simp⟩
    · rintro ⟨rfl, -⟩
      rfl
  | cons hgives _ ih =>
    simp only [List.forall₂_cons_left_iff, ih, ofTree_eq_ok_iff hgives]
    constructor
    · rintro ⟨directive, others, ⟨hread, hwithin⟩, ⟨hreads, hwithins⟩, rfl⟩
      exact ⟨⟨directive, others, hread, hreads, rfl⟩,
        List.forall_mem_cons.mpr ⟨hwithin, hwithins⟩⟩
    · rintro ⟨⟨directive, others, hread, hreads, rfl⟩, hwithin⟩
      obtain ⟨hfirst, hothers⟩ := List.forall_mem_cons.mp hwithin
      exact ⟨directive, others, ⟨hread, hfirst⟩, ⟨hreads, hothers⟩, rfl⟩

theorem fromUTF8?_eq_some_iff {data : ByteArray} :
    String.fromUTF8? data = some header ↔ data = header.toUTF8 := by
  unfold String.fromUTF8?
  constructor
  · intro h
    split at h
    · exact congrArg String.toUTF8 (Option.some.inj h)
    · cases h
  · rintro rfl
    have hvalid : header.toUTF8.IsValidUTF8 := header.isValidUTF8
    rw [dif_pos hvalid]
    rfl

theorem outline_eq_ok_iff {data : ByteArray} {trees : List Tree} :
    outline limits data = .ok (header, trees) ↔
      data = header.toUTF8 ∧ data.size ≤ limits.headerLength ∧
        (∃ tree, Rule.serializedPolicy.tree header = .ok tree ∧
          trees = tree.search [.serializedDirective] 2) ∧ trees.length ≤ limits.directives := by
  constructor
  · intro h
    obtain ⟨_, hsize, h⟩ := bind_eq_ok_iff.mp h
    split at h
    · cases h
    · rename_i text htext
      obtain ⟨tree, htree, h⟩ := bind_eq_ok_iff.mp h
      obtain ⟨_, hcount, h⟩ := bind_eq_ok_iff.mp h
      obtain ⟨rfl, rfl⟩ := Prod.mk.inj (Except.ok.inj h)
      exact ⟨fromUTF8?_eq_some_iff.mp htext, Limits.check_eq_ok_iff.mp hsize, ⟨tree, htree, rfl⟩,
        Limits.check_eq_ok_iff.mp hcount⟩
  · intro h
    rcases h with ⟨rfl, hsize, ⟨tree, htree, rfl⟩, hcount⟩
    have htext : String.fromUTF8? header.toUTF8 = some header := fromUTF8?_eq_some_iff.mpr rfl
    refine bind_eq_ok_iff.mpr ⟨(), Limits.check_eq_ok_iff.mpr hsize, ?_⟩
    simp only [htext]
    exact bind_eq_ok_iff.mpr ⟨tree, htree, bind_eq_ok_iff.mpr
      ⟨(), Limits.check_eq_ok_iff.mpr hcount, rfl⟩⟩

/-- A matched header has an outline, and a node for each of its clauses. -/
theorem gives_of_tree {tree : Tree} (h : Rule.serializedPolicy.tree header = .ok tree) :
    IsOutline (clauses header) ∧
      List.Forall₂ (Gives header) (filled header) (tree.search [.serializedDirective] 2) := by
  obtain ⟨others, htrees⟩ := Rule.tree_eq_ok_iff.mp h
  obtain ⟨houtline, _, hsingle, -, -, hgives⟩ := matched_of_trees htrees
  obtain ⟨rfl, -⟩ := List.cons.inj hsingle
  exact ⟨houtline, hgives⟩

theorem covers_of_tree {tree : Tree} (h : Rule.serializedPolicy.tree header = .ok tree) :
    List.Forall₂ (Covers header) (filled header) (tree.search [.serializedDirective] 2) := by
  obtain ⟨others, htrees⟩ := Rule.tree_eq_ok_iff.mp h
  obtain ⟨-, _, hsingle, -, hcovers, -⟩ := matched_of_trees htrees
  obtain ⟨rfl, -⟩ := List.cons.inj hsingle
  exact hcovers

theorem exists_tree_of_outline (h : IsOutline (clauses header)) :
    ∃ tree, Rule.serializedPolicy.tree header = .ok tree := by
  obtain ⟨trees, htrees⟩ := exists_trees_of_outline h
  obtain ⟨-, tree, rfl, -⟩ := matched_of_trees htrees
  exact ⟨tree, Rule.tree_eq_ok_iff.mpr ⟨[], htrees⟩⟩

/-- The text of a header and the directives of its nodes, before they are put in their places. -/
def contents (limits : Limits) (data : ByteArray) : Except Error (String × List Directive) := do
  let (header, trees) ← outline limits data
  let directives ← trees.mapM fun tree => (ofTree limits header tree).result
  return (header, directives)

theorem result_parse (limits : Limits) (data : ByteArray) :
    (parse limits data).result = do
      let (header, directives) ← contents limits data
      return { ofDirectives directives with raw := some header } := by
  unfold parse contents
  rw [Reading.result_bind, bind_assoc]
  congr 1
  funext found
  rcases found with ⟨header, trees⟩
  rw [Reading.result_bind, result_readDirectives]
  simp only [bind_assoc, pure_bind, Reading.result_pure]
  rfl

theorem result_parse_of_contents {data : ByteArray}
    (h : contents limits data = .ok (header, directives)) :
    (parse limits data).result = .ok { ofDirectives directives with raw := some header } := by
  rw [result_parse, h]
  rfl

theorem contents_eq_ok_iff {data : ByteArray} :
    contents limits data = .ok (header, directives) ↔
      ∃ tree, data = header.toUTF8 ∧ data.size ≤ limits.headerLength ∧
        Rule.serializedPolicy.tree header = .ok tree ∧
        (tree.search [.serializedDirective] 2).length ≤ limits.directives ∧
        ((tree.search [.serializedDirective] 2).mapM fun node =>
          (ofTree limits header node).result) = .ok directives := by
  constructor
  · intro h
    obtain ⟨⟨_, trees⟩, houtline, h⟩ := bind_eq_ok_iff.mp h
    obtain ⟨_, hread, hpure⟩ := bind_eq_ok_iff.mp h
    obtain ⟨rfl, rfl⟩ := Prod.mk.inj (Except.ok.inj hpure)
    obtain ⟨hdata, hsize, ⟨tree, htree, rfl⟩, hcount⟩ := outline_eq_ok_iff.mp houtline
    exact ⟨tree, hdata, hsize, htree, hcount, hread⟩
  · intro h
    rcases h with ⟨tree, hdata, hsize, htree, hcount, hread⟩
    refine bind_eq_ok_iff.mpr ⟨(header, _), ?_, bind_eq_ok_iff.mpr ⟨directives, hread, rfl⟩⟩
    exact outline_eq_ok_iff.mpr ⟨hdata, hsize, ⟨tree, htree, rfl⟩, hcount⟩

theorem exists_contents_of_parse {data : ByteArray} {policy : Policy}
    (h : (parse limits data).result = .ok policy) :
    ∃ header directives, contents limits data = .ok (header, directives) ∧
      policy = { ofDirectives directives with raw := some header } := by
  rw [result_parse] at h
  obtain ⟨⟨header, directives⟩, hcontents, hpure⟩ := bind_eq_ok_iff.mp h
  exact ⟨header, directives, hcontents, (Except.ok.inj hpure).symm⟩

/-- What is read are the directives that the header means, if the limits admit them. -/
theorem contents_eq_ok_iff_means {data : ByteArray} :
    contents limits data = .ok (header, directives) ↔
      data = header.toUTF8 ∧ Means header directives ∧ limits.Admit header directives := by
  rw [contents_eq_ok_iff]
  constructor
  · rintro ⟨tree, rfl, hsize, htree, hcount, hread⟩
    obtain ⟨hclauses, hgives⟩ := gives_of_tree htree
    obtain ⟨hreads, hwithin⟩ := (mapM_ofTree_of_gives hgives).mp hread
    have hlength : (tree.search [.serializedDirective] 2).length = directives.length :=
      hgives.length_eq.symm.trans hreads.length_eq
    exact ⟨rfl, ⟨hclauses, hreads⟩, ⟨hsize, hlength ▸ hcount, hwithin⟩⟩
  · rintro ⟨rfl, ⟨houtline, hreads⟩, ⟨hsize, hcount, hwithin⟩⟩
    obtain ⟨tree, htree⟩ := exists_tree_of_outline houtline
    obtain ⟨-, hgives⟩ := gives_of_tree htree
    have hlength : (tree.search [.serializedDirective] 2).length = directives.length :=
      hgives.length_eq.symm.trans hreads.length_eq
    have hread := (mapM_ofTree_of_gives hgives).mpr ⟨hreads, hwithin⟩
    exact ⟨tree, rfl, hsize, htree, hlength ▸ hcount, hread⟩

/-- **Reading a policy** gives the directives that the header means, if the limits admit them. -/
theorem parse_eq_ok_iff {data : ByteArray} {policy : Policy} :
    (parse limits data).result = .ok policy ↔
      ∃ header directives, data = header.toUTF8 ∧ Means header directives ∧
        limits.Admit header directives ∧
        policy = { ofDirectives directives with raw := some header } := by
  constructor
  · intro h
    obtain ⟨header, directives, hcontents, hpolicy⟩ := exists_contents_of_parse h
    obtain ⟨hdata, hmeans, hadmit⟩ := contents_eq_ok_iff_means.mp hcontents
    exact ⟨header, directives, hdata, hmeans, hadmit, hpolicy⟩
  · intro h
    rcases h with ⟨header, directives, hdata, hmeans, hadmit, rfl⟩
    exact result_parse_of_contents (contents_eq_ok_iff_means.mpr ⟨hdata, hmeans, hadmit⟩)

end Policy

end ContentSecurity

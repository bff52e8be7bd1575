import ContentSecurity.Proofs.Policy.Occurrences
/-!
# Reading a header piece by piece

The text of every directive of a header is a header with that directive alone, and it is read as
it is in its place (`result_parse_clause`), so that reading a header is reading these texts in order
and pushing what they give; the first of them that is refused is the reason why the header is.
Nothing depends on the text around a directive, because a node gives the name and the value of its
clause and the clause can be matched by itself.
-/

namespace ContentSecurity.Policy

open Text Grammar Directive
open String (utf8Len)

variable {limits : Limits} {header : String} {clause : List Char} {tree : Tree}

/-- The texts of the directives of a matched header, in order. -/
def clauseTexts (header : String) (tree : Tree) : List String :=
  (tree.search [.serializedDirective] 2).map (·.text header)

/-- A text is read as a policy of one directive, which is in force. -/
def ReadsAlone (text : String) (directive : Directive) : Prop :=
  ∃ policy, (parse .unbounded text.toUTF8).result = .ok policy ∧
    policy.effectiveDirectives = [directive] ∧ policy.ineffectiveDirectives = []

/-- A matched header and the texts of its directives are read alike: it is accepted if each of them
is, and then it holds what pushing their directives in order makes of an empty policy; the first of
them that is refused gives the error, whatever stands in front of it. -/
structure ReadsPiecewise (header : String) (tree : Tree) : Prop where
  accepts : (∃ policy, (parse .unbounded header.toUTF8).result = .ok policy) ↔
    ∀ text ∈ clauseTexts header tree, ∃ policy, (parse .unbounded text.toUTF8).result = .ok policy
  pushes : ∀ policy, (parse .unbounded header.toUTF8).result = .ok policy →
    ∃ directives, List.Forall₂ ReadsAlone (clauseTexts header tree) directives ∧
      { policy with raw := none } = directives.foldl push {}
  refuses : ∀ front text back error, clauseTexts header tree = front ++ text :: back →
    (∀ other ∈ front, ∃ policy, (parse .unbounded other.toUTF8).result = .ok policy) →
    (parse .unbounded text.toUTF8).result = .error error →
    (parse .unbounded header.toUTF8).result = .error error

/-! ### Without limits -/

/-- A matched header is read as the directives of its nodes, if it fits into the greatest limits. -/
theorem result_parse_unbounded (h : Rule.serializedPolicy.tree header = .ok tree)
    (hsize : header.utf8ByteSize ≤ Limits.greatest) :
    (parse .unbounded header.toUTF8).result =
      (fun directives => { ofDirectives directives with raw := some header }) <$>
        (tree.search [.serializedDirective] 2).mapM fun node =>
          (ofTree .unbounded header node).result := by
  obtain ⟨houtline, hgives⟩ := gives_of_tree h
  have hcount : (tree.search [.serializedDirective] 2).length ≤ Limits.greatest := by
    rw [← hgives.length_eq]
    exact (length_filled_le houtline).trans hsize
  have hfound : outline .unbounded header.toUTF8 =
      .ok (header, tree.search [.serializedDirective] 2) :=
    outline_eq_ok_iff.mpr ⟨rfl, hsize, ⟨tree, h, rfl⟩, hcount⟩
  rw [result_parse, contents, hfound]
  simp only [map_eq_pure_bind, bind_assoc, pure_bind]
  rfl

theorem clauses_ofList (h : IsClause clause) (hbare : Bare isBlank clause) :
    clauses (.ofList clause) = [clause] := by
  rw [clauses, String.toList_ofList, segments_of_forall (ne_semicolon_of_visible h.visible),
    trimmed_of_bare hbare]

/-- **A clause is read by itself as it is anywhere**: its tree has one node, for the same clause. -/
theorem result_parse_clause (h : IsClause clause) (hbare : Bare isBlank clause)
    (hsize : utf8Len clause ≤ Limits.greatest) :
    (parse .unbounded (String.ofList clause).toUTF8).result =
      (fun directive => { ofDirectives [directive] with raw := some (.ofList clause) }) <$>
        (ofText .unbounded (.ofList (clauseName clause))
          (.ofList (clauseValue clause))).result := by
  -- the clause has the outline of a header, so there is a tree; its only node is for the clause
  have hclauses := clauses_ofList h hbare
  have houtline : IsOutline (clauses (.ofList clause)) := by
    rw [hclauses]
    exact ⟨h, by simp⟩
  have hfilled : filled (.ofList clause) = [clause] := by
    rw [filled, hclauses]
    simp [ne_nil_of_isClause h]
  obtain ⟨tree, htree⟩ := exists_tree_of_outline houtline
  obtain ⟨-, hgives⟩ := gives_of_tree htree
  rw [hfilled, List.forall₂_cons_left_iff] at hgives
  obtain ⟨node, others, hnode, hnil, hnodes⟩ := hgives
  rw [List.forall₂_nil_left_iff] at hnil
  have hfits : (String.ofList clause).utf8ByteSize ≤ Limits.greatest := by
    rw [String.utf8ByteSize_ofList]
    exact hsize
  rw [result_parse_unbounded htree hfits, hnodes, hnil, List.mapM_cons, List.mapM_nil,
    ofTree_of_gives hnode]
  simp only [map_eq_pure_bind, bind_assoc, pure_bind]

/-- The text of a node of a header is read as the node is. -/
theorem result_parse_text (h : Rule.serializedPolicy.tree header = .ok tree)
    (hsize : header.utf8ByteSize ≤ Limits.greatest) {node : Tree}
    (hmem : node ∈ tree.search [.serializedDirective] 2) :
    (parse .unbounded (node.text header).toUTF8).result =
      (fun directive => { ofDirectives [directive] with raw := some (node.text header) }) <$>
        (ofTree .unbounded header node).result := by
  obtain ⟨houtline, hgives⟩ := gives_of_tree h
  have hboth : List.Forall₂
      (fun clause node => Covers header clause node ∧ Gives header clause node)
      (filled header) (tree.search [.serializedDirective] 2) :=
    List.Forall₂.mp (fun _ _ => And.intro) (covers_of_tree h) hgives
  obtain ⟨clause, hclause, hcovers, hnode⟩ := exists_of_forall₂ hboth hmem
  obtain ⟨hisClause, hbare⟩ := mem_filled houtline hclause
  have hfits : utf8Len clause ≤ Limits.greatest :=
    (utf8Len_le_of_mem_filled hclause).trans hsize
  rw [hcovers.text_eq, ofTree_of_gives hnode]
  exact result_parse_clause hisClause hbare hfits

/-! ### All clauses -/

theorem effectiveDirectives_singleton (directive : Directive) :
    (ofDirectives [directive]).effectiveDirectives = [directive] ∧
      (ofDirectives [directive]).ineffectiveDirectives = [] := by
  have hplace := placement_of_not_mem (List.not_mem_nil (a := directive.name))
  cases hother : directive.isOther with
  | true => simp [ofDirectives, place, hplace, hother, prepend, effectiveDirectives]
  | false => simp [ofDirectives, place, hplace, hother, prepend, effectiveDirectives]

theorem exists_parse_text_iff (htree : Rule.serializedPolicy.tree header = .ok tree)
    (hsize : header.utf8ByteSize ≤ Limits.greatest) {node : Tree}
    (hmem : node ∈ tree.search [.serializedDirective] 2) :
    (∃ policy, (parse .unbounded (node.text header).toUTF8).result = .ok policy) ↔
      ∃ directive, (ofTree .unbounded header node).result = .ok directive := by
  rw [result_parse_text htree hsize hmem]
  exact exists_map_eq_ok_iff

theorem exists_parse_iff_forall_text (htree : Rule.serializedPolicy.tree header = .ok tree)
    (hsize : header.utf8ByteSize ≤ Limits.greatest) :
    (∃ policy, (parse .unbounded header.toUTF8).result = .ok policy) ↔
      ∀ text ∈ clauseTexts header tree,
        ∃ policy, (parse .unbounded text.toUTF8).result = .ok policy := by
  rw [result_parse_unbounded htree hsize, exists_map_eq_ok_iff, clauseTexts, List.forall_mem_map]
  simp only [mapM_eq_ok_iff]
  rw [exists_forall₂_iff]
  exact forall₂_congr fun node hmem => (exists_parse_text_iff htree hsize hmem).symm

theorem readsAlone_of_ofTree (htree : Rule.serializedPolicy.tree header = .ok tree)
    (hsize : header.utf8ByteSize ≤ Limits.greatest) {node : Tree} {directive : Directive}
    (hmem : node ∈ tree.search [.serializedDirective] 2)
    (h : (ofTree .unbounded header node).result = .ok directive) :
    ReadsAlone (node.text header) directive := by
  refine ⟨{ ofDirectives [directive] with raw := some (node.text header) }, ?_,
    effectiveDirectives_singleton directive⟩
  rw [result_parse_text htree hsize hmem, h]
  rfl

theorem eq_foldl_push_of_parse (htree : Rule.serializedPolicy.tree header = .ok tree)
    (hsize : header.utf8ByteSize ≤ Limits.greatest) {policy : Policy}
    (h : (parse .unbounded header.toUTF8).result = .ok policy) :
    ∃ directives, List.Forall₂ ReadsAlone (clauseTexts header tree) directives ∧
      { policy with raw := none } = directives.foldl push {} := by
  rw [result_parse_unbounded htree hsize, map_eq_ok_iff] at h
  rcases h with ⟨directives, hread, rfl⟩
  refine ⟨directives, ?_, ?_⟩
  · rw [clauseTexts, List.forall₂_map_left_iff]
    have hmember : ∀ node ∈ tree.search [.serializedDirective] 2,
        node ∈ tree.search [.serializedDirective] 2 := fun _ => id
    have hnodes := (List.forall₂_and_left _ _).mpr ⟨hmember, mapM_eq_ok_iff.mp hread⟩
    exact hnodes.imp fun node directive h => readsAlone_of_ofTree htree hsize h.1 h.2
  · have hpushed : directives.foldl push {} = ofDirectives directives := foldl_push [] directives
    have hraw : (ofDirectives directives).raw = none := raw_place [] directives
    rw [hpushed, ← hraw]

/-- The first clause that is refused is the reason why the header is. -/
theorem parse_eq_error_of_text (htree : Rule.serializedPolicy.tree header = .ok tree)
    (hsize : header.utf8ByteSize ≤ Limits.greatest) {front back : List String} {text : String}
    {error : Error} (hsplit : clauseTexts header tree = front ++ text :: back)
    (hfront : ∀ other ∈ front, ∃ policy, (parse .unbounded other.toUTF8).result = .ok policy)
    (htext : (parse .unbounded text.toUTF8).result = .error error) :
    (parse .unbounded header.toUTF8).result = .error error := by
  obtain ⟨before, others, hnodes, rfl, hothers⟩ := List.map_eq_append_iff.mp hsplit
  obtain ⟨node, after, rfl, rfl, -⟩ := List.map_eq_cons_iff.mp hothers
  have hbefore : ∀ other ∈ before,
      ∃ directive, (ofTree .unbounded header other).result = .ok directive := by
    intro other hother
    have hmem : other ∈ tree.search [.serializedDirective] 2 := by
      rw [hnodes]
      exact List.mem_append_left _ hother
    exact (exists_parse_text_iff htree hsize hmem).mp (hfront _ (List.mem_map_of_mem hother))
  have hmem : node ∈ tree.search [.serializedDirective] 2 := by
    rw [hnodes]
    exact List.mem_append_right _ List.mem_cons_self
  rw [result_parse_text htree hsize hmem, map_eq_error_iff] at htext
  rw [result_parse_unbounded htree hsize, map_eq_error_iff]
  exact mapM_eq_error hnodes hbefore htext

/-- **Reading a header is reading its clauses one by one** and pushing what they give.  No text in
memory is longer than the greatest limit. -/
theorem parse_agrees_with_pushing (header : String) (tree : Tree)
    (htree : Rule.serializedPolicy.tree header = .ok tree)
    (hsize : header.utf8ByteSize ≤ Limits.greatest) : ReadsPiecewise header tree where
  accepts := exists_parse_iff_forall_text htree hsize
  pushes := by
    intro policy h
    exact eq_foldl_push_of_parse htree hsize h
  refuses := by
    intro front text back error hsplit hfront htext
    exact parse_eq_error_of_text htree hsize hsplit hfront htext

/-- The clauses of a header where names of both sorts repeat agree with it. -/
theorem repeatedDirectives_agree_with_pushing :
    ∃ tree, Rule.serializedPolicy.tree "IMG-SRC *;x-a 1;img-src;X-A" = .ok tree ∧
      "IMG-SRC *;x-a 1;img-src;X-A".utf8ByteSize ≤ Limits.greatest ∧
      ReadsPiecewise "IMG-SRC *;x-a 1;img-src;X-A" tree := by
  obtain ⟨tree, -, -, htree, -⟩ := contents_eq_ok_iff.mp contents_repeatedDirectives
  have hsize : "IMG-SRC *;x-a 1;img-src;X-A".utf8ByteSize ≤ Limits.greatest := by decide
  exact ⟨tree, htree, hsize, parse_agrees_with_pushing _ tree htree hsize⟩

end ContentSecurity.Policy

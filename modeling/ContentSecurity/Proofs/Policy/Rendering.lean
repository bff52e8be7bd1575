import ContentSecurity.Proofs.Directive.Canonical
import ContentSecurity.Proofs.Policy.Placement
import ContentSecurity.Proofs.Policy.Reading
/-!
# The canonical form of policies

The clauses of a canonical form are the canonical texts of the directives in force, so that it
means their plain forms (`WellFormed.means_render`).  It is hardly longer than the header that the
policy was read from: there is at most one more byte for each directive but the first
(`Means.utf8ByteSize_render_le`).
-/

namespace ContentSecurity

open Text Grammar Directive
open String (utf8Len)

namespace Policy

variable {limits : Limits} {header : String} {policy : Policy} {directives : List Directive}
variable {text gap : List Char} {texts : List (List Char)}

/-! ### The clauses of a canonical form -/

theorem segments_append_left (h : ∀ c ∈ gap, isBlank c) :
    segments (gap ++ text) = segments text := by
  induction gap with
  | nil => rfl
  | cons c gap ih =>
    obtain ⟨hc, hgap⟩ := List.forall_mem_cons.mp h
    have hne : (c == ';') = false := by simpa using ne_semicolon_of_isBlank hc
    obtain ⟨piece, pieces, hpieces⟩ :=
      List.exists_cons_of_ne_nil (List.splitOnP_ne_nil (· == ';') (gap ++ text))
    have htrim : trimmed isBlank ([c] ++ piece) = trimmed isBlank piece :=
      trimmed_append_left (by simpa using hc)
    rw [← ih hgap, segments, segments, List.splitOn_eq_splitOnP, List.splitOn_eq_splitOnP,
      List.cons_append, List.splitOnP_cons_eq_if_modifyHead, hne, hpieces]
    simpa using htrim

/-- Texts with a semicolon and a space between them are the pieces, in this order. -/
theorem segments_intercalate (hne : texts ≠ [])
    (h : ∀ text ∈ texts, Bare isBlank text ∧ ∀ c ∈ text, c ≠ ';') :
    segments ([';', ' '].intercalate texts) = texts := by
  induction texts with
  | nil => cases hne rfl
  | cons text texts ih =>
    obtain ⟨⟨hbare, hfree⟩, htexts⟩ := List.forall_mem_cons.mp h
    cases texts with
    | nil => rw [List.intercalate_singleton, segments_of_forall hfree, trimmed_of_bare hbare]
    | cons next texts =>
      have hspace : ∀ c ∈ [' '], isBlank c := by decide
      have hsplit : [';', ' '].intercalate (text :: next :: texts) =
          text ++ ';' :: ([' '] ++ [';', ' '].intercalate (next :: texts)) := by
        rw [List.intercalate_cons_cons]
        simp
      rw [hsplit, segments_append_cons hfree, segments_append_left hspace, ih (by simp) htexts,
        trimmed_of_bare hbare]

theorem isEmpty_eq_false_iff : policy.isEmpty = false ↔ policy.effectiveDirectives ≠ [] := by
  unfold isEmpty effectiveDirectives
  rw [← Bool.not_eq_true, Bool.and_eq_true, List.isEmpty_iff, List.isEmpty_iff, Ne,
    List.append_eq_nil_iff]

theorem toList_render (policy : Policy) :
    policy.render.toList =
      [';', ' '].intercalate
        (policy.effectiveDirectives.map fun directive => directive.text.toList) := by
  rw [render, String.toList_intercalate, List.map_map]
  rfl

/-- The directives in force are well-formed and make up a document: there is one at least, no name
repeats, and the recognized ones are apart from the others. -/
structure WellFormed (policy : Policy) : Prop where
  nonempty : policy.effectiveDirectives ≠ []
  nodup : policy.effectiveNames.Nodup
  recognized : ∀ directive ∈ policy.directives, directive.WellFormed ∧ directive.isOther = false
  others : ∀ directive ∈ policy.otherDirectives, directive.WellFormed ∧ directive.isOther = true

theorem WellFormed.directive (h : policy.WellFormed) {directive : Directive}
    (hmem : directive ∈ policy.effectiveDirectives) : directive.WellFormed := by
  rcases List.mem_append.mp hmem with hmem | hmem
  · exact (h.recognized directive hmem).1
  · exact (h.others directive hmem).1

theorem WellFormed.clauses_render (h : policy.WellFormed) :
    clauses policy.render =
      policy.effectiveDirectives.map fun directive => directive.text.toList := by
  rw [clauses, toList_render]
  apply segments_intercalate
  · simpa using h.nonempty
  · rw [List.forall_mem_map]
    intro directive hmem
    obtain ⟨-, hbare, hvisible, -⟩ := (h.directive hmem).readClause_text
    exact ⟨hbare, ne_semicolon_of_visible hvisible⟩

/-- **The canonical form means the plain forms** of the directives in force. -/
theorem WellFormed.means_render (h : policy.WellFormed) :
    Means policy.render (policy.effectiveDirectives.map Directive.plain) := by
  have hclause : ∀ text ∈ clauses policy.render, IsClause text := by
    rw [h.clauses_render, List.forall_mem_map]
    intro directive hmem
    exact (h.directive hmem).readClause_text.1
  have hfilled : filled policy.render = clauses policy.render := by
    apply List.filter_eq_self.mpr
    intro text htext
    simpa using ne_nil_of_isClause (hclause text htext)
  constructor
  · obtain ⟨directive, others, heq⟩ := List.exists_cons_of_ne_nil h.nonempty
    rw [h.clauses_render, heq] at hclause ⊢
    obtain ⟨hfirst, hothers⟩ := List.forall_mem_cons.mp hclause
    exact ⟨hfirst, fun text htext => Or.inr (hothers text htext)⟩
  · rw [hfilled, h.clauses_render, List.forall₂_map_left_iff, List.forall₂_map_right_iff,
      List.forall₂_same]
    intro directive hmem
    exact (h.directive hmem).readClause_text.2.2.2

/-! ### What a header means is well-formed -/

theorem mem_filled {clause : List Char} (h : IsOutline (clauses header))
    (hmem : clause ∈ filled header) : IsClause clause ∧ Bare isBlank clause := by
  obtain ⟨hclause, hne⟩ := List.mem_filter.mp hmem
  constructor
  · exact (h.eq_nil_or_isClause hclause).resolve_left (by simpa using hne)
  · obtain ⟨piece, -, rfl⟩ := List.mem_map.mp hclause
    exact bare_trimmed isBlank piece

theorem filled_ne_nil (h : IsOutline (clauses header)) : filled header ≠ [] := by
  cases hsplit : clauses header with
  | nil => simp [hsplit, IsOutline] at h
  | cons first others =>
    rw [hsplit] at h
    have hfirst := ne_nil_of_isClause h.1
    simp [filled, hsplit, hfirst]

namespace Means

theorem wellFormed (h : Means header directives) :
    ∀ directive ∈ directives, directive.WellFormed := by
  intro directive hmem
  obtain ⟨clause, hclause, hread⟩ := exists_of_forall₂ h.reads hmem
  obtain ⟨hisClause, hbare⟩ := mem_filled h.outline hclause
  exact wellFormed_of_readClause hread hisClause hbare

theorem ne_nil (h : Means header directives) : directives ≠ [] := by
  intro hnil
  have hreads := h.reads
  rw [hnil] at hreads
  exact filled_ne_nil h.outline (List.forall₂_nil_right_iff.mp hreads)

/-- **What is read is a well-formed document.** -/
theorem wellFormed_ofDirectives (h : Means header directives) :
    (ofDirectives directives).WellFormed := by
  have hperm := effectiveDirectives_perm directives
  obtain ⟨hdirectives, hothers⟩ := place_eq_firsts [] directives
  have hfirsts : ∀ directive ∈ firsts [] directives, directive.WellFormed := by
    intro directive hmem
    exact h.wellFormed directive ((firsts_sublist [] directives).mem hmem)
  constructor
  · intro hnil
    rw [hnil] at hperm
    exact firsts_ne_nil h.ne_nil hperm.nil_eq.symm
  · exact (hperm.map Directive.name).nodup_iff.mpr (nodup_firsts [] directives)
  · intro directive hmem
    rw [ofDirectives, hdirectives] at hmem
    obtain ⟨hmem, hrecognized⟩ := List.mem_filter.mp hmem
    exact ⟨hfirsts directive hmem, by simpa using hrecognized⟩
  · intro directive hmem
    rw [ofDirectives, hothers] at hmem
    obtain ⟨hmem, hother⟩ := List.mem_filter.mp hmem
    exact ⟨hfirsts directive hmem, hother⟩

end Means

/-! ### Lengths -/

theorem totalLength_filled (header : String) :
    totalLength (filled header) + (filled header).length ≤ header.utf8ByteSize + 1 := by
  have hpieces := totalLength_splitOnP (· == ';') header.toList
  have hcount : (filled header).length ≤ (clauses header).length := List.length_filter_le _ _
  have htotal : totalLength (clauses header) ≤ totalLength (header.toList.splitOn ';') := by
    apply totalLength_le
    rw [clauses, segments, List.forall₂_map_right_iff, List.forall₂_same]
    intro piece _
    exact utf8Len_trimmed_le isBlank piece
  have hfilled : totalLength (filled header) = totalLength (clauses header) := totalLength_filter _
  have hlength : (clauses header).length = (header.toList.splitOn ';').length := List.length_map ..
  rw [String.utf8Len_toList, ← List.splitOn_eq_splitOnP] at hpieces
  omega

theorem length_filled_le (h : IsOutline (clauses header)) :
    (filled header).length ≤ header.utf8ByteSize := by
  have htotal := totalLength_filled header
  have hcount : (filled header).length ≤ totalLength (filled header) :=
    length_le_totalLength fun clause hclause => ne_nil_of_isClause (mem_filled h hclause).1
  have hpos : 0 < (filled header).length := List.length_pos_iff.mpr (filled_ne_nil h)
  omega

theorem utf8Len_le_of_mem_filled {clause : List Char} (h : clause ∈ filled header) :
    utf8Len clause ≤ header.utf8ByteSize := by
  have htotal := totalLength_filled header
  have hpos : 0 < (filled header).length := List.length_pos_of_mem h
  have hpart := utf8Len_le_totalLength h
  omega

theorem utf8ByteSize_render (policy : Policy) :
    policy.render.utf8ByteSize =
      (policy.effectiveDirectives.map fun directive => directive.text.utf8ByteSize).sum +
        2 * (policy.effectiveDirectives.length - 1) := by
  have hsign : utf8Len [';', ' '] = 2 := by decide
  rw [← String.utf8Len_toList, toList_render, utf8Len_intercalate, hsign, totalLength, List.map_map,
    List.length_map]
  congr 2
  exact List.map_congr_left fun directive _ => String.utf8Len_toList directive.text

namespace Means

theorem length_le (h : Means header directives) : directives.length ≤ header.utf8ByteSize := by
  rw [← h.reads.length_eq]
  exact length_filled_le h.outline

theorem forall₂_size (h : Means header directives) :
    List.Forall₂ (fun clause directive => directive.text.utf8ByteSize ≤ utf8Len clause)
      (filled header) directives := by
  have hclauses : List.Forall₂ (fun clause directive =>
      (IsClause clause ∧ Bare isBlank clause) ∧ ReadClause clause directive)
      (filled header) directives :=
    (List.forall₂_and_left _ _).mpr ⟨fun clause => mem_filled h.outline, h.reads⟩
  exact hclauses.imp fun clause directive ⟨⟨hclause, hbare⟩, hread⟩ =>
    hread.utf8ByteSize_text_le hclause hbare

/-- **The canonical form is hardly longer than the header**: there is at most one more byte for
each directive in force but the first. -/
theorem utf8ByteSize_render_le (h : Means header directives) :
    (ofDirectives directives).render.utf8ByteSize + 1 ≤
      header.utf8ByteSize + (ofDirectives directives).effectiveDirectives.length := by
  have hperm := effectiveDirectives_perm directives
  have hsublist := firsts_sublist [] directives
  have hsum : ((ofDirectives directives).effectiveDirectives.map fun directive =>
      directive.text.utf8ByteSize).sum ≤ totalLength (filled header) := calc
    _ = ((firsts [] directives).map fun directive => directive.text.utf8ByteSize).sum :=
      (hperm.map _).sum_nat
    _ ≤ (directives.map fun directive => directive.text.utf8ByteSize).sum :=
      (hsublist.map _).sum_le_sum fun _ _ => Nat.zero_le _
    _ ≤ totalLength (filled header) := totalLength_le h.forall₂_size
  have hlength : (filled header).length = directives.length := h.reads.length_eq
  have hcount := length_effectiveDirectives_le directives
  have hpos : 0 < (ofDirectives directives).effectiveDirectives.length :=
    List.length_pos_iff.mpr h.wellFormed_ofDirectives.nonempty
  have htotal := totalLength_filled header
  rw [utf8ByteSize_render]
  omega

theorem within (h : Means header directives) (hsize : header.utf8ByteSize ≤ limits.sources) :
    ∀ directive ∈ directives, directive.body.Within limits := by
  intro directive hmem
  obtain ⟨clause, hclause, hread⟩ := exists_of_forall₂ h.reads hmem
  have hvalue : utf8Len (clauseValue clause) ≤ utf8Len clause := utf8Len_clauseValue_le clause
  have hpart := utf8Len_le_of_mem_filled hclause
  apply hread.body.within
  rw [String.utf8ByteSize_ofList]
  omega

/-- Limits that are no less than the length of the header admit it. -/
theorem admit_of_le (h : Means header directives)
    (hlength : header.utf8ByteSize ≤ limits.headerLength)
    (hcount : header.utf8ByteSize ≤ limits.directives)
    (hsources : header.utf8ByteSize ≤ limits.sources) : limits.Admit header directives where
  size := hlength
  count := h.length_le.trans hcount
  sources := h.within hsources

theorem admit_unbounded (h : Means header directives)
    (hsize : header.utf8ByteSize ≤ Limits.greatest) : Limits.unbounded.Admit header directives :=
  h.admit_of_le hsize hsize hsize

end Means

end Policy

end ContentSecurity

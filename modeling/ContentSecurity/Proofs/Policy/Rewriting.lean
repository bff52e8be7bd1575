import ContentSecurity.Proofs.Directive.Respelling
import ContentSecurity.Proofs.Policy.RoundTrip
/-!
# Rewriting headers

A header may be rewritten clause by clause, and empty pieces may be put in and taken out, without a
change of its meaning.  `KeepsMeaning` says so of the whole text, up to the equivalence of its
directives, and from it the policies that are read are equivalent and are written alike
(`KeepsMeaning.parse`).
-/

namespace ContentSecurity.Policy

open Text Grammar Directive

variable {text other front back gap : List Char} {header : String}
variable {directives others : List Directive}

/-! ### Where a clause stands -/

/-- A clause may begin behind this text: it is empty, or ends with a semicolon. -/
def Opens (front : List Char) : Prop :=
  front = [] ∨ ∃ lead, front = lead ++ [';']

/-- A clause may end in front of this text: it is empty, or starts with a semicolon. -/
def Closes (back : List Char) : Prop :=
  back = [] ∨ ∃ tail, back = ';' :: tail

theorem segments_append_semicolon (text other : List Char) :
    segments (text ++ ';' :: other) = segments text ++ segments other := by
  rw [segments, List.splitOn_append_cons_self, List.map_append]
  rfl

@[simp] theorem segments_nil : segments [] = [[]] := by
  rw [segments_of_forall (by simp), trimmed_of_forall (by simp)]

theorem segments_cons_semicolon (text : List Char) :
    segments (';' :: text) = [] :: segments text := by
  have hcut := segments_append_semicolon [] text
  rwa [segments_nil] at hcut

theorem segments_ne_nil (text : List Char) : segments text ≠ [] := by
  rw [segments, List.splitOn_eq_splitOnP]
  simp

theorem Opens.exists_segments (h : Opens front) :
    ∃ before, ∀ text : List Char, segments (front ++ text) = before ++ segments text := by
  rcases h with rfl | ⟨lead, rfl⟩
  · exact ⟨[], fun text => rfl⟩
  · refine ⟨segments lead, fun text => ?_⟩
    rw [List.append_assoc, List.singleton_append, segments_append_semicolon]

theorem Closes.exists_segments (h : Closes back) :
    ∃ after, ∀ text : List Char, segments (text ++ back) = segments text ++ after := by
  rcases h with rfl | ⟨tail, rfl⟩
  · exact ⟨[], fun text => by rw [List.append_nil, List.append_nil]⟩
  · exact ⟨segments tail, fun text => segments_append_semicolon text tail⟩

/-- A piece is one of the segments, and the others do not depend on it. -/
theorem exists_segments_piece (hopen : Opens front) (hclose : Closes back) :
    ∃ before after, ∀ piece : List Char, (∀ c ∈ piece, c ≠ ';') →
      segments (front ++ (piece ++ back)) = before ++ trimmed isBlank piece :: after := by
  obtain ⟨before, hbefore⟩ := hopen.exists_segments
  obtain ⟨after, hafter⟩ := hclose.exists_segments
  refine ⟨before, after, fun piece hfree => ?_⟩
  rw [hbefore, hafter, segments_of_forall hfree, List.singleton_append]

/-- The last piece of a text. -/
theorem exists_last_piece (text : List Char) :
    ∃ front piece, text = front ++ piece ∧ Opens front ∧ ∀ c ∈ piece, c ≠ ';' := by
  induction text using List.reverseRecOn with
  | nil => exact ⟨[], [], rfl, Or.inl rfl, by simp⟩
  | append_singleton text c ih =>
    obtain ⟨front, piece, rfl, hopen, hfree⟩ := ih
    by_cases hc : c = ';'
    · exact ⟨front ++ piece ++ [c], [], by simp, Or.inr ⟨front ++ piece, by rw [hc]⟩, by simp⟩
    · refine ⟨front, piece ++ [c], by simp, hopen, ?_⟩
      rw [List.forall_mem_append]
      exact ⟨hfree, by simpa using hc⟩

theorem segments_append_right (h : ∀ c ∈ gap, isBlank c) :
    segments (text ++ gap) = segments text := by
  obtain ⟨front, piece, rfl, hopen, hfree⟩ := exists_last_piece text
  have hclose : Closes [] := Or.inl rfl
  obtain ⟨before, after, hpieces⟩ := exists_segments_piece hopen hclose
  have hfree' : ∀ c ∈ piece ++ gap, c ≠ ';' :=
    List.forall_mem_append.mpr ⟨hfree, fun c hc => ne_semicolon_of_isBlank (h c hc)⟩
  have hlonger := hpieces (piece ++ gap) hfree'
  rw [trimmed_append_right h, ← hpieces piece hfree] at hlonger
  simpa using hlonger

/-! ### Keeping the meaning -/

/-- What is read from one clause is read from the other, up to equivalence. -/
def Reread (clause other : List Char) : Prop :=
  ∀ directive, ReadClause clause directive →
    ∃ respelled, ReadClause other respelled ∧ directive ≈ respelled

theorem Reread.refl (clause : List Char) : Reread clause clause :=
  fun directive h => ⟨directive, h, Setoid.refl directive⟩

/-- An outline stays one with another clause in the place of a piece. -/
theorem IsOutline.replace {before after : List (List Char)} {piece clause : List Char}
    (h : IsOutline (before ++ piece :: after)) (hclause : IsClause clause) :
    IsOutline (before ++ clause :: after) := by
  cases before with
  | nil => exact ⟨hclause, h.2⟩
  | cons first before =>
    simp only [List.cons_append, IsOutline, List.forall_mem_append, List.forall_mem_cons] at h ⊢
    exact ⟨h.1, h.2.1, Or.inr hclause, h.2.2.2⟩

/-- An empty piece behind the first one makes no difference to an outline. -/
theorem isOutline_append_nil {before after : List (List Char)} (hne : before ≠ []) :
    IsOutline (before ++ [] :: after) ↔ IsOutline (before ++ after) := by
  obtain ⟨first, before, rfl⟩ := List.exists_cons_of_ne_nil hne
  simp only [List.cons_append, IsOutline, List.forall_mem_append, List.forall_mem_cons, true_or,
    true_and]

/-- What one text means as a header, the other means as well, up to equivalence. -/
def KeepsMeaning (text other : List Char) : Prop :=
  ∀ directives, Means (.ofList text) directives →
    ∃ others, Means (.ofList other) others ∧
      directives.map Directive.plain = others.map Directive.plain

theorem means_iff : Means (.ofList text) directives ↔
    IsOutline (segments text) ∧
      List.Forall₂ ReadClause ((segments text).filter (!·.isEmpty)) directives := by
  have hclauses : clauses (.ofList text) = segments text := by
    rw [clauses, String.toList_ofList]
  constructor
  · intro h
    exact ⟨hclauses ▸ h.outline, hclauses ▸ h.reads⟩
  · intro h
    exact ⟨hclauses.symm ▸ h.1, by rw [filled, hclauses]; exact h.2⟩

namespace KeepsMeaning

theorem refl (text : List Char) : KeepsMeaning text text :=
  fun directives h => ⟨directives, h, rfl⟩

theorem trans {last : List Char} (h : KeepsMeaning text other) (hlast : KeepsMeaning other last) :
    KeepsMeaning text last := by
  intro directives hmeans
  obtain ⟨others, hothers, hplain⟩ := h directives hmeans
  obtain ⟨lasts, hlasts, hplain'⟩ := hlast others hothers
  exact ⟨lasts, hlasts, hplain.trans hplain'⟩

/-- What each step keeps, a run of steps keeps. -/
theorem of_run {step : List Char → List Char → Prop}
    (hstep : ∀ {text other}, step text other → KeepsMeaning text other)
    (h : Relation.ReflTransGen step text other) : KeepsMeaning text other := by
  induction h with
  | refl => exact refl text
  | tail _ hlast ih => exact ih.trans (hstep hlast)

theorem of_segments_eq (h : segments other = segments text) : KeepsMeaning text other := by
  intro directives hmeans
  rw [means_iff, ← h, ← means_iff] at hmeans
  exact refl other directives hmeans

/-- **A clause may be replaced by one that keeps its meaning.** -/
theorem of_piece {piece piece' : List Char} (hopen : Opens front) (hclose : Closes back)
    (hfree : ∀ c ∈ piece, c ≠ ';') (hfree' : ∀ c ∈ piece', c ≠ ';')
    (hne : trimmed isBlank piece ≠ [])
    (h : Keeps (trimmed isBlank piece) (trimmed isBlank piece')) :
    KeepsMeaning (front ++ (piece ++ back)) (front ++ (piece' ++ back)) := by
  obtain ⟨before, after, hpieces⟩ := exists_segments_piece hopen hclose
  intro directives hmeans
  rw [means_iff, hpieces piece hfree] at hmeans
  simp only [means_iff, hpieces piece' hfree']
  rcases hmeans with ⟨houtline, hreads⟩
  have hclause : IsClause (trimmed isBlank piece) :=
    (houtline.eq_nil_or_isClause (by simp)).resolve_left hne
  obtain ⟨hclause', hread⟩ := h hclause
  have hne' := ne_nil_of_isClause hclause'
  have hothers : ∀ pieces : List (List Char), List.Forall₂ Reread pieces pieces :=
    fun pieces => List.forall₂_same.mpr fun _ _ => Reread.refl _
  have hreread : List.Forall₂ Reread
      ((before ++ trimmed isBlank piece :: after).filter (!·.isEmpty))
      ((before ++ trimmed isBlank piece' :: after).filter (!·.isEmpty)) := by
    rw [List.filter_append, List.filter_append, List.filter_cons_of_pos (by simpa using hne),
      List.filter_cons_of_pos (by simpa using hne')]
    exact List.rel_append (hothers _) (.cons hread (hothers _))
  obtain ⟨others, hothers, halike⟩ := exists_forall₂_of_forall₂ hreread hreads
    fun clause clause' directive hreread hread => hreread directive hread
  exact ⟨others, ⟨houtline.replace hclause', hothers⟩, forall₂_eq_iff_map_eq.mp halike⟩

/-- The name of a clause may be written in other letter case, and its value may be respelled. -/
theorem of_respells {before name name' tail tail' : List Char} (hopen : Opens front)
    (hclose : Closes back) (hfree : ∀ c ∈ before ++ (name ++ tail), c ≠ ';')
    (hfree' : ∀ c ∈ before ++ (name' ++ tail'), c ≠ ';') (hbefore : ∀ c ∈ before, isBlank c)
    (hne : name ≠ []) (hname : ∀ c ∈ name, isNameChar c) (hstop : Stops isNameChar tail)
    (hletters : SameLetters name name') (htail : IsTail tail → IsTail tail')
    (hvalue : Respells (Kind.ofName? (String.ofList name).toLower) (trimmed isBlank tail)
      (trimmed isBlank tail')) :
    KeepsMeaning (front ++ (before ++ (name ++ tail) ++ back))
      (front ++ (before ++ (name' ++ tail') ++ back)) :=
  of_piece hopen hclose hfree hfree' (trimmed_clause_ne_nil hbefore hne hname)
    (Keeps.of_respells hbefore hne hname hstop hletters htail hvalue)

/-- Behind the name of a kind the value may be respelled. -/
theorem of_value {kind : Kind} {before name gap gap' value value' : List Char} (hopen : Opens front)
    (hclose : Closes back) (hfree : ∀ c ∈ before ++ (name ++ (gap ++ value)), c ≠ ';')
    (hfree' : ∀ c ∈ before ++ (name ++ (gap' ++ value')), c ≠ ';')
    (hbefore : ∀ c ∈ before, isBlank c) (hname : (String.ofList name).toLower = kind.name)
    (hgne : gap ≠ []) (hgap : ∀ c ∈ gap, isBlank c) (hgne' : gap' ≠ [])
    (hgap' : ∀ c ∈ gap', isBlank c)
    (hvisible : (∀ c ∈ value, isBlank c ∨ isValueChar c) → ∀ c ∈ value', isBlank c ∨ isValueChar c)
    (hvalue : Respells (some kind) (trimmed isBlank value) (trimmed isBlank value')) :
    KeepsMeaning (front ++ (before ++ (name ++ (gap ++ value)) ++ back))
      (front ++ (before ++ (name ++ (gap' ++ value')) ++ back)) := by
  obtain ⟨hne, hchars⟩ := Kind.name_of_toLower hname
  refine of_respells hopen hclose hfree hfree' hbefore hne hchars
    ((stops_isNameChar_of_isBlank hgap).append_left hgne) rfl ?_ ?_
  · rw [isTail_append_iff hgne hgap, isTail_append_iff hgne' hgap']
    exact hvisible
  · rw [hname, Kind.ofName?_eq_some_iff.mpr rfl, trimmed_append_left hgap,
      trimmed_append_left hgap']
    exact hvalue

/-- An empty piece, other than the first, may be put in. -/
theorem of_empty_added {before after : List (List Char)} (hne : before ≠ [])
    (htext : segments text = before ++ after) (hother : segments other = before ++ [] :: after) :
    KeepsMeaning text other := by
  intro directives hmeans
  rw [means_iff, htext] at hmeans
  refine ⟨directives, ?_, rfl⟩
  rw [means_iff, hother, isOutline_append_nil hne]
  simpa using hmeans

/-- An empty piece may be taken out, since it is not the first one. -/
theorem of_empty_removed {before after : List (List Char)}
    (htext : segments text = before ++ [] :: after) (hother : segments other = before ++ after) :
    KeepsMeaning text other := by
  intro directives hmeans
  rw [means_iff, htext] at hmeans
  have hne : before ≠ [] := by
    rintro rfl
    exact ne_nil_of_isClause hmeans.1.1 rfl
  rw [isOutline_append_nil hne] at hmeans
  refine ⟨directives, ?_, rfl⟩
  rw [means_iff, hother]
  simpa using hmeans

end KeepsMeaning

/-! ### Policies that mean the same -/

theorem plain_prepend (policy : Policy) (directive : Directive) (place : Placement) :
    (policy.prepend directive place).plain = policy.plain.prepend directive.plain place := by
  cases place <;> rfl

theorem placement_plain (seen : List String) (directive : Directive) :
    directive.plain.placement seen = directive.placement seen := by
  have hother : directive.plain.isOther = directive.isOther := Body.isOther_plain directive.body
  have hname : directive.plain.name = directive.name := rfl
  rw [Directive.placement, Directive.placement, hother, hname]

/-- Plain forms are put in the same places. -/
theorem plain_place (seen : List String) (directives : List Directive) :
    (place seen directives).plain = place seen (directives.map Directive.plain) := by
  induction directives generalizing seen with
  | nil => rfl
  | cons directive rest ih =>
    rw [place, plain_prepend, ih, List.map_cons, place, placement_plain]
    rfl

theorem render_eq_of_equiv {policy other : Policy} (h : policy ≈ other) :
    policy.render = other.render := by
  have hplain : policy.plain = other.plain := h
  rw [← render_plain, hplain, render_plain]

/-- **A header that keeps the meaning is read as an equivalent policy**, which is written alike. -/
theorem KeepsMeaning.parse {header other : String} {policy : Policy}
    (hkeeps : KeepsMeaning header.toList other.toList)
    (h : (parse .unbounded header.toUTF8).result = .ok policy)
    (hsize : other.utf8ByteSize ≤ Limits.greatest) :
    ∃ read, (Policy.parse .unbounded other.toUTF8).result = .ok read ∧ read ≈ policy ∧
      read.render = policy.render := by
  obtain ⟨text, directives, htext, hmeans, -, rfl⟩ := parse_eq_ok_iff.mp h
  obtain rfl := String.toByteArray_inj.mp htext
  rw [← String.ofList_toList (s := header)] at hmeans
  obtain ⟨others, hothers, hplain⟩ := hkeeps directives hmeans
  rw [String.ofList_toList] at hothers
  have hequiv : ofDirectives others ≈ ofDirectives directives := by
    change (ofDirectives others).plain = (ofDirectives directives).plain
    rw [ofDirectives, ofDirectives, plain_place, plain_place, hplain]
  refine ⟨_, parse_eq_ok_iff.mpr ⟨other, others, rfl, hothers, hothers.admit_unbounded hsize, rfl⟩,
    hequiv, render_eq_of_equiv hequiv⟩

end ContentSecurity.Policy

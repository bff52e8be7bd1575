import ContentSecurity.Proofs.Directive.Clause
import ContentSecurity.Proofs.Directive.WellFormed
/-!
# The canonical text of directives

The canonical text of a well-formed directive is a clause, and means the plain form of the
directive (`WellFormed.readClause_text`).  A clause that means a directive is at least as long as
the canonical text of the directive (`ReadClause.utf8ByteSize_text_le`).
-/

namespace ContentSecurity

open Text Grammar
open String (utf8Len)

namespace Directive

variable {limits : Limits} {value written : String} {directive : Directive}

namespace Body

variable {body : Body}

/-! ### Plain values -/

theorem text_plain (source : Source) : source.plain.text = source.text := by
  cases source <;> rfl

theorem plain_plain (source : Source) : source.plain.plain = source.plain := by
  cases source <;> rfl

theorem text_plain_written (written : String) (body : Body) :
    body.plain.text written = body.text written := by
  cases body with
  | sourceList kind sources =>
    have hmap : (sources.map Source.plain).map Source.text = sources.map Source.text := by
      rw [List.map_map]
      exact List.map_congr_left fun source _ => text_plain source
    simp only [plain, text, hmap]
  | _ => rfl

theorem text_plain_text (written : String) (body : Body) :
    body.plain.text (body.text written) = body.text written := by
  rw [text_plain_written]
  cases body <;> rfl

theorem plain_idem (body : Body) : body.plain.plain = body.plain := by
  cases body with
  | sourceList kind sources =>
    simp only [plain, List.map_map]
    congr 1
    exact List.map_congr_left fun source _ => plain_plain source
  | _ => rfl

theorem kind?_plain (body : Body) : body.plain.kind? = body.kind? := by
  cases body <;> rfl

theorem isOther_plain (body : Body) : body.plain.isOther = body.isOther := by
  cases body <;> rfl

/-- There are as many sources in canonical form. -/
theorem Within.plain (h : body.Within limits) : body.plain.Within limits := by
  cases body with
  | sourceList kind sources =>
    rcases h with rfl | hlength
    · exact Or.inl rfl
    · exact Or.inr (by rwa [List.length_map])
  | _ => trivial

/-! ### Lengths -/

/-- **The canonical text of a value is no longer than the text that it was read from.** -/
theorem ReadFrom.utf8ByteSize_text_le (h : body.ReadFrom value) :
    (body.text value).utf8ByteSize ≤ value.utf8ByteSize := by
  cases body with
  | sourceList kind sources =>
    rcases h with ⟨rfl, rfl⟩ | hspelled
    · exact Nat.le_refl _
    · apply hspelled.utf8ByteSize_joined_le
      rintro token source ⟨e, -, hwritten, rfl⟩
      exact (hwritten.utf8ByteSize_text.trans (String.utf8ByteSize_ofList token)).le
  | sandbox tokens =>
    have hjoined : (joined (tokens.map id)).utf8ByteSize ≤ _ :=
      SpellsAll.utf8ByteSize_joined_le h fun hspells => hspells.utf8ByteSize_eq.le
    rwa [List.map_id] at hjoined
  | reportUri uris =>
    have hjoined : (joined (uris.map id)).utf8ByteSize ≤ _ :=
      h.2.utf8ByteSize_joined_le fun hspells => hspells.utf8ByteSize_eq.le
    rwa [List.map_id] at hjoined
  | reportTo group =>
    obtain rfl : group = value := h
    exact Nat.le_refl _
  | requireSriFor resources =>
    obtain rfl : resources = (fields (· == ' ') value).map String.toLower := h
    rw [text, ← String.utf8Len_toList, ← String.utf8Len_toList, toList_joined_fields,
      utf8Len_map_toLower]
    exact utf8Len_spaced_le (List.forall₂_same.mpr fun _ _ => Nat.le_refl _)
  | trustedTypes entries =>
    exact SpellsAll.utf8ByteSize_joined_le h fun hspells => hspells.utf8ByteSize_text.le
  | requireTrustedTypesFor groups =>
    exact h.2.utf8ByteSize_joined_le fun hspells => hspells.utf8ByteSize_quotedText.le
  | webrtc choice =>
    obtain rfl : value = choice.name := h
    exact Nat.le_refl _
  | upgradeInsecureRequests => exact Nat.zero_le _
  | blockAllMixedContent => exact Nat.zero_le _
  | other => exact Nat.le_refl _

theorem ReadFrom.within (h : body.ReadFrom value) (hsize : value.utf8ByteSize ≤ limits.sources) :
    body.Within limits := by
  cases body with
  | sourceList kind sources =>
    rcases h with ⟨-, hnone⟩ | hspelled
    · exact Or.inl hnone
    · exact Or.inr (hspelled.length_le.trans hsize)
  | _ => trivial

end Body

/-! ### Names -/

theorem Kind.isName (kind : Kind) : IsName kind.name := by
  have hname : ∀ kind : Kind, kind.name ≠ "" ∧
      ∀ c ∈ kind.name.toList, isNameChar c ∧ c.isUpper = false := by
    intro kind
    cases kind with
    | sourceList list => cases list <;> decide
    | _ => decide
  obtain ⟨hne, hall⟩ := hname kind
  refine ⟨Lexeme.mem_language_directiveName.mpr ⟨?_, fun c hc => (hall c hc).1⟩,
    fun c hc => (hall c hc).2⟩
  intro hnil
  exact hne (String.toList_eq_nil_iff.mp hnil)

theorem ListKind.toLower_name (kind : ListKind) : kind.name.toLower = kind.name :=
  toLower_eq_self (Kind.isName (.sourceList kind)).2

theorem isName_toLower {name : String} (h : Lexeme.directiveName.Matches name) :
    IsName name.toLower := by
  obtain ⟨hne, hall⟩ := Lexeme.mem_language_directiveName.mp h
  constructor
  · apply Lexeme.mem_language_directiveName.mpr
    rw [toList_toLower, List.forall_mem_map]
    exact ⟨by simpa using hne, fun c hc => by rw [isNameChar_toLower]; exact hall c hc⟩
  · intro c hc
    exact isUpper_eq_false_of_mem_toLower hc

theorem WellFormed.isName (h : directive.WellFormed) : IsName directive.name := by
  cases hkind : directive.body.kind? with
  | none => exact h.name (Body.isOther_iff.mpr hkind)
  | some kind =>
    have hname := h.kind_eq
    rw [hkind] at hname
    rw [Kind.ofName?_eq_some_iff.mp hname]
    exact kind.isName

/-! ### Clauses -/

/-- **What a clause means is well-formed.** -/
theorem wellFormed_of_readClause {clause : List Char} (h : ReadClause clause directive)
    (hclause : IsClause clause) (hbare : Bare isBlank clause) : directive.WellFormed := by
  obtain ⟨hname, hcases⟩ := clause_cases hclause hbare
  have hvalue : IsValue (.ofList (clauseValue clause)) := by
    rcases hcases with ⟨-, hnil⟩ | ⟨gap, -, -, hmem⟩
    · rw [hnil]
      exact Or.inl rfl
    · exact Or.inr (by simpa [Lexeme.Matches] using hmem)
  have hraw : Lexeme.directiveName.Matches (.ofList (clauseName clause)) := by
    simpa [Lexeme.Matches] using hname
  refine ⟨h.kind_eq, fun _ => ?_, ?_⟩
  · rw [h.name_eq]
    exact isName_toLower hraw
  · rw [h.rawValue_eq]
    exact h.body.wellFormed hvalue

theorem toList_text_of_eq (h : directive.value = "") :
    directive.text.toList = directive.name.toList := by
  rw [text, h, if_pos (by decide)]

theorem toList_text_of_ne (h : directive.value ≠ "") :
    directive.text.toList = directive.name.toList ++ ([' '] ++ directive.value.toList) := by
  rw [text, if_neg (by simpa using h)]
  simp

theorem utf8ByteSize_text_le_add (directive : Directive) :
    directive.text.utf8ByteSize ≤
      directive.name.utf8ByteSize + 1 + directive.value.utf8ByteSize := by
  have hspace : " ".utf8ByteSize = 1 := by decide
  unfold text
  split
  · omega
  · rw [String.utf8ByteSize_append, String.utf8ByteSize_append, hspace]

theorem value_plain (directive : Directive) : directive.plain.value = directive.value :=
  Body.text_plain_text directive.rawValue directive.body

theorem text_plain (directive : Directive) : directive.plain.text = directive.text := by
  rw [text, text, value_plain]
  rfl

theorem plain_plain (directive : Directive) : directive.plain.plain = directive.plain := by
  have hvalue := value_plain directive
  have hbody := Body.plain_idem directive.body
  unfold plain at *
  simp only [hvalue, hbody]

theorem WellFormed.readFrom_plain (h : directive.WellFormed) :
    directive.plain.ReadFrom directive.name directive.value where
  name_eq := (toLower_eq_self h.isName.2).symm
  rawName_eq := rfl
  rawValue_eq := rfl
  kind_eq := h.kind_eq.trans (Body.kind?_plain directive.body).symm
  body := h.body.readFrom_text.1

theorem WellFormed.isValue (h : directive.WellFormed) : IsValue directive.value :=
  h.body.readFrom_text.2

/-- **The canonical text of a well-formed directive is a clause, and means its plain form.** -/
theorem WellFormed.readClause_text (h : directive.WellFormed) :
    IsClause directive.text.toList ∧ Bare isBlank directive.text.toList ∧
      (∀ c ∈ directive.text.toList, isBlank c ∨ isValueChar c) ∧
      ReadClause directive.text.toList directive.plain := by
  have hname := h.isName.1
  have hvisible := forall_isValueChar_of_name hname
  have hbare : Bare isBlank directive.name.toList :=
    bare_of_forall (isBlank_eq_false_of_forall hvisible)
  unfold ReadClause
  by_cases hempty : directive.value = ""
  · obtain ⟨hclauseName, hclauseValue⟩ := clause_parts_of_name hname
    rw [toList_text_of_eq hempty, hclauseName, hclauseValue, String.ofList_toList,
      String.ofList_nil, ← hempty]
    exact ⟨isClause_of_name hname, hbare, fun c hc => Or.inr (hvisible c hc), h.readFrom_plain⟩
  · have hvalue : directive.value.toList ∈ Lexeme.directiveValue.language :=
      h.isValue.resolve_left hempty
    have hblank : ∀ c ∈ [' '], isBlank c := by decide
    obtain ⟨hvne, hall, hbareValue⟩ := Lexeme.mem_language_directiveValue.mp hvalue
    obtain ⟨hne, -⟩ := Lexeme.mem_language_directiveName.mp hname
    obtain ⟨hclauseName, hclauseValue⟩ := clause_parts hname (by simp) hblank hvalue
    rw [toList_text_of_ne hempty, hclauseName, hclauseValue, String.ofList_toList,
      String.ofList_toList]
    refine ⟨isClause_of_value hname (by simp) hblank hvalue, ?_, ?_, h.readFrom_plain⟩
    · rw [← List.append_assoc]
      exact hbare.append hbareValue hne hvne
    · simp only [List.forall_mem_append]
      exact ⟨fun c hc => Or.inr (hvisible c hc), fun c hc => Or.inl (hblank c hc), hall⟩

theorem utf8Len_clauseValue_le (clause : List Char) :
    utf8Len (clauseValue clause) ≤ utf8Len clause := by
  have hcut : clause.takeWhile isNameChar ++ clause.dropWhile isNameChar = clause :=
    List.takeWhile_append_dropWhile
  have hsize := congrArg utf8Len hcut
  have htrimmed := utf8Len_trimmed_le isBlank (clause.dropWhile isNameChar)
  rw [String.utf8Len_append] at hsize
  rw [clauseValue]
  omega

/-- **The canonical text of a directive is no longer than the clause that it was read from.** -/
theorem ReadClause.utf8ByteSize_text_le {clause : List Char} (h : ReadClause clause directive)
    (hclause : IsClause clause) (hbare : Bare isBlank clause) :
    directive.text.utf8ByteSize ≤ utf8Len clause := by
  obtain ⟨-, hcases⟩ := clause_cases hclause hbare
  have hname : directive.name.utf8ByteSize = utf8Len (clauseName clause) := by
    rw [h.name_eq, utf8ByteSize_toLower, String.utf8ByteSize_ofList]
  have hvalue : directive.value.utf8ByteSize ≤ utf8Len (clauseValue clause) := by
    rw [value, h.rawValue_eq, ← String.utf8ByteSize_ofList]
    exact h.body.utf8ByteSize_text_le
  rcases hcases with ⟨heq, hnil⟩ | ⟨gap, heq, hgne, -⟩
  · rw [hnil, String.utf8Len_nil, Nat.le_zero, String.utf8ByteSize_eq_zero_iff] at hvalue
    rw [← String.utf8Len_toList, toList_text_of_eq hvalue, String.utf8Len_toList, hname, ← heq]
  · have hsize := congrArg utf8Len heq
    have htext := utf8ByteSize_text_le_add directive
    have hgap := utf8Len_pos hgne
    rw [String.utf8Len_append, String.utf8Len_append] at hsize
    omega

end Directive

end ContentSecurity

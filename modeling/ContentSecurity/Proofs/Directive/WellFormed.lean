import ContentSecurity.Proofs.Directive.Values
/-!
# Well-formed directives

A directive is well-formed if its name and its value belong together and every part of the value
is a text of its rule.  What is read is well-formed, and what is well-formed is read again from its
canonical text; the text only gets shorter on the way.
-/

namespace ContentSecurity

open Text Grammar
open String (utf8Len)

/-- The text is empty or the value of a directive. -/
def IsValue (text : String) : Prop :=
  text = "" ∨ Lexeme.directiveValue.Matches text

theorem isValue_iff {text : String} :
    IsValue text ↔
      (∀ c ∈ text.toList, isBlank c ∨ isValueChar c) ∧ Bare isBlank text.toList := by
  unfold IsValue
  by_cases hempty : text = ""
  · simp [hempty]
  · have hne : text.toList ≠ [] := fun hnil => hempty (String.toList_eq_nil_iff.mp hnil)
    rw [Lexeme.Matches, Lexeme.mem_language_directiveValue]
    simp [hempty]

/-! ### Joined items -/

section Joined

variable {β γ : Type} {spells : List Char → γ → Prop}
variable {value : String} {bs : List β} {items : List String}

theorem toList_joined (items : List String) :
    (Directive.Body.joined items).toList = spaced (items.map String.toList) :=
  String.toList_intercalate

theorem isValue_of_visible {text : String} (h : ∀ c ∈ text.toList, isValueChar c) : IsValue text :=
  isValue_iff.mpr ⟨fun c hc => Or.inr (h c hc), bare_of_forall (isBlank_eq_false_of_forall h)⟩

theorem isValue_joined (h : ∀ item ∈ items, item.toList ≠ [] ∧ ∀ c ∈ item.toList, isValueChar c) :
    IsValue (Directive.Body.joined items) := by
  rw [isValue_iff, toList_joined]
  constructor
  · apply forall_mem_spaced
    · exact Or.inl (by decide)
    · rw [List.forall_mem_map]
      intro item hitem c hc
      exact Or.inr ((h item hitem).2 c hc)
  · apply bare_spaced
    rw [List.forall_mem_map]
    intro item hitem
    exact ⟨(h item hitem).1, isBlank_eq_false_of_forall (h item hitem).2⟩

/-- Joined words spell their values one by one, and make up a value. -/
theorem spellsAll_joined {text : β → String} {f : β → γ}
    (h : ∀ b ∈ bs, spells (text b).toList (f b))
    (hvisible : ∀ {token : List Char} {c : γ}, spells token c →
      token ≠ [] ∧ ∀ c ∈ token, isValueChar c) :
    SpellsAll spells (Directive.Body.joined (bs.map text)) (bs.map f) ∧
      IsValue (Directive.Body.joined (bs.map text)) := by
  have hwords : ∀ item ∈ (bs.map text).map String.toList,
      item ≠ [] ∧ ∀ c ∈ item, isBlank c = false := by
    rw [List.map_map, List.forall_mem_map]
    intro b hb
    obtain ⟨hne, hall⟩ := hvisible (h b hb)
    exact ⟨hne, isBlank_eq_false_of_forall hall⟩
  constructor
  · unfold SpellsAll
    rw [toList_joined]
    refine ⟨bare_spaced hwords, ?_⟩
    rw [words_spaced (by decide) hwords, List.map_map, List.forall₂_map_left_iff,
      List.forall₂_map_right_iff, List.forall₂_same]
    exact h
  · apply isValue_joined
    rw [List.forall_mem_map]
    intro b hb
    exact hvisible (h b hb)

theorem SpellsAll.exists_of_mem {c : γ} {cs : List γ} (h : SpellsAll spells value cs)
    (hc : c ∈ cs) : ∃ token, spells token c := by
  obtain ⟨token, -, hspells⟩ := exists_of_forall₂ h.2 hc
  exact ⟨token, hspells⟩

theorem SpellsAll.utf8ByteSize_joined_le {text : γ → String} {cs : List γ}
    (h : SpellsAll spells value cs)
    (hsize : ∀ {token : List Char} {c : γ}, spells token c →
      (text c).utf8ByteSize ≤ utf8Len token) :
    (Directive.Body.joined (cs.map text)).utf8ByteSize ≤ value.utf8ByteSize := by
  rw [← String.utf8Len_toList, ← String.utf8Len_toList, toList_joined, List.map_map]
  apply utf8Len_spaced_le
  rw [List.forall₂_map_right_iff]
  refine h.2.imp fun token c hspells => ?_
  rw [Function.comp_apply, String.utf8Len_toList]
  exact hsize hspells

theorem SpellsAll.length_le {cs : List γ} (h : SpellsAll spells value cs) :
    cs.length ≤ value.utf8ByteSize := by
  rw [← String.utf8Len_toList, ← h.2.length_eq]
  exact length_words_le _ _

end Joined

/-! ### Trusted types -/

namespace TrustedType

/-- Every part of an entry is a text of its rule. -/
def WellFormed : TrustedType → Prop
  | .policyName name => Lexeme.trustedTypesPolicyName.Matches name
  | .keyword word => word ∈ trustedTypesKeywords
  | .wildcard => True

variable {entry : TrustedType} {token : List Char}

theorem WrittenAs.wellFormed (h : entry.WrittenAs token) : entry.WellFormed := by
  cases entry with
  | policyName name => exact h.1
  | keyword word => exact h.1
  | wildcard => trivial

theorem WellFormed.writtenAs_text (h : entry.WellFormed) : entry.WrittenAs entry.text.toList := by
  cases entry with
  | policyName name => exact ⟨h, rfl⟩
  | keyword word =>
    refine ⟨h, ?_⟩
    rw [String.ofList_toList]
    exact toLower_eq_self (isUpper_eq_false_of_trustedTypesKeyword word h)
  | wildcard => rfl

theorem WrittenAs.utf8ByteSize_text (h : entry.WrittenAs token) :
    entry.text.utf8ByteSize = utf8Len token := by
  cases entry with
  | policyName name => rw [h.2, String.utf8Len_toList, text]
  | keyword word =>
    rw [← String.utf8ByteSize_ofList, ← utf8ByteSize_toLower (.ofList token), h.2]
    rfl
  | wildcard =>
    obtain rfl : token = ['*'] := h
    rfl

end TrustedType

namespace Directive

/-! ### Well-formed values -/

/-- The name of a directive in small letters. -/
def IsName (name : String) : Prop :=
  Lexeme.directiveName.Matches name ∧ ∀ c ∈ name.toList, c.isUpper = false

/-- A source with a meaning that is well-formed and that this kind of list allows. -/
def ListKind.Holds (kind : ListKind) (source : Source) : Prop :=
  ∃ e, source.expression? = some e ∧ kind.Allows e ∧ e.WellFormed

/-- A resource is not empty, has no spaces and no capitals. -/
def IsResource (resource : String) : Prop :=
  resource ≠ "" ∧ ∀ c ∈ resource.toList, c ≠ ' ' ∧ c.isUpper = false

namespace Body

/-- Every part of the value is a text of its rule; what is not understood is the value as it is
`written`. -/
def WellFormed (written : String) : Body → Prop
  | .sourceList kind sources => sources = [.none] ∨ ∀ source ∈ sources, kind.Holds source
  | .sandbox tokens => ∀ token ∈ tokens, Lexeme.sandboxToken.Matches token
  | .reportUri uris => uris ≠ [] ∧ ∀ uri ∈ uris, Lexeme.uriReference.Matches uri
  | .reportTo group => IsValue group
  | .requireSriFor resources =>
    (∀ resource ∈ resources, IsResource resource) ∧ IsValue (joined resources)
  | .trustedTypes entries => ∀ entry ∈ entries, entry.WellFormed
  | .requireTrustedTypesFor groups => groups ≠ [] ∧ ∀ group ∈ groups, group ∈ sinkGroups
  | .webrtc _ | .upgradeInsecureRequests | .blockAllMixedContent => True
  | .other => IsValue written

/-! ### Resources -/

theorem toList_joined_fields (value : String) :
    (joined ((fields (· == ' ') value).map String.toLower)).toList =
      (spaced (words (· == ' ') value.toList)).map Char.toLower := by
  rw [toList_joined, fields_eq, List.map_map, List.map_map, ← spaced_map (by decide)]
  congr 1
  apply List.map_congr_left
  intro word _
  simp [toList_toLower]

theorem isValue_joined_fields {value : String} (h : IsValue value) :
    IsValue (joined ((fields (· == ' ') value).map String.toLower)) := by
  obtain ⟨hall, hbare⟩ := isValue_iff.mp h
  rw [isValue_iff, toList_joined_fields]
  constructor
  · rw [List.forall_mem_map]
    intro c hc
    rw [isBlank_toLower, isValueChar_toLower]
    revert c
    apply forall_mem_spaced
    · exact Or.inl (by decide)
    · intro word hword c hc
      exact hall c ((mem_words hword).2 c hc).1
  · by_cases hne : value.toList = []
    · simp [hne]
    · have hspaces : Bare (· == ' ') value.toList :=
        hbare.mono fun c hc => by simp [beq_iff_eq.mp hc, isBlank]
      obtain ⟨-, hhead, hlast⟩ := ends_spaced_words hne hspaces
      exact (hbare.of_ends hhead hlast).map isBlank_toLower

theorem isResource_of_mem_fields {value resource : String}
    (h : resource ∈ (fields (· == ' ') value).map String.toLower) : IsResource resource := by
  rw [fields_eq, List.map_map] at h
  obtain ⟨word, hword, rfl⟩ := List.mem_map.mp h
  obtain ⟨hne, hall⟩ := mem_words hword
  have hchars : ((String.ofList word).toLower).toList = word.map Char.toLower := by
    rw [toList_toLower, String.toList_ofList]
  constructor
  · intro hempty
    apply hne
    rwa [Function.comp_apply, ← String.toList_eq_nil_iff, hchars, List.map_eq_nil_iff] at hempty
  · rw [Function.comp_apply, hchars, List.forall_mem_map]
    intro c hc
    constructor
    · intro hspace
      have hc' : c = ' ' := eq_of_toLower_eq (d := ' ') hspace (by decide)
      simpa [hc'] using (hall c hc).2
    · apply isUpper_eq_false_of_mem_toLower
      rw [hchars]
      exact List.mem_map_of_mem hc

theorem fields_joined {resources : List String} (h : ∀ resource ∈ resources, IsResource resource) :
    (fields (· == ' ') (joined resources)).map String.toLower = resources := by
  have hwords : ∀ word ∈ resources.map String.toList,
      word ≠ [] ∧ ∀ c ∈ word, (c == ' ') = false := by
    rw [List.forall_mem_map]
    intro resource hresource
    obtain ⟨hne, hall⟩ := h resource hresource
    exact ⟨fun hnil => hne (String.toList_eq_nil_iff.mp hnil),
      fun c hc => by simpa using (hall c hc).1⟩
  rw [fields_eq, toList_joined, words_spaced (by decide) hwords, List.map_map, List.map_map]
  refine (List.map_congr_left fun resource hresource => ?_).trans (List.map_id _)
  simp only [Function.comp_apply, String.ofList_toList, id_eq]
  exact toLower_eq_self fun c hc => ((h resource hresource).2 c hc).2

/-! ### What is read is well-formed -/

theorem holds_of_spells {kind : ListKind} {token : List Char} {source : Source}
    (h : Source.Spells kind.Allows token source) : kind.Holds source := by
  rcases h with ⟨e, hallowed, hwritten, rfl⟩
  exact ⟨e, rfl, hallowed, hwritten.wellFormed⟩

variable {value written : String} {body : Body}

theorem ReadFrom.wellFormed (h : body.ReadFrom value) (hvalue : IsValue value) :
    body.WellFormed value := by
  cases body with
  | sourceList kind sources =>
    rcases h with ⟨-, hnone⟩ | hspelled
    · exact Or.inl hnone
    · refine Or.inr fun source hsource => ?_
      obtain ⟨token, hspells⟩ := hspelled.exists_of_mem hsource
      exact holds_of_spells hspells
  | sandbox tokens =>
    intro token htoken
    obtain ⟨word, hword⟩ := SpellsAll.exists_of_mem h htoken
    exact hword.matches
  | reportUri uris =>
    refine ⟨h.1, fun uri huri => ?_⟩
    obtain ⟨word, hword⟩ := h.2.exists_of_mem huri
    exact hword.matches
  | reportTo group =>
    obtain rfl : group = value := h
    exact hvalue
  | requireSriFor resources =>
    obtain rfl : resources = (fields (· == ' ') value).map String.toLower := h
    exact ⟨fun resource => isResource_of_mem_fields, isValue_joined_fields hvalue⟩
  | trustedTypes entries =>
    intro entry hentry
    obtain ⟨word, hword⟩ := SpellsAll.exists_of_mem h hentry
    exact hword.wellFormed
  | requireTrustedTypesFor groups =>
    refine ⟨h.1, fun group hgroup => ?_⟩
    obtain ⟨word, hword⟩ := h.2.exists_of_mem hgroup
    exact (isToken_sinkGroup_iff.mp hword).1
  | webrtc choice => trivial
  | upgradeInsecureRequests => trivial
  | blockAllMixedContent => trivial
  | other => exact hvalue

/-! ### What is well-formed is read again -/

theorem visible_of_spells {allows : Expression → Prop} {token : List Char} {source : Source}
    (h : Source.Spells allows token source) : token ≠ [] ∧ ∀ c ∈ token, isValueChar c := by
  rcases h with ⟨e, -, hwritten, -⟩
  have hne := hwritten.ne_nil
  have hvisible := hwritten.forall_isValueChar
  rw [String.toList_ofList] at hne hvisible
  exact ⟨hne, hvisible⟩

theorem spells_of_holds {kind : ListKind} {source : Source} (h : kind.Holds source) :
    Source.Spells kind.Allows source.text.toList source.plain := by
  rcases h with ⟨e, hmeaning, hallowed, hformed⟩
  cases source with
  | none => cases hmeaning
  | written raw expression =>
    obtain rfl : expression = e := Option.some.inj hmeaning
    refine ⟨expression, hallowed, ?_, ?_⟩
    · rw [Source.text, String.ofList_toList]
      exact hformed.writtenAs_text
    · rw [Source.text, String.ofList_toList]
      rfl

/-- **A well-formed value is read again from its canonical text**, which is a value. -/
theorem WellFormed.readFrom_text (h : body.WellFormed written) :
    body.plain.ReadFrom (body.text written) ∧ IsValue (body.text written) := by
  cases body with
  | sourceList kind sources =>
    rcases h with rfl | hholds
    · have hvisible : ∀ c ∈ Source.noneText.toList, isValueChar c := by decide
      exact ⟨Or.inl ⟨rfl, rfl⟩, isValue_of_visible hvisible⟩
    · have hspells : ∀ source ∈ sources,
          Source.Spells kind.Allows source.text.toList source.plain := by
        intro source hsource
        exact spells_of_holds (hholds source hsource)
      obtain ⟨hspelled, hvalue⟩ := spellsAll_joined hspells visible_of_spells
      exact ⟨Or.inr hspelled, hvalue⟩
  | sandbox tokens =>
    have hspells : ∀ token ∈ tokens, IsToken .sandboxToken id (id token).toList (id token) := by
      intro token htoken
      exact isToken_of_matches (h token htoken)
    have hjoined := spellsAll_joined hspells isReader_sandboxToken.visible_of_spells
    rwa [List.map_id] at hjoined
  | reportUri uris =>
    rcases h with ⟨hne, hmatches⟩
    have hspells : ∀ uri ∈ uris, IsToken .uriReference id (id uri).toList (id uri) := by
      intro uri huri
      exact isToken_of_matches (hmatches uri huri)
    obtain ⟨hspelled, hvalue⟩ := spellsAll_joined hspells isReader_uriReference.visible_of_spells
    rw [List.map_id] at hspelled hvalue
    exact ⟨⟨hne, hspelled⟩, hvalue⟩
  | reportTo group => exact ⟨rfl, h⟩
  | requireSriFor resources => exact ⟨(fields_joined h.1).symm, h.2⟩
  | trustedTypes entries =>
    have hspells : ∀ entry ∈ entries, (id entry).WrittenAs entry.text.toList := by
      intro entry hentry
      exact (h entry hentry).writtenAs_text
    obtain ⟨hspelled, hvalue⟩ := spellsAll_joined hspells isReader_ttExpression.visible_of_spells
    rw [List.map_id] at hspelled
    exact ⟨hspelled, hvalue⟩
  | requireTrustedTypesFor groups =>
    rcases h with ⟨hne, hgroups⟩
    have hspells : ∀ group ∈ groups, IsToken .trustedTypesSinkGroup quotedName
        (Lexeme.quotedText group).toList (id group) := by
      intro group hgroup
      exact isToken_of_mem_sinkGroups (hgroups group hgroup)
    obtain ⟨hspelled, hvalue⟩ := spellsAll_joined hspells isReader_sinkGroup.visible_of_spells
    rw [List.map_id] at hspelled
    exact ⟨⟨hne, hspelled⟩, hvalue⟩
  | webrtc choice =>
    have hvisible : ∀ c ∈ choice.name.toList, isValueChar c := by cases choice <;> decide
    exact ⟨rfl, isValue_of_visible hvisible⟩
  | upgradeInsecureRequests => exact ⟨trivial, Or.inl rfl⟩
  | blockAllMixedContent => exact ⟨trivial, Or.inl rfl⟩
  | other => exact ⟨trivial, h⟩

end Body

/-- The name and the value belong together, and every part of them is a text of its rule. -/
structure WellFormed (directive : Directive) : Prop where
  kind_eq : Kind.ofName? directive.name = directive.body.kind?
  name : directive.isOther → IsName directive.name
  body : directive.body.WellFormed directive.rawValue

end Directive

end ContentSecurity

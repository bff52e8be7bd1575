import ContentSecurity.Proofs.Directive.WellFormed
/-!
# Values read word by word

The lists that hold no sources are read word by word, too: every word has to be of the one form, or
of one of the forms, that its directive knows, and is one item of the list.  No form reaches over a
blank, and a value in which a word is read only in part is refused, so blanks alone tell where an
item ends (`spellsAll_isToken_iff`).  Whatever word is to blame, a value is refused under the root
rule of its directive and as a whole (`ReadsAs`).
-/

namespace ContentSecurity

open Text Grammar

variable {value : String} {token : List Char}

/-! ### The forms of words -/

/-- Characters of a reference, and percent signs with two hexadecimal digits behind each. -/
inductive IsEscaped : List Char → Prop
  | nil : IsEscaped []
  | char {c : Char} {rest : List Char} (hc : isUriChar c) (h : IsEscaped rest) :
      IsEscaped (c :: rest)
  | percent {c d : Char} {rest : List Char} (hc : isHexDigit c) (hd : isHexDigit d)
      (h : IsEscaped rest) : IsEscaped ('%' :: c :: d :: rest)

theorem isEscaped_flatten {parts : List (List Char)}
    (h : ∀ part ∈ parts, part ∈ Lexeme.uriChar.language) : IsEscaped parts.flatten := by
  induction parts with
  | nil => exact .nil
  | cons part parts ih =>
    obtain ⟨hpart, hparts⟩ := List.forall_mem_cons.mp h
    rw [List.flatten_cons]
    rcases Lexeme.mem_language_alt.mp hpart with hone | hpct
    · obtain ⟨c, hc, rfl⟩ := Lexeme.mem_language_one.mp hone
      exact .char hc (ih hparts)
    · obtain ⟨c, d, hc, hd, rfl⟩ := Lexeme.mem_language_pctEncoded.mp hpct
      exact .percent hc hd (ih hparts)

theorem IsEscaped.exists_parts (h : IsEscaped token) :
    ∃ parts : List (List Char), token = parts.flatten ∧
      ∀ part ∈ parts, part ∈ Lexeme.uriChar.language := by
  induction h with
  | nil => exact ⟨[], rfl, by simp⟩
  | @char c rest hc _ ih =>
    obtain ⟨parts, rfl, hparts⟩ := ih
    have hpart : [c] ∈ Lexeme.uriChar.language := Or.inl ⟨c, hc, rfl⟩
    exact ⟨[c] :: parts, rfl, List.forall_mem_cons.mpr ⟨hpart, hparts⟩⟩
  | @percent c d rest hc hd _ ih =>
    obtain ⟨parts, rfl, hparts⟩ := ih
    have hpart : ['%', c, d] ∈ Lexeme.uriChar.language :=
      Or.inr (Lexeme.mem_language_pctEncoded.mpr ⟨c, d, hc, hd, rfl⟩)
    exact ⟨['%', c, d] :: parts, rfl, List.forall_mem_cons.mpr ⟨hpart, hparts⟩⟩

theorem mem_language_uriReference :
    token ∈ Lexeme.uriReference.language ↔ token ≠ [] ∧ IsEscaped token := by
  constructor
  · intro hmem
    refine ⟨fun hnil => nil_not_mem_uriReference (hnil ▸ hmem), ?_⟩
    obtain ⟨parts, -, rfl, hparts⟩ := Lexeme.mem_language_plus.mp hmem
    exact isEscaped_flatten hparts
  · rintro ⟨hne, hescaped⟩
    obtain ⟨parts, rfl, hparts⟩ := hescaped.exists_parts
    refine Lexeme.mem_language_plus.mpr ⟨parts, ?_, rfl, hparts⟩
    intro hnil
    exact hne (by rw [hnil, List.flatten_nil])

/-- What the word means as an entry of a trusted-types list. -/
inductive TrustedType.Spells : String → TrustedType → Prop
  | wildcard : Spells "*" .wildcard
  | keyword {token word : String} (hword : word ∈ ["allow-duplicates", "none"])
      (h : token.toLower = "'" ++ word ++ "'") : Spells token (.keyword word)
  | policyName {token : String} (hne : token ≠ "") (h : ∀ c ∈ token.toList, isPolicyNameChar c) :
      Spells token (.policyName token)

namespace TrustedType

variable {text : String} {entry other : TrustedType}

theorem spells_iff_writtenAs : Spells text entry ↔ entry.WrittenAs text.toList := by
  constructor
  · intro h
    cases h with
    | wildcard => rfl
    | keyword hword h =>
      refine ⟨hword, ?_⟩
      rw [String.ofList_toList]
      exact h
    | policyName hne h =>
      have hne' : text.toList ≠ [] := mt String.toList_eq_nil_iff.mp hne
      exact ⟨Lexeme.mem_language_plus_one.mpr ⟨hne', h⟩, rfl⟩
  · intro h
    cases entry with
    | wildcard =>
      have htext : text = "*" := String.toList_inj.mp h
      rw [htext]
      exact .wildcard
    | keyword word =>
      rcases h with ⟨hword, h⟩
      rw [String.ofList_toList] at h
      exact .keyword hword h
    | policyName name =>
      rcases h with ⟨hname, h⟩
      rw [← String.toList_inj.mp h] at hname ⊢
      obtain ⟨hne, hall⟩ := Lexeme.mem_language_plus_one.mp hname
      exact .policyName (mt String.toList_eq_nil_iff.mpr hne) hall

/-- No word means two things. -/
theorem Spells.unique (h : Spells text entry) (hother : Spells text other) : entry = other := by
  rw [(spells_iff_writtenAs.mp h).eq_ofWord, (spells_iff_writtenAs.mp hother).eq_ofWord]

end TrustedType

/-! ### The words of a value -/

/-- A value has no blank at either end, so only its words matter. -/
theorem spellsAll_iff {β : Type} {spells : List Char → β → Prop} {bs : List β}
    (hvalue : IsValue value) :
    SpellsAll spells value bs ↔
      List.Forall₂ (fun token b => spells token.toList b) (fields isBlank value) bs := by
  have hwords : List.Forall₂ (fun token b => spells token.toList b) (fields isBlank value) bs ↔
      List.Forall₂ spells (words isBlank value.toList) bs := by
    rw [fields_eq, List.forall₂_map_left_iff]
    simp only [String.toList_ofList]
  rw [hwords]
  exact and_iff_right (isValue_iff.mp hvalue).2

theorem ne_nil_of_mem_fields {word : String} (h : word ∈ fields isBlank value) :
    word.toList ≠ [] := by
  rw [fields_eq] at h
  obtain ⟨word, hword, rfl⟩ := List.mem_map.mp h
  rw [String.toList_ofList]
  exact (mem_words hword).1

theorem forall₂_function_iff {α β : Type} {p : α → Prop} {f : α → β} {as : List α} {bs : List β} :
    List.Forall₂ (fun a b => p a ∧ f a = b) as bs ↔ (∀ a ∈ as, p a) ∧ bs = as.map f := by
  rw [List.forall₂_and_left, ← List.forall₂_map_left_iff, List.forall₂_eq_eq_eq, eq_comm]

theorem spellsAll_isToken_iff {lexeme : Lexeme} {f : String → String} {items : List String}
    (hvalue : IsValue value) :
    SpellsAll (IsToken lexeme f) value items ↔
      (∀ token ∈ fields isBlank value, lexeme.Matches token) ∧
        items = (fields isBlank value).map f := by
  have htoken : ∀ token item : String,
      IsToken lexeme f token.toList item ↔ lexeme.Matches token ∧ f token = item := by
    intro token item
    rw [IsToken, String.ofList_toList, eq_comm]
    rfl
  rw [spellsAll_iff hvalue]
  simp only [htoken]
  exact forall₂_function_iff

/-! ### Refusals -/

/-- A matched list of trusted types has a meaning, so only the match can fail. -/
theorem Directive.Body.exists_mismatch_of_trustedTypesOf {error : Error}
    (h : (trustedTypesOf value).result = .error error) :
    ∃ position, error = Rule.trustedTypesRoot.mismatch value position := by
  unfold trustedTypesOf at h
  rw [Reading.result_bind, Reading.ofExcept] at h
  cases htree : Rule.trustedTypesRoot.tree value with
  | error other =>
    rw [htree] at h
    rw [← Except.error.inj h]
    exact Rule.exists_mismatch_of_tree htree
  | ok tree =>
    obtain ⟨entries, hentries⟩ := exists_trustedTypes_of_tree htree
    rw [htree] at h
    change ((tree.search [.ttExpression] 2).mapM (trustedTypeOf value)).result = .error error at h
    rw [hentries] at h
    cases h

namespace Directive

/-! ### Directives -/

variable {limits : Limits} {rawName : String} {kind : Kind} {root : Rule}

/-- A directive of this name and value is read with the body `make a` for every `a` that is meant,
and with no other; and if it is refused, the mismatch names the directive, the root rule and the
value. -/
structure ReadsAs {α : Type} (limits : Limits) (rawName value : String) (root : Rule)
    (make : α → Body) (means : α → Prop) : Prop where
  accepts : ∀ directive, (ofText limits rawName value).result = .ok directive ↔
    ∃ a, means a ∧ directive = ⟨rawName.toLower, rawName, value, make a⟩
  refuses : ∀ error, (ofText limits rawName value).result = .error error →
    ∃ position, error = .mismatch root.name (some rawName.toLower) value position

theorem readsAs_of {α : Type} {read : Except Error α} {make : α → Body} {means : α → Prop}
    (hname : rawName.toLower = kind.name)
    (hbody : (Body.ofText limits kind value).result = make <$> read)
    (haccepts : ∀ a, read = .ok a ↔ means a)
    (hrefuses : ∀ error, read = .error error → ∃ position, error = root.mismatch value position) :
    ReadsAs limits rawName value root make means := by
  have hresult := result_ofText limits rawName value
  rw [Kind.ofName?_eq_some_iff.mpr hname] at hresult
  simp only [hbody] at hresult
  cases hread : read with
  | error error =>
    rw [hread] at hresult
    constructor
    · intro directive
      rw [hresult]
      constructor
      · intro hok
        cases hok
      · rintro ⟨a, ha, -⟩
        rw [← haccepts, hread] at ha
        cases ha
    · intro other hother
      obtain ⟨position, hposition⟩ := hrefuses error hread
      rw [hresult, hposition] at hother
      exact ⟨position, (Except.error.inj hother).symm⟩
  | ok a =>
    rw [hread] at hresult
    constructor
    · intro directive
      rw [hresult]
      constructor
      · intro hok
        exact ⟨a, (haccepts a).mp hread, (Except.ok.inj hok).symm⟩
      · rintro ⟨b, hb, rfl⟩
        rw [← haccepts, hread] at hb
        obtain rfl : a = b := Except.ok.inj hb
        rfl
    · intro other hother
      rw [hresult] at hother
      cases hother

theorem readsAs_sandbox (hvalue : IsValue value) (hname : rawName.toLower = Kind.sandbox.name) :
    ReadsAs limits rawName value .sandboxRoot .sandbox fun tokens =>
      (∀ token ∈ fields isBlank value, token ≠ "" ∧ ∀ c ∈ token.toList, isTokenChar c) ∧
        tokens = fields isBlank value := by
  apply readsAs_of hname (Reading.result_bind_pure _ _) _ fun _ => Body.exists_mismatch_of_leaves
  intro tokens
  rw [Reading.ofExcept, Body.leaves_sandbox_iff, spellsAll_isToken_iff hvalue, List.map_id]
  apply and_congr_left
  intro _
  apply forall₂_congr
  intro token _
  rw [Lexeme.Matches, Lexeme.sandboxToken, Lexeme.mem_language_plus_one, ne_eq,
    String.toList_eq_nil_iff]

theorem readsAs_reportUri (hvalue : IsValue value) (hname : rawName.toLower = Kind.reportUri.name) :
    ReadsAs limits rawName value .reportUriRoot .reportUri fun uris =>
      fields isBlank value ≠ [] ∧ (∀ token ∈ fields isBlank value, IsEscaped token.toList) ∧
        uris = fields isBlank value := by
  apply readsAs_of hname (Reading.result_bind_pure _ _) _ fun _ => Body.exists_mismatch_of_leaves
  intro uris
  have hleaves : Body.leaves .reportUriRoot .uriReference value = .ok uris ↔
      uris ≠ [] ∧ SpellsAll (IsToken .uriReference id) value uris := by
    rw [← Body.leaves_reportUri_iff]
    simp
  rw [Reading.ofExcept, hleaves, spellsAll_isToken_iff hvalue, List.map_id]
  constructor
  · rintro ⟨hne, hall, rfl⟩
    refine ⟨hne, ?_, rfl⟩
    intro token hmem
    exact (mem_language_uriReference.mp (hall token hmem)).2
  · rintro ⟨hne, hall, rfl⟩
    refine ⟨hne, ?_, rfl⟩
    intro token hmem
    exact mem_language_uriReference.mpr ⟨ne_nil_of_mem_fields hmem, hall token hmem⟩

theorem readsAs_trustedTypes (hvalue : IsValue value)
    (hname : rawName.toLower = Kind.trustedTypes.name) :
    ReadsAs limits rawName value .trustedTypesRoot .trustedTypes fun entries =>
      List.Forall₂ TrustedType.Spells (fields isBlank value) entries := by
  apply readsAs_of hname (Reading.result_bind_pure _ _) _ fun _ =>
    Body.exists_mismatch_of_trustedTypesOf
  intro entries
  have hspells : TrustedType.Spells = fun token entry => entry.WrittenAs token.toList := by
    funext token entry
    exact propext TrustedType.spells_iff_writtenAs
  rw [Body.trustedTypesOf_eq_ok_iff, spellsAll_iff hvalue, hspells]

theorem readsAs_requireTrustedTypesFor (hvalue : IsValue value)
    (hname : rawName.toLower = Kind.requireTrustedTypesFor.name) :
    ReadsAs limits rawName value .requireTrustedTypesForRoot .requireTrustedTypesFor fun groups =>
      fields isBlank value ≠ [] ∧ (∀ token ∈ fields isBlank value, token.toLower = "'script'") ∧
        groups = List.replicate (fields isBlank value).length "script" := by
  have hbody : (Body.ofText limits .requireTrustedTypesFor value).result =
      Body.requireTrustedTypesFor <$> (List.map quotedName <$>
        Body.leaves .requireTrustedTypesForRoot .trustedTypesSinkGroup value) :=
    (Reading.result_bind_pure _ _).trans (comp_map _ _ _)
  have hgroup : ∀ token group : String,
      IsToken .trustedTypesSinkGroup quotedName token.toList group ↔
        token.toLower = "'script'" ∧ "script" = group := by
    intro token group
    rw [isToken_sinkGroup_iff, String.ofList_toList, sinkGroups, List.mem_singleton, and_comm]
    constructor
    · rintro ⟨htoken, rfl⟩
      exact ⟨htoken, rfl⟩
    · rintro ⟨htoken, rfl⟩
      exact ⟨htoken, rfl⟩
  apply readsAs_of hname hbody
  · intro groups
    rw [map_eq_ok_iff, Body.leaves_sinkGroup_iff, spellsAll_iff hvalue]
    simp only [hgroup]
    rw [forall₂_function_iff, List.map_const']
    constructor
    · rintro ⟨hne, hall, rfl⟩
      exact ⟨by simpa using hne, hall, rfl⟩
    · rintro ⟨hne, hall, rfl⟩
      exact ⟨by simpa using hne, hall, rfl⟩
  · intro error herror
    exact Body.exists_mismatch_of_leaves (map_eq_error_iff.mp herror)

/-- The pieces of a list of resources stand between spaces alone, and none of them is refused. -/
theorem result_ofText_requireSriFor (hname : rawName.toLower = Kind.requireSriFor.name) :
    (ofText limits rawName value).result =
      .ok ⟨rawName.toLower, rawName, value, .requireSriFor
        (((value.toList.splitOn ' ').filter (!·.isEmpty)).map fun piece =>
          (String.ofList piece).toLower)⟩ := by
  rw [result_ofText, Kind.ofName?_eq_some_iff.mpr hname, List.splitOn_eq_splitOnP,
    ← Function.comp_def String.toLower, ← List.map_map]
  rfl

/-- **Values are read word by word.**  The value of a directive is empty, or it has no blank at
either end; it is read if all its words are of the forms that the directive knows, and then each is
one item of the list, in order.  Resources are not checked, and they are cut at spaces only.  If a
value is refused, the mismatch names the directive, the root rule and the whole value. -/
theorem ofText_reads_words (limits : Limits) (rawName value : String) (hvalue : IsValue value) :
    (rawName.toLower = "sandbox" →
      ReadsAs limits rawName value .sandboxRoot .sandbox fun tokens =>
        (∀ token ∈ fields isBlank value, token ≠ "" ∧ ∀ c ∈ token.toList, isTokenChar c) ∧
          tokens = fields isBlank value) ∧
    (rawName.toLower = "report-uri" →
      ReadsAs limits rawName value .reportUriRoot .reportUri fun uris =>
        fields isBlank value ≠ [] ∧ (∀ token ∈ fields isBlank value, IsEscaped token.toList) ∧
          uris = fields isBlank value) ∧
    (rawName.toLower = "trusted-types" →
      ReadsAs limits rawName value .trustedTypesRoot .trustedTypes fun entries =>
        List.Forall₂ TrustedType.Spells (fields isBlank value) entries) ∧
    (∀ token (a b : TrustedType), a.Spells token → b.Spells token → a = b) ∧
    (rawName.toLower = "require-trusted-types-for" →
      ReadsAs limits rawName value .requireTrustedTypesForRoot .requireTrustedTypesFor fun groups =>
        fields isBlank value ≠ [] ∧ (∀ token ∈ fields isBlank value, token.toLower = "'script'") ∧
          groups = List.replicate (fields isBlank value).length "script") ∧
    (rawName.toLower = "require-sri-for" →
      (ofText limits rawName value).result =
        .ok ⟨rawName.toLower, rawName, value, .requireSriFor
          (((value.toList.splitOn ' ').filter (!·.isEmpty)).map fun piece =>
            (String.ofList piece).toLower)⟩) :=
  ⟨readsAs_sandbox hvalue, readsAs_reportUri hvalue, readsAs_trustedTypes hvalue,
    fun _ _ _ => TrustedType.Spells.unique, readsAs_requireTrustedTypesFor hvalue,
    result_ofText_requireSriFor⟩

theorem ofText_reads_words_trustedTypes :
    IsValue "Default\t'NONE' *" ∧
      (ofText {} "Trusted-Types" "Default\t'NONE' *").result =
        .ok ⟨"trusted-types", "Trusted-Types", "Default\t'NONE' *",
          .trustedTypes [.policyName "Default", .keyword "none", .wildcard]⟩ := by
  have hvalue : IsValue "Default\t'NONE' *" := isValue_iff.mpr ⟨by decide, by decide, by decide⟩
  have hname : "Trusted-Types".toLower = "trusted-types" := by decide +kernel
  have hwords : List.Forall₂ TrustedType.Spells (fields isBlank "Default\t'NONE' *")
      [.policyName "Default", .keyword "none", .wildcard] := by
    have hfields : fields isBlank "Default\t'NONE' *" = ["Default", "'NONE'", "*"] := by decide
    rw [hfields]
    exact .cons (.policyName (by decide) (by decide))
      (.cons (.keyword (by decide) (by decide +kernel)) (.cons .wildcard .nil))
  obtain ⟨-, -, htypes, -⟩ := ofText_reads_words {} "Trusted-Types" "Default\t'NONE' *" hvalue
  refine ⟨hvalue, ((htypes hname).accepts _).mpr ⟨_, hwords, ?_⟩⟩
  rw [hname]

/-- A percent sign that lacks a digit spoils the value, wherever it stands. -/
example : (ofText {} "report-uri" "/a /%2 /b").result.toOption = none := by
  decide +kernel

end Directive

end ContentSecurity

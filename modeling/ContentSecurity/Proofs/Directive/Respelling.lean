import ContentSecurity.Proofs.Directive.Canonical
/-!
# Other spellings

One directive can be written in many ways.  Letter case makes no difference to its name and to some
words of its value, and how a value is divided matters only to some kinds of directives.
`Respells` says of which two values a kind makes the same.  A clause keeps its meaning when its name
is written in other letter case and its value is respelled (`Keeps.of_respells`).
-/

namespace ContentSecurity

open Text Grammar Directive

/-- The texts differ at most in letter case. -/
def SameLetters (text other : List Char) : Prop :=
  text.map Char.toLower = other.map Char.toLower

instance (text other : List Char) : Decidable (SameLetters text other) :=
  inferInstanceAs (Decidable (text.map Char.toLower = other.map Char.toLower))

namespace Directive

/-- The words differ in letter case only, where it does not matter: in the mark of a quoted source,
which is a keyword with its closing quote, the prefix of a nonce, or the name of a hash function
with its hyphen; in a keyword of a trusted-types list; and in a sink group. -/
inductive Kind.Recases : Kind → List Char → List Char → Prop
  | source (list : ListKind) (mark other payload : List Char)
      (hmark : mark.map Char.toLower ∈ Expression.marks) (hletters : SameLetters mark other) :
      Recases (.sourceList list) ('\x27' :: (mark ++ payload)) ('\x27' :: (other ++ payload))
  | trustedType (word : String) (token other : List Char) (hword : word ∈ trustedTypesKeywords)
      (htoken : token.map Char.toLower = (Lexeme.quotedText word).toList)
      (hletters : SameLetters token other) : Recases .trustedTypes token other
  | sinkGroup (word : String) (token other : List Char) (hword : word ∈ sinkGroups)
      (htoken : token.map Char.toLower = (Lexeme.quotedText word).toList)
      (hletters : SameLetters token other) : Recases .requireTrustedTypesFor token other

/-- Values that are the same to a directive of a kind.  Most are lists of words, in some of which
letter case does not matter.  Resources are divided at spaces only, and letter case does not matter
in any.  Any two values are the same where the value is ignored, and where it is not understood, or
is a single item, it has to be the same text. -/
def Respells : Option Kind → List Char → List Char → Prop
  | some .requireSriFor, value, other =>
    (words (· == ' ') value).map (List.map Char.toLower) =
      (words (· == ' ') other).map (List.map Char.toLower)
  | some .upgradeInsecureRequests, _, _ | some .blockAllMixedContent, _, _ => True
  | some .reportTo, value, other | some .webrtc, value, other | none, value, other => value = other
  | some kind, value, other =>
    List.Forall₂ (fun word other => word = other ∨ kind.Recases word other) (words isBlank value)
      (words isBlank other)

/-- Words that are left as they are. -/
theorem Kind.forall₂_recases_refl (kind : Kind) (texts : List (List Char)) :
    List.Forall₂ (fun word other => word = other ∨ kind.Recases word other) texts texts :=
  List.forall₂_same.mpr fun _ _ => Or.inl rfl

theorem Respells.refl (kind : Option Kind) (value : List Char) : Respells kind value value := by
  rcases kind with _ | kind
  · rfl
  · cases kind with
    | sourceList list => exact Kind.forall₂_recases_refl _ _
    | sandbox => exact Kind.forall₂_recases_refl _ _
    | reportUri => exact Kind.forall₂_recases_refl _ _
    | trustedTypes => exact Kind.forall₂_recases_refl _ _
    | requireTrustedTypesFor => exact Kind.forall₂_recases_refl _ _
    | upgradeInsecureRequests => trivial
    | blockAllMixedContent => trivial
    | reportTo => rfl
    | requireSriFor => rfl
    | webrtc => rfl

end Directive

/-! ### Words in other letter case -/

variable {token other : List Char}

theorem SameLetters.length_eq (h : SameLetters token other) : token.length = other.length := by
  simpa using congrArg List.length h

/-- What does not depend on letter case holds of texts with the same letters alike. -/
theorem SameLetters.forall_mem {p : Char → Prop} (h : SameLetters token other)
    (hp : ∀ c, p c.toLower ↔ p c) (htoken : ∀ c ∈ token, p c) : ∀ c ∈ other, p c := by
  intro c hc
  have hmem : c.toLower ∈ token.map Char.toLower := h ▸ List.mem_map_of_mem hc
  obtain ⟨d, hd, hsame⟩ := List.mem_map.mp hmem
  rw [← hp, ← hsame, hp]
  exact htoken d hd

theorem SameLetters.append_left (h : SameLetters token other) (front : List Char) :
    SameLetters (front ++ token) (front ++ other) := by
  rw [SameLetters, List.map_append, List.map_append, h]

theorem SameLetters.append_both (h : SameLetters token other) (front back : List Char) :
    SameLetters (front ++ (token ++ back)) (front ++ (other ++ back)) := by
  apply SameLetters.append_left
  rw [SameLetters, List.map_append, List.map_append, h]

theorem SameLetters.visible (h : SameLetters token other)
    (htoken : ∀ c ∈ token, isBlank c ∨ isValueChar c) : ∀ c ∈ other, isBlank c ∨ isValueChar c :=
  h.forall_mem (fun c => by rw [isBlank_toLower, isValueChar_toLower]) htoken

theorem SameLetters.ne_semicolon (h : SameLetters token other) (htoken : ∀ c ∈ token, c ≠ ';') :
    ∀ c ∈ other, c ≠ ';' :=
  h.forall_mem (fun _ => (toLower_eq_iff (by decide)).not) htoken

/-- **A quoted source means the same in other letter case**, as long as its mark alone is
changed. -/
theorem Expression.WrittenAs.recase {e : Expression} {mark mark' payload : List Char}
    (h : e.WrittenAs (.ofList ('\x27' :: (mark ++ payload))))
    (hmark : mark.map Char.toLower ∈ marks) (hletters : SameLetters mark mark') :
    e.WrittenAs (.ofList ('\x27' :: (mark' ++ payload))) := by
  have hquoted : e.isQuoted = true := by
    by_contra hplain
    obtain ⟨c, rest, htoken, hc⟩ := h.exists_uncut (by simpa using hplain)
    rw [String.toList_ofList] at htoken
    exact hc (List.cons.inj htoken).1.symm
  obtain ⟨own, htoken, hown⟩ := h.exists_mark hquoted
  rw [String.toList_ofList, List.cons.injEq] at htoken
  -- both marks start the text in small letters
  have hlower := congrArg (List.map Char.toLower) htoken.2
  rw [List.map_append, List.map_append, hown] at hlower
  have hfront : mark.map Char.toLower <+: e.mark ++ e.payload.map Char.toLower :=
    hlower ▸ List.prefix_append _ _
  have hsame : mark.map Char.toLower = e.mark :=
    mark_unique hmark (h.mark_mem hquoted) hfront (List.prefix_append _ _)
  have hlength : mark.length = own.length := by
    simpa using congrArg List.length (hsame.trans hown.symm)
  have hpayload : payload = e.payload := (List.append_inj htoken.2 hlength).2
  apply h.wellFormed.writtenAs_of_mark hquoted
  · rw [String.toList_ofList, hpayload]
  · rw [← hletters, hsame]

theorem SameLetters.toLower_eq (h : SameLetters token other) :
    (String.ofList token).toLower = (String.ofList other).toLower := by
  rw [← String.toList_inj, toList_toLower, toList_toLower, String.toList_ofList,
    String.toList_ofList]
  exact h

/-- A keyword in other letter case is the same entry. -/
theorem TrustedType.WrittenAs.recase {entry : TrustedType} {word : String}
    (h : entry.WrittenAs token) (htoken : token.map Char.toLower = (Lexeme.quotedText word).toList)
    (hletters : SameLetters token other) : entry.WrittenAs other := by
  have hlower : (String.ofList token).toLower = Lexeme.quotedText word := by
    rw [← String.toList_inj, toList_toLower, String.toList_ofList, htoken]
  obtain ⟨tail, rfl⟩ := exists_cons_of_quoted hlower
  cases entry with
  | policyName name =>
    rcases h with ⟨hname, htext⟩
    obtain ⟨c, rest, hsplit, hquote, -⟩ := stops_of_policyName hname
    rw [hsplit] at htext
    exact absurd (List.cons.inj htext).1.symm hquote
  | keyword own => exact ⟨h.1, hletters.toLower_eq ▸ h.2⟩
  | wildcard => cases h

/-! ### Respelled words -/

namespace Directive

theorem Kind.Recases.sameLetters {kind : Kind} (h : kind.Recases token other) :
    SameLetters token other := by
  cases h with
  | source _ mark other payload _ hletters => exact hletters.append_both ['\x27'] payload
  | trustedType _ _ _ _ _ hletters => exact hletters
  | sinkGroup _ _ _ _ _ hletters => exact hletters

theorem Kind.Recases.ne_nil {kind : Kind} (h : kind.Recases token other) : token ≠ [] := by
  cases h with
  | source => simp
  | trustedType word _ _ _ htoken _ =>
    rintro rfl
    simp [Lexeme.quotedText] at htoken
  | sinkGroup word _ _ _ htoken _ =>
    rintro rfl
    simp [Lexeme.quotedText] at htoken

/-- A word is recased in the middle of a value. -/
theorem Respells.of_word {kind : Kind} {start rest : List Char}
    (hstart : Stops (!isBlank ·) start.reverse) (hrest : Stops (!isBlank ·) rest)
    (hword : ∀ c ∈ token, isBlank c = false) (h : kind.Recases token other) :
    Respells (some kind) (trimmed isBlank (start ++ (token ++ rest)))
      (trimmed isBlank (start ++ (other ++ rest))) := by
  have hne : other ≠ [] := by
    rw [← List.length_pos_iff, ← h.sameLetters.length_eq]
    exact List.length_pos_iff.mpr h.ne_nil
  have hother : ∀ c ∈ other, isBlank c = false :=
    h.sameLetters.forall_mem (fun c => by rw [isBlank_toLower]) hword
  have hothers := kind.forall₂_recases_refl
  have hwords : List.Forall₂ (fun word other => word = other ∨ kind.Recases word other)
      (words isBlank (trimmed isBlank (start ++ (token ++ rest))))
      (words isBlank (trimmed isBlank (start ++ (other ++ rest)))) := by
    rw [words_trimmed, words_trimmed, words_insert h.ne_nil hword hstart hrest,
      words_insert hne hother hstart hrest]
    exact List.rel_append (hothers _) (.cons (Or.inr h) (hothers _))
  cases h <;> exact hwords

theorem Respells.of_letters {value value' : List Char} (h : SameLetters value value') :
    Respells (some .requireSriFor) (trimmed isBlank value) (trimmed isBlank value') := by
  have hspace : ∀ c : Char, (c.toLower == ' ') = (c == ' ') := by
    intro c
    rw [Bool.eq_iff_iff, beq_iff_eq, beq_iff_eq]
    exact toLower_eq_iff (by decide)
  have hwords : ∀ text : List Char,
      (words (· == ' ') (trimmed isBlank text)).map (List.map Char.toLower) =
        words (· == ' ') (trimmed isBlank (text.map Char.toLower)) := by
    intro text
    rw [trimmed_map isBlank_toLower, words_map hspace]
  change (words (· == ' ') (trimmed isBlank value)).map (List.map Char.toLower) =
    (words (· == ' ') (trimmed isBlank value')).map (List.map Char.toLower)
  rw [hwords, hwords, h]

end Directive

theorem not_recases_noneText {list : ListKind} :
    ¬ Kind.Recases (.sourceList list) Source.noneText.toList other := by
  intro h
  generalize htoken : Source.noneText.toList = token at h
  cases h with
  | source _ mark _ payload hmark hletters => exact not_mem_marks_of_noneText htoken hmark

theorem Source.Spells.recase {kind : ListKind} {source : Source}
    (hword : token = other ∨ Kind.Recases (.sourceList kind) token other)
    (h : Source.Spells kind.Allows token source) :
    ∃ respelled, Source.Spells kind.Allows other respelled ∧ source.plain = respelled.plain := by
  rcases h with ⟨e, hallowed, hwritten, rfl⟩
  refine ⟨.written (.ofList other) e, ⟨e, hallowed, ?_, rfl⟩, rfl⟩
  rcases hword with rfl | hrecased
  · exact hwritten
  · cases hrecased with
    | source _ mark other payload hmark hletters => exact hwritten.recase hmark hletters

variable {value other : String}

/-- A list of words that is respelled word by word spells values that are alike one by one. -/
theorem SpellsAll.respell {β : Type} {spells : List Char → β → Prop}
    {R : List Char → List Char → Prop} {alike : β → β → Prop} {bs : List β}
    (h : SpellsAll spells value bs) (hbare : Bare isBlank other.toList)
    (hwords : List.Forall₂ R (words isBlank value.toList) (words isBlank other.toList))
    (hword : ∀ token token' b, R token token' → spells token b →
      ∃ b', spells token' b' ∧ alike b b') :
    ∃ bs', SpellsAll spells other bs' ∧ List.Forall₂ alike bs bs' := by
  obtain ⟨bs', hspelled, halike⟩ := exists_forall₂_of_forall₂ hwords h.2 hword
  exact ⟨bs', ⟨hbare, hspelled⟩, halike⟩

/-- The same where a respelled word has the same value. -/
theorem SpellsAll.respell_eq {β : Type} {spells : List Char → β → Prop}
    {R : List Char → List Char → Prop} {bs : List β} (h : SpellsAll spells value bs)
    (hbare : Bare isBlank other.toList)
    (hwords : List.Forall₂ R (words isBlank value.toList) (words isBlank other.toList))
    (hword : ∀ token token' b, R token token' → spells token b → spells token' b) :
    SpellsAll spells other bs := by
  obtain ⟨bs', hspelled, hsame⟩ : ∃ bs', SpellsAll spells other bs' ∧ List.Forall₂ Eq bs bs' :=
    h.respell hbare hwords fun token token' b hR hspells =>
      ⟨b, hword token token' b hR hspells, rfl⟩
  rw [List.forall₂_eq_eq_eq] at hsame
  exact hsame ▸ hspelled

/-! ### Values -/

namespace Directive

namespace Body

variable {body respelled : Body}

/-- Values with the same plain form have the same canonical text, if they are understood or were
written alike. -/
theorem text_eq_of_plain_eq {written written' : String} (h : body.plain = respelled.plain)
    (hwritten : body.kind? = none → written = written') :
    body.text written = respelled.text written' := by
  have hplain : body.text written = respelled.text written := by
    rw [← text_plain_written, h, text_plain_written]
  rw [hplain]
  have hkind : respelled.kind? = body.kind? := by
    rw [← kind?_plain, ← h, kind?_plain]
  cases hrespelled : respelled.kind? with
  | none => rw [hwritten (hkind ▸ hrespelled)]
  | some kind => cases respelled <;> first | rfl | cases hrespelled

theorem map_toLower_fields (sep : Char → Bool) (value : String) :
    (fields sep value).map String.toLower =
      ((words sep value.toList).map (List.map Char.toLower)).map String.ofList := by
  rw [fields_eq, List.map_map, List.map_map]
  apply List.map_congr_left
  intro word _
  rw [Function.comp_apply, Function.comp_apply, ← String.toList_inj, toList_toLower,
    String.toList_ofList, String.toList_ofList]

/-- **A value is read alike from another spelling.** -/
theorem ReadFrom.respell (h : body.ReadFrom value) (hbare : Bare isBlank other.toList)
    (hvalue : Respells body.kind? value.toList other.toList) :
    ∃ respelled : Body, respelled.ReadFrom other ∧ body.plain = respelled.plain := by
  cases body with
  | sourceList kind sources =>
    rcases h with ⟨rfl, rfl⟩ | hspelled
    · have hnone : words isBlank Source.noneText.toList = [Source.noneText.toList] :=
        words_of_run (by decide) (by decide)
      have hwords : List.Forall₂ _ (words isBlank Source.noneText.toList) _ := hvalue
      rw [hnone] at hwords
      obtain ⟨word, others, hword, hothers, hsplit⟩ := List.forall₂_cons_left_iff.mp hwords
      obtain rfl := List.forall₂_nil_left_iff.mp hothers
      obtain rfl := hword.resolve_right not_recases_noneText
      have hsame := String.toList_inj.mp (eq_of_words_eq_singleton hbare hsplit)
      exact ⟨.sourceList kind [.none], Or.inl ⟨hsame, rfl⟩, rfl⟩
    · obtain ⟨respelled, hread, halike⟩ := SpellsAll.respell hspelled hbare hvalue
        fun _ _ _ hword hspells => Source.Spells.recase hword hspells
      refine ⟨.sourceList kind respelled, Or.inr hread, ?_⟩
      rw [plain, plain, forall₂_eq_iff_map_eq.mp halike]
  | sandbox tokens =>
    refine ⟨.sandbox tokens, SpellsAll.respell_eq h hbare hvalue ?_, rfl⟩
    rintro token token' item (rfl | hrecased) hspells
    · exact hspells
    · cases hrecased
  | reportUri uris =>
    refine ⟨.reportUri uris, ⟨h.1, SpellsAll.respell_eq h.2 hbare hvalue ?_⟩, rfl⟩
    rintro token token' item (rfl | hrecased) hspells
    · exact hspells
    · cases hrecased
  | reportTo group =>
    obtain rfl := String.toList_inj.mp hvalue
    exact ⟨.reportTo group, h, rfl⟩
  | requireSriFor resources =>
    refine ⟨.requireSriFor resources, ?_, rfl⟩
    have hwords : (words (· == ' ') value.toList).map (List.map Char.toLower) = _ := hvalue
    rw [ReadFrom, map_toLower_fields, ← hwords, ← map_toLower_fields]
    exact h
  | trustedTypes entries =>
    refine ⟨.trustedTypes entries, SpellsAll.respell_eq h hbare hvalue ?_, rfl⟩
    rintro token token' entry (rfl | hrecased) hspells
    · exact hspells
    · cases hrecased with
      | trustedType word _ _ hword htoken hletters => exact hspells.recase htoken hletters
  | requireTrustedTypesFor groups =>
    refine ⟨.requireTrustedTypesFor groups, ⟨h.1, SpellsAll.respell_eq h.2 hbare hvalue ?_⟩, rfl⟩
    rintro token token' group (rfl | hrecased) hspells
    · exact hspells
    · cases hrecased with
      | sinkGroup word _ _ hword htoken hletters =>
        obtain ⟨hgroup, htext⟩ := isToken_sinkGroup_iff.mp hspells
        exact isToken_sinkGroup_iff.mpr ⟨hgroup, hletters.toLower_eq ▸ htext⟩
  | webrtc choice =>
    obtain rfl := String.toList_inj.mp hvalue
    exact ⟨.webrtc choice, h, rfl⟩
  | upgradeInsecureRequests => exact ⟨.upgradeInsecureRequests, trivial, rfl⟩
  | blockAllMixedContent => exact ⟨.blockAllMixedContent, trivial, rfl⟩
  | other => exact ⟨.other, trivial, rfl⟩

end Body

/-! ### Clauses -/

variable {directive : Directive} {before name tail : List Char}

/-- Directives are equivalent if they agree in their names and in what their values mean.  The
written values count only if they are not understood. -/
theorem equiv_iff {directive respelled : Directive} :
    directive ≈ respelled ↔ directive.name = respelled.name ∧
      directive.body.plain = respelled.body.plain ∧
      (directive.isOther → directive.rawValue = respelled.rawValue) := by
  constructor
  · intro h
    have hplain : directive.plain = respelled.plain := h
    simp only [plain, Directive.mk.injEq] at hplain
    rcases hplain with ⟨hname, -, hvalue, hbody⟩
    refine ⟨hname, hbody, fun hother => ?_⟩
    have hkind := Body.isOther_iff.mp hother
    have hkind' : respelled.body.kind? = none := by
      rw [← Body.kind?_plain, ← hbody, Body.kind?_plain, hkind]
    rwa [value, value, Body.kind?_eq_none_iff.mp hkind, Body.kind?_eq_none_iff.mp hkind'] at hvalue
  · rintro ⟨hname, hbody, hwritten⟩
    have hvalue : directive.value = respelled.value :=
      Body.text_eq_of_plain_eq hbody fun hnone => hwritten (Body.isOther_iff.mpr hnone)
    change directive.plain = respelled.plain
    rw [plain, plain, hname, hbody, hvalue]

/-- **A directive is read alike from another spelling** of its name and its value. -/
theorem ReadFrom.respell {rawName rawName' : String} (h : directive.ReadFrom rawName value)
    (hname : rawName.toLower = rawName'.toLower) (hbare : Bare isBlank other.toList)
    (hvalue : Respells (Kind.ofName? rawName.toLower) value.toList other.toList) :
    ∃ respelled : Directive, respelled.ReadFrom rawName' other ∧ directive ≈ respelled := by
  have hkind := h.kind_eq
  rw [h.name_eq] at hkind
  rw [hkind] at hvalue
  obtain ⟨body, hbody, hplain⟩ := h.body.respell hbare hvalue
  have hsame : body.kind? = directive.body.kind? := by
    rw [← Body.kind?_plain, ← hplain, Body.kind?_plain]
  have hwritten : directive.isOther → directive.rawValue = other := by
    intro hother
    rw [Body.isOther_iff.mp hother] at hvalue
    rw [h.rawValue_eq]
    exact String.toList_inj.mp hvalue
  refine ⟨⟨rawName'.toLower, rawName', other, body⟩, ⟨rfl, rfl, rfl, ?_, hbody⟩, ?_⟩
  · change Kind.ofName? rawName'.toLower = body.kind?
    rw [← hname, hkind, hsame]
  · exact equiv_iff.mpr ⟨h.name_eq.trans hname, hplain, hwritten⟩

/-- What a clause means, another one means as well, up to equivalence. -/
def Keeps (clause other : List Char) : Prop :=
  IsClause clause → IsClause other ∧ ∀ directive, ReadClause clause directive →
    ∃ respelled, ReadClause other respelled ∧ directive ≈ respelled

/-- A name with blanks in front and behind it is trimmed to its name, and to a gap and a value if
there is one behind. -/
theorem trimmed_clause (tail : List Char) (hbefore : ∀ c ∈ before, isBlank c) (hne : name ≠ [])
    (hname : ∀ c ∈ name, isNameChar c) :
    (trimmed isBlank (before ++ (name ++ tail)) = name ∧ ∀ c ∈ tail, isBlank c) ∨
      ∃ gap after, tail = gap ++ (trimmed isBlank tail ++ after) ∧ trimmed isBlank tail ≠ [] ∧
        (∀ c ∈ gap, isBlank c) ∧ (∀ c ∈ after, isBlank c) ∧
        trimmed isBlank (before ++ (name ++ tail)) = name ++ (gap ++ trimmed isBlank tail) := by
  obtain ⟨gap, after, htail, hgap, hafter⟩ := exists_trimmed isBlank tail
  have hbare : Bare isBlank name :=
    bare_of_forall fun c hc =>
      isBlank_eq_false_of_isValueChar (isValueChar_of_isNameChar (hname c hc))
  rw [trimmed_append_left hbefore]
  by_cases hnil : trimmed isBlank tail = []
  · have hblank : ∀ c ∈ tail, isBlank c := trimmed_eq_nil_iff.mp hnil
    left
    rw [trimmed_append_right hblank, trimmed_of_bare hbare]
    exact ⟨rfl, hblank⟩
  · right
    refine ⟨gap, after, htail, hnil, hgap, hafter, ?_⟩
    have hall : Bare isBlank (name ++ gap ++ trimmed isBlank tail) :=
      hbare.append (bare_trimmed isBlank tail) hne hnil
    have hsplit : name ++ tail = name ++ gap ++ trimmed isBlank tail ++ after := by
      rw [List.append_assoc, List.append_assoc, ← htail]
    rw [hsplit, trimmed_append_right hafter, trimmed_of_bare hall, List.append_assoc]

/-- What stands behind a name makes a clause if it starts with a blank and holds nothing but blanks
and visible characters. -/
def IsTail (tail : List Char) : Prop :=
  Stops (!isBlank ·) tail ∧ ∀ c ∈ tail, isBlank c ∨ isValueChar c

theorem clause_of_isTail (hbefore : ∀ c ∈ before, isBlank c) (hne : name ≠ [])
    (hname : ∀ c ∈ name, isNameChar c) (htail : IsTail tail) :
    IsClause (trimmed isBlank (before ++ (name ++ tail))) ∧
      clauseName (trimmed isBlank (before ++ (name ++ tail))) = name ∧
      clauseValue (trimmed isBlank (before ++ (name ++ tail))) = trimmed isBlank tail := by
  rcases htail with ⟨hbreak, hvisible⟩
  have hmem : name ∈ Lexeme.directiveName.language :=
    Lexeme.mem_language_directiveName.mpr ⟨hne, hname⟩
  rcases trimmed_clause tail hbefore hne hname with
    ⟨hclause, hblank⟩ | ⟨gap, after, hsplit, hvne, hgap, hafter, hclause⟩
  · rw [hclause, trimmed_of_forall hblank]
    exact ⟨isClause_of_name hmem, clause_parts_of_name hmem⟩
  · have hgne : gap ≠ [] := by
      rintro rfl
      have hhead := (bare_trimmed isBlank tail).1
      obtain ⟨c, value, hvalue⟩ := List.exists_cons_of_ne_nil hvne
      rw [hsplit, List.nil_append, hvalue, List.cons_append, stops_cons] at hbreak
      rw [hvalue, stops_cons] at hhead
      simp [hhead] at hbreak
    have hvalue : trimmed isBlank tail ∈ Lexeme.directiveValue.language := by
      refine Lexeme.mem_language_directiveValue.mpr ⟨hvne, ?_, bare_trimmed isBlank tail⟩
      intro c hc
      apply hvisible
      rw [hsplit]
      exact List.mem_append_right _ (List.mem_append_left _ hc)
    rw [hclause]
    exact ⟨isClause_of_value hmem hgne hgap hvalue, clause_parts hmem hgne hgap hvalue⟩

theorem isTail_of_isClause (hbefore : ∀ c ∈ before, isBlank c) (hne : name ≠ [])
    (hname : ∀ c ∈ name, isNameChar c) (hstop : Stops isNameChar tail)
    (h : IsClause (trimmed isBlank (before ++ (name ++ tail)))) : IsTail tail := by
  rcases trimmed_clause tail hbefore hne hname with
    ⟨-, hblank⟩ | ⟨gap, after, hsplit, hvne, hgap, hafter, hclause⟩
  · exact ⟨stops_of_forall fun c hc => by simp [hblank c hc], fun c hc => Or.inl (hblank c hc)⟩
  · rw [hclause] at h
    have hvisible := h.visible
    rcases h with ⟨name', tail', hcut, -, hname', htail'⟩
    have hstop' : Stops isNameChar (gap ++ trimmed isBlank tail) := by
      rw [hsplit, ← List.append_assoc] at hstop
      exact hstop.of_append (by simp [hvne])
    constructor
    · rcases htail' with rfl | ⟨gap', value, rfl, hgne, hgap', -⟩
      · have hnil := (append_inj_of_stops hcut hname hstop' hname' stops_nil).2
        simp [hvne] at hnil
      · have hbreak : Stops (!isBlank ·) (gap' ++ value) :=
          Stops.append_left (stops_of_forall fun c hc => by simp [hgap' c hc]) hgne
        have hstop'' : Stops isNameChar (gap' ++ value) :=
          (stops_isNameChar_of_isBlank hgap').append_left hgne
        have hsame := (append_inj_of_stops hcut hname hstop' hname' hstop'').2
        rw [hsplit, ← List.append_assoc, hsame]
        exact hbreak.append_left (by simp [hgne])
    · rw [hsplit]
      simp only [List.forall_mem_append] at hvisible ⊢
      exact ⟨fun c hc => Or.inl (hgap c hc), hvisible.2.2, fun c hc => Or.inl (hafter c hc)⟩

/-- **A clause keeps its meaning** when its name is written in other letter case and its value is
respelled. -/
theorem Keeps.of_respells {name' tail' : List Char} (hbefore : ∀ c ∈ before, isBlank c)
    (hne : name ≠ []) (hname : ∀ c ∈ name, isNameChar c) (hstop : Stops isNameChar tail)
    (hletters : SameLetters name name') (htail : IsTail tail → IsTail tail')
    (hvalue : Respells (Kind.ofName? (String.ofList name).toLower) (trimmed isBlank tail)
      (trimmed isBlank tail')) :
    Keeps (trimmed isBlank (before ++ (name ++ tail)))
      (trimmed isBlank (before ++ (name' ++ tail'))) := by
  intro hclause
  have hformed := isTail_of_isClause hbefore hne hname hstop hclause
  have hne' : name' ≠ [] := by
    intro hnil
    rw [hnil] at hletters
    exact hne (List.eq_nil_of_map_eq_nil hletters)
  have hname' : ∀ c ∈ name', isNameChar c :=
    hletters.forall_mem (fun c => by rw [isNameChar_toLower]) hname
  obtain ⟨-, hsame, hvalues⟩ := clause_of_isTail hbefore hne hname hformed
  obtain ⟨hclause', hsame', hvalues'⟩ := clause_of_isTail hbefore hne' hname' (htail hformed)
  refine ⟨hclause', fun directive hread => ?_⟩
  unfold ReadClause at hread ⊢
  rw [hsame, hvalues] at hread
  rw [hsame', hvalues']
  apply hread.respell hletters.toLower_eq
  · rw [String.toList_ofList]
    exact bare_trimmed isBlank tail'
  · rwa [String.toList_ofList, String.toList_ofList]

theorem trimmed_clause_ne_nil (hbefore : ∀ c ∈ before, isBlank c) (hne : name ≠ [])
    (hname : ∀ c ∈ name, isNameChar c) : trimmed isBlank (before ++ (name ++ tail)) ≠ [] := by
  rcases trimmed_clause tail hbefore hne hname with ⟨hclause, -⟩ | ⟨gap, after, -, -, -, -, hclause⟩
  · rwa [hclause]
  · rw [hclause]
    simp [hne]

/-- A name that stands for a kind, in any letter case, can be the name of a clause. -/
theorem Kind.name_of_toLower {kind : Kind} (h : (String.ofList name).toLower = kind.name) :
    name ≠ [] ∧ ∀ c ∈ name, isNameChar c := by
  obtain ⟨hne, hall⟩ := Lexeme.mem_language_directiveName.mp kind.isName.1
  rw [← h, toList_toLower, String.toList_ofList] at hne hall
  refine ⟨fun hnil => hne (by rw [hnil]; rfl), fun c hc => ?_⟩
  rw [← isNameChar_toLower]
  exact hall _ (List.mem_map_of_mem hc)

theorem isTail_append_iff {gap value : List Char} (hne : gap ≠ []) (hgap : ∀ c ∈ gap, isBlank c) :
    IsTail (gap ++ value) ↔ ∀ c ∈ value, isBlank c ∨ isValueChar c := by
  have hbreak : Stops (!isBlank ·) (gap ++ value) :=
    Stops.append_left (stops_of_forall fun c hc => by simp [hgap c hc]) hne
  rw [IsTail, List.forall_mem_append]
  exact ⟨fun h => h.2.2, fun h => ⟨hbreak, fun c hc => Or.inl (hgap c hc), h⟩⟩

end Directive

end ContentSecurity

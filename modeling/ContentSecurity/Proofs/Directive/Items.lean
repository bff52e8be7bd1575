import ContentSecurity.Directive.Reading
import ContentSecurity.Proofs.Grammar.Lists
/-!
# Items of directive values

The items of the lists that are no source lists.  Most are tokens, of which some function makes
the value; the entries of a trusted-types list are quoted words, stars and names, and are tried in
this order.
-/

namespace ContentSecurity

open Text Grammar
open String (utf8Len)

variable {token rest : List Char} {text : String}

/-! ### Tokens -/

/-- The word is a token, of which `f` makes the value. -/
def IsToken (lexeme : Lexeme) (f : String → String) (token : List Char) (value : String) : Prop :=
  token ∈ lexeme.language ∧ value = f (.ofList token)

theorem isReader_token {lexeme : Lexeme} (rule : Rule) (f : String → String)
    (hne : [] ∉ lexeme.language) (hover : lexeme.Over isValueChar)
    (htakes : ∀ token rest, token ∈ lexeme.language → Stops (!isBlank ·) rest →
      lexeme.Takes token rest) :
    IsReader (.token rule lexeme) rule (IsToken lexeme f)
      (fun input tree => pure (f (tree.text input))) where
  isItem := Phrase.itemOf_token hne hover
  sound := by
    rintro input token tree ⟨front, back, hinput, hmem, hsingle⟩
    rw [List.singleton_inj.mp hsingle, Tree.text_of_append rule [] hinput]
    exact ⟨_, rfl, hmem, rfl⟩
  complete := by
    rintro token rest value ⟨hmem, -⟩ hrest
    exact Phrase.takes_token (htakes _ _ hmem hrest)
  unique := by
    rintro token a b ⟨-, rfl⟩ ⟨-, rfl⟩
    rfl

variable {lexeme : Lexeme}

theorem IsToken.matches {value : String}
    (h : IsToken lexeme id token value) : lexeme.Matches value := by
  rcases h with ⟨hmem, rfl⟩
  simpa [Lexeme.Matches] using hmem

theorem isToken_of_matches {token : String} (h : lexeme.Matches token) :
    IsToken lexeme id token.toList token :=
  ⟨h, by simp⟩

theorem IsToken.utf8ByteSize_eq {value : String} (h : IsToken lexeme id token value) :
    value.utf8ByteSize = utf8Len token := by
  rcases h with ⟨-, rfl⟩
  exact String.utf8ByteSize_ofList token

theorem isReader_sandboxToken :
    IsReader Phrase.sandboxToken .token (IsToken .sandboxToken id)
      (fun input tree => pure (id (tree.text input))) := by
  apply isReader_token
  · intro hnil
    exact (Lexeme.mem_language_plus_one.mp hnil).1 rfl
  · exact Lexeme.over_plus fun _ => isValueChar_of_isTokenChar
  · intro token rest htoken hrest
    obtain ⟨hne, hall⟩ := Lexeme.mem_language_plus_one.mp htoken
    exact Lexeme.takes_plus_one hne hall
      (stops_of_break hrest fun _ => isValueChar_of_isTokenChar)

theorem nil_not_mem_uriReference : [] ∉ Lexeme.uriReference.language := by
  intro hnil
  obtain ⟨first, hfirst, tail, -, heq⟩ := Lexeme.mem_language_seq.mp hnil
  obtain ⟨rfl, -⟩ := List.append_eq_nil_iff.mp heq
  rcases hfirst with ⟨c, -, hc⟩ | hpct
  · simp at hc
  · obtain ⟨c, d, -, -, hsigns⟩ := Lexeme.mem_language_pctEncoded.mp hpct
    cases hsigns

theorem isReader_uriReference :
    IsReader Phrase.uriReference .uriReference (IsToken .uriReference id)
      (fun input tree => pure (id (tree.text input))) := by
  apply isReader_token
  · exact nil_not_mem_uriReference
  · exact Lexeme.over_uriReference
  · intro token rest htoken hrest
    apply Lexeme.takes_uriReference htoken
    apply stops_of_break hrest
    intro c hc
    rcases Bool.or_eq_true _ _ ▸ hc with hc | hc
    · exact isValueChar_of_isUriChar hc
    · rw [beq_iff_eq.mp hc]
      decide

/-! ### Quoted words -/

theorem exists_cons_of_quoted {word : String}
    (h : (String.ofList token).toLower = Lexeme.quotedText word) :
    ∃ tail, token = '\x27' :: tail := by
  have hlower := congrArg String.toList h
  have hsplit : (Lexeme.quotedText word).toList = '\x27' :: (word.toList ++ ['\x27']) := by
    simp [Lexeme.quotedText]
  rw [toList_toLower, String.toList_ofList, hsplit] at hlower
  obtain ⟨c, tail, rfl, hc, -⟩ := List.map_eq_cons_iff.mp hlower
  rw [eq_of_toLower_eq (d := '\x27') hc (by decide)]
  exact ⟨tail, rfl⟩

theorem isUpper_eq_false_of_sinkGroup :
    ∀ word ∈ sinkGroups, ∀ c ∈ (Lexeme.quotedText word).toList, c.isUpper = false := by
  decide

theorem isUpper_eq_false_of_trustedTypesKeyword :
    ∀ word ∈ trustedTypesKeywords, ∀ c ∈ (Lexeme.quotedText word).toList, c.isUpper = false := by
  decide

/-- The word behind the quotes, in small letters. -/
def quotedName (text : String) : String :=
  (unquoted text).toLower

theorem isReader_sinkGroup :
    IsReader Phrase.trustedTypesSinkGroup .trustedTypesSinkGroup
      (IsToken .trustedTypesSinkGroup quotedName)
      (fun input tree => pure (quotedName (tree.text input))) := by
  have hwords : ∀ {token : List Char}, token ∈ Lexeme.trustedTypesSinkGroup.language →
      ∃ word ∈ sinkGroups, (String.ofList token).toLower = Lexeme.quotedText word :=
    (Lexeme.mem_language_oneOf_quotedWord isUpper_eq_false_of_sinkGroup).mp
  apply isReader_token
  · intro hnil
    obtain ⟨word, -, hword⟩ := hwords hnil
    obtain ⟨tail, htail⟩ := exists_cons_of_quoted hword
    cases htail
  · rw [Lexeme.trustedTypesSinkGroup, Lexeme.map_quotedWord]
    exact Lexeme.over_oneOf_word (by decide)
  · intro token rest htoken _
    obtain ⟨word, hword, htext⟩ := hwords htoken
    exact Lexeme.takes_oneOf_quotedWord hword isUpper_eq_false_of_sinkGroup (by decide) htext

/-- A sink group is written as its name between quotes, in any letter case. -/
theorem isToken_sinkGroup_iff {group : String} :
    IsToken .trustedTypesSinkGroup quotedName token group ↔
      group ∈ sinkGroups ∧ (String.ofList token).toLower = Lexeme.quotedText group := by
  have hfree : ∀ word ∈ sinkGroups, ∀ c ∈ word.toList, c ≠ '\x27' := by decide
  constructor
  · rintro ⟨hmem, rfl⟩
    obtain ⟨word, hword, htext⟩ :=
      (Lexeme.mem_language_oneOf_quotedWord isUpper_eq_false_of_sinkGroup).mp hmem
    rw [quotedName, Lexeme.toLower_unquoted htext (hfree word hword)]
    exact ⟨hword, htext⟩
  · rintro ⟨hgroup, htext⟩
    refine ⟨?_, (Lexeme.toLower_unquoted htext (hfree group hgroup)).symm⟩
    exact (Lexeme.mem_language_oneOf_quotedWord isUpper_eq_false_of_sinkGroup).mpr
      ⟨group, hgroup, htext⟩

theorem IsToken.utf8ByteSize_quotedText {group : String}
    (h : IsToken .trustedTypesSinkGroup quotedName token group) :
    (Lexeme.quotedText group).utf8ByteSize = utf8Len token := by
  rw [← (isToken_sinkGroup_iff.mp h).2, utf8ByteSize_toLower, String.utf8ByteSize_ofList]

theorem isToken_of_mem_sinkGroups {group : String} (h : group ∈ sinkGroups) :
    IsToken .trustedTypesSinkGroup quotedName (Lexeme.quotedText group).toList group := by
  refine isToken_sinkGroup_iff.mpr ⟨h, ?_⟩
  rw [String.ofList_toList]
  exact toLower_eq_self (isUpper_eq_false_of_sinkGroup group h)

/-! ### Entries of a trusted-types list -/

/-- The word is written as this entry.  Keywords are written in any letter case. -/
def TrustedType.WrittenAs (token : List Char) : TrustedType → Prop
  | .policyName name => name.toList ∈ Lexeme.trustedTypesPolicyName.language ∧ token = name.toList
  | .keyword word => word ∈ trustedTypesKeywords ∧
      (String.ofList token).toLower = Lexeme.quotedText word
  | .wildcard => token = ['*']

theorem stops_of_policyName (h : token ∈ Lexeme.trustedTypesPolicyName.language) :
    ∃ c tail, token = c :: tail ∧ c ≠ '\x27' ∧ c ≠ '*' := by
  obtain ⟨hne, hall⟩ := Lexeme.mem_language_plus_one.mp h
  obtain ⟨c, tail, rfl⟩ := List.exists_cons_of_ne_nil hne
  have hc : isPolicyNameChar c := hall c (by simp)
  refine ⟨c, tail, rfl, ?_, ?_⟩
  · rintro rfl
    simp [isPolicyNameChar] at hc
  · rintro rfl
    simp [isPolicyNameChar] at hc

theorem fails_ttKeyword {c : Char} (hc : c ≠ '\x27') : Phrase.ttKeyword.Fails (c :: rest) := by
  apply Phrase.fails_of_forall_prefix
  rintro s t offset trees heq ⟨hmem, -⟩
  obtain ⟨word, -, hword⟩ :=
    (Lexeme.mem_language_oneOf_quotedWord isUpper_eq_false_of_trustedTypesKeyword).mp hmem
  obtain ⟨tail, rfl⟩ := exists_cons_of_quoted hword
  exact hc (List.cons.inj heq).1

theorem TrustedType.WrittenAs.takes {entry : TrustedType} (h : entry.WrittenAs token)
    (hrest : Stops (!isBlank ·) rest) : Phrase.ttExpression.Takes token rest := by
  cases entry with
  | policyName name =>
    rcases h with ⟨hname, rfl⟩
    obtain ⟨c, tail, hsplit, hquote, hstar⟩ := stops_of_policyName hname
    obtain ⟨hne, hall⟩ := Lexeme.mem_language_plus_one.mp hname
    have hread : Phrase.ttPolicyName.Takes name.toList rest :=
      Phrase.takes_token (Lexeme.takes_plus_one hne hall
        (stops_of_break hrest fun _ => isValueChar_of_isPolicyNameChar))
    have hwildcard : Phrase.ttWildcard.Fails (name.toList ++ rest) := by
      apply Phrase.fails_token
      apply Lexeme.fails_literal
      rw [hsplit]
      intro hfront
      exact hstar (List.cons_prefix_cons.mp hfront).1.symm
    have hkeyword : Phrase.ttKeyword.Fails (name.toList ++ rest) := by
      rw [hsplit]
      exact fails_ttKeyword hquote
    exact ((hread.alt_right hwildcard).alt_right hkeyword).node
  | keyword word =>
    rcases h with ⟨hword, htext⟩
    have hread : Phrase.ttKeyword.Takes token rest :=
      Phrase.takes_token (Lexeme.takes_oneOf_quotedWord hword
        isUpper_eq_false_of_trustedTypesKeyword (by decide) htext)
    exact hread.alt_left.node
  | wildcard =>
    obtain rfl : token = ['*'] := h
    have hread : Phrase.ttWildcard.Takes ['*'] rest :=
      Phrase.takes_token (Lexeme.takes_literal "*")
    exact (hread.alt_left.alt_right (fails_ttKeyword (by decide))).node

/-- What a word means as an entry, if it is one: its first character tells. -/
def TrustedType.ofWord : List Char → TrustedType
  | ['*'] => .wildcard
  | '\x27' :: tail => .keyword (quotedName (.ofList ('\x27' :: tail)))
  | token => .policyName (.ofList token)

theorem TrustedType.WrittenAs.eq_ofWord {entry : TrustedType} (h : entry.WrittenAs token) :
    entry = .ofWord token := by
  cases entry with
  | policyName name =>
    rcases h with ⟨hname, rfl⟩
    obtain ⟨c, tail, hsplit, hquote, hstar⟩ := stops_of_policyName hname
    have hword : ofWord name.toList = .policyName (.ofList name.toList) := by
      rw [hsplit]
      unfold ofWord
      split <;> simp_all
    rw [hword, String.ofList_toList]
  | keyword word =>
    rcases h with ⟨hword, htext⟩
    obtain ⟨tail, rfl⟩ := exists_cons_of_quoted htext
    have hfree : ∀ word ∈ trustedTypesKeywords, ∀ c ∈ word.toList, c ≠ '\x27' := by decide
    rw [ofWord, quotedName, Lexeme.toLower_unquoted htext (hfree word hword)]
  | wildcard =>
    obtain rfl : token = ['*'] := h
    rfl

/-- The rule that records entries of this kind. -/
def TrustedType.rule : TrustedType → Rule
  | .policyName _ => .ttPolicyName
  | .keyword _ => .ttKeyword
  | .wildcard => .ttWildcard

/-- **What is derived as an entry is written as one**, which its tree names. -/
theorem exists_writtenAs_of_derives_ttExpression {offset : Nat} {back : List Char}
    {trees : List Tree} (h : Phrase.ttExpression.Derives offset token back trees) :
    ∃ entry : TrustedType, entry.WrittenAs token ∧
      trees = [⟨.ttExpression, offset, offset + utf8Len token,
        [⟨entry.rule, offset, offset + utf8Len token, []⟩]⟩] := by
  rcases h with ⟨children, hchoice, rfl⟩
  rcases hchoice with ⟨hmem, rfl⟩ | ⟨hmem, rfl⟩ | ⟨hmem, rfl⟩
  · obtain ⟨word, hword, htext⟩ :=
      (Lexeme.mem_language_oneOf_quotedWord isUpper_eq_false_of_trustedTypesKeyword).mp hmem
    exact ⟨.keyword word, ⟨hword, htext⟩, rfl⟩
  · exact ⟨.wildcard, Lexeme.mem_language_literal.mp hmem, rfl⟩
  · exact ⟨.policyName (.ofList token), ⟨by simpa using hmem, by simp⟩, rfl⟩

theorem exists_of_derives_ttExpression {input : String} {front back : List Char} {trees : List Tree}
    (hinput : input.toList = front ++ (token ++ back))
    (h : Phrase.ttExpression.Derives (utf8Len front) token back trees) :
    ∃ tree entry, trees = [tree] ∧ Directive.Body.trustedTypeOf input tree = pure entry ∧
      entry.WrittenAs token := by
  obtain ⟨entry, hwritten, rfl⟩ := exists_writtenAs_of_derives_ttExpression h
  refine ⟨_, entry, rfl, ?_, hwritten⟩
  have htext := Tree.text_of_append entry.rule [] hinput
  cases entry with
  | keyword word =>
    have hfree : ∀ word ∈ trustedTypesKeywords, ∀ c ∈ word.toList, c ≠ '\x27' := by decide
    have hname : (unquoted (.ofList token)).toLower = word :=
      Lexeme.toLower_unquoted hwritten.2 (hfree word hwritten.1)
    rw [TrustedType.rule] at htext
    simp only [TrustedType.rule, Directive.Body.trustedTypeOf, htext, hname]
  | wildcard => rfl
  | policyName name =>
    have hname : String.ofList token = name := by rw [hwritten.2, String.ofList_toList]
    rw [TrustedType.rule, hname] at htext
    simp only [TrustedType.rule, Directive.Body.trustedTypeOf, htext]

theorem isReader_ttExpression :
    IsReader Phrase.ttExpression .ttExpression (fun token entry => entry.WrittenAs token)
      Directive.Body.trustedTypeOf where
  isItem := by
    apply Phrase.itemOf_node
    rintro offset word rest trees (⟨hmem, -⟩ | ⟨hmem, -⟩ | ⟨hmem, -⟩)
    · obtain ⟨keyword, hkeyword, htext⟩ :=
        (Lexeme.mem_language_oneOf_quotedWord isUpper_eq_false_of_trustedTypesKeyword).mp hmem
      obtain ⟨tail, htail⟩ := exists_cons_of_quoted htext
      have hvisible : ∀ word ∈ trustedTypesKeywords, ∀ c ∈ (Lexeme.quotedText word).toList,
          isValueChar c := by decide
      have hword := forall_isValueChar_of_toLower htext (hvisible keyword hkeyword)
      exact ⟨by simp [htail], by simpa using hword⟩
    · rw [Lexeme.mem_language_literal.mp hmem]
      exact ⟨by simp, by decide⟩
    · obtain ⟨hne, hall⟩ := Lexeme.mem_language_plus_one.mp hmem
      exact ⟨hne, fun c hc => isValueChar_of_isPolicyNameChar (hall c hc)⟩
  sound := by
    rintro input token tree ⟨front, back, hinput, hderives⟩
    obtain ⟨_, entry, hsingle, hread, hwritten⟩ := exists_of_derives_ttExpression hinput hderives
    rw [List.singleton_inj.mp hsingle]
    exact ⟨entry, hread, hwritten⟩
  complete := fun hwritten hrest => hwritten.takes hrest
  unique := fun ha hb => ha.eq_ofWord.trans hb.eq_ofWord.symm

end ContentSecurity

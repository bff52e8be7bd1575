import ContentSecurity.Proofs.Grammar.Lockstep
/-!
# Where a text stops matching

The position of a mismatch, for the rules of whole texts.  The text before it begins a text that
the rule accepts, because every part of these rules can be completed (`Phrase.Productive`).  For a
policy and for the tokens of a sandbox no longer piece of the text does: their tokens are runs of a
class of characters, so two texts are told apart only where they differ (`Phrase.Agrees`).
-/

namespace ContentSecurity.Grammar

open Text
open String (utf8Len)

namespace Phrase

variable {a item : Phrase} {lexeme : Lexeme} {rule root : Rule} {word : String}
variable {lax accepts : Char → Bool} {front left rest t : List Char}

/-! ### Every rule has texts -/

theorem productive_literal : (text (.literal word)).Productive :=
  ⟨_, Lexeme.mem_language_literal.mpr rfl⟩

theorem productive_word : (text (.word word)).Productive :=
  ⟨_, Lexeme.mem_language_word.mpr rfl⟩

theorem productive_gap : (text .gap).Productive :=
  ⟨[' '], Lexeme.mem_language_gap.mpr (by decide)⟩

theorem productive_blanks : (text .blanks).Productive :=
  ⟨[], Lexeme.mem_language_star_one.mpr (by simp)⟩

theorem productive_opt (h : item.Productive) : (opt item).Productive :=
  ⟨h, [], rfl⟩

theorem productive_schemePart : schemePart.Productive :=
  ⟨['a'], Lexeme.mem_language_schemePart.mpr ⟨'a', [], rfl, by decide, by simp⟩⟩

theorem productive_hostPart : (token .hostPart .hostPart).Productive :=
  ⟨['*'], Lexeme.mem_language_hostPart.mpr (Or.inr (Or.inl rfl))⟩

theorem productive_portPart : (token .portPart .portPart).Productive :=
  ⟨['*'], Lexeme.mem_language_portPart.mpr (Or.inr rfl)⟩

theorem productive_pathPart : (token .pathPart .pathPart).Productive :=
  ⟨['/'], Lexeme.mem_language_pathPart.mpr ⟨[], Language.nil_mem_kstar _, rfl⟩⟩

theorem productive_base64Value : base64Value.Productive :=
  ⟨['a'], Lexeme.mem_language_base64Value.mpr ⟨['a'], [], rfl, by simp, by decide, by simp⟩⟩

theorem productive_hashAlgorithm : (token .hashAlgorithm .hashAlgorithm).Productive :=
  ⟨_, Lexeme.mem_language_oneOf_word.mpr ⟨"sha256", by simp, rfl⟩⟩

theorem productive_schemeSource : schemeSource.Productive :=
  ⟨productive_schemePart, ⟨productive_literal, trivial, rfl, Or.inl rfl⟩, rfl, Or.inl rfl⟩

theorem productive_hostSource : hostSource.Productive :=
  ⟨productive_opt ⟨productive_schemePart, productive_literal, rfl, Or.inl rfl⟩,
    ⟨productive_hostPart,
      ⟨productive_opt ⟨productive_literal, productive_portPart, rfl, Or.inl rfl⟩,
        ⟨productive_opt productive_pathPart, trivial, rfl, Or.inl rfl⟩, rfl, Or.inl rfl⟩,
      rfl, Or.inl rfl⟩, rfl, Or.inl rfl⟩

theorem productive_nonceSource : nonceSource.Productive :=
  ⟨productive_literal, ⟨productive_word, ⟨productive_base64Value, productive_literal, rfl,
    Or.inl rfl⟩, rfl, Or.inl rfl⟩, rfl, Or.inl rfl⟩

theorem productive_hashSource : hashSource.Productive :=
  ⟨productive_literal, ⟨productive_hashAlgorithm, ⟨productive_literal, ⟨productive_base64Value,
    productive_literal, rfl, Or.inl rfl⟩, rfl, Or.inl rfl⟩, rfl, Or.inl rfl⟩, rfl, Or.inl rfl⟩

theorem productive_quotedWords {words : List String} (h : word ∈ words) :
    (token rule (.oneOf (words.map .quotedWord))).Productive :=
  ⟨_, Lexeme.mem_language_oneOf.mpr
    ⟨_, List.mem_map_of_mem h, Lexeme.mem_language_word.mpr rfl⟩⟩

theorem productive_plus {c : Char} (h : accepts c) :
    (token rule (.plus (.one accepts))).Productive :=
  ⟨[c], Lexeme.mem_language_plus_one.mpr ⟨by simp, by simpa using h⟩⟩

theorem productive_sourceExpression : sourceExpression.Productive :=
  ⟨productive_schemeSource, productive_hostSource, productive_quotedWords (.head _),
    productive_nonceSource, productive_hashSource⟩

theorem productive_ancestorSource : ancestorSource.Productive :=
  ⟨productive_schemeSource, productive_hostSource, productive_quotedWords (.head _)⟩

theorem productive_uriReference : uriReference.Productive :=
  ⟨['a'], Lexeme.mem_language_seq.mpr ⟨['a'], Or.inl ⟨'a', by decide, rfl⟩, [],
    Language.nil_mem_kstar _, rfl⟩⟩

theorem productive_ttExpression : ttExpression.Productive :=
  ⟨productive_quotedWords (.head _), ⟨_, Lexeme.mem_language_literal.mpr rfl⟩,
    productive_plus (c := 'a') rfl⟩

/-- What starts with a gap starts with a blank. -/
theorem stops_of_derives_gap_seq {offset : Nat} {trees : List Tree}
    (h : (seq (text .gap) item).Derives offset t rest trees) : t ≠ [] ∧ Stops (!isBlank ·) t := by
  obtain ⟨gap, next, _, _, ⟨hgap, -⟩, -, rfl, -⟩ := h
  obtain ⟨hne, hblank⟩ := Lexeme.mem_language_gap.mp hgap
  exact ⟨by simp [hne], (stops_of_forall fun c hc => by simp [hblank c hc]).append_left hne⟩

theorem productive_separated (h : item.Productive) (hends : item.ends = false) :
    (separated item .gap).Productive := by
  have hnext : (seq (text .gap) item).Productive := ⟨productive_gap, h, rfl, Or.inl rfl⟩
  have hbreak : ∀ t, (star (seq (text .gap) item)).Describes t → Stops (!isBlank ·) t := by
    rintro _ ⟨_, _, _, _ | ⟨first, further⟩⟩
    · exact stops_nil
    · obtain ⟨hne, hstop⟩ := stops_of_derives_gap_seq first
      exact hstop.append_left hne
  have hblank : ∀ t, (seq (text .gap) item).Describes t → Stops (!isBlank ·) t := by
    rintro t ⟨_, _, _, hderives⟩
    exact (stops_of_derives_gap_seq hderives).2
  exact ⟨h, ⟨hnext, hends, Or.inr hblank⟩, hends, Or.inr hbreak⟩

theorem productive_seq_finish (h : a.Productive) (hends : a.ends = false) :
    (seq a finish).Productive := by
  refine ⟨h, trivial, hends, Or.inr ?_⟩
  rintro _ ⟨_, _, _, rfl, -, -⟩
  exact stops_nil

theorem productive_list (h : item.Productive) (hends : item.ends = false) :
    (list root item).Productive :=
  productive_seq_finish (productive_separated h hends) (by simp [separated, ends, hends])

theorem productive_listOrNothing (h : item.Productive) (hends : item.ends = false) :
    (listOrNothing root item).Productive :=
  productive_seq_finish (productive_opt (productive_separated h hends))
    (by simp [opt, separated, ends, hends])

theorem productive_serializedDirective : serializedDirective.Productive :=
  ⟨productive_plus (c := 'a') rfl,
    productive_opt ⟨productive_gap, ⟨['a'], Lexeme.mem_language_directiveValue.mpr
      ⟨by simp, by decide, bare_of_forall (by decide)⟩⟩, rfl, Or.inl rfl⟩, rfl, Or.inl rfl⟩

theorem productive_serializedPolicy : serializedPolicy.Productive := by
  have hfurther : Policy.further.Productive :=
    ⟨productive_blanks, ⟨productive_literal, productive_opt ⟨productive_blanks,
      productive_serializedDirective, rfl, Or.inl rfl⟩, rfl, Or.inl rfl⟩, rfl, Or.inl rfl⟩
  have htail : (seq (star Policy.further) (seq (text .blanks) finish)).Productive :=
    ⟨⟨hfurther, rfl, Or.inl rfl⟩, productive_seq_finish productive_blanks rfl, rfl, Or.inl rfl⟩
  exact ⟨productive_blanks, ⟨productive_serializedDirective, htail, rfl, Or.inl rfl⟩, rfl,
    Or.inl rfl⟩

/-! ### Runs of characters -/

theorem le_noChar (c : Char) (h : noChar c) : lax c :=
  nomatch h

theorem agrees_blanks (front : List Char) : (text .blanks).Agrees noChar front := by
  refine agrees_of_run (fun _ _ _ hall hstop => takes_text (Lexeme.takes_blanks hall hstop))
    fun hstop => ?_
  cases front with
  | nil =>
    refine agrees_of_clears (clears_of_found fun c => ?_) (by simp)
    simp [Lexeme.blanks, Lexeme.read]
  | cons c front =>
    have hnone : ∀ back, (text .blanks).Takes [] (c :: front ++ back) := fun back =>
      takes_text (Lexeme.takes_blanks (by simp) (hstop.append_left (by simp)))
    exact agrees_of_takes hnone

theorem agrees_gap (hne : front ≠ []) : (text .gap).Agrees noChar front :=
  agrees_of_run (fun _ _ hne hall hstop => takes_text (Lexeme.takes_gap hne hall hstop))
    fun hstop => agrees_of_fails fun _ =>
      fails_text (Lexeme.fails_one (hstop.append_left hne)).plus

theorem agrees_plus (front : List Char) :
    (token rule (.plus (.one accepts))).Agrees noChar front := by
  refine agrees_of_run
    (fun _ _ hne hall hstop => takes_token (Lexeme.takes_plus_one hne hall hstop))
    fun hstop => ?_
  cases front with
  | nil => exact agrees_of_clears clears_token (by simp)
  | cons c front =>
    exact agrees_of_fails fun _ =>
      fails_token (Lexeme.fails_one (hstop.append_left (by simp))).plus

theorem agrees_gap_seq (hne : front ≠ []) (hitem : ∀ t, item.Agrees lax t)
    (hclears : item.Clears noChar) : (seq (text .gap) item).Agrees lax front :=
  (agrees_gap hne).seq hitem hclears le_noChar

/-! ### The tokens of a sandbox -/

/-- Items with gaps between them agree if the items do. -/
theorem agrees_listOrNothing (hitem : ∀ t, item.Agrees noChar t) (hclears : item.Clears noChar)
    (front : List Char) : (listOrNothing root item).Agrees noChar front := by
  have hfurther : ∀ t, (star (seq (text .gap) item)).Agrees noChar t := by
    refine agrees_star (fun front hfront => ?_) fun offset rest trees h => ?_
    · refine agrees_gap_seq ?_ hitem hclears
      rintro rfl
      simp at hfront
    · exact (stops_of_derives_gap_seq h).1 rfl
  have hitems : (opt (separated item .gap)).Agrees noChar front :=
    agrees_opt fun _ => (hitem front).seq hfurther clears_star le_noChar
  exact (hitems.seq agrees_finish clears_finish le_noChar).node

theorem agrees_sandboxRoot (front : List Char) : sandboxRoot.Agrees noChar front :=
  agrees_listOrNothing agrees_plus clears_token front

/-! ### The clauses of a policy -/

/-- A character inside of the value of a directive. -/
def isInner (c : Char) : Bool :=
  isBlank c || isValueChar c

theorem takes_value {value after : List Char} (hvalue : value ∈ Lexeme.directiveValue.language)
    (hafter : ∀ c ∈ after, isBlank c) (hrest : Stops isInner rest) :
    (token rule .directiveValue).Takes value (after ++ rest) := by
  have hblank : Stops isBlank rest := hrest.mono fun c hc => by simp [isInner, hc]
  refine takes_token (Lexeme.takes_directiveValue hvalue ?_)
  rw [dropWhile_append_of_stops hafter hblank]
  exact hrest.mono fun c hc => by simp [isInner, hc]

/-- A run that starts with a visible character is a value, and possibly blanks. -/
theorem exists_value_of_run {run : List Char} (hne : run ≠ []) (hstart : Stops isBlank run)
    (hall : ∀ c ∈ run, isInner c) : ∃ value after, run = value ++ after ∧
      value ∈ Lexeme.directiveValue.language ∧ ∀ c ∈ after, isBlank c := by
  obtain ⟨before, after, hrun, hbefore, hafter⟩ := exists_trimmed isBlank run
  have hvalue : trimmed isBlank run ≠ [] := by
    intro hnil
    obtain ⟨c, others, rfl⟩ := List.exists_cons_of_ne_nil hne
    have hblank := trimmed_eq_nil_iff.mp hnil c (by simp)
    simp [stops_cons.mp hstart] at hblank
  obtain rfl : before = [] := by
    rw [hrun] at hstart
    cases before with
    | nil => rfl
    | cons c before =>
      have hblank := hbefore c (by simp)
      simp [stops_cons.mp hstart] at hblank
  refine ⟨trimmed isBlank run, after, hrun, ?_, hafter⟩
  refine Lexeme.mem_language_directiveValue.mpr ⟨hvalue, fun c hc => ?_, bare_trimmed isBlank run⟩
  rw [hrun] at hall
  simpa [isInner] using hall c (by simp [hc])

/-- A value goes on as far as it can. -/
theorem exists_takes_value {value after : List Char}
    (hvalue : value ∈ Lexeme.directiveValue.language) (hafter : ∀ c ∈ after, isBlank c)
    (back : List Char) : ∃ more rest, after ++ back = more ++ rest ∧
      (token rule .directiveValue).Takes (value ++ more) rest := by
  obtain ⟨hne, hinner, hbare⟩ := Lexeme.mem_language_directiveValue.mp hvalue
  obtain ⟨run, rest, rfl, hrun, hrest⟩ := exists_run isInner back
  have hall : ∀ c ∈ value ++ (after ++ run), isInner c := by
    rw [List.forall_mem_append, List.forall_mem_append]
    exact ⟨fun c hc => by simpa [isInner] using hinner c hc,
      fun c hc => by simp [isInner, hafter c hc], hrun⟩
  obtain ⟨longer, blanks, heq, hlonger, hblanks⟩ :=
    exists_value_of_run (by simp [hne]) (hbare.1.append_left hne) hall
  obtain ⟨more, rfl⟩ : ∃ more, longer = value ++ more := by
    rcases List.append_eq_append_iff.mp heq with ⟨more, rfl, -⟩ | ⟨tail, rfl, rfl⟩
    · exact ⟨more, rfl⟩
    · -- A shorter one would leave blanks at the end of the value.
      obtain rfl := hbare.eq_nil_of_append fun c hc => hblanks c (List.mem_append_left _ hc)
      exact ⟨[], by simp⟩
  rw [List.append_assoc] at heq
  refine ⟨more, blanks ++ rest, ?_, takes_value hlonger hblanks hrest⟩
  rw [← List.append_assoc, ← List.append_assoc, List.append_cancel_left heq]

theorem agrees_directiveValue (front : List Char) :
    (token rule .directiveValue).Agrees isBlank front := by
  by_cases hstart : Stops isValueChar front
  · cases front with
    | nil => exact (agrees_of_clears clears_token (by simp)).mono le_noChar
    | cons c front =>
      exact agrees_of_fails fun _ =>
        fails_token (Lexeme.fails_one (hstart.append_left (by simp))).plus.seq_left
  obtain ⟨run, others, rfl, hrun, hrest⟩ := exists_run isInner front
  have hfirst : run ≠ [] ∧ Stops isBlank run := by
    cases run with
    | nil => exact absurd (hrest.mono fun c hc => by simp [isInner, hc]) hstart
    | cons c run =>
      have hc : isValueChar c := by simpa using hstart
      simp [isBlank_eq_false_of_isValueChar hc]
  obtain ⟨value, after, rfl, hvalue, hafter⟩ := exists_value_of_run hfirst.1 hfirst.2 hrun
  by_cases hone : others = []
  · subst hone
    rw [List.append_nil]
    exact agrees_of_covers hafter (exists_takes_value hvalue hafter)
  · rw [List.append_assoc]
    refine agrees_of_takes fun back => ?_
    rw [List.append_assoc]
    exact takes_value hvalue hafter (hrest.append_left hone)

theorem agrees_serializedDirective (front : List Char) :
    serializedDirective.Agrees isBlank front := by
  have hvalue : ∀ t,
      (opt (seq (text .gap) (token .directiveValue .directiveValue))).Agrees isBlank t := by
    intro t
    refine agrees_opt fun ht => agrees_gap_seq ?_ agrees_directiveValue clears_token
    rintro rfl
    simp at ht
  exact (Agrees.seq (agrees_plus front) hvalue clears_opt le_noChar).node

/-- A further directive, unless there are blanks only. -/
theorem agrees_further (hfront : ∃ c ∈ front, isBlank c = false) :
    Policy.further.Agrees isBlank front := by
  obtain ⟨gap, others, rfl, hblank, hstop⟩ := exists_run isBlank front
  obtain ⟨c, others, rfl⟩ : ∃ c tail, others = c :: tail := by
    refine List.exists_cons_of_ne_nil ?_
    rintro rfl
    obtain ⟨c, hc, hvisible⟩ := hfront
    rw [List.append_nil] at hc
    simp [hblank c hc] at hvisible
  have hdirective : ∀ t, (opt (seq (text .blanks) serializedDirective)).Agrees isBlank t := fun t =>
    agrees_opt fun _ => (agrees_blanks t).seq agrees_serializedDirective clears_node le_noChar
  have hblanks : ∀ back, (text .blanks).Takes gap (c :: others ++ back) := fun back =>
    takes_text (Lexeme.takes_blanks hblank (hstop.append_left (by simp)))
  refine Agrees.seq_of_takes ?_ hblanks
  by_cases hsign : c = ';'
  · subst hsign
    exact Agrees.seq_of_takes (hdirective others) fun back => takes_literal ";" _
  · refine agrees_of_fails fun back => (fails_text (Lexeme.fails_literal ?_)).seq_left
    intro hprefix
    have hfirst : ';' = c := by simpa using hprefix
    exact hsign hfirst.symm

theorem clears_blanks_finish : (seq (text .blanks) finish).Clears isBlank := by
  intro offset left rest hleft hnone
  obtain ⟨gap, others, rfl, hgap, hstop⟩ := exists_run isBlank rest
  have hblanks : (text .blanks).Takes (left ++ gap) others :=
    takes_text (Lexeme.takes_blanks (List.forall_mem_append.mpr ⟨hleft, hgap⟩) hstop)
  obtain ⟨trees, hfound⟩ := hblanks offset
  rw [List.append_assoc] at hfound
  have hpast : (Cursor.atOffset (offset + utf8Len (left ++ gap)) others).Past noChar
      (offset + utf8Len left) := by
    refine ⟨[], _, rfl, by simp, ?_⟩
    simp only [Cursor.offset_atOffset, String.utf8Len_append]
    omega
  exact le_reach_seq hfound hpast clears_finish hnone

/-- Behind a directive: further ones, and blanks at the end of the text. -/
theorem clears_tail : (seq (star Policy.further) (seq (text .blanks) finish)).Clears isBlank :=
  clears_star.seq clears_blanks_finish

theorem agrees_tail (front : List Char) :
    (seq (star Policy.further) (seq (text .blanks) finish)).Agrees isBlank front := by
  have hnil : ∀ offset rest trees, ¬ Policy.further.Derives offset [] rest trees := by
    rintro offset rest trees ⟨gap, _, _, _, -, ⟨sign, _, _, _, ⟨hsign, -⟩, -, rfl, -⟩, hnil, -⟩
    rw [Lexeme.mem_language_literal.mp hsign] at hnil
    simp at hnil
  have hend : ∀ t, (seq (text .blanks) finish).Agrees isBlank t := fun t =>
    (agrees_blanks t).seq (fun t => (agrees_finish t).mono le_noChar) clears_finish le_noChar
  exact (agrees_star (fun _ => agrees_further) hnil front).seq hend clears_blanks_finish fun _ => id

theorem agrees_serializedPolicy (front : List Char) : serializedPolicy.Agrees isBlank front := by
  have hdirectives : ∀ t, (seq serializedDirective
      (seq (star Policy.further) (seq (text .blanks) finish))).Agrees isBlank t := fun t =>
    (agrees_serializedDirective t).seq agrees_tail clears_tail fun _ => id
  exact ((agrees_blanks front).seq hdirectives (clears_node.seq (clears_tail.mono le_noChar))
    le_noChar).node

end Phrase

/-! ### The position of a mismatch -/

namespace Rule

open Phrase

variable {rule : Rule} {input : String} {error : Error}

/-- The text begins one that the rule accepts. -/
def Viable (rule : Rule) (front : String) : Prop :=
  ∃ back trees, rule.trees (front ++ back) = .ok trees

theorem productive_body {body : Phrase} (h : rule ∈ roots)
    (hphrase : rule.phrase = .node rule body) : body.Productive := by
  suffices hrule : rule.phrase.Productive by
    rw [hphrase] at hrule
    exact hrule
  cases rule with
  | serializedPolicy => exact productive_serializedPolicy
  | serializedSourceList => exact productive_list productive_sourceExpression rfl
  | ancestorSourceListRoot => exact productive_list productive_ancestorSource rfl
  | sandboxRoot => exact productive_listOrNothing (productive_plus (c := 'a') rfl) rfl
  | reportUriRoot => exact productive_list productive_uriReference rfl
  | trustedTypesRoot => exact productive_listOrNothing productive_ttExpression rfl
  | requireTrustedTypesForRoot => exact productive_list (productive_quotedWords (.head _)) rfl
  | _ => exact absurd h (by decide)

/-- Behind the attempt of a rule the text can be completed to one that is accepted. -/
theorem viable_of_attempts {front back : List Char} (h : rule ∈ roots)
    (hattempts : rule.phrase.Attempts 0 front back) : rule.Viable (.ofList front) := by
  obtain ⟨body, hphrase, hcomposed, -⟩ := exists_body_of_mem_roots h
  have hproductive := productive_body h hphrase
  rw [hphrase] at hattempts
  obtain ⟨more, hmore⟩ : ∃ more, body.Describes (front ++ more) := by
    rcases hattempts with rfl | hattempts
    · exact exists_describes hcomposed hproductive
    · exact exists_describes_of_attempts hcomposed hproductive hattempts
  obtain ⟨children, hbody⟩ := hmore.exists_derives hcomposed 0 (Or.inr stops_nil) (Or.inr rfl)
  have hderives : ∃ trees, rule.phrase.Derives 0 (front ++ more) [] trees := by
    rw [hphrase]
    exact ⟨_, children, hbody, rfl⟩
  have hrecorded : ∀ rule ∈ roots, rule ∉ silent ∧ rule ≠ .endOfInput := by decide
  obtain ⟨hsilent, hend⟩ := hrecorded rule h
  obtain ⟨_, hwhole⟩ := hderives
  have htakes := takes_of_derives hsilent hend hwhole
  rw [← String.toList_ofList (l := front ++ more)] at htakes
  obtain ⟨trees, htrees⟩ := exists_trees_of_takes htakes
  exact ⟨.ofList more, trees, by rw [← String.ofList_append, htrees]⟩

/-- The place that is reported, as the end of a front part of the text. -/
theorem exists_attempts_of_reach (h : rule ∈ roots) (input : String) :
    ∃ front back, input.toList = front ++ back ∧
      (rule.phrase.read (.start input)).reach = utf8Len front ∧
      rule.phrase.Attempts 0 front back := by
  rcases reports_read rule.phrase (.start input) with
    hreach | ⟨front, back, hinput, hreach, hattempts⟩
  · obtain ⟨body, hphrase, -⟩ := exists_body_of_mem_roots h
    refine ⟨[], input.toList, rfl, hreach, ?_⟩
    rw [hphrase]
    exact Or.inl rfl
  · refine ⟨front, back, hinput, hreach.trans (Nat.zero_add _), hattempts⟩

theorem le_reach_of_viable {lax : Char → Bool} {front back : String}
    (hagrees : ∀ front, rule.phrase.Agrees lax front) (hviable : rule.Viable front)
    (hnone : (rule.phrase.read (.start (front ++ back))).found = none) :
    front.utf8ByteSize ≤ (rule.phrase.read (.start (front ++ back))).reach := by
  obtain ⟨other, trees, htrees⟩ := hviable
  obtain ⟨d, hother⟩ := trees_eq_ok_iff.mp htrees
  rw [Cursor.start, String.toList_append] at hnone hother ⊢
  have hreach := (hagrees front.toList).le_reach hnone (by rw [hother]; simp)
  rwa [Nat.zero_add, String.utf8Len_toList] at hreach

end Rule

/-- **The position of a mismatch.**  It lies between two characters of the text, and what precedes
it begins a text that the rule accepts.  For a policy and for the tokens of a sandbox this is the
longest piece at the front of the text that does. -/
theorem Rule.mismatch_position (rule : Rule) (hrule : rule ∈ roots) (input : String) (error : Error)
    (h : rule.trees input = .error error) :
    ∃ position, error = rule.mismatch input position ∧ position ≤ input.utf8ByteSize ∧
      String.Pos.Raw.IsValid input ⟨position⟩ ∧
      (∃ front back, input = front ++ back ∧ front.utf8ByteSize = position ∧ rule.Viable front) ∧
      (rule = .serializedPolicy ∨ rule = .sandboxRoot → ∀ front back, input = front ++ back →
        rule.Viable front → front.utf8ByteSize ≤ position) := by
  obtain ⟨hnone, herror⟩ := trees_eq_error_iff.mp h
  obtain ⟨front, back, hinput, hreach, hattempts⟩ := exists_attempts_of_reach hrule input
  have hsize := congrArg utf8Len hinput
  rw [String.utf8Len_toList, String.utf8Len_append] at hsize
  refine ⟨_, herror, by omega, ?_, ⟨.ofList front, .ofList back, ?_, ?_, ?_⟩, ?_⟩
  · rw [hreach]
    exact isValid_of_append hinput
  · rw [← String.ofList_append, ← hinput, String.ofList_toList]
  · rw [String.utf8ByteSize_ofList, hreach]
  · exact viable_of_attempts hrule hattempts
  · rintro (rfl | rfl) start rest rfl hviable
    · exact le_reach_of_viable Phrase.agrees_serializedPolicy hviable hnone
    · exact le_reach_of_viable Phrase.agrees_sandboxRoot hviable hnone

theorem Rule.mismatch_position_semicolon :
    serializedPolicy ∈ roots ∧
      serializedPolicy.trees "a;é" = .error (serializedPolicy.mismatch "a;é" 2) ∧
      (∃ front back, "a;é" = front ++ back ∧ front.utf8ByteSize = 2 ∧
        serializedPolicy.Viable front) ∧
      ∀ front back, "a;é" = front ++ back → serializedPolicy.Viable front →
        front.utf8ByteSize ≤ 2 := by
  have htrees : serializedPolicy.trees "a;é" = .error (serializedPolicy.mismatch "a;é" 2) := by
    with_unfolding_all rfl
  obtain ⟨position, hposition, -, -, hviable, hlongest⟩ :=
    mismatch_position .serializedPolicy (by decide) "a;é" _ htrees
  obtain rfl : 2 = position := by
    simpa [mismatch] using hposition
  exact ⟨by decide, htrees, hviable, hlongest (Or.inl rfl)⟩

end ContentSecurity.Grammar

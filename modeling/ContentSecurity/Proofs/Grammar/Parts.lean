import ContentSecurity.Proofs.Grammar.Classes
import ContentSecurity.Proofs.Grammar.Commitment
/-!
# The tokens of the header grammar

For each token the texts that it describes, and where they are taken: before a character with
which the token could not go on.  In front of such a rest every token takes exactly the texts of
its language, so as a whole text it is read if and only if it is one of them.
-/

namespace ContentSecurity.Grammar.Lexeme

open Text

variable {s t text rest : List Char} {a b item lexeme : Lexeme} {accepts : Char → Bool}

/-! ### The characters of a token -/

/-- Every character that the lexeme may read lies in a class. -/
def Over : Lexeme → (Char → Bool) → Prop
  | .empty, _ => True
  | .one own, accepts => ∀ c, own c → accepts c
  | .seq a b, accepts => a.Over accepts ∧ b.Over accepts
  | .alt a b, accepts => a.Over accepts ∧ b.Over accepts
  | .star item, accepts => item.Over accepts

theorem Over.forall_mem (h : lexeme.Over accepts) (ht : text ∈ lexeme.language) :
    ∀ c ∈ text, accepts c := by
  induction lexeme generalizing text with
  | empty =>
    obtain rfl : text = [] := ht
    simp
  | one own =>
    rcases ht with ⟨c, hc, rfl⟩
    simpa using h c hc
  | seq a b iha ihb =>
    obtain ⟨first, hfirst, second, hsecond, rfl⟩ := mem_language_seq.mp ht
    intro c hc
    rcases List.mem_append.mp hc with hc | hc
    · exact iha h.1 hfirst c hc
    · exact ihb h.2 hsecond c hc
  | alt a b iha ihb =>
    rcases ht with ht | ht
    · exact iha h.1 ht
    · exact ihb h.2 ht
  | star item ih =>
    obtain ⟨parts, rfl, hparts⟩ := mem_language_star.mp ht
    intro c hc
    obtain ⟨part, hpart, hcp⟩ := List.mem_flatten.mp hc
    exact ih h (hparts part hpart) c hcp

theorem over_plus (h : item.Over accepts) : (plus item).Over accepts :=
  ⟨h, h⟩

theorem over_opt (h : item.Over accepts) : (opt item).Over accepts :=
  ⟨h, trivial⟩

theorem over_each {classes : List (Char → Bool)}
    (h : ∀ own ∈ classes, ∀ c, own c → accepts c) : (each classes).Over accepts := by
  induction classes with
  | nil => trivial
  | cons own classes ih =>
    exact ⟨h own (by simp), ih fun o ho => h o (List.mem_cons_of_mem _ ho)⟩

theorem over_literal {word : String} (h : ∀ c ∈ word.toList, accepts c) :
    (literal word).Over accepts := by
  apply over_each
  intro own hown c hc
  obtain ⟨d, hd, rfl⟩ := List.mem_map.mp hown
  rw [beq_iff_eq.mp hc]
  exact h d hd

/-- The class has to be indifferent to letter case, as a word is. -/
theorem over_word {word : String} (hcase : ∀ c, accepts c.toLower = accepts c)
    (h : ∀ c ∈ word.toList, accepts c) : (Lexeme.word word).Over accepts := by
  apply over_each
  intro own hown c hc
  obtain ⟨d, hd, rfl⟩ := List.mem_map.mp hown
  rw [← hcase, beq_iff_eq.mp hc, hcase]
  exact h d hd

theorem over_oneOf {items : List Lexeme} (h : ∀ item ∈ items, item.Over accepts) :
    (oneOf items).Over accepts := by
  induction items with
  | nil => simp [oneOf, Over]
  | cons item others ih =>
    cases others with
    | nil => exact h item (by simp)
    | cons other others =>
      exact ⟨h item (by simp), ih fun choice hchoice => h choice (by simp [hchoice])⟩

theorem over_oneOf_word {words : List String}
    (h : ∀ word ∈ words, ∀ c ∈ word.toList, isValueChar c) :
    (oneOf (words.map Lexeme.word)).Over isValueChar := by
  apply over_oneOf
  intro item hitem
  obtain ⟨word, hword, rfl⟩ := List.mem_map.mp hitem
  exact over_word isValueChar_toLower (h word hword)

/-! ### Names and values of directives -/

theorem mem_language_directiveName :
    text ∈ directiveName.language ↔ text ≠ [] ∧ ∀ c ∈ text, isNameChar c :=
  mem_language_plus_one

theorem takes_directiveName (ht : text ∈ directiveName.language) (hrest : Stops isNameChar rest) :
    directiveName.Takes text rest := by
  obtain ⟨hne, hall⟩ := mem_language_directiveName.mp ht
  exact takes_plus_one hne hall hrest

theorem mem_language_gap : text ∈ gap.language ↔ text ≠ [] ∧ ∀ c ∈ text, isBlank c :=
  mem_language_plus_one

theorem takes_gap (hne : text ≠ []) (hall : ∀ c ∈ text, isBlank c) (hrest : Stops isBlank rest) :
    gap.Takes text rest :=
  takes_plus_one hne hall hrest

theorem takes_blanks (hall : ∀ c ∈ text, isBlank c) (hrest : Stops isBlank rest) :
    blanks.Takes text rest :=
  takes_star_one hall hrest

theorem mem_language_directiveValue_iff_exists :
    text ∈ directiveValue.language ↔
      ∃ first parts, text = first ++ List.flatten parts ∧ first ≠ [] ∧
        (∀ c ∈ first, isValueChar c) ∧
        ∀ part ∈ parts, ∃ gap run, part = gap ++ run ∧ gap ≠ [] ∧ (∀ c ∈ gap, isBlank c) ∧
          run ≠ [] ∧ ∀ c ∈ run, isValueChar c := by
  rw [directiveValue, mem_language_seq]
  constructor
  · rintro ⟨first, hfirst, tail, htail, rfl⟩
    obtain ⟨parts, rfl, hparts⟩ := mem_language_star.mp htail
    obtain ⟨hne, hall⟩ := mem_language_plus_one.mp hfirst
    refine ⟨first, parts, rfl, hne, hall, fun part hpart => ?_⟩
    obtain ⟨gap, hgap, run, hrun, rfl⟩ := mem_language_seq.mp (hparts part hpart)
    obtain ⟨hgne, hgall⟩ := mem_language_gap.mp hgap
    obtain ⟨hrne, hrall⟩ := mem_language_plus_one.mp hrun
    exact ⟨gap, run, rfl, hgne, hgall, hrne, hrall⟩
  · rintro ⟨first, parts, rfl, hne, hall, hparts⟩
    refine ⟨first, mem_language_plus_one.mpr ⟨hne, hall⟩, _,
      mem_language_star.mpr ⟨parts, rfl, fun part hpart => ?_⟩, rfl⟩
    obtain ⟨gap, run, rfl, hgne, hgall, hrne, hrall⟩ := hparts part hpart
    exact mem_language_seq.mpr ⟨gap, mem_language_gap.mpr ⟨hgne, hgall⟩, run,
      mem_language_plus_one.mpr ⟨hrne, hrall⟩, rfl⟩

/-- **The values of directives** are the texts of visible characters and blanks that are not empty
and have no blank at either end. -/
theorem mem_language_directiveValue :
    text ∈ directiveValue.language ↔
      text ≠ [] ∧ (∀ c ∈ text, isBlank c ∨ isValueChar c) ∧ Bare isBlank text := by
  rw [mem_language_directiveValue_iff_exists]
  constructor
  · rintro ⟨first, parts, rfl, hne, hall, hparts⟩
    refine ⟨by simp [hne], ?_, ?_⟩
    · intro c hc
      rcases List.mem_append.mp hc with hc | hc
      · exact Or.inr (hall c hc)
      · obtain ⟨part, hpart, hcp⟩ := List.mem_flatten.mp hc
        obtain ⟨gap, run, rfl, -, hgall, -, hrall⟩ := hparts part hpart
        exact (List.mem_append.mp hcp).imp (hgall c) (hrall c)
    · -- each part ends with a visible character, which the next one then starts from
      induction parts generalizing first with
      | nil =>
        rw [List.flatten_nil, List.append_nil]
        exact bare_of_forall fun c hc => isBlank_eq_false_of_isValueChar (hall c hc)
      | cons part parts ih =>
        obtain ⟨gap, run, rfl, -, -, hrne, hrall⟩ := hparts part (by simp)
        have htail := ih run hrne hrall fun p hp => hparts p (List.mem_cons_of_mem _ hp)
        have hbare : Bare isBlank first :=
          bare_of_forall fun c hc => isBlank_eq_false_of_isValueChar (hall c hc)
        have happend : Bare isBlank (first ++ gap ++ (run ++ parts.flatten)) :=
          hbare.append htail hne (by simp [hrne])
        simpa using happend
  · rintro ⟨hne, hall, hbare⟩
    have hvisible : ∀ {c : Char}, isBlank c = false → (isBlank c ∨ isValueChar c) →
        isValueChar c := fun hc h => h.resolve_left (by simp [hc])
    revert hall
    refine Bare.induct ?_ ?_ hne hbare
    · intro text hne hrun hall
      exact ⟨text, [], by simp, hne, fun c hc => hvisible (hrun c hc) (hall c hc), by simp⟩
    · intro text gap rest hne hrun hgne hgap _ _ ih hall
      obtain ⟨run, parts, rfl, hrne, hrall, hparts⟩ := ih fun c hc => hall c (by simp [hc])
      refine ⟨text, (gap ++ run) :: parts, by simp, hne,
        fun c hc => hvisible (hrun c hc) (hall c (by simp [hc])), ?_⟩
      intro part hpart
      rcases List.mem_cons.mp hpart with rfl | hpart
      · exact ⟨gap, run, rfl, hgne, hgap, hrne, hrall⟩
      · exact hparts part hpart

theorem takes_directiveValue (ht : text ∈ directiveValue.language)
    (hrest : Stops isValueChar (rest.dropWhile isBlank)) : directiveValue.Takes text rest := by
  obtain ⟨first, parts, rfl, hne, hall, hparts⟩ := mem_language_directiveValue_iff_exists.mp ht
  have hcut : rest.takeWhile isBlank ++ rest.dropWhile isBlank = rest :=
    List.takeWhile_append_dropWhile
  have hblank : ∀ c ∈ rest.takeWhile isBlank, isBlank c :=
    fun _ => List.mem_takeWhile_imp
  have hvisible : ∀ {c : Char}, isBlank c → isValueChar c = false := by
    intro c hc
    by_contra hv
    simp [isBlank_eq_false_of_isValueChar (by simpa using hv)] at hc
  have hstop : Stops isValueChar rest := by
    rw [← hcut]
    exact stops_append (stops_of_forall fun c hc => hvisible (hblank c hc)) hrest
  have hfail : (seq gap (plus (one isValueChar))).Fails rest := by
    by_cases hnil : rest.takeWhile isBlank = []
    · rw [hnil, List.nil_append] at hcut
      rw [← hcut]
      exact (fails_one stops_dropWhile).plus.seq_left
    · rw [← hcut]
      exact (fails_one hrest).plus.seq_right (takes_gap hnil hblank stops_dropWhile)
  obtain ⟨htail, hnext⟩ := takes_star (Stops isValueChar)
    (fun part hpart next hnext => by
      obtain ⟨gap, run, rfl, hgne, hgall, hrne, hrall⟩ := hparts part hpart
      have hrun : Stops isBlank (run ++ next) := Stops.append_left
        (stops_of_forall fun c hc => isBlank_eq_false_of_isValueChar (hrall c hc)) hrne
      refine ⟨(takes_gap hgne hgall hrun).seq (takes_plus_one hrne hrall hnext), by simp [hgne], ?_⟩
      exact Stops.append_left (Stops.append_left
        (stops_of_forall fun c hc => hvisible (hgall c hc)) hgne) (by simp [hgne]))
    hstop hfail
  exact (takes_plus_one hne hall hnext).seq htail

/-! ### Schemes and hosts -/

theorem mem_language_schemePart :
    text ∈ schemePart.language ↔
      ∃ c s, text = c :: s ∧ c.isAlpha ∧ ∀ d ∈ s, isSchemeChar d := by
  rw [schemePart, mem_language_seq]
  constructor
  · rintro ⟨_, ⟨c, hc, rfl⟩, s, hs, rfl⟩
    exact ⟨c, s, rfl, hc, mem_language_star_one.mp hs⟩
  · rintro ⟨c, s, rfl, hc, hs⟩
    exact ⟨[c], ⟨c, hc, rfl⟩, s, mem_language_star_one.mpr hs, rfl⟩

theorem over_schemePart : schemePart.Over isSchemeChar :=
  ⟨fun _ => isSchemeChar_of_isAlpha, fun _ => id⟩

theorem takes_schemePart (ht : text ∈ schemePart.language) (hrest : Stops isSchemeChar rest) :
    schemePart.Takes text rest := by
  obtain ⟨c, s, rfl, hc, hs⟩ := mem_language_schemePart.mp ht
  exact (takes_one hc).seq (takes_star_one hs hrest)

/-- A character of the name of a host. -/
def isHostChar (c : Char) : Bool :=
  isNameChar c || c == '.' || c == '*'

theorem over_hostLabels : hostLabels.Over isHostChar := by
  have hname : ∀ c, isNameChar c → isHostChar c := fun c hc => by simp [isHostChar, hc]
  have hdot : (literal ".").Over isHostChar := over_literal (by decide)
  exact ⟨over_plus hname, ⟨hdot, over_plus hname⟩, over_opt hdot⟩

theorem over_hostPart : hostPart.Over isHostChar :=
  ⟨⟨over_literal (by decide), over_hostLabels⟩, over_literal (by decide), over_hostLabels⟩

theorem mem_language_hostLabels :
    text ∈ hostLabels.language ↔
      ∃ first parts dot, text = first ++ (List.flatten parts ++ dot) ∧ first ≠ [] ∧
        (∀ c ∈ first, isNameChar c) ∧
        (∀ part ∈ parts, ∃ label, part = '.' :: label ∧ label ≠ [] ∧ ∀ c ∈ label, isNameChar c) ∧
        (dot = ['.'] ∨ dot = []) := by
  simp only [hostLabels, mem_language_seq, mem_language_star, mem_language_opt,
    mem_language_literal]
  constructor
  · rintro ⟨first, hfirst, _, ⟨_, ⟨parts, rfl, hparts⟩, dot, hdot, rfl⟩, rfl⟩
    obtain ⟨hne, hall⟩ := mem_language_plus_one.mp hfirst
    refine ⟨first, parts, dot, rfl, hne, hall, fun part hpart => ?_, hdot⟩
    obtain ⟨_, rfl, label, hlabel, rfl⟩ := hparts part hpart
    exact ⟨label, rfl, mem_language_plus_one.mp hlabel⟩
  · rintro ⟨first, parts, dot, rfl, hne, hall, hparts, hdot⟩
    refine ⟨first, mem_language_plus_one.mpr ⟨hne, hall⟩, _,
      ⟨_, ⟨parts, rfl, fun part hpart => ?_⟩, dot, hdot, rfl⟩, rfl⟩
    obtain ⟨label, rfl, hlabel⟩ := hparts part hpart
    exact ⟨_, rfl, label, mem_language_plus_one.mpr hlabel, rfl⟩

theorem takes_hostLabels (ht : text ∈ hostLabels.language) (hrest : Stops isHostChar rest) :
    hostLabels.Takes text rest := by
  obtain ⟨first, parts, dot, rfl, hne, hall, hparts, hdot⟩ := mem_language_hostLabels.mp ht
  have hname : Stops isNameChar rest := hrest.mono fun c hc => by simp [isHostChar, hc]
  have hnodot : (literal ".").Fails rest := by
    apply fails_literal
    intro hprefix
    rcases hprefix with ⟨tail, rfl⟩
    simp [isHostChar] at hrest
  have hend : Stops isNameChar (dot ++ rest) := by
    rcases hdot with rfl | rfl
    · simp [isNameChar]
    · exact hname
  -- behind the last label stands at most one dot, and no label follows it
  have hfail : (seq (literal ".") (plus (one isNameChar))).Fails (dot ++ rest) := by
    rcases hdot with rfl | rfl
    · exact (fails_one hname).plus.seq_right (takes_literal ".")
    · exact hnodot.seq_left
  have hlast : (opt (literal ".")).Takes dot rest := by
    rcases hdot with rfl | rfl
    · exact (takes_literal ".").opt
    · exact takes_opt_nil hnodot
  obtain ⟨htail, hnext⟩ := takes_star (Stops isNameChar)
    (fun part hpart next hnext => by
      obtain ⟨label, rfl, hlne, hlall⟩ := hparts part hpart
      refine ⟨(takes_literal ".").seq (takes_plus_one hlne hlall hnext), by simp, ?_⟩
      simp [isNameChar])
    hend hfail
  rw [← List.append_assoc] at hnext
  exact (takes_plus_one hne hall hnext).seq (htail.seq hlast)

theorem mem_language_hostPart :
    text ∈ hostPart.language ↔
      (∃ labels ∈ hostLabels.language, text = '*' :: '.' :: labels) ∨ text = ['*'] ∨
        text ∈ hostLabels.language := by
  simp only [hostPart, oneOf, mem_language_alt, mem_language_seq, mem_language_literal]
  constructor
  · rintro (⟨_, rfl, labels, hlabels, rfl⟩ | h)
    · exact Or.inl ⟨labels, hlabels, rfl⟩
    · exact Or.inr h
  · rintro (⟨labels, hlabels, rfl⟩ | h)
    · exact Or.inl ⟨_, rfl, labels, hlabels, rfl⟩
    · exact Or.inr h

theorem takes_hostPart (ht : text ∈ hostPart.language) (hrest : Stops isHostChar rest) :
    hostPart.Takes text rest := by
  rcases mem_language_hostPart.mp ht with ⟨labels, hlabels, rfl⟩ | rfl | hlabels
  · exact Takes.alt_left ((takes_literal "*.").seq (takes_hostLabels hlabels hrest))
  · -- a star alone: no dot follows
    refine Takes.alt_right (Takes.alt_left (takes_literal "*")) (Fails.seq_left ?_)
    apply fails_literal
    intro hprefix
    rcases hprefix with ⟨tail, htail⟩
    obtain rfl : rest = '.' :: tail := by simpa using htail.symm
    simp [isHostChar] at hrest
  · -- labels do not start with a star
    obtain ⟨first, parts, dot, rfl, hne, hall, -⟩ := mem_language_hostLabels.mp hlabels
    obtain ⟨c, first, rfl⟩ := List.exists_cons_of_ne_nil hne
    have hc : '*' ≠ c := by
      rintro rfl
      simpa [isNameChar] using hall '*' (by simp)
    refine Takes.alt_right (Takes.alt_right (takes_hostLabels hlabels hrest) ?_) (Fails.seq_left ?_)
    · exact fails_literal fun hprefix => hc (by simpa using hprefix)
    · exact fails_literal fun hprefix => hc (List.cons_prefix_cons.mp hprefix).1

theorem mem_language_portPart :
    text ∈ portPart.language ↔ (text ≠ [] ∧ ∀ c ∈ text, c.isDigit) ∨ text = ['*'] := by
  rw [portPart, mem_language_alt, mem_language_plus_one, mem_language_literal]
  rfl

theorem takes_portPart (ht : text ∈ portPart.language) (hrest : Stops Char.isDigit rest) :
    portPart.Takes text rest := by
  rcases mem_language_portPart.mp ht with ⟨hne, hall⟩ | rfl
  · exact (takes_plus_one hne hall hrest).alt_left
  · exact (takes_literal "*").alt_right (fails_one (stops_cons.mpr rfl)).plus

theorem over_portPart : portPart.Over isValueChar :=
  ⟨over_plus fun _ => isValueChar_of_isDigit, over_literal (by decide)⟩

theorem isValueChar_of_isHostChar {c : Char} (h : isHostChar c) : isValueChar c := by
  have hcases : (isNameChar c ∨ c = '.') ∨ c = '*' := by simpa [isHostChar] using h
  rcases hcases with (hname | rfl) | rfl
  · exact isValueChar_of_isNameChar hname
  · decide
  · decide

/-! ### Percent signs -/

theorem mem_language_pctEncoded :
    text ∈ pctEncoded.language ↔ ∃ c d, isHexDigit c ∧ isHexDigit d ∧ text = ['%', c, d] := by
  simp only [pctEncoded, mem_language_seq, mem_language_literal]
  constructor
  · rintro ⟨_, rfl, _, ⟨_, ⟨c, hc, rfl⟩, _, ⟨d, hd, rfl⟩, rfl⟩, rfl⟩
    exact ⟨c, d, hc, hd, rfl⟩
  · rintro ⟨c, d, hc, hd, rfl⟩
    exact ⟨['%'], rfl, [c, d], ⟨[c], ⟨c, hc, rfl⟩, [d], ⟨d, hd, rfl⟩, rfl⟩, rfl⟩

theorem takes_pctEncoded (ht : text ∈ pctEncoded.language) : pctEncoded.Takes text rest := by
  obtain ⟨_, hpct, _, htail, rfl⟩ := mem_language_seq.mp ht
  obtain ⟨_, ⟨c, hc, rfl⟩, _, ⟨d, hd, rfl⟩, rfl⟩ := mem_language_seq.mp htail
  rw [mem_language_literal.mp hpct]
  exact (takes_literal _).seq ((takes_one hc).seq (takes_one hd))

theorem over_pctEncoded : pctEncoded.Over isValueChar :=
  ⟨over_literal (by decide), fun _ => isValueChar_of_isHexDigit, fun _ => isValueChar_of_isHexDigit⟩

/-- Characters of a class, or percent signs with their digits: one is taken whatever follows. -/
theorem takes_escaped (ht : text ∈ language (.alt (.one accepts) pctEncoded))
    (hpct : accepts '%' = false) : (Lexeme.alt (.one accepts) pctEncoded).Takes text rest := by
  rcases ht with ⟨c, hc, rfl⟩ | ht
  · exact (takes_one hc).alt_left
  · refine (takes_pctEncoded ht).alt_right (fails_one ?_)
    obtain ⟨c, d, -, -, rfl⟩ := mem_language_pctEncoded.mp ht
    simp [hpct]

theorem takes_star_escaped {parts : List (List Char)}
    (hparts : ∀ part ∈ parts, part ∈ language (.alt (.one accepts) pctEncoded))
    (hpct : accepts '%' = false) (hrest : Stops (fun c => accepts c || c == '%') rest) :
    (Lexeme.star (.alt (.one accepts) pctEncoded)).Takes parts.flatten rest := by
  have hfail : (Lexeme.alt (.one accepts) pctEncoded).Fails rest := by
    refine (fails_one (hrest.mono fun c hc => by simp [hc])).alt (Fails.seq_left ?_)
    apply fails_literal
    rintro ⟨tail, rfl⟩
    simp at hrest
  refine (takes_star (fun _ => True) (fun part hpart next _ => ⟨?_, ?_, trivial⟩) trivial hfail).1
  · exact takes_escaped (hparts part hpart) hpct
  · rintro rfl
    rcases hparts _ hpart with ⟨c, -, hc⟩ | h
    · simp at hc
    · obtain ⟨c, d, -, -, hnil⟩ := mem_language_pctEncoded.mp h
      cases hnil

theorem mem_language_pathPart :
    text ∈ pathPart.language ↔ ∃ tail ∈ language (.star pathChar), text = '/' :: tail := by
  simp only [pathPart, mem_language_seq, mem_language_literal]
  constructor
  · rintro ⟨_, rfl, tail, htail, rfl⟩
    exact ⟨tail, htail, rfl⟩
  · rintro ⟨tail, htail, rfl⟩
    exact ⟨_, rfl, tail, htail, rfl⟩

theorem takes_pathPart (ht : text ∈ pathPart.language)
    (hrest : Stops (fun c => isPathChar c || c == '%') rest) : pathPart.Takes text rest := by
  obtain ⟨_, htail, rfl⟩ := mem_language_pathPart.mp ht
  obtain ⟨parts, rfl, hparts⟩ := mem_language_star.mp htail
  exact (takes_literal "/").seq (takes_star_escaped hparts (by decide) hrest)

theorem over_pathPart : pathPart.Over isValueChar :=
  ⟨over_literal (by decide), fun _ => isValueChar_of_isPathChar, over_pctEncoded⟩

theorem takes_uriReference (ht : text ∈ uriReference.language)
    (hrest : Stops (fun c => isUriChar c || c == '%') rest) : uriReference.Takes text rest := by
  obtain ⟨first, hfirst, _, htail, rfl⟩ := mem_language_seq.mp ht
  obtain ⟨parts, rfl, hparts⟩ := mem_language_star.mp htail
  exact (takes_escaped hfirst (by decide)).seq (takes_star_escaped hparts (by decide) hrest)

theorem over_uriReference : uriReference.Over isValueChar :=
  over_plus ⟨fun _ => isValueChar_of_isUriChar, over_pctEncoded⟩

/-! ### Quoted words and digests -/

/-- The text of a keyword with its quotes. -/
def quotedText (word : String) : String :=
  "'" ++ word ++ "'"

theorem map_quotedWord (words : List String) :
    words.map quotedWord = (words.map quotedText).map Lexeme.word := by
  rw [List.map_map]
  rfl

theorem mem_language_oneOf_word {words : List String} :
    text ∈ (oneOf (words.map Lexeme.word)).language ↔
      ∃ word ∈ words, text.map Char.toLower = word.toList.map Char.toLower := by
  rw [mem_language_oneOf]
  constructor
  · rintro ⟨_, hitem, ht⟩
    obtain ⟨word, hword, rfl⟩ := List.mem_map.mp hitem
    exact ⟨word, hword, mem_language_word.mp ht⟩
  · rintro ⟨word, hword, ht⟩
    exact ⟨_, List.mem_map_of_mem hword, mem_language_word.mpr ht⟩

theorem mem_language_oneOf_quotedWord {words : List String}
    (hsmall : ∀ word ∈ words, ∀ c ∈ (quotedText word).toList, c.isUpper = false) :
    text ∈ (oneOf (words.map quotedWord)).language ↔
      ∃ word ∈ words, (String.ofList text).toLower = quotedText word := by
  rw [map_quotedWord, mem_language_oneOf_word]
  have hsame : ∀ word ∈ words, text.map Char.toLower = (quotedText word).toList.map Char.toLower ↔
      (String.ofList text).toLower = quotedText word := by
    intro word hword
    rw [← toList_toLower, toLower_eq_self (hsmall word hword), ← String.toList_inj,
      toList_toLower, String.toList_ofList]
  constructor
  · rintro ⟨_, hquoted, ht⟩
    obtain ⟨word, hword, rfl⟩ := List.mem_map.mp hquoted
    exact ⟨word, hword, (hsame word hword).mp ht⟩
  · rintro ⟨word, hword, ht⟩
    exact ⟨_, List.mem_map_of_mem hword, (hsame word hword).mpr ht⟩

/-- Quotes and letter case are all that a quoted word hides. -/
theorem toLower_unquoted {text word : String} (h : text.toLower = quotedText word)
    (hword : ∀ c ∈ word.toList, c ≠ '\x27') : (unquoted text).toLower = word := by
  have hlower := congrArg String.toList h
  have hsplit : (quotedText word).toList = ['\x27'] ++ word.toList ++ ['\x27'] := by
    simp [quotedText]
  rw [toList_toLower, hsplit] at hlower
  obtain ⟨front, back, htext, hfront, hback⟩ := List.map_eq_append_iff.mp hlower
  obtain ⟨opening, middle, rfl, hopening, hmiddle⟩ := List.map_eq_append_iff.mp hfront
  have hquote : ∀ {s : List Char}, s.map Char.toLower = ['\x27'] → s = ['\x27'] := by
    intro s hs
    obtain ⟨c, hc, hcs⟩ := List.map_eq_singleton_iff.mp hs
    rw [hc, eq_of_toLower_eq (d := '\x27') hcs (by decide)]
  obtain rfl := hquote hopening
  obtain rfl := hquote hback
  have hfree : ∀ c ∈ middle, (c == '\x27') = false := by
    intro c hc
    have hmem : c.toLower ∈ word.toList := hmiddle ▸ List.mem_map_of_mem hc
    by_contra hquote
    obtain rfl : c = '\x27' := by simpa using hquote
    exact hword _ hmem rfl
  have hsign : ∀ c ∈ ['\x27'], (c == '\x27') = true := by decide
  rw [unquoted, htext, trimmed_append_right hsign, trimmed_append_left hsign,
    trimmed_of_bare (bare_of_forall hfree), ← String.toList_inj, toList_toLower,
    String.toList_ofList, hmiddle]

theorem takes_oneOf_quotedWord {words : List String} {word : String} (hmem : word ∈ words)
    (hsmall : ∀ word ∈ words, ∀ c ∈ (quotedText word).toList, c.isUpper = false)
    (hfree : ∀ v ∈ words, ∀ w ∈ words, (quotedText v).toList <+: (quotedText w).toList → v = w)
    (ht : (String.ofList text).toLower = quotedText word) :
    (oneOf (words.map quotedWord)).Takes text rest := by
  have hlower : ∀ word ∈ words, (quotedText word).toList.map Char.toLower =
      (quotedText word).toList := by
    intro word hword
    rw [← toList_toLower, toLower_eq_self (hsmall word hword)]
  rw [map_quotedWord]
  refine takes_oneOf_word (List.mem_map_of_mem hmem) ?_ ?_
  · intro _ hvq _ hwq hstart
    obtain ⟨v, hv, rfl⟩ := List.mem_map.mp hvq
    obtain ⟨w, hw, rfl⟩ := List.mem_map.mp hwq
    rw [hlower v hv, hlower w hw] at hstart
    rw [hfree v hv w hw hstart]
  · rw [hlower word hmem, ← ht, toList_toLower, String.toList_ofList]

theorem mem_language_base64Value :
    text ∈ base64Value.language ↔
      ∃ run pad, text = run ++ pad ∧ run ≠ [] ∧ (∀ c ∈ run, isBase64Char c) ∧
        (pad = ['='] ∨ pad = ['=', '='] ∨ pad = []) := by
  simp only [base64Value, mem_language_seq, mem_language_plus_one, mem_language_opt,
    mem_language_literal]
  constructor
  · rintro ⟨run, ⟨hne, hall⟩, pad, hpad, rfl⟩
    refine ⟨run, pad, rfl, hne, hall, ?_⟩
    rcases hpad with ⟨_, rfl, _, rfl | rfl, rfl⟩ | rfl
    · exact Or.inr (Or.inl rfl)
    · exact Or.inl rfl
    · exact Or.inr (Or.inr rfl)
  · rintro ⟨run, pad, rfl, hne, hall, hpad⟩
    refine ⟨run, ⟨hne, hall⟩, pad, ?_, rfl⟩
    rcases hpad with rfl | rfl | rfl
    · exact Or.inl ⟨_, rfl, [], Or.inr rfl, rfl⟩
    · exact Or.inl ⟨_, rfl, ['='], Or.inl rfl, rfl⟩
    · exact Or.inr rfl

theorem takes_base64Value (ht : text ∈ base64Value.language)
    (hrest : Stops (fun c => isBase64Char c || c == '=') rest) :
    base64Value.Takes text rest := by
  obtain ⟨run, pad, rfl, hne, hall, hpad⟩ := mem_language_base64Value.mp ht
  have hdigit : Stops isBase64Char rest := hrest.mono fun c hc => by simp [hc]
  have hsign : (literal "=").Fails rest := by
    apply fails_literal
    rintro ⟨tail, rfl⟩
    simp at hrest
  rcases hpad with rfl | rfl | rfl
  · refine (takes_plus_one hne hall (stops_cons.mpr rfl)).seq (Takes.opt ?_)
    exact (takes_literal "=").seq (takes_opt_nil hsign)
  · refine (takes_plus_one hne hall (stops_cons.mpr rfl)).seq (Takes.opt ?_)
    exact (takes_literal "=").seq (takes_literal "=").opt
  · exact (takes_plus_one hne hall hdigit).seq (takes_opt_nil hsign.seq_left)

theorem over_base64Value : base64Value.Over isValueChar :=
  have hsign : (literal "=").Over isValueChar := over_literal (by decide)
  ⟨over_plus fun _ => isValueChar_of_isBase64Char, over_opt ⟨hsign, over_opt hsign⟩⟩

end ContentSecurity.Grammar.Lexeme

import ContentSecurity.Proofs.Policy.Rewriting
/-!
# Spacing

Blanks at the ends of clauses, the amount of blanks behind a name and, for most kinds of directives,
between the words of a value make no difference, and neither do semicolons that enclose nothing.  A
header in which only these are changed, at any number of places, is read as an equivalent policy and
is written alike (`parse_of_respaces`).  Where a value is kept as it is written its inner blanks
matter, and resources are divided at spaces, so that a tab between two of them makes them one.
-/

namespace ContentSecurity.Directive.Kind

open Text Grammar

/-- The value is a list of words with any blanks between them, or it is ignored. -/
def IsSpaced : Kind → Prop
  | .reportTo | .requireSriFor | .webrtc => False
  | _ => True

/-- How many blanks there are between two words makes no difference to such a value. -/
theorem IsSpaced.respells {kind : Kind} {value value' : List Char} (h : kind.IsSpaced)
    (hwords : words isBlank value = words isBlank value') : Respells (some kind) value value' := by
  have hall : List.Forall₂ (fun word other => word = other ∨ kind.Recases word other)
      (words isBlank value) (words isBlank value') :=
    hwords ▸ kind.forall₂_recases_refl _
  cases kind with
  | reportTo => cases h
  | requireSriFor => cases h
  | webrtc => cases h
  | upgradeInsecureRequests => trivial
  | blockAllMixedContent => trivial
  | _ => exact hall

end ContentSecurity.Directive.Kind

namespace ContentSecurity.Policy

open Text Grammar Directive

variable {text other front back gap : List Char}

/-- The blanks at one place of a clause are replaced: those at either end by any, those between the
name and the value by others, and likewise those between two words of a value, or the spaces between
two resources. -/
inductive RespacesClause : List Char → List Char → Prop
  | start (gap gap' text : List Char) (hgap : ∀ c ∈ gap, isBlank c)
      (hgap' : ∀ c ∈ gap', isBlank c) :
      RespacesClause (gap ++ text) (gap' ++ text)
  | finish (text gap gap' : List Char) (hgap : ∀ c ∈ gap, isBlank c)
      (hgap' : ∀ c ∈ gap', isBlank c) :
      RespacesClause (text ++ gap) (text ++ gap')
  | gap (before name gap gap' value : List Char) (hbefore : ∀ c ∈ before, isBlank c)
      (hne : name ≠ []) (hname : ∀ c ∈ name, isNameChar c) (hgne : gap ≠ [])
      (hgap : ∀ c ∈ gap, isBlank c)
      (hgne' : gap' ≠ []) (hgap' : ∀ c ∈ gap', isBlank c) :
      RespacesClause (before ++ (name ++ (gap ++ value))) (before ++ (name ++ (gap' ++ value)))
  | between (kind : Kind) (before name gap start run run' rest : List Char) (hkind : kind.IsSpaced)
      (hbefore : ∀ c ∈ before, isBlank c) (hname : (String.ofList name).toLower = kind.name)
      (hgne : gap ≠ []) (hgap : ∀ c ∈ gap, isBlank c) (hrne : run ≠ [])
      (hrun : ∀ c ∈ run, isBlank c) (hrne' : run' ≠ []) (hrun' : ∀ c ∈ run', isBlank c) :
      RespacesClause (before ++ (name ++ (gap ++ (start ++ (run ++ rest)))))
        (before ++ (name ++ (gap ++ (start ++ (run' ++ rest)))))
  | resources (before name gap start run run' rest : List Char) (hbefore : ∀ c ∈ before, isBlank c)
      (hname : (String.ofList name).toLower = Kind.requireSriFor.name) (hgne : gap ≠ [])
      (hgap : ∀ c ∈ gap, isBlank c) (hrne : run ≠ []) (hrun : ∀ c ∈ run, c = ' ')
      (hrne' : run' ≠ []) (hrun' : ∀ c ∈ run', c = ' ') :
      RespacesClause (before ++ (name ++ (gap ++ (start ++ (run ++ rest)))))
        (before ++ (name ++ (gap ++ (start ++ (run' ++ rest)))))

/-- One change of the spacing of a header: the blanks of a clause are replaced, a semicolon is put
next to another one or at the end, or a semicolon is taken away in front of a piece that holds only
blanks or behind it. -/
inductive Respaces : List Char → List Char → Prop
  | clause (front clause clause' back : List Char) (hopen : Opens front) (hclose : Closes back)
      (hfree : ∀ c ∈ clause, c ≠ ';') (h : RespacesClause clause clause') :
      Respaces (front ++ (clause ++ back)) (front ++ (clause' ++ back))
  | double (front back : List Char) : Respaces (front ++ ';' :: back) (front ++ ';' :: ';' :: back)
  | close (text : List Char) : Respaces text (text ++ [';'])
  | dropBehind (front gap back : List Char) (hopen : Opens front) (hgap : ∀ c ∈ gap, isBlank c) :
      Respaces (front ++ (gap ++ ';' :: back)) (front ++ (gap ++ back))
  | dropInFront (front gap back : List Char) (hgap : ∀ c ∈ gap, isBlank c) (hclose : Closes back) :
      Respaces (front ++ ';' :: (gap ++ back)) (front ++ (gap ++ back))

/-! ### Blanks -/

/-- A change of the spacing adds nothing but blanks. -/
theorem RespacesClause.mem_or_isBlank (h : RespacesClause text other) :
    ∀ c ∈ other, c ∈ text ∨ isBlank c := by
  have hspace : isBlank ' ' := by decide
  cases h <;> grind

/-- The number of spaces between two resources makes no difference: if nothing but blanks stands on
one side they are taken off with it, and otherwise they are a gap between words. -/
theorem exists_words_resources (start rest : List Char) :
    ∃ items, ∀ run : List Char, run ≠ [] → (∀ c ∈ run, c = ' ') →
      words (· == ' ') (trimmed isBlank (start ++ (run ++ rest))) = items := by
  have hblank : ∀ run : List Char, (∀ c ∈ run, c = ' ') → ∀ c ∈ run, isBlank c := by
    intro run hrun c hc
    rw [hrun c hc]
    decide
  by_cases hstart : trimmed isBlank start = []
  · refine ⟨words (· == ' ') (trimmed isBlank rest), fun run _ hrun => ?_⟩
    rw [trimmed_append_left (trimmed_eq_nil_iff.mp hstart), trimmed_append_left (hblank run hrun)]
  by_cases hrest : trimmed isBlank rest = []
  · refine ⟨words (· == ' ') (trimmed isBlank start), fun run _ hrun => ?_⟩
    rw [trimmed_append_right]
    exact List.forall_mem_append.mpr ⟨hblank run hrun, trimmed_eq_nil_iff.mp hrest⟩
  obtain ⟨head, tail, hbetween⟩ := exists_trimmed_between hstart hrest
  refine ⟨words (· == ' ') head ++ words (· == ' ') tail, fun run hne hrun => ?_⟩
  rw [hbetween, words_append_gap hne fun c hc => beq_iff_eq.mpr (hrun c hc)]

theorem RespacesClause.keepsMeaning (hopen : Opens front) (hclose : Closes back)
    (hfree : ∀ c ∈ text, c ≠ ';') (h : RespacesClause text other) :
    KeepsMeaning (front ++ (text ++ back)) (front ++ (other ++ back)) := by
  have hfree' : ∀ c ∈ other, c ≠ ';' := by
    intro c hc
    rcases h.mem_or_isBlank c hc with hmem | hblank
    · exact hfree c hmem
    · exact ne_semicolon_of_isBlank hblank
  cases h with
  | start gap gap' text hgap hgap' =>
    obtain ⟨before, after, hpieces⟩ := exists_segments_piece hopen hclose
    apply KeepsMeaning.of_segments_eq
    rw [hpieces _ hfree, hpieces _ hfree', trimmed_append_left hgap, trimmed_append_left hgap']
  | finish text gap gap' hgap hgap' =>
    obtain ⟨before, after, hpieces⟩ := exists_segments_piece hopen hclose
    apply KeepsMeaning.of_segments_eq
    rw [hpieces _ hfree, hpieces _ hfree', trimmed_append_right hgap, trimmed_append_right hgap']
  | gap before name gap gap' value hbefore hne hname hgne hgap hgne' hgap' =>
    refine .of_respells hopen hclose hfree hfree' hbefore hne hname
      ((stops_isNameChar_of_isBlank hgap).append_left hgne) rfl ?_ ?_
    · rw [isTail_append_iff hgne hgap, isTail_append_iff hgne' hgap']
      exact id
    · rw [trimmed_append_left hgap, trimmed_append_left hgap']
      exact Respells.refl _ _
  | between kind before name gap start run run' rest hkind hbefore hname hgne hgap hrne hrun hrne'
      hrun' =>
    refine .of_value hopen hclose hfree hfree' hbefore hname hgne hgap hgne hgap ?_ ?_
    · simp only [List.forall_mem_append]
      exact fun h => ⟨h.1, fun c hc => Or.inl (hrun' c hc), h.2.2⟩
    · exact hkind.respells (by rw [words_trimmed, words_trimmed, words_append_gap hrne hrun,
        words_append_gap hrne' hrun'])
  | resources before name gap start run run' rest hbefore hname hgne hgap hrne hrun hrne' hrun' =>
    have hspace : isBlank ' ' := by decide
    refine .of_value hopen hclose hfree hfree' hbefore hname hgne hgap hgne hgap ?_ ?_
    · simp only [List.forall_mem_append]
      exact fun h => ⟨h.1, fun c hc => Or.inl (hrun' c hc ▸ hspace), h.2.2⟩
    · obtain ⟨items, hitems⟩ := exists_words_resources start rest
      rw [Respells, hitems run hrne hrun, hitems run' hrne' hrun']

/-! ### Semicolons -/

/-- **Changing the spacing at one place keeps the meaning.** -/
theorem Respaces.keepsMeaning (h : Respaces text other) : KeepsMeaning text other := by
  cases h with
  | clause front clause clause' back hopen hclose hfree h => exact h.keepsMeaning hopen hclose hfree
  | double front back =>
    apply KeepsMeaning.of_empty_added (segments_ne_nil front) (segments_append_semicolon front back)
    rw [segments_append_semicolon, segments_cons_semicolon]
  | close =>
    apply KeepsMeaning.of_empty_added (segments_ne_nil text) (List.append_nil _).symm
    rw [segments_append_semicolon, segments_nil]
  | dropBehind front gap back hopen hgap =>
    obtain ⟨before, hbefore⟩ := hopen.exists_segments
    have htext : segments (front ++ (gap ++ ';' :: back)) = before ++ [] :: segments back := by
      rw [hbefore, segments_append_left hgap, segments_cons_semicolon]
    have hother : segments (front ++ (gap ++ back)) = before ++ segments back := by
      rw [hbefore, segments_append_left hgap]
    exact .of_empty_removed htext hother
  | dropInFront front gap back hgap hclose =>
    obtain ⟨after, hafter⟩ := hclose.exists_segments
    have hempty : segments gap = [[]] := by
      rw [segments_of_forall fun c hc => ne_semicolon_of_isBlank (hgap c hc),
        trimmed_of_forall hgap]
    have htext : segments (front ++ ';' :: (gap ++ back)) = segments front ++ [] :: after := by
      rw [segments_append_semicolon, hafter, hempty, List.singleton_append]
    have hother : segments (front ++ (gap ++ back)) = segments front ++ after := by
      rw [← List.append_assoc, hafter, segments_append_right hgap]
    exact .of_empty_removed htext hother

/-- **Spacing never changes what is read**, however many changes are made.  No header in memory is
longer than the greatest limit. -/
theorem parse_of_respaces (header other : String) (policy : Policy)
    (h : (parse .unbounded header.toUTF8).result = .ok policy)
    (hrespaced : Relation.ReflTransGen Respaces header.toList other.toList)
    (hsize : other.utf8ByteSize ≤ Limits.greatest) :
    ∃ read, (parse .unbounded other.toUTF8).result = .ok read ∧ read ≈ policy ∧
      read.render = policy.render :=
  (KeepsMeaning.of_run Respaces.keepsMeaning hrespaced).parse h hsize

/-- The header of `spacedPolicy` with one space behind its name, two between its words, and a
semicolon at the end. -/
theorem respaces_spacedPolicy :
    Relation.ReflTransGen Respaces "IMG-SRC  * 'SELF'".toList "IMG-SRC *  'SELF';".toList := by
  have hopen : Opens [] := Or.inl rfl
  have hclose : Closes [] := Or.inl rfl
  have hgap : Respaces "IMG-SRC  * 'SELF'".toList "IMG-SRC * 'SELF'".toList :=
    .clause [] _ _ [] hopen hclose (by decide)
      (.gap [] "IMG-SRC".toList "  ".toList " ".toList "* 'SELF'".toList (by decide) (by decide)
        (by decide) (by decide) (by decide) (by decide) (by decide))
  have hwords : Respaces "IMG-SRC * 'SELF'".toList "IMG-SRC *  'SELF'".toList :=
    .clause [] _ _ [] hopen hclose (by decide)
      (.between (.sourceList .imgSrc) [] "IMG-SRC".toList " ".toList "*".toList " ".toList
        "  ".toList "'SELF'".toList trivial (by decide) (by decide +kernel) (by decide) (by decide)
        (by decide) (by decide) (by decide) (by decide))
  have hend : Respaces "IMG-SRC *  'SELF'".toList "IMG-SRC *  'SELF';".toList := .close _
  exact .tail (.tail (.single hgap) hwords) hend

theorem parse_of_respaces_spacedPolicy :
    (parse .unbounded "IMG-SRC  * 'SELF'".toUTF8).result = .ok spacedPolicy ∧
      Relation.ReflTransGen Respaces "IMG-SRC  * 'SELF'".toList "IMG-SRC *  'SELF';".toList ∧
      "IMG-SRC *  'SELF';".utf8ByteSize ≤ Limits.greatest ∧
      ∃ read, (parse .unbounded "IMG-SRC *  'SELF';".toUTF8).result = .ok read ∧
        read ≈ spacedPolicy ∧ read.render = spacedPolicy.render :=
  have hsize : "IMG-SRC *  'SELF';".utf8ByteSize ≤ Limits.greatest := by decide
  ⟨parse_spacedPolicy, respaces_spacedPolicy, hsize,
    parse_of_respaces _ _ spacedPolicy parse_spacedPolicy respaces_spacedPolicy hsize⟩

end ContentSecurity.Policy

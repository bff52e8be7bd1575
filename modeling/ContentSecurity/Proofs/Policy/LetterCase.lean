import ContentSecurity.Proofs.Policy.Rewriting
/-!
# Letter case

Letter case makes no difference to the names of directives, the marks of quoted sources, the
keywords of trusted types, sink groups, and the resources for which integrity is required.  A header
in which only these are recased, at any number of places, is read as an equivalent policy and is
written alike (`parse_of_recases`).  One place is changed at a time (`Recases`), and a change leaves
the others what they are.
-/

namespace ContentSecurity.Policy

open Text Grammar Directive
open String (utf8Len)

variable {text other : List Char}

/-- One place of a clause is written in other letter case: its name, a word of its value, or the
value that lists resources.  A word stands between blanks or the ends of the value. -/
inductive RecasesClause : List Char → List Char → Prop
  | name (before name name' tail : List Char) (hbefore : ∀ c ∈ before, isBlank c) (hne : name ≠ [])
      (hname : ∀ c ∈ name, isNameChar c) (hstop : Stops isNameChar tail)
      (hletters : SameLetters name name') :
      RecasesClause (before ++ (name ++ tail)) (before ++ (name' ++ tail))
  | word (kind : Kind) (before name gap start word word' rest : List Char)
      (hbefore : ∀ c ∈ before, isBlank c) (hname : (String.ofList name).toLower = kind.name)
      (hgne : gap ≠ []) (hgap : ∀ c ∈ gap, isBlank c) (hstart : Stops (!isBlank ·) start.reverse)
      (hrest : Stops (!isBlank ·) rest) (hword : ∀ c ∈ word, isBlank c = false)
      (hrecases : kind.Recases word word') :
      RecasesClause (before ++ (name ++ (gap ++ (start ++ (word ++ rest)))))
        (before ++ (name ++ (gap ++ (start ++ (word' ++ rest)))))
  | resources (before name gap value value' : List Char) (hbefore : ∀ c ∈ before, isBlank c)
      (hname : (String.ofList name).toLower = Kind.requireSriFor.name) (hgne : gap ≠ [])
      (hgap : ∀ c ∈ gap, isBlank c) (hletters : SameLetters value value') :
      RecasesClause (before ++ (name ++ (gap ++ value))) (before ++ (name ++ (gap ++ value')))

/-- One place of one clause of a header is written in other letter case. -/
inductive Recases : List Char → List Char → Prop
  | clause (front clause clause' back : List Char) (hopen : Opens front) (hclose : Closes back)
      (hfree : ∀ c ∈ clause, c ≠ ';') (h : RecasesClause clause clause') :
      Recases (front ++ (clause ++ back)) (front ++ (clause' ++ back))

theorem RecasesClause.sameLetters (h : RecasesClause text other) : SameLetters text other := by
  cases h with
  | name before name name' tail _ _ _ _ hletters => exact hletters.append_both before tail
  | word kind before name gap start word word' rest _ _ _ _ _ _ _ hrecases =>
    exact (((hrecases.sameLetters.append_both start rest).append_left gap).append_left
      name).append_left before
  | resources before name gap value value' _ _ _ _ hletters =>
    exact ((hletters.append_left gap).append_left name).append_left before

theorem Recases.sameLetters (h : Recases text other) : SameLetters text other := by
  cases h with
  | clause front clause clause' back _ _ _ h => exact h.sameLetters.append_both front back

/-- **Writing one place in other letter case keeps the meaning.** -/
theorem Recases.keepsMeaning (h : Recases text other) : KeepsMeaning text other := by
  cases h with
  | clause front clause clause' back hopen hclose hfree h =>
    have hfree' : ∀ c ∈ clause', c ≠ ';' := h.sameLetters.ne_semicolon hfree
    cases h with
    | name before name name' tail hbefore hne hname hstop hletters =>
      exact .of_respells hopen hclose hfree hfree' hbefore hne hname hstop hletters id
        (Respells.refl _ _)
    | word kind before name gap start word word' rest hbefore hname hgne hgap hstart hrest hword
        hrecases =>
      have hletters : SameLetters (start ++ (word ++ rest)) (start ++ (word' ++ rest)) :=
        hrecases.sameLetters.append_both start rest
      exact .of_value hopen hclose hfree hfree' hbefore hname hgne hgap hgne hgap hletters.visible
        (Respells.of_word hstart hrest hword hrecases)
    | resources before name gap value value' hbefore hname hgne hgap hletters =>
      exact .of_value hopen hclose hfree hfree' hbefore hname hgne hgap hgne hgap hletters.visible
        (Respells.of_letters hletters)

theorem sameLetters_of_run (h : Relation.ReflTransGen Recases text other) :
    SameLetters text other := by
  induction h with
  | refl => exact rfl
  | tail _ hlast ih => exact ih.trans hlast.sameLetters

/-- **Letter case that does not matter never changes what is read**, however many places are written
in another one. -/
theorem parse_of_recases (header other : String) (policy : Policy)
    (h : (parse .unbounded header.toUTF8).result = .ok policy)
    (hrecased : Relation.ReflTransGen Recases header.toList other.toList) :
    ∃ read, (parse .unbounded other.toUTF8).result = .ok read ∧ read ≈ policy ∧
      read.render = policy.render := by
  have hlength := congrArg utf8Len (sameLetters_of_run hrecased)
  rw [utf8Len_map_toLower, utf8Len_map_toLower, String.utf8Len_toList,
    String.utf8Len_toList] at hlength
  have hsize : header.utf8ByteSize ≤ Limits.greatest := by
    obtain ⟨text, directives, htext, -, hadmit, -⟩ := parse_eq_ok_iff.mp h
    obtain rfl := String.toByteArray_inj.mp htext
    exact hadmit.size
  exact (KeepsMeaning.of_run Recases.keepsMeaning hrecased).parse h (hlength ▸ hsize)

/-- The header of `spacedPolicy` in small letters: first the name, then the keyword. -/
theorem recases_spacedPolicy :
    Relation.ReflTransGen Recases "IMG-SRC  * 'SELF'".toList "img-src  * 'self'".toList := by
  have hopen : Opens [] := Or.inl rfl
  have hclose : Closes [] := Or.inl rfl
  have hname : Recases "IMG-SRC  * 'SELF'".toList "img-src  * 'SELF'".toList :=
    .clause [] _ _ [] hopen hclose (by decide)
      (.name [] "IMG-SRC".toList "img-src".toList "  * 'SELF'".toList (by decide) (by decide)
        (by decide) (by decide) (by decide))
  have hkeyword : Recases "img-src  * 'SELF'".toList "img-src  * 'self'".toList :=
    .clause [] _ _ [] hopen hclose (by decide)
      (.word (.sourceList .imgSrc) [] "img-src".toList "  ".toList "* ".toList "'SELF'".toList
        "'self'".toList [] (by decide) (by decide +kernel) (by decide) (by decide) (by decide)
        (by decide) (by decide)
        (.source .imgSrc "SELF'".toList "self'".toList [] (by decide) (by decide)))
  exact .tail (.single hname) hkeyword

theorem parse_of_recases_spacedPolicy :
    (parse .unbounded "IMG-SRC  * 'SELF'".toUTF8).result = .ok spacedPolicy ∧
      Relation.ReflTransGen Recases "IMG-SRC  * 'SELF'".toList "img-src  * 'self'".toList ∧
      ∃ read, (parse .unbounded "img-src  * 'self'".toUTF8).result = .ok read ∧
        read ≈ spacedPolicy ∧ read.render = spacedPolicy.render :=
  ⟨parse_spacedPolicy, recases_spacedPolicy,
    parse_of_recases _ _ spacedPolicy parse_spacedPolicy recases_spacedPolicy⟩

end ContentSecurity.Policy

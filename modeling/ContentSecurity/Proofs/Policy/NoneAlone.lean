import ContentSecurity.Proofs.Policy.Merging
/-!
# The source `'none'`

In a list `'none'` stands alone or not at all (`Source.NoneAlone`).  Three things have to work
together for this: reading recognizes the word only in place of a whole list, and what the grammars
read is never `'none'`; merging leaves it out of what comes in, and takes it out of the list as soon
as something does come in; and what is pushed is put where it belongs and changes nothing else.  So
the lists of a policy stay like this under any edits that push no other list
(`Policy.noneAlone_of_reachable`), whatever sources are merged.
-/

namespace ContentSecurity

open Text Grammar Directive

variable {kind : ListKind} {value : String} {sources current incoming : List Source}

/-- The list is `'none'` alone, or `'none'` is not in it. -/
def Source.NoneAlone (sources : List Source) : Prop :=
  sources = [.none] ∨ .none ∉ sources

/-! ### Lists -/

theorem Source.noneAlone_of_forall (h : ∀ source ∈ sources, source.isNone = false) :
    NoneAlone sources := by
  refine Or.inr fun hmem => ?_
  cases h .none hmem

/-- With nothing to merge the list stays, and otherwise nothing in it is `'none'`. -/
theorem Source.NoneAlone.merge (h : NoneAlone current)
    (hincoming : ∀ source ∈ incoming, source.isNone = false) :
    NoneAlone (Source.merge current incoming) := by
  by_cases hnil : incoming = []
  · rw [hnil, merge_nil]
    exact h
  · apply noneAlone_of_forall
    intro source hmem
    exact isNone_eq_false_of_mem_merge hnil hincoming hmem

/-- What a source list is read as is `'none'`, or each source in it was written as something
else. -/
theorem Directive.SourcesFrom.noneAlone (h : SourcesFrom kind value sources) :
    Source.NoneAlone sources := by
  rcases h with ⟨-, hnone⟩ | ⟨-, hspelled⟩
  · exact Or.inl hnone
  · apply Source.noneAlone_of_forall
    intro source hmem
    obtain ⟨token, -, e, -, -, rfl⟩ := exists_of_forall₂ hspelled hmem
    rfl

/-! ### Directives -/

namespace Directive

variable {directive : Directive}

/-- If the directive is a list, `'none'` stands alone in it or not at all. -/
def NoneAlone (directive : Directive) : Prop :=
  ∀ sources, directive.sources? = some sources → Source.NoneAlone sources

theorem noneAlone_of_readClause {clause : List Char} (h : ReadClause clause directive) :
    directive.NoneAlone := by
  intro sources hsources
  have hread := h.body
  rcases directive.body_cases with ⟨kind, own, hbody⟩ | hnone
  · rw [sources?_of_body hbody] at hsources
    rw [hbody] at hread
    obtain rfl := Option.some.inj hsources
    exact SourcesFrom.noneAlone hread
  · rw [hnone] at hsources
    cases hsources

theorem noneAlone_sourceList (h : Source.NoneAlone sources) :
    (sourceList kind sources).NoneAlone := by
  rintro _ ⟨⟩
  exact h

theorem NoneAlone.mergeSources (h : directive.NoneAlone)
    (hincoming : ∀ source ∈ incoming, source.isNone = false) :
    (directive.mergeSources incoming).NoneAlone := by
  intro sources hsources
  rcases directive.body_cases with ⟨kind, own, hbody⟩ | hnone
  · rw [sources?_of_body (body_mergeSources hbody)] at hsources
    obtain rfl := Option.some.inj hsources
    exact (h own (sources?_of_body hbody)).merge hincoming
  · rw [mergeSources_eq_self hnone, hnone] at hsources
    cases hsources

end Directive

/-! ### Policies -/

namespace Policy

variable {policy : Policy} {directive other : Directive}

/-- In every list of the three sequences `'none'` stands alone or not at all. -/
def NoneAlone (policy : Policy) : Prop :=
  ∀ place, ∀ directive ∈ policy.sequence place, directive.NoneAlone

/-- If a list is pushed, `'none'` stands alone in it or not at all.  Any sources may be merged. -/
def Edit.PushesNoneAlone : Edit → Prop
  | .push directive => directive.NoneAlone
  | .merge .. => True

/-- What is in a sequence behind a merge was there before, be it with fewer sources, or it is the
list that was made up. -/
theorem mem_sequence_merge {place : Placement}
    (h : other ∈ (policy.merge kind sources).sequence place) :
    other ∈ policy.sequence place ∨
      (∃ directive ∈ policy.sequence place,
        directive.mergeSources (sources.filter (!·.isNone)) = other) ∨
      other = .sourceList kind (sources.filter (!·.isNone)) := by
  by_cases hlist : policy.hasList kind
  · rw [merge_of_hasList hlist] at h
    cases place with
    | recognized =>
      rcases mem_updateFirst h with hold | ⟨directive, hmem, -, hmerged⟩
      · exact Or.inl hold
      · exact Or.inr (Or.inl ⟨directive, hmem, hmerged⟩)
    | unrecognized => exact Or.inl h
    | ineffective => exact Or.inl h
  · rw [merge_of_not_hasList hlist] at h
    cases place with
    | recognized =>
      rcases List.mem_append.mp h with hold | hnew
      · exact Or.inl hold
      · exact Or.inr (Or.inr (List.mem_singleton.mp hnew))
    | unrecognized => exact Or.inl h
    | ineffective => exact Or.inl h

theorem noneAlone_empty : NoneAlone {} := by
  intro place directive hmem
  cases place <;> cases hmem

theorem noneAlone_of_parse {limits : Limits} {data : ByteArray}
    (h : (parse limits data).result = .ok policy) : policy.NoneAlone := by
  obtain ⟨header, directives, -, hmeans, -, rfl⟩ := parse_eq_ok_iff.mp h
  intro place directive hmem
  rw [sequence_raw] at hmem
  obtain ⟨clause, -, hread⟩ := exists_of_forall₂ hmeans.reads (mem_of_mem_place hmem)
  exact noneAlone_of_readClause hread

namespace NoneAlone

theorem push (h : policy.NoneAlone) (hdirective : directive.NoneAlone) :
    (policy.push directive).NoneAlone := by
  intro place other hmem
  rcases mem_sequence_push hmem with hold | ⟨rfl, -⟩
  · exact h place other hold
  · exact hdirective

theorem merge (h : policy.NoneAlone) (kind : ListKind) (sources : List Source) :
    (policy.merge kind sources).NoneAlone := by
  have hincoming := Source.isNone_of_mem_filter sources
  intro place other hmem
  rcases mem_sequence_merge hmem with hold | ⟨directive, hdirective, rfl⟩ | rfl
  · exact h place other hold
  · exact (h place directive hdirective).mergeSources hincoming
  · exact noneAlone_sourceList (Source.noneAlone_of_forall hincoming)

theorem edit (h : policy.NoneAlone) {edit : Edit} (hedit : edit.PushesNoneAlone) :
    (policy.edit edit).NoneAlone := by
  cases edit with
  | push directive => exact h.push hedit
  | merge kind sources => exact h.merge kind sources

end NoneAlone

/-- **The source `'none'` never stands beside another.**  In every policy that is empty or was read
under any limits, and that was then edited in any way that pushes no such list, each list of the
three sequences is `'none'` alone or does not hold it. -/
theorem noneAlone_of_reachable (policy : Policy) (h : Reachable Edit.PushesNoneAlone policy) :
    ∀ place, ∀ directive ∈ policy.sequence place, ∀ sources, directive.sources? = some sources →
      sources = [.none] ∨ .none ∉ sources := by
  have hpolicy : policy.NoneAlone := by
    induction h with
    | empty => exact noneAlone_empty
    | parsed hparse => exact noneAlone_of_parse hparse
    | edited _ hedit ih => exact ih.edit hedit
  exact hpolicy

/-- A policy that was read, and got `'none'` for objects twice: pushed, and then with nothing and
with something merged into it, of which `'none'` is a part again. -/
def unlockedPolicy : Policy :=
  (((spacedPolicy.edit (.push (.sourceList .objectSrc [.none]))).edit
    (.push (.sourceList .objectSrc [.none]))).edit (.merge .objectSrc [.none])).edit
      (.merge .objectSrc [.ofHost "a b", .none, .ofHost "a b"])

theorem noneAlone_unlockedPolicy :
    Reachable Edit.PushesNoneAlone unlockedPolicy ∧
      ∀ place, ∀ directive ∈ unlockedPolicy.sequence place, ∀ sources,
        directive.sources? = some sources → sources = [.none] ∨ .none ∉ sources := by
  have hpush : (Edit.push (.sourceList .objectSrc [.none])).PushesNoneAlone :=
    noneAlone_sourceList (Or.inl rfl)
  have hmerge : ∀ sources, (Edit.merge .objectSrc sources).PushesNoneAlone := fun _ => trivial
  have hreachable : Reachable Edit.PushesNoneAlone unlockedPolicy :=
    ((((Reachable.parsed parse_spacedPolicy).edited hpush).edited hpush).edited (hmerge _)).edited
      (hmerge _)
  exact ⟨hreachable, noneAlone_of_reachable unlockedPolicy hreachable⟩

/-- The pushed list that has no effect is still `'none'`; the other has got a host instead. -/
example : unlockedPolicy.render = "img-src * 'self'; object-src a b" ∧
    unlockedPolicy.ineffectiveDirectives.map Directive.text = ["object-src 'none'"] := by
  decide +kernel

end Policy

end ContentSecurity

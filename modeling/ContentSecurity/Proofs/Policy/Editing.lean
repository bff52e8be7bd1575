import ContentSecurity.Proofs.Policy.RoundTrip
/-!
# Editing policies

Directives are pushed and sources are merged in any number and order, starting from an empty policy
or from one that was read (`Reachable`).  If the parts of every edit are texts of their rules, then
what is in force stays a well-formed document, and the header that is kept, if any, is the one that
the policy was read from (`Consistent`).  Both edits keep this: merging into a list that is not in
force is pushing it (`merge_of_not_mem`), and otherwise only sources are added to one directive.
-/

namespace ContentSecurity

open Text Grammar Directive

variable {policy : Policy} {directive : Directive}
variable {kind : ListKind} {sources incoming : List Source}

/-! ### Changing the first member of a list -/

section UpdateFirst

variable {α β : Type} {condition : α → Bool} {f : α → α} {list : List α} {a : α}

theorem map_updateFirst {g : α → β} (h : ∀ a, g (f a) = g a) :
    (updateFirst condition f list).map g = list.map g := by
  induction list with
  | nil => rfl
  | cons a list ih =>
    rw [updateFirst]
    by_cases ha : condition a
    · rw [if_pos ha, List.map_cons, h, List.map_cons]
    · rw [if_neg ha, List.map_cons, ih, List.map_cons]

theorem mem_updateFirst (h : a ∈ updateFirst condition f list) :
    a ∈ list ∨ ∃ b ∈ list, condition b ∧ f b = a := by
  induction list with
  | nil => cases h
  | cons b list ih =>
    rw [updateFirst] at h
    by_cases hb : condition b
    · rw [if_pos hb] at h
      rcases List.mem_cons.mp h with rfl | hmem
      · exact Or.inr ⟨b, List.mem_cons_self, hb, rfl⟩
      · exact Or.inl (List.mem_cons_of_mem _ hmem)
    · rw [if_neg hb] at h
      rcases List.mem_cons.mp h with rfl | hmem
      · exact Or.inl List.mem_cons_self
      · rcases ih hmem with hold | ⟨c, hc, hcond, hnew⟩
        · exact Or.inl (List.mem_cons_of_mem _ hold)
        · exact Or.inr ⟨c, List.mem_cons_of_mem _ hc, hcond, hnew⟩

theorem updateFirst_append {front : List α} (hfront : ∀ b ∈ front, condition b = false)
    (ha : condition a) (back : List α) :
    updateFirst condition f (front ++ a :: back) = front ++ f a :: back := by
  induction front with
  | nil => rw [List.nil_append, updateFirst, if_pos ha, List.nil_append]
  | cons b front ih =>
    obtain ⟨hb, hrest⟩ := List.forall_mem_cons.mp hfront
    rw [List.cons_append, updateFirst, hb, if_neg Bool.false_ne_true, ih hrest, List.cons_append]

/-- Changing the first member twice is changing it once, if it is still the first one then. -/
theorem updateFirst_updateFirst {g : α → α} (hcondition : ∀ a, condition (f a) = condition a)
    (list : List α) :
    updateFirst condition g (updateFirst condition f list) =
      updateFirst condition (fun a => g (f a)) list := by
  induction list with
  | nil => rfl
  | cons a list ih =>
    rw [updateFirst, updateFirst]
    by_cases ha : condition a
    · rw [if_pos ha, if_pos ha, updateFirst, hcondition, if_pos ha]
    · rw [if_neg ha, if_neg ha, updateFirst, if_neg ha, ih]

/-- A search that passes by what is changed, before and after, finds what it found. -/
theorem find?_updateFirst {sought : α → Bool} (hold : ∀ a, condition a → sought a = false)
    (hnew : ∀ a, condition a → sought (f a) = false) (list : List α) :
    (updateFirst condition f list).find? sought = list.find? sought := by
  induction list with
  | nil => rfl
  | cons a list ih =>
    rw [updateFirst]
    by_cases ha : condition a
    · rw [if_pos ha, List.find?_cons, hnew a ha, List.find?_cons, hold a ha]
    · rw [if_neg ha, List.find?_cons, ih, List.find?_cons]

end UpdateFirst

/-! ### Merging sources -/

theorem Source.mem_union {current : List Source} {source : Source}
    (h : source ∈ Source.union current incoming) : source ∈ current ∨ source ∈ incoming := by
  induction incoming generalizing current with
  | nil => exact Or.inl h
  | cons first rest ih =>
    rw [Source.union, List.foldl_cons] at h
    rcases ih h with hcurrent | hrest
    · by_cases hknown : current.any (· ≈ first)
      · rw [if_pos hknown] at hcurrent
        exact Or.inl hcurrent
      · rw [if_neg hknown] at hcurrent
        rcases List.mem_append.mp hcurrent with hcurrent | hfirst
        · exact Or.inl hcurrent
        · exact Or.inr (List.mem_cons.mpr (Or.inl (List.mem_singleton.mp hfirst)))
    · exact Or.inr (List.mem_cons_of_mem _ hrest)

namespace Directive

/-- **Merging sources that a list may hold keeps it well-formed**: they displace `'none'`. -/
theorem wellFormed_merge {written : String} (h : (Body.sourceList kind sources).WellFormed written)
    (hincoming : ∀ source ∈ incoming, kind.Holds source) (other : String) :
    (Body.sourceList kind (Source.merge sources incoming)).WellFormed other := by
  by_cases hnone : incoming = []
  · -- with nothing to merge even `'none'` stays
    rw [hnone]
    exact h
  · refine Or.inr fun source hmem => ?_
    rw [Source.merge, if_neg (by simpa using hnone)] at hmem
    rcases Source.mem_union hmem with hkept | hnew
    · obtain ⟨hcurrent, hsource⟩ := List.mem_filter.mp hkept
      rcases h with hall | hholds
      · rw [hall] at hcurrent
        rw [List.mem_singleton.mp hcurrent] at hsource
        cases hsource
      · exact hholds source hcurrent
    · exact hincoming source hnew

theorem name_mergeSources (incoming : List Source) (directive : Directive) :
    (directive.mergeSources incoming).name = directive.name := by
  unfold mergeSources
  cases directive.body <;> rfl

theorem isOther_mergeSources (incoming : List Source) (directive : Directive) :
    (directive.mergeSources incoming).isOther = directive.isOther := by
  unfold mergeSources isOther
  split
  · rename_i hbody
    rw [hbody]
    rfl
  · rfl

theorem WellFormed.mergeSources (h : directive.WellFormed) (hname : directive.name = kind.name)
    (hincoming : ∀ source ∈ incoming, kind.Holds source) :
    (directive.mergeSources incoming).WellFormed := by
  have hkind : directive.body.kind? = some (.sourceList kind) := by
    rw [← h.kind_eq]
    exact Kind.ofName?_eq_some_iff.mpr hname
  unfold Directive.mergeSources
  split
  · rename_i own sources hbody
    have hbodyFormed := h.body
    rw [hbody] at hkind hbodyFormed
    obtain rfl : own = kind := Kind.sourceList.inj (Option.some.inj hkind)
    constructor
    · exact Kind.ofName?_eq_some_iff.mpr hname
    · intro hother
      cases hother
    · exact wellFormed_merge hbodyFormed hincoming _
  · exact h

theorem wellFormed_sourceList (hincoming : ∀ source ∈ incoming, kind.Holds source) :
    (sourceList kind incoming).WellFormed where
  kind_eq := Kind.ofName?_eq_some_iff.mpr rfl
  name := by
    intro hother
    cases hother
  body := Or.inr hincoming

end Directive

namespace Policy

/-! ### Edits -/

/-- One change of a policy. -/
inductive Edit where
  | push (directive : Directive)
  | merge (kind : ListKind) (sources : List Source)

/-- The policy after a change. -/
def edit (policy : Policy) : Edit → Policy
  | .push directive => policy.push directive
  | .merge kind sources => policy.merge kind sources

/-- The parts of a change are texts of their rules. -/
def Edit.WellFormed : Edit → Prop
  | .push directive => directive.WellFormed
  | .merge kind sources => ∀ source ∈ sources, source = .none ∨ kind.Holds source

/-- What becomes of an empty policy, or of one that was read under any limits, by any number of
changes that are allowed. -/
inductive Reachable (allows : Edit → Prop) : Policy → Prop
  | empty : Reachable allows {}
  | parsed {limits : Limits} {data : ByteArray} {policy : Policy}
      (h : (parse limits data).result = .ok policy) : Reachable allows policy
  | edited {policy : Policy} {edit : Edit} (h : Reachable allows policy) (hedit : allows edit) :
      Reachable allows (policy.edit edit)

/-! ### What a step keeps -/

theorem names_prefix_append (policy : Policy) (directive : Directive) (place other : Placement) :
    (policy.sequence other).map Directive.name <+:
      ((policy.append directive place).sequence other).map Directive.name := by
  rw [sequence_append, List.map_append]
  exact List.prefix_append _ _

/-- **Every edit leaves the names of each sequence where they were.** -/
theorem names_prefix_edit (policy : Policy) (edit : Edit) (place : Placement) :
    (policy.sequence place).map Directive.name <+:
      ((policy.edit edit).sequence place).map Directive.name := by
  cases edit with
  | push directive =>
    rw [Policy.edit, push, sequence_raw]
    exact names_prefix_append policy directive _ place
  | merge kind sources =>
    rw [Policy.edit, merge]
    by_cases hlist : policy.hasList kind
    · rw [if_pos hlist]
      cases place with
      | recognized =>
        rw [sequence, sequence, map_updateFirst (name_mergeSources _)]
      | unrecognized => exact List.prefix_rfl
      | ineffective => exact List.prefix_rfl
    · rw [if_neg hlist]
      exact names_prefix_append policy (.sourceList kind _) .recognized place

theorem effectiveNames_subset_edit (policy : Policy) (edit : Edit) :
    policy.effectiveNames ⊆ (policy.edit edit).effectiveNames := by
  intro name hmem
  rw [effectiveNames, effectiveDirectives, List.map_append] at hmem ⊢
  rcases List.mem_append.mp hmem with hmem | hmem
  · exact List.mem_append_left _ ((names_prefix_edit policy edit .recognized).subset hmem)
  · exact List.mem_append_right _ ((names_prefix_edit policy edit .unrecognized).subset hmem)

theorem raw_edit (policy : Policy) (edit : Edit) : (policy.edit edit).raw = none := by
  cases edit with
  | push directive => rfl
  | merge kind sources =>
    rw [Policy.edit, merge]
    split <;> rfl

/-- What is in a sequence behind a push was there before, or it is the directive in its place. -/
theorem mem_sequence_push {other : Directive} {place : Placement}
    (h : other ∈ (policy.push directive).sequence place) :
    other ∈ policy.sequence place ∨
      other = directive ∧ directive.placement policy.effectiveNames = place := by
  rw [push, sequence_raw, sequence_append] at h
  rcases List.mem_append.mp h with hold | hnew
  · exact Or.inl hold
  · by_cases hplace : directive.placement policy.effectiveNames = place
    · rw [if_pos hplace] at hnew
      exact Or.inr ⟨List.mem_singleton.mp hnew, hplace⟩
    · rw [if_neg hplace] at hnew
      cases hnew

theorem effectiveNames_push_of_mem (h : directive.name ∈ policy.effectiveNames) :
    (policy.push directive).effectiveNames = policy.effectiveNames := by
  rw [push, placement_eq_ineffective_iff.mpr h]
  rfl

/-- A directive of a new name adds this name to those in force. -/
theorem effectiveNames_push_perm (h : directive.name ∉ policy.effectiveNames) :
    (policy.push directive).effectiveNames.Perm (directive.name :: policy.effectiveNames) := by
  have hplace := placement_of_not_mem h
  cases hother : directive.isOther with
  | true =>
    rw [hother, if_pos rfl] at hplace
    have hlast : (policy.push directive).effectiveNames =
        policy.effectiveNames ++ [directive.name] := by
      rw [push, hplace]
      simp [append, effectiveNames, effectiveDirectives]
    rw [hlast]
    exact List.perm_append_singleton directive.name policy.effectiveNames
  | false =>
    rw [hother, if_neg Bool.false_ne_true] at hplace
    rw [push, hplace]
    simp [append, effectiveNames, effectiveDirectives]

/-- Pushing keeps the names in force distinct, and makes none of them so. -/
theorem nodup_effectiveNames_push_iff :
    (policy.push directive).effectiveNames.Nodup ↔ policy.effectiveNames.Nodup := by
  by_cases hname : directive.name ∈ policy.effectiveNames
  · rw [effectiveNames_push_of_mem hname]
  · rw [(effectiveNames_push_perm hname).nodup_iff, List.nodup_cons]
    exact and_iff_right hname

/-- A pushed directive is without effect only if its name is in force. -/
theorem covered_push
    (h : ∀ other ∈ policy.ineffectiveDirectives, other.name ∈ policy.effectiveNames) :
    ∀ other ∈ (policy.push directive).ineffectiveDirectives,
      other.name ∈ (policy.push directive).effectiveNames := by
  intro other hmem
  apply effectiveNames_subset_edit policy (.push directive)
  have hsequence : other ∈ (policy.push directive).sequence .ineffective := hmem
  rcases mem_sequence_push hsequence with hold | ⟨rfl, hplace⟩
  · exact h other hold
  · exact placement_eq_ineffective_iff.mp hplace

/-- Sources merged into a list that is not in force are pushed as a directive. -/
theorem merge_of_not_mem (h : kind.name ∉ policy.effectiveNames) (sources : List Source) :
    policy.merge kind sources = policy.push (.sourceList kind (sources.filter (!·.isNone))) := by
  have hlist : ¬ policy.hasList kind := by
    intro hany
    obtain ⟨directive, hmem, hname⟩ := List.any_eq_true.mp hany
    apply h
    rw [← beq_iff_eq.mp hname]
    exact List.mem_map_of_mem (List.mem_append_left _ hmem)
  rw [merge, if_neg hlist, push, placement_of_not_mem h]
  rfl

theorem effectiveNames_merge_of_hasList (h : policy.hasList kind) (sources : List Source) :
    (policy.merge kind sources).effectiveNames = policy.effectiveNames := by
  rw [merge, if_pos h]
  simp only [effectiveNames, effectiveDirectives, List.map_append,
    map_updateFirst (name_mergeSources _)]

/-! ### The invariant -/

/-- What is in force is made of well-formed directives and no name repeats, each name without effect
is in force, and a header that is kept means the policy. -/
structure Consistent (policy : Policy) : Prop where
  nodup : policy.effectiveNames.Nodup
  covered : ∀ directive ∈ policy.ineffectiveDirectives, directive.name ∈ policy.effectiveNames
  recognized : ∀ directive ∈ policy.directives, directive.WellFormed ∧ directive.isOther = false
  others : ∀ directive ∈ policy.otherDirectives, directive.WellFormed ∧ directive.isOther = true
  fresh : ∀ header, policy.raw = some header →
    ∃ directives, Means header directives ∧
      policy = { ofDirectives directives with raw := some header }

theorem consistent_empty : Consistent {} where
  nodup := List.nodup_nil
  covered := by simp
  recognized := by simp
  others := by simp
  fresh := by simp

theorem consistent_of_parse {limits : Limits} {data : ByteArray}
    (h : (parse limits data).result = .ok policy) : policy.Consistent := by
  obtain ⟨header, directives, -, hmeans, -, rfl⟩ := parse_eq_ok_iff.mp h
  have hformed := hmeans.wellFormed_ofDirectives
  exact {
    nodup := hformed.nodup
    covered := covered_ofDirectives directives
    recognized := hformed.recognized
    others := hformed.others
    fresh := by
      rintro _ ⟨⟩
      exact ⟨directives, hmeans, rfl⟩ }

namespace Consistent

theorem wellFormed (h : policy.Consistent) (hne : policy.isEmpty = false) : policy.WellFormed where
  nonempty := isEmpty_eq_false_iff.mp hne
  nodup := h.nodup
  recognized := h.recognized
  others := h.others

theorem push (h : policy.Consistent) (hformed : directive.WellFormed) :
    (policy.push directive).Consistent where
  nodup := nodup_effectiveNames_push_iff.mpr h.nodup
  covered := covered_push h.covered
  recognized := by
    intro other hmem
    have hsequence : other ∈ (policy.push directive).sequence .recognized := hmem
    rcases mem_sequence_push hsequence with hold | ⟨rfl, hplace⟩
    · exact h.recognized other hold
    · exact ⟨hformed, isOther_of_placement_recognized hplace⟩
  others := by
    intro other hmem
    have hsequence : other ∈ (policy.push directive).sequence .unrecognized := hmem
    rcases mem_sequence_push hsequence with hold | ⟨rfl, hplace⟩
    · exact h.others other hold
    · exact ⟨hformed, isOther_of_placement_unrecognized hplace⟩
  fresh := by
    intro header hraw
    cases hraw

/-- An unrecognized directive never has the name of a source list. -/
theorem not_mem_effectiveNames (h : policy.Consistent) (hlist : ¬ policy.hasList kind) :
    kind.name ∉ policy.effectiveNames := by
  intro hmem
  obtain ⟨directive, hdirective, hname⟩ := List.mem_map.mp hmem
  rcases List.mem_append.mp hdirective with hrecognized | hother
  · apply hlist
    exact List.any_eq_true.mpr ⟨directive, hrecognized, beq_iff_eq.mpr hname⟩
  · obtain ⟨hformed, hbody⟩ := h.others directive hother
    have hunknown : Kind.ofName? directive.name = none :=
      hformed.kind_eq.trans (Body.isOther_iff.mp hbody)
    have hknown : Kind.ofName? directive.name = some (.sourceList kind) :=
      Kind.ofName?_eq_some_iff.mpr hname
    rw [hunknown] at hknown
    cases hknown

theorem merge (h : policy.Consistent)
    (hsources : ∀ source ∈ sources, source = .none ∨ kind.Holds source) :
    (policy.merge kind sources).Consistent := by
  have hincoming : ∀ source ∈ sources.filter (!·.isNone), kind.Holds source := by
    intro source hmem
    obtain ⟨hsource, hreal⟩ := List.mem_filter.mp hmem
    rcases hsources source hsource with rfl | hholds
    · cases hreal
    · exact hholds
  by_cases hlist : policy.hasList kind
  · -- the names stay, so only the one directive that gets the sources has to be looked at
    have hnames := effectiveNames_merge_of_hasList hlist sources
    constructor
    · rw [hnames]
      exact h.nodup
    · rw [hnames, Policy.merge, if_pos hlist]
      exact h.covered
    · rw [Policy.merge, if_pos hlist]
      intro directive hmem
      rcases mem_updateFirst hmem with hold | ⟨first, hfirst, hname, rfl⟩
      · exact h.recognized directive hold
      · obtain ⟨hformed, hother⟩ := h.recognized first hfirst
        exact ⟨hformed.mergeSources (beq_iff_eq.mp hname) hincoming,
          (isOther_mergeSources _ first).trans hother⟩
    · rw [Policy.merge, if_pos hlist]
      exact h.others
    · intro header hraw
      have hnone := raw_edit policy (.merge kind sources)
      rw [Policy.edit, hraw] at hnone
      cases hnone
  · rw [merge_of_not_mem (h.not_mem_effectiveNames hlist)]
    exact h.push (wellFormed_sourceList hincoming)

/-- Every edit of well-formed parts keeps a policy consistent. -/
theorem edit (h : policy.Consistent) {edit : Edit} (hedit : edit.WellFormed) :
    (policy.edit edit).Consistent := by
  cases edit with
  | push directive => exact h.push hedit
  | merge kind sources => exact h.merge hedit

end Consistent

theorem Reachable.consistent (h : Reachable Edit.WellFormed policy) : policy.Consistent := by
  induction h with
  | empty => exact consistent_empty
  | parsed hparse => exact consistent_of_parse hparse
  | edited _ hedit ih => exact ih.edit hedit

/-! ### Reading what is reached -/

/-- A policy that can be written and read again: no name in force repeats and each name without
effect is in force, and edits leave all names where they were.  Unless nothing is in force, the
canonical form and the text are read, within the greatest limits, as what is in force; a header that
is kept is read as the policy itself. -/
structure Readable (policy : Policy) : Prop where
  nodup : policy.effectiveNames.Nodup
  covered : ∀ directive ∈ policy.ineffectiveDirectives, directive.name ∈ policy.effectiveNames
  grows : ∀ edit place, (policy.sequence place).map Directive.name <+:
    ((policy.edit edit).sequence place).map Directive.name
  render : policy.isEmpty = false → policy.render.utf8ByteSize ≤ Limits.greatest →
    ∃ read, (parse .unbounded policy.render.toUTF8).result = .ok read ∧ read.Restores policy
  text : policy.isEmpty = false → policy.text.utf8ByteSize ≤ Limits.greatest →
    ∃ read, (parse .unbounded policy.text.toUTF8).result = .ok read ∧
      List.Forall₂ (· ≈ ·) read.directives policy.directives ∧
      List.Forall₂ (· ≈ ·) read.otherDirectives policy.otherDirectives ∧ read.render = policy.render
  raw : ∀ header, policy.raw = some header → header.utf8ByteSize ≤ Limits.greatest →
    (parse .unbounded header.toUTF8).result = .ok policy

theorem Consistent.parse_render (h : policy.Consistent) (hne : policy.isEmpty = false)
    (hsize : policy.render.utf8ByteSize ≤ Limits.greatest) :
    (parse .unbounded policy.render.toUTF8).result = .ok policy.canonical := by
  have hformed := h.wellFormed hne
  exact hformed.parse_render (hformed.means_render.admit_unbounded hsize)

/-- The header that is kept is never stale. -/
theorem Consistent.parse_raw (h : policy.Consistent) {header : String}
    (hraw : policy.raw = some header) (hsize : header.utf8ByteSize ≤ Limits.greatest) :
    (parse .unbounded header.toUTF8).result = .ok policy := by
  obtain ⟨directives, hmeans, hpolicy⟩ := h.fresh header hraw
  exact parse_eq_ok_iff.mpr ⟨header, directives, rfl, hmeans, hmeans.admit_unbounded hsize, hpolicy⟩

theorem Consistent.readable (h : policy.Consistent) : policy.Readable where
  nodup := h.nodup
  covered := h.covered
  grows := names_prefix_edit policy
  render := by
    intro hne hsize
    exact ⟨policy.canonical, h.parse_render hne hsize, restores_canonical policy⟩
  text := by
    intro hne hsize
    cases hraw : policy.raw with
    | none =>
      have htext : policy.text = policy.render := by rw [Policy.text, hraw, Option.getD_none]
      rw [htext] at hsize ⊢
      have hrestores := restores_canonical policy
      exact ⟨policy.canonical, h.parse_render hne hsize, hrestores.directives,
        hrestores.otherDirectives, hrestores.render⟩
    | some header =>
      have htext : policy.text = header := by rw [Policy.text, hraw, Option.getD_some]
      rw [htext] at hsize ⊢
      exact ⟨policy, h.parse_raw hraw hsize, List.forall₂_same.mpr fun _ _ => Setoid.refl _,
        List.forall₂_same.mpr fun _ _ => Setoid.refl _, rfl⟩
  raw := by
    intro header hraw hsize
    exact h.parse_raw hraw hsize

/-- **Documents stay readable**, whatever is pushed and merged, as long as every part of it is a
text of its rule. -/
theorem readable_of_reachable (policy : Policy) (h : Reachable Edit.WellFormed policy) :
    policy.Readable :=
  h.consistent.readable

/-- A policy that was read, and had a directive pushed twice and sources merged. -/
def editedPolicy : Policy :=
  ((spacedPolicy.edit (.push ⟨"x-a", "x-a", "1", .other⟩)).edit
    (.push ⟨"x-a", "x-a", "1", .other⟩)).edit
      (.merge .imgSrc [.none, .ofExpression (.host imageHost)])

theorem reachable_editedPolicy : Reachable Edit.WellFormed editedPolicy := by
  have hpush : (Edit.push ⟨"x-a", "x-a", "1", .other⟩).WellFormed :=
    (wellFormed_imagePolicy.others _ List.mem_cons_self).1
  have hmerge : (Edit.merge .imgSrc [.none, .ofExpression (.host imageHost)]).WellFormed := by
    intro source hmem
    rcases List.mem_cons.mp hmem with rfl | hmem
    · exact Or.inl rfl
    · rw [List.mem_singleton.mp hmem]
      exact Or.inr ⟨.host imageHost, rfl, trivial, wellFormed_imageHost⟩
  exact (((Reachable.parsed parse_spacedPolicy).edited hpush).edited hpush).edited hmerge

theorem readable_editedPolicy :
    Reachable Edit.WellFormed editedPolicy ∧ editedPolicy.Readable :=
  ⟨reachable_editedPolicy, readable_of_reachable editedPolicy reachable_editedPolicy⟩

/-- The text of the header is lost with the first edit, and the second `x-a` has no effect. -/
example : editedPolicy.text = "img-src * 'self' https://a:1/; x-a 1" := by
  decide +kernel

end Policy

end ContentSecurity

import ContentSecurity.Proofs.Policy.Editing
/-!
# Names in force

Pushing looks for the name of a directive among all names in force, but merging looks for the name
of a list among the recognized directives only.  So a list is made up beside an unrecognized
directive that has its name (`Edit.Doubles`), and the name is in force twice.  This is the only way:
a run of edits keeps the names in force distinct exactly if none of its steps does so
(`nodup_effectiveNames_run_iff`).  Whatever is pushed and merged, no name repeats within one of the
two sequences in force, and each name without effect is in force (`Named`).
-/

namespace ContentSecurity.Policy

open Directive

variable {policy start : Policy} {directive : Directive} {kind : ListKind}

/-- No name repeats among the recognized directives, none among the unrecognized ones, and each name
without effect is in force. -/
structure Named (policy : Policy) : Prop where
  recognized : (policy.directives.map Directive.name).Nodup
  unrecognized : (policy.otherDirectives.map Directive.name).Nodup
  covered : ∀ directive ∈ policy.ineffectiveDirectives, directive.name ∈ policy.effectiveNames

/-- The policy is empty, or it was read under any limits. -/
def IsInitial (policy : Policy) : Prop :=
  policy = {} ∨ ∃ limits data, (parse limits data).result = .ok policy

/-- The policy after a run of changes. -/
def run (policy : Policy) (edits : List Edit) : Policy :=
  edits.foldl edit policy

/-- A directive that is pushed was made of a kind and any value, or is an unrecognized one of any
name. -/
def Edit.Constructed : Edit → Prop
  | .push directive => (∃ kind body, directive = .ofBody kind body) ∨
      ∃ rawName rawValue, directive = .unrecognized rawName rawValue
  | .merge .. => True

/-- A list is made up although an unrecognized directive has its name. -/
def Edit.Doubles (policy : Policy) : Edit → Prop
  | .push _ => False
  | .merge kind _ => policy.hasList kind = false ∧
      ∃ directive ∈ policy.otherDirectives, directive.name = kind.name

/-! ### One edit -/

theorem mem_effectiveNames {name : String} :
    name ∈ policy.effectiveNames ↔
      name ∈ policy.directives.map Directive.name ∨
        name ∈ policy.otherDirectives.map Directive.name := by
  rw [effectiveNames, effectiveDirectives, List.map_append, List.mem_append]

theorem hasList_iff : policy.hasList kind ↔ kind.name ∈ policy.directives.map Directive.name := by
  rw [hasList, List.any_eq_true, List.mem_map]
  simp only [beq_iff_eq]

/-- A list that is made up adds its name to those in force, be it there or not. -/
theorem effectiveNames_merge_perm (h : policy.hasList kind = false) (sources : List Source) :
    (policy.merge kind sources).effectiveNames.Perm (kind.name :: policy.effectiveNames) := by
  have hname : ∀ sources, (sourceList kind sources).name = kind.name := fun _ => rfl
  rw [merge, h]
  simp [effectiveNames, effectiveDirectives, hname]

/-- **An edit keeps the names in force distinct unless it makes up a list beside an unrecognized
directive of that name.** -/
theorem nodup_effectiveNames_edit_iff (policy : Policy) (edit : Edit) :
    (policy.edit edit).effectiveNames.Nodup ↔
      policy.effectiveNames.Nodup ∧ ¬ edit.Doubles policy := by
  cases edit with
  | push directive =>
    rw [Policy.edit, nodup_effectiveNames_push_iff]
    exact (and_iff_left id).symm
  | merge kind sources =>
    rw [Policy.edit, Edit.Doubles]
    cases hlist : policy.hasList kind with
    | true =>
      rw [effectiveNames_merge_of_hasList hlist]
      simp
    | false =>
      have hfree : kind.name ∉ policy.directives.map Directive.name := by
        rw [← hasList_iff, hlist]
        exact Bool.false_ne_true
      rw [(effectiveNames_merge_perm hlist sources).nodup_iff, List.nodup_cons, mem_effectiveNames,
        or_iff_right hfree, List.mem_map, and_comm]
      simp

/-- A sequence whose names are distinct gets at most one name, which is not in force. -/
theorem nodup_names_push (place : Placement) (hplace : place ≠ .ineffective)
    (hsub : (policy.sequence place).map Directive.name ⊆ policy.effectiveNames)
    (h : ((policy.sequence place).map Directive.name).Nodup) :
    (((policy.push directive).sequence place).map Directive.name).Nodup := by
  rw [push, sequence_raw, sequence_append]
  by_cases hhere : directive.placement policy.effectiveNames = place
  · have hfresh : directive.name ∉ (policy.sequence place).map Directive.name := by
      intro hmem
      rw [placement_eq_ineffective_iff.mpr (hsub hmem)] at hhere
      exact hplace hhere.symm
    rw [if_pos hhere, List.map_append, List.map_singleton,
      (List.perm_append_singleton _ _).nodup_iff]
    exact List.nodup_cons.mpr ⟨hfresh, h⟩
  · rw [if_neg hhere, List.append_nil]
    exact h

namespace Named

theorem push (h : policy.Named) (directive : Directive) : (policy.push directive).Named where
  recognized := by
    have hsub : policy.directives.map Directive.name ⊆ policy.effectiveNames :=
      fun _ hname => mem_effectiveNames.mpr (Or.inl hname)
    exact nodup_names_push .recognized Placement.noConfusion hsub h.recognized
  unrecognized := by
    have hsub : policy.otherDirectives.map Directive.name ⊆ policy.effectiveNames :=
      fun _ hname => mem_effectiveNames.mpr (Or.inr hname)
    exact nodup_names_push .unrecognized Placement.noConfusion hsub h.unrecognized
  covered := covered_push h.covered

theorem merge (h : policy.Named) (kind : ListKind) (sources : List Source) :
    (policy.merge kind sources).Named := by
  have hcovered : ∀ directive ∈ policy.ineffectiveDirectives,
      directive.name ∈ (policy.merge kind sources).effectiveNames := by
    intro directive hmem
    exact effectiveNames_subset_edit policy (.merge kind sources) (h.covered directive hmem)
  cases hlist : policy.hasList kind with
  | true =>
    rw [Policy.merge, if_pos hlist] at hcovered ⊢
    refine ⟨?_, h.unrecognized, hcovered⟩
    rw [map_updateFirst (name_mergeSources _)]
    exact h.recognized
  | false =>
    have hfresh : kind.name ∉ policy.directives.map Directive.name := by
      rw [← hasList_iff, hlist]
      exact Bool.false_ne_true
    rw [Policy.merge, hlist, if_neg Bool.false_ne_true] at hcovered ⊢
    refine ⟨?_, h.unrecognized, hcovered⟩
    rw [List.map_append, List.map_singleton, (List.perm_append_singleton _ _).nodup_iff]
    exact List.nodup_cons.mpr ⟨hfresh, h.recognized⟩

theorem edit (h : policy.Named) (edit : Edit) : (policy.edit edit).Named := by
  cases edit with
  | push directive => exact h.push directive
  | merge kind sources => exact h.merge kind sources

theorem run (h : policy.Named) (edits : List Edit) : (policy.run edits).Named := by
  induction edits generalizing policy with
  | nil => exact h
  | cons edit edits ih => exact ih (h.edit edit)

end Named

/-! ### Runs of edits -/

theorem IsInitial.consistent (h : start.IsInitial) : start.Consistent := by
  rcases h with rfl | ⟨limits, data, hparse⟩
  · exact consistent_empty
  · exact consistent_of_parse hparse

theorem Consistent.named (h : policy.Consistent) : policy.Named := by
  have hnodup := h.nodup
  rw [effectiveNames, effectiveDirectives, List.map_append, List.nodup_append] at hnodup
  exact ⟨hnodup.1, hnodup.2.1, h.covered⟩

/-- The names in force stay distinct if and only if they are at the start and no step doubles one.
The induction goes along the run, so what a step meets is what the steps before have made. -/
theorem nodup_effectiveNames_run_iff (policy : Policy) (edits : List Edit) :
    (policy.run edits).effectiveNames.Nodup ↔ policy.effectiveNames.Nodup ∧
      ∀ front edit back, edits = front ++ edit :: back → ¬ edit.Doubles (policy.run front) := by
  induction edits generalizing policy with
  | nil => simp [run]
  | cons first edits ih =>
    have hrun : policy.run (first :: edits) = (policy.edit first).run edits := rfl
    rw [hrun, ih, nodup_effectiveNames_edit_iff, and_assoc]
    refine and_congr_right fun _ => ⟨?_, ?_⟩
    · rintro ⟨hfirst, hothers⟩ front edit back hsplit
      cases front with
      | nil =>
        obtain ⟨rfl, -⟩ := List.cons.inj hsplit
        exact hfirst
      | cons other front =>
        obtain ⟨rfl, hrest⟩ := List.cons.inj hsplit
        exact hothers front edit back hrest
    · intro hall
      refine ⟨hall [] first edits rfl, ?_⟩
      intro front edit back hsplit
      exact hall (first :: front) edit back (congrArg (first :: ·) hsplit)

/-- **When a name is in force twice.**  Whatever is pushed and merged, starting from an empty policy
or from one that was read, no name repeats within a sequence in force and each name without effect
is in force.  All names in force are distinct if and only if at no step a list is made up beside an
unrecognized directive of its name. -/
theorem named_run_of_isInitial (start : Policy) (edits : List Edit) (h : start.IsInitial) :
    (start.run edits).Named ∧ ((start.run edits).effectiveNames.Nodup ↔
      ∀ front edit back, edits = front ++ edit :: back → ¬ edit.Doubles (start.run front)) := by
  have hstart := h.consistent
  refine ⟨hstart.named.run edits, ?_⟩
  rw [nodup_effectiveNames_run_iff]
  exact and_iff_right hstart.nodup

/-- An unrecognized directive that has the name of a list, and sources for this list. -/
def shadowingEdits : List Edit :=
  [.push (.unrecognized "connect-src" "x"), .merge .connectSrc [.ofExpression (.keyword "self")]]

theorem named_run_shadowingEdits :
    spacedPolicy.IsInitial ∧ (spacedPolicy.run shadowingEdits).Named ∧
      ((spacedPolicy.run shadowingEdits).effectiveNames.Nodup ↔
        ∀ front edit back, shadowingEdits = front ++ edit :: back →
          ¬ edit.Doubles (spacedPolicy.run front)) :=
  have hinitial : spacedPolicy.IsInitial := Or.inr ⟨_, _, parse_spacedPolicy⟩
  ⟨hinitial, named_run_of_isInitial spacedPolicy shadowingEdits hinitial⟩

/-- Pushing and merging what can be made does not keep the names in force distinct. -/
theorem not_nodup_effectiveNames_run :
    ¬ ∀ (start : Policy) (edits : List Edit), start.IsInitial →
      (∀ edit ∈ edits, edit.Constructed) →
      (start.run edits).effectiveNames.Nodup ∧
        ∀ directive ∈ (start.run edits).ineffectiveDirectives,
          directive.name ∈ (start.run edits).effectiveNames := by
  intro h
  have hconstructed : ∀ edit ∈ shadowingEdits, edit.Constructed := by
    intro edit hmem
    rcases List.mem_cons.mp hmem with rfl | hmem
    · exact Or.inr ⟨_, _, rfl⟩
    · rw [List.mem_singleton.mp hmem]
      trivial
  have hnodup := (h {} shadowingEdits (Or.inl rfl) hconstructed).1
  have hnames : (run {} shadowingEdits).effectiveNames = ["connect-src", "connect-src"] := by
    decide +kernel
  rw [hnames] at hnodup
  exact absurd hnodup (by decide)

end ContentSecurity.Policy

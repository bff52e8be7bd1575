import ContentSecurity.Proofs.Policy.Rewriting
/-!
# Equivalence of policies

Sources, directives and policies are equivalent when the parts that carry their meaning agree,
whatever was written (`Source.agrees_iff`, `Directive.agrees_iff`, `Policy.agrees_iff`).  Writing,
looking up, pushing and merging see nothing but these parts: each of them gives the same for a plain
form as for the policy itself, up to its own plain form, so that equivalent policies cannot be told
apart (`interchangeable_of_equiv`).  Policies that were read are written alike only if their
directives in force are equivalent (`forall₂_equiv_of_render_eq`).
-/

namespace ContentSecurity

open Directive (ListKind Body)

/-! ### What is compared -/

/-- Sources agree in what they mean. -/
def Source.Agrees (source other : Source) : Prop :=
  source.expression? = other.expression?

theorem Source.agrees_iff {source other : Source} : source.Agrees other ↔ source ≈ other := by
  change source.expression? = other.expression? ↔ source.plain = other.plain
  cases source <;> cases other <;> simp [expression?, plain, ofExpression]
  intro h
  rw [h]

theorem forall₂_sourceAgrees_iff {sources others : List Source} :
    List.Forall₂ Source.Agrees sources others ↔
      sources.map Source.plain = others.map Source.plain := by
  rw [← forall₂_eq_iff_map_eq]
  constructor
  · exact List.Forall₂.imp fun _ _ => Source.agrees_iff.mp
  · exact List.Forall₂.imp fun _ _ => Source.agrees_iff.mpr

/-- Source lists of a kind agree source by source; any other value agrees with itself only. -/
inductive Directive.Body.Agrees : Body → Body → Prop
  | sourceList {kind : ListKind} {sources others : List Source}
      (h : List.Forall₂ Source.Agrees sources others) :
      Agrees (.sourceList kind sources) (.sourceList kind others)
  | same (body : Body) : Agrees body body

theorem Directive.Body.agrees_iff {body body' : Body} :
    body.Agrees body' ↔ body.plain = body'.plain := by
  constructor
  · rintro (⟨h⟩ | _)
    · rw [plain, plain, forall₂_sourceAgrees_iff.mp h]
    · rfl
  · intro h
    cases body with
    | sourceList kind sources =>
      cases body' with
      | sourceList kind' sources' =>
        obtain ⟨rfl, hsources⟩ := Body.sourceList.inj h
        exact .sourceList (forall₂_sourceAgrees_iff.mpr hsources)
      | _ => cases h
    | _ =>
      cases body' with
      | sourceList => cases h
      | _ => first | cases h; exact .same _ | cases h

namespace Directive

/-- Directives agree in their names and values.  What was written counts for a value that is not
understood. -/
structure Agrees (directive other : Directive) : Prop where
  name : directive.name = other.name
  body : directive.body.Agrees other.body
  written : directive.isOther → directive.rawValue = other.rawValue

theorem agrees_iff {directive other : Directive} : directive.Agrees other ↔ directive ≈ other := by
  rw [equiv_iff, ← Body.agrees_iff]
  exact ⟨fun h => ⟨h.name, h.body, h.written⟩, fun h => ⟨h.1, h.2.1, h.2.2⟩⟩

end Directive

namespace Policy

variable {policy other : Policy} {directive : Directive} {kind : ListKind} {sources : List Source}

/-- Policies agree directive by directive in all three sequences.  The header does not count. -/
structure Agrees (policy other : Policy) : Prop where
  directives : List.Forall₂ Directive.Agrees policy.directives other.directives
  otherDirectives : List.Forall₂ Directive.Agrees policy.otherDirectives other.otherDirectives
  ineffectiveDirectives :
    List.Forall₂ Directive.Agrees policy.ineffectiveDirectives other.ineffectiveDirectives

theorem forall₂_agrees_iff {directives others : List Directive} :
    List.Forall₂ Directive.Agrees directives others ↔
      directives.map Directive.plain = others.map Directive.plain := by
  rw [← forall₂_eq_iff_map_eq]
  constructor
  · exact List.Forall₂.imp fun _ _ => Directive.agrees_iff.mp
  · exact List.Forall₂.imp fun _ _ => Directive.agrees_iff.mpr

theorem agrees_iff : policy.Agrees other ↔ policy ≈ other := by
  change policy.Agrees other ↔ policy.plain = other.plain
  rw [plain, plain, Policy.mk.injEq, ← forall₂_agrees_iff, ← forall₂_agrees_iff,
    ← forall₂_agrees_iff]
  exact ⟨fun h => ⟨h.directives, h.otherDirectives, h.ineffectiveDirectives, rfl⟩,
    fun h => ⟨h.1, h.2.1, h.2.2.1⟩⟩

end Policy

/-! ### Plain sources -/

namespace Source

theorem equiv_plain_iff {source other : Source} : source.plain ≈ other.plain ↔ source ≈ other := by
  change source.plain.plain = other.plain.plain ↔ source.plain = other.plain
  rw [Body.plain_plain, Body.plain_plain]

theorem isNone_plain (source : Source) : source.plain.isNone = source.isNone := by
  cases source <;> rfl

theorem filter_isNone_plain (sources : List Source) :
    (sources.map plain).filter (!·.isNone) = (sources.filter (!·.isNone)).map plain := by
  rw [List.filter_map]
  congr 1
  exact List.filter_congr fun source _ => congrArg not (isNone_plain source)

/-- A source that is known is known in its plain form. -/
theorem any_equiv_plain (known : List Source) (source : Source) :
    (known.map plain).any (· ≈ source.plain) = known.any (· ≈ source) := by
  rw [List.any_map]
  congr 1
  funext other
  exact decide_eq_decide.mpr equiv_plain_iff

theorem map_plain_union (current incoming : List Source) :
    (union current incoming).map plain = union (current.map plain) (incoming.map plain) := by
  induction incoming generalizing current with
  | nil => rfl
  | cons source rest ih =>
    change (union (if _ then _ else _) rest).map plain = union (if _ then _ else _) (rest.map plain)
    rw [ih, any_equiv_plain]
    split
    · rfl
    · rw [List.map_append, List.map_singleton]

theorem map_plain_merge (current incoming : List Source) :
    (merge current incoming).map plain = merge (current.map plain) (incoming.map plain) := by
  rw [merge, map_plain_union, merge, List.isEmpty_map, filter_isNone_plain]
  split <;> rfl

end Source

/-! ### Plain directives -/

theorem Directive.plain_sourceList (kind : ListKind) (sources : List Source) :
    (sourceList kind sources).plain = sourceList kind (sources.map Source.plain) := by
  have htext := Body.text_plain_written "" (.sourceList kind sources)
  unfold sourceList ofBody
  rw [← Body.plain, htext]
  rfl

theorem Directive.plain_mergeSources (incoming : List Source) (directive : Directive) :
    (directive.mergeSources incoming).plain =
      directive.plain.mergeSources (incoming.map Source.plain) := by
  rcases directive with ⟨name, rawName, rawValue, body⟩
  cases body with
  | sourceList kind current =>
    have htext := Body.text_plain_written "" (.sourceList kind (Source.merge current incoming))
    rw [Body.plain, Source.map_plain_merge] at htext
    simp only [mergeSources, plain, Body.plain, Source.map_plain_merge]
    rw [htext]
    rfl
  | _ => rfl

/-! ### Plain policies -/

theorem map_updateFirst_comp {α β : Type} {f : α → α} {f' : β → β} {g : α → β}
    (condition : β → Bool) (h : ∀ a, g (f a) = f' (g a)) (list : List α) :
    (updateFirst (fun a => condition (g a)) f list).map g =
      updateFirst condition f' (list.map g) := by
  induction list with
  | nil => rfl
  | cons a rest ih =>
    rw [List.map_cons, updateFirst, updateFirst]
    split
    · rw [List.map_cons, h]
    · rw [List.map_cons, ih]

namespace Policy

variable {policy other : Policy} {directive : Directive} {kind : ListKind} {sources : List Source}

theorem effectiveDirectives_plain (policy : Policy) :
    policy.plain.effectiveDirectives = policy.effectiveDirectives.map Directive.plain :=
  (List.map_append ..).symm

theorem effectiveNames_plain (policy : Policy) :
    policy.plain.effectiveNames = policy.effectiveNames := by
  rw [effectiveNames, effectiveDirectives_plain, List.map_map]
  rfl

theorem directive?_plain (policy : Policy) (name : String) :
    policy.plain.directive? name = (policy.directive? name).map Directive.plain := by
  rw [directive?, effectiveDirectives_plain, List.find?_map]
  rfl

theorem hasList_plain (policy : Policy) (kind : ListKind) :
    policy.plain.hasList kind = policy.hasList kind := by
  rw [hasList, plain, List.any_map]
  rfl

theorem plain_append (policy : Policy) (directive : Directive) (place : Placement) :
    (policy.append directive place).plain = policy.plain.append directive.plain place := by
  cases place <;> simp only [append, plain, List.map_append, List.map_singleton]

theorem plain_push (policy : Policy) (directive : Directive) :
    (policy.push directive).plain = policy.plain.push directive.plain := by
  have happend := plain_append policy directive (directive.placement policy.effectiveNames)
  rw [push, push, effectiveNames_plain, placement_plain, ← happend]
  rfl

theorem plain_merge (policy : Policy) (kind : ListKind) (sources : List Source) :
    (policy.merge kind sources).plain = policy.plain.merge kind (sources.map Source.plain) := by
  rw [merge, merge, hasList_plain, Source.filter_isNone_plain]
  split
  · have hdirectives := map_updateFirst_comp (·.name == kind.name)
      (Directive.plain_mergeSources (sources.filter (!·.isNone))) policy.directives
    exact congrArg (fun directives => { policy.plain with directives }) hdirectives
  · simp only [plain, List.map_append, List.map_singleton, Directive.plain_sourceList]

/-! ### Equivalent policies -/

/-- Nothing that is asked of the policies or done to them tells them apart. -/
structure Interchangeable (policy other : Policy) : Prop where
  render : policy.render = other.render
  directive? : ∀ name, Option.Rel (· ≈ ·) (policy.directive? name) (other.directive? name)
  push : ∀ directive directive' : Directive, directive ≈ directive' →
    policy.push directive ≈ other.push directive'
  merge : ∀ (kind : ListKind) (sources sources' : List Source),
    List.Forall₂ (· ≈ ·) sources sources' →
      policy.merge kind sources ≈ other.merge kind sources'

theorem interchangeable_of_equiv (h : policy ≈ other) : policy.Interchangeable other := by
  have hplain : policy.plain = other.plain := h
  constructor
  · exact render_eq_of_equiv h
  · intro name
    have hfound := policy.directive?_plain name
    rw [hplain, other.directive?_plain] at hfound
    cases hother : other.directive? name <;> cases hpolicy : policy.directive? name <;>
      rw [hother, hpolicy] at hfound
    · exact .none
    · cases hfound
    · cases hfound
    · exact .some (Option.some.inj hfound).symm
  · intro directive directive' hdirective
    change (policy.push directive).plain = (other.push directive').plain
    have hsame : directive.plain = directive'.plain := hdirective
    rw [plain_push, plain_push, hplain, hsame]
  · intro kind sources sources' hsources
    change (policy.merge kind sources).plain = (other.merge kind sources').plain
    rw [plain_merge, plain_merge, hplain, forall₂_eq_iff_map_eq.mp hsources]

/-- **The text of a well-formed policy tells which directives are in force.** -/
theorem WellFormed.forall₂_of_render_eq (h : policy.WellFormed) (hother : other.WellFormed)
    (hrender : policy.render = other.render) :
    List.Forall₂ (· ≈ ·) policy.directives other.directives ∧
      List.Forall₂ (· ≈ ·) policy.otherDirectives other.otherDirectives := by
  -- Both are read from their text, under limits that are wide enough for it.
  let size := policy.render.utf8ByteSize
  let limits : Limits := ⟨size, size, size⟩
  have hadmit : limits.Admit policy.render (policy.effectiveDirectives.map Directive.plain) :=
    h.means_render.admit_of_le le_rfl le_rfl le_rfl
  have hsize : other.render.utf8ByteSize ≤ size := by rw [← hrender]
  have hadmitOther : limits.Admit other.render (other.effectiveDirectives.map Directive.plain) :=
    hother.means_render.admit_of_le hsize hsize hsize
  have hread := h.parse_render hadmit
  have hreadOther := hother.parse_render hadmitOther
  rw [← hrender, hread] at hreadOther
  have hcanonical := Except.ok.inj hreadOther
  exact ⟨forall₂_eq_iff_map_eq.mpr (congrArg Policy.directives hcanonical),
    forall₂_eq_iff_map_eq.mpr (congrArg Policy.otherDirectives hcanonical)⟩

/-- **Equivalence is a congruence, and the canonical text decides it for what was read.**  Sources,
directives and policies are equivalent if they agree in what is compared, and agreement is an
equivalence relation.  Equivalent policies are interchangeable.  Policies that were read, under any
limits, and that have the same canonical text have equivalent directives in force. -/
theorem equiv_congruence_render :
    (Equivalence Source.Agrees ∧ Equivalence Directive.Agrees ∧ Equivalence Agrees) ∧
    ((∀ source source' : Source, source ≈ source' ↔ source.Agrees source') ∧
      (∀ directive directive' : Directive, directive ≈ directive' ↔ directive.Agrees directive') ∧
      ∀ policy other : Policy, policy ≈ other ↔ policy.Agrees other) ∧
    (∀ policy other : Policy, policy ≈ other → policy.Interchangeable other) ∧
    ∀ (limits limits' : Limits) (data data' : ByteArray) (policy other : Policy),
      (parse limits data).result = .ok policy → (parse limits' data').result = .ok other →
      policy.render = other.render →
        List.Forall₂ (· ≈ ·) policy.directives other.directives ∧
          List.Forall₂ (· ≈ ·) policy.otherDirectives other.otherDirectives := by
  have hsource : Source.Agrees = (· ≈ ·) := by
    funext source other
    exact propext Source.agrees_iff
  have hdirective : Directive.Agrees = (· ≈ ·) := by
    funext directive other
    exact propext Directive.agrees_iff
  have hpolicy : Agrees = (· ≈ ·) := by
    funext policy other
    exact propext agrees_iff
  refine ⟨⟨hsource ▸ Setoid.iseqv, hdirective ▸ Setoid.iseqv, hpolicy ▸ Setoid.iseqv⟩,
    ⟨fun _ _ => Source.agrees_iff.symm, fun _ _ => Directive.agrees_iff.symm,
      fun _ _ => agrees_iff.symm⟩, fun _ _ => interchangeable_of_equiv, ?_⟩
  intro limits limits' data data' policy other h hother hrender
  exact (wellFormed_of_parse h).forall₂_of_render_eq (wellFormed_of_parse hother) hrender

/-- What is read from two spellings is not the same, and is equivalent. -/
theorem equiv_congruence_render_spacedPolicy :
    spacedPolicy ≠ spacedPolicy.canonical ∧
      (parse .unbounded "IMG-SRC  * 'SELF'".toUTF8).result = .ok spacedPolicy ∧
      (parse .unbounded "img-src * 'self'".toUTF8).result = .ok spacedPolicy.canonical ∧
      spacedPolicy.render = spacedPolicy.canonical.render ∧
      List.Forall₂ (· ≈ ·) spacedPolicy.directives spacedPolicy.canonical.directives ∧
        List.Forall₂ (· ≈ ·) spacedPolicy.otherDirectives spacedPolicy.canonical.otherDirectives :=
  have hread : (parse .unbounded "img-src * 'self'".toUTF8).result = .ok spacedPolicy.canonical :=
    eq_ok_of_toOption (by decide +kernel)
  have hrender : spacedPolicy.render = spacedPolicy.canonical.render :=
    (render_canonical spacedPolicy).symm
  ⟨by decide, parse_spacedPolicy, hread, hrender,
    equiv_congruence_render.2.2.2 _ _ _ _ _ _ parse_spacedPolicy hread hrender⟩

end Policy

end ContentSecurity

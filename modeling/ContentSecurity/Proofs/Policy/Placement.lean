import ContentSecurity.Policy
import Mathlib.Data.List.Find
import Mathlib.Data.List.Nodup
import Mathlib.Data.List.Perm.Basic
/-!
# The places of directives

In a policy made of a list of directives the first directive of each name is in force (`firsts`):
the recognized ones in their order, and then the others in theirs.  If no name repeats, everything
is in force.  Every name that was there is a name in force (`mem_effectiveNames_ofDirectives`), so
it makes no difference whether a repeated name is sought among all the names before or among those
in force, and adding directives one by one places them alike (`foldl_push`).
-/

namespace ContentSecurity.Policy

variable {seen : List String} {directives : List Directive} {directive : Directive}

/-- The first directive of each name, apart from the names `seen`. -/
def firsts (seen : List String) : List Directive → List Directive
  | [] => []
  | directive :: rest =>
    if directive.name ∈ seen then firsts (directive.name :: seen) rest
    else directive :: firsts (directive.name :: seen) rest

theorem firsts_sublist (seen : List String) (directives : List Directive) :
    (firsts seen directives).Sublist directives := by
  induction directives generalizing seen with
  | nil => exact List.Sublist.refl []
  | cons directive rest ih =>
    rw [firsts]
    split
    · exact (ih _).cons directive
    · exact (ih _).cons_cons directive

theorem not_mem_of_mem_firsts (h : directive ∈ firsts seen directives) : directive.name ∉ seen := by
  induction directives generalizing seen with
  | nil => cases h
  | cons first rest ih =>
    have hrest : directive ∈ firsts (first.name :: seen) rest → directive.name ∉ seen := by
      intro hmem hseen
      exact ih hmem (List.mem_cons_of_mem _ hseen)
    rw [firsts] at h
    by_cases hfirst : first.name ∈ seen
    · rw [if_pos hfirst] at h
      exact hrest h
    · rw [if_neg hfirst] at h
      rcases List.mem_cons.mp h with rfl | hmem
      · exact hfirst
      · exact hrest hmem

theorem nodup_firsts (seen : List String) (directives : List Directive) :
    ((firsts seen directives).map Directive.name).Nodup := by
  induction directives generalizing seen with
  | nil => exact List.nodup_nil
  | cons directive rest ih =>
    rw [firsts]
    split
    · exact ih _
    · rw [List.map_cons, List.nodup_cons]
      refine ⟨?_, ih _⟩
      intro hmem
      obtain ⟨other, hother, hname⟩ := List.mem_map.mp hmem
      exact not_mem_of_mem_firsts hother (hname ▸ List.mem_cons_self)

/-- The names that the first directives have are all the names there are. -/
theorem mem_names_firsts {name : String} :
    name ∈ (firsts seen directives).map Directive.name ↔
      name ∉ seen ∧ name ∈ directives.map Directive.name := by
  induction directives generalizing seen with
  | nil => simp [firsts]
  | cons first rest ih =>
    rw [firsts]
    by_cases hfirst : first.name ∈ seen
    · rw [if_pos hfirst, ih]
      by_cases hname : name = first.name
      · simp [hname, hfirst]
      · simp [hname]
    · rw [if_neg hfirst, List.map_cons, List.mem_cons, ih]
      by_cases hname : name = first.name
      · simp [hname, hfirst]
      · simp [hname]

theorem find?_firsts {name : String} (hname : name ∉ seen) :
    (firsts seen directives).find? (·.name == name) = directives.find? (·.name == name) := by
  induction directives generalizing seen with
  | nil => rfl
  | cons first rest ih =>
    rw [firsts, List.find?_cons]
    by_cases hsame : first.name = name
    · rw [if_neg (hsame ▸ hname), List.find?_cons]
      simp [hsame]
    · have hnext : name ∉ first.name :: seen := by
        intro hmem
        rcases List.mem_cons.mp hmem with heq | hseen
        · exact hsame heq.symm
        · exact hname hseen
      have hskip : (first.name == name) = false := by simpa using hsame
      by_cases hfirst : first.name ∈ seen
      · rw [if_pos hfirst, ih hnext, hskip]
      · rw [if_neg hfirst, List.find?_cons, hskip, ih hnext]

theorem firsts_ne_nil (hne : directives ≠ []) : firsts [] directives ≠ [] := by
  obtain ⟨directive, rest, rfl⟩ := List.exists_cons_of_ne_nil hne
  simp [firsts]

/-! ### The three sequences -/

/-- The sequence of a policy that holds the directives of a place. -/
def sequence (policy : Policy) : Placement → List Directive
  | .recognized => policy.directives
  | .unrecognized => policy.otherDirectives
  | .ineffective => policy.ineffectiveDirectives

theorem sequence_prepend (policy : Policy) (directive : Directive) (place other : Placement) :
    (policy.prepend directive place).sequence other =
      if place = other then directive :: policy.sequence other else policy.sequence other := by
  cases place <;> cases other <;> rfl

theorem sequence_append (policy : Policy) (directive : Directive) (place other : Placement) :
    (policy.append directive place).sequence other =
      policy.sequence other ++ if place = other then [directive] else [] := by
  cases place <;> cases other <;> simp [append, sequence]

/-- A policy keeps its sequences when it loses its header. -/
theorem sequence_raw (policy : Policy) (raw : Option String) (place : Placement) :
    { policy with raw }.sequence place = policy.sequence place := by
  cases place <;> rfl

/-! ### Placing -/

theorem placement_eq_ineffective_iff :
    directive.placement seen = .ineffective ↔ directive.name ∈ seen := by
  unfold Directive.placement
  by_cases hname : directive.name ∈ seen
  · simp [hname]
  · cases hother : directive.isOther with
    | true => simp [hname]
    | false => simp [hname]

/-- Only whether the name was there before makes a difference to the place. -/
theorem placement_congr {others : List String}
    (h : directive.name ∈ seen ↔ directive.name ∈ others) :
    directive.placement seen = directive.placement others := by
  unfold Directive.placement
  simp only [h]

theorem placement_of_not_mem (h : directive.name ∉ seen) :
    directive.placement seen = if directive.isOther then .unrecognized else .recognized := by
  rw [Directive.placement, if_neg h]

theorem isOther_of_placement_recognized (h : directive.placement seen = .recognized) :
    directive.isOther = false := by
  by_cases hname : directive.name ∈ seen
  · rw [placement_eq_ineffective_iff.mpr hname] at h
    cases h
  · rw [placement_of_not_mem hname] at h
    simpa using h

theorem isOther_of_placement_unrecognized (h : directive.placement seen = .unrecognized) :
    directive.isOther = true := by
  by_cases hname : directive.name ∈ seen
  · rw [placement_eq_ineffective_iff.mpr hname] at h
    cases h
  · rw [placement_of_not_mem hname] at h
    simpa using h

/-- Placing makes no directives. -/
theorem mem_of_mem_place {here : Placement}
    (h : directive ∈ (place seen directives).sequence here) : directive ∈ directives := by
  induction directives generalizing seen with
  | nil => cases here <;> cases h
  | cons first rest ih =>
    rw [place, sequence_prepend] at h
    by_cases hplace : first.placement seen = here
    · rw [if_pos hplace] at h
      rcases List.mem_cons.mp h with rfl | hmem
      · exact List.mem_cons_self
      · exact List.mem_cons_of_mem _ (ih hmem)
    · rw [if_neg hplace] at h
      exact List.mem_cons_of_mem _ (ih h)

/-- The recognized directives in force, and the others, are those among the first of their names. -/
theorem place_eq_firsts (seen : List String) (directives : List Directive) :
    (place seen directives).directives = (firsts seen directives).filter (!·.isOther) ∧
      (place seen directives).otherDirectives = (firsts seen directives).filter (·.isOther) := by
  induction directives generalizing seen with
  | nil => exact ⟨rfl, rfl⟩
  | cons directive rest ih =>
    obtain ⟨hdirectives, hothers⟩ := ih (directive.name :: seen)
    unfold place firsts Directive.placement
    by_cases hname : directive.name ∈ seen
    · rw [if_pos hname, if_pos hname]
      exact ⟨hdirectives, hothers⟩
    · rw [if_neg hname, if_neg hname]
      cases hother : directive.isOther with
      | true => simp [prepend, hother, hdirectives, hothers]
      | false => simp [prepend, hother, hdirectives, hothers]

theorem effectiveDirectives_perm (directives : List Directive) :
    (ofDirectives directives).effectiveDirectives.Perm (firsts [] directives) := by
  obtain ⟨hdirectives, hothers⟩ := place_eq_firsts [] directives
  rw [effectiveDirectives, ofDirectives, hdirectives, hothers]
  have hsplit := List.filter_append_perm (fun directive : Directive => !directive.isOther)
    (firsts [] directives)
  simpa using hsplit

theorem nodup_effectiveNames_ofDirectives (directives : List Directive) :
    (ofDirectives directives).effectiveNames.Nodup := by
  have hperm := (effectiveDirectives_perm directives).map Directive.name
  exact hperm.nodup_iff.mpr (nodup_firsts [] directives)

/-- **Every name that was there is in force.** -/
theorem mem_effectiveNames_ofDirectives {name : String} :
    name ∈ (ofDirectives directives).effectiveNames ↔ name ∈ directives.map Directive.name := by
  have hperm := (effectiveDirectives_perm directives).map Directive.name
  rw [effectiveNames, hperm.mem_iff, mem_names_firsts]
  simp

/-- **Every name without effect is in force.** -/
theorem covered_ofDirectives (directives : List Directive) :
    ∀ directive ∈ (ofDirectives directives).ineffectiveDirectives,
      directive.name ∈ (ofDirectives directives).effectiveNames := by
  intro directive hmem
  have hsequence : directive ∈ (place [] directives).sequence .ineffective := hmem
  rw [mem_effectiveNames_ofDirectives]
  exact List.mem_map_of_mem (mem_of_mem_place hsequence)

/-- **Looking a name up gives the first directive of that name**, although the unrecognized
directives are put behind the recognized ones. -/
theorem find?_effectiveDirectives (directives : List Directive) (name : String) :
    (ofDirectives directives).effectiveDirectives.find? (·.name == name) =
      directives.find? (·.name == name) := by
  have hsingle : {directive ∈ (ofDirectives directives).effectiveDirectives |
      (directive.name == name) = true}.Subsingleton := by
    intro left hleft right hright
    have hnames : left.name = right.name :=
      (beq_iff_eq.mp hleft.2).trans (beq_iff_eq.mp hright.2).symm
    exact List.inj_on_of_nodup_map (nodup_effectiveNames_ofDirectives directives) hleft.1 hright.1
      hnames
  rw [List.find?_eq_find?_of_perm (effectiveDirectives_perm directives) hsingle]
  exact find?_firsts List.not_mem_nil

theorem length_effectiveDirectives_le (directives : List Directive) :
    (ofDirectives directives).effectiveDirectives.length ≤ directives.length := by
  rw [(effectiveDirectives_perm directives).length_eq]
  exact (firsts_sublist [] directives).length_le

/-! ### Adding directives one by one -/

theorem append_prepend (policy : Policy) (first last : Directive) (place other : Placement) :
    (policy.append last other).prepend first place =
      (policy.prepend first place).append last other := by
  cases place <;> cases other <;> simp [append, prepend]

theorem raw_prepend (policy : Policy) (directive : Directive) (place : Placement) :
    (policy.prepend directive place).raw = policy.raw := by
  cases place <;> rfl

/-- The last of some directives is put behind its sequence, with all names in front of it seen. -/
theorem place_concat (seen : List String) (directives : List Directive) (directive : Directive) :
    place seen (directives ++ [directive]) = (place seen directives).append directive
      (directive.placement ((directives.map Directive.name).reverse ++ seen)) := by
  induction directives generalizing seen with
  | nil =>
    change (place _ []).prepend directive (directive.placement seen) = _
    cases hplace : directive.placement seen <;> simp [place, append, prepend, hplace]
  | cons first rest ih =>
    rw [List.cons_append, place, ih, append_prepend, place, List.map_cons, List.reverse_cons,
      List.append_assoc, List.singleton_append]

theorem raw_place (seen : List String) (directives : List Directive) :
    (place seen directives).raw = none := by
  induction directives generalizing seen with
  | nil => rfl
  | cons directive rest ih => rw [place, raw_prepend, ih]

/-- **Adding a directive to some that have been placed** is placing them all: the names in force are
all the names that were there. -/
theorem push_ofDirectives (directives : List Directive) (directive : Directive) :
    (ofDirectives directives).push directive = ofDirectives (directives ++ [directive]) := by
  have hseen : directive.name ∈ (ofDirectives directives).effectiveNames ↔
      directive.name ∈ (directives.map Directive.name).reverse ++ [] := by
    rw [mem_effectiveNames_ofDirectives, List.append_nil, List.mem_reverse]
  have happend : ofDirectives (directives ++ [directive]) =
      (ofDirectives directives).append directive
        (directive.placement (ofDirectives directives).effectiveNames) := by
    rw [placement_congr hseen]
    exact place_concat [] directives directive
  have hraw : (ofDirectives (directives ++ [directive])).raw = none := raw_place [] _
  rw [happend] at hraw
  rw [push, happend, ← hraw]

theorem foldl_push (front back : List Directive) :
    back.foldl push (ofDirectives front) = ofDirectives (front ++ back) := by
  induction back generalizing front with
  | nil => rw [List.foldl_nil, List.append_nil]
  | cons directive back ih =>
    rw [List.foldl_cons, push_ofDirectives, ih, List.append_assoc, List.singleton_append]

/-! ### Without repetition -/

theorem place_of_nodup (hnodup : (directives.map Directive.name).Nodup)
    (hseen : ∀ directive ∈ directives, directive.name ∉ seen) :
    place seen directives =
      { directives := directives.filter (!·.isOther)
        otherDirectives := directives.filter (·.isOther) } := by
  induction directives generalizing seen with
  | nil => rfl
  | cons directive rest ih =>
    rw [List.map_cons, List.nodup_cons] at hnodup
    rcases hnodup with ⟨hfresh, hrest⟩
    obtain ⟨hname, hnames⟩ := List.forall_mem_cons.mp hseen
    have hunseen : ∀ other ∈ rest, other.name ∉ directive.name :: seen := by
      intro other hother hmem
      rcases List.mem_cons.mp hmem with hsame | hmem
      · exact hfresh (hsame ▸ List.mem_map_of_mem hother)
      · exact hnames other hother hmem
    rw [place, ih hrest hunseen, Directive.placement, if_neg hname]
    cases hother : directive.isOther with
    | true => simp [prepend, hother]
    | false => simp [prepend, hother]

theorem filter_isOther {recognized others : List Directive}
    (hrecognized : ∀ directive ∈ recognized, directive.isOther = false)
    (hothers : ∀ directive ∈ others, directive.isOther = true) :
    (recognized ++ others).filter (!·.isOther) = recognized ∧
      (recognized ++ others).filter (·.isOther) = others := by
  constructor
  · rw [List.filter_append, List.filter_eq_self.mpr, List.filter_eq_nil_iff.mpr, List.append_nil]
    · intro directive hmem
      simp [hothers directive hmem]
    · intro directive hmem
      simp [hrecognized directive hmem]
  · rw [List.filter_append, List.filter_eq_nil_iff.mpr, List.filter_eq_self.mpr, List.nil_append]
    · exact hothers
    · intro directive hmem
      simp [hrecognized directive hmem]

end ContentSecurity.Policy

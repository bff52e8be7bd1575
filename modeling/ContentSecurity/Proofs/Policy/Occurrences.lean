import ContentSecurity.Proofs.Policy.RoundTrip
import Mathlib.Data.List.FinRange
/-!
# The occurrences of directives in a header

Every directive of a header that was read stands in just one of the three sequences of the policy,
in the order of the header: which one depends on its own name and on the names in front of it
(`IsDue`).  The names in front are gathered while the header is read, so the proof follows the list
with the names `seen` so far, and counts positions from there (`sequence_place`).  Looking up a name
finds its first occurrence, although the sequences have been taken apart.
-/

namespace ContentSecurity.Policy

open Grammar Directive

variable {limits : Limits} {header : String} {policy : Policy} {directives : List Directive}

/-! ### Positions -/

/-- The members of a list at the positions of one place, in order. -/
def membersAt (directives : List Directive) (place : Fin directives.length → Placement)
    (here : Placement) : List Directive :=
  ((List.finRange directives.length).filter (place · = here)).map directives.get

/-- An earlier directive of the list has the same name, in any letter case. -/
def RepeatsName (directives : List Directive) (i : Fin directives.length) : Prop :=
  ∃ j < i, (directives.get j).rawName.toLower = (directives.get i).rawName.toLower

/-- The name in small letters is one whose values are understood. -/
def IsKnown (directive : Directive) : Prop :=
  ∃ kind : Kind, kind.name = directive.rawName.toLower

/-- The place that is due to a position: a repeated name has no effect, and otherwise it matters
whether the name is known. -/
def IsDue (directives : List Directive) (i : Fin directives.length) : Placement → Prop
  | .recognized => ¬ RepeatsName directives i ∧ IsKnown (directives.get i)
  | .unrecognized => ¬ RepeatsName directives i ∧ ¬ IsKnown (directives.get i)
  | .ineffective => RepeatsName directives i

/-- The place of each position of a list that follows directives with the names `seen`. -/
def placeAt (seen : List String) (directives : List Directive) (i : Fin directives.length) :
    Placement :=
  (directives.get i).placement (((directives.take i).map Directive.name).reverse ++ seen)

theorem membersAt_cons (directive : Directive) (rest : List Directive)
    (place : Fin (directive :: rest).length → Placement) (here : Placement) :
    membersAt (directive :: rest) place here =
      if place 0 = here then directive :: membersAt rest (fun i => place i.succ) here
      else membersAt rest (fun i => place i.succ) here := by
  have hrest : ((List.finRange rest.length).map Fin.succ).filter (place · = here) =
      ((List.finRange rest.length).filter fun i => place i.succ = here).map Fin.succ := by
    rw [List.filter_map]
    rfl
  have hall : List.finRange (directive :: rest).length =
      0 :: (List.finRange rest.length).map Fin.succ := List.finRange_succ
  unfold membersAt
  rw [hall, List.filter_cons, hrest]
  by_cases hplace : place 0 = here
  · simp [hplace, Function.comp_def]
  · simp [hplace, Function.comp_def]

theorem placeAt_succ (seen : List String) (directive : Directive) (rest : List Directive)
    (i : Fin rest.length) :
    placeAt seen (directive :: rest) i.succ = placeAt (directive.name :: seen) rest i := by
  simp [placeAt]

/-- **Every directive stands in the sequence of its place**, in the order of the list. -/
theorem sequence_place (seen : List String) (directives : List Directive) (here : Placement) :
    (place seen directives).sequence here =
      membersAt directives (placeAt seen directives) here := by
  induction directives generalizing seen with
  | nil => cases here <;> rfl
  | cons directive rest ih =>
    -- behind the first position the names are counted on from one more that was seen
    have hrest : (fun i => placeAt seen (directive :: rest) (Fin.succ i)) =
        placeAt (directive.name :: seen) rest := funext (placeAt_succ seen directive rest)
    have hfirst : placeAt seen (directive :: rest) 0 = directive.placement seen := rfl
    rw [place, sequence_prepend, membersAt_cons, hrest, hfirst, ih]

/-- A name is among those in front of a position if it is the name at an earlier one. -/
theorem mem_names_take {i : Fin directives.length} {name : String} :
    name ∈ ((directives.take i).map Directive.name).reverse ++ [] ↔
      ∃ j < i, (directives.get j).name = name := by
  rw [List.append_nil, List.mem_reverse, List.mem_map]
  constructor
  · intro h
    rcases h with ⟨directive, hmem, hname⟩
    obtain ⟨n, hn, hget⟩ := List.mem_take_iff_getElem.mp hmem
    have hlt : n < i := by omega
    refine ⟨⟨n, by omega⟩, hlt, ?_⟩
    rw [← hname, ← hget]
    rfl
  · intro h
    rcases h with ⟨j, hj, hname⟩
    exact ⟨directives.get j, List.mem_take_iff_getElem.mpr ⟨j, by omega, rfl⟩, hname⟩

/-! ### What a node says -/

/-- A directive is what a node of the header says: it is read from there, with the name and the
value as they are written, and its name is put in small letters. -/
structure Occurs (limits : Limits) (header : String) (node : Tree) (directive : Directive) :
    Prop where
  read : (ofTree limits header node).result = .ok directive
  rawName : node.part? header .directiveName = some directive.rawName
  rawValue : (node.part? header .directiveValue).getD "" = directive.rawValue
  name : directive.name = directive.rawName.toLower

theorem readFrom_of_ofTree {node : Tree} {directive : Directive}
    (h : (ofTree limits header node).result = .ok directive) :
    ∃ rawName, node.part? header .directiveName = some rawName ∧
      directive.ReadFrom rawName ((node.part? header .directiveValue).getD "") := by
  unfold ofTree at h
  rcases hname : node.part? header .directiveName with _ | rawName
  · rw [hname] at h
    cases h
  · rw [hname] at h
    exact ⟨rawName, rfl, (ofText_eq_ok_iff.mp h).1⟩

theorem occurs_of_ofTree {node : Tree} {directive : Directive}
    (h : (ofTree limits header node).result = .ok directive) :
    Occurs limits header node directive := by
  obtain ⟨rawName, hname, hread⟩ := readFrom_of_ofTree h
  constructor
  · exact h
  · rw [hname, hread.rawName_eq]
  · exact hread.rawValue_eq.symm
  · rw [hread.name_eq, hread.rawName_eq]

/-- The value of a directive is understood if and only if its name is known. -/
theorem Occurs.isOther_eq_false_iff {node : Tree} {directive : Directive}
    (h : Occurs limits header node directive) : directive.isOther = false ↔ IsKnown directive := by
  obtain ⟨rawName, -, hread⟩ := readFrom_of_ofTree h.read
  rw [Directive.isOther, ← Bool.not_eq_true, Body.isOther_iff, ← hread.kind_eq, ← ne_eq,
    Option.ne_none_iff_exists', h.name]
  exact exists_congr fun kind => Kind.ofName?_eq_some_iff.trans eq_comm

/-! ### Sorting -/

/-- A policy holds each of some directives just once, in the place that is due to it and in their
order.  No name in force repeats, and each name without effect is in force somewhere; what is looked
up is the first directive of a name. -/
structure Sorts (directives : List Directive) (policy : Policy) : Prop where
  sequences : ∃ place : Fin directives.length → Placement,
    (∀ here, policy.sequence here = membersAt directives place here) ∧
      ∀ i here, place i = here ↔ IsDue directives i here
  nonempty : policy.isEmpty = false
  nodup : policy.effectiveNames.Nodup
  covered : ∀ directive ∈ policy.ineffectiveDirectives, directive.name ∈ policy.effectiveNames
  lookup : ∀ name, policy.directive? name =
    directives.find? fun directive => directive.rawName.toLower == name.toLower

/-- **The place that reading finds is the one that is due**: it sees the names in front. -/
theorem placeAt_eq_iff
    (hname : ∀ directive ∈ directives, directive.name = directive.rawName.toLower)
    (hknown : ∀ directive ∈ directives, directive.isOther = false ↔ IsKnown directive)
    (i : Fin directives.length) (here : Placement) :
    placeAt [] directives i = here ↔ IsDue directives i here := by
  have hget : ∀ j, (directives.get j).name = (directives.get j).rawName.toLower := by
    intro j
    exact hname _ (directives.get_mem j)
  have hseen : (directives.get i).name ∈ ((directives.take i).map Directive.name).reverse ++ [] ↔
      RepeatsName directives i := by
    rw [mem_names_take]
    simp only [hget, RepeatsName]
  by_cases hrepeats : RepeatsName directives i
  · rw [placeAt, placement_eq_ineffective_iff.mpr (hseen.mpr hrepeats)]
    cases here with
    | recognized => simp [IsDue, hrepeats]
    | unrecognized => simp [IsDue, hrepeats]
    | ineffective => simp [IsDue, hrepeats]
  · have hplace := placement_of_not_mem (hseen.not.mpr hrepeats)
    have hother := hknown _ (directives.get_mem i)
    rw [placeAt, hplace]
    by_cases hkind : IsKnown (directives.get i)
    · rw [hother.mpr hkind]
      cases here <;> simp [-List.get_eq_getElem, IsDue, hrepeats, hkind]
    · rw [Bool.eq_true_of_not_eq_false (hother.not.mpr hkind)]
      cases here <;> simp [-List.get_eq_getElem, IsDue, hrepeats, hkind]

theorem directive?_ofDirectives
    (h : ∀ directive ∈ directives, directive.name = directive.rawName.toLower) (name : String) :
    (ofDirectives directives).directive? name =
      directives.find? fun directive => directive.rawName.toLower == name.toLower := by
  rw [directive?, find?_effectiveDirectives]
  apply List.find?_congr
  intro directive hmem
  rw [h directive hmem]

/-- **Each directive of a header has one place, and the first of its name is in force.**  The
directives are those that the nodes of the header say, whatever limits it was read under. -/
theorem parse_sorts_occurrences (limits : Limits) (data : ByteArray) (policy : Policy)
    (h : (parse limits data).result = .ok policy) :
    ∃ header tree directives, data = header.toUTF8 ∧ Rule.serializedPolicy.tree header = .ok tree ∧
      List.Forall₂ (Occurs limits header) (tree.search [.serializedDirective] 2) directives ∧
      Sorts directives policy := by
  obtain ⟨header, directives, hcontents, hpolicy⟩ := exists_contents_of_parse h
  obtain ⟨tree, hdata, -, htree, -, hread⟩ := contents_eq_ok_iff.mp hcontents
  have hoccurs := (mapM_eq_ok_iff.mp hread).imp fun node directive => occurs_of_ofTree
  have hname : ∀ directive ∈ directives, directive.name = directive.rawName.toLower := by
    intro directive hmem
    obtain ⟨node, -, hnode⟩ := exists_of_forall₂ hoccurs hmem
    exact hnode.name
  have hknown : ∀ directive ∈ directives, directive.isOther = false ↔ IsKnown directive := by
    intro directive hmem
    obtain ⟨node, -, hnode⟩ := exists_of_forall₂ hoccurs hmem
    exact hnode.isOther_eq_false_iff
  have hnonempty : policy.isEmpty = false :=
    isEmpty_eq_false_iff.mpr (wellFormed_of_parse h).nonempty
  refine ⟨header, tree, directives, hdata, htree, hoccurs, ?_⟩
  subst hpolicy
  exact {
    sequences := ⟨placeAt [] directives, sequence_place [] directives, placeAt_eq_iff hname hknown⟩
    nonempty := hnonempty
    nodup := nodup_effectiveNames_ofDirectives directives
    covered := covered_ofDirectives directives
    lookup := directive?_ofDirectives hname }

/-- The directives of a header where names of both sorts repeat. -/
def repeatedDirectives : List Directive :=
  [⟨"img-src", "IMG-SRC", "*", .sourceList .imgSrc [.written "*" (.host { name := "*" })]⟩,
    ⟨"x-a", "x-a", "1", .other⟩, ⟨"img-src", "img-src", "", .sourceList .imgSrc []⟩,
    ⟨"x-a", "X-A", "", .other⟩]

theorem contents_repeatedDirectives :
    contents .unbounded "IMG-SRC *;x-a 1;img-src;X-A".toUTF8 =
      .ok ("IMG-SRC *;x-a 1;img-src;X-A", repeatedDirectives) :=
  eq_ok_of_toOption (by decide +kernel)

/-- The policy that is read from this header. -/
def repeatingPolicy : Policy where
  directives :=
    [⟨"img-src", "IMG-SRC", "*", .sourceList .imgSrc [.written "*" (.host { name := "*" })]⟩]
  otherDirectives := [⟨"x-a", "x-a", "1", .other⟩]
  ineffectiveDirectives :=
    [⟨"img-src", "img-src", "", .sourceList .imgSrc []⟩, ⟨"x-a", "X-A", "", .other⟩]
  raw := some "IMG-SRC *;x-a 1;img-src;X-A"

theorem parse_repeatingPolicy :
    (parse .unbounded "IMG-SRC *;x-a 1;img-src;X-A".toUTF8).result = .ok repeatingPolicy := by
  have hplaces :
      { ofDirectives repeatedDirectives with raw := some "IMG-SRC *;x-a 1;img-src;X-A" } =
        repeatingPolicy := by decide
  rw [← hplaces]
  exact result_parse_of_contents contents_repeatedDirectives

theorem repeatingPolicy_sorts_occurrences :
    (parse .unbounded "IMG-SRC *;x-a 1;img-src;X-A".toUTF8).result = .ok repeatingPolicy ∧
      ∃ header tree directives, "IMG-SRC *;x-a 1;img-src;X-A".toUTF8 = header.toUTF8 ∧
        Rule.serializedPolicy.tree header = .ok tree ∧
        List.Forall₂ (Occurs .unbounded header) (tree.search [.serializedDirective] 2) directives ∧
        Sorts directives repeatingPolicy :=
  ⟨parse_repeatingPolicy,
    parse_sorts_occurrences .unbounded _ repeatingPolicy parse_repeatingPolicy⟩

end ContentSecurity.Policy

import ContentSecurity.Proofs.Policy.Equivalence
import ContentSecurity.Proofs.Policy.Naming
/-!
# Merging sources

Merging into a list is an ordered union: what the list holds stays where it is, and behind it come
the sources that mean something new, each where it comes first (`Source.union_eq_append_novel`).
The loop looks for a source in the list as it has grown so far; so an induction over the incoming
sources has to leave the list open, and a source that has just been added is known to the rest.  A
policy changes in the first directive of the kind's name and nowhere else (`updateFirst_append`),
merging the same sources again changes nothing (`Policy.merge_merge`), and no other name is looked
up differently (`Policy.directive?_merge_of_ne`).
-/

namespace ContentSecurity

open Text Grammar Directive

namespace Source

variable {current incoming : List Source} {source other : Source}

/-! ### Ordered union -/

/-- The sources that mean something new beside `current`, each where it comes first. -/
def novel (current incoming : List Source) : List Source :=
  (incoming.filter fun source => ∀ known ∈ current, ¬ known ≈ source).eraseDupsBy (· ≈ ·)

theorem any_equiv_iff : current.any (· ≈ source) = true ↔ ∃ known ∈ current, known ≈ source := by
  simp

theorem union_cons_of_known (h : ∃ known ∈ current, known ≈ source) (rest : List Source) :
    union current (source :: rest) = union current rest := by
  rw [union, List.foldl_cons, if_pos (any_equiv_iff.mpr h), union]

theorem union_cons_of_new (h : ¬ ∃ known ∈ current, known ≈ source) (rest : List Source) :
    union current (source :: rest) = union (current ++ [source]) rest := by
  rw [union, List.foldl_cons, if_neg (mt any_equiv_iff.mp h), union]

theorem novel_cons_of_known (h : ∃ known ∈ current, known ≈ source) (rest : List Source) :
    novel current (source :: rest) = novel current rest := by
  have hknown : ¬ ∀ known ∈ current, ¬ known ≈ source := by
    simpa using h
  rw [novel, List.filter_cons_of_neg (by simpa using hknown), novel]

/-- Behind a new source, those that mean the same are no longer new. -/
theorem novel_cons_of_new (h : ¬ ∃ known ∈ current, known ≈ source) (rest : List Source) :
    novel current (source :: rest) = source :: novel (current ++ [source]) rest := by
  have hnew : ∀ known ∈ current, ¬ known ≈ source := by
    simpa using h
  have hboth : ∀ other, (¬ other ≈ source ∧ ∀ known ∈ current, ¬ known ≈ other) ↔
      ∀ known ∈ current ++ [source], ¬ known ≈ other := by
    intro other
    have hsymm : other ≈ source ↔ source ≈ other := ⟨Setoid.symm, Setoid.symm⟩
    rw [hsymm, List.forall_mem_append, List.forall_mem_singleton, and_comm]
  rw [novel, List.filter_cons_of_pos (by simpa using hnew), List.eraseDupsBy_cons,
    List.filter_filter, novel]
  congr 2
  apply List.filter_congr
  intro other _
  rw [Bool.eq_iff_iff, Bool.and_eq_true]
  simp only [decide_eq_true_iff, decide_eq_false_iff_not]
  exact hboth other

/-- **A union is the list itself and behind it what is new.** -/
theorem union_eq_append_novel (current incoming : List Source) :
    union current incoming = current ++ novel current incoming := by
  induction incoming generalizing current with
  | nil => exact (List.append_nil current).symm
  | cons source rest ih =>
    by_cases hknown : ∃ known ∈ current, known ≈ source
    · rw [union_cons_of_known hknown, ih, novel_cons_of_known hknown]
    · rw [union_cons_of_new hknown, ih, novel_cons_of_new hknown, List.append_assoc,
        List.singleton_append]

/-- Every incoming source is known to the union. -/
theorem exists_equiv_mem_union (h : source ∈ incoming) :
    ∃ known ∈ union current incoming, known ≈ source := by
  induction incoming generalizing current with
  | nil => cases h
  | cons first rest ih =>
    by_cases hknown : ∃ known ∈ current, known ≈ first
    · rw [union_cons_of_known hknown]
      rcases List.mem_cons.mp h with hfirst | hrest
      · obtain ⟨known, hmem, hequiv⟩ := hknown
        rw [union_eq_append_novel, hfirst]
        exact ⟨known, List.mem_append_left _ hmem, hequiv⟩
      · exact ih hrest
    · rw [union_cons_of_new hknown]
      rcases List.mem_cons.mp h with hfirst | hrest
      · rw [union_eq_append_novel, hfirst]
        exact ⟨first, by simp, Setoid.refl first⟩
      · exact ih hrest

/-- A list is not changed by sources that it knows. -/
theorem union_eq_self (h : ∀ source ∈ incoming, ∃ known ∈ current, known ≈ source) :
    union current incoming = current := by
  induction incoming with
  | nil => rfl
  | cons source rest ih =>
    obtain ⟨hfirst, hrest⟩ := List.forall_mem_cons.mp h
    rw [union_cons_of_known hfirst, ih hrest]

/-! ### Merging into a list -/

theorem isNone_eq_of_equiv (h : source ≈ other) : source.isNone = other.isNone := by
  have hplain : source.plain = other.plain := h
  rw [← isNone_plain source, hplain, isNone_plain]

/-- Beside sources other than `'none'` it does not matter whether `'none'` is in the list. -/
theorem novel_filter (hincoming : ∀ source ∈ incoming, source.isNone = false) :
    novel (current.filter (!·.isNone)) incoming = novel current incoming := by
  have hsame : ∀ source ∈ incoming,
      (∀ known ∈ current.filter (!·.isNone), ¬ known ≈ source) ↔
        ∀ known ∈ current, ¬ known ≈ source := by
    intro source hsource
    constructor
    · intro hnew known hmem hequiv
      have hnone : known.isNone = false :=
        (isNone_eq_of_equiv hequiv).trans (hincoming source hsource)
      exact hnew known (List.mem_filter.mpr ⟨hmem, by rw [hnone]; rfl⟩) hequiv
    · intro hnew known hmem
      exact hnew known (List.mem_of_mem_filter hmem)
  unfold novel
  congr 1
  apply List.filter_congr
  intro source hsource
  exact decide_eq_decide.mpr (hsame source hsource)

/-- Merging leaves `'none'` out of what comes in, and of what it comes to. -/
theorem isNone_of_mem_filter (sources : List Source) :
    ∀ source ∈ sources.filter (!·.isNone), source.isNone = false := by
  intro source hmem
  simpa using (List.mem_filter.mp hmem).2

theorem merge_nil (current : List Source) : merge current [] = current := rfl

theorem merge_of_ne_nil (h : incoming ≠ []) :
    merge current incoming = union (current.filter (!·.isNone)) incoming := by
  rw [merge, if_neg (by simpa using h)]

/-- **Merging is an ordered union**, except that anything displaces `'none'`. -/
theorem merge_eq (hincoming : ∀ source ∈ incoming, source.isNone = false) :
    merge current incoming =
      if incoming = [] then current
      else current.filter (!·.isNone) ++ novel current incoming := by
  by_cases hnil : incoming = []
  · rw [hnil, if_pos rfl, merge_nil]
  · rw [if_neg hnil, merge_of_ne_nil hnil, union_eq_append_novel, novel_filter hincoming]

theorem merge_eq_union (hcurrent : ∀ source ∈ current, source.isNone = false) :
    merge current incoming = union current incoming := by
  have hkept : current.filter (!·.isNone) = current := by
    apply List.filter_eq_self.mpr
    intro source hmem
    rw [hcurrent source hmem]
    rfl
  by_cases hnil : incoming = []
  · rw [hnil, merge_nil, union, List.foldl_nil]
  · rw [merge_of_ne_nil hnil, hkept]

/-- A list without `'none'` is not changed by sources that it knows. -/
theorem merge_eq_self (hcurrent : ∀ source ∈ current, source.isNone = false)
    (h : ∀ source ∈ incoming, ∃ known ∈ current, known ≈ source) :
    merge current incoming = current := by
  rw [merge_eq_union hcurrent, union_eq_self h]

theorem isNone_eq_false_of_mem_merge (hnil : incoming ≠ [])
    (hincoming : ∀ source ∈ incoming, source.isNone = false) (h : source ∈ merge current incoming) :
    source.isNone = false := by
  rw [merge_of_ne_nil hnil] at h
  rcases mem_union h with hkept | hnew
  · exact isNone_of_mem_filter current source hkept
  · exact hincoming source hnew

/-- **Merging the same sources again changes nothing.** -/
theorem merge_merge (hincoming : ∀ source ∈ incoming, source.isNone = false) :
    merge (merge current incoming) incoming = merge current incoming := by
  by_cases hnil : incoming = []
  · rw [hnil, merge_nil, merge_nil]
  · apply merge_eq_self
    · intro source hmem
      exact isNone_eq_false_of_mem_merge hnil hincoming hmem
    · intro source hmem
      rw [merge_of_ne_nil hnil]
      exact exists_equiv_mem_union hmem

end Source

/-! ### Merging into a directive -/

namespace Directive

variable {kind own : ListKind} {current incoming : List Source} {directive : Directive}

theorem sources?_of_body (h : directive.body = .sourceList own current) :
    directive.sources? = some current := by
  rw [sources?, h]
  rfl

/-- A directive is a list, or has no sources. -/
theorem body_cases (directive : Directive) :
    (∃ own current, directive.body = .sourceList own current) ∨ directive.sources? = none := by
  cases hbody : directive.body with
  | sourceList own current => exact Or.inl ⟨own, current, rfl⟩
  | _ =>
    refine Or.inr ?_
    rw [sources?, hbody]
    rfl

theorem mergeSources_of_body (h : directive.body = .sourceList own current) :
    directive.mergeSources incoming =
      { directive with
        rawValue := (Body.sourceList own (Source.merge current incoming)).text ""
        body := .sourceList own (Source.merge current incoming) } := by
  unfold mergeSources
  rw [h]

theorem body_mergeSources (h : directive.body = .sourceList own current) :
    (directive.mergeSources incoming).body = .sourceList own (Source.merge current incoming) := by
  rw [mergeSources_of_body h]

/-- Only a list takes up sources. -/
theorem mergeSources_eq_self (h : directive.sources? = none) :
    directive.mergeSources incoming = directive := by
  unfold mergeSources
  split
  case h_1 own current hbody =>
    rw [sources?_of_body hbody] at h
    cases h
  case h_2 => rfl

theorem mergeSources_mergeSources (hincoming : ∀ source ∈ incoming, source.isNone = false)
    (directive : Directive) :
    (directive.mergeSources incoming).mergeSources incoming = directive.mergeSources incoming := by
  rcases directive.body_cases with ⟨own, current, hbody⟩ | hnone
  · rw [mergeSources_of_body (body_mergeSources hbody), mergeSources_of_body hbody,
      Source.merge_merge hincoming]
  · rw [mergeSources_eq_self hnone, mergeSources_eq_self hnone]

theorem mergeSources_sourceList (kind : ListKind) (current incoming : List Source) :
    (sourceList kind current).mergeSources incoming =
      sourceList kind (Source.merge current incoming) :=
  mergeSources_of_body rfl

/-- The directive `merged` is what becomes of `directive`, a list that holds `current`, when the
sources `incoming` are merged into it. -/
structure Unites (incoming current : List Source) (own : ListKind) (directive merged : Directive) :
    Prop where
  name : merged.name = directive.name
  rawName : merged.rawName = directive.rawName
  /-- With nothing to merge the list stays; and otherwise the sources that mean something new stand
  behind it, and `'none'` does not stay. -/
  body : merged.body = .sourceList own
    (if incoming = [] then current
      else current.filter (!·.isNone) ++ Source.novel current incoming)
  rawValue : merged.rawValue = merged.value

theorem unites_mergeSources (hincoming : ∀ source ∈ incoming, source.isNone = false)
    (h : directive.body = .sourceList own current) :
    Unites incoming current own directive (directive.mergeSources incoming) where
  name := name_mergeSources incoming directive
  rawName := by rw [mergeSources_of_body h]
  body := by rw [body_mergeSources h, Source.merge_eq hincoming]
  rawValue := by
    rw [mergeSources_of_body h]
    rfl

end Directive

/-! ### Merging into a policy -/

namespace Policy

variable {policy : Policy} {kind : ListKind} {sources : List Source}

theorem merge_of_hasList (h : policy.hasList kind) (sources : List Source) :
    policy.merge kind sources =
      { policy with
        directives := updateFirst (·.name == kind.name)
          (·.mergeSources (sources.filter (!·.isNone))) policy.directives
        raw := none } := by
  rw [merge, if_pos h]

theorem merge_of_not_hasList (h : ¬ policy.hasList kind) (sources : List Source) :
    policy.merge kind sources =
      { policy with
        directives := policy.directives ++ [.sourceList kind (sources.filter (!·.isNone))]
        raw := none } := by
  rw [merge, if_neg h]

theorem hasList_merge (policy : Policy) (kind : ListKind) (sources : List Source) :
    (policy.merge kind sources).hasList kind := by
  by_cases hlist : policy.hasList kind
  · rw [hasList_iff] at hlist ⊢
    exact (names_prefix_edit policy (.merge kind sources) .recognized).subset hlist
  · rw [merge_of_not_hasList hlist, hasList_iff, List.map_append]
    exact List.mem_append_right _ (List.mem_singleton_self kind.name)

/-- **Merging the same sources again changes nothing**, whether there was a list or not, and also if
the directive of the name is not a list. -/
theorem merge_merge (policy : Policy) (kind : ListKind) (sources : List Source) :
    (policy.merge kind sources).merge kind sources = policy.merge kind sources := by
  have hincoming := Source.isNone_of_mem_filter sources
  rw [merge_of_hasList (hasList_merge policy kind sources)]
  by_cases hlist : policy.hasList kind
  · have hname : ∀ directive : Directive,
        ((directive.mergeSources (sources.filter (!·.isNone))).name == kind.name) =
          (directive.name == kind.name) := by
      intro directive
      rw [name_mergeSources]
    rw [merge_of_hasList hlist, updateFirst_updateFirst hname]
    simp only [mergeSources_mergeSources hincoming]
  · -- a list that was made of the sources knows them
    have hself : Source.merge (sources.filter (!·.isNone)) (sources.filter (!·.isNone)) =
        sources.filter (!·.isNone) :=
      Source.merge_eq_self hincoming fun source hmem => ⟨source, hmem, Setoid.refl source⟩
    have hothers : ∀ directive ∈ policy.directives, (directive.name == kind.name) = false := by
      simpa [hasList] using hlist
    rw [merge_of_not_hasList hlist, updateFirst_append hothers (beq_self_eq_true kind.name),
      mergeSources_sourceList, hself]

/-- **No other name is looked up differently.** -/
theorem directive?_merge_of_ne {name : String} (h : name.toLower ≠ kind.name)
    (policy : Policy) (sources : List Source) :
    (policy.merge kind sources).directive? name = policy.directive? name := by
  have hdirectives : (policy.merge kind sources).directives.find? (·.name == name.toLower) =
      policy.directives.find? (·.name == name.toLower) := by
    by_cases hlist : policy.hasList kind
    · rw [merge_of_hasList hlist]
      apply find?_updateFirst
      · intro directive hname
        rw [beq_iff_eq.mp hname]
        exact beq_false_of_ne h.symm
      · intro directive hname
        rw [name_mergeSources, beq_iff_eq.mp hname]
        exact beq_false_of_ne h.symm
    · have hnew : ((sourceList kind (sources.filter (!·.isNone))).name == name.toLower) = false :=
        beq_false_of_ne h.symm
      rw [merge_of_not_hasList hlist, List.find?_append, List.find?_singleton, hnew]
      exact Option.or_none
  have hothers : (policy.merge kind sources).otherDirectives = policy.otherDirectives := by
    rw [merge]
    split <;> rfl
  rw [directive?, effectiveDirectives, List.find?_append, hdirectives, hothers, directive?,
    effectiveDirectives, List.find?_append]

theorem sources?_merge_of_ne {other : ListKind} (h : other ≠ kind) (policy : Policy)
    (sources : List Source) :
    (policy.merge kind sources).sources? other = policy.sources? other := by
  have hname : other.name.toLower ≠ kind.name := by
    rw [other.toLower_name]
    intro heq
    exact h (ListKind.name_injective heq)
  rw [sources?, directive?_merge_of_ne hname, sources?]

/-- Only the first directive of the name changes. -/
theorem merge_of_split {front back : List Directive} {directive : Directive}
    (hdirectives : policy.directives = front ++ directive :: back)
    (hfront : ∀ other ∈ front, other.name ≠ kind.name) (hname : directive.name = kind.name)
    (sources : List Source) :
    policy.merge kind sources =
      { policy with
        directives := front ++ directive.mergeSources (sources.filter (!·.isNone)) :: back
        raw := none } := by
  have hlist : policy.hasList kind := by
    rw [hasList_iff, hdirectives, List.map_append, ← hname]
    exact List.mem_append_right _ (List.mem_cons_self ..)
  have hothers : ∀ other ∈ front, (other.name == kind.name) = false := by
    intro other hmem
    exact beq_false_of_ne (hfront other hmem)
  rw [merge_of_hasList hlist, hdirectives, updateFirst_append hothers (beq_iff_eq.mpr hname)]

/-- **Merging is an ordered union and touches nothing else.**  In a policy whose first recognized
directive of a kind's name is a list, the new sources are put behind those of the list, each where
it comes first, the value is written anew, and the header is forgotten; everything else stays where
it is.  In every policy, merging the same sources again changes nothing, and the sources of any
other kind stay as they are. -/
theorem merge_unites (policy : Policy) (kind : ListKind) (sources : List Source) :
    (∀ front directive back own current,
      policy.directives = front ++ directive :: back →
      (∀ other ∈ front, other.name ≠ kind.name) → directive.name = kind.name →
      directive.body = .sourceList own current →
      ∃ merged, Unites (sources.filter (!·.isNone)) current own directive merged ∧
        policy.merge kind sources =
          { policy with directives := front ++ merged :: back, raw := none }) ∧
    (policy.merge kind sources).merge kind sources = policy.merge kind sources ∧
    ∀ other, other ≠ kind →
      (policy.merge kind sources).sources? other = policy.sources? other := by
  refine ⟨?_, merge_merge policy kind sources, ?_⟩
  · intro front directive back own current hdirectives hfront hname hbody
    exact ⟨directive.mergeSources (sources.filter (!·.isNone)),
      unites_mergeSources (Source.isNone_of_mem_filter sources) hbody,
      merge_of_split hdirectives hfront hname sources⟩
  · intro other hother
    exact sources?_merge_of_ne hother policy sources

/-- A policy made by hand: two directives have one name, and the first of them is a list of another
kind, in which `'none'` and a host repeat beside each other and are not what is written. -/
def clutteredPolicy : Policy where
  directives := [.sourceList .fontSrc [],
    ⟨"img-src", "IMG-SRC", "b", .sourceList .fontSrc
      [.written "A" (.host { name := "a" }), .none, .ofHost "a", .none]⟩,
    .sourceList .imgSrc [.ofHost "c"]]
  raw := some "IMG-SRC b"

theorem merge_unites_clutteredPolicy :
    ∃ merged : Directive,
      merged.name = "img-src" ∧ merged.rawName = "IMG-SRC" ∧ merged.rawValue = "a a c b" ∧
      merged.body = .sourceList .fontSrc
        [.written "A" (.host { name := "a" }), .ofHost "a", .ofHost "c", .ofHost "b"] ∧
      clutteredPolicy.merge .imgSrc [.ofHost "c", .none, .ofHost "a", .ofHost "b", .ofHost "c"] =
        { directives := [.sourceList .fontSrc [], merged, .sourceList .imgSrc [.ofHost "c"]] } := by
  obtain ⟨hunites, -, -⟩ := merge_unites clutteredPolicy .imgSrc
    [.ofHost "c", .none, .ofHost "a", .ofHost "b", .ofHost "c"]
  obtain ⟨merged, hmerged, hmerge⟩ := hunites [.sourceList .fontSrc []] _
    [.sourceList .imgSrc [.ofHost "c"]] .fontSrc _ rfl (by decide) rfl rfl
  have hbody : merged.body = .sourceList .fontSrc
      [.written "A" (.host { name := "a" }), .ofHost "a", .ofHost "c", .ofHost "b"] := by
    rw [hmerged.body]
    decide
  refine ⟨merged, hmerged.name, hmerged.rawName, ?_, hbody, hmerge⟩
  rw [hmerged.rawValue, Directive.value, hbody, Body.text]
  decide

end Policy

end ContentSecurity

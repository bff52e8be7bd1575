import ContentSecurity.Proofs.Policy.Merging
/-!
# Merging in batches

Sources are merged into a list one after the other, so that it does not matter in how many batches
they come to a list that is there (`Policy.merge_append_of_hasList`).  But a list that is made up
takes over its first batch as it is, sources that mean the same included, and looks for these only
from the second batch on.  So one batch comes to the same as two exactly if there is nothing in the
second that has to be left out (`Source.AllNew`).  Otherwise not even the canonical forms are the
same: that of the single batch is longer, since it writes what two batches leave out.
-/

namespace ContentSecurity

open Text Grammar Directive
open String (utf8Len)

namespace Source

variable {current incoming first second : List Source} {source : Source}

/-! ### Sources that are all new -/

/-- No incoming source means the same as one in the list or as one that comes in before it. -/
def AllNew (current incoming : List Source) : Prop :=
  (∀ source ∈ incoming, ∀ known ∈ current, ¬ known ≈ source) ∧ incoming.Pairwise (¬ · ≈ ·)

theorem allNew_nil (current : List Source) : AllNew current [] :=
  ⟨by simp, List.Pairwise.nil⟩

theorem allNew_cons_iff {rest : List Source} :
    AllNew current (source :: rest) ↔
      (¬ ∃ known ∈ current, known ≈ source) ∧ AllNew (current ++ [source]) rest := by
  have hboth : ∀ other, (∀ known ∈ current ++ [source], ¬ known ≈ other) ↔
      (∀ known ∈ current, ¬ known ≈ other) ∧ ¬ source ≈ other := by
    intro other
    rw [List.forall_mem_append, List.forall_mem_singleton]
  simp only [AllNew, List.forall_mem_cons, List.pairwise_cons, hboth, forall₂_and, not_exists,
    not_and]
  exact ⟨fun ⟨⟨hsource, hrest⟩, hbefore, hpairs⟩ => ⟨hsource, ⟨hrest, hbefore⟩, hpairs⟩,
    fun ⟨hsource, ⟨hrest, hbefore⟩, hpairs⟩ => ⟨⟨hsource, hrest⟩, hbefore, hpairs⟩⟩

theorem length_novel_le (current incoming : List Source) :
    (novel current incoming).length ≤ incoming.length := by
  induction incoming generalizing current with
  | nil => exact le_rfl
  | cons source rest ih =>
    by_cases hknown : ∃ known ∈ current, known ≈ source
    · rw [novel_cons_of_known hknown]
      exact (ih current).trans (Nat.le_succ _)
    · rw [novel_cons_of_new hknown]
      exact Nat.succ_le_succ (ih _)

/-- Something is left out unless all sources are new. -/
theorem length_novel_lt (h : ¬ AllNew current incoming) :
    (novel current incoming).length < incoming.length := by
  induction incoming generalizing current with
  | nil => exact absurd (allNew_nil current) h
  | cons source rest ih =>
    by_cases hknown : ∃ known ∈ current, known ≈ source
    · rw [novel_cons_of_known hknown]
      exact Nat.lt_succ_of_le (length_novel_le current rest)
    · have hrest : ¬ AllNew (current ++ [source]) rest := fun hall =>
        h (allNew_cons_iff.mpr ⟨hknown, hall⟩)
      rw [novel_cons_of_new hknown]
      exact Nat.succ_lt_succ (ih hrest)

theorem novel_eq_self (h : AllNew current incoming) : novel current incoming = incoming := by
  induction incoming generalizing current with
  | nil => rfl
  | cons source rest ih =>
    obtain ⟨hnew, hrest⟩ := allNew_cons_iff.mp h
    rw [novel_cons_of_new hnew, ih hrest]

theorem novel_sublist (current incoming : List Source) :
    (novel current incoming).Sublist incoming := by
  induction incoming generalizing current with
  | nil => exact List.Sublist.refl []
  | cons source rest ih =>
    by_cases hknown : ∃ known ∈ current, known ≈ source
    · rw [novel_cons_of_known hknown]
      exact (ih current).cons source
    · rw [novel_cons_of_new hknown]
      exact (ih _).cons_cons source

/-- A list that is empty knows nothing, so the first source is new to it. -/
theorem novel_nil_ne_nil (h : incoming ≠ []) : novel [] incoming ≠ [] := by
  obtain ⟨source, rest, rfl⟩ := List.exists_cons_of_ne_nil h
  rw [novel_cons_of_new (by simp)]
  exact List.cons_ne_nil source _

/-! ### Two batches for one list -/

theorem union_append (current first second : List Source) :
    union current (first ++ second) = union (union current first) second :=
  List.foldl_append ..

/-- **Merging into a list is the same in one batch as in two.** -/
theorem merge_append (hfirst : ∀ source ∈ first, source.isNone = false) :
    merge current (first ++ second) = merge (merge current first) second := by
  by_cases hnil : first = []
  · rw [hnil, List.nil_append, merge_nil]
  · have hmerged : ∀ source ∈ merge current first, source.isNone = false := by
      intro source hmem
      exact isNone_eq_false_of_mem_merge hnil hfirst hmem
    have hboth : first ++ second ≠ [] := by simp [hnil]
    rw [merge_eq_union hmerged, merge_of_ne_nil hnil, merge_of_ne_nil hboth, union_append]

end Source

namespace Directive

variable {kind : ListKind} {first second : List Source}

theorem mergeSources_append (hfirst : ∀ source ∈ first, source.isNone = false)
    (directive : Directive) :
    directive.mergeSources (first ++ second) =
      (directive.mergeSources first).mergeSources second := by
  rcases directive.body_cases with ⟨own, current, hbody⟩ | hnone
  · rw [mergeSources_of_body hbody, mergeSources_of_body (body_mergeSources hbody),
      mergeSources_of_body hbody, Source.merge_append hfirst]
  · rw [mergeSources_eq_self hnone, mergeSources_eq_self hnone, mergeSources_eq_self hnone]

/-! ### Lists of different lengths -/

theorem length_eq_of_sourceList_equiv (h : sourceList kind first ≈ sourceList kind second) :
    first.length = second.length := by
  have hplain : (sourceList kind first).plain = (sourceList kind second).plain := h
  rw [plain_sourceList, plain_sourceList] at hplain
  have hsources : first.map Source.plain = second.map Source.plain :=
    (Body.sourceList.inj (congrArg Directive.body hplain)).2
  simpa using congrArg List.length hsources

theorem utf8ByteSize_value_sourceList (kind : ListKind) (sources : List Source) :
    (sourceList kind sources).value.utf8ByteSize =
      totalLength (sources.map fun source => source.text.toList) + (sources.length - 1) := by
  have hvalue : (sourceList kind sources).value = Body.joined (sources.map Source.text) := rfl
  rw [hvalue, ← String.utf8Len_toList, toList_joined, List.map_map, utf8Len_spaced, List.length_map]
  rfl

/-- A list from which sources are taken out, but not all, has a shorter text: at least the spaces in
front of them are gone. -/
theorem utf8ByteSize_text_sourceList_lt (hsub : first.Sublist second) (hne : first ≠ [])
    (hlength : first.length < second.length) :
    (sourceList kind first).text.utf8ByteSize < (sourceList kind second).text.utf8ByteSize := by
  have hpos : 0 < first.length := List.length_pos_iff.mpr hne
  have htotal : totalLength (first.map fun source => source.text.toList) ≤
      totalLength (second.map fun source => source.text.toList) :=
    ((hsub.map _).map _).sum_le_sum fun _ _ => Nat.zero_le _
  have hvalue : (sourceList kind first).value.utf8ByteSize <
      (sourceList kind second).value.utf8ByteSize := by
    rw [utf8ByteSize_value_sourceList, utf8ByteSize_value_sourceList]
    omega
  have hsecond : (sourceList kind second).value ≠ "" := by
    intro hempty
    rw [hempty] at hvalue
    exact Nat.not_lt_zero _ hvalue
  have hspace : utf8Len [' '] = 1 := by decide
  have htext := congrArg utf8Len (toList_text_of_ne hsecond)
  have hfirst := utf8ByteSize_text_le_add (sourceList kind first)
  have hname : (sourceList kind first).name = (sourceList kind second).name := rfl
  rw [String.utf8Len_append, String.utf8Len_append, hspace, String.utf8Len_toList,
    String.utf8Len_toList, String.utf8Len_toList] at htext
  rw [hname] at hfirst
  omega

end Directive

/-! ### Two batches for one policy -/

namespace Policy

variable {policy : Policy} {kind : ListKind} {first second : List Source}
variable {last other : Directive}

/-- **Merging into a list that is there is the same in one batch as in two.** -/
theorem merge_append_of_hasList (h : policy.hasList kind) (first second : List Source) :
    policy.merge kind (first ++ second) = (policy.merge kind first).merge kind second := by
  have hname : ∀ directive : Directive,
      ((directive.mergeSources (first.filter (!·.isNone))).name == kind.name) =
        (directive.name == kind.name) := by
    intro directive
    rw [name_mergeSources]
  rw [merge_of_hasList (hasList_merge policy kind first), merge_of_hasList h, merge_of_hasList h,
    updateFirst_updateFirst hname, List.filter_append]
  simp only [mergeSources_append (Source.isNone_of_mem_filter first)]

/-- The same policy with one more recognized directive, and without its header. -/
def concat (policy : Policy) (last : Directive) : Policy :=
  { policy with directives := policy.directives ++ [last], raw := none }

/-- A list that is made up holds the sources of a single batch as they come. -/
theorem merge_append_of_not_hasList (h : ¬ policy.hasList kind) (first second : List Source) :
    policy.merge kind (first ++ second) =
      policy.concat (.sourceList kind (first.filter (!·.isNone) ++ second.filter (!·.isNone))) := by
  rw [merge_of_not_hasList h, List.filter_append]
  rfl

/-- A list that is made up holds the sources of the first of two batches as they come, and then
what the second has to add. -/
theorem merge_merge_of_not_hasList (h : ¬ policy.hasList kind) (first second : List Source) :
    (policy.merge kind first).merge kind second =
      policy.concat (.sourceList kind (first.filter (!·.isNone) ++
        Source.novel (first.filter (!·.isNone)) (second.filter (!·.isNone)))) := by
  have hothers : ∀ directive ∈ policy.directives, (directive.name == kind.name) = false := by
    simpa [hasList] using h
  have hunion : Source.merge (first.filter (!·.isNone)) (second.filter (!·.isNone)) =
      Source.union (first.filter (!·.isNone)) (second.filter (!·.isNone)) :=
    Source.merge_eq_union (Source.isNone_of_mem_filter first)
  rw [merge_of_hasList (hasList_merge policy kind first), merge_of_not_hasList h,
    updateFirst_append hothers (beq_self_eq_true kind.name), mergeSources_sourceList, hunion,
    Source.union_eq_append_novel]
  rfl

theorem equiv_of_concat_equiv (h : policy.concat last ≈ policy.concat other) : last ≈ other := by
  have hplain := congrArg Policy.directives (show (policy.concat last).plain = _ from h)
  simp only [plain, concat, List.map_append, List.map_singleton, List.append_cancel_left_eq,
    List.cons.injEq, and_true] at hplain
  exact hplain

theorem utf8ByteSize_render_concat_lt (h : last.text.utf8ByteSize < other.text.utf8ByteSize) :
    (policy.concat last).render.utf8ByteSize < (policy.concat other).render.utf8ByteSize := by
  rw [utf8ByteSize_render, utf8ByteSize_render]
  simp only [effectiveDirectives, concat, List.map_append, List.map_singleton, List.sum_append,
    List.sum_singleton, List.length_append, List.length_singleton]
  omega

/-- **When one batch comes to the same as two.**  In a policy that has a directive of the kind's
name, always.  Where the list has to be made up, exactly if all sources of the second batch are new,
beside those of the first and each beside those before it; and only then are the canonical forms
the same. -/
theorem merge_append_iff (policy : Policy) (kind : ListKind) (first second : List Source) :
    (policy.hasList kind →
      policy.merge kind (first ++ second) = (policy.merge kind first).merge kind second) ∧
    (policy.merge kind (first ++ second) ≈ (policy.merge kind first).merge kind second ↔
      policy.hasList kind ∨
        Source.AllNew (first.filter (!·.isNone)) (second.filter (!·.isNone))) ∧
    ((policy.merge kind (first ++ second)).render =
        ((policy.merge kind first).merge kind second).render ↔
      policy.hasList kind ∨
        Source.AllNew (first.filter (!·.isNone)) (second.filter (!·.isNone))) := by
  refine ⟨fun hlist => merge_append_of_hasList hlist first second, ?_⟩
  by_cases hlist : policy.hasList kind
  · rw [merge_append_of_hasList hlist]
    exact ⟨iff_of_true (Setoid.refl _) (Or.inl hlist), iff_of_true rfl (Or.inl hlist)⟩
  rw [merge_append_of_not_hasList hlist, merge_merge_of_not_hasList hlist]
  generalize first.filter (!·.isNone) = kept
  generalize second.filter (!·.isNone) = added
  by_cases hnew : Source.AllNew kept added
  · rw [Source.novel_eq_self hnew]
    exact ⟨iff_of_true (Setoid.refl _) (Or.inr hnew), iff_of_true rfl (Or.inr hnew)⟩
  · have hneither : ¬ (policy.hasList kind ∨ Source.AllNew kept added) := not_or.mpr ⟨hlist, hnew⟩
    have hlength : (kept ++ Source.novel kept added).length < (kept ++ added).length := by
      rw [List.length_append, List.length_append]
      exact Nat.add_lt_add_left (Source.length_novel_lt hnew) _
    have hne : kept ++ Source.novel kept added ≠ [] := by
      intro hnil
      obtain ⟨rfl, hnovel⟩ := List.append_eq_nil_iff.mp hnil
      exact Source.novel_nil_ne_nil (List.length_pos_iff.mp (Nat.zero_lt_of_lt hlength)) hnovel
    have hsub := (Source.novel_sublist kept added).append_left kept
    have hsize :
        (policy.concat (sourceList kind (kept ++ Source.novel kept added))).render.utf8ByteSize <
          (policy.concat (sourceList kind (kept ++ added))).render.utf8ByteSize :=
      utf8ByteSize_render_concat_lt (utf8ByteSize_text_sourceList_lt hsub hne hlength)
    constructor
    · refine iff_of_false ?_ hneither
      intro hequiv
      exact hlength.ne' (length_eq_of_sourceList_equiv (equiv_of_concat_equiv hequiv))
    · refine iff_of_false ?_ hneither
      intro hrender
      exact hsize.ne' (congrArg String.utf8ByteSize hrender)

theorem merge_append_iff_spacedPolicy :
    spacedPolicy.hasList .imgSrc ∧
      spacedPolicy.merge .imgSrc ([.none, .ofHost "a"] ++ [.ofHost "a", .ofHost "*"]) =
        (spacedPolicy.merge .imgSrc [.none, .ofHost "a"]).merge .imgSrc
          [.ofHost "a", .ofHost "*"] :=
  have hlist : spacedPolicy.hasList .imgSrc := by decide
  ⟨hlist, (merge_append_iff spacedPolicy .imgSrc [.none, .ofHost "a"]
    [.ofHost "a", .ofHost "*"]).1 hlist⟩

/-- One batch does not always come to the same as two: a list that is made of a host given twice
keeps both. -/
theorem not_merge_append :
    ¬ ∀ (policy : Policy) (kind : ListKind) (first second : List Source),
      policy.merge kind (first ++ second) ≈ (policy.merge kind first).merge kind second ∧
        (policy.merge kind (first ++ second)).render =
          ((policy.merge kind first).merge kind second).render := by
  intro h
  have hrender := (h {} .imgSrc [.ofHost "a"] [.ofHost "a"]).2
  have honce : ((merge {} .imgSrc [.ofHost "a"]).merge .imgSrc [.ofHost "a"]).render =
      "img-src a" := by
    decide +kernel
  have htwice : (merge {} .imgSrc ([.ofHost "a"] ++ [.ofHost "a"])).render = "img-src a a" := by
    decide +kernel
  rw [honce, htwice] at hrender
  exact absurd hrender (by decide)

end Policy

end ContentSecurity

import ContentSecurity.Proofs.Policy.Occurrences
/-!
# Limits

Limits do nothing but refuse.  Whatever is read, the result under limits is the result without them
or an error that tells of a limit (`Restricts`), and this is kept by readings that follow each
other.  Which of the two it is depends on three numbers: the length of the header, the number of its
directives and the numbers of their sources.  The first of them that is too great, in this order and
in the order of the directives, is the one that is reported (`Limits.FirstExcess`).
-/

namespace ContentSecurity

open Text Grammar Directive

variable {limits : Limits} {value : String}

/-! ### Refusing and nothing else -/

/-- The result under limits is the given one, or tells that a limit is exceeded. -/
inductive Restricts {α : Type} (result : Except Error α) : Except Error α → Prop
  | same : Restricts result result
  | refused (quantity : Quantity) (limit actual : Nat) :
      Restricts result (.error (.limitExceeded quantity limit actual))

namespace Restricts

variable {α β : Type} {result limited : Except Error α}

theorem eq_of_ok {a : α} (h : Restricts result limited) (hlimited : limited = .ok a) :
    result = .ok a := by
  cases h with
  | same => exact hlimited
  | refused => cases hlimited

theorem eq_or_refused (h : Restricts result limited) :
    limited = result ∨ ∃ quantity limit actual,
      limited = .error (.limitExceeded quantity limit actual) := by
  cases h with
  | same => exact Or.inl rfl
  | refused quantity limit actual => exact Or.inr ⟨quantity, limit, actual, rfl⟩

/-- What follows is restricted wherever the first step gives a value. -/
theorem bind {next nextLimited : α → Except Error β} (h : Restricts result limited)
    (hnext : ∀ a, result = .ok a → Restricts (next a) (nextLimited a)) :
    Restricts (result >>= next) (limited >>= nextLimited) := by
  cases h with
  | refused quantity limit actual => exact .refused quantity limit actual
  | same =>
    cases result with
    | error error => exact .same
    | ok a => exact hnext a rfl

theorem mapM {f fLimited : α → Except Error β} {as : List α}
    (h : ∀ a ∈ as, Restricts (f a) (fLimited a)) : Restricts (as.mapM f) (as.mapM fLimited) := by
  induction as with
  | nil => exact .same
  | cons a as ih =>
    obtain ⟨hfirst, hothers⟩ := List.forall_mem_cons.mp h
    rw [List.mapM_cons, List.mapM_cons]
    exact hfirst.bind fun b _ => (ih hothers).bind fun bs _ => .same

/-- Naming the directive leaves an error of a limit as it is. -/
theorem mapError (h : Restricts result limited) (name : String) :
    Restricts (result.mapError (.inDirective name)) (limited.mapError (.inDirective name)) := by
  cases h with
  | same => exact .same
  | refused quantity limit actual => exact .refused quantity limit actual

end Restricts

namespace Limits

theorem of_unbounded (quantity : Quantity) : unbounded.of quantity = greatest := by
  cases quantity <;> rfl

theorem check_of_le {quantity : Quantity} {actual : Nat} (h : actual ≤ limits.of quantity) :
    limits.check quantity actual = .ok () :=
  check_eq_ok_iff.mpr h

theorem check_of_lt {quantity : Quantity} {actual : Nat} (h : limits.of quantity < actual) :
    limits.check quantity actual =
      .error (.limitExceeded quantity (limits.of quantity) actual) := by
  rw [check, if_pos h]

theorem restricts_check {quantity : Quantity} {actual : Nat} (h : actual ≤ greatest) :
    Restricts (unbounded.check quantity actual) (limits.check quantity actual) := by
  rw [check_of_le (of_unbounded quantity ▸ h)]
  by_cases hlimit : actual ≤ limits.of quantity
  · rw [check_of_le hlimit]
    exact .same
  · rw [check_of_lt (Nat.lt_of_not_le hlimit)]
    exact .refused quantity (limits.of quantity) actual

end Limits

namespace Directive

variable {directive : Directive} {rawName rawValue : String}

namespace Body

variable {kind : Kind} {list : ListKind} {body : Body} {sources : List Source}

/-- A value is within limits if its sources, where it has any but `'none'`, are not too many. -/
theorem within_iff :
    body.Within limits ↔
      ∀ sources, body.sources? = some sources → sources ≠ [.none] →
        sources.length ≤ limits.sources := by
  cases body with
  | sourceList kind sources => simp [Within, SourcesWithin, sources?, or_iff_not_imp_left]
  | _ => simp [Within, sources?]

theorem restricts_sourcesOf (hsize : value.utf8ByteSize ≤ Limits.greatest) :
    Restricts (sourcesOf .unbounded list value).result (sourcesOf limits list value).result := by
  by_cases hnone : value = Source.noneText
  · rw [hnone, sourcesOf_noneText, sourcesOf_noneText]
    exact .same
  by_cases hne : value = ""
  · rw [hne, sourcesOf_empty, sourcesOf_empty]
    exact .same
  rw [result_sourcesOf_of_ne hnone hne, result_sourcesOf_of_ne hnone hne]
  refine Restricts.same.bind fun tree htree => Restricts.same.bind fun sources hsources => ?_
  -- each source takes a byte of the value at least, so without limits there are never too many
  have hspelled : SpellsAll (Source.Spells list.Allows) value sources :=
    (exists_interpret_iff.mp ⟨tree, htree,
      Reading.eq_pure_of_result (exists_interpret_of_tree htree) hsources⟩).2
  split
  · exact .same
  · exact (Limits.restricts_check (hspelled.length_le.trans hsize)).bind fun _ _ => .same

theorem restricts_ofText (hsize : value.utf8ByteSize ≤ Limits.greatest) :
    Restricts (ofText .unbounded kind value).result (ofText limits kind value).result := by
  cases kind with
  | sourceList list =>
    change Restricts (sourcesOf .unbounded list value >>= fun sources => pure _).result
      (sourcesOf limits list value >>= fun sources => pure _).result
    rw [Reading.result_bind, Reading.result_bind]
    exact (restricts_sourcesOf hsize).bind fun _ _ => .same
  | _ => exact .same

/-- **Too many sources are refused**, and nothing else about a value is. -/
theorem result_ofText_of_not_within (hkind : body.kind? = some kind) (hread : body.ReadFrom value)
    (hsources : body.sources? = some sources) (hnone : sources ≠ [.none])
    (hcount : limits.sources < sources.length) :
    (ofText limits kind value).result =
      .error (.limitExceeded .sourceCount limits.sources sources.length) := by
  cases body with
  | sourceList list own =>
    obtain rfl := Option.some.inj hsources
    obtain rfl := Option.some.inj hkind
    have hspelled : SpellsAll (Source.Spells list.Allows) value own :=
      hread.resolve_left fun h => hnone h.2
    have hne : value ≠ "" := by
      rintro rfl
      have hnil : own = [] := by simpa using hspelled.2
      rw [hnil] at hcount
      exact Nat.not_lt_zero _ hcount
    have htext : value ≠ Source.noneText := by
      rintro rfl
      exact not_spellsAll_noneText hspelled
    have hempty : ¬ own.isEmpty = true := by simpa using hspelled.ne_nil hne
    obtain ⟨tree, htree, hinterpret⟩ := exists_interpret_iff.mpr ⟨hne, hspelled⟩
    have hcheck : limits.check .sourceCount own.length = .error _ := Limits.check_of_lt hcount
    change (sourcesOf limits list value >>= fun sources => pure _).result = _
    rw [Reading.result_bind, result_sourcesOf_of_ne htext hne, htree]
    change ((Source.interpret value list.root tree).result >>= fun sources => _) >>= _ = _
    rw [hinterpret]
    change (if own.isEmpty then _ else _) >>= _ = _
    rw [if_neg hempty, hcheck]
    rfl
  | _ => cases hsources

end Body

theorem restricts_ofText (hsize : rawValue.utf8ByteSize ≤ Limits.greatest) :
    Restricts (ofText .unbounded rawName rawValue).result
      (ofText limits rawName rawValue).result := by
  rw [result_ofText, result_ofText]
  cases Kind.ofName? rawName.toLower with
  | none => exact .same
  | some kind => exact ((Body.restricts_ofText hsize).mapError _).bind fun _ _ => .same

theorem result_ofText_of_not_within {sources : List Source}
    (hread : directive.ReadFrom rawName rawValue) (hsources : directive.sources? = some sources)
    (hnone : sources ≠ [.none]) (hcount : limits.sources < sources.length) :
    (ofText limits rawName rawValue).result =
      .error (.limitExceeded .sourceCount limits.sources sources.length) := by
  have hkind := hread.kind_eq
  rw [hread.name_eq] at hkind
  rw [result_ofText, hkind]
  cases hbody : directive.body.kind? with
  | none =>
    rw [Directive.sources?, Body.kind?_eq_none_iff.mp hbody] at hsources
    cases hsources
  | some kind =>
    simp only [Body.result_ofText_of_not_within hbody hread.body hsources hnone hcount]
    rfl

end Directive

/-- What is too great first: the length of the header, then the number of its directives, then the
number of sources of a directive behind others that are within the limits. -/
inductive Limits.FirstExcess (limits : Limits) (size : Nat) (directives : List Directive) :
    Quantity → Nat → Prop
  | headerLength (hsize : limits.headerLength < size) :
      FirstExcess limits size directives .headerLength size
  | directiveCount (hsize : size ≤ limits.headerLength)
      (hcount : limits.directives < directives.length) :
      FirstExcess limits size directives .directiveCount directives.length
  | sourceCount (front : List Directive) (directive : Directive) (back : List Directive)
      (sources : List Source) (hsize : size ≤ limits.headerLength)
      (hcount : directives.length ≤ limits.directives)
      (hsplit : directives = front ++ directive :: back)
      (hfront : ∀ other ∈ front, other.body.Within limits)
      (hsources : directive.sources? = some sources) (hnone : sources ≠ [.none])
      (hexcess : limits.sources < sources.length) :
      FirstExcess limits size directives .sourceCount sources.length

theorem Limits.FirstExcess.lt {size actual : Nat} {directives : List Directive}
    {quantity : Quantity} (h : limits.FirstExcess size directives quantity actual) :
    limits.of quantity < actual := by
  cases h with
  | headerLength hsize => exact hsize
  | directiveCount _ hcount => exact hcount
  | sourceCount _ _ _ _ _ _ _ _ _ _ hexcess => exact hexcess

namespace Policy

variable {header : String} {policy : Policy} {directives : List Directive} {data : ByteArray}

/-- The directives of the three sequences. -/
def allDirectives (policy : Policy) : List Directive :=
  policy.directives ++ policy.otherDirectives ++ policy.ineffectiveDirectives

/-- A policy that was read from a header of this size is within limits: the header is short enough,
there are not too many directives in the three sequences together, and no source list but the word
`'none'` holds too many sources. -/
structure Fits (limits : Limits) (size : Nat) (policy : Policy) : Prop where
  size : size ≤ limits.headerLength
  count : policy.allDirectives.length ≤ limits.directives
  sources : ∀ directive ∈ policy.allDirectives, ∀ sources, directive.sources? = some sources →
    sources ≠ [.none] → sources.length ≤ limits.sources

/-! ### Which limits admit a policy -/

/-- Placing neither adds nor drops a directive. -/
theorem allDirectives_place_perm (seen : List String) (directives : List Directive) :
    (place seen directives).allDirectives.Perm directives := by
  induction directives generalizing seen with
  | nil => exact .nil
  | cons directive rest ih =>
    have hprepend : ((place (directive.name :: seen) rest).prepend directive
        (directive.placement seen)).allDirectives.Perm
        (directive :: (place (directive.name :: seen) rest).allDirectives) := by
      cases directive.placement seen with
      | recognized => exact .refl _
      | unrecognized =>
        simp only [allDirectives, prepend, List.append_assoc]
        exact List.perm_middle
      | ineffective =>
        exact List.perm_middle
    exact hprepend.trans ((ih _).cons directive)

theorem fits_iff_admit :
    Fits limits header.utf8ByteSize { ofDirectives directives with raw := some header } ↔
      limits.Admit header directives := by
  have hperm := allDirectives_place_perm [] directives
  constructor
  · intro h
    refine ⟨h.size, hperm.length_eq ▸ h.count, fun directive hmem => ?_⟩
    exact Body.within_iff.mpr (h.sources directive (hperm.mem_iff.mpr hmem))
  · intro h
    refine ⟨h.size, hperm.length_eq.symm ▸ h.count, fun directive hmem => ?_⟩
    exact Body.within_iff.mp (h.sources directive (hperm.mem_iff.mp hmem))

/-! ### What is refused -/

theorem restricts_outline (hsize : data.size ≤ Limits.greatest) :
    Restricts (outline .unbounded data) (outline limits data) := by
  refine (Limits.restricts_check hsize).bind fun _ _ => ?_
  cases htext : String.fromUTF8? data with
  | none => exact .same
  | some header =>
    refine Restricts.same.bind fun tree htree => ?_
    obtain ⟨houtline, hgives⟩ := gives_of_tree htree
    have hcount : (tree.search [.serializedDirective] 2).length ≤ Limits.greatest := by
      rw [fromUTF8?_eq_some_iff.mp htext] at hsize
      rw [← hgives.length_eq]
      exact (length_filled_le houtline).trans hsize
    exact (Limits.restricts_check hcount).bind fun _ _ => .same

theorem restricts_ofTree {clause : List Char} {tree : Tree} (hgives : Gives header clause tree)
    (hclause : clause ∈ filled header) (hsize : header.utf8ByteSize ≤ Limits.greatest) :
    Restricts (ofTree .unbounded header tree).result (ofTree limits header tree).result := by
  have hvalue := utf8Len_clauseValue_le clause
  have hpart := utf8Len_le_of_mem_filled hclause
  rw [ofTree_of_gives hgives, ofTree_of_gives hgives]
  apply Directive.restricts_ofText
  rw [String.utf8ByteSize_ofList]
  omega

theorem restricts_contents (hsize : data.size ≤ Limits.greatest) :
    Restricts (contents .unbounded data) (contents limits data) := by
  refine (restricts_outline hsize).bind ?_
  intro found hfound
  rcases found with ⟨header, trees⟩
  obtain ⟨rfl, -, ⟨tree, htree, rfl⟩, -⟩ := outline_eq_ok_iff.mp hfound
  obtain ⟨-, hgives⟩ := gives_of_tree htree
  refine Restricts.bind (Restricts.mapM fun node hnode => ?_) fun _ _ => .same
  have hclauses := (List.forall₂_and_left _ _).mpr ⟨fun _ => id, hgives⟩
  obtain ⟨clause, hmem, -, hnode⟩ := exists_of_forall₂ hclauses hnode
  exact restricts_ofTree hnode hmem hsize

/-- **Limits do nothing but refuse.** -/
theorem restricts_parse (hsize : data.size ≤ Limits.greatest) :
    Restricts (parse .unbounded data).result (parse limits data).result := by
  rw [result_parse, result_parse]
  exact (restricts_contents hsize).bind fun _ _ => .same

/-! ### What is reported -/

/-- Limits that do not admit the directives of a header are exceeded somewhere first. -/
theorem exists_firstExcess (h : ¬ limits.Admit header directives) :
    ∃ quantity actual, limits.FirstExcess header.utf8ByteSize directives quantity actual := by
  by_cases hsize : header.utf8ByteSize ≤ limits.headerLength
  · by_cases hcount : directives.length ≤ limits.directives
    · have hsources : ¬ ∀ directive ∈ directives, directive.body.Within limits :=
        fun hall => h ⟨hsize, hcount, hall⟩
      obtain ⟨front, directive, back, hsplit, hfront, hover⟩ := exists_first_not hsources
      have hexcess := Body.within_iff.not.mp hover
      push Not at hexcess
      rcases hexcess with ⟨sources, hlist, hnone, hmany⟩
      exact ⟨_, _, .sourceCount front directive back sources hsize hcount hsplit hfront hlist hnone
        hmany⟩
    · exact ⟨_, _, .directiveCount hsize (Nat.lt_of_not_le hcount)⟩
  · exact ⟨_, _, .headerLength (Nat.lt_of_not_le hsize)⟩

/-- The first directive with too many sources is refused.  Those in front of it are read under the
limits as well, so they do not fail before. -/
theorem mapM_ofTree_of_not_within {trees : List Tree} {front back : List Directive}
    {directive : Directive} {sources : List Source}
    (hgives : ∀ node ∈ trees, ∃ clause, Gives header clause node)
    (hreads : List.Forall₂ (fun node directive =>
      (ofTree .unbounded header node).result = .ok directive) trees (front ++ directive :: back))
    (hfront : ∀ other ∈ front, other.body.Within limits)
    (hsources : directive.sources? = some sources) (hnone : sources ≠ [.none])
    (hmany : limits.sources < sources.length) :
    trees.mapM (fun node => (ofTree limits header node).result) =
      .error (.limitExceeded .sourceCount limits.sources sources.length) := by
  have hboth := (List.forall₂_and_left _ _).mpr ⟨hgives, hreads⟩
  obtain ⟨before, node, after, htrees, hbefore, ⟨clause, hclause⟩, hnode⟩ :=
    exists_split_of_forall₂ hboth
  apply mapM_eq_error htrees
  · intro other hother
    obtain ⟨read, hmem, ⟨clause, hclause⟩, hok⟩ := exists_of_forall₂ hbefore.flip hother
    have hread := ((ofTree_eq_ok_iff hclause).mp hok).1
    exact ⟨read, (ofTree_eq_ok_iff hclause).mpr ⟨hread, hfront read hmem⟩⟩
  · rw [ofTree_of_gives hclause]
    exact result_ofText_of_not_within ((ofTree_eq_ok_iff hclause).mp hnode).1 hsources hnone hmany

/-- **The first excess is reported.** -/
theorem contents_of_firstExcess {quantity : Quantity} {actual : Nat}
    (hcontents : contents .unbounded data = .ok (header, directives))
    (hexcess : limits.FirstExcess data.size directives quantity actual) :
    contents limits data = .error (.limitExceeded quantity (limits.of quantity) actual) := by
  obtain ⟨tree, hdata, -, htree, -, hread⟩ := contents_eq_ok_iff.mp hcontents
  have hnodes := mapM_eq_ok_iff.mp hread
  have htext := fromUTF8?_eq_some_iff.mpr hdata
  unfold contents
  cases hexcess with
  | headerLength hsize =>
    have hcheck : limits.check .headerLength data.size = .error _ := Limits.check_of_lt hsize
    rw [outline, hcheck]
    rfl
  | directiveCount hsize hcount =>
    have hheader : limits.check .headerLength data.size = .ok () := Limits.check_of_le hsize
    have hcheck : limits.check .directiveCount directives.length = .error _ :=
      Limits.check_of_lt hcount
    rw [outline, hheader]
    simp only [htext, htree, ← hnodes.length_eq] at hcheck ⊢
    change (limits.check .directiveCount (tree.search [.serializedDirective] 2).length >>=
      fun _ => _) >>= _ = _
    rw [hcheck]
    rfl
  | sourceCount front directive back sources hsize hcount hsplit hfront hsources hnone hmany =>
    have houtline : outline limits data = .ok (header, tree.search [.serializedDirective] 2) :=
      outline_eq_ok_iff.mpr ⟨hdata, hsize, ⟨tree, htree, rfl⟩, hnodes.length_eq ▸ hcount⟩
    have hgives : ∀ node ∈ tree.search [.serializedDirective] 2,
        ∃ clause, Gives header clause node := by
      intro node hnode
      obtain ⟨clause, -, hgives⟩ := exists_of_forall₂ (gives_of_tree htree).2 hnode
      exact ⟨clause, hgives⟩
    have hfail := mapM_ofTree_of_not_within hgives (hsplit ▸ hnodes) hfront hsources hnone hmany
    rw [houtline]
    change ((tree.search [.serializedDirective] 2).mapM fun node =>
      (ofTree limits header node).result) >>= _ = _
    rw [hfail]
    rfl

/-- How reading a header under limits compares with reading it without them.  What is accepted under
limits is the same policy; a policy is accepted exactly if it fits, and else the first excess is
reported, in the order of the directives in the header; an error stays, unless a limit is exceeded
before it is met. -/
structure OnlyRefuse (limits : Limits) (data : ByteArray) : Prop where
  same : ∀ policy, (parse limits data).result = .ok policy →
    (parse .unbounded data).result = .ok policy
  accepts_iff : ∀ policy, (parse .unbounded data).result = .ok policy →
    ((∃ other, (parse limits data).result = .ok other) ↔ policy.Fits limits data.size)
  refuses : ∀ policy, (parse .unbounded data).result = .ok policy → ¬ policy.Fits limits data.size →
    ∃ header tree directives quantity actual, data = header.toUTF8 ∧
      Rule.serializedPolicy.tree header = .ok tree ∧
      List.Forall₂ (Occurs .unbounded header) (tree.search [.serializedDirective] 2) directives ∧
      policy = { ofDirectives directives with raw := some header } ∧
      limits.FirstExcess data.size directives quantity actual ∧ limits.of quantity < actual ∧
      (parse limits data).result = .error (.limitExceeded quantity (limits.of quantity) actual)
  fails : ∀ error, (parse .unbounded data).result = .error error →
    (parse limits data).result = .error error ∨ ∃ quantity limit actual,
      (parse limits data).result = .error (.limitExceeded quantity limit actual)

theorem exists_parse_iff_fits (hsize : data.size ≤ Limits.greatest)
    (h : (parse .unbounded data).result = .ok policy) :
    (∃ other, (parse limits data).result = .ok other) ↔ policy.Fits limits data.size := by
  obtain ⟨header, directives, hcontents, rfl⟩ := exists_contents_of_parse h
  obtain ⟨rfl, hmeans, -⟩ := contents_eq_ok_iff_means.mp hcontents
  have hfits :
      Fits limits header.toUTF8.size { ofDirectives directives with raw := some header } ↔ _ :=
    fits_iff_admit
  rw [hfits]
  constructor
  · rintro ⟨other, hother⟩
    obtain ⟨text, others, hlimited, -⟩ := exists_contents_of_parse hother
    have hsame := (restricts_contents hsize).eq_of_ok hlimited
    rw [hcontents] at hsame
    obtain ⟨rfl, rfl⟩ := Prod.mk.inj (Except.ok.inj hsame)
    exact (contents_eq_ok_iff_means.mp hlimited).2.2
  · intro hadmit
    exact ⟨_, result_parse_of_contents (contents_eq_ok_iff_means.mpr ⟨rfl, hmeans, hadmit⟩)⟩

/-- A policy that does not fit is refused for what is too great first. -/
theorem exists_firstExcess_of_parse (h : (parse .unbounded data).result = .ok policy)
    (hfits : ¬ policy.Fits limits data.size) :
    ∃ header tree directives quantity actual, data = header.toUTF8 ∧
      Rule.serializedPolicy.tree header = .ok tree ∧
      List.Forall₂ (Occurs .unbounded header) (tree.search [.serializedDirective] 2) directives ∧
      policy = { ofDirectives directives with raw := some header } ∧
      limits.FirstExcess data.size directives quantity actual ∧ limits.of quantity < actual ∧
      (parse limits data).result =
        .error (.limitExceeded quantity (limits.of quantity) actual) := by
  obtain ⟨header, directives, hcontents, hpolicy⟩ := exists_contents_of_parse h
  obtain ⟨tree, hdata, -, htree, -, hread⟩ := contents_eq_ok_iff.mp hcontents
  have hoccurs := (mapM_eq_ok_iff.mp hread).imp fun node directive => occurs_of_ofTree
  have hadmit : ¬ limits.Admit header directives := by
    rw [hpolicy, hdata] at hfits
    exact fits_iff_admit.not.mp hfits
  obtain ⟨quantity, actual, hexcess⟩ := exists_firstExcess hadmit
  have hexcess' : limits.FirstExcess data.size directives quantity actual := hdata ▸ hexcess
  refine ⟨header, tree, directives, quantity, actual, hdata, htree, hoccurs, hpolicy, hexcess',
    hexcess.lt, ?_⟩
  rw [result_parse, contents_of_firstExcess hcontents hexcess']
  rfl

/-- **Limits only refuse, and refuse exactly.**  No header in memory is longer than the greatest
limit. -/
theorem limits_only_refuse (limits : Limits) (data : ByteArray)
    (hsize : data.size ≤ Limits.greatest) : OnlyRefuse limits data where
  same := by
    intro policy h
    exact (restricts_parse hsize).eq_of_ok h
  accepts_iff := by
    intro policy h
    exact exists_parse_iff_fits hsize h
  refuses := by
    intro policy h hfits
    exact exists_firstExcess_of_parse h hfits
  fails := by
    intro error h
    exact h ▸ (restricts_parse hsize).eq_or_refused

/-- A header with two sources where one is allowed. -/
theorem limits_only_refuse_spacedPolicy :
    "IMG-SRC  * 'SELF'".toUTF8.size ≤ Limits.greatest ∧
      OnlyRefuse ⟨16384, 256, 1⟩ "IMG-SRC  * 'SELF'".toUTF8 :=
  have hsize : "IMG-SRC  * 'SELF'".toUTF8.size ≤ Limits.greatest := by decide
  ⟨hsize, limits_only_refuse ⟨16384, 256, 1⟩ _ hsize⟩

end Policy

end ContentSecurity

import ContentSecurity.Proofs.Directive.Clause
import ContentSecurity.Proofs.Directive.Items
import ContentSecurity.Proofs.Source.Lists
import ContentSecurity.Proofs.Text.Joined
/-!
# Values of directives

Which values a directive of each kind can have (`Body.ReadFrom`), and that reading gives exactly
these (`Body.ofText_of_readFrom`, `ofText_eq_ok_iff`).  Reading is thereby a relation between the
written text and the value, in which no grammar rule and no order of trying is left.
-/

namespace ContentSecurity

open Text Grammar

/-- The text spells the values word by word, and has no blank at either end. -/
def SpellsAll {β : Type} (spells : List Char → β → Prop) (value : String) (bs : List β) : Prop :=
  Bare isBlank value.toList ∧ List.Forall₂ spells (words isBlank value.toList) bs

theorem SpellsAll.ne_nil {β : Type} {spells : List Char → β → Prop} {value : String} {bs : List β}
    (h : SpellsAll spells value bs) (hne : value ≠ "") : bs ≠ [] := by
  rcases h with ⟨hbare, hspelled⟩
  have hwords := (ends_spaced_words (fun hnil => hne (String.toList_eq_nil_iff.mp hnil)) hbare).1
  rintro rfl
  exact hwords (List.forall₂_nil_right_iff.mp hspelled)

theorem Limits.check_eq_ok_iff {limits : Limits} {quantity : Quantity} {actual : Nat} {u : Unit} :
    limits.check quantity actual = .ok u ↔ actual ≤ limits.of quantity := by
  unfold Limits.check
  split
  · rename_i h
    simpa using h
  · rename_i h
    simpa using h

theorem Webrtc.ofName?_eq_some_iff {name : String} {webrtc : Webrtc} :
    Webrtc.ofName? name = some webrtc ↔ name = webrtc.name := by
  constructor
  · intro h
    have hname := List.find?_some h
    exact (beq_iff_eq.mp hname).symm
  · rintro rfl
    cases webrtc <;> decide

namespace Directive

variable {limits : Limits} {value : String}

/-! ### Names of kinds -/

theorem Kind.ofName?_eq_some_iff {name : String} {kind : Kind} :
    Kind.ofName? name = some kind ↔ name = kind.name := by
  constructor
  · intro h
    have hname := List.find?_some h
    exact (beq_iff_eq.mp hname).symm
  · rintro rfl
    cases kind with
    | sourceList list => cases list <;> decide
    | _ => decide

theorem ListKind.name_injective {kind other : ListKind} (h : kind.name = other.name) :
    kind = other := by
  have hkind : Kind.ofName? kind.name = some (.sourceList kind) :=
    Kind.ofName?_eq_some_iff.mpr rfl
  have hother : Kind.ofName? kind.name = some (.sourceList other) :=
    Kind.ofName?_eq_some_iff.mpr h
  rw [hkind] at hother
  exact Kind.sourceList.inj (Option.some.inj hother)

/-! ### Sources -/

/-- What a source list of this kind may hold. -/
def ListKind.Allows : ListKind → Expression → Prop
  | .frameAncestors => Expression.IsAncestor
  | _ => Expression.IsAny

/-- The rule of a source list of this kind. -/
def ListKind.root (kind : ListKind) : Rule :=
  match kind with
  | .frameAncestors => .ancestorSourceListRoot
  | _ => .serializedSourceList

/-- The word `'none'` alone, or a list of sources that are allowed. -/
def SourcesFrom (kind : ListKind) (value : String) (sources : List Source) : Prop :=
  value = Source.noneText ∧ sources = [.none] ∨
    SpellsAll (Source.Spells kind.Allows) value sources

/-- There are not too many sources.  The word `'none'` is not counted. -/
def SourcesWithin (limits : Limits) (sources : List Source) : Prop :=
  sources = [.none] ∨ sources.length ≤ limits.sources

/-- The word `'none'` does not start with the mark of a quoted source. -/
theorem not_mem_marks_of_noneText {mark payload : List Char}
    (h : Source.noneText.toList = '\x27' :: (mark ++ payload)) :
    mark.map Char.toLower ∉ Expression.marks := by
  have hlower := congrArg (List.map Char.toLower) (List.cons.inj h).2
  rw [List.map_append] at hlower
  have hfront : mark.map Char.toLower <+: "none'".toList := ⟨_, hlower.symm⟩
  have hnone : ∀ mark ∈ Expression.marks, ¬ mark <+: "none'".toList := by decide
  exact fun hmark => hnone _ hmark hfront

theorem not_writtenAs_noneText (e : Expression) : ¬ e.WrittenAs Source.noneText := by
  intro h
  cases hquoted : e.isQuoted with
  | true =>
    obtain ⟨text, htoken, hmark⟩ := h.exists_mark hquoted
    exact not_mem_marks_of_noneText htoken (hmark ▸ h.mark_mem hquoted)
  | false =>
    obtain ⟨c, rest, htoken, hc⟩ := h.exists_uncut hquoted
    exact hc (List.cons.inj htoken).1.symm

theorem not_spellsAll_noneText {allows : Expression → Prop} {sources : List Source} :
    ¬ SpellsAll (Source.Spells allows) Source.noneText sources := by
  rintro ⟨-, hspelled⟩
  have hwords : words isBlank Source.noneText.toList = [Source.noneText.toList] :=
    words_of_run (by decide) (by decide)
  rw [hwords, List.forall₂_cons_left_iff] at hspelled
  rcases hspelled with ⟨source, others, ⟨e, -, hwritten, -⟩, -⟩
  rw [String.ofList_toList] at hwritten
  exact not_writtenAs_noneText e hwritten

theorem ne_none_of_spellsAll {allows : Expression → Prop} {sources : List Source}
    (h : SpellsAll (Source.Spells allows) value sources) : sources ≠ [.none] := by
  rintro rfl
  obtain ⟨word, others, ⟨e, -, -, hsource⟩, -⟩ := List.forall₂_cons_right_iff.mp h.2
  cases hsource

/-- The rule of an entry of such a list. -/
def ListKind.entry : ListKind → Rule
  | .frameAncestors => .ancestorSource
  | _ => .sourceExpression

/-- What an entry of such a list looks like. -/
def ListKind.item : ListKind → Phrase
  | .frameAncestors => .ancestorSource
  | _ => .sourceExpression

theorem ListKind.isReader_item (kind : ListKind) :
    IsReader kind.item kind.entry (Source.Spells kind.Allows)
      (fun input => Source.ofEntry input kind.root) := by
  cases kind with
  | frameAncestors => exact isReader_ancestor _
  | _ => exact isReader_source _

theorem ListKind.phrase_root (kind : ListKind) : kind.root.phrase = .list kind.root kind.item := by
  cases kind <;> rfl

/-- The entries are found by the search that interpreting a list makes, and nothing else is. -/
theorem ListKind.sought_entry (kind : ListKind) :
    kind.entry ∈ [Rule.sourceExpression, .ancestorSource] ∧
      kind.root ∉ [Rule.sourceExpression, .ancestorSource] := by
  cases kind <;> decide

theorem exists_interpret_iff {kind : ListKind} {sources : List Source} :
    (∃ tree, kind.root.tree value = .ok tree ∧
      Source.interpret value kind.root tree = pure sources) ↔
      value ≠ "" ∧ SpellsAll (Source.Spells kind.Allows) value sources := by
  rw [ne_eq, ← String.toList_eq_nil_iff]
  cases kind with
  | frameAncestors => exact exists_ancestors_iff
  | _ => exact exists_sources_iff

/-- Every entry of a matched list has a source. -/
theorem exists_interpret_of_tree {kind : ListKind} {tree : Tree}
    (h : kind.root.tree value = .ok tree) :
    ∃ sources, Source.interpret value kind.root tree = pure sources := by
  obtain ⟨hentry, hroot⟩ := kind.sought_entry
  have hlist : kind.root.IsList kind.item := Or.inl kind.phrase_root
  obtain ⟨found, sources, hsingle, hsources, -⟩ :=
    kind.isReader_item.exists_of_trees _ hlist hentry hroot (by decide)
      (hlist.tree_eq_ok_iff.mp h)
  rw [List.singleton_inj.mp hsingle]
  exact ⟨sources, hsources⟩

namespace Body

theorem sourcesOf_noneText (limits : Limits) (kind : ListKind) :
    sourcesOf limits kind Source.noneText = pure [.none] := by
  unfold sourcesOf
  rw [if_pos rfl]

theorem sourcesOf_empty (limits : Limits) (kind : ListKind) :
    sourcesOf limits kind "" = pure [] := by
  unfold sourcesOf
  rw [if_neg (by decide), if_pos (by decide)]

/-- Reading a list that is neither `'none'` nor empty, step by step. -/
theorem result_sourcesOf_of_ne {kind : ListKind} (hnone : value ≠ Source.noneText)
    (hne : value ≠ "") :
    (sourcesOf limits kind value).result = (do
      let tree ← kind.root.tree value
      let sources ← (Source.interpret value kind.root tree).result
      if sources.isEmpty then
        .error (kind.root.mismatch value 0)
      else do
        limits.check .sourceCount sources.length
        return sources) := by
  have hempty : ¬ value.isEmpty = true := by simpa using hne
  unfold sourcesOf
  rw [if_neg hnone, if_neg hempty]
  change (Reading.ofExcept (kind.root.tree value) >>= fun tree => _).result = _
  rw [Reading.result_bind]
  congr 1
  funext tree
  rw [Reading.result_bind]
  congr 1
  funext sources
  split
  · rfl
  · rw [Reading.result_bind]
    rfl

theorem sourcesOf_of_ne {kind : ListKind} {sources : List Source} (hnone : value ≠ Source.noneText)
    (hne : value ≠ "") :
    (sourcesOf limits kind value).result = .ok sources ↔
      (∃ tree, kind.root.tree value = .ok tree ∧
        Source.interpret value kind.root tree = pure sources) ∧
      sources ≠ [] ∧ sources.length ≤ limits.sources := by
  rw [result_sourcesOf_of_ne hnone hne, bind_eq_ok_iff]
  constructor
  · rintro ⟨tree, htree, h⟩
    obtain ⟨found, hfound, h⟩ := bind_eq_ok_iff.mp h
    by_cases hnil : found.isEmpty
    · rw [if_pos hnil] at h
      cases h
    · rw [if_neg hnil] at h
      obtain ⟨u, hcheck, hpure⟩ := bind_eq_ok_iff.mp h
      obtain rfl := Except.ok.inj hpure
      have hread := Reading.eq_pure_of_result (exists_interpret_of_tree htree) hfound
      exact ⟨⟨tree, htree, hread⟩, by simpa using hnil, Limits.check_eq_ok_iff.mp hcheck⟩
  · rintro ⟨⟨tree, htree, hfound⟩, hnil, hlength⟩
    refine ⟨tree, htree, bind_eq_ok_iff.mpr ⟨sources, congrArg Reading.result hfound, ?_⟩⟩
    rw [if_neg (by simpa using hnil)]
    exact bind_eq_ok_iff.mpr ⟨(), Limits.check_eq_ok_iff.mpr hlength, rfl⟩

theorem sourcesOf_eq_ok_iff {kind : ListKind} {sources : List Source} :
    (sourcesOf limits kind value).result = .ok sources ↔
      SourcesFrom kind value sources ∧ SourcesWithin limits sources := by
  by_cases hnone : value = Source.noneText
  · rw [hnone, sourcesOf_noneText, Reading.result_pure, Except.ok.injEq]
    constructor
    · rintro rfl
      exact ⟨Or.inl ⟨rfl, rfl⟩, Or.inl rfl⟩
    · rintro ⟨⟨-, hsources⟩ | hspelled, -⟩
      · exact hsources.symm
      · exact absurd hspelled not_spellsAll_noneText
  by_cases hempty : value = ""
  · rw [hempty, sourcesOf_empty, Reading.result_pure, Except.ok.injEq]
    constructor
    · rintro rfl
      exact ⟨Or.inr ⟨by simp, by simp⟩, Or.inr (Nat.zero_le _)⟩
    · rintro ⟨⟨heq, -⟩ | ⟨-, hspelled⟩, -⟩
      · exact absurd heq (by decide)
      · simpa using hspelled
  rw [sourcesOf_of_ne hnone hempty, exists_interpret_iff]
  constructor
  · rintro ⟨⟨-, hspelled⟩, -, hlength⟩
    exact ⟨Or.inr hspelled, Or.inr hlength⟩
  · rintro ⟨⟨heq, -⟩ | hspelled, hwithin⟩
    · exact absurd heq hnone
    · exact ⟨⟨hempty, hspelled⟩, hspelled.ne_nil hempty,
        hwithin.resolve_left (ne_none_of_spellsAll hspelled)⟩

/-! ### Other lists -/

theorem leaves_map_eq_ok_iff {root leaf : Rule} {f : String → String} {items : List String} :
    (∃ texts, leaves root leaf value = .ok texts ∧ texts.map f = items) ↔
      ∃ tree, root.tree value = .ok tree ∧
        (tree.search [leaf] 2).mapM (fun node => (pure (f (node.text value)) : Reading String)) =
          pure items := by
  have hpure : ∀ nodes : List Tree,
      nodes.mapM (fun node => (pure (f (node.text value)) : Reading String)) =
        pure (nodes.map fun node => f (node.text value)) := fun nodes => List.mapM_pure
  constructor
  · rintro ⟨texts, h, rfl⟩
    obtain ⟨tree, htree, htexts⟩ := bind_eq_ok_iff.mp h
    obtain rfl := Except.ok.inj htexts
    exact ⟨tree, htree, (hpure _).trans (by rw [List.map_map]; rfl)⟩
  · rintro ⟨tree, htree, h⟩
    rw [hpure, Reading.pure_inj] at h
    refine ⟨_, bind_eq_ok_iff.mpr ⟨tree, htree, rfl⟩, ?_⟩
    rw [List.map_map]
    exact h

theorem exists_mismatch_of_leaves {root leaf : Rule} {error : Error}
    (h : leaves root leaf value = .error error) :
    ∃ position, error = root.mismatch value position := by
  unfold leaves at h
  cases htree : root.tree value with
  | error other =>
    rw [htree] at h
    rw [← Except.error.inj h]
    exact Rule.exists_mismatch_of_tree htree
  | ok tree =>
    rw [htree] at h
    cases h

theorem leaves_list_iff {item : Phrase} {root leaf : Rule} {lexeme : Lexeme} {f : String → String}
    {items : List String} (hlist : root.phrase = .list root item) (hroot : root ≠ leaf)
    (hend : leaf ≠ .endOfInput)
    (hreader : IsReader item leaf (IsToken lexeme f)
      (fun input tree => pure (f (tree.text input)))) :
    (∃ texts, leaves root leaf value = .ok texts ∧ texts.map f = items) ↔
      items ≠ [] ∧ SpellsAll (IsToken lexeme f) value items := by
  rw [leaves_map_eq_ok_iff, hreader.exists_list_iff hlist (by simp) (by simpa using hroot)
    (by simpa using hend.symm)]
  constructor
  · rintro ⟨hne, hspelled⟩
    have hspelled' : SpellsAll (IsToken lexeme f) value items := hspelled
    exact ⟨hspelled'.ne_nil fun hnil => hne (String.toList_eq_nil_iff.mpr hnil), hspelled⟩
  · rintro ⟨hne, hspelled⟩
    refine ⟨?_, hspelled⟩
    intro hnil
    apply hne
    rcases hspelled with ⟨-, hwords⟩
    simpa [hnil] using hwords

theorem leaves_sandbox_iff {tokens : List String} :
    leaves .sandboxRoot .token value = .ok tokens ↔
      SpellsAll (IsToken .sandboxToken id) value tokens := by
  have h : (∃ tree, Rule.sandboxRoot.tree value = .ok tree ∧ (tree.search [.token] 2).mapM
      (fun node => (pure (id (node.text value)) : Reading String)) = pure tokens) ↔ _ :=
    isReader_sandboxToken.exists_listOrNothing_iff rfl (by simp) (by simp) (by simp)
  rw [← leaves_map_eq_ok_iff] at h
  rw [SpellsAll, ← h]
  simp

theorem leaves_reportUri_iff {uris : List String} :
    (∃ texts, leaves .reportUriRoot .uriReference value = .ok texts ∧ texts.map id = uris) ↔
      uris ≠ [] ∧ SpellsAll (IsToken .uriReference id) value uris :=
  leaves_list_iff rfl (by decide) (by decide) isReader_uriReference

theorem leaves_sinkGroup_iff {groups : List String} :
    (∃ texts, leaves .requireTrustedTypesForRoot .trustedTypesSinkGroup value = .ok texts ∧
        texts.map quotedName = groups) ↔
      groups ≠ [] ∧ SpellsAll (IsToken .trustedTypesSinkGroup quotedName) value groups :=
  leaves_list_iff rfl (by decide) (by decide) isReader_sinkGroup

/-- A matched list of trusted types has a meaning for all its entries. -/
theorem exists_trustedTypes_of_tree {tree : Tree}
    (h : Rule.trustedTypesRoot.tree value = .ok tree) :
    ∃ entries, (tree.search [.ttExpression] 2).mapM (trustedTypeOf value) = pure entries := by
  have hlist : Rule.IsList .trustedTypesRoot .ttExpression := Or.inr rfl
  obtain ⟨found, entries, hsingle, hentries, -⟩ :=
    isReader_ttExpression.exists_of_trees [.ttExpression] hlist (by simp) (by simp) (by simp)
      (hlist.tree_eq_ok_iff.mp h)
  rw [List.singleton_inj.mp hsingle]
  exact ⟨entries, hentries⟩

theorem trustedTypesOf_eq_ok_iff {entries : List TrustedType} :
    (trustedTypesOf value).result = .ok entries ↔
      SpellsAll (fun token entry => entry.WrittenAs token) value entries := by
  have h : (∃ tree, Rule.trustedTypesRoot.tree value = .ok tree ∧
      (tree.search [.ttExpression] 2).mapM (trustedTypeOf value) = pure entries) ↔ _ :=
    isReader_ttExpression.exists_listOrNothing_iff rfl (by simp) (by simp) (by simp)
  rw [SpellsAll, ← h]
  unfold trustedTypesOf
  rw [Reading.result_bind_eq_ok_iff]
  constructor
  · rintro ⟨tree, htree, hentries⟩
    exact ⟨tree, htree, Reading.eq_pure_of_result (exists_trustedTypes_of_tree htree) hentries⟩
  · rintro ⟨tree, htree, hentries⟩
    exact ⟨tree, htree, congrArg Reading.result hentries⟩

theorem result_ignore (kind : Kind) (value : String) : (ignore kind value).result = .ok () := by
  unfold ignore
  split <;> rfl

/-! ### Values -/

/-- The kind of directive that has such a value; none if the value is not understood. -/
def kind? : Body → Option Kind
  | .sourceList kind _ => some (.sourceList kind)
  | .sandbox _ => some .sandbox
  | .reportUri _ => some .reportUri
  | .reportTo _ => some .reportTo
  | .requireSriFor _ => some .requireSriFor
  | .trustedTypes _ => some .trustedTypes
  | .requireTrustedTypesFor _ => some .requireTrustedTypesFor
  | .webrtc _ => some .webrtc
  | .upgradeInsecureRequests => some .upgradeInsecureRequests
  | .blockAllMixedContent => some .blockAllMixedContent
  | .other => none

theorem kind?_eq_none_iff {body : Body} : body.kind? = none ↔ body = .other := by
  cases body <;> simp [kind?]

theorem isOther_iff {body : Body} : body.isOther ↔ body.kind? = none := by
  cases body <;> simp [isOther, kind?]

/-- What a text means as the value of a directive. -/
def ReadFrom (value : String) : Body → Prop
  | .sourceList kind sources => SourcesFrom kind value sources
  | .sandbox tokens => SpellsAll (IsToken .sandboxToken id) value tokens
  | .reportUri uris => uris ≠ [] ∧ SpellsAll (IsToken .uriReference id) value uris
  | .reportTo group => group = value
  | .requireSriFor resources => resources = (fields (· == ' ') value).map String.toLower
  | .trustedTypes entries => SpellsAll (fun token entry => entry.WrittenAs token) value entries
  | .requireTrustedTypesFor groups =>
    groups ≠ [] ∧ SpellsAll (IsToken .trustedTypesSinkGroup quotedName) value groups
  | .webrtc choice => value = choice.name
  | .upgradeInsecureRequests | .blockAllMixedContent | .other => True

/-- The value is not too long. -/
def Within (limits : Limits) : Body → Prop
  | .sourceList _ sources => SourcesWithin limits sources
  | _ => True

/-- Reading the value of a directive gives a value of its kind, which is what the text means. -/
theorem readFrom_of_ofText {kind : Kind} {body : Body}
    (h : (ofText limits kind value).result = .ok body) :
    body.kind? = some kind ∧ body.ReadFrom value ∧ body.Within limits := by
  cases kind with
  | sourceList kind =>
    obtain ⟨sources, hsources, hpure⟩ := Reading.result_bind_eq_ok_iff.mp h
    obtain rfl := Except.ok.inj hpure
    obtain ⟨hfrom, hwithin⟩ := sourcesOf_eq_ok_iff.mp hsources
    exact ⟨rfl, hfrom, hwithin⟩
  | sandbox =>
    obtain ⟨tokens, htokens, hpure⟩ := Reading.result_bind_eq_ok_iff.mp h
    obtain rfl := Except.ok.inj hpure
    exact ⟨rfl, leaves_sandbox_iff.mp htokens, trivial⟩
  | reportUri =>
    obtain ⟨uris, huris, hpure⟩ := Reading.result_bind_eq_ok_iff.mp h
    obtain rfl := Except.ok.inj hpure
    exact ⟨rfl, leaves_reportUri_iff.mp ⟨uris, huris, List.map_id uris⟩, trivial⟩
  | reportTo =>
    obtain rfl := Except.ok.inj h
    exact ⟨rfl, rfl, trivial⟩
  | requireSriFor =>
    obtain rfl := Except.ok.inj h
    exact ⟨rfl, rfl, trivial⟩
  | trustedTypes =>
    obtain ⟨entries, hentries, hpure⟩ := Reading.result_bind_eq_ok_iff.mp h
    obtain rfl := Except.ok.inj hpure
    exact ⟨rfl, trustedTypesOf_eq_ok_iff.mp hentries, trivial⟩
  | requireTrustedTypesFor =>
    obtain ⟨groups, hgroups, hpure⟩ := Reading.result_bind_eq_ok_iff.mp h
    obtain rfl := Except.ok.inj hpure
    exact ⟨rfl, leaves_sinkGroup_iff.mp ⟨groups, hgroups, rfl⟩, trivial⟩
  | webrtc =>
    simp only [ofText] at h
    split at h
    · rename_i choice hchoice
      obtain rfl := Except.ok.inj h
      exact ⟨rfl, Webrtc.ofName?_eq_some_iff.mp hchoice, trivial⟩
    · cases h
  | upgradeInsecureRequests =>
    obtain ⟨_, -, hpure⟩ := Reading.result_bind_eq_ok_iff.mp h
    obtain rfl := Except.ok.inj hpure
    exact ⟨rfl, trivial, trivial⟩
  | blockAllMixedContent =>
    obtain ⟨_, -, hpure⟩ := Reading.result_bind_eq_ok_iff.mp h
    obtain rfl := Except.ok.inj hpure
    exact ⟨rfl, trivial, trivial⟩

theorem ofText_of_readFrom {kind : Kind} {body : Body} (hkind : body.kind? = some kind)
    (hread : body.ReadFrom value) (hwithin : body.Within limits) :
    (ofText limits kind value).result = .ok body := by
  cases body with
  | sourceList list sources =>
    obtain rfl := Option.some.inj hkind
    exact Reading.result_bind_eq_ok_iff.mpr
      ⟨sources, sourcesOf_eq_ok_iff.mpr ⟨hread, hwithin⟩, rfl⟩
  | sandbox tokens =>
    obtain rfl := Option.some.inj hkind
    exact Reading.result_bind_eq_ok_iff.mpr ⟨tokens, leaves_sandbox_iff.mpr hread, rfl⟩
  | reportUri uris =>
    obtain rfl := Option.some.inj hkind
    obtain ⟨texts, htexts, rfl⟩ := leaves_reportUri_iff.mpr hread
    exact Reading.result_bind_eq_ok_iff.mpr ⟨texts, htexts, by rw [List.map_id]; rfl⟩
  | reportTo group =>
    obtain rfl := Option.some.inj hkind
    obtain rfl : group = value := hread
    rfl
  | requireSriFor resources =>
    obtain rfl := Option.some.inj hkind
    obtain rfl : resources = (fields (· == ' ') value).map String.toLower := hread
    rfl
  | trustedTypes entries =>
    obtain rfl := Option.some.inj hkind
    exact Reading.result_bind_eq_ok_iff.mpr ⟨entries, trustedTypesOf_eq_ok_iff.mpr hread, rfl⟩
  | requireTrustedTypesFor groups =>
    obtain rfl := Option.some.inj hkind
    obtain ⟨texts, htexts, rfl⟩ := leaves_sinkGroup_iff.mpr hread
    exact Reading.result_bind_eq_ok_iff.mpr ⟨texts, htexts, rfl⟩
  | webrtc choice =>
    obtain rfl := Option.some.inj hkind
    have hname : Webrtc.ofName? value = some choice := Webrtc.ofName?_eq_some_iff.mpr hread
    simp only [ofText, hname, Reading.result_pure]
  | upgradeInsecureRequests =>
    obtain rfl := Option.some.inj hkind
    exact Reading.result_bind_eq_ok_iff.mpr ⟨(), result_ignore .., rfl⟩
  | blockAllMixedContent =>
    obtain rfl := Option.some.inj hkind
    exact Reading.result_bind_eq_ok_iff.mpr ⟨(), result_ignore .., rfl⟩
  | other => cases hkind

end Body

/-! ### Directives -/

/-- What a name and a value mean as a directive. -/
structure ReadFrom (rawName rawValue : String) (directive : Directive) : Prop where
  name_eq : directive.name = rawName.toLower
  rawName_eq : directive.rawName = rawName
  rawValue_eq : directive.rawValue = rawValue
  kind_eq : Kind.ofName? directive.name = directive.body.kind?
  body : directive.body.ReadFrom rawValue

/-- What a clause means. -/
def ReadClause (clause : List Char) (directive : Directive) : Prop :=
  directive.ReadFrom (.ofList (clauseName clause)) (.ofList (clauseValue clause))

/-- Reading a directive, step by step. -/
theorem result_ofText (limits : Limits) (rawName rawValue : String) :
    (ofText limits rawName rawValue).result = (do
      let body ←
        match Kind.ofName? rawName.toLower with
        | some kind =>
          (Body.ofText limits kind rawValue).result.mapError (.inDirective rawName.toLower)
        | none => .ok .other
      return ⟨rawName.toLower, rawName, rawValue, body⟩) := by
  unfold ofText
  rw [Reading.result_bind]
  cases Kind.ofName? rawName.toLower with
  | none => rfl
  | some kind => exact Reading.result_bind _ _

/-- **Reading a directive** gives what its name and its value mean, if there are not too many
sources. -/
theorem ofText_eq_ok_iff {rawName rawValue : String} {directive : Directive} :
    (ofText limits rawName rawValue).result = .ok directive ↔
      directive.ReadFrom rawName rawValue ∧ directive.body.Within limits := by
  unfold ofText
  rw [Reading.result_bind_eq_ok_iff]
  constructor
  · rintro ⟨_, -, h⟩
    cases hkind : Kind.ofName? rawName.toLower with
    | none =>
      simp only [hkind] at h
      obtain ⟨body, hbody, hpure⟩ := Reading.result_bind_eq_ok_iff.mp h
      obtain rfl := Except.ok.inj hbody
      obtain rfl := Except.ok.inj hpure
      exact ⟨⟨rfl, rfl, rfl, hkind, trivial⟩, trivial⟩
    | some kind =>
      simp only [hkind] at h
      obtain ⟨body, hbody, hpure⟩ := Reading.result_bind_eq_ok_iff.mp h
      obtain rfl := Except.ok.inj hpure
      obtain ⟨hsame, hread, hwithin⟩ :=
        Body.readFrom_of_ofText (Reading.result_mapError_eq_ok_iff.mp hbody)
      exact ⟨⟨rfl, rfl, rfl, by rw [hkind, hsame], hread⟩, hwithin⟩
  · rintro ⟨⟨hname, rfl, rfl, hkind, hread⟩, hwithin⟩
    refine ⟨(), rfl, ?_⟩
    rw [hname] at hkind
    cases hbody : directive.body.kind? with
    | none =>
      rw [hbody] at hkind
      simp only [hkind]
      refine Reading.result_bind_eq_ok_iff.mpr ⟨directive.body, ?_, ?_⟩
      · rw [Body.kind?_eq_none_iff.mp hbody, Reading.result_pure]
      · rw [← hname, Reading.result_pure]
    | some kind =>
      rw [hbody] at hkind
      simp only [hkind]
      refine Reading.result_bind_eq_ok_iff.mpr ⟨directive.body, ?_, ?_⟩
      · exact Reading.result_mapError_eq_ok_iff.mpr (Body.ofText_of_readFrom hbody hread hwithin)
      · rw [← hname, Reading.result_pure]

end Directive

end ContentSecurity

import ContentSecurity.Proofs.Source.Reading
/-!
# Source lists

A source list, and a list of ancestors, is read word by word: it is matched if every word is a
source of one of the forms, and interpreting the tree gives the meaning of each.  The alternatives
of a source expression are tried in order, and none of them gets in the way of a later one.  So the
grammar of ancestors is the other one with some of the alternatives taken out
(`ancestors_iff_sources`).
-/

namespace ContentSecurity

open Text Grammar
open String (utf8Len)

variable {token rest : List Char} {allows : Expression → Prop} {e : Expression}

/-- The word is written as an allowed source, and the source keeps the word. -/
def Source.Spells (allows : Expression → Prop) (token : List Char) (source : Source) : Prop :=
  ∃ e, allows e ∧ e.WrittenAs (.ofList token) ∧ source = .written (.ofList token) e

/-! ### The order of the alternatives -/

theorem exists_utf8Len_eq (n : Nat) : ∃ front, utf8Len front = n := by
  induction n with
  | zero => exact ⟨[], rfl⟩
  | succ n ih =>
    rcases ih with ⟨front, hfront⟩
    have hone : 'a'.utf8Size = 1 := by decide
    exact ⟨'a' :: front, by rw [String.utf8Len_cons, hone, hfront, Nat.add_comm]⟩

theorem IsAlternative.exists_writtenAs {form : Rule} {phrase : Phrase} {offset : Nat}
    {trees : List Tree} (h : IsAlternative allows form phrase)
    (hderives : phrase.Derives offset token rest trees) :
    ∃ e, allows e ∧ e.WrittenAs (.ofList token) ∧ e.form = form ∧
      (e.isQuoted = false → Stops (!isBlank ·) rest) := by
  obtain ⟨front, rfl⟩ := exists_utf8Len_eq offset
  have hinput : (String.ofList (front ++ (token ++ rest))).toList = front ++ (token ++ rest) :=
    String.toList_ofList
  obtain ⟨tree, e, -, hread, hallowed, hform, hbreak⟩ := h.reads hinput hderives
  exact ⟨e, hallowed, hread.written, hform, hbreak⟩

/-- What is derived as an alternative is taken where nothing follows. -/
theorem IsAlternative.takes_of_derives {form : Rule} {phrase : Phrase} {offset : Nat}
    {trees : List Tree} (h : IsAlternative allows form phrase)
    (hderives : phrase.Derives offset token rest trees) : phrase.Takes token [] := by
  obtain ⟨e, hallowed, hwritten, hform, -⟩ := h.exists_writtenAs hderives
  exact h.takes hallowed hform hwritten stops_nil

/-- Two sources in front of one text are of one form, if breaks follow them.  A quoted one needs no
break, since its mark tells it from the others. -/
theorem Expression.form_eq_of_append {a b : Expression} {s t : List Char}
    (ha : a.WrittenAs (.ofList s)) (hb : b.WrittenAs (.ofList token)) (heq : token ++ rest = s ++ t)
    (hbreak : a.isQuoted = false → Stops (!isBlank ·) t) (hrest : Stops (!isBlank ·) rest) :
    a.form = b.form := by
  cases hqa : a.isQuoted with
  | true =>
    obtain ⟨text, hs, -⟩ := ha.exists_mark hqa
    rw [String.toList_ofList] at hs
    cases hqb : b.isQuoted with
    | true =>
      have hfront : (String.ofList s).toList <+: s ++ t := by
        rw [String.toList_ofList]
        exact List.prefix_append s t
      have hfront' : (String.ofList token).toList <+: s ++ t := by
        rw [String.toList_ofList, ← heq]
        exact List.prefix_append token rest
      exact form_eq_of_mark hqa hqb (ha.mark_eq hb hqa hqb hfront hfront')
    | false =>
      obtain ⟨c, tail, htoken, hc⟩ := hb.exists_uncut hqb
      rw [String.toList_ofList] at htoken
      rw [hs, htoken, List.cons_append, List.cons_append, List.cons.injEq] at heq
      exact absurd heq.1 hc
  | false =>
    have hword : ∀ {x : Expression} {text : List Char}, x.WrittenAs (.ofList text) →
        ∀ c ∈ text, (!isBlank c) = true := by
      intro x text hx c hc
      have hvisible := hx.forall_isValueChar c (by rwa [String.toList_ofList])
      simp [isBlank_eq_false_of_isValueChar hvisible]
    have hsame := (append_inj_of_stops heq (hword hb) hrest (hword ha) (hbreak hqa)).1
    rw [← hsame] at ha
    rw [ha.unique hb]

theorem IsAlternative.fails {form : Rule} {phrase : Phrase} (h : IsAlternative allows form phrase)
    (hwritten : e.WrittenAs (.ofList token)) (hform : form ≠ e.form)
    (hrest : Stops (!isBlank ·) rest) : phrase.Fails (token ++ rest) := by
  apply Phrase.fails_of_forall_prefix
  intro s t offset trees heq hderives
  obtain ⟨a, -, ha, haform, hbreak⟩ := h.exists_writtenAs hderives
  apply hform
  rw [← haform]
  exact Expression.form_eq_of_append ha hwritten heq hbreak hrest

/-- **The order of the alternatives does not matter**: a source is taken if one of them is of its
form. -/
theorem takes_choice {alternatives : List (Rule × Phrase)}
    (hall : ∀ p ∈ alternatives, IsAlternative allows p.1 p.2) (hallowed : allows e)
    (hmem : ∃ p ∈ alternatives, p.1 = e.form) (hwritten : e.WrittenAs (.ofList token))
    (hrest : Stops (!isBlank ·) rest) :
    (Phrase.oneOf (alternatives.map Prod.snd)).Takes token rest := by
  induction alternatives with
  | nil => simp at hmem
  | cons p others ih =>
    rw [List.map_cons]
    by_cases hform : p.1 = e.form
    · exact ((hall p (by simp)).takes hallowed hform.symm hwritten hrest).oneOf_cons _
    · have hothers : ∃ q ∈ others, q.1 = e.form := by simpa [hform] using hmem
      apply Phrase.Takes.oneOf_of_fails
      · exact ih (fun q hq => hall q (List.mem_cons_of_mem _ hq)) hothers
      · exact (hall p (by simp)).fails hwritten hform hrest

theorem isReader_choice {alternatives : List (Rule × Phrase)} (rule list : Rule)
    (hall : ∀ p ∈ alternatives, IsAlternative allows p.1 p.2)
    (hcover : ∀ e, allows e → ∃ p ∈ alternatives, p.1 = e.form) :
    IsReader (.node rule (.oneOf (alternatives.map Prod.snd))) rule (Source.Spells allows)
      (fun input => Source.ofEntry input list) where
  isItem := by
    apply Phrase.itemOf_node
    intro offset token rest trees hderives
    obtain ⟨phrase, hmem, hphrase⟩ := Phrase.derives_oneOf.mp hderives
    obtain ⟨p, hp, rfl⟩ := List.mem_map.mp hmem
    obtain ⟨e, -, hwritten, -⟩ := (hall p hp).exists_writtenAs hphrase
    have hvisible := hwritten.forall_isValueChar
    have hne := hwritten.ne_nil
    rw [String.toList_ofList] at hvisible hne
    exact ⟨hne, hvisible⟩
  sound := by
    rintro input token tree ⟨front, back, hinput, children, hderives, hsingle⟩
    obtain ⟨phrase, hmem, hphrase⟩ := Phrase.derives_oneOf.mp hderives
    obtain ⟨p, hp, rfl⟩ := List.mem_map.mp hmem
    obtain ⟨child, e, rfl, hread, hallowed, -⟩ := (hall p hp).reads hinput hphrase
    obtain rfl := List.singleton_inj.mp hsingle
    refine ⟨.written (.ofList token) e, ?_, e, hallowed, hread.written, rfl⟩
    simp only [Source.ofEntry, hread.meaning, hread.text]
    rfl
  complete := by
    rintro token rest source ⟨e, hallowed, hwritten, -⟩ hrest
    exact (takes_choice hall hallowed (hcover e hallowed) hwritten hrest).node
  unique := by
    rintro token source other ⟨e, -, hwritten, rfl⟩ ⟨e', -, hwritten', rfl⟩
    rw [hwritten.unique hwritten']

/-! ### The two grammars -/

/-- Every source may stand in a source list. -/
def Expression.IsAny (_ : Expression) : Prop :=
  True

/-- What may stand in a list of ancestors. -/
def Expression.IsAncestor : Expression → Prop
  | .scheme _ | .host _ => True
  | .keyword word => word = "self"
  | .nonce _ | .hash .. => False

/-- The alternatives of a source expression with the forms that they read. -/
def sourceAlternatives : List (Rule × Phrase) :=
  [(.schemeSource, .schemeSource), (.hostSource, .hostSource), (.keywordSource, .keywordSource),
    (.nonceSource, .nonceSource), (.hashSource, .hashSource)]

/-- The alternatives of an ancestor with the forms that they read. -/
def ancestorAlternatives : List (Rule × Phrase) :=
  [(.schemeSource, .schemeSource), (.hostSource, .hostSource),
    (.keywordSource, .ancestorKeywordSource)]

theorem isAlternative_source :
    ∀ p ∈ sourceAlternatives, IsAlternative Expression.IsAny p.1 p.2 := by
  have hkeyword : IsAlternative Expression.IsAny .keywordSource Phrase.keywordSource :=
    isAlternative_keyword (fun _ => id) (fun word hword => by simp [Expression.IsAny, hword])
      (Or.inl rfl)
  simp only [sourceAlternatives, List.forall_mem_cons]
  exact ⟨isAlternative_scheme fun _ => trivial, isAlternative_host fun _ => trivial, hkeyword,
    isAlternative_nonce fun _ => trivial, isAlternative_hash fun _ _ => trivial, by simp⟩

theorem isAlternative_ancestor :
    ∀ p ∈ ancestorAlternatives, IsAlternative Expression.IsAncestor p.1 p.2 := by
  have hkeyword : IsAlternative Expression.IsAncestor .keywordSource Phrase.ancestorKeywordSource :=
    isAlternative_keyword (by decide)
      (fun word _ => by simp [Expression.IsAncestor, ancestorKeywords]) (Or.inr rfl)
  simp only [ancestorAlternatives, List.forall_mem_cons]
  exact ⟨isAlternative_scheme fun _ => trivial, isAlternative_host fun _ => trivial, hkeyword,
    by simp⟩

theorem isReader_source (list : Rule) :
    IsReader Phrase.sourceExpression .sourceExpression (Source.Spells Expression.IsAny)
      (fun input => Source.ofEntry input list) := by
  apply isReader_choice .sourceExpression list isAlternative_source
  intro e _
  cases e <;> simp [sourceAlternatives, Expression.form]

theorem isReader_ancestor (list : Rule) :
    IsReader Phrase.ancestorSource .ancestorSource (Source.Spells Expression.IsAncestor)
      (fun input => Source.ofEntry input list) := by
  apply isReader_choice .ancestorSource list isAlternative_ancestor
  intro e hallowed
  cases e <;> simp_all [ancestorAlternatives, Expression.form, Expression.IsAncestor]

/-! ### Source lists -/

/-- **A source list is read word by word.**  A text is matched if and only if it is not empty, has
no blank at either end, and each of its words is of one of the five forms.  A word is of one form
and has one meaning, and interpreting the tree gives the meaning of each word, in order. -/
theorem serializedSourceList_reads_words (value : String) :
    ((∃ trees, Rule.serializedSourceList.trees value = .ok trees) ↔
      value ≠ "" ∧ Bare isBlank value.toList ∧
        ∀ token ∈ fields isBlank value, ∃ e : Expression, e.WrittenAs token) ∧
    (∀ (token : String) (a b : Expression), a.WrittenAs token → b.WrittenAs token → a = b) ∧
    ∀ trees, Rule.serializedSourceList.trees value = .ok trees →
      ∃ tree sources, trees = [tree] ∧
        Source.interpret value .serializedSourceList tree = pure sources ∧
        List.Forall₂ (fun token source => ∃ e : Expression, e.WrittenAs token ∧
          source = .written token e) (fields isBlank value) sources := by
  have hreader := isReader_source .serializedSourceList
  have hlist : Rule.IsList .serializedSourceList .sourceExpression := Or.inl rfl
  refine ⟨?_, fun token a b ha hb => ha.unique hb, ?_⟩
  · rw [hreader.exists_trees_list_iff rfl (by decide) (by decide), fields_eq, List.forall_mem_map,
      ne_eq, String.toList_eq_nil_iff]
    simp [Source.Spells, Expression.IsAny]
  · intro trees htrees
    obtain ⟨tree, sources, hsingle, hsources, hspelled⟩ :=
      hreader.exists_of_trees [.sourceExpression, .ancestorSource] hlist (by simp) (by simp)
        (by simp) htrees
    refine ⟨tree, sources, hsingle, hsources, ?_⟩
    rw [fields_eq, List.forall₂_map_left_iff]
    exact hspelled.imp fun token source ⟨e, _, hwritten, hsource⟩ => ⟨e, hwritten, hsource⟩

/-! ### Lists that both grammars read -/

/-- The source is a scheme, a host or the keyword `self`. -/
def Source.IsAncestor (source : Source) : Prop :=
  ∃ e ∈ source.expression?, e.IsAncestor

theorem exists_sources_iff {value : String} {list : Rule} {sources : List Source} :
    (∃ tree, Rule.serializedSourceList.tree value = .ok tree ∧
        Source.interpret value list tree = pure sources) ↔
      value.toList ≠ [] ∧ Bare isBlank value.toList ∧
        List.Forall₂ (Source.Spells Expression.IsAny) (words isBlank value.toList) sources :=
  (isReader_source list).exists_list_iff rfl (by simp) (by simp) (by simp)

theorem exists_ancestors_iff {value : String} {list : Rule} {sources : List Source} :
    (∃ tree, Rule.ancestorSourceListRoot.tree value = .ok tree ∧
        Source.interpret value list tree = pure sources) ↔
      value.toList ≠ [] ∧ Bare isBlank value.toList ∧
        List.Forall₂ (Source.Spells Expression.IsAncestor) (words isBlank value.toList) sources :=
  (isReader_ancestor list).exists_list_iff rfl (by simp) (by simp) (by simp)

/-- Words are written as allowed sources if they are written as sources and these are allowed. -/
theorem forall₂_spells_iff {tokens : List (List Char)} {sources : List Source} :
    List.Forall₂ (Source.Spells allows) tokens sources ↔
      List.Forall₂ (Source.Spells Expression.IsAny) tokens sources ∧
        ∀ source ∈ sources, ∃ e ∈ source.expression?, allows e := by
  constructor
  · intro h
    induction h with
    | nil => exact ⟨.nil, by simp⟩
    | cons hspells _ ih =>
      obtain ⟨e, hallowed, hwritten, rfl⟩ := hspells
      exact ⟨.cons ⟨e, trivial, hwritten, rfl⟩ ih.1,
        List.forall_mem_cons.mpr ⟨⟨e, rfl, hallowed⟩, ih.2⟩⟩
  · rintro ⟨h, hallowed⟩
    induction h with
    | nil => exact .nil
    | cons hspells _ ih =>
      obtain ⟨⟨e, hexpression, hfirst⟩, hothers⟩ := List.forall_mem_cons.mp hallowed
      obtain ⟨e', -, hwritten, rfl⟩ := hspells
      obtain rfl : e' = e := Option.some.inj hexpression
      exact .cons ⟨e', hfirst, hwritten, rfl⟩ (ih hothers)

/-- A text is read as a list of ancestors if and only if it is read as the same sources by the
larger grammar and all of them may be ancestors. -/
theorem ancestors_iff_sources {value : String} (list list' : Rule) {sources : List Source} :
    (∃ tree, Rule.ancestorSourceListRoot.tree value = .ok tree ∧
        Source.interpret value list tree = pure sources) ↔
      (∃ tree, Rule.serializedSourceList.tree value = .ok tree ∧
        Source.interpret value list' tree = pure sources) ∧
      ∀ source ∈ sources, source.IsAncestor := by
  rw [exists_ancestors_iff, exists_sources_iff, forall₂_spells_iff, and_assoc, and_assoc]
  rfl

/-- What is matched as a list of ancestors is interpreted, and the larger grammar reads it alike. -/
theorem exists_sources_of_ancestors {value : String} {trees : List Tree} (list list' : Rule)
    (h : Rule.ancestorSourceListRoot.trees value = .ok trees) :
    ∃ tree tree' sources, trees = [tree] ∧ Source.interpret value list tree = pure sources ∧
      Rule.serializedSourceList.trees value = .ok [tree'] ∧
      Source.interpret value list' tree' = pure sources ∧
      ∀ source ∈ sources, source.IsAncestor := by
  have hancestors : Rule.IsList .ancestorSourceListRoot .ancestorSource := Or.inl rfl
  have hsources : Rule.IsList .serializedSourceList .sourceExpression := Or.inl rfl
  obtain ⟨tree, sources, rfl, hread, -⟩ := (isReader_ancestor list).exists_of_trees
    [.sourceExpression, .ancestorSource] hancestors (by simp) (by simp) (by simp) h
  obtain ⟨⟨tree', htree', hread'⟩, hall⟩ :=
    (ancestors_iff_sources list list').mp ⟨tree, hancestors.tree_eq_ok_iff.mpr h, hread⟩
  exact ⟨tree, tree', sources, rfl, hread, hsources.tree_eq_ok_iff.mp htree', hread', hall⟩

/-- **The two list grammars agree on what both read.**  A text is a list of ancestors if and only if
it is a source list of schemes, hosts and the keyword `self`; and then interpreting either tree
gives the same sources, whatever list they are taken for. -/
theorem ancestorSourceList_agrees (value : String) (list list' : Rule) :
    ((∃ trees, Rule.ancestorSourceListRoot.trees value = .ok trees) ↔
      ∃ tree sources, Rule.serializedSourceList.trees value = .ok [tree] ∧
        Source.interpret value list' tree = pure sources ∧
        ∀ source ∈ sources, source.IsAncestor) ∧
    ∀ trees trees', Rule.ancestorSourceListRoot.trees value = .ok trees →
      Rule.serializedSourceList.trees value = .ok trees' →
      ∃ tree tree' sources, trees = [tree] ∧ trees' = [tree'] ∧
        Source.interpret value list tree = pure sources ∧
        Source.interpret value list' tree' = pure sources := by
  have hancestors : Rule.IsList .ancestorSourceListRoot .ancestorSource := Or.inl rfl
  have hsources : Rule.IsList .serializedSourceList .sourceExpression := Or.inl rfl
  refine ⟨⟨?_, ?_⟩, ?_⟩
  · rintro ⟨trees, htrees⟩
    obtain ⟨tree, tree', sources, -, -, htree', hread', hall⟩ :=
      exists_sources_of_ancestors list list' htrees
    exact ⟨tree', sources, htree', hread', hall⟩
  · rintro ⟨tree', sources, htree', hread', hall⟩
    have hread : ∃ tree, Rule.serializedSourceList.tree value = .ok tree ∧
        Source.interpret value list' tree = pure sources :=
      ⟨tree', hsources.tree_eq_ok_iff.mpr htree', hread'⟩
    obtain ⟨tree, htree, -⟩ := (ancestors_iff_sources list list').mpr ⟨hread, hall⟩
    exact ⟨[tree], hancestors.tree_eq_ok_iff.mp htree⟩
  · intro trees trees' htrees htrees'
    obtain ⟨tree, tree', sources, hsingle, hread, htree', hread', -⟩ :=
      exists_sources_of_ancestors list list' htrees
    rw [htree'] at htrees'
    exact ⟨tree, tree', sources, hsingle, (Except.ok.inj htrees').symm, hread, hread'⟩

theorem ancestorSourceList_agrees_selfData :
    ∃ tree tree' : Tree, Rule.ancestorSourceListRoot.trees "'SELF' data:" = .ok [tree] ∧
      Rule.serializedSourceList.trees "'SELF' data:" = .ok [tree'] ∧
      ∃ sources, Source.interpret "'SELF' data:" .ancestorSourceListRoot tree = pure sources ∧
        Source.interpret "'SELF' data:" .serializedSourceList tree' = pure sources ∧
        ∀ source ∈ sources, source.IsAncestor := by
  obtain ⟨hiff, hsame⟩ := ancestorSourceList_agrees "'SELF' data:" .ancestorSourceListRoot
    .serializedSourceList
  have haccepted : (Rule.ancestorSourceListRoot.trees "'SELF' data:").toBool = true := by
    decide +kernel
  obtain ⟨trees, htrees⟩ := exists_ok_of_toBool haccepted
  obtain ⟨tree', sources, htree', hread', hall⟩ := hiff.mp ⟨trees, htrees⟩
  obtain ⟨tree, tree'', sources', rfl, hsingle, hread, hread''⟩ := hsame trees [tree'] htrees htree'
  obtain rfl := List.singleton_inj.mp hsingle
  obtain rfl : sources' = sources := Reading.pure_inj.mp (hread''.symm.trans hread')
  exact ⟨tree, tree', htrees, htree', sources', hread, hread', hall⟩

end ContentSecurity

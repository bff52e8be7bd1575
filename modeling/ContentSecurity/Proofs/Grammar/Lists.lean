import ContentSecurity.Proofs.Grammar.Parts
import ContentSecurity.Proofs.Grammar.Trees
import ContentSecurity.Proofs.Reading
/-!
# Lists of words

The values of most directives are lists of items with blanks between them, read by
`Phrase.list` or `Phrase.listOrNothing`.  If an item is always a word and is recorded by one tree
(`Phrase.ItemOf`), then such a list has an entry for each word of the text, in order, and the text
has no blank at either end.  If in addition every acceptable word is taken in front of a break,
then the texts of acceptable words are exactly those that are matched.
-/

namespace ContentSecurity.Grammar

open Text
open String (utf8Len)

theorem stops_of_break {accepts : Char → Bool} {rest : List Char} (h : Stops (!isBlank ·) rest)
    (hvisible : ∀ c, accepts c → isValueChar c) : Stops accepts rest := by
  apply h.mono
  intro c hc
  simp [isBlank_eq_false_of_isValueChar (hvisible c hc)]

/-- A tree of the item for the stretch `token` of the input. -/
def Entry (item : Phrase) (input token : List Char) (tree : Tree) : Prop :=
  ∃ front back, input = front ++ (token ++ back) ∧
    item.Derives (utf8Len front) token back [tree]

/-- The texts of the phrase are words, each recorded by one tree of the rule `target`. -/
def Phrase.ItemOf (item : Phrase) (target : Rule) : Prop :=
  ∀ offset token rest trees, item.Derives offset token rest trees →
    token ≠ [] ∧ (∀ c ∈ token, isValueChar c) ∧ ∃ tree, trees = [tree] ∧ tree.rule = target

namespace Phrase

variable {item body : Phrase} {lexeme : Lexeme} {rule root target : Rule}
variable {input front back text taken rest : List Char} {offset : Nat} {trees : List Tree}

theorem itemOf_token (hne : [] ∉ lexeme.language) (hover : lexeme.Over isValueChar) :
    (token rule lexeme).ItemOf rule := by
  rintro offset word rest trees ⟨hmem, rfl⟩
  exact ⟨fun hnil => hne (hnil ▸ hmem), hover.forall_mem hmem, _, rfl, rfl⟩

theorem itemOf_node
    (h : ∀ offset word rest trees, body.Derives offset word rest trees →
      word ≠ [] ∧ ∀ c ∈ word, isValueChar c) : (node rule body).ItemOf rule := by
  rintro offset word rest trees ⟨children, hbody, rfl⟩
  obtain ⟨hne, hall⟩ := h _ _ _ _ hbody
  exact ⟨hne, hall, _, rfl, rfl⟩

theorem ItemOf.fails_nil (hitem : item.ItemOf target) : item.Fails [] := by
  apply fails_of_forall_prefix
  intro s t offset trees heq hderives
  obtain ⟨rfl, -⟩ := List.append_eq_nil_iff.mp heq.symm
  exact (hitem _ _ _ _ hderives).1 rfl

/-! ### Every word has an entry -/

/-- Further items behind a first one: the induction goes along the repetition, and each step puts
the first word and a gap in front. -/
theorem ItemOf.entries_of_repeats (hitem : item.ItemOf target) {token : List Char} {tree : Tree}
    (h : Repeats (seq (.text .gap) item).Derives offset text back trees)
    (hinput : input = front ++ (token ++ (text ++ back)))
    (hoffset : offset = utf8Len front + utf8Len token)
    (hfirst : item.Derives (utf8Len front) token (text ++ back) [tree]) :
    Bare isBlank (token ++ text) ∧
      List.Forall₂ (Entry item input) (words isBlank (token ++ text)) (tree :: trees) := by
  induction h generalizing front token tree with
  | @nil offset back =>
    obtain ⟨hne, hvisible, -⟩ := hitem _ _ _ _ hfirst
    have hword := isBlank_eq_false_of_forall hvisible
    rw [List.append_nil, words_of_run hne hword]
    exact ⟨bare_of_forall hword, .cons ⟨front, back, hinput, hfirst⟩ .nil⟩
  | @cons offset text others back trees siblings first further ih =>
    rcases first with ⟨gap, next, ss, ts, ⟨hgap, rfl⟩, hnext, rfl, rfl⟩
    obtain ⟨hgne, hgall⟩ := Lexeme.mem_language_gap.mp hgap
    obtain ⟨hne, hvisible, -⟩ := hitem _ _ _ _ hfirst
    have hword := isBlank_eq_false_of_forall hvisible
    obtain ⟨hnne, -, entry, rfl, -⟩ := hitem _ _ _ _ hnext
    have hsuffix : input = front ++ token ++ gap ++ (next ++ (others ++ back)) := by
      rw [hinput]
      simp
    obtain ⟨hbare, hentries⟩ := ih hsuffix (by rw [hoffset]; simp [Nat.add_assoc])
      (by rw [String.utf8Len_append, String.utf8Len_append, ← hoffset]; exact hnext)
    have hbreak : Stops (!isBlank ·) (gap ++ (next ++ others)) :=
      Stops.append_left (stops_of_forall fun c hc => by simp [hgall c hc]) hgne
    have hsplit : token ++ (gap ++ next ++ others) = token ++ gap ++ (next ++ others) := by simp
    constructor
    · rw [hsplit]
      exact (bare_of_forall hword).append hbare hne (by simp [hnne])
    · rw [hsplit, List.append_assoc, words_append hne hword hbreak, words_append_left hgall]
      exact .cons ⟨front, _, hinput, hfirst⟩ hentries

theorem ItemOf.entries_of_separated (hitem : item.ItemOf target)
    (hinput : input = front ++ (text ++ back))
    (h : (separated item .gap).Derives (utf8Len front) text back trees) :
    text ≠ [] ∧ Bare isBlank text ∧
      List.Forall₂ (Entry item input) (words isBlank text) trees := by
  rcases h with ⟨token, tail, ss, ts, hfirst, hfurther, rfl, rfl⟩
  obtain ⟨hne, -, tree, rfl, -⟩ := hitem _ _ _ _ hfirst
  rw [List.append_assoc] at hinput
  exact ⟨by simp [hne], hitem.entries_of_repeats hfurther hinput rfl hfirst⟩

/-- **A list has an entry for each word.**  It takes the whole text, which has no blank at either
end. -/
theorem ItemOf.entries_of_listOrNothing (hitem : item.ItemOf target)
    (h : (listOrNothing root item).Derives 0 taken rest trees) :
    rest = [] ∧ Bare isBlank taken ∧ ∃ entries stop,
      trees = [⟨root, 0, stop, entries ++ [⟨.endOfInput, stop, stop, []⟩]⟩] ∧
        List.Forall₂ (Entry item taken) (words isBlank taken) entries := by
  rcases h with ⟨_, ⟨text, _, entries, _, hitems, ⟨rfl, rfl, rfl⟩, rfl, rfl⟩, rfl⟩
  rw [List.append_nil, Nat.zero_add]
  rcases derives_opt.mp hitems with hitems | ⟨rfl, rfl⟩
  · obtain ⟨-, hbare, hentries⟩ :=
      hitem.entries_of_separated (show text = [] ++ (text ++ []) by simp) hitems
    exact ⟨rfl, hbare, entries, _, rfl, hentries⟩
  · exact ⟨rfl, bare_nil, [], _, rfl, by simp⟩

theorem derives_listOrNothing_of_list (h : (list root item).Derives offset taken rest trees) :
    (listOrNothing root item).Derives offset taken rest trees := by
  rcases h with ⟨_, ⟨text, stop, entries, ends, hitems, hstop, rfl, rfl⟩, rfl⟩
  exact ⟨_, ⟨text, stop, entries, ends, Or.inl hitems, hstop, rfl, rfl⟩, rfl⟩

theorem ItemOf.ne_nil_of_list (hitem : item.ItemOf target)
    (h : (list root item).Derives 0 taken rest trees) : taken ≠ [] := by
  rcases h with ⟨_, ⟨text, _, entries, _, hitems, ⟨rfl, rfl, rfl⟩, rfl, rfl⟩, rfl⟩
  obtain ⟨hne, -⟩ := hitem.entries_of_separated (show text = [] ++ (text ++ []) by simp) hitems
  simpa using hne

/-! ### Every list of words is taken -/

theorem takes_separated (hne : text ≠ []) (hbare : Bare isBlank text)
    (hwords : ∀ token ∈ words isBlank text, ∀ rest, Stops (!isBlank ·) rest →
      item.Takes token rest) : (separated item .gap).Takes text [] := by
  suffices hcut : ∃ first tail, text = first ++ tail ∧ item.Takes first tail ∧
      (star (seq (.text .gap) item)).Takes tail [] by
    rcases hcut with ⟨first, tail, rfl, hfirst, htail⟩
    rw [← List.append_nil tail] at hfirst
    exact hfirst.seq htail
  revert hwords
  refine Bare.induct ?_ ?_ hne hbare
  · intro token hne hrun hwords
    refine ⟨token, [], by simp, ?_, takes_star_nil (Fails.seq_left (fails_text ?_))⟩
    · exact hwords token (by simp [words_of_run hne hrun]) [] stops_nil
    · exact (Lexeme.fails_one stops_nil).plus
  · intro token gap others hne hrun hgne hgap hone hbare ih hwords
    have hbreak : Stops (!isBlank ·) (gap ++ others) :=
      Stops.append_left (stops_of_forall fun c hc => by simp [hgap c hc]) hgne
    have hsplit : words isBlank (token ++ (gap ++ others)) = token :: words isBlank others := by
      rw [words_append hne hrun hbreak, words_append_left hgap]
    obtain ⟨first, tail, rfl, hfirst, htail⟩ :=
      ih fun word hword => hwords word (by simp [hsplit, hword])
    have hnext : (seq (.text .gap) item).Takes (gap ++ first) (tail ++ []) := by
      rw [List.append_nil]
      exact (takes_text (Lexeme.takes_gap hgne hgap hbare.1)).seq hfirst
    refine ⟨token, gap ++ (first ++ tail), rfl, hwords token (by simp [hsplit]) _ hbreak, ?_⟩
    rw [← List.append_assoc]
    exact hnext.star_cons (by simp [hgne]) htail

theorem takes_list (hne : text ≠ []) (hbare : Bare isBlank text)
    (hwords : ∀ token ∈ words isBlank text, ∀ rest, Stops (!isBlank ·) rest →
      item.Takes token rest) : (list root item).Takes text [] :=
  (takes_separated hne hbare hwords).seq_finish.node

theorem takes_listOrNothing (hitem : item.ItemOf target) (hbare : Bare isBlank text)
    (hwords : ∀ token ∈ words isBlank text, ∀ rest, Stops (!isBlank ·) rest →
      item.Takes token rest) : (listOrNothing root item).Takes text [] := by
  have htext : (opt (separated item .gap)).Takes text [] := by
    by_cases hnil : text = []
    · rw [hnil]
      exact takes_opt_nil hitem.fails_nil.seq_left
    · exact (takes_separated hnil hbare hwords).opt
  exact htext.seq_finish.node

end Phrase

/-! ### Rules that are lists -/

namespace Rule

variable {root target : Rule} {item : Phrase} {input : String} {tree : Tree} {trees : List Tree}
variable {targets : List Rule}

theorem search_entries {start stop : Nat} {tokens : List (List Char)} {text : List Char}
    {entries : List Tree} (hitem : item.ItemOf target) (htarget : target ∈ targets)
    (hroot : root ∉ targets) (hend : Rule.endOfInput ∉ targets)
    (h : List.Forall₂ (Entry item text) tokens entries) :
    Tree.search targets 2 ⟨root, start, stop, entries ++ [⟨.endOfInput, stop, stop, []⟩]⟩ =
      entries := by
  have hentries : ∀ tree ∈ entries, tree.rule ∈ targets := by
    induction h with
    | nil => simp
    | cons hentry _ ih =>
      rcases hentry with ⟨front, back, -, hderives⟩
      obtain ⟨-, -, _, hsame, hrule⟩ := hitem _ _ _ _ hderives
      rw [← List.singleton_inj.mp hsame] at hrule
      simpa [hrule, htarget] using ih
  rw [Tree.search_mk hroot, Tree.searchAll_concat hentries hend rfl]

/-- The rule is a list of the items, which may have to be one or more. -/
def IsList (root : Rule) (item : Phrase) : Prop :=
  root.phrase = .list root item ∨ root.phrase = .listOrNothing root item

theorem IsList.exists_derives (hlist : root.IsList item) (h : root.trees input = .ok trees) :
    ∃ taken rest, input.toList = taken ++ rest ∧
      (Phrase.listOrNothing root item).Derives 0 taken rest trees := by
  obtain ⟨taken, rest, hinput, hderives⟩ := exists_derives_of_trees h
  rcases hlist with hlist | hlist
  · exact ⟨taken, rest, hinput, Phrase.derives_listOrNothing_of_list (hlist ▸ hderives)⟩
  · exact ⟨taken, rest, hinput, hlist ▸ hderives⟩

/-- **A matched list is one tree, with an entry for each word of the text.** -/
theorem IsList.exists_entries (hlist : root.IsList item) (hitem : item.ItemOf target)
    (htarget : target ∈ targets) (hroot : root ∉ targets) (hend : Rule.endOfInput ∉ targets)
    (h : root.trees input = .ok trees) :
    Bare isBlank input.toList ∧ ∃ tree, trees = [tree] ∧
      List.Forall₂ (Entry item input.toList) (words isBlank input.toList)
        (tree.search targets 2) := by
  obtain ⟨taken, rest, hinput, hitems⟩ := hlist.exists_derives h
  obtain ⟨rfl, hbare, entries, stop, rfl, hentries⟩ := hitem.entries_of_listOrNothing hitems
  rw [List.append_nil] at hinput
  rw [hinput]
  exact ⟨hbare, _, rfl, by rwa [search_entries hitem htarget hroot hend hentries]⟩

theorem ne_nil_of_list (hlist : root.phrase = .list root item) (hitem : item.ItemOf target)
    (h : root.trees input = .ok trees) : input.toList ≠ [] := by
  obtain ⟨taken, rest, hinput, hderives⟩ := exists_derives_of_trees h
  have hne := hitem.ne_nil_of_list (hlist ▸ hderives)
  simp [hinput, hne]

theorem IsList.tree_eq_ok_iff (hlist : root.IsList item) :
    root.tree input = .ok tree ↔ root.trees input = .ok [tree] := by
  rw [Rule.tree_eq_ok_iff]
  constructor
  · rintro ⟨others, h⟩
    obtain ⟨taken, rest, -, _, -, hsingle⟩ := hlist.exists_derives h
    obtain ⟨-, rfl⟩ := List.cons.inj hsingle
    exact h
  · intro h
    exact ⟨[], h⟩

end Rule

/-! ### Reading the entries of a list -/

/-- The entries of a list are read by `reads`, and `spells` tells which words have which value:
every entry has one, and every word that has one is taken in front of a break. -/
structure IsReader {β : Type} (item : Phrase) (target : Rule) (spells : List Char → β → Prop)
    (reads : String → Tree → Reading β) : Prop where
  isItem : item.ItemOf target
  sound : ∀ {input : String} {token : List Char} {tree : Tree},
    Entry item input.toList token tree → ∃ b, reads input tree = pure b ∧ spells token b
  complete : ∀ {token rest : List Char} {b : β}, spells token b → Stops (!isBlank ·) rest →
    item.Takes token rest
  unique : ∀ {token : List Char} {a b : β}, spells token a → spells token b → a = b

namespace IsReader

variable {β : Type} {item : Phrase} {root target : Rule} {spells : List Char → β → Prop}
variable {reads : String → Tree → Reading β} {input : String} {token : List Char} {tree : Tree}
variable {trees : List Tree} {targets : List Rule} {b : β} {bs : List β}

theorem reads_eq_pure_iff (hreader : IsReader item target spells reads)
    (hentry : Entry item input.toList token tree) : reads input tree = pure b ↔ spells token b := by
  obtain ⟨a, hread, hspells⟩ := hreader.sound hentry
  constructor
  · intro h
    rw [hread] at h
    exact Reading.pure_inj.mp h ▸ hspells
  · intro h
    rw [hreader.unique h hspells, hread]

theorem visible_of_spells (hreader : IsReader item target spells reads) (h : spells token b) :
    token ≠ [] ∧ ∀ c ∈ token, isValueChar c := by
  obtain ⟨trees, hderives⟩ := (hreader.complete h stops_nil).exists_derives 0
  obtain ⟨hne, hvisible, -⟩ := hreader.isItem _ _ _ _ hderives
  exact ⟨hne, hvisible⟩

theorem mapM_eq_pure_iff (hreader : IsReader item target spells reads) {tokens : List (List Char)}
    (hentries : List.Forall₂ (Entry item input.toList) tokens trees) :
    trees.mapM (reads input) = pure bs ↔ List.Forall₂ spells tokens bs := by
  rw [Reading.mapM_eq_pure_iff]
  induction hentries generalizing bs with
  | nil => simp
  | cons hentry _ ih =>
    simp only [List.forall₂_cons_left_iff, hreader.reads_eq_pure_iff hentry, ih]

theorem exists_mapM_eq_pure (hreader : IsReader item target spells reads)
    {tokens : List (List Char)} (hentries : List.Forall₂ (Entry item input.toList) tokens trees) :
    ∃ bs, trees.mapM (reads input) = pure bs := by
  have hspelled : ∃ bs, List.Forall₂ spells tokens bs := by
    induction hentries with
    | nil => exact ⟨[], .nil⟩
    | cons hentry _ ih =>
      obtain ⟨b, -, hb⟩ := hreader.sound hentry
      rcases ih with ⟨bs, hbs⟩
      exact ⟨b :: bs, .cons hb hbs⟩
  rcases hspelled with ⟨bs, hbs⟩
  exact ⟨bs, (hreader.mapM_eq_pure_iff hentries).mpr hbs⟩

theorem takes_of_forall₂ (hreader : IsReader item target spells reads)
    {tokens : List (List Char)} (h : List.Forall₂ spells tokens bs) :
    ∀ token ∈ tokens, ∀ rest, Stops (!isBlank ·) rest → item.Takes token rest := by
  induction h with
  | nil => simp
  | cons hspells _ ih =>
    intro token htoken rest hrest
    rcases List.mem_cons.mp htoken with rfl | htoken
    · exact hreader.complete hspells hrest
    · exact ih token htoken rest hrest

/-- What is derived as an item is taken where nothing follows. -/
theorem takes_of_derives (hreader : IsReader item target spells reads)
    (h : item.Derives 0 token [] trees) : item.Takes token [] := by
  obtain ⟨-, -, tree, rfl, -⟩ := hreader.isItem _ _ _ _ h
  have hentry : Entry item (String.ofList token).toList token tree :=
    ⟨[], [], by rw [String.toList_ofList, List.append_nil, List.nil_append], h⟩
  obtain ⟨b, -, hspells⟩ := hreader.sound hentry
  exact hreader.complete hspells stops_nil

theorem takes_words (hreader : IsReader item target spells reads) {text : List Char}
    (h : List.Forall₂ (Entry item text) (words isBlank text) trees) :
    ∀ token ∈ words isBlank text, ∀ rest, Stops (!isBlank ·) rest → item.Takes token rest := by
  rw [← String.toList_ofList (l := text)] at h
  obtain ⟨bs, hbs⟩ := hreader.exists_mapM_eq_pure h
  rw [hreader.mapM_eq_pure_iff h, String.toList_ofList] at hbs
  exact hreader.takes_of_forall₂ hbs

/-- What is derived as a list is taken. -/
theorem takes_list_of_derives (hreader : IsReader item target spells reads) {text : List Char}
    (h : (Phrase.list root item).Derives 0 text [] trees) :
    (Phrase.list root item).Takes text [] := by
  obtain ⟨-, hbare, entries, stop, -, hentries⟩ :=
    hreader.isItem.entries_of_listOrNothing (Phrase.derives_listOrNothing_of_list h)
  exact Phrase.takes_list (hreader.isItem.ne_nil_of_list h) hbare (hreader.takes_words hentries)

theorem takes_listOrNothing_of_derives (hreader : IsReader item target spells reads)
    {text : List Char} (h : (Phrase.listOrNothing root item).Derives 0 text [] trees) :
    (Phrase.listOrNothing root item).Takes text [] := by
  obtain ⟨-, hbare, entries, stop, -, hentries⟩ := hreader.isItem.entries_of_listOrNothing h
  exact Phrase.takes_listOrNothing hreader.isItem hbare (hreader.takes_words hentries)

/-- **The texts and the values of a list of one or more items.** -/
theorem exists_list_iff (hreader : IsReader item target spells reads)
    (hlist : root.phrase = .list root item) (htarget : target ∈ targets) (hroot : root ∉ targets)
    (hend : Rule.endOfInput ∉ targets) :
    (∃ tree, root.tree input = .ok tree ∧ (tree.search targets 2).mapM (reads input) = pure bs) ↔
      input.toList ≠ [] ∧ Bare isBlank input.toList ∧
        List.Forall₂ spells (words isBlank input.toList) bs := by
  have hroot' : root.IsList item := Or.inl hlist
  constructor
  · rintro ⟨tree, htree, hbs⟩
    have htrees := hroot'.tree_eq_ok_iff.mp htree
    obtain ⟨hbare, _, hsingle, hentries⟩ :=
      hroot'.exists_entries hreader.isItem htarget hroot hend htrees
    obtain rfl := List.singleton_inj.mp hsingle
    exact ⟨Rule.ne_nil_of_list hlist hreader.isItem htrees, hbare,
      (hreader.mapM_eq_pure_iff hentries).mp hbs⟩
  · rintro ⟨hne, hbare, hspells⟩
    obtain ⟨trees, htrees⟩ := Rule.exists_trees_of_takes
      (hlist ▸ Phrase.takes_list hne hbare (hreader.takes_of_forall₂ hspells))
    obtain ⟨-, tree, rfl, hentries⟩ :=
      hroot'.exists_entries hreader.isItem htarget hroot hend htrees
    exact ⟨tree, hroot'.tree_eq_ok_iff.mpr htrees, (hreader.mapM_eq_pure_iff hentries).mpr hspells⟩

/-- **The texts and the values of a list of any number of items.** -/
theorem exists_listOrNothing_iff (hreader : IsReader item target spells reads)
    (hlist : root.phrase = .listOrNothing root item) (htarget : target ∈ targets)
    (hroot : root ∉ targets) (hend : Rule.endOfInput ∉ targets) :
    (∃ tree, root.tree input = .ok tree ∧ (tree.search targets 2).mapM (reads input) = pure bs) ↔
      Bare isBlank input.toList ∧ List.Forall₂ spells (words isBlank input.toList) bs := by
  have hroot' : root.IsList item := Or.inr hlist
  constructor
  · rintro ⟨tree, htree, hbs⟩
    obtain ⟨hbare, _, hsingle, hentries⟩ :=
      hroot'.exists_entries hreader.isItem htarget hroot hend (hroot'.tree_eq_ok_iff.mp htree)
    obtain rfl := List.singleton_inj.mp hsingle
    exact ⟨hbare, (hreader.mapM_eq_pure_iff hentries).mp hbs⟩
  · rintro ⟨hbare, hspells⟩
    obtain ⟨trees, htrees⟩ := Rule.exists_trees_of_takes (hlist ▸
      Phrase.takes_listOrNothing hreader.isItem hbare (hreader.takes_of_forall₂ hspells))
    obtain ⟨-, tree, rfl, hentries⟩ :=
      hroot'.exists_entries hreader.isItem htarget hroot hend htrees
    exact ⟨tree, hroot'.tree_eq_ok_iff.mpr htrees, (hreader.mapM_eq_pure_iff hentries).mpr hspells⟩

theorem exists_of_trees (hreader : IsReader item target spells reads) (targets : List Rule)
    (hlist : root.IsList item) (htarget : target ∈ targets) (hroot : root ∉ targets)
    (hend : Rule.endOfInput ∉ targets) (h : root.trees input = .ok trees) :
    ∃ tree bs, trees = [tree] ∧ (tree.search targets 2).mapM (reads input) = pure bs ∧
      List.Forall₂ spells (words isBlank input.toList) bs := by
  obtain ⟨-, tree, hsingle, hentries⟩ :=
    hlist.exists_entries hreader.isItem htarget hroot hend h
  obtain ⟨bs, hbs⟩ := hreader.exists_mapM_eq_pure hentries
  exact ⟨tree, bs, hsingle, hbs, (hreader.mapM_eq_pure_iff hentries).mp hbs⟩

theorem exists_trees_list_iff (hreader : IsReader item target spells reads)
    (hlist : root.phrase = .list root item) (htarget : root ≠ target)
    (hend : target ≠ .endOfInput) :
    (∃ trees, root.trees input = .ok trees) ↔
      input.toList ≠ [] ∧ Bare isBlank input.toList ∧
        ∀ token ∈ words isBlank input.toList, ∃ b, spells token b := by
  have hroot : root ∉ [target] := by simpa using htarget
  have hend' : Rule.endOfInput ∉ [target] := by simpa using hend.symm
  have hiff : ∀ bs, (∃ tree, root.tree input = .ok tree ∧
      (tree.search [target] 2).mapM (reads input) = pure bs) ↔ _ :=
    fun bs => hreader.exists_list_iff hlist (by simp) hroot hend'
  rw [← exists_forall₂_iff]
  constructor
  · rintro ⟨trees, htrees⟩
    obtain ⟨tree, bs, rfl, hread, hspells⟩ :=
      hreader.exists_of_trees [target] (Or.inl hlist) (by simp) hroot hend' htrees
    have htree := Rule.tree_eq_ok_iff.mpr ⟨[], htrees⟩
    obtain ⟨hne, hbare, -⟩ := (hiff bs).mp ⟨tree, htree, hread⟩
    exact ⟨hne, hbare, bs, hspells⟩
  · rintro ⟨hne, hbare, bs, hspells⟩
    obtain ⟨tree, htree, -⟩ := (hiff bs).mpr ⟨hne, hbare, hspells⟩
    obtain ⟨others, htrees⟩ := Rule.tree_eq_ok_iff.mp htree
    exact ⟨tree :: others, htrees⟩

end IsReader

end ContentSecurity.Grammar

import ContentSecurity.Proofs.Directive.Items
import ContentSecurity.Proofs.Grammar.Nodes
import ContentSecurity.Proofs.Policy.Clauses
import ContentSecurity.Proofs.Source.Lists
/-!
# Nodes on their own

The text of a node, matched by the rule of the node, gives the node again, moved to the front
(`Tree.StandsAlone`).  A node has a derivation by its own rule, which remains one when the text is
cut out; and no rule of a node reads a text in two ways (`Rule.unambiguous`), so that this
derivation is the one that is found.
-/

namespace ContentSecurity.Grammar

open Text
open String (utf8Len)

namespace Phrase

variable {a b p : Phrase} {rule : Rule} {lexeme : Lexeme}

/-! ### Texts that are read in one way -/

/-- The text has a derivation, whatever stands around it. -/
def Describes (p : Phrase) (text : List Char) : Prop :=
  ∃ offset rest trees, p.Derives offset text rest trees

/-- No two derivations of one text give different trees. -/
def Unambiguous (p : Phrase) : Prop :=
  ∀ (offset : Nat) (text rest : List Char) (trees others : List Tree),
    p.Derives offset text rest trees → p.Derives offset text rest others → trees = others

/-- One text is not cut in two ways between the two phrases. -/
def CutsOnce (a b : Phrase) : Prop :=
  ∀ s t s' t' : List Char, a.Describes s → b.Describes t → a.Describes s' → b.Describes t' →
    s ++ t = s' ++ t' → s = s'

theorem unambiguous_text : (text lexeme).Unambiguous := by
  rintro offset text rest trees others ⟨-, rfl⟩ ⟨-, rfl⟩
  rfl

theorem unambiguous_token : (token rule lexeme).Unambiguous := by
  rintro offset text rest trees others ⟨-, rfl⟩ ⟨-, rfl⟩
  rfl

theorem unambiguous_sourceEnd : sourceEnd.Unambiguous := by
  rintro offset text rest trees others ⟨-, rfl, -⟩ ⟨-, rfl, -⟩
  rfl

theorem Unambiguous.node (h : a.Unambiguous) : (node rule a).Unambiguous := by
  rintro offset text rest trees others ⟨children, hchildren, rfl⟩ ⟨children', hchildren', rfl⟩
  rw [h _ _ _ _ _ hchildren hchildren']

theorem Unambiguous.seq (ha : a.Unambiguous) (hb : b.Unambiguous) (hcut : CutsOnce a b) :
    (seq a b).Unambiguous := by
  rintro offset text rest trees others ⟨s, t, ss, ts, hs, ht, rfl, rfl⟩
    ⟨s', t', ss', ts', hs', ht', heq, rfl⟩
  obtain rfl := hcut _ _ _ _ ⟨_, _, _, hs⟩ ⟨_, _, _, ht⟩ ⟨_, _, _, hs'⟩ ⟨_, _, _, ht'⟩ heq
  obtain rfl := List.append_cancel_left heq
  rw [ha _ _ _ _ _ hs hs', hb _ _ _ _ _ ht ht']

theorem unambiguous_opt (h : a.Unambiguous) (hne : ¬ a.Describes []) : (opt a).Unambiguous := by
  intro offset text rest trees others hd hd'
  rcases derives_opt.mp hd with hd | ⟨rfl, rfl⟩
  · rcases derives_opt.mp hd' with hd' | ⟨rfl, rfl⟩
    · exact h _ _ _ _ _ hd hd'
    · exact absurd ⟨_, _, _, hd⟩ hne
  · rcases derives_opt.mp hd' with hd' | ⟨-, rfl⟩
    · exact absurd ⟨_, _, _, hd'⟩ hne
    · rfl

theorem cutsOnce_of_length_left {n : Nat} (h : ∀ s, a.Describes s → s.length = n) :
    CutsOnce a b := by
  intro s t s' t' hs _ hs' _ heq
  exact (List.append_inj heq ((h s hs).trans (h s' hs').symm)).1

theorem cutsOnce_of_length_right {n : Nat} (h : ∀ t, b.Describes t → t.length = n) :
    CutsOnce a b := by
  intro s t s' t' _ ht _ ht' heq
  exact (List.append_inj' heq ((h t ht).trans (h t' ht').symm)).1

theorem length_of_describes_literal {word : String} {s : List Char}
    (h : (text (.literal word)).Describes s) : s.length = word.toList.length := by
  obtain ⟨_, _, _, hmem, -⟩ := h
  rw [Lexeme.mem_language_literal.mp hmem]

theorem cutsOnce_literal_right {word : String} : CutsOnce a (text (.literal word)) :=
  cutsOnce_of_length_right fun _ => length_of_describes_literal

theorem cutsOnce_literal_left {word : String} : CutsOnce (text (.literal word)) b :=
  cutsOnce_of_length_left fun _ => length_of_describes_literal

theorem length_of_describes_word {word : String} {s : List Char}
    (h : (text (.word word)).Describes s) : s.length = word.toList.length := by
  obtain ⟨_, _, _, hmem, -⟩ := h
  simpa using congrArg List.length (Lexeme.mem_language_word.mp hmem)

theorem length_of_describes_hashAlgorithm {s : List Char}
    (h : (token rule .hashAlgorithm).Describes s) : s.length = 6 := by
  obtain ⟨_, _, _, hmem, -⟩ := h
  obtain ⟨word, hword, heq⟩ := Lexeme.mem_language_oneOf_word.mp hmem
  have hlength : ∀ word ∈ ["sha256", "sha384", "sha512"], word.toList.length = 6 := by decide
  rw [← hlength word hword]
  simpa using congrArg List.length heq

/-! ### Sources -/

theorem unambiguous_schemeSource : schemeSource.Unambiguous := by
  have hend : (seq (text (.literal ":")) sourceEnd).Unambiguous :=
    unambiguous_text.seq unambiguous_sourceEnd cutsOnce_literal_left
  refine (unambiguous_token.seq hend (cutsOnce_of_length_right (n := 1) ?_)).node
  rintro t ⟨_, _, _, colon, stop, _, _, ⟨hcolon, -⟩, hstop, rfl, -⟩
  obtain ⟨rfl, -⟩ := stops_of_derives_sourceEnd hstop
  rw [Lexeme.mem_language_literal.mp hcolon]
  rfl

theorem unambiguous_hostSource : hostSource.Unambiguous := by
  intro offset text rest trees others h h'
  obtain ⟨parts, hparts, htext, -, rfl⟩ := exists_host_of_derives h
  obtain ⟨parts', hparts', htext', -, rfl⟩ := exists_host_of_derives h'
  rw [Host.text_injective hparts hparts' (htext.symm.trans htext')]

theorem unambiguous_base64Value_quote : (seq base64Value (text (.literal "'"))).Unambiguous :=
  unambiguous_token.seq unambiguous_text cutsOnce_literal_right

theorem unambiguous_nonceSource : nonceSource.Unambiguous := by
  have hword : (seq (text (.word "nonce-")) (seq base64Value (text (.literal "'")))).Unambiguous :=
    unambiguous_text.seq unambiguous_base64Value_quote
      (cutsOnce_of_length_left fun _ => length_of_describes_word)
  exact (unambiguous_text.seq hword cutsOnce_literal_left).node

theorem unambiguous_hashSource : hashSource.Unambiguous := by
  have hdigest : (seq (text (.literal "-")) (seq base64Value (text (.literal "'")))).Unambiguous :=
    unambiguous_text.seq unambiguous_base64Value_quote cutsOnce_literal_left
  have halgorithm : (seq (token .hashAlgorithm .hashAlgorithm)
      (seq (text (.literal "-")) (seq base64Value (text (.literal "'"))))).Unambiguous :=
    unambiguous_token.seq hdigest
      (cutsOnce_of_length_left fun _ => length_of_describes_hashAlgorithm)
  exact (unambiguous_text.seq halgorithm cutsOnce_literal_left).node

/-- Alternatives of different forms do not read one text. -/
theorem unambiguous_choice {allows : Expression → Prop} {alternatives : List (Rule × Phrase)}
    (hall : ∀ p ∈ alternatives, IsAlternative allows p.1 p.2)
    (hunambiguous : ∀ p ∈ alternatives, p.2.Unambiguous)
    (hforms : ∀ p ∈ alternatives, ∀ q ∈ alternatives, p.1 = q.1 → p.2 = q.2) :
    (oneOf (alternatives.map Prod.snd)).Unambiguous := by
  intro offset text rest trees others h h'
  obtain ⟨_, hmem, hd⟩ := derives_oneOf.mp h
  obtain ⟨_, hmem', hd'⟩ := derives_oneOf.mp h'
  obtain ⟨p, hp, rfl⟩ := List.mem_map.mp hmem
  obtain ⟨q, hq, rfl⟩ := List.mem_map.mp hmem'
  obtain ⟨e, -, hwritten, hform, -⟩ := (hall p hp).exists_writtenAs hd
  obtain ⟨e', -, hwritten', hform', -⟩ := (hall q hq).exists_writtenAs hd'
  obtain rfl := hwritten.unique hwritten'
  rw [← hforms p hp q hq (hform.symm.trans hform')] at hd'
  exact hunambiguous p hp _ _ _ _ _ hd hd'

theorem unambiguous_sourceExpression : sourceExpression.Unambiguous := by
  have hall : ∀ p ∈ sourceAlternatives, p.2.Unambiguous := by
    simp only [sourceAlternatives, List.forall_mem_cons]
    exact ⟨unambiguous_schemeSource, unambiguous_hostSource, unambiguous_token,
      unambiguous_nonceSource, unambiguous_hashSource, by simp⟩
  exact (unambiguous_choice isAlternative_source hall (by simp [sourceAlternatives])).node

theorem unambiguous_ancestorSource : ancestorSource.Unambiguous := by
  have hall : ∀ p ∈ ancestorAlternatives, p.2.Unambiguous := by
    simp only [ancestorAlternatives, List.forall_mem_cons]
    exact ⟨unambiguous_schemeSource, unambiguous_hostSource, unambiguous_token, by simp⟩
  exact (unambiguous_choice isAlternative_ancestor hall (by simp [ancestorAlternatives])).node

/-! ### Entries and directives -/

theorem unambiguous_ttExpression : ttExpression.Unambiguous := by
  intro offset text rest trees others h h'
  obtain ⟨entry, hwritten, rfl⟩ := exists_writtenAs_of_derives_ttExpression h
  obtain ⟨entry', hwritten', rfl⟩ := exists_writtenAs_of_derives_ttExpression h'
  rw [hwritten.eq_ofWord, hwritten'.eq_ofWord]

theorem unambiguous_serializedDirective : serializedDirective.Unambiguous := by
  -- A name goes on to the first blank, and the gap to the first visible character.
  have hvalue : CutsOnce (text .gap) (token .directiveValue .directiveValue) := by
    rintro s t s' t' ⟨_, _, _, hs, -⟩ ⟨_, _, _, ht, -⟩ ⟨_, _, _, hs', -⟩ ⟨_, _, _, ht', -⟩ heq
    exact (append_inj_of_stops heq (Lexeme.mem_language_gap.mp hs).2
      (Lexeme.mem_language_directiveValue.mp ht).2.2.1 (Lexeme.mem_language_gap.mp hs').2
      (Lexeme.mem_language_directiveValue.mp ht').2.2.1).1
  have htail : ∀ t, (opt (seq (text .gap) (token .directiveValue .directiveValue))).Describes t →
      Stops isNameChar t := by
    rintro t ⟨_, _, _, h⟩
    rcases derives_opt.mp h with ⟨gap, value, _, _, ⟨hgap, -⟩, -, rfl, -⟩ | ⟨rfl, -⟩
    · obtain ⟨hne, hblank⟩ := Lexeme.mem_language_gap.mp hgap
      exact (Directive.stops_isNameChar_of_isBlank hblank).append_left hne
    · exact stops_nil
  have hname : CutsOnce (token .directiveName .directiveName)
      (opt (seq (text .gap) (token .directiveValue .directiveValue))) := by
    rintro s t s' t' ⟨_, _, _, hs, -⟩ ht ⟨_, _, _, hs', -⟩ ht' heq
    exact (append_inj_of_stops heq (Lexeme.mem_language_directiveName.mp hs).2 (htail t ht)
      (Lexeme.mem_language_directiveName.mp hs').2 (htail t' ht')).1
  refine (unambiguous_token.seq (unambiguous_opt
    (unambiguous_text.seq unambiguous_token hvalue) ?_) hname).node
  rintro ⟨_, _, _, gap, value, _, _, ⟨hgap, -⟩, -, hnil, -⟩
  exact (Lexeme.mem_language_gap.mp hgap).1 (List.append_eq_nil_iff.mp hnil.symm).1

end Phrase

namespace Rule

open Phrase

variable {rule : Rule}

/-- **No rule of a node reads a text in two ways.** -/
theorem unambiguous (h : rule ∉ roots) : rule.phrase.Unambiguous := by
  cases rule with
  | ows | rws | wsp | hostChar | hostLabels | pathChar | pctEncoded | tchar | uriChar | valueChar =>
    exact unambiguous_text
  | sourceEnd => exact unambiguous_sourceEnd
  | ancestorSource => exact unambiguous_ancestorSource
  | hashSource => exact unambiguous_hashSource
  | hostSource => exact unambiguous_hostSource
  | nonceSource => exact unambiguous_nonceSource
  | schemeSource => exact unambiguous_schemeSource
  | serializedDirective => exact unambiguous_serializedDirective
  | sourceExpression => exact unambiguous_sourceExpression
  | ttExpression => exact unambiguous_ttExpression
  | ancestorSourceListRoot | reportUriRoot | requireTrustedTypesForRoot | sandboxRoot
  | serializedPolicy | serializedSourceList | trustedTypesRoot => exact absurd (by decide) h
  | endOfInput =>
    rintro offset text rest trees others ⟨-, -, rfl⟩ ⟨-, -, rfl⟩
    rfl
  | _ => exact unambiguous_token

/-- **What is derived is taken**, where the text ends behind it. -/
theorem takes_of_derives {text : List Char} {trees : List Tree} (hrule : rule ∉ silent)
    (hend : rule ≠ .endOfInput) (h : rule.phrase.Derives 0 text [] trees) :
    rule.phrase.Takes text [] := by
  have hsource : ∀ p ∈ sourceAlternatives, p.2.Derives 0 text [] trees → p.2.Takes text [] :=
    fun p hp hderives => (isAlternative_source p hp).takes_of_derives hderives
  cases rule with
  | ows | rws | wsp | hostChar | hostLabels | pathChar | pctEncoded | tchar | uriChar | valueChar
  | sourceEnd => exact absurd (by decide) hrule
  | endOfInput => exact absurd rfl hend
  | ancestorKeywordSource =>
    exact (isAlternative_ancestor (.keywordSource, .ancestorKeywordSource)
      (by simp [ancestorAlternatives])).takes_of_derives h
  | ancestorSource => exact (isReader_ancestor .ancestorSourceListRoot).takes_of_derives h
  | ancestorSourceListRoot =>
    exact (isReader_ancestor .ancestorSourceListRoot).takes_list_of_derives h
  | base64Value => exact takes_token (Lexeme.takes_base64Value h.1 stops_nil)
  | directiveName => exact takes_token (Lexeme.takes_directiveName h.1 stops_nil)
  | directiveValue => exact takes_token (Lexeme.takes_directiveValue h.1 stops_nil)
  | hashAlgorithm =>
    obtain ⟨algorithm, hlower, -⟩ := exists_algorithm_of_mem h.1
    have htakes : Lexeme.hashAlgorithm.Takes _ [] := takes_hashAlgorithm hlower
    rw [String.toList_ofList] at htakes
    exact takes_token htakes
  | hashSource => exact hsource (.hashSource, .hashSource) (by simp [sourceAlternatives]) h
  | hostPart => exact takes_token (Lexeme.takes_hostPart h.1 stops_nil)
  | hostSource => exact hsource (.hostSource, .hostSource) (by simp [sourceAlternatives]) h
  | keywordSource => exact hsource (.keywordSource, .keywordSource) (by simp [sourceAlternatives]) h
  | nonceSource => exact hsource (.nonceSource, .nonceSource) (by simp [sourceAlternatives]) h
  | pathPart => exact takes_token (Lexeme.takes_pathPart h.1 stops_nil)
  | portPart => exact takes_token (Lexeme.takes_portPart h.1 stops_nil)
  | reportUriRoot => exact isReader_uriReference.takes_list_of_derives h
  | requireTrustedTypesForRoot => exact isReader_sinkGroup.takes_list_of_derives h
  | sandboxRoot => exact isReader_sandboxToken.takes_listOrNothing_of_derives h
  | schemePart => exact takes_token (Lexeme.takes_schemePart h.1 stops_nil)
  | schemeSource => exact hsource (.schemeSource, .schemeSource) (by simp [sourceAlternatives]) h
  | serializedDirective =>
    have hinput : (String.ofList text).toList = [] ++ (text ++ []) := by
      rw [String.toList_ofList, List.append_nil, List.nil_append]
    have hderives : Phrase.serializedDirective.Derives (utf8Len []) text [] trees := h
    obtain ⟨hclause, hbare, -⟩ := Directive.gives_of_derives hderives hinput
    exact Directive.takes_serializedDirective hclause hbare stops_nil
  | serializedPolicy =>
    have hinput : (String.ofList text).toList = text ++ [] := by
      rw [String.toList_ofList, List.append_nil]
    obtain ⟨houtline, -⟩ := Policy.matched_of_derives h hinput
    rw [Policy.clauses, String.toList_ofList] at houtline
    exact Policy.takes_serializedPolicy houtline
  | serializedSourceList => exact (isReader_source .serializedSourceList).takes_list_of_derives h
  | sourceExpression => exact (isReader_source .serializedSourceList).takes_of_derives h
  | token => exact isReader_sandboxToken.takes_of_derives h
  | trustedTypesRoot => exact isReader_ttExpression.takes_listOrNothing_of_derives h
  | trustedTypesSinkGroup => exact isReader_sinkGroup.takes_of_derives h
  | ttExpression => exact isReader_ttExpression.takes_of_derives h
  | ttKeyword =>
    obtain ⟨word, hword, htext⟩ :=
      (Lexeme.mem_language_oneOf_quotedWord isUpper_eq_false_of_trustedTypesKeyword).mp h.1
    exact takes_token (Lexeme.takes_oneOf_quotedWord hword isUpper_eq_false_of_trustedTypesKeyword
      (by decide) htext)
  | ttPolicyName =>
    obtain ⟨hne, hall⟩ := Lexeme.mem_language_plus_one.mp h.1
    exact takes_token (Lexeme.takes_plus_one hne hall stops_nil)
  | ttWildcard =>
    obtain rfl := Lexeme.mem_language_literal.mp h.1
    exact takes_token (Lexeme.takes_literal "*")
  | uriReference => exact takes_token (Lexeme.takes_uriReference h.1 stops_nil)

/-- **The derivation of a whole text is the one that is found.** -/
theorem trees_ofList_of_derives {text : List Char} {trees : List Tree} (hrule : rule ∉ silent)
    (hend : rule ≠ .endOfInput) (hroot : rule ∉ roots) (h : rule.phrase.Derives 0 text [] trees) :
    rule.trees (.ofList text) = .ok trees := by
  obtain ⟨own, hread⟩ := takes_of_derives hrule hend h 0
  obtain ⟨taken, htaken, -, hderives⟩ := exists_of_read hread
  obtain rfl : text = taken := List.append_cancel_right htaken
  rw [List.append_nil] at hread
  obtain rfl := unambiguous hroot _ _ _ _ _ h hderives
  refine trees_eq_ok_iff.mpr ⟨.atOffset (0 + utf8Len text) [], ?_⟩
  rw [Cursor.start, String.toList_ofList]
  exact hread

end Rule

/-! ### Well-formed trees -/

namespace Tree

/-- The node covers a stretch of the text from one place between characters to another, and its
children lie one behind the other inside of it. -/
structure Placed (input : String) (node : Tree) : Prop where
  start_le : node.start ≤ node.stop
  stop_le : node.stop ≤ input.utf8ByteSize
  start_valid : String.Pos.Raw.IsValid input ⟨node.start⟩
  stop_valid : String.Pos.Raw.IsValid input ⟨node.stop⟩
  children : InOrder node.start node.children node.stop

/-- The text of the node, matched by its rule, gives the same tree at the front, which covers all of
this text. -/
def StandsAlone (input : String) (node : Tree) : Prop :=
  ∃ own, node.rule.trees (node.text input) = .ok [own] ∧ own.moved node.start = node ∧
    own.start = 0 ∧ own.stop = (node.text input).utf8ByteSize

mutual

theorem moved_zero (tree : Tree) : tree.moved 0 = tree := by
  rcases tree with ⟨rule, start, stop, children⟩
  rw [moved, movedAll_zero, Nat.zero_add, Nat.zero_add]

theorem movedAll_zero (trees : List Tree) : movedAll 0 trees = trees := by
  cases trees with
  | nil => rfl
  | cons tree others => rw [movedAll, moved_zero, movedAll_zero]

end

variable {input : String} {node : Tree}

theorem Located.placed (h : node.Located 0 input.toList) : node.Placed input := by
  obtain ⟨front, covered, back, hinput, hstart, hstop, hderives⟩ := h
  rw [Nat.zero_add] at hstart
  have hsize := congrArg utf8Len hinput
  rw [String.utf8Len_toList, String.utf8Len_append, String.utf8Len_append] at hsize
  constructor
  · omega
  · omega
  · rw [hstart]
    exact isValid_of_append hinput
  · rw [hstop, hstart, ← String.utf8Len_append]
    exact isValid_of_append (hinput.trans (List.append_assoc ..).symm)
  · exact hderives.inOrder_children node (List.mem_singleton_self node)

theorem Located.standsAlone (h : node.Located 0 input.toList) (hroot : node.rule ∉ Rule.roots)
    (hend : node.rule ≠ .endOfInput) : node.StandsAlone input := by
  obtain ⟨front, covered, back, hinput, hstart, hstop, hderives⟩ := h
  rw [Nat.zero_add] at hstart
  have hsilent : node.rule ∉ Rule.silent := by
    intro hsilent
    cases Rule.trees_eq_nil_of_silent hsilent hderives
  have htext : node.text input = .ofList covered := by
    have htext := text_of_append node.rule node.children hinput
    rw [← hstart, ← hstop] at htext
    exact htext
  have hmovable : node.rule.phrase.Derives (node.start + 0) covered ([] ++ back) [node] := hderives
  obtain ⟨own, hmoved, hown⟩ := hmovable.isolate (Rule.composed_phrase hroot)
  obtain ⟨children, rfl⟩ := Rule.exists_tree_of_derives hsilent hown
  refine ⟨_, ?_, (List.singleton_inj.mp hmoved).symm, rfl, ?_⟩
  · rw [htext]
    exact Rule.trees_ofList_of_derives hsilent hend hroot hown
  · rw [htext, String.utf8ByteSize_ofList, Nat.zero_add]

theorem standsAlone_whole {rule : Rule} {taken : List Char} {children : List Tree}
    (hinput : input.toList = taken ++ [])
    (h : rule.trees input = .ok [⟨rule, 0, 0 + utf8Len taken, children⟩]) :
    (Tree.mk rule 0 (0 + utf8Len taken) children).StandsAlone input := by
  have htext : (Tree.mk rule 0 (0 + utf8Len taken) children).text input = input := by
    have hfront : input.toList = [] ++ (taken ++ []) := hinput
    rw [List.append_nil] at hinput
    refine (text_of_append rule children hfront).trans ?_
    rw [← hinput, String.ofList_toList]
  refine ⟨_, ?_, moved_zero _, rfl, ?_⟩
  · rw [htext]
    exact h
  · rw [htext, ← String.utf8Len_toList, hinput, List.append_nil, Nat.zero_add]

end Tree

/-- **Every tree is well-formed and stands on its own.**  A rule that is not recorded gives no
tree, and any other gives one, which starts at the front and covers a whole text if the rule is one
of whole texts.  Every node is placed inside the text with its children inside of it, one behind the
other; and apart from the end of the text, every node stands alone. -/
theorem Rule.trees_wellFormed (rule : Rule) (input : String) (trees : List Tree)
    (h : rule.trees input = .ok trees) :
    (rule ∈ silent → trees = []) ∧
    (rule ∉ silent → ∃ tree, trees = [tree] ∧ tree.rule = rule ∧ tree.start = 0 ∧
      (rule ∈ roots → tree.stop = input.utf8ByteSize)) ∧
    ∀ tree ∈ trees, ∀ node, tree.Contains node →
      node.Placed input ∧ (node.rule ≠ .endOfInput → node.StandsAlone input) := by
  obtain ⟨taken, rest, hinput, hderives⟩ := exists_derives_of_trees h
  refine ⟨fun hsilent => trees_eq_nil_of_silent hsilent hderives, fun hsilent => ?_, ?_⟩
  · obtain ⟨children, rfl⟩ := exists_tree_of_derives hsilent hderives
    refine ⟨_, rfl, rfl, rfl, fun hroot => ?_⟩
    rw [Nat.zero_add, ← String.utf8Len_toList, hinput, rest_eq_nil_of_mem_roots hroot hderives,
      List.append_nil]
  · intro tree htree node hnode
    by_cases hroot : rule ∈ roots
    · -- The root stands alone because it covers the whole text; what is below it has other rules.
      obtain ⟨body, hphrase, hcomposed, -⟩ := exists_body_of_mem_roots hroot
      obtain rfl := rest_eq_nil_of_mem_roots hroot hderives
      have hwhole := hderives
      rw [hphrase] at hderives
      obtain ⟨children, hbody, rfl⟩ := hderives
      obtain rfl := List.mem_singleton.mp htree
      cases hnode with
      | self =>
        have hlocated : (Tree.mk rule 0 (0 + utf8Len taken) children).Located 0 input.toList :=
          ⟨[], taken, [], hinput, rfl, rfl, hwhole⟩
        exact ⟨hlocated.placed, fun _ => Tree.standsAlone_whole hinput h⟩
      | inside hchild hnode =>
        obtain ⟨hlocated, hnodeRoot⟩ := hbody.located hcomposed _ hchild node hnode
        rw [← hinput] at hlocated
        exact ⟨hlocated.placed, hlocated.standsAlone hnodeRoot⟩
    · obtain ⟨hlocated, hnodeRoot⟩ :=
        hderives.located (composed_phrase hroot) tree htree node hnode
      rw [← hinput] at hlocated
      exact ⟨hlocated.placed, hlocated.standsAlone hnodeRoot⟩

theorem Rule.trees_wellFormed_sinkGroup :
    requireTrustedTypesForRoot.trees "'script'" =
      .ok [⟨.requireTrustedTypesForRoot, 0, 8,
        [⟨.trustedTypesSinkGroup, 0, 8, []⟩, ⟨.endOfInput, 8, 8, []⟩]⟩] ∧
    ∃ own, trustedTypesSinkGroup.trees ((Tree.mk .trustedTypesSinkGroup 0 8 []).text "'script'") =
      .ok [own] ∧ own.moved 0 = ⟨.trustedTypesSinkGroup, 0, 8, []⟩ := by
  have htrees : requireTrustedTypesForRoot.trees "'script'" =
      .ok [⟨.requireTrustedTypesForRoot, 0, 8,
        [⟨.trustedTypesSinkGroup, 0, 8, []⟩, ⟨.endOfInput, 8, 8, []⟩]⟩] := by
    with_unfolding_all rfl
  refine ⟨htrees, ?_⟩
  obtain ⟨-, -, hnodes⟩ := trees_wellFormed .requireTrustedTypesForRoot "'script'" _ htrees
  obtain ⟨-, halone⟩ := hnodes _ (List.mem_singleton_self _) ⟨.trustedTypesSinkGroup, 0, 8, []⟩
    (.inside (List.mem_cons_self ..) (.self _))
  obtain ⟨own, hown, hmoved, -⟩ := halone (by decide)
  exact ⟨own, hown, hmoved⟩

end ContentSecurity.Grammar

import ContentSecurity.Proofs.Grammar.Trees
/-!
# The nodes of a tree

Every node of a derived tree has a derivation of its own: for the stretch of the text that it covers
and by the rule that it names (`Phrase.Derives.located`), since every part of a phrase that has a
rule is the phrase of this rule (`Phrase.Composed`).  The children of a node lie one behind the
other inside of it (`Phrase.Derives.inOrder`).  What follows a stretch of the text matters for the
end of a source only, which a break and the end of the text show alike; so a derivation remains one
when the text ends behind the stretch, and when the stretch is moved (`Phrase.Derives.isolate`).
-/

namespace ContentSecurity.Grammar

open String (utf8Len)

/-! ### Rules of which nothing is recorded, and rules of whole texts -/

namespace Rule

/-- The rules that are not recorded. -/
def silent : List Rule :=
  [.ows, .rws, .wsp, .hostChar, .hostLabels, .pathChar, .pctEncoded, .sourceEnd, .tchar, .uriChar,
    .valueChar]

/-- The rules of whole texts. -/
def roots : List Rule :=
  [.serializedPolicy, .serializedSourceList, .ancestorSourceListRoot, .sandboxRoot, .reportUriRoot,
    .trustedTypesRoot, .requireTrustedTypesForRoot]

end Rule

/-! ### Trees -/

namespace Tree

/-- The tree is this node, or has it below. -/
inductive Contains : Tree → Tree → Prop
  | self (tree : Tree) : Contains tree tree
  | inside {tree child node : Tree} (hmem : child ∈ tree.children) (h : Contains child node) :
      Contains tree node

/-- The trees lie one behind the other between two offsets. -/
def InOrder : Nat → List Tree → Nat → Prop
  | start, [], stop => start ≤ stop
  | start, tree :: others, stop =>
    start ≤ tree.start ∧ tree.start ≤ tree.stop ∧ InOrder tree.stop others stop

mutual

/-- The same tree, further to the back. -/
def moved (distance : Nat) : Tree → Tree
  | ⟨rule, start, stop, children⟩ =>
    ⟨rule, distance + start, distance + stop, movedAll distance children⟩

/-- `moved` for each of several trees. -/
def movedAll (distance : Nat) : List Tree → List Tree
  | [] => []
  | tree :: others => tree.moved distance :: movedAll distance others

end

variable {trees others : List Tree} {start middle stop distance : Nat}

theorem movedAll_append (distance : Nat) (trees others : List Tree) :
    movedAll distance (trees ++ others) = movedAll distance trees ++ movedAll distance others := by
  induction trees with
  | nil => rfl
  | cons tree trees ih => simp [movedAll, ih]

theorem InOrder.append (h : InOrder start trees middle) (hothers : InOrder middle others stop) :
    InOrder start (trees ++ others) stop := by
  induction trees generalizing start with
  | nil =>
    cases others with
    | nil => exact Nat.le_trans h hothers
    | cons tree others => exact ⟨Nat.le_trans h hothers.1, hothers.2⟩
  | cons tree trees ih =>
    obtain ⟨hfirst, hspan, hbehind⟩ := h
    exact ⟨hfirst, hspan, ih hbehind⟩

/-- The node covers a stretch of the text, by a derivation of its own rule. -/
def Located (offset : Nat) (text : List Char) (node : Tree) : Prop :=
  ∃ front covered back, text = front ++ (covered ++ back) ∧
    node.start = offset + utf8Len front ∧ node.stop = node.start + utf8Len covered ∧
    node.rule.phrase.Derives node.start covered back [node]

theorem Located.behind {offset : Nat} {s text : List Char} {node : Tree}
    (h : Located (offset + utf8Len s) text node) : Located offset (s ++ text) node := by
  obtain ⟨front, covered, back, rfl, hstart, hstop, hderives⟩ := h
  refine ⟨s ++ front, covered, back, by simp, ?_, hstop, hderives⟩
  rw [hstart, String.utf8Len_append, Nat.add_assoc]

end Tree

namespace Phrase

variable {p : Phrase} {offset distance : Nat} {text rest back : List Char} {trees : List Tree}

/-! ### Every node by its own rule -/

/-- Every part that has a rule is the phrase of this rule, which is not one of a whole text.  The
only look ahead is that for the end of a source. -/
def Composed : Phrase → Prop
  | .text _ => True
  | .token rule lexeme => rule.phrase = .token rule lexeme ∧ rule ∉ Rule.roots
  | .node rule body => rule.phrase = .node rule body ∧ rule ∉ Rule.roots ∧ body.Composed
  | .seq first second => first.Composed ∧ second.Composed
  | .alt first second => first.Composed ∧ second.Composed
  | .star item => item.Composed
  | .finish => True
  | .ahead body => .ahead body = sourceEnd

theorem Derives.located (hp : p.Composed) (h : p.Derives offset text rest trees) :
    ∀ tree ∈ trees, ∀ node, tree.Contains node →
      node.Located offset (text ++ rest) ∧ node.rule ∉ Rule.roots := by
  induction p generalizing offset text rest trees with
  | text lexeme =>
    obtain ⟨-, rfl⟩ := h
    simp
  | token rule lexeme =>
    obtain ⟨hmem, rfl⟩ := h
    intro tree htree node hnode
    obtain rfl := List.mem_singleton.mp htree
    cases hnode with
    | self =>
      refine ⟨⟨[], text, rest, rfl, rfl, rfl, ?_⟩, hp.2⟩
      simp only [hp.1]
      exact ⟨hmem, rfl⟩
    | inside hchild => cases hchild
  | node rule body ih =>
    obtain ⟨children, hbody, rfl⟩ := h
    intro tree htree node hnode
    obtain rfl := List.mem_singleton.mp htree
    cases hnode with
    | self =>
      refine ⟨⟨[], text, rest, rfl, rfl, rfl, ?_⟩, hp.2.1⟩
      simp only [hp.1]
      exact ⟨children, hbody, rfl⟩
    | inside hchild hnode => exact ih hp.2.2 hbody _ hchild node hnode
  | seq first second ih₁ ih₂ =>
    obtain ⟨s, t, ss, ts, hs, ht, rfl, rfl⟩ := h
    intro tree htree node hnode
    rw [List.append_assoc]
    rcases List.mem_append.mp htree with htree | htree
    · exact ih₁ hp.1 hs tree htree node hnode
    · obtain ⟨hlocated, hroot⟩ := ih₂ hp.2 ht tree htree node hnode
      exact ⟨hlocated.behind, hroot⟩
  | alt first second ih₁ ih₂ =>
    rcases h with h | h
    · exact ih₁ hp.1 h
    · exact ih₂ hp.2 h
  | star item ih =>
    have hrepeats : Repeats item.Derives offset text rest trees := h
    induction hrepeats with
    | nil => simp
    | @cons offset s others rest ss ts first further ihs =>
      intro tree htree node hnode
      rw [List.append_assoc]
      rcases List.mem_append.mp htree with htree | htree
      · exact ih hp first tree htree node hnode
      · obtain ⟨hlocated, hroot⟩ := ihs further tree htree node hnode
        exact ⟨hlocated.behind, hroot⟩
  | finish =>
    obtain ⟨rfl, rfl, rfl⟩ := h
    intro tree htree node hnode
    obtain rfl := List.mem_singleton.mp htree
    cases hnode with
    | self =>
      have hroot : Rule.endOfInput ∉ Rule.roots := by decide
      exact ⟨⟨[], [], [], rfl, rfl, rfl, rfl, rfl, rfl⟩, hroot⟩
    | inside hchild => cases hchild
  | ahead body ih =>
    obtain ⟨-, rfl, -⟩ := h
    simp

/-! ### The places of children -/

/-- **The trees lie one behind the other inside the text.** -/
theorem Derives.inOrder (h : p.Derives offset text rest trees) :
    Tree.InOrder offset trees (offset + utf8Len text) := by
  induction p generalizing offset text rest trees with
  | text lexeme =>
    obtain ⟨-, rfl⟩ := h
    exact Nat.le_add_right ..
  | token rule lexeme =>
    obtain ⟨-, rfl⟩ := h
    exact ⟨le_rfl, Nat.le_add_right .., le_rfl⟩
  | node rule body ih =>
    obtain ⟨children, -, rfl⟩ := h
    exact ⟨le_rfl, Nat.le_add_right .., le_rfl⟩
  | seq first second ih₁ ih₂ =>
    obtain ⟨s, t, ss, ts, hs, ht, rfl, rfl⟩ := h
    rw [String.utf8Len_append, ← Nat.add_assoc]
    exact (ih₁ hs).append (ih₂ ht)
  | alt first second ih₁ ih₂ =>
    rcases h with h | h
    · exact ih₁ h
    · exact ih₂ h
  | star item ih =>
    have hrepeats : Repeats item.Derives offset text rest trees := h
    induction hrepeats with
    | nil => exact Nat.le_add_right ..
    | cons first further ihs =>
      rw [String.utf8Len_append, ← Nat.add_assoc]
      exact (ih first).append (ihs further)
  | finish =>
    obtain ⟨rfl, -, rfl⟩ := h
    exact ⟨le_rfl, le_rfl, le_rfl⟩
  | ahead body ih =>
    obtain ⟨rfl, rfl, -⟩ := h
    exact Nat.le_add_right ..

theorem Derives.inOrder_children (h : p.Derives offset text rest trees) :
    ∀ tree ∈ trees, Tree.InOrder tree.start tree.children tree.stop := by
  induction p generalizing offset text rest trees with
  | text lexeme =>
    obtain ⟨-, rfl⟩ := h
    simp
  | token rule lexeme =>
    obtain ⟨-, rfl⟩ := h
    exact List.forall_mem_singleton.mpr (Nat.le_add_right ..)
  | node rule body ih =>
    obtain ⟨children, hbody, rfl⟩ := h
    exact List.forall_mem_singleton.mpr hbody.inOrder
  | seq first second ih₁ ih₂ =>
    obtain ⟨s, t, ss, ts, hs, ht, -, rfl⟩ := h
    exact List.forall_mem_append.mpr ⟨ih₁ hs, ih₂ ht⟩
  | alt first second ih₁ ih₂ =>
    rcases h with h | h
    · exact ih₁ h
    · exact ih₂ h
  | star item ih =>
    have hrepeats : Repeats item.Derives offset text rest trees := h
    induction hrepeats with
    | nil => simp
    | cons first further ihs => exact List.forall_mem_append.mpr ⟨ih first, ihs further⟩
  | finish =>
    obtain ⟨-, -, rfl⟩ := h
    exact List.forall_mem_singleton.mpr le_rfl
  | ahead body ih =>
    obtain ⟨-, rfl, -⟩ := h
    simp

/-! ### Where the text is cut off -/

theorem derives_sourceEnd_of_append {offset' : Nat}
    (h : sourceEnd.Derives offset text (rest ++ back) trees) :
    trees = [] ∧ sourceEnd.Derives offset' text rest [] := by
  obtain ⟨rfl, rfl, s, t, ss, heq, hend⟩ := h
  refine ⟨rfl, rfl, rfl, ?_⟩
  cases rest with
  | nil => exact ⟨[], [], _, rfl, Or.inr ⟨rfl, rfl, rfl⟩⟩
  | cons c rest =>
    rcases hend with ⟨⟨d, hd, rfl⟩, -⟩ | ⟨rfl, rfl, -⟩
    · obtain ⟨rfl, -⟩ := List.cons.inj heq
      exact ⟨[c], rest, [], rfl, Or.inl ⟨⟨c, hd, rfl⟩, rfl⟩⟩
    · cases heq

theorem repeats_isolate {item : Phrase} {start : Nat} {after : List Char}
    (hitem : ∀ {offset text rest trees},
      item.Derives (distance + offset) text (rest ++ back) trees →
        ∃ own, trees = Tree.movedAll distance own ∧ item.Derives offset text rest own)
    (h : Repeats item.Derives start text after trees) (hstart : start = distance + offset)
    (hafter : after = rest ++ back) :
    ∃ own, trees = Tree.movedAll distance own ∧ Repeats item.Derives offset text rest own := by
  induction h generalizing offset with
  | nil => exact ⟨[], rfl, .nil⟩
  | @cons start s others after ss ts first further ih =>
    subst hstart hafter
    rw [← List.append_assoc] at first
    obtain ⟨own, rfl, hown⟩ := hitem first
    obtain ⟨siblings, rfl, hsiblings⟩ := ih (Nat.add_assoc ..) rfl
    exact ⟨own ++ siblings, (Tree.movedAll_append ..).symm, .cons hown hsiblings⟩

/-- **A derivation remains one when the text is cut off behind it, and when it is moved.** -/
theorem Derives.isolate (hp : p.Composed)
    (h : p.Derives (distance + offset) text (rest ++ back) trees) :
    ∃ own, trees = Tree.movedAll distance own ∧ p.Derives offset text rest own := by
  induction p generalizing offset text rest trees with
  | text lexeme =>
    obtain ⟨hmem, rfl⟩ := h
    exact ⟨[], rfl, hmem, rfl⟩
  | token rule lexeme =>
    obtain ⟨hmem, rfl⟩ := h
    refine ⟨_, ?_, hmem, rfl⟩
    rw [Nat.add_assoc]
    rfl
  | node rule body ih =>
    obtain ⟨children, hbody, rfl⟩ := h
    obtain ⟨own, rfl, hown⟩ := ih hp.2.2 hbody
    refine ⟨_, ?_, own, hown, rfl⟩
    rw [Nat.add_assoc]
    rfl
  | seq first second ih₁ ih₂ =>
    obtain ⟨s, t, ss, ts, hs, ht, rfl, rfl⟩ := h
    rw [← List.append_assoc] at hs
    rw [Nat.add_assoc] at ht
    obtain ⟨own, rfl, hown⟩ := ih₁ hp.1 hs
    obtain ⟨others, rfl, hothers⟩ := ih₂ hp.2 ht
    exact ⟨own ++ others, (Tree.movedAll_append ..).symm, s, t, own, others, hown, hothers, rfl,
      rfl⟩
  | alt first second ih₁ ih₂ =>
    rcases h with h | h
    · obtain ⟨own, hmoved, hown⟩ := ih₁ hp.1 h
      exact ⟨own, hmoved, Or.inl hown⟩
    · obtain ⟨own, hmoved, hown⟩ := ih₂ hp.2 h
      exact ⟨own, hmoved, Or.inr hown⟩
  | star item ih => exact repeats_isolate (ih hp) h rfl rfl
  | finish =>
    obtain ⟨rfl, hrest, rfl⟩ := h
    exact ⟨_, rfl, rfl, (List.append_eq_nil_iff.mp hrest).1, rfl⟩
  | ahead body ih =>
    have hbody : Phrase.ahead body = sourceEnd := hp
    rw [hbody] at h ⊢
    obtain ⟨rfl, hend⟩ := derives_sourceEnd_of_append h
    exact ⟨[], rfl, hend⟩

/-! ### What the rules are composed of -/

/-- The phrase ends with the end of the text. -/
def Finishes : Phrase → Prop
  | .node _ body => body.Finishes
  | .seq _ second => second.Finishes
  | .finish => True
  | _ => False

theorem Derives.rest_eq_nil (hp : p.Finishes) (h : p.Derives offset text rest trees) :
    rest = [] := by
  induction p generalizing offset text rest trees with
  | node rule body ih =>
    obtain ⟨children, hbody, -⟩ := h
    exact ih hp hbody
  | seq first second ih₁ ih₂ =>
    obtain ⟨s, t, ss, ts, -, ht, -, -⟩ := h
    exact ih₂ hp ht
  | finish => exact h.2.1
  | _ => cases hp

theorem composed_schemePart : schemePart.Composed :=
  ⟨rfl, by decide⟩

theorem composed_base64Value : base64Value.Composed :=
  ⟨rfl, by decide⟩

theorem composed_schemeSource : schemeSource.Composed :=
  ⟨rfl, by decide, composed_schemePart, trivial, rfl⟩

theorem composed_hostSource : hostSource.Composed :=
  ⟨rfl, by decide, ⟨⟨composed_schemePart, trivial⟩, trivial⟩, ⟨rfl, by decide⟩,
    ⟨⟨trivial, rfl, by decide⟩, trivial⟩, ⟨⟨rfl, by decide⟩, trivial⟩, rfl⟩

theorem composed_nonceSource : nonceSource.Composed :=
  ⟨rfl, by decide, trivial, trivial, composed_base64Value, trivial⟩

theorem composed_hashSource : hashSource.Composed :=
  ⟨rfl, by decide, trivial, ⟨rfl, by decide⟩, trivial, composed_base64Value, trivial⟩

theorem composed_sourceExpression : sourceExpression.Composed :=
  ⟨rfl, by decide, composed_schemeSource, composed_hostSource, ⟨rfl, by decide⟩,
    composed_nonceSource, composed_hashSource⟩

theorem composed_ancestorSource : ancestorSource.Composed :=
  ⟨rfl, by decide, composed_schemeSource, composed_hostSource, rfl, by decide⟩

theorem composed_ttExpression : ttExpression.Composed :=
  ⟨rfl, by decide, ⟨rfl, by decide⟩, ⟨rfl, by decide⟩, rfl, by decide⟩

theorem composed_serializedDirective : serializedDirective.Composed :=
  ⟨rfl, by decide, ⟨rfl, by decide⟩, ⟨trivial, rfl, by decide⟩, trivial⟩

theorem composed_separated {item : Phrase} (h : item.Composed) : (separated item .gap).Composed :=
  ⟨h, trivial, h⟩

end Phrase

namespace Rule

open Phrase

variable {rule : Rule}

theorem composed_phrase (h : rule ∉ roots) : rule.phrase.Composed := by
  cases rule with
  | ows | rws | wsp | hostChar | hostLabels | pathChar | pctEncoded | tchar | uriChar | valueChar
  | endOfInput => exact trivial
  | ancestorSource => exact composed_ancestorSource
  | hashSource => exact composed_hashSource
  | hostSource => exact composed_hostSource
  | nonceSource => exact composed_nonceSource
  | schemeSource => exact composed_schemeSource
  | serializedDirective => exact composed_serializedDirective
  | sourceEnd => exact rfl
  | sourceExpression => exact composed_sourceExpression
  | ttExpression => exact composed_ttExpression
  | ancestorSourceListRoot | reportUriRoot | requireTrustedTypesForRoot | sandboxRoot
  | serializedPolicy | serializedSourceList | trustedTypesRoot => exact absurd (by decide) h
  | _ => exact ⟨rfl, h⟩

/-- A rule of a whole text is a node that goes to the end of the text. -/
theorem exists_body_of_mem_roots (h : rule ∈ roots) :
    ∃ body, rule.phrase = .node rule body ∧ body.Composed ∧ body.Finishes := by
  cases rule with
  | serializedPolicy =>
    exact ⟨_, rfl, ⟨trivial, composed_serializedDirective,
      ⟨trivial, trivial, ⟨trivial, composed_serializedDirective⟩, trivial⟩, trivial, trivial⟩,
      trivial⟩
  | serializedSourceList =>
    exact ⟨_, rfl, ⟨composed_separated composed_sourceExpression, trivial⟩, trivial⟩
  | ancestorSourceListRoot =>
    exact ⟨_, rfl, ⟨composed_separated composed_ancestorSource, trivial⟩, trivial⟩
  | sandboxRoot =>
    exact ⟨_, rfl, ⟨⟨composed_separated ⟨rfl, by decide⟩, trivial⟩, trivial⟩, trivial⟩
  | reportUriRoot => exact ⟨_, rfl, ⟨composed_separated ⟨rfl, by decide⟩, trivial⟩, trivial⟩
  | trustedTypesRoot =>
    exact ⟨_, rfl, ⟨⟨composed_separated composed_ttExpression, trivial⟩, trivial⟩, trivial⟩
  | requireTrustedTypesForRoot =>
    exact ⟨_, rfl, ⟨composed_separated ⟨rfl, by decide⟩, trivial⟩, trivial⟩
  | _ => exact absurd h (by decide)

variable {offset : Nat} {text rest : List Char} {trees : List Tree}

theorem rest_eq_nil_of_mem_roots (h : rule ∈ roots)
    (hderives : rule.phrase.Derives offset text rest trees) : rest = [] := by
  obtain ⟨body, hphrase, -, hfinishes⟩ := exists_body_of_mem_roots h
  rw [hphrase] at hderives
  obtain ⟨children, hbody, -⟩ := hderives
  exact hbody.rest_eq_nil hfinishes

theorem trees_eq_nil_of_silent (hrule : rule ∈ silent)
    (h : rule.phrase.Derives offset text rest trees) : trees = [] := by
  cases rule with
  | ows | rws | wsp | hostChar | hostLabels | pathChar | pctEncoded | tchar | uriChar | valueChar =>
    exact h.2
  | sourceEnd => exact h.2.1
  | _ => exact absurd hrule (by decide)

/-- A rule that is recorded gives one tree, which covers the text. -/
theorem exists_tree_of_derives (hrule : rule ∉ silent)
    (h : rule.phrase.Derives offset text rest trees) :
    ∃ children, trees = [⟨rule, offset, offset + utf8Len text, children⟩] := by
  cases rule with
  | ows | rws | wsp | hostChar | hostLabels | pathChar | pctEncoded | tchar | uriChar | valueChar
  | sourceEnd => exact absurd (by decide) hrule
  | ancestorSource | ancestorSourceListRoot | hashSource | hostSource | nonceSource | reportUriRoot
  | requireTrustedTypesForRoot | sandboxRoot | schemeSource | serializedDirective | serializedPolicy
  | serializedSourceList | sourceExpression | trustedTypesRoot | ttExpression =>
    obtain ⟨children, -, rfl⟩ := h
    exact ⟨children, rfl⟩
  | endOfInput =>
    obtain ⟨rfl, -, rfl⟩ := h
    exact ⟨[], rfl⟩
  | _ => exact ⟨[], h.2⟩

end Rule

end ContentSecurity.Grammar

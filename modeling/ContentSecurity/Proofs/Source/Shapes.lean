import ContentSecurity.Proofs.Grammar.Trees
import ContentSecurity.Proofs.Reading
/-!
# Sources of trees of any shape

A tree may be built by hand, with any rules, any children and any spans.  Taking the sources out of
it either gives one for each entry, with the text of what the entry holds, or ends at the first
entry that has another shape than the grammar gives it.  What such an entry may lack is said by
`Source.Faulty`, without regard to the order in which it is looked for; that entry alone is
reported, once, and no entry is passed over.
-/

namespace ContentSecurity

open Grammar Reading

namespace Grammar

namespace Rule

/-- The rules of the trees that have a meaning as a source. -/
def sources : List Rule :=
  [.schemeSource, .hostSource, .keywordSource, .ancestorKeywordSource, .nonceSource, .hashSource]

/-- The number of children that the tree of a source has, where it has to be looked at. -/
def childCount? : Rule → Option Nat
  | .nonceSource => some 1
  | .hashSource => some 2
  | _ => none

/-- The parts that the tree of a source cannot be without. -/
def mandatory : Rule → List Rule
  | .schemeSource => [.schemePart]
  | .hostSource => [.hostPart]
  | .nonceSource => [.base64Value]
  | .hashSource => [.hashAlgorithm, .base64Value]
  | _ => []

theorem ne_of_mem_mandatory {rule part : Rule} (h : part ∈ rule.mandatory) : rule ≠ part := by
  rintro rfl
  revert h
  cases rule <;> decide

end Rule

namespace Tree

variable {tree : Tree} {part : Rule}

/-- No child is of the rule. -/
def Lacks (tree : Tree) (part : Rule) : Prop :=
  ∀ child ∈ tree.children, child.rule ≠ part

theorem find?_eq_none_iff_lacks :
    tree.children.find? (·.rule = part) = none ↔ tree.Lacks part := by
  simp [Lacks]

/-- A mandatory part is a child: the tree itself is of another rule. -/
theorem part?_eq_find? (h : part ∈ tree.rule.mandatory) (input : String) :
    tree.part? input part = (tree.children.find? (·.rule = part)).map (·.text input) := by
  rcases tree with ⟨rule, start, stop, children⟩
  exact part?_mk (Rule.ne_of_mem_mandatory h) input

theorem not_lacks_of_find? {child : Tree}
    (h : tree.children.find? (·.rule = part) = some child) : ¬ tree.Lacks part := by
  rw [← find?_eq_none_iff_lacks, h]
  exact Option.some_ne_none child

end Tree

end Grammar

/-! ### One tree -/

namespace Expression

variable {input : String} {tree : Tree} {fault : Defect} {expression : Expression}

/-- What can be wrong with the tree of a source. -/
inductive Misshapen (input : String) (tree : Tree) : Defect → Prop
  | foreign (h : tree.rule ∉ Rule.sources) : Misshapen input tree (.foreignSource tree.rule)
  | wrongCount {expected : Nat} (hrule : tree.rule.childCount? = some expected)
      (h : tree.children.length ≠ expected) :
      Misshapen input tree (.wrongCount tree.rule tree.children.length expected)
  | missingPart {part : Rule} (hrule : part ∈ tree.rule.mandatory) (h : tree.Lacks part) :
      Misshapen input tree (.missingPart tree.rule part)
  | unknownAlgorithm {child : Tree} (hrule : tree.rule = .hashSource)
      (hchild : tree.children.find? (·.rule = .hashAlgorithm) = some child)
      (h : HashAlgorithm.parse? (child.text input) = none) :
      Misshapen input tree (.unknownAlgorithm (child.text input))

/-- The shape that the grammar gives the tree of a source, as far as its meaning goes. -/
structure WellShaped (input : String) (tree : Tree) : Prop where
  known : tree.rule ∈ Rule.sources
  count : ∀ expected, tree.rule.childCount? = some expected → tree.children.length = expected
  parts : ∀ part ∈ tree.rule.mandatory, ¬ tree.Lacks part
  algorithm : tree.rule = .hashSource →
    ∀ child, tree.children.find? (·.rule = .hashAlgorithm) = some child →
      HashAlgorithm.parse? (child.text input) ≠ none

theorem WellShaped.not_misshapen (h : WellShaped input tree) : ¬ Misshapen input tree fault := by
  intro hfault
  cases hfault with
  | foreign hrule => exact hrule h.known
  | wrongCount hrule hcount => exact hcount (h.count _ hrule)
  | missingPart hpart hlacks => exact h.parts _ hpart hlacks
  | unknownAlgorithm hrule hchild hunknown => exact h.algorithm hrule _ hchild hunknown

theorem settles_part {part : Rule} (h : part ∈ tree.rule.mandatory) :
    (tree.part input part).Settles
      (fun text => ∃ child, tree.children.find? (·.rule = part) = some child ∧
        child.text input = text)
      (Misshapen input tree) := by
  rw [Tree.part, Tree.part?_eq_find? h]
  cases hfound : tree.children.find? (·.rule = part) with
  | none => exact settles_report (.missingPart h (Tree.find?_eq_none_iff_lacks.mp hfound))
  | some child => exact settles_pure ⟨child, rfl, rfl⟩

theorem settles_checkCount {expected : Nat} (h : tree.rule.childCount? = some expected) :
    (tree.checkCount expected).Settles (fun _ => tree.children.length = expected)
      (Misshapen input tree) := by
  rw [Tree.checkCount]
  by_cases hcount : tree.children.length = expected
  · rw [if_pos hcount]
    exact settles_pure hcount
  · rw [if_neg hcount]
    exact settles_report (.wrongCount h hcount)

theorem ofTree_of_not_mem (h : tree.rule ∉ Rule.sources) :
    ofTree input tree = .report (.foreignSource tree.rule) := by
  rcases tree with ⟨rule, start, stop, children⟩
  change rule ∉ Rule.sources at h
  cases rule with
  | schemeSource | hostSource | keywordSource | ancestorKeywordSource | nonceSource | hashSource =>
    exact absurd (by decide) h
  | _ => rfl

theorem settles_hash {start stop : Nat} {children : List Tree} :
    (ofTree input ⟨.hashSource, start, stop, children⟩).Settles
      (fun _ => WellShaped input ⟨.hashSource, start, stop, children⟩)
      (Misshapen input ⟨.hashSource, start, stop, children⟩) := by
  have hknown : Rule.hashSource ∈ Rule.sources := by decide
  have hname : Rule.hashAlgorithm ∈ Rule.hashSource.mandatory := by decide
  have hdigest : Rule.base64Value ∈ Rule.hashSource.mandatory := by decide
  apply (settles_checkCount rfl).bind
  intro _ hcount
  apply (settles_part hname).bind
  rintro name ⟨child, hchild, rfl⟩
  -- the algorithm is looked up before the digest, so its name is what is wrong if it is unknown
  cases halgorithm : HashAlgorithm.parse? (child.text input) with
  | none => exact settles_report (.unknownAlgorithm rfl hchild halgorithm)
  | some algorithm =>
    apply (settles_part hdigest).bind
    rintro digest ⟨value, hvalue, -⟩
    refine settles_pure ⟨hknown, ?_, ?_, ?_⟩
    · intro expected hexpected
      cases hexpected
      exact hcount
    · exact List.forall_mem_cons.mpr ⟨Tree.not_lacks_of_find? hchild,
        List.forall_mem_singleton.mpr (Tree.not_lacks_of_find? hvalue)⟩
    · intro _ other hother
      obtain rfl := Option.some.inj (hchild.symm.trans hother)
      rw [halgorithm]
      exact Option.some_ne_none algorithm

/-- **A tree has a meaning if it is of the right shape**, and the defect that is reported of any
other is one that it has. -/
theorem settles_ofTree (input : String) (tree : Tree) :
    (ofTree input tree).Settles (fun _ => WellShaped input tree) (Misshapen input tree) := by
  by_cases hknown : tree.rule ∈ Rule.sources
  · rcases tree with ⟨rule, start, stop, children⟩
    change rule ∈ Rule.sources at hknown
    cases rule with
    | schemeSource =>
      have hscheme : Rule.schemePart ∈ Rule.schemeSource.mandatory := by decide
      apply (settles_part hscheme).bind
      rintro scheme ⟨child, hchild, -⟩
      refine settles_pure ⟨hknown, nofun, ?_, nofun⟩
      exact List.forall_mem_singleton.mpr (Tree.not_lacks_of_find? hchild)
    | hostSource =>
      have hhost : Rule.hostPart ∈ Rule.hostSource.mandatory := by decide
      apply (settles_part hhost).bind
      rintro name ⟨child, hchild, -⟩
      refine settles_pure ⟨hknown, nofun, ?_, nofun⟩
      exact List.forall_mem_singleton.mpr (Tree.not_lacks_of_find? hchild)
    | keywordSource | ancestorKeywordSource =>
      exact settles_pure ⟨hknown, nofun, nofun, nofun⟩
    | nonceSource =>
      have hvalue : Rule.base64Value ∈ Rule.nonceSource.mandatory := by decide
      apply (settles_checkCount rfl).bind
      intro _ hcount
      apply (settles_part hvalue).bind
      rintro value ⟨child, hchild, -⟩
      refine settles_pure ⟨hknown, ?_, ?_, nofun⟩
      · intro expected hexpected
        cases hexpected
        exact hcount
      · exact List.forall_mem_singleton.mpr (Tree.not_lacks_of_find? hchild)
    | hashSource => exact settles_hash
    | _ => exact absurd hknown (by decide)
  · rw [ofTree_of_not_mem hknown]
    exact settles_report (.foreign hknown)

end Expression

/-! ### The entries of a list -/

namespace Source

variable {input : String} {list : Rule} {entry : Tree} {fault : Defect} {source : Source}

/-- What can be wrong with an entry of the list `list`. -/
inductive Faulty (input : String) (list : Rule) (entry : Tree) : Defect → Prop
  | notSingle (h : entry.children.length ≠ 1) :
      Faulty input list entry (.notSingle entry.rule list entry.children.length)
  | misshapen {tree : Tree} {fault : Defect} (htree : entry.children = [tree])
      (h : Expression.Misshapen input tree fault) : Faulty input list entry fault

/-- The source is written as the only child of the entry is, and it is not `'none'`. -/
def TakenFrom (input : String) (entry : Tree) (source : Source) : Prop :=
  ∃ tree, entry.children = [tree] ∧ source.raw = tree.text input ∧ source ≠ .none

/-- The nodes of a tree that are entries of a list. -/
def entries (tree : Tree) : List Tree :=
  tree.search [.sourceExpression, .ancestorSource] 2

theorem not_faulty {tree : Tree} (htree : entry.children = [tree])
    (h : Expression.WellShaped input tree) : ¬ Faulty input list entry fault := by
  intro hfault
  cases hfault with
  | notSingle hcount => exact hcount (htree ▸ rfl)
  | misshapen hother hmisshapen =>
    obtain rfl := List.singleton_inj.mp (htree.symm.trans hother)
    exact h.not_misshapen hmisshapen

/-- An entry has a source if nothing is wrong with it. -/
theorem settles_ofEntry (input : String) (list : Rule) (entry : Tree) :
    (ofEntry input list entry).Settles
      (fun source => TakenFrom input entry source ∧ ∀ fault, ¬ Faulty input list entry fault)
      (Faulty input list entry) := by
  rcases entry with ⟨rule, start, stop, children⟩
  match children with
  | [] => exact settles_report (.notSingle (by simp))
  | [tree] =>
    refine ((Expression.settles_ofTree input tree).mono fun fault h => .misshapen rfl h).bind ?_
    intro expression hshape
    exact settles_pure ⟨⟨tree, rfl, rfl, Source.noConfusion⟩, fun _ => not_faulty rfl hshape⟩
  | first :: second :: others => exact settles_report (.notSingle (by simp))

/-- **Whatever the tree, its sources are taken out or its first faulty entry is reported.**  Either
every entry has a source and nothing happens, or the error is a defect of the first entry that has
one, and the same defect is the only event, a warning.  There is no other error. -/
theorem interpret_takes_or_reports (input : String) (list : Rule) (tree : Tree) :
    (∃ sources, interpret input list tree = ⟨[], .ok sources⟩ ∧
      (∀ entry ∈ entries tree, ∀ fault, ¬ Faulty input list entry fault) ∧
      List.Forall₂ (TakenFrom input) (entries tree) sources) ∨
    ∃ front entry back fault, entries tree = front ++ entry :: back ∧
      (∀ other ∈ front, ∀ fault, ¬ Faulty input list other fault) ∧
      Faulty input list entry fault ∧
      (interpret input list tree).result = .error (.defect fault) ∧
      (Error.defect fault).message = "Internal invariant violated: " ++ fault.message ∧
      (interpret input list tree).events.map Event.record =
        [(.warn, "CSP grammar/dispatcher mismatch: " ++ fault.message)] := by
  have hread : (interpret input list tree).Settles _ _ :=
    settles_mapM (settles_ofEntry input list) (entries tree)
  obtain ⟨sources, hsources, heq⟩ | ⟨fault, ⟨front, entry, back, hsplit, hfront, hentry⟩, heq⟩ :=
    hread
  · refine Or.inl ⟨sources, heq, ?_, hsources.imp fun entry source h => h.1⟩
    intro entry hentry
    obtain ⟨source, -, hfaultless⟩ := exists_forall₂_iff.mp ⟨sources, hsources⟩ entry hentry
    exact hfaultless
  · refine Or.inr ⟨front, entry, back, fault, hsplit, ?_, hentry, ?_⟩
    · intro other hother
      obtain ⟨source, -, hfaultless⟩ := hfront other hother
      exact hfaultless
    · rw [heq]
      exact ⟨rfl, rfl, rfl⟩

-- a token has no meaning as a source
example : interpret "bogus" .serializedSourceList
    ⟨.sourceExpression, 0, 5, [⟨.token, 0, 5, []⟩]⟩ = .report (.foreignSource .token) := rfl

end Source

end ContentSecurity

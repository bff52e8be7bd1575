import ContentSecurity.Grammar.Tree
import Mathlib.Data.List.Basic
/-!
# What a search finds

Two nodes of a tree may be alike, so a node is told by its path, the numbers of the children on the
way to it.  The frontier of some rules are the nodes of these rules that are inside no other such
node, in pre-order: the order of their paths, in which a path stands before its extensions.  It has
no depth.  A search lists the part of the frontier down to its depth, and looking for the first node
gives the first of these.

Both can be done in one walk, which adds to a list what it finds and which, when one node is enough,
goes on to no other child once the list has one (`Tree.collect`).  Only between children is the list
looked at; that this is early enough is seen from what the walk of a single tree adds.
-/

namespace ContentSecurity.Grammar.Tree

/-! ### Nodes and their paths -/

/-- The node at the end of a path, which goes on with the child of the next number. -/
def at? (tree : Tree) : List Nat → Option Tree
  | [] => some tree
  | i :: path => tree.children[i]?.bind fun child => child.at? path

/-- A node of a tree, and the path to it. -/
structure Site where
  path : List Nat
  node : Tree

namespace Site

/-- How far the node is below the root. -/
def depth (site : Site) : Nat :=
  site.path.length

/-- The node of a child, seen from the parent. -/
def under (i : Nat) (site : Site) : Site :=
  ⟨i :: site.path, site.node⟩

end Site

/-- The node is of one of the rules, and no node on the way to it is. -/
structure IsOutermost (tree : Tree) (targets : List Rule) (site : Site) : Prop where
  leads : tree.at? site.path = some site.node
  target : site.node.rule ∈ targets
  outermost : ∀ front ancestor, front <+: site.path → front ≠ site.path →
    tree.at? front = some ancestor → ancestor.rule ∉ targets

/-- The outermost nodes of the rules down to a depth, each once and in pre-order. -/
structure IsFrontier (tree : Tree) (targets : List Rule) (depth : Nat) (sites : List Site) :
    Prop where
  preorder : sites.Pairwise (·.path < ·.path)
  mem_iff : ∀ site, site ∈ sites ↔ site.depth ≤ depth ∧ tree.IsOutermost targets site

variable {targets : List Rule} {tree : Tree} {trees : List Tree} {site : Site} {depth i : Nat}

@[simp] theorem Site.depth_under (i : Nat) (site : Site) :
    (site.under i).depth = site.depth + 1 := rfl

/-- Inside a node that is sought there is no outermost one. -/
theorem isOutermost_iff_of_mem (h : tree.rule ∈ targets) :
    tree.IsOutermost targets site ↔ site = ⟨[], tree⟩ := by
  rcases site with ⟨path, node⟩
  constructor
  · intro hsite
    cases path with
    | nil =>
      obtain rfl : tree = node := Option.some.inj hsite.leads
      rfl
    | cons i path =>
      exact absurd h (hsite.outermost [] tree List.nil_prefix (List.cons_ne_nil i path).symm rfl)
  · intro heq
    cases heq
    constructor
    · rfl
    · exact h
    · intro front ancestor hfront hne
      exact absurd (List.prefix_nil.mp hfront) hne

/-- The outermost nodes below a node that is not sought are those of its children. -/
theorem isOutermost_iff_of_not_mem (h : tree.rule ∉ targets) :
    tree.IsOutermost targets site ↔ ∃ (i : Nat) (child : Tree) (inner : Site),
      tree.children[i]? = some child ∧ child.IsOutermost targets inner ∧
        site = inner.under i := by
  constructor
  · intro hsite
    rcases site with ⟨path, node⟩
    cases path with
    | nil => exact absurd (Option.some.inj hsite.leads ▸ hsite.target) h
    | cons i path =>
      obtain ⟨child, hchild, hleads⟩ := Option.bind_eq_some_iff.mp hsite.leads
      refine ⟨i, child, ⟨path, node⟩, hchild, ⟨hleads, hsite.target, ?_⟩, rfl⟩
      intro front ancestor hfront hne hat
      apply hsite.outermost (i :: front) ancestor (List.cons_prefix_cons.mpr ⟨rfl, hfront⟩)
      · exact fun heq => hne (List.cons.inj heq).2
      · exact Option.bind_eq_some_iff.mpr ⟨child, hchild, hat⟩
  · rintro ⟨i, child, inner, hchild, hinner, rfl⟩
    refine ⟨Option.bind_eq_some_iff.mpr ⟨child, hchild, hinner.leads⟩, hinner.target, ?_⟩
    intro front ancestor hfront hne hat
    cases front with
    | nil =>
      rw [← Option.some.inj hat]
      exact h
    | cons j front =>
      obtain ⟨rfl, hbefore⟩ := List.cons_prefix_cons.mp hfront
      obtain ⟨other, hother, hat⟩ := Option.bind_eq_some_iff.mp hat
      rw [hchild] at hother
      obtain rfl := Option.some.inj hother
      exact hinner.outermost front ancestor hbefore (fun heq => hne (heq ▸ rfl)) hat

/-! ### The frontier at every depth -/

mutual

/-- The outermost nodes of the rules at whatever depth, in pre-order. -/
def frontier (targets : List Rule) : Tree → List Site
  | ⟨rule, start, stop, children⟩ =>
    if rule ∈ targets then
      [⟨[], ⟨rule, start, stop, children⟩⟩]
    else
      frontierFrom targets 0 children

/-- `frontier` of the children from number `i` on. -/
def frontierFrom (targets : List Rule) (i : Nat) : List Tree → List Site
  | [] => []
  | tree :: others =>
    (tree.frontier targets).map (·.under i) ++ frontierFrom targets (i + 1) others

end

mutual

theorem mem_frontier_iff (tree : Tree) {site : Site} :
    site ∈ tree.frontier targets ↔ tree.IsOutermost targets site := by
  rcases tree with ⟨rule, start, stop, children⟩
  rw [frontier]
  by_cases hrule : rule ∈ targets
  · rw [if_pos hrule, List.mem_singleton, isOutermost_iff_of_mem hrule]
  · rw [if_neg hrule, isOutermost_iff_of_not_mem hrule, mem_frontierFrom_iff children]
    simp only [Nat.zero_add]

theorem mem_frontierFrom_iff (trees : List Tree) {i : Nat} {site : Site} :
    site ∈ frontierFrom targets i trees ↔ ∃ (j : Nat) (child : Tree) (inner : Site),
      trees[j]? = some child ∧ child.IsOutermost targets inner ∧
        site = inner.under (i + j) := by
  cases trees with
  | nil => simp [frontierFrom]
  | cons tree others =>
    rw [frontierFrom, List.mem_append, List.mem_map, mem_frontierFrom_iff others]
    constructor
    · rintro (⟨inner, hinner, rfl⟩ | ⟨j, child, inner, hchild, hinner, rfl⟩)
      · exact ⟨0, tree, inner, rfl, (mem_frontier_iff tree).mp hinner, rfl⟩
      · refine ⟨j + 1, child, inner, hchild, hinner, ?_⟩
        rw [Nat.add_right_comm, Nat.add_assoc]
    · rintro ⟨j, child, inner, hchild, hinner, rfl⟩
      cases j with
      | zero =>
        obtain rfl := Option.some.inj hchild
        exact Or.inl ⟨inner, (mem_frontier_iff tree).mpr hinner, rfl⟩
      | succ j =>
        refine Or.inr ⟨j, child, inner, hchild, hinner, ?_⟩
        rw [Nat.add_right_comm, Nat.add_assoc]

end

theorem exists_under_of_mem_frontierFrom (h : site ∈ frontierFrom targets i trees) :
    ∃ (j : Nat) (inner : Site), i ≤ j ∧ site = inner.under j := by
  obtain ⟨j, _, inner, -, -, rfl⟩ := (mem_frontierFrom_iff trees).mp h
  exact ⟨i + j, inner, Nat.le_add_right i j, rfl⟩

mutual

theorem preorder_frontier (targets : List Rule) (tree : Tree) :
    (tree.frontier targets).Pairwise (·.path < ·.path) := by
  rcases tree with ⟨rule, start, stop, children⟩
  rw [frontier]
  by_cases hrule : rule ∈ targets
  · rw [if_pos hrule]
    exact List.pairwise_singleton _ _
  · rw [if_neg hrule]
    exact preorder_frontierFrom targets 0 children

/-- The paths into one child come before those into the next. -/
theorem preorder_frontierFrom (targets : List Rule) (i : Nat) (trees : List Tree) :
    (frontierFrom targets i trees).Pairwise (·.path < ·.path) := by
  cases trees with
  | nil => exact List.Pairwise.nil
  | cons tree others =>
    rw [frontierFrom, List.pairwise_append, List.pairwise_map]
    refine ⟨?_, preorder_frontierFrom targets (i + 1) others, ?_⟩
    · apply (preorder_frontier targets tree).imp
      intro left right hlt
      exact List.cons_lt_cons_iff.mpr (Or.inr ⟨rfl, hlt⟩)
    · intro left hleft right hright
      obtain ⟨inner, -, rfl⟩ := List.mem_map.mp hleft
      obtain ⟨j, other, hj, rfl⟩ := exists_under_of_mem_frontierFrom hright
      exact List.cons_lt_cons_iff.mpr (Or.inl hj)

end

-- one token is inside another and is not listed
example : (frontier [.token] ⟨.sandboxRoot, 0, 9,
    [⟨.token, 0, 4, [⟨.token, 0, 2, []⟩]⟩, ⟨.ttExpression, 5, 9, [⟨.token, 5, 9, []⟩]⟩]⟩).map
    Site.path = [[0], [1, 0]] := by decide

/-- The sites down to a depth. -/
def downTo (depth : Nat) (sites : List Site) : List Site :=
  sites.filter (·.depth ≤ depth)

theorem isFrontier_downTo (tree : Tree) (targets : List Rule) (depth : Nat) :
    tree.IsFrontier targets depth (downTo depth (tree.frontier targets)) where
  preorder := (preorder_frontier targets tree).filter _
  mem_iff := by
    intro site
    rw [downTo, List.mem_filter, mem_frontier_iff, decide_eq_true_iff, and_comm]

theorem downTo_downTo {deeper : Nat} (h : depth ≤ deeper) (sites : List Site) :
    downTo depth (downTo deeper sites) = downTo depth sites := by
  unfold downTo
  rw [List.filter_filter]
  apply List.filter_congr
  intro site _
  rw [Bool.and_eq_left_iff_imp]
  intro hdepth
  exact decide_eq_true (Nat.le_trans (of_decide_eq_true hdepth) h)

/-! ### Searching -/

theorem downTo_map_under (depth i : Nat) (sites : List Site) :
    downTo (depth + 1) (sites.map (·.under i)) = (downTo depth sites).map (·.under i) := by
  unfold downTo
  rw [List.filter_map]
  congr 1
  apply List.filter_congr
  intro site _
  simp

theorem map_node_under (i : Nat) (sites : List Site) :
    (sites.map (·.under i)).map Site.node = sites.map Site.node := by
  rw [List.map_map]
  rfl

/-- No child is at the root. -/
theorem downTo_zero_frontierFrom (targets : List Rule) (i : Nat) (trees : List Tree) :
    downTo 0 (frontierFrom targets i trees) = [] := by
  apply List.filter_eq_nil_iff.mpr
  intro site hsite
  obtain ⟨j, inner, -, rfl⟩ := exists_under_of_mem_frontierFrom hsite
  simp

mutual

theorem search_eq_downTo (targets : List Rule) (depth : Nat) (tree : Tree) :
    tree.search targets depth = (downTo depth (tree.frontier targets)).map Site.node := by
  rcases tree with ⟨rule, start, stop, children⟩
  rw [frontier]
  by_cases hrule : rule ∈ targets
  · rw [if_pos hrule]
    cases depth <;> simp [search, hrule, downTo, Site.depth]
  · rw [if_neg hrule]
    cases depth with
    | zero => simp [search, hrule, downTo_zero_frontierFrom]
    | succ depth =>
      rw [← searchAll_eq_downTo targets depth 0 children]
      simp [search, hrule]

theorem searchAll_eq_downTo (targets : List Rule) (depth i : Nat) (trees : List Tree) :
    searchAll targets depth trees =
      (downTo (depth + 1) (frontierFrom targets i trees)).map Site.node := by
  cases trees with
  | nil => rfl
  | cons tree others =>
    have happend : downTo (depth + 1) (frontierFrom targets i (tree :: others)) =
        downTo (depth + 1) ((tree.frontier targets).map (·.under i)) ++
          downTo (depth + 1) (frontierFrom targets (i + 1) others) := by
      rw [frontierFrom]
      exact List.filter_append ..
    rw [searchAll, search_eq_downTo targets depth tree,
      searchAll_eq_downTo targets depth (i + 1) others, happend, List.map_append,
      downTo_map_under, map_node_under]

end

/-! ### The first node -/

mutual

/-- **The first node is the head of the search**, although the search looks at all children. -/
theorem find?_eq_head?_search (targets : List Rule) (depth : Nat) (tree : Tree) :
    tree.find? targets depth = (tree.search targets depth).head? := by
  rcases tree with ⟨rule, start, stop, children⟩
  by_cases hrule : rule ∈ targets
  · cases depth <;> simp [search, find?, hrule]
  · cases depth with
    | zero => simp [search, find?, hrule]
    | succ depth =>
      simp [search, find?, hrule, findAmong?_eq_head?_searchAll targets depth children]

theorem findAmong?_eq_head?_searchAll (targets : List Rule) (depth : Nat) (trees : List Tree) :
    findAmong? targets depth trees = (searchAll targets depth trees).head? := by
  cases trees with
  | nil => simp [findAmong?, searchAll]
  | cons tree others =>
    rw [findAmong?, searchAll, find?_eq_head?_search targets depth tree, List.head?_append,
      findAmong?_eq_head?_searchAll targets depth others]
    cases (tree.search targets depth).head? <;> rfl

end

/-! ### One walk for both -/

mutual

/-- Walk through a tree and add what is sought to what has been `found`.  If the first one is
enough, no child is looked at once something has been found. -/
def collect (targets : List Rule) (firstOnly : Bool) (depth : Nat) (found : List Tree) :
    Tree → List Tree
  | ⟨rule, start, stop, children⟩ =>
    if rule ∈ targets then
      found ++ [⟨rule, start, stop, children⟩]
    else
      match depth with
      | 0 => found
      | depth + 1 => collectAll targets firstOnly depth found children

/-- `collect` in each of several trees. -/
def collectAll (targets : List Rule) (firstOnly : Bool) (depth : Nat) (found : List Tree) :
    List Tree → List Tree
  | [] => found
  | tree :: others =>
    if firstOnly && !found.isEmpty then
      found
    else
      collectAll targets firstOnly depth (tree.collect targets firstOnly depth found) others

end

mutual

theorem collect_false (targets : List Rule) (depth : Nat) (found : List Tree) (tree : Tree) :
    tree.collect targets false depth found = found ++ tree.search targets depth := by
  rcases tree with ⟨rule, start, stop, children⟩
  by_cases hrule : rule ∈ targets
  · cases depth <;> simp [collect, search, hrule]
  · cases depth with
    | zero => simp [collect, search, hrule]
    | succ depth => simp [collect, search, hrule, collectAll_false targets depth found children]

theorem collectAll_false (targets : List Rule) (depth : Nat) (found trees : List Tree) :
    collectAll targets false depth found trees = found ++ searchAll targets depth trees := by
  cases trees with
  | nil => simp [collectAll, searchAll]
  | cons tree others =>
    simp [collectAll, searchAll, collect_false targets depth found tree,
      collectAll_false targets depth _ others]

end

/-- Once something has been found, the walk is over. -/
theorem collectAll_true_of_ne_nil {found : List Tree} (h : found ≠ []) (targets : List Rule)
    (depth : Nat) (trees : List Tree) : collectAll targets true depth found trees = found := by
  cases trees with
  | nil => simp [collectAll]
  | cons tree others => simp [collectAll, h]

mutual

theorem collect_true_nil (targets : List Rule) (depth : Nat) (tree : Tree) :
    tree.collect targets true depth [] = (tree.find? targets depth).toList := by
  rcases tree with ⟨rule, start, stop, children⟩
  by_cases hrule : rule ∈ targets
  · cases depth <;> simp [collect, find?, hrule]
  · cases depth with
    | zero => simp [collect, find?, hrule]
    | succ depth => simp [collect, find?, hrule, collectAll_true_nil targets depth children]

/-- The walk goes on to the next child just if the children before it gave nothing. -/
theorem collectAll_true_nil (targets : List Rule) (depth : Nat) (trees : List Tree) :
    collectAll targets true depth [] trees = (findAmong? targets depth trees).toList := by
  cases trees with
  | nil => simp [collectAll, findAmong?]
  | cons tree others =>
    have hfirst := collect_true_nil targets depth tree
    cases hfind : tree.find? targets depth with
    | none =>
      rw [hfind] at hfirst
      simp [collectAll, findAmong?, hfind, hfirst, collectAll_true_nil targets depth others]
    | some node =>
      rw [hfind] at hfirst
      simp [collectAll, findAmong?, hfind, hfirst, collectAll_true_of_ne_nil]

end

/-- **A search lists the frontier down to its depth**, and it stops at the first node if that is
enough.  Searching less deep leaves out the nodes that are too deep, and no others. -/
theorem search_lists_frontier (tree : Tree) (targets : List Rule) (depth : Nat) :
    ∃ sites, tree.IsFrontier targets depth sites ∧
      tree.search targets depth = sites.map Site.node ∧
      tree.collect targets false depth [] = sites.map Site.node ∧
      tree.collect targets true depth [] = (sites.map Site.node).take 1 ∧
      tree.find? targets depth = (sites.map Site.node).head? ∧
      ∀ deeper, depth ≤ deeper → ∃ others, tree.IsFrontier targets deeper others ∧
        tree.search targets deeper = others.map Site.node ∧
        sites = others.filter (·.depth ≤ depth) := by
  have hsearch := search_eq_downTo targets depth tree
  have hfind := find?_eq_head?_search targets depth tree
  refine ⟨downTo depth (tree.frontier targets), isFrontier_downTo tree targets depth, hsearch, ?_,
    ?_, ?_, ?_⟩
  · rw [collect_false, List.nil_append, hsearch]
  · rw [collect_true_nil, hfind, hsearch]
    cases (downTo depth (tree.frontier targets)).map Site.node <;> rfl
  · rw [hfind, hsearch]
  · intro deeper hdeeper
    exact ⟨downTo deeper (tree.frontier targets), isFrontier_downTo tree targets deeper,
      search_eq_downTo targets deeper tree, (downTo_downTo hdeeper _).symm⟩

end ContentSecurity.Grammar.Tree

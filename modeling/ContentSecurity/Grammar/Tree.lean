import ContentSecurity.Grammar.Rule
/-!
# Parse trees

A tree names the rule that a stretch of text matched, the byte offsets between which it lies, and
the trees of the rules matched inside.  Trees may also be built by hand, so nothing here assumes
that spans lie inside the text, in order, or on character boundaries.

* `Tree.search` lists the nodes of given rules down to a depth, and does not look inside a node
  that it lists.
* `Tree.find?` is the first of them, and stops looking as soon as it has one.
* `Tree.text` is the text of a node, and empty when its span is no stretch of that text.
-/

namespace ContentSecurity.Grammar

/-- A matched rule, the bytes it covers, and what it is made of. -/
structure Tree where
  rule : Rule
  start : Nat
  stop : Nat
  children : List Tree

namespace Tree

mutual

/-- The nodes whose rule is among `targets`, in the order of the text, at most `depth` levels
below the root (which itself is at level 0) and none of them inside another. -/
def search (targets : List Rule) (depth : Nat) : Tree → List Tree
  | ⟨rule, start, stop, children⟩ =>
    if rule ∈ targets then
      [⟨rule, start, stop, children⟩]
    else
      match depth with
      | 0 => []
      | depth + 1 => searchAll targets depth children

/-- `search` in each of several trees. -/
def searchAll (targets : List Rule) (depth : Nat) : List Tree → List Tree
  | [] => []
  | tree :: others => tree.search targets depth ++ searchAll targets depth others

end

mutual

/-- The first node that `search` lists. -/
def find? (targets : List Rule) (depth : Nat) : Tree → Option Tree
  | ⟨rule, start, stop, children⟩ =>
    if rule ∈ targets then
      some ⟨rule, start, stop, children⟩
    else
      match depth with
      | 0 => none
      | depth + 1 => findAmong? targets depth children

/-- `find?` in the first of several trees that has such a node. -/
def findAmong? (targets : List Rule) (depth : Nat) : List Tree → Option Tree
  | [] => none
  | tree :: others =>
    match tree.find? targets depth with
    | some found => some found
    | none => findAmong? targets depth others

end

/-- The text of a node; empty when its span is out of range, reversed, or cuts a character. -/
def text (tree : Tree) (input : String) : String :=
  match input.pos? ⟨tree.start⟩, input.pos? ⟨tree.stop⟩ with
  | some start, some stop => String.extract start stop
  | _, _ => ""

/-- Number of bytes between the two ends, counted in a 64-bit word. -/
def length (tree : Tree) : UInt64 :=
  .ofNat tree.stop - .ofNat tree.start

/-- The span holds no byte. -/
def isEmpty (tree : Tree) : Bool :=
  tree.stop ≤ tree.start

end Tree

end ContentSecurity.Grammar

import ContentSecurity.Grammar.Lexeme
import ContentSecurity.Grammar.Tree
/-!
# Phrases

A phrase describes text whose parts are recorded.  Reading one gives an `Outcome`:

* if it can be read, the trees of the rules matched on the way and the place after it;
* in any case, how far a rule got before it failed: the greatest offset at which the attempt to
  match a rule started and failed, in branches given up as well, and 0 if there is none.

Choice is ordered and repetition greedy, as for lexemes.  The text of a token is a lexeme, so what
is tried inside it counts neither as a tree nor as a failure.  No rule of the header grammar
mentions itself, hence a phrase is a finite tree in which every rule stands with its definition.
-/

namespace ContentSecurity.Grammar

/-- What a recorded stretch of text may look like. -/
inductive Phrase where
  /-- Text of which nothing is recorded. -/
  | text (lexeme : Lexeme)
  /-- A rule whose tree has no children. -/
  | token (rule : Rule) (lexeme : Lexeme)
  /-- A rule whose tree has the trees of its body as children. -/
  | node (rule : Rule) (body : Phrase)
  /-- One after the other. -/
  | seq (first second : Phrase)
  /-- The first that can be read here. -/
  | alt (first second : Phrase)
  /-- As many as can be read, possibly none. -/
  | star (item : Phrase)
  /-- The end of the text, as a rule of its own. -/
  | finish
  /-- Nothing, provided that the body could be read here. -/
  | ahead (body : Phrase)

/-- What came of reading a phrase. -/
structure Outcome where
  /-- The greatest offset at which a rule started that failed. -/
  reach : Nat
  /-- The trees and the place after the phrase. -/
  found : Option (List Tree × Cursor)

namespace Outcome

/-- Read on after a success, from the place where it ended. -/
def andThen (outcome : Outcome) (next : Cursor → Outcome) : Outcome :=
  match outcome.found with
  | none => outcome
  | some (trees, c) =>
    let further := next c
    { reach := max outcome.reach further.reach
      found := further.found.map fun (others, d) => (trees ++ others, d) }

/-- Read something else after a failure. -/
def orElse (outcome : Outcome) (other : Unit → Outcome) : Outcome :=
  match outcome.found with
  | some _ => outcome
  | none =>
    let second := other ()
    { reach := max outcome.reach second.reach, found := second.found }

end Outcome

/-- Take `item` again and again until it fails or moves nowhere. -/
def Cursor.collect (item : Cursor → Outcome) (c : Cursor) : Outcome :=
  match item c with
  | ⟨reach, none⟩ => ⟨reach, some ([], c)⟩
  | ⟨reach, some (trees, d)⟩ =>
    if d.left < c.left then
      let further := d.collect item
      { reach := max reach further.reach
        found := further.found.map fun (others, e) => (trees ++ others, e) }
    else
      ⟨reach, some ([], c)⟩
termination_by c.left

namespace Phrase

/-- Read a phrase at a place. -/
def read : Phrase → Cursor → Outcome
  | .text lexeme, c => ⟨0, (lexeme.read c).map fun d => ([], d)⟩
  | .token rule lexeme, c =>
    match lexeme.read c with
    | some d => ⟨0, some ([⟨rule, c.offset, d.offset, []⟩], d)⟩
    | none => ⟨c.offset, none⟩
  | .node rule body, c =>
    match body.read c with
    | ⟨reach, some (trees, d)⟩ => ⟨reach, some ([⟨rule, c.offset, d.offset, trees⟩], d)⟩
    | ⟨reach, none⟩ => ⟨max reach c.offset, none⟩
  | .seq first second, c => (first.read c).andThen second.read
  | .alt first second, c => (first.read c).orElse fun _ => second.read c
  | .star item, c => c.collect item.read
  | .finish, c =>
    if c.rest.isEmpty then
      ⟨0, some ([⟨.endOfInput, c.offset, c.offset, []⟩], c)⟩
    else
      ⟨c.offset, none⟩
  | .ahead body, c =>
    let outcome := body.read c
    { outcome with found := outcome.found.map fun _ => ([], c) }

/-- One or none. -/
def opt (item : Phrase) : Phrase :=
  .alt item (.text .empty)

/-- All of several, one after the other. -/
def all : List Phrase → Phrase
  | [] => .text .empty
  | [item] => item
  | item :: others => .seq item (all others)

/-- The first of several that can be read here. -/
def oneOf : List Phrase → Phrase
  | [] => .text (.one fun _ => false)
  | [item] => item
  | item :: others => .alt item (oneOf others)

/-- One or more, with `separator` between. -/
def separated (item : Phrase) (separator : Lexeme) : Phrase :=
  .seq item (.star (.seq (.text separator) item))

end Phrase

end ContentSecurity.Grammar

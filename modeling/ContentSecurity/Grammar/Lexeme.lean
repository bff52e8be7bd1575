import ContentSecurity.Grammar.Cursor
/-!
# Lexemes

A lexeme describes the text inside a token, where nothing is recorded: neither trees nor failed
attempts.  It is read with ordered choice and greedy repetition: `alt a b` tries `b` only if `a`
fails at the same place, and what a repetition has taken is never given back.
-/

namespace ContentSecurity.Grammar

/-- What the text of a token may look like. -/
inductive Lexeme where
  /-- Nothing at all. -/
  | empty
  /-- One character of a class. -/
  | one (accepts : Char → Bool)
  /-- One after the other. -/
  | seq (first second : Lexeme)
  /-- The first that can be read here. -/
  | alt (first second : Lexeme)
  /-- As many as can be read, possibly none. -/
  | star (item : Lexeme)

namespace Lexeme

/-- Read a lexeme at a place; the result is the place after it. -/
def read : Lexeme → Cursor → Option Cursor
  | .empty, c => some c
  | .one accepts, c => c.step accepts
  | .seq first second, c => (first.read c).bind second.read
  | .alt first second, c =>
    match first.read c with
    | some d => some d
    | none => second.read c
  | .star item, c => some (c.exhaust item.read)

/-- One or more. -/
def plus (item : Lexeme) : Lexeme :=
  .seq item (.star item)

/-- One or none. -/
def opt (item : Lexeme) : Lexeme :=
  .alt item .empty

/-- A run of characters, each of its own class. -/
def each (classes : List (Char → Bool)) : Lexeme :=
  classes.foldr (fun accepts rest => .seq (.one accepts) rest) .empty

/-- Exactly the given text. -/
def literal (text : String) : Lexeme :=
  each (text.toList.map fun c => (· == c))

/-- The given text in any letter case (of ASCII letters). -/
def word (text : String) : Lexeme :=
  each (text.toList.map fun c => (·.toLower == c.toLower))

/-- The first of several that can be read here. -/
def oneOf (items : List Lexeme) : Lexeme :=
  match items with
  | [] => .one fun _ => false
  | [item] => item
  | item :: others => .alt item (oneOf others)

end Lexeme

end ContentSecurity.Grammar

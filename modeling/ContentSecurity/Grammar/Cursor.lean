/-!
# Cursors

A cursor is a place in a text: how many bytes precede it and which characters follow.  The
number of bytes that follow is kept beside the characters, so that two places in one text are
compared without walking either; `left_eq` makes it a function of the characters, and two
cursors with the same offset and the same characters are equal.

A repetition stops at the first step that fails or moves nowhere (`exhaust`), so it always ends.
-/

namespace ContentSecurity.Grammar

/-- A place in a text: the bytes before it and the characters after it. -/
structure Cursor where
  /-- Bytes of the text before this place. -/
  offset : Nat
  /-- Characters still to be read. -/
  rest : List Char
  /-- Bytes still to be read. -/
  left : Nat
  left_eq : left = (String.ofList rest).utf8ByteSize

namespace Cursor

/-- The place before the characters `rest`, `offset` bytes into the text. -/
def atOffset (offset : Nat) (rest : List Char) : Cursor :=
  ⟨offset, rest, (String.ofList rest).utf8ByteSize, rfl⟩

/-- The place before a whole text. -/
def start (text : String) : Cursor :=
  .atOffset 0 text.toList

@[ext] theorem ext {c d : Cursor} (offset : c.offset = d.offset) (rest : c.rest = d.rest) :
    c = d := by
  obtain ⟨co, cr, cl, hc⟩ := c
  obtain ⟨do', dr, dl, hd⟩ := d
  subst hc hd
  cases offset
  cases rest
  rfl

@[simp] theorem offset_atOffset (offset : Nat) (rest : List Char) :
    (atOffset offset rest).offset = offset := rfl

@[simp] theorem rest_atOffset (offset : Nat) (rest : List Char) :
    (atOffset offset rest).rest = rest := rfl

theorem eq_atOffset (c : Cursor) : c = atOffset c.offset c.rest := by
  ext <;> rfl

/-! ### Moving -/

/-- Step over one character if it belongs to the class `accepts`. -/
def step (accepts : Char → Bool) : Cursor → Option Cursor
  | ⟨_, [], _, _⟩ => none
  | ⟨offset, c :: rest, left, h⟩ =>
    if accepts c then
      some ⟨offset + c.utf8Size, rest, left - c.utf8Size, by
        rw [h, String.ofList_cons, String.utf8ByteSize_append, String.utf8ByteSize_singleton,
          Nat.add_sub_cancel_left]⟩
    else
      none

@[simp] theorem step_atOffset_nil (accepts : Char → Bool) (offset : Nat) :
    (atOffset offset []).step accepts = none := rfl

theorem step_atOffset_cons (accepts : Char → Bool) (offset : Nat) (c : Char) (rest : List Char) :
    (atOffset offset (c :: rest)).step accepts =
      if accepts c then some (atOffset (offset + c.utf8Size) rest) else none := by
  simp only [step, atOffset]
  split
  · congr 1
    ext <;> simp
  · rfl

/-- Take `move` again and again until it fails or moves nowhere. -/
def exhaust (move : Cursor → Option Cursor) (c : Cursor) : Cursor :=
  match move c with
  | some d => if d.left < c.left then d.exhaust move else c
  | none => c
termination_by c.left

end Cursor

end ContentSecurity.Grammar

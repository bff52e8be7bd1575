import Mathlib.Computability.Language
import Mathlib.Data.String.Basic
import ContentSecurity.Grammar.Lexicon
/-!
# The language of a lexeme

A lexeme is a regular expression, and `Lexeme.language` is what it says as one: choice is free and
repetition may stop anywhere.  `Lexeme.read` commits itself at every choice, so it finds less; this
module shows that it finds nothing else (`exists_of_read`).  The other direction depends on the
lexeme and on what follows it, and is the subject of `Proofs/Grammar/Commitment`.
-/

namespace ContentSecurity.Grammar

open scoped Computability
open String (utf8Len)

/-! ### Where a repetition ends -/

/-- A repetition ends behind some steps of its item, one after the other. -/
theorem Cursor.exhaust_induct {move : Cursor → Option Cursor} {motive : Cursor → Cursor → Prop}
    (stop : ∀ c, motive c c)
    (step : ∀ c d, move c = some d → motive d (d.exhaust move) → motive c (d.exhaust move))
    (c : Cursor) : motive c (c.exhaust move) := by
  induction hn : c.left using Nat.strong_induction_on generalizing c with
  | _ n ih =>
    rw [exhaust]
    cases hmove : move c with
    | none => exact stop c
    | some d =>
      by_cases hlt : d.left < c.left
      · simp only [if_pos hlt]
        exact step c d hmove (ih d.left (hn ▸ hlt) d rfl)
      · simp only [if_neg hlt]
        exact stop c

theorem Cursor.left_eq_utf8Len (c : Cursor) : c.left = utf8Len c.rest :=
  c.left_eq.trans (String.utf8ByteSize_ofList c.rest)

@[simp] theorem Cursor.left_atOffset (offset : Nat) (rest : List Char) :
    (atOffset offset rest).left = utf8Len rest :=
  left_eq_utf8Len _

/-- Taking single characters of a class ends behind the longest run of them. -/
theorem Cursor.exhaust_step (accepts : Char → Bool) (offset : Nat) (rest : List Char) :
    (atOffset offset rest).exhaust (step accepts) =
      atOffset (offset + utf8Len (rest.takeWhile accepts)) (rest.dropWhile accepts) := by
  induction rest generalizing offset with
  | nil =>
    rw [exhaust]
    simp
  | cons c rest ih =>
    rw [exhaust, step_atOffset_cons]
    by_cases h : accepts c
    · simp [h, ih, Char.utf8Size_pos, Nat.add_assoc, Nat.add_comm]
    · simp [h]

namespace Lexeme

/-! ### The language -/

/-- The texts that a lexeme describes, read as a regular expression. -/
def language : Lexeme → Language Char
  | .empty => 1
  | .one accepts => {text : List Char | ∃ c, accepts c ∧ text = [c]}
  | .seq first second => first.language * second.language
  | .alt first second => first.language + second.language
  | .star item => item.language∗

/-- The text is one that the lexeme describes. -/
def Matches (lexeme : Lexeme) (text : String) : Prop :=
  text.toList ∈ lexeme.language

variable {text : List Char} {a b item : Lexeme} {accepts : Char → Bool}

@[simp] theorem mem_language_empty : text ∈ language .empty ↔ text = [] := Iff.rfl

@[simp] theorem mem_language_one :
    text ∈ language (.one accepts) ↔ ∃ c, accepts c ∧ text = [c] := Iff.rfl

theorem mem_language_seq :
    text ∈ language (.seq a b) ↔ ∃ s ∈ a.language, ∃ t ∈ b.language, s ++ t = text :=
  Language.mem_mul

@[simp] theorem mem_language_alt :
    text ∈ language (.alt a b) ↔ text ∈ a.language ∨ text ∈ b.language := Iff.rfl

theorem mem_language_star :
    text ∈ language (.star item) ↔
      ∃ parts : List (List Char), text = parts.flatten ∧ ∀ part ∈ parts, part ∈ item.language :=
  Language.mem_kstar

theorem mem_language_plus :
    text ∈ (plus item).language ↔ ∃ parts : List (List Char), parts ≠ [] ∧ text = parts.flatten ∧
      ∀ part ∈ parts, part ∈ item.language := by
  rw [plus, mem_language_seq]
  constructor
  · rintro ⟨first, hfirst, tail, htail, rfl⟩
    obtain ⟨parts, rfl, hparts⟩ := mem_language_star.mp htail
    exact ⟨first :: parts, List.cons_ne_nil _ _, rfl, List.forall_mem_cons.mpr ⟨hfirst, hparts⟩⟩
  · rintro ⟨parts, hne, rfl, hparts⟩
    obtain ⟨first, others, rfl⟩ := List.exists_cons_of_ne_nil hne
    obtain ⟨hfirst, hothers⟩ := List.forall_mem_cons.mp hparts
    exact ⟨first, hfirst, others.flatten, mem_language_star.mpr ⟨others, rfl, hothers⟩, rfl⟩

@[simp] theorem mem_language_opt : text ∈ (opt item).language ↔ text ∈ item.language ∨ text = [] :=
  Iff.rfl

theorem mem_language_star_one :
    text ∈ language (.star (.one accepts)) ↔ ∀ c ∈ text, accepts c := by
  rw [mem_language_star]
  constructor
  · rintro ⟨parts, rfl, hparts⟩ c hc
    obtain ⟨part, hpart, hcp⟩ := List.mem_flatten.mp hc
    obtain ⟨d, hd, rfl⟩ := hparts part hpart
    rw [List.mem_singleton.mp hcp]
    exact hd
  · intro hall
    refine ⟨text.map fun c => [c], ?_, ?_⟩
    · induction text with
      | nil => rfl
      | cons c text ih => simpa using ih fun d hd => hall d (List.mem_cons_of_mem _ hd)
    · intro part hpart
      obtain ⟨c, hc, rfl⟩ := List.mem_map.mp hpart
      exact ⟨c, hall c hc, rfl⟩

theorem mem_language_plus_one :
    text ∈ (plus (.one accepts)).language ↔ text ≠ [] ∧ ∀ c ∈ text, accepts c := by
  rw [plus, mem_language_seq]
  constructor
  · rintro ⟨_, ⟨c, hc, rfl⟩, t, ht, rfl⟩
    refine ⟨by simp, ?_⟩
    rintro d hd
    rcases List.mem_cons.mp hd with rfl | hd
    · exact hc
    · exact mem_language_star_one.mp ht d hd
  · rintro ⟨hne, hall⟩
    obtain ⟨c, rest, rfl⟩ := List.exists_cons_of_ne_nil hne
    exact ⟨[c], ⟨c, hall c (by simp), rfl⟩, rest,
      mem_language_star_one.mpr fun d hd => hall d (List.mem_cons_of_mem _ hd), rfl⟩

theorem mem_language_each {classes : List (Char → Bool)} :
    text ∈ (each classes).language ↔ List.Forall₂ (fun c accepts => accepts c) text classes := by
  induction classes generalizing text with
  | nil => simp [each]
  | cons accepts classes ih =>
    change text ∈ language (.seq (.one accepts) (each classes)) ↔ _
    rw [mem_language_seq, List.forall₂_cons_right_iff]
    constructor
    · rintro ⟨_, ⟨c, hc, rfl⟩, t, ht, rfl⟩
      exact ⟨c, t, hc, ih.mp ht, rfl⟩
    · rintro ⟨c, t, hc, ht, rfl⟩
      exact ⟨[c], ⟨c, hc, rfl⟩, t, ih.mpr ht, rfl⟩

@[simp] theorem mem_language_literal {word : String} :
    text ∈ (literal word).language ↔ text = word.toList := by
  rw [literal, mem_language_each, List.forall₂_map_right_iff]
  simp only [beq_iff_eq, List.forall₂_eq_eq_eq]

theorem mem_language_word {word : String} :
    text ∈ (Lexeme.word word).language ↔
      text.map Char.toLower = word.toList.map Char.toLower := by
  rw [Lexeme.word, mem_language_each, List.forall₂_map_right_iff, ← List.forall₂_eq_eq_eq,
    List.forall₂_map_left_iff, List.forall₂_map_right_iff]
  simp only [beq_iff_eq]

theorem mem_language_oneOf {items : List Lexeme} :
    text ∈ (oneOf items).language ↔ ∃ item ∈ items, text ∈ item.language := by
  induction items with
  | nil => simp [oneOf]
  | cons item others ih =>
    cases others with
    | nil => simp [oneOf]
    | cons other others =>
      rw [oneOf, mem_language_alt, ih]
      · simp
      · simp

/-! ### What is read belongs to the language -/

theorem exists_of_step {c d : Cursor} (h : c.step accepts = some d) :
    ∃ taken, c.rest = taken ++ d.rest ∧ d.offset = c.offset + utf8Len taken ∧
      taken ∈ language (.one accepts) := by
  rw [c.eq_atOffset] at h
  cases hrest : c.rest with
  | nil => simp [hrest] at h
  | cons x rest =>
    rw [hrest, Cursor.step_atOffset_cons] at h
    by_cases hx : accepts x
    · simp only [if_pos hx, Option.some.injEq] at h
      subst h
      exact ⟨[x], by simp, by simp, x, hx, rfl⟩
    · simp [hx] at h

/-- **Reading is sound for the language.**  What a lexeme takes is a text that it describes. -/
theorem exists_of_read {lexeme : Lexeme} {c d : Cursor} (h : lexeme.read c = some d) :
    ∃ taken, c.rest = taken ++ d.rest ∧ d.offset = c.offset + utf8Len taken ∧
      taken ∈ lexeme.language := by
  induction lexeme generalizing c d with
  | empty =>
    simp only [read, Option.some.injEq] at h
    subst h
    exact ⟨[], by simp, by simp, rfl⟩
  | one accepts => exact exists_of_step h
  | seq a b iha ihb =>
    simp only [read, Option.bind_eq_some_iff] at h
    rcases h with ⟨e, ha, hb⟩
    obtain ⟨s, hs, hso, hsl⟩ := iha ha
    obtain ⟨t, ht, hto, htl⟩ := ihb hb
    refine ⟨s ++ t, by simp [hs, ht], ?_, Language.append_mem_mul hsl htl⟩
    rw [hto, hso, String.utf8Len_append, Nat.add_assoc]
  | alt a b iha ihb =>
    simp only [read] at h
    cases ha : a.read c with
    | none =>
      rw [ha] at h
      obtain ⟨t, ht, hto, htl⟩ := ihb h
      exact ⟨t, ht, hto, Or.inr htl⟩
    | some e =>
      rw [ha] at h
      obtain rfl : e = d := by simpa using h
      obtain ⟨t, ht, hto, htl⟩ := iha ha
      exact ⟨t, ht, hto, Or.inl htl⟩
  | star item ih =>
    simp only [read, Option.some.injEq] at h
    subst h
    -- the steps taken so far are the parts of the repetition
    refine Cursor.exhaust_induct (motive := fun c d => ∃ taken, c.rest = taken ++ d.rest ∧
      d.offset = c.offset + utf8Len taken ∧ taken ∈ language (.star item)) ?_ ?_ c
    · intro c
      exact ⟨[], by simp, by simp, Language.nil_mem_kstar _⟩
    · rintro c e hmove ⟨t, ht, hto, parts, rfl, hparts⟩
      obtain ⟨s, hs, hso, hsl⟩ := ih hmove
      refine ⟨s ++ parts.flatten, by rw [hs, ht, List.append_assoc], ?_, s :: parts, by simp, ?_⟩
      · rw [hto, hso, String.utf8Len_append, Nat.add_assoc]
      · intro part hpart
        rcases List.mem_cons.mp hpart with rfl | hpart
        · exact hsl
        · exact hparts part hpart

end Lexeme

end ContentSecurity.Grammar

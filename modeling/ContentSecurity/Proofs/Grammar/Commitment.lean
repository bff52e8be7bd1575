import ContentSecurity.Proofs.Grammar.Language
import ContentSecurity.Proofs.Text.Runs
/-!
# What a lexeme commits itself to

Whether a text of the language is taken depends on what follows it: a greedy repetition may run
on, and an earlier choice may succeed on a part.  `Takes lexeme text rest` says that exactly `text`
is taken where `rest` follows, and `Fails lexeme text` that nothing is.  There is one rule for each
way of building a lexeme; the side conditions say where the next character must not lie (`Stops`).
-/

namespace ContentSecurity.Grammar

open Text
open String (utf8Len)

namespace Lexeme

/-- Exactly `text` is taken where `rest` follows. -/
def Takes (lexeme : Lexeme) (text rest : List Char) : Prop :=
  ∀ offset, lexeme.read (.atOffset offset (text ++ rest)) =
    some (.atOffset (offset + utf8Len text) rest)

/-- Nothing can be read at the front of `text`. -/
def Fails (lexeme : Lexeme) (text : List Char) : Prop :=
  ∀ offset, lexeme.read (.atOffset offset text) = none

variable {a b item : Lexeme} {accepts : Char → Bool} {s t text rest : List Char}

theorem fails_of_forall_prefix (h : ∀ s t, text = s ++ t → s ∉ a.language) : a.Fails text := by
  intro offset
  cases hread : a.read (.atOffset offset text) with
  | none => rfl
  | some d =>
    obtain ⟨taken, htaken, -, hmem⟩ := exists_of_read hread
    exact absurd hmem (h taken d.rest htaken)

/-! ### Rules -/

theorem takes_empty : Lexeme.empty.Takes [] rest := by
  intro offset
  simp [read]

theorem takes_one {c : Char} (hc : accepts c) : (Lexeme.one accepts).Takes [c] rest := by
  intro offset
  simp [read, Cursor.step_atOffset_cons, hc]

theorem fails_one (h : Stops accepts text) : (Lexeme.one accepts).Fails text := by
  intro offset
  cases text with
  | nil => rfl
  | cons c text => simp [read, Cursor.step_atOffset_cons, (stops_cons ..).mp h]

theorem Takes.seq (ha : a.Takes s (t ++ rest)) (hb : b.Takes t rest) :
    (Lexeme.seq a b).Takes (s ++ t) rest := by
  intro offset
  simp only [read, List.append_assoc, ha offset, Option.bind_some, hb _, String.utf8Len_append,
    Nat.add_assoc]

theorem Fails.seq_left (ha : a.Fails text) : (Lexeme.seq a b).Fails text := by
  intro offset
  simp [read, ha offset]

theorem Fails.seq_right (hb : b.Fails rest) (ha : a.Takes text rest) :
    (Lexeme.seq a b).Fails (text ++ rest) := by
  intro offset
  simp [read, ha offset, hb _]

theorem Takes.alt_left (ha : a.Takes text rest) : (Lexeme.alt a b).Takes text rest := by
  intro offset
  simp [read, ha offset]

theorem Takes.alt_right (hb : b.Takes text rest) (ha : a.Fails (text ++ rest)) :
    (Lexeme.alt a b).Takes text rest := by
  intro offset
  simp [read, ha offset, hb offset]

theorem Fails.alt (ha : a.Fails text) (hb : b.Fails text) : (Lexeme.alt a b).Fails text := by
  intro offset
  simp [read, ha offset, hb offset]

theorem takes_star_nil (h : item.Fails rest) : (Lexeme.star item).Takes [] rest := by
  intro offset
  rw [read, Cursor.exhaust]
  simp [h offset]

theorem Takes.star_cons (hs : item.Takes s (t ++ rest)) (hne : s ≠ [])
    (ht : (Lexeme.star item).Takes t rest) : (Lexeme.star item).Takes (s ++ t) rest := by
  intro offset
  have hlt : 0 < utf8Len s := by
    obtain ⟨c, s, rfl⟩ := List.exists_cons_of_ne_nil hne
    have := c.utf8Size_pos
    simp only [String.utf8Len_cons]
    omega
  have hrest := ht (offset + utf8Len s)
  simp only [read, Option.some.injEq] at hrest ⊢
  rw [Cursor.exhaust]
  simp [List.append_assoc, hs offset, hlt, hrest, Nat.add_assoc]

/-- A repetition takes several items if each of them is taken before the next.  The property
`ready` of what follows an item is what the items need for that. -/
theorem takes_star (ready : List Char → Prop) {parts : List (List Char)}
    (hpart : ∀ part ∈ parts, ∀ next, ready next →
      item.Takes part next ∧ part ≠ [] ∧ ready (part ++ next))
    (hready : ready rest) (hfail : item.Fails rest) :
    (Lexeme.star item).Takes parts.flatten rest ∧ ready (parts.flatten ++ rest) := by
  induction parts with
  | nil => exact ⟨takes_star_nil hfail, hready⟩
  | cons part parts ih =>
    obtain ⟨htake, hnext⟩ := ih fun p hp => hpart p (List.mem_cons_of_mem _ hp)
    obtain ⟨hfirst, hne, hahead⟩ := hpart part (by simp) _ hnext
    rw [List.flatten_cons, List.append_assoc]
    exact ⟨hfirst.star_cons hne htake, hahead⟩

theorem takes_star_one (hall : ∀ c ∈ text, accepts c) (hstop : Stops accepts rest) :
    (Lexeme.star (.one accepts)).Takes text rest := by
  intro offset
  change some ((Cursor.atOffset offset (text ++ rest)).exhaust (Cursor.step accepts)) = _
  rw [Cursor.exhaust_step, takeWhile_append_of_stops hall hstop,
    dropWhile_append_of_stops hall hstop]

theorem takes_plus_one (hne : text ≠ []) (hall : ∀ c ∈ text, accepts c)
    (hstop : Stops accepts rest) : (plus (.one accepts)).Takes text rest := by
  obtain ⟨c, text, rfl⟩ := List.exists_cons_of_ne_nil hne
  have htail : ∀ d ∈ text, accepts d := fun d hd => hall d (List.mem_cons_of_mem _ hd)
  exact (takes_one (hall c (by simp))).seq (takes_star_one htail hstop)

theorem Fails.plus (h : item.Fails text) : (plus item).Fails text :=
  h.seq_left

theorem Takes.opt (h : item.Takes text rest) : (opt item).Takes text rest :=
  h.alt_left

theorem takes_opt_nil (h : item.Fails rest) : (opt item).Takes [] rest :=
  takes_empty.alt_right h

/-! ### Words -/

theorem takes_each {classes : List (Char → Bool)}
    (h : List.Forall₂ (fun c accepts => accepts c) text classes) :
    (each classes).Takes text rest := by
  induction h with
  | nil => exact takes_empty
  | cons hc _ ih => exact (takes_one hc).seq ih

theorem takes_literal (word : String) : (literal word).Takes word.toList rest := by
  apply takes_each
  exact mem_language_each.mp (mem_language_literal.mpr rfl)

theorem takes_word {word : String}
    (h : text.map Char.toLower = word.toList.map Char.toLower) :
    (Lexeme.word word).Takes text rest := by
  apply takes_each
  exact mem_language_each.mp (mem_language_word.mpr h)

theorem fails_literal {word : String} (h : ¬ word.toList <+: text) : (literal word).Fails text := by
  apply fails_of_forall_prefix
  rintro s t rfl hs
  rw [mem_language_literal] at hs
  exact h (hs ▸ List.prefix_append s t)

theorem fails_word {word : String}
    (h : ¬ word.toList.map Char.toLower <+: text.map Char.toLower) :
    (Lexeme.word word).Fails text := by
  apply fails_of_forall_prefix
  rintro s t rfl hs
  rw [mem_language_word] at hs
  exact h (by rw [← hs, List.map_append]; exact List.prefix_append _ _)

/-! ### Several choices -/

theorem takes_oneOf {items : List Lexeme} (hmem : item ∈ items) (htake : item.Takes text rest)
    (hothers : ∀ other ∈ items, other ≠ item → other.Fails (text ++ rest)) :
    (oneOf items).Takes text rest := by
  induction items with
  | nil => simp at hmem
  | cons choice others ih =>
    cases others with
    | nil =>
      rw [List.mem_singleton.mp hmem] at htake
      exact htake
    | cons other others =>
      by_cases heq : choice = item
      · exact Takes.alt_left (heq ▸ htake)
      · refine Takes.alt_right (ih ?_ fun o ho => hothers o (List.mem_cons_of_mem _ ho)) ?_
        · exact (List.mem_cons.mp hmem).resolve_left (Ne.symm heq)
        · exact hothers choice (by simp) heq

/-- Among words of which none starts another, a choice takes the one that is there. -/
theorem takes_oneOf_word {words : List String} {word : String} (hword : word ∈ words)
    (hfree : ∀ v ∈ words, ∀ w ∈ words,
      v.toList.map Char.toLower <+: w.toList.map Char.toLower → v = w)
    (htext : text.map Char.toLower = word.toList.map Char.toLower) :
    (oneOf (words.map Lexeme.word)).Takes text rest := by
  refine takes_oneOf (List.mem_map_of_mem hword) (takes_word htext) ?_
  rintro other hother hne
  obtain ⟨v, hv, rfl⟩ := List.mem_map.mp hother
  apply fails_word
  intro hprefix
  -- of two words in front of one text, the shorter one starts the longer one
  rw [List.map_append, htext] at hprefix
  rcases List.prefix_or_prefix_of_prefix hprefix (List.prefix_append _ _) with h | h
  · exact hne (congrArg Lexeme.word (hfree v hv word hword h))
  · exact hne (congrArg Lexeme.word (hfree word hword v hv h).symm)

end Lexeme

end ContentSecurity.Grammar

import ContentSecurity.Grammar.Productions
import ContentSecurity.Proofs.Grammar.Commitment
/-!
# Derivations

`Phrase.Derives` reads a phrase without commitment: any choice may be taken and a repetition may
stop anywhere.  It says which trees a phrase gives for a text that stands `offset` bytes into the
input and is followed by `rest`; what follows matters for the end of the text and for a look ahead.

Reading gives derivations only (`Phrase.exists_of_read`), so the shape of every tree is found by
taking its derivation apart.  That a text is read at all is what `Phrase.Takes` says; as for
lexemes there is one rule for each way of building a phrase.
-/

namespace ContentSecurity.Grammar

open String (utf8Len)

/-- Items one after the other, each where the one before it ends. -/
inductive Repeats (item : Nat → List Char → List Char → List Tree → Prop) :
    Nat → List Char → List Char → List Tree → Prop where
  | nil {offset : Nat} {rest : List Char} : Repeats item offset [] rest []
  | cons {offset : Nat} {text others rest : List Char} {trees siblings : List Tree}
      (first : item offset text (others ++ rest) trees)
      (further : Repeats item (offset + utf8Len text) others rest siblings) :
      Repeats item offset (text ++ others) rest (trees ++ siblings)

namespace Phrase

/-- The phrase, read without commitment, gives these trees for `taken` where `rest` follows. -/
def Derives : Phrase → Nat → List Char → List Char → List Tree → Prop
  | .text lexeme, _, taken, _, trees => taken ∈ lexeme.language ∧ trees = []
  | .token rule lexeme, offset, taken, _, trees =>
    taken ∈ lexeme.language ∧ trees = [⟨rule, offset, offset + utf8Len taken, []⟩]
  | .node rule body, offset, taken, rest, trees =>
    ∃ children, body.Derives offset taken rest children ∧
      trees = [⟨rule, offset, offset + utf8Len taken, children⟩]
  | .seq first second, offset, taken, rest, trees =>
    ∃ s t ss ts, first.Derives offset s (t ++ rest) ss ∧
      second.Derives (offset + utf8Len s) t rest ts ∧ taken = s ++ t ∧ trees = ss ++ ts
  | .alt first second, offset, taken, rest, trees =>
    first.Derives offset taken rest trees ∨ second.Derives offset taken rest trees
  | .star item, offset, taken, rest, trees => Repeats item.Derives offset taken rest trees
  | .finish, offset, taken, rest, trees =>
    taken = [] ∧ rest = [] ∧ trees = [⟨.endOfInput, offset, offset, []⟩]
  | .ahead body, offset, taken, rest, trees =>
    taken = [] ∧ trees = [] ∧ ∃ s t ss, rest = s ++ t ∧ body.Derives offset s t ss

theorem derives_opt {item : Phrase} {offset : Nat} {taken rest : List Char}
    {trees : List Tree} :
    (opt item).Derives offset taken rest trees ↔
      item.Derives offset taken rest trees ∨ taken = [] ∧ trees = [] := Iff.rfl

theorem derives_oneOf {items : List Phrase} {offset : Nat} {taken rest : List Char}
    {trees : List Tree} :
    (oneOf items).Derives offset taken rest trees ↔
      ∃ item ∈ items, item.Derives offset taken rest trees := by
  induction items with
  | nil => simp [oneOf, Derives]
  | cons item others ih =>
    cases others with
    | nil => simp [oneOf]
    | cons other others =>
      have hcons : (oneOf (item :: other :: others)).Derives offset taken rest trees ↔
          item.Derives offset taken rest trees ∨
            (oneOf (other :: others)).Derives offset taken rest trees := Iff.rfl
      rw [hcons, ih]
      simp

end Phrase

/-! ### Successes -/

theorem Outcome.found_andThen {outcome : Outcome} {next : Cursor → Outcome} {trees : List Tree}
    {d : Cursor} :
    (outcome.andThen next).found = some (trees, d) ↔
      ∃ ss c ts, outcome.found = some (ss, c) ∧ (next c).found = some (ts, d) ∧
        trees = ss ++ ts := by
  unfold andThen
  cases hfirst : outcome.found with
  | none => simp [hfirst]
  | some result =>
    rcases result with ⟨ss, c⟩
    simp only [Option.map_eq_some_iff, Prod.exists, Prod.mk.injEq]
    constructor
    · rintro ⟨ts, e, hnext, rfl, rfl⟩
      exact ⟨ss, c, ts, rfl, hnext, rfl⟩
    · rintro ⟨_, _, ts, hsame, hnext, rfl⟩
      obtain ⟨rfl, rfl⟩ := Prod.mk.inj (Option.some.inj hsame)
      exact ⟨ts, d, hnext, rfl, rfl⟩

theorem Outcome.found_andThen_none {outcome : Outcome} {next : Cursor → Outcome} :
    (outcome.andThen next).found = none ↔
      outcome.found = none ∨ ∃ ss c, outcome.found = some (ss, c) ∧ (next c).found = none := by
  unfold andThen
  cases hfirst : outcome.found with
  | none => simp [hfirst]
  | some result =>
    rcases result with ⟨ss, c⟩
    simp

theorem Outcome.found_orElse (outcome : Outcome) (other : Unit → Outcome) :
    (outcome.orElse other).found = outcome.found.or (other ()).found := by
  unfold orElse
  cases hfirst : outcome.found with
  | none => rfl
  | some result => simp [hfirst]

namespace Phrase

variable {a b item : Phrase} {lexeme : Lexeme} {rule : Rule} {c : Cursor}

@[simp] theorem found_read_text :
    ((text lexeme).read c).found = (lexeme.read c).map fun d => ([], d) := rfl

@[simp] theorem found_read_token : ((token rule lexeme).read c).found =
    (lexeme.read c).map fun d => ([⟨rule, c.offset, d.offset, []⟩], d) := by
  rw [read]
  cases lexeme.read c <;> rfl

@[simp] theorem found_read_node : ((node rule a).read c).found =
    (a.read c).found.map fun (trees, d) => ([⟨rule, c.offset, d.offset, trees⟩], d) := by
  rw [read]
  rcases a.read c with ⟨reach, _ | result⟩ <;> rfl

@[simp] theorem found_read_seq :
    ((seq a b).read c).found = ((a.read c).andThen b.read).found := rfl

@[simp] theorem found_read_alt :
    ((alt a b).read c).found = (a.read c).found.or (b.read c).found :=
  Outcome.found_orElse _ _

@[simp] theorem found_read_star :
    ((star item).read c).found = (c.collect item.read).found := rfl

@[simp] theorem found_read_finish : (finish.read c).found =
    if c.rest.isEmpty then some ([⟨.endOfInput, c.offset, c.offset, []⟩], c) else none := by
  rw [read]
  split <;> rfl

@[simp] theorem found_read_ahead :
    ((ahead a).read c).found = (a.read c).found.map fun _ => ([], c) := rfl

end Phrase

theorem Cursor.exists_of_collect {item : Cursor → Outcome}
    {derives : Nat → List Char → List Char → List Tree → Prop}
    (hitem : ∀ c d trees, (item c).found = some (trees, d) →
      ∃ text, c.rest = text ++ d.rest ∧ d.offset = c.offset + utf8Len text ∧
        derives c.offset text d.rest trees)
    {c d : Cursor} {trees : List Tree} (h : (c.collect item).found = some (trees, d)) :
    ∃ text, c.rest = text ++ d.rest ∧ d.offset = c.offset + utf8Len text ∧
      Repeats derives c.offset text d.rest trees := by
  have hstop : ∀ c : Cursor, ∃ text, c.rest = text ++ c.rest ∧
      c.offset = c.offset + utf8Len text ∧ Repeats derives c.offset text c.rest [] := by
    intro c
    exact ⟨[], by simp, by simp, .nil⟩
  induction hn : c.left using Nat.strong_induction_on generalizing c trees with
  | _ n ih =>
    rw [collect] at h
    split at h
    · simp only [Option.some.injEq, Prod.mk.injEq] at h
      rcases h with ⟨rfl, rfl⟩
      exact hstop c
    · rename_i reach ss e hfirst
      by_cases hlt : e.left < c.left
      · simp only [if_pos hlt, Option.map_eq_some_iff, Prod.exists, Prod.mk.injEq] at h
        rcases h with ⟨ts, _, hfurther, rfl, rfl⟩
        obtain ⟨s, hs, hso, hsd⟩ := hitem c e ss (by rw [hfirst])
        obtain ⟨t, ht, hto, htd⟩ := ih e.left (hn ▸ hlt) hfurther rfl
        refine ⟨s ++ t, by rw [hs, ht, List.append_assoc], ?_, .cons (ht ▸ hsd) (hso ▸ htd)⟩
        rw [hto, hso, String.utf8Len_append, Nat.add_assoc]
      · simp only [if_neg hlt, Option.some.injEq, Prod.mk.injEq] at h
        rcases h with ⟨rfl, rfl⟩
        exact hstop c

namespace Phrase

/-- **Reading is sound for derivations.**  The trees that reading gives are derived by the text
between the two places. -/
theorem exists_of_read {phrase : Phrase} {c d : Cursor} {trees : List Tree}
    (h : (phrase.read c).found = some (trees, d)) :
    ∃ text, c.rest = text ++ d.rest ∧ d.offset = c.offset + utf8Len text ∧
      phrase.Derives c.offset text d.rest trees := by
  induction phrase generalizing c d trees with
  | text lexeme =>
    simp only [found_read_text, Option.map_eq_some_iff, Prod.mk.injEq] at h
    rcases h with ⟨e, hread, rfl, rfl⟩
    obtain ⟨text, ht, hto, hmem⟩ := Lexeme.exists_of_read hread
    exact ⟨text, ht, hto, hmem, rfl⟩
  | token rule lexeme =>
    simp only [found_read_token, Option.map_eq_some_iff, Prod.mk.injEq] at h
    rcases h with ⟨e, hread, rfl, rfl⟩
    obtain ⟨text, ht, hto, hmem⟩ := Lexeme.exists_of_read hread
    exact ⟨text, ht, hto, hmem, by rw [hto]⟩
  | node rule body ih =>
    simp only [found_read_node, Option.map_eq_some_iff, Prod.exists, Prod.mk.injEq] at h
    rcases h with ⟨children, e, hbody, rfl, rfl⟩
    obtain ⟨text, ht, hto, hd⟩ := ih hbody
    exact ⟨text, ht, hto, children, hd, by rw [hto]⟩
  | seq first second ih₁ ih₂ =>
    rw [found_read_seq, Outcome.found_andThen] at h
    rcases h with ⟨ss, e, ts, hfirst, hsecond, rfl⟩
    obtain ⟨s, hs, hso, hsd⟩ := ih₁ hfirst
    obtain ⟨t, ht, hto, htd⟩ := ih₂ hsecond
    refine ⟨s ++ t, by rw [hs, ht, List.append_assoc], ?_, s, t, ss, ts, ht ▸ hsd, hso ▸ htd,
      rfl, rfl⟩
    rw [hto, hso, String.utf8Len_append, Nat.add_assoc]
  | alt first second ih₁ ih₂ =>
    rw [found_read_alt] at h
    rcases Option.or_eq_some_iff.mp h with hfirst | ⟨-, hsecond⟩
    · obtain ⟨text, ht, hto, hd⟩ := ih₁ hfirst
      exact ⟨text, ht, hto, Or.inl hd⟩
    · obtain ⟨text, ht, hto, hd⟩ := ih₂ hsecond
      exact ⟨text, ht, hto, Or.inr hd⟩
  | star item ih =>
    rw [found_read_star] at h
    exact Cursor.exists_of_collect (fun c d trees => ih) h
  | finish =>
    rw [found_read_finish] at h
    split at h
    · rename_i hempty
      simp only [Option.some.injEq, Prod.mk.injEq] at h
      rcases h with ⟨rfl, rfl⟩
      exact ⟨[], by simp, by simp, rfl, List.isEmpty_iff.mp hempty, rfl⟩
    · cases h
  | ahead body ih =>
    simp only [found_read_ahead, Option.map_eq_some_iff, Prod.exists, Prod.mk.injEq] at h
    rcases h with ⟨ss, e, hbody, rfl, rfl⟩
    obtain ⟨s, hs, hso, hd⟩ := ih hbody
    exact ⟨[], by simp, by simp, rfl, rfl, s, e.rest, ss, hs, hd⟩

/-! ### What a phrase commits itself to -/

/-- Exactly `text` is taken where `rest` follows. -/
def Takes (phrase : Phrase) (text rest : List Char) : Prop :=
  ∀ offset, ∃ trees, (phrase.read (.atOffset offset (text ++ rest))).found =
    some (trees, .atOffset (offset + utf8Len text) rest)

/-- Nothing can be read at the front of `text`. -/
def Fails (phrase : Phrase) (text : List Char) : Prop :=
  ∀ offset, (phrase.read (.atOffset offset text)).found = none

variable {a b item : Phrase} {lexeme : Lexeme} {rule : Rule} {s t text rest : List Char}

theorem Takes.exists_derives (h : a.Takes text rest) (offset : Nat) :
    ∃ trees, a.Derives offset text rest trees := by
  obtain ⟨trees, hread⟩ := h offset
  obtain ⟨taken, htaken, -, hderives⟩ := exists_of_read hread
  obtain rfl : text = taken := List.append_cancel_right htaken
  exact ⟨trees, hderives⟩

theorem fails_of_forall_prefix
    (h : ∀ s t offset trees, text = s ++ t → ¬ a.Derives offset s t trees) : a.Fails text := by
  intro offset
  cases hread : (a.read (.atOffset offset text)).found with
  | none => rfl
  | some result =>
    rcases result with ⟨trees, d⟩
    obtain ⟨taken, htaken, -, hd⟩ := exists_of_read hread
    exact absurd hd (h taken _ _ _ htaken)

theorem takes_text (h : lexeme.Takes text rest) : (Phrase.text lexeme).Takes text rest := by
  intro offset
  exact ⟨[], by rw [found_read_text, h offset, Option.map_some]⟩

theorem takes_literal (word : String) (rest : List Char) :
    (Phrase.text (.literal word)).Takes word.toList rest :=
  takes_text (Lexeme.takes_literal word)

theorem fails_text (h : lexeme.Fails text) : (Phrase.text lexeme).Fails text := by
  intro offset
  rw [found_read_text, h offset, Option.map_none]

theorem takes_token (h : lexeme.Takes text rest) : (token rule lexeme).Takes text rest := by
  intro offset
  exact ⟨_, by rw [found_read_token, h offset, Option.map_some]⟩

theorem fails_token (h : lexeme.Fails text) : (token rule lexeme).Fails text := by
  intro offset
  rw [found_read_token, h offset, Option.map_none]

theorem Takes.node (h : a.Takes text rest) : (node rule a).Takes text rest := by
  intro offset
  obtain ⟨trees, htrees⟩ := h offset
  exact ⟨_, by rw [found_read_node, htrees, Option.map_some]⟩

theorem Fails.node (h : a.Fails text) : (node rule a).Fails text := by
  intro offset
  rw [found_read_node, h offset, Option.map_none]

theorem Takes.seq (ha : a.Takes s (t ++ rest)) (hb : b.Takes t rest) :
    (seq a b).Takes (s ++ t) rest := by
  intro offset
  obtain ⟨ss, hs⟩ := ha offset
  obtain ⟨ts, ht⟩ := hb (offset + utf8Len s)
  refine ⟨ss ++ ts, ?_⟩
  rw [found_read_seq, Outcome.found_andThen]
  refine ⟨ss, _, ts, by rw [List.append_assoc, hs], ?_, rfl⟩
  rw [ht, String.utf8Len_append, Nat.add_assoc]

theorem Fails.seq_left (ha : a.Fails text) : (seq a b).Fails text := by
  intro offset
  exact Outcome.found_andThen_none.mpr (Or.inl (ha offset))

theorem Fails.seq_right (hb : b.Fails rest) (ha : a.Takes text rest) :
    (seq a b).Fails (text ++ rest) := by
  intro offset
  obtain ⟨trees, htrees⟩ := ha offset
  exact Outcome.found_andThen_none.mpr (Or.inr ⟨trees, _, htrees, hb _⟩)

theorem Takes.alt_left (ha : a.Takes text rest) : (alt a b).Takes text rest := by
  intro offset
  obtain ⟨trees, htrees⟩ := ha offset
  exact ⟨trees, by rw [found_read_alt, htrees, Option.some_or]⟩

theorem Takes.alt_right (hb : b.Takes text rest) (ha : a.Fails (text ++ rest)) :
    (alt a b).Takes text rest := by
  intro offset
  obtain ⟨trees, htrees⟩ := hb offset
  exact ⟨trees, by rw [found_read_alt, ha offset, htrees, Option.none_or]⟩

theorem Takes.oneOf_cons (ha : a.Takes text rest) (others : List Phrase) :
    (oneOf (a :: others)).Takes text rest := by
  cases others with
  | nil => exact ha
  | cons other others => exact Takes.alt_left ha

theorem Takes.oneOf_of_fails {others : List Phrase} (h : (oneOf others).Takes text rest)
    (ha : a.Fails (text ++ rest)) : (oneOf (a :: others)).Takes text rest := by
  cases others with
  | nil =>
    have hfail : (oneOf []).Fails (text ++ rest) := by
      apply fails_text
      apply Lexeme.fails_one
      cases text ++ rest <;> simp
    obtain ⟨trees, htrees⟩ := h 0
    rw [hfail 0] at htrees
    cases htrees
  | cons other others => exact Takes.alt_right h ha

theorem takes_empty : (Phrase.text .empty).Takes [] rest :=
  takes_text Lexeme.takes_empty

theorem Takes.opt (h : item.Takes text rest) : (opt item).Takes text rest :=
  h.alt_left

theorem takes_opt_nil (h : item.Fails rest) : (opt item).Takes [] rest :=
  takes_empty.alt_right h

theorem takes_star_nil (h : item.Fails rest) : (star item).Takes [] rest := by
  intro offset
  have hfail := h offset
  refine ⟨[], ?_⟩
  rw [found_read_star, Cursor.collect, List.nil_append]
  split
  · simp
  · rename_i hread
    simp [hread] at hfail

theorem Takes.star_cons (hs : item.Takes s (t ++ rest)) (hne : s ≠ [])
    (ht : (star item).Takes t rest) : (star item).Takes (s ++ t) rest := by
  intro offset
  have hlt : 0 < utf8Len s := by
    obtain ⟨c, s, rfl⟩ := List.exists_cons_of_ne_nil hne
    have := c.utf8Size_pos
    simp only [String.utf8Len_cons]
    omega
  obtain ⟨ss, hfirst⟩ := hs offset
  obtain ⟨ts, hfurther⟩ := ht (offset + utf8Len s)
  refine ⟨ss ++ ts, ?_⟩
  rw [found_read_star] at hfurther ⊢
  rw [Cursor.collect, List.append_assoc]
  split
  · rename_i hread
    simp [hread] at hfirst
  · rename_i reach trees d hread
    rw [hread] at hfirst
    obtain ⟨rfl, rfl⟩ := Prod.mk.inj (Option.some.inj hfirst)
    simp [hlt, hfurther, Nat.add_assoc]

theorem takes_finish : finish.Takes [] [] := by
  intro offset
  exact ⟨_, rfl⟩

theorem Takes.seq_finish (h : a.Takes text []) : (Phrase.seq a finish).Takes text [] := by
  have hends : (finish : Phrase).Takes [] [] := takes_finish
  rw [← List.append_nil text]
  exact Takes.seq h hends

theorem Takes.ahead (h : a.Takes text rest) : (ahead a).Takes [] (text ++ rest) := by
  intro offset
  obtain ⟨trees, htrees⟩ := h offset
  exact ⟨[], by simp [htrees]⟩

end Phrase

end ContentSecurity.Grammar

import ContentSecurity.Proofs.Grammar.Attempts
/-!
# Reading in lockstep

Two texts that begin alike are read alike, until the reading gets behind what they have in common
or reports a rule that was attempted there (`Alike`).  The phrases of which this holds (`Agrees`)
report a text that they do not match at the first character that cannot be right
(`Phrase.Agrees.le_reach`).

A reading may stop short of the end of the common front when only some lax characters are left
there, such as the blanks behind a value, which the value leaves alone because of what follows them.
Then the next phrase has to get over these characters, or to report that it could not
(`Clears`).
-/

namespace ContentSecurity.Grammar

open Text
open String (utf8Len)

/-- No character at all. -/
def noChar (_ : Char) : Bool :=
  false

/-- The place lies behind an offset, or only lax characters stand between. -/
def Cursor.Past (lax : Char → Bool) (goal : Nat) (d : Cursor) : Prop :=
  ∃ left rest, d.rest = left ++ rest ∧ (∀ c ∈ left, lax c) ∧ goal ≤ d.offset + utf8Len left

/-- What came of reading `front ++ back`, compared with what came of `front ++ other`. -/
inductive Alike (lax : Char → Bool) (offset : Nat) (front back other : List Char)
    (outcome second : Outcome) : Prop
  | reached (h : offset + utf8Len front ≤ outcome.reach)
  | covered {trees : List Tree} {d : Cursor} (h : outcome.found = some (trees, d))
      (hpast : d.Past lax (offset + utf8Len front))
  | failed (h : outcome.found = none) (hsecond : second.found = none)
  | moved {s t : List Char} {trees others : List Tree} (hfront : front = s ++ t)
      (h : outcome.found = some (trees, .atOffset (offset + utf8Len s) (t ++ back)))
      (hsecond : second.found = some (others, .atOffset (offset + utf8Len s) (t ++ other)))

namespace Phrase

/-- Reading does not tell two texts with this front apart before it gets to the end of the front. -/
def Agrees (lax : Char → Bool) (p : Phrase) (front : List Char) : Prop :=
  ∀ offset back other, Alike lax offset front back other (p.read (.atOffset offset (front ++ back)))
    (p.read (.atOffset offset (front ++ other)))

/-- If reading fails in front of lax characters, it reports a place behind them. -/
def Clears (lax : Char → Bool) (p : Phrase) : Prop :=
  ∀ offset left rest, (∀ c ∈ left, lax c) →
    (p.read (.atOffset offset (left ++ rest))).found = none →
      offset + utf8Len left ≤ (p.read (.atOffset offset (left ++ rest))).reach

variable {lax narrow : Char → Bool} {a b p item : Phrase} {lexeme : Lexeme} {rule : Rule}
variable {offset goal : Nat} {s t front left rest : List Char} {trees : List Tree} {c d : Cursor}

/-! ### What is left over -/

/-- Whatever is taken of lax characters and of what follows, no others of them are left over. -/
theorem past_of_append_eq {taken back : List Char} (hleft : ∀ c ∈ left, lax c)
    (heq : left ++ rest = taken ++ back) :
    (Cursor.atOffset (offset + utf8Len taken) back).Past lax (offset + utf8Len left) := by
  rcases List.append_eq_append_iff.mp heq with ⟨more, rfl, rfl⟩ | ⟨tail, rfl, rfl⟩
  · refine ⟨[], back, rfl, by simp, ?_⟩
    simp only [Cursor.offset_atOffset, String.utf8Len_append, String.utf8Len_nil]
    omega
  · refine ⟨tail, rest, rfl, fun c hc => hleft c (List.mem_append_right _ hc), ?_⟩
    rw [Cursor.offset_atOffset, String.utf8Len_append, Nat.add_assoc]

theorem past_of_found (hleft : ∀ c ∈ left, lax c)
    (h : (p.read (.atOffset offset (left ++ rest))).found = some (trees, d)) :
    d.Past lax (offset + utf8Len left) := by
  obtain ⟨taken, htaken, hoffset, -⟩ := exists_of_read h
  rw [d.eq_atOffset, hoffset]
  exact past_of_append_eq hleft htaken

theorem past_mono (h : d.Past narrow goal) (hsub : ∀ c, narrow c → lax c) : d.Past lax goal := by
  obtain ⟨left, rest, hrest, hleft, hgoal⟩ := h
  exact ⟨left, rest, hrest, fun c hc => hsub c (hleft c hc), hgoal⟩

/-- The next phrase gets over what is left, or reports a place behind it. -/
theorem Clears.next (h : p.Clears lax) (hd : d.Past lax goal) :
    goal ≤ (p.read d).reach ∨ ∃ trees e, (p.read d).found = some (trees, e) ∧ e.Past lax goal := by
  obtain ⟨left, rest, hrest, hleft, hgoal⟩ := hd
  rw [d.eq_atOffset, hrest]
  cases hfound : (p.read (.atOffset d.offset (left ++ rest))).found with
  | none => exact Or.inl (hgoal.trans (h _ _ _ hleft hfound))
  | some result =>
    rcases result with ⟨trees, e⟩
    obtain ⟨tail, others, hothers, htail, hpast⟩ := past_of_found hleft hfound
    exact Or.inr ⟨trees, e, rfl, tail, others, hothers, htail, hgoal.trans hpast⟩

theorem Clears.mono (h : p.Clears lax) (hsub : ∀ c, narrow c → lax c) : p.Clears narrow :=
  fun offset left rest hleft => h offset left rest fun c hc => hsub c (hleft c hc)

theorem clears_of_found (h : ∀ c, (p.read c).found ≠ none) : p.Clears lax :=
  fun _ _ _ _ hnone => absurd hnone (h _)

/-- A phrase that reports where it stands when it fails. -/
theorem clears_noChar (h : ∀ c, (p.read c).found = none → c.offset ≤ (p.read c).reach) :
    p.Clears noChar := by
  intro offset left rest hleft hnone
  obtain rfl : left = [] := List.eq_nil_iff_forall_not_mem.mpr fun c hc => nomatch hleft c hc
  exact h _ hnone

theorem Agrees.mono (h : p.Agrees narrow front) (hsub : ∀ c, narrow c → lax c) :
    p.Agrees lax front := by
  intro offset back other
  cases h offset back other with
  | reached hreach => exact .reached hreach
  | covered hfound hpast => exact .covered hfound (past_mono hpast hsub)
  | failed hnone hsecond => exact .failed hnone hsecond
  | moved hfront hfound hsecond => exact .moved hfront hfound hsecond

theorem agrees_of_clears (h : p.Clears lax) (hfront : ∀ c ∈ front, lax c) : p.Agrees lax front := by
  intro offset back other
  cases hfound : (p.read (.atOffset offset (front ++ back))).found with
  | none => exact .reached (h _ _ _ hfront hfound)
  | some result => exact .covered hfound (past_of_found hfront hfound)

/-! ### From what is taken -/

theorem agrees_of_fails (h : ∀ back, p.Fails (front ++ back)) : p.Agrees lax front :=
  fun offset back other => .failed (h back offset) (h other offset)

theorem agrees_of_takes (h : ∀ back, p.Takes s (t ++ back)) : p.Agrees lax (s ++ t) := by
  intro offset back other
  obtain ⟨trees, htrees⟩ := h back offset
  obtain ⟨others, hothers⟩ := h other offset
  rw [List.append_assoc, List.append_assoc]
  exact .moved rfl htrees hothers

/-- The front is taken up to lax characters at its end, and possibly more. -/
theorem agrees_of_covers (hleft : ∀ c ∈ left, lax c)
    (h : ∀ back, ∃ more rest, left ++ back = more ++ rest ∧ p.Takes (s ++ more) rest) :
    p.Agrees lax (s ++ left) := by
  intro offset back other
  obtain ⟨more, rest, heq, htakes⟩ := h back
  obtain ⟨trees, htrees⟩ := htakes offset
  rw [List.append_assoc, ← heq, ← List.append_assoc] at htrees
  refine .covered htrees ?_
  rw [String.utf8Len_append, String.utf8Len_append, ← Nat.add_assoc, ← Nat.add_assoc]
  exact past_of_append_eq hleft heq

/-- A run of a class goes on to the first character outside of it. -/
theorem agrees_of_run {accepts : Char → Bool}
    (htakes : ∀ s rest, s ≠ [] → (∀ c ∈ s, accepts c) → Stops accepts rest → p.Takes s rest)
    (hstops : Stops accepts front → p.Agrees noChar front) : p.Agrees noChar front := by
  obtain ⟨run, others, rfl, hrun, hstop⟩ := exists_run accepts front
  by_cases hnil : run = []
  · rw [hnil, List.nil_append] at hstops ⊢
    exact hstops hstop
  by_cases hone : others = []
  · subst hone
    -- The front is such a run, which may go on in what follows.
    refine agrees_of_covers (by simp) fun back => ?_
    obtain ⟨more, rest, rfl, hmore, hrest⟩ := exists_run accepts back
    exact ⟨more, rest, rfl, htakes _ _ (by simp [hnil]) (List.forall_mem_append.mpr ⟨hrun, hmore⟩)
      hrest⟩
  · exact agrees_of_takes fun back => htakes _ _ hnil hrun (hstop.append_left hone)

/-! ### One rule for each way of building a phrase -/

/-- Where the first phrase stops inside of the front, at the same place in both texts, the second
goes on with the rest of the front. -/
theorem alike_seq {back other : List Char} {others : List Tree}
    (hfound : (a.read (.atOffset offset (s ++ t ++ back))).found =
      some (trees, .atOffset (offset + utf8Len s) (t ++ back)))
    (hsecond : (a.read (.atOffset offset (s ++ t ++ other))).found =
      some (others, .atOffset (offset + utf8Len s) (t ++ other)))
    (h : Alike lax (offset + utf8Len s) t back other
      (b.read (.atOffset (offset + utf8Len s) (t ++ back)))
      (b.read (.atOffset (offset + utf8Len s) (t ++ other)))) :
    Alike lax offset (s ++ t) back other ((seq a b).read (.atOffset offset (s ++ t ++ back)))
      ((seq a b).read (.atOffset offset (s ++ t ++ other))) := by
  have hlength : offset + utf8Len (s ++ t) = offset + utf8Len s + utf8Len t := by
    rw [String.utf8Len_append, Nat.add_assoc]
  rw [read, read]
  cases h with
  | reached hreach =>
    refine .reached ?_
    rw [hlength, Outcome.reach_andThen_of_some hfound]
    exact hreach.trans (Nat.le_max_right ..)
  | covered hnext hpast =>
    refine .covered (Outcome.found_andThen.mpr ⟨_, _, _, hfound, hnext, rfl⟩) ?_
    rwa [hlength]
  | failed hnone hnone' =>
    exact .failed (Outcome.found_andThen_none.mpr (Or.inr ⟨_, _, hfound, hnone⟩))
      (Outcome.found_andThen_none.mpr (Or.inr ⟨_, _, hsecond, hnone'⟩))
  | moved hfront hnext hnext' =>
    subst hfront
    rw [Nat.add_assoc, ← String.utf8Len_append] at hnext hnext'
    exact .moved (List.append_assoc ..).symm
      (Outcome.found_andThen.mpr ⟨_, _, _, hfound, hnext, rfl⟩)
      (Outcome.found_andThen.mpr ⟨_, _, _, hsecond, hnext', rfl⟩)

/-- Where the first phrase stops in front of lax characters only, the second gets over them. -/
theorem alike_seq_of_past {back other : List Char} {second : Outcome}
    (hfound : (a.read (.atOffset offset (front ++ back))).found = some (trees, d))
    (hnext : offset + utf8Len front ≤ (b.read d).reach ∨
      ∃ trees e, (b.read d).found = some (trees, e) ∧ e.Past lax (offset + utf8Len front)) :
    Alike lax offset front back other ((seq a b).read (.atOffset offset (front ++ back)))
      second := by
  rcases hnext with hreach | ⟨ts, e, hnext, hpast⟩
  · refine .reached (hreach.trans ?_)
    rw [read, Outcome.reach_andThen_of_some hfound]
    exact Nat.le_max_right ..
  · exact .covered (Outcome.found_andThen.mpr ⟨_, _, _, hfound, hnext, rfl⟩) hpast

theorem Agrees.seq (ha : a.Agrees narrow front) (hb : ∀ t, b.Agrees lax t)
    (hclears : b.Clears narrow) (hsub : ∀ c, narrow c → lax c) :
    (Phrase.seq a b).Agrees lax front := by
  intro offset back other
  cases ha offset back other with
  | reached hreach => exact .reached (hreach.trans (Outcome.le_reach_andThen ..))
  | covered hfound hpast =>
    refine alike_seq_of_past hfound ((hclears.next hpast).imp_right ?_)
    rintro ⟨ts, e, hnext, hpast⟩
    exact ⟨ts, e, hnext, past_mono hpast hsub⟩
  | failed hnone hsecond =>
    exact .failed (Outcome.found_andThen_none.mpr (Or.inl hnone))
      (Outcome.found_andThen_none.mpr (Or.inl hsecond))
  | moved hfront hfound hsecond =>
    subst hfront
    exact alike_seq hfound hsecond (hb _ _ back other)

theorem Agrees.seq_of_takes (hb : b.Agrees lax t) (ha : ∀ back, a.Takes s (t ++ back)) :
    (Phrase.seq a b).Agrees lax (s ++ t) := by
  intro offset back other
  obtain ⟨trees, htrees⟩ := ha back offset
  obtain ⟨others, hothers⟩ := ha other offset
  rw [← List.append_assoc] at htrees hothers
  exact alike_seq htrees hothers (hb _ back other)

theorem le_reach_seq (hfound : (a.read c).found = some (trees, d)) (hpast : d.Past lax goal)
    (hb : b.Clears lax) (hnone : ((seq a b).read c).found = none) :
    goal ≤ ((seq a b).read c).reach := by
  rw [read, Outcome.reach_andThen_of_some hfound]
  rcases hb.next hpast with hreach | ⟨ts, e, hnext, -⟩
  · exact hreach.trans (Nat.le_max_right ..)
  · rw [found_read_seq, Outcome.found_andThen.mpr ⟨_, _, _, hfound, hnext, rfl⟩] at hnone
    cases hnone

theorem Clears.seq (ha : a.Clears lax) (hb : b.Clears lax) : (Phrase.seq a b).Clears lax := by
  intro offset left rest hleft hnone
  cases hfound : (a.read (.atOffset offset (left ++ rest))).found with
  | none => exact (ha _ _ _ hleft hfound).trans (Outcome.le_reach_andThen ..)
  | some result => exact le_reach_seq hfound (past_of_found hleft hfound) hb hnone

theorem Agrees.node (h : a.Agrees lax front) : (Phrase.node rule a).Agrees lax front := by
  intro offset back other
  cases h offset back other with
  | reached hreach => exact .reached (hreach.trans le_reach_read_node)
  | covered hfound hpast =>
    exact .covered (by rw [found_read_node, hfound, Option.map_some]) hpast
  | failed hnone hsecond =>
    exact .failed (by rw [found_read_node, hnone, Option.map_none])
      (by rw [found_read_node, hsecond, Option.map_none])
  | moved hfront hfound hsecond =>
    exact .moved hfront (by rw [found_read_node, hfound, Option.map_some])
      (by rw [found_read_node, hsecond, Option.map_some])

theorem clears_node : (node rule a).Clears noChar := by
  refine clears_noChar fun c hnone => ?_
  rw [found_read_node, Option.map_eq_none_iff] at hnone
  rw [reach_read_node_of_none hnone]
  exact Nat.le_max_right ..

theorem clears_token : (token rule lexeme).Clears noChar := by
  refine clears_noChar fun c hnone => ?_
  rw [found_read_token, Option.map_eq_none_iff] at hnone
  rw [read, hnone]

theorem clears_opt : (opt item).Clears lax := by
  refine clears_of_found fun c hnone => ?_
  rw [opt, found_read_alt] at hnone
  cases (Option.or_eq_none_iff.mp hnone).2

/-- What may be missing has to agree on fronts that are not lax only: any other one can be left. -/
theorem agrees_opt (h : (∃ c ∈ front, lax c = false) → item.Agrees lax front) :
    (opt item).Agrees lax front := by
  by_cases hlax : ∀ c ∈ front, lax c
  · exact agrees_of_clears clears_opt hlax
  have hitem : item.Agrees lax front := h (by simpa using hlax)
  intro offset back other
  have hopt : ∀ c, ((opt item).read c).found = (item.read c).found.or (some ([], c)) :=
    fun c => found_read_alt
  cases hitem offset back other with
  | reached hreach => exact .reached (hreach.trans (Outcome.le_reach_orElse ..))
  | covered hfound hpast => exact .covered (by rw [hopt, hfound, Option.some_or]) hpast
  | failed hnone hsecond =>
    -- Both texts go on without the item.
    exact .moved (List.nil_append _).symm (by rw [hopt, hnone]; rfl) (by rw [hopt, hsecond]; rfl)
  | moved hfront hfound hsecond =>
    exact .moved hfront (by rw [hopt, hfound, Option.some_or])
      (by rw [hopt, hsecond, Option.some_or])

theorem found_read_star_ne_none (c : Cursor) : ((star item).read c).found ≠ none := by
  rw [found_read_star]
  induction hn : c.left using Nat.strong_induction_on generalizing c with
  | _ n ih =>
    cases hfound : (item.read c).found with
    | none => simp [Cursor.collect_of_none hfound]
    | some result =>
      rcases result with ⟨trees, d⟩
      by_cases hlt : d.left < c.left
      · rw [Cursor.collect_of_some hfound hlt]
        simpa using ih d.left (hn ▸ hlt) d rfl
      · simp [Cursor.collect_of_still hfound hlt]

theorem clears_star : (star item).Clears lax :=
  clears_of_found found_read_star_ne_none

theorem le_reach_collect (c : Cursor) : (item.read c).reach ≤ (c.collect item.read).reach := by
  cases hfound : (item.read c).found with
  | none => rw [Cursor.collect_of_none hfound]
  | some result =>
    rcases result with ⟨trees, d⟩
    by_cases hlt : d.left < c.left
    · rw [Cursor.collect_of_some hfound hlt]
      exact Nat.le_max_left ..
    · rw [Cursor.collect_of_still hfound hlt]

/-- A repetition that goes on is an item with a repetition behind it. -/
theorem read_star_of_found (hnil : ∀ offset rest trees, ¬ item.Derives offset [] rest trees)
    (h : (item.read c).found = some (trees, d)) :
    (star item).read c = (seq item (star item)).read c := by
  obtain ⟨text, hrest, -, hderives⟩ := exists_of_read h
  have hne : text ≠ [] := by
    rintro rfl
    exact hnil _ _ _ hderives
  have hmoves : d.left < c.left := by
    rw [c.left_eq_utf8Len, d.left_eq_utf8Len, hrest, String.utf8Len_append]
    exact Nat.lt_add_of_pos_left (utf8Len_pos hne)
  rw [read, read, Cursor.collect_of_some h hmoves, Outcome.andThen, h]
  rfl

/-- What may be repeated has to agree on fronts that are not lax only. -/
theorem agrees_star (hitem : ∀ front, (∃ c ∈ front, lax c = false) → item.Agrees lax front)
    (hnil : ∀ offset rest trees, ¬ item.Derives offset [] rest trees) (front : List Char) :
    (star item).Agrees lax front := by
  -- An item that stops inside of the front leaves a shorter one to the rest of the repetition.
  induction hn : front.length using Nat.strong_induction_on generalizing front with
  | _ n ih =>
    by_cases hlax : ∀ c ∈ front, lax c
    · exact agrees_of_clears clears_star hlax
    intro offset back other
    cases hitem front (by simpa using hlax) offset back other with
    | reached hreach => exact .reached (hreach.trans (le_reach_collect _))
    | covered hfound hpast =>
      rw [read_star_of_found hnil hfound]
      exact alike_seq_of_past hfound (clears_star.next hpast)
    | failed hnone hsecond =>
      exact .moved (List.nil_append _).symm (by rw [read, Cursor.collect_of_none hnone]; rfl)
        (by rw [read, Cursor.collect_of_none hsecond]; rfl)
    | @moved s t _ _ hfront hfound hsecond =>
      subst hfront
      rw [read_star_of_found hnil hfound, read_star_of_found hnil hsecond]
      refine alike_seq hfound hsecond (ih t.length ?_ t rfl _ back other)
      have hne : s ≠ [] := by
        rintro rfl
        obtain ⟨text, htext, -, hderives⟩ := exists_of_read hfound
        obtain rfl : [] = text := List.append_cancel_right htext
        exact hnil _ _ _ hderives
      rw [← hn, List.length_append]
      exact Nat.lt_add_of_pos_left (List.length_pos_iff.mpr hne)

theorem clears_finish : finish.Clears noChar := by
  refine clears_noChar fun c hnone => ?_
  rw [read] at hnone ⊢
  split at hnone
  · cases hnone
  · rename_i hrest
    rw [if_neg hrest]

theorem agrees_finish (front : List Char) : finish.Agrees noChar front := by
  cases front with
  | nil => exact agrees_of_clears clears_finish (by simp)
  | cons c front => exact agrees_of_fails fun back offset => rfl

/-! ### Where a text goes wrong -/

/-- **A rule is reported behind every front with which the text could have gone on.** -/
theorem Agrees.le_reach {back other : List Char} (h : p.Agrees lax front)
    (hnone : (p.read (.atOffset offset (front ++ back))).found = none)
    (hother : (p.read (.atOffset offset (front ++ other))).found ≠ none) :
    offset + utf8Len front ≤ (p.read (.atOffset offset (front ++ back))).reach := by
  cases h offset back other with
  | reached hreach => exact hreach
  | covered hfound _ =>
    rw [hnone] at hfound
    cases hfound
  | failed _ hsecond => exact absurd hsecond hother
  | moved _ hfound _ =>
    rw [hnone] at hfound
    cases hfound

end Phrase

end ContentSecurity.Grammar

import ContentSecurity.Proofs.Grammar.StandAlone
/-!
# Where rules are attempted

A text that does not match is reported with the greatest offset at which a rule was attempted in
vain.  `Phrase.Attempts` says without commitment behind which stretches of a text a rule is
attempted, and reading reports no other place (`Phrase.reports_read`).  What stands before such a
place has been read by what comes before in the phrase, and what the rule there asks for can be put
behind it; so the text up to this place begins one that the phrase describes
(`Phrase.exists_describes_of_attempts`).
-/

namespace ContentSecurity.Grammar

open Text
open String (utf8Len)

/-! ### Outcomes by cases -/

namespace Outcome

variable {outcome : Outcome} {next : Cursor → Outcome} {trees : List Tree} {d : Cursor}

theorem andThen_of_none (h : outcome.found = none) : outcome.andThen next = outcome := by
  rw [andThen, h]

theorem reach_andThen_of_some (h : outcome.found = some (trees, d)) :
    (outcome.andThen next).reach = max outcome.reach (next d).reach := by
  rw [andThen, h]

theorem le_reach_andThen (outcome : Outcome) (next : Cursor → Outcome) :
    outcome.reach ≤ (outcome.andThen next).reach := by
  cases h : outcome.found with
  | none => rw [andThen_of_none h]
  | some result =>
    rw [reach_andThen_of_some h]
    exact Nat.le_max_left ..

theorem orElse_of_some (other : Unit → Outcome) (h : outcome.found = some (trees, d)) :
    outcome.orElse other = outcome := by
  rw [orElse, h]

theorem reach_orElse_of_none (other : Unit → Outcome) (h : outcome.found = none) :
    (outcome.orElse other).reach = max outcome.reach (other ()).reach := by
  rw [orElse, h]

theorem le_reach_orElse (outcome : Outcome) (other : Unit → Outcome) :
    outcome.reach ≤ (outcome.orElse other).reach := by
  cases h : outcome.found with
  | none =>
    rw [reach_orElse_of_none _ h]
    exact Nat.le_max_left ..
  | some result => rw [orElse_of_some _ h]

end Outcome

namespace Cursor

variable {item : Cursor → Outcome} {c d : Cursor} {trees : List Tree}

theorem collect_of_none (h : (item c).found = none) :
    c.collect item = ⟨(item c).reach, some ([], c)⟩ := by
  rw [collect]
  split
  · rename_i hitem
    rw [hitem]
  · rename_i hitem
    rw [hitem] at h
    cases h

theorem collect_of_still (h : (item c).found = some (trees, d)) (hstill : ¬ d.left < c.left) :
    c.collect item = ⟨(item c).reach, some ([], c)⟩ := by
  rw [collect]
  split
  · rename_i hitem
    rw [hitem]
  · rename_i hitem
    rw [hitem] at h
    cases h
    rw [if_neg hstill, hitem]

theorem collect_of_some (h : (item c).found = some (trees, d)) (hmoves : d.left < c.left) :
    c.collect item = ⟨max (item c).reach (d.collect item).reach,
      (d.collect item).found.map fun (others, e) => (trees ++ others, e)⟩ := by
  rw [collect]
  split
  · rename_i hitem
    rw [hitem] at h
    cases h
  · rename_i hitem
    rw [hitem] at h
    cases h
    rw [if_pos hmoves, hitem]

end Cursor

namespace Phrase

variable {a b p item : Phrase} {offset : Nat} {s t text rest front back : List Char}
variable {trees : List Tree} {c d : Cursor} {reach : Nat} {rule : Rule}

theorem reach_read_node_of_none (h : (a.read c).found = none) :
    ((node rule a).read c).reach = max (a.read c).reach c.offset := by
  rw [read]
  split
  · rename_i hread
    rw [hread] at h
    cases h
  · rename_i hread
    rw [hread]

theorem reach_read_node_of_some {result : List Tree × Cursor} (h : (a.read c).found = some result) :
    ((node rule a).read c).reach = (a.read c).reach := by
  rw [read]
  split
  · rename_i hread
    rw [hread]
  · rename_i hread
    rw [hread] at h
    cases h

theorem le_reach_read_node : (a.read c).reach ≤ ((node rule a).read c).reach := by
  cases h : (a.read c).found with
  | none =>
    rw [reach_read_node_of_none h]
    exact Nat.le_max_left ..
  | some result => rw [reach_read_node_of_some h]

/-! ### Attempts -/

/-- Behind the stretch `front`, where `back` follows, a rule of the phrase is attempted. -/
def Attempts : Phrase → Nat → List Char → List Char → Prop
  | .text _, _, _, _ => False
  | .token _ _, _, front, _ => front = []
  | .node _ body, offset, front, back => front = [] ∨ body.Attempts offset front back
  | .seq first second, offset, front, back =>
    first.Attempts offset front back ∨ ∃ s t ss, front = s ++ t ∧
      first.Derives offset s (t ++ back) ss ∧ second.Attempts (offset + utf8Len s) t back
  | .alt first second, offset, front, back =>
    first.Attempts offset front back ∨ second.Attempts offset front back
  | .star item, offset, front, back =>
    ∃ s t ss, front = s ++ t ∧ Repeats item.Derives offset s (t ++ back) ss ∧
      item.Attempts (offset + utf8Len s) t back
  | .finish, _, front, _ => front = []
  | .ahead body, offset, front, back => body.Attempts offset front back

/-- No rule failed, or the last of them was attempted by the phrase. -/
def Reports (p : Phrase) (c : Cursor) (reach : Nat) : Prop :=
  reach = 0 ∨ ∃ front back, c.rest = front ++ back ∧ reach = c.offset + utf8Len front ∧
    p.Attempts c.offset front back

theorem Reports.mono (h : a.Reports c reach)
    (hsub : ∀ front back, a.Attempts c.offset front back → b.Attempts c.offset front back) :
    b.Reports c reach := by
  rcases h with rfl | ⟨front, back, hrest, hreach, hattempts⟩
  · exact Or.inl rfl
  · exact Or.inr ⟨front, back, hrest, hreach, hsub front back hattempts⟩

theorem Reports.max {m n : Nat} (hm : p.Reports c m) (hn : p.Reports c n) :
    p.Reports c (max m n) := by
  rcases Nat.le_total m n with hle | hle
  · rwa [Nat.max_eq_right hle]
  · rwa [Nat.max_eq_left hle]

theorem reports_here (h : p.Attempts c.offset [] c.rest) : p.Reports c c.offset :=
  Or.inr ⟨[], c.rest, rfl, rfl, h⟩

/-- What is reported behind a stretch that has been read is reported by the whole. -/
theorem Reports.behind (h : a.Reports d reach) (hrest : c.rest = s ++ d.rest)
    (hoffset : d.offset = c.offset + utf8Len s)
    (hsub : ∀ front back, d.rest = front ++ back → a.Attempts d.offset front back →
      b.Attempts c.offset (s ++ front) back) : b.Reports c reach := by
  rcases h with rfl | ⟨front, back, hback, hreach, hattempts⟩
  · exact Or.inl rfl
  · refine Or.inr ⟨s ++ front, back, ?_, ?_, hsub front back hback hattempts⟩
    · rw [hrest, hback, List.append_assoc]
    · rw [hreach, hoffset, String.utf8Len_append, Nat.add_assoc]

theorem reports_collect (hitem : ∀ c, item.Reports c (item.read c).reach) (c : Cursor) :
    (star item).Reports c (c.collect item.read).reach := by
  have hfirst : ∀ c, (star item).Reports c (item.read c).reach := by
    intro c
    exact (hitem c).mono fun front back h => ⟨[], front, [], rfl, .nil, h⟩
  -- What is reported behind the first item is an attempt behind one item more.
  induction hn : c.left using Nat.strong_induction_on generalizing c with
  | _ n ih =>
    cases hfound : (item.read c).found with
    | none =>
      rw [Cursor.collect_of_none hfound]
      exact hfirst c
    | some result =>
      rcases result with ⟨trees, d⟩
      by_cases hlt : d.left < c.left
      · rw [Cursor.collect_of_some hfound hlt]
        obtain ⟨text, hrest, hoffset, hderives⟩ := exists_of_read hfound
        refine (hfirst c).max ((ih d.left (hn ▸ hlt) d rfl).behind hrest hoffset ?_)
        rintro _ back hback ⟨s, t, ss, rfl, hs, ht⟩
        rw [hback, List.append_assoc] at hderives
        rw [hoffset] at hs ht
        refine ⟨text ++ s, t, trees ++ ss, by rw [List.append_assoc], .cons hderives hs, ?_⟩
        rwa [String.utf8Len_append, ← Nat.add_assoc]
      · rw [Cursor.collect_of_still hfound hlt]
        exact hfirst c

/-- **Reading reports the attempt of a rule.** -/
theorem reports_read (p : Phrase) (c : Cursor) : p.Reports c (p.read c).reach := by
  induction p generalizing c with
  | text lexeme => exact Or.inl rfl
  | token rule lexeme =>
    rw [read]
    cases lexeme.read c with
    | none => exact reports_here rfl
    | some d => exact Or.inl rfl
  | node rule body ih =>
    have hbody : (node rule body).Reports c (body.read c).reach :=
      (ih c).mono fun _ _ => Or.inr
    cases hfound : (body.read c).found with
    | none =>
      rw [reach_read_node_of_none hfound]
      exact hbody.max (reports_here (Or.inl rfl))
    | some result =>
      rw [reach_read_node_of_some hfound]
      exact hbody
  | seq first second ih₁ ih₂ =>
    have hfirst : (seq first second).Reports c (first.read c).reach :=
      (ih₁ c).mono fun _ _ => Or.inl
    rw [read]
    cases hfound : (first.read c).found with
    | none =>
      rw [Outcome.andThen_of_none hfound]
      exact hfirst
    | some result =>
      rcases result with ⟨trees, d⟩
      rw [Outcome.reach_andThen_of_some hfound]
      obtain ⟨text, hrest, hoffset, hderives⟩ := exists_of_read hfound
      refine hfirst.max ((ih₂ d).behind hrest hoffset fun front back hback hattempts => ?_)
      rw [hback] at hderives
      exact Or.inr ⟨text, front, trees, rfl, hderives, hoffset ▸ hattempts⟩
  | alt first second ih₁ ih₂ =>
    have hfirst : (alt first second).Reports c (first.read c).reach :=
      (ih₁ c).mono fun _ _ => Or.inl
    rw [read]
    cases hfound : (first.read c).found with
    | none =>
      rw [Outcome.reach_orElse_of_none _ hfound]
      exact hfirst.max ((ih₂ c).mono fun _ _ => Or.inr)
    | some result =>
      rw [Outcome.orElse_of_some _ hfound]
      exact hfirst
  | star item ih => exact reports_collect ih c
  | finish =>
    rw [read]
    split
    · exact Or.inl rfl
    · exact reports_here rfl
  | ahead body ih => exact ih c

/-! ### Derivations elsewhere -/

/-- The phrase looks ahead, to the end of a source. -/
def looks : Phrase → Bool
  | .text _ => false
  | .token _ _ => false
  | .node _ body => body.looks
  | .seq first second => first.looks || second.looks
  | .alt first second => first.looks || second.looks
  | .star item => item.looks
  | .finish => false
  | .ahead _ => true

/-- The phrase asks for the end of the text. -/
def ends : Phrase → Bool
  | .text _ => false
  | .token _ _ => false
  | .node _ body => body.ends
  | .seq first second => first.ends || second.ends
  | .alt first second => first.ends || second.ends
  | .star item => item.ends
  | .finish => true
  | .ahead _ => false

/-- What can stand behind a phrase where `rest` did. -/
structure Replaces (p : Phrase) (rest back : List Char) : Prop where
  stops : p.looks = true → Stops (!isBlank ·) rest → Stops (!isBlank ·) back
  eq_nil : p.ends = true → rest = [] → back = []

theorem Replaces.parts (h : p.Replaces rest back) (hlooks : p.looks = (a.looks || b.looks))
    (hends : p.ends = (a.ends || b.ends)) : a.Replaces rest back ∧ b.Replaces rest back := by
  have hleft : a.looks = true → p.looks = true := fun hlook => by simp [hlooks, hlook]
  have hright : b.looks = true → p.looks = true := fun hlook => by simp [hlooks, hlook]
  have hend : a.ends = true → p.ends = true := fun hend => by simp [hends, hend]
  have hend' : b.ends = true → p.ends = true := fun hend => by simp [hends, hend]
  exact ⟨⟨h.stops ∘ hleft, h.eq_nil ∘ hend⟩, ⟨h.stops ∘ hright, h.eq_nil ∘ hend'⟩⟩

theorem Replaces.append_left (h : p.Replaces rest back) (t : List Char) :
    p.Replaces (t ++ rest) (t ++ back) := by
  cases t with
  | nil => exact h
  | cons c t =>
    refine ⟨fun _ hstop => ?_, fun _ hnil => by cases hnil⟩
    simpa using hstop

/-- **A derivation remains one elsewhere**, if what follows is as good for the looks ahead. -/
theorem Derives.elsewhere (hp : p.Composed) (h : p.Derives offset text rest trees)
    (hback : p.Replaces rest back) (place : Nat) : ∃ others, p.Derives place text back others := by
  induction p generalizing offset text rest trees back place with
  | text lexeme => exact ⟨[], h.1, rfl⟩
  | token rule lexeme => exact ⟨_, h.1, rfl⟩
  | node rule body ih =>
    obtain ⟨children, hbody, -⟩ := h
    obtain ⟨others, hothers⟩ := ih hp.2.2 hbody ⟨hback.stops, hback.eq_nil⟩ place
    exact ⟨_, others, hothers, rfl⟩
  | seq first second ih₁ ih₂ =>
    obtain ⟨s, t, ss, ts, hs, ht, rfl, rfl⟩ := h
    obtain ⟨hfirst, hsecond⟩ := hback.parts rfl rfl
    obtain ⟨ss', hs'⟩ := ih₁ hp.1 hs (hfirst.append_left t) place
    obtain ⟨ts', ht'⟩ := ih₂ hp.2 ht hsecond (place + utf8Len s)
    exact ⟨_, s, t, ss', ts', hs', ht', rfl, rfl⟩
  | alt first second ih₁ ih₂ =>
    obtain ⟨hfirst, hsecond⟩ := hback.parts rfl rfl
    rcases h with h | h
    · obtain ⟨others, hothers⟩ := ih₁ hp.1 h hfirst place
      exact ⟨others, Or.inl hothers⟩
    · obtain ⟨others, hothers⟩ := ih₂ hp.2 h hsecond place
      exact ⟨others, Or.inr hothers⟩
  | star item ih =>
    have hrepeats : Repeats item.Derives offset text rest trees := h
    have hitem : item.Replaces rest back := ⟨hback.stops, hback.eq_nil⟩
    clear h hback
    induction hrepeats generalizing place with
    | nil => exact ⟨[], .nil⟩
    | @cons offset s others rest ss ts first further ihs =>
      obtain ⟨ss', hs'⟩ := ih hp first (hitem.append_left others) place
      obtain ⟨ts', ht'⟩ := ihs (place + utf8Len s) hitem
      exact ⟨ss' ++ ts', .cons hs' ht'⟩
  | finish =>
    obtain ⟨rfl, hrest, -⟩ := h
    exact ⟨_, rfl, hback.eq_nil rfl hrest, rfl⟩
  | ahead body ih =>
    have hbody : Phrase.ahead body = sourceEnd := hp
    have hstop := hback.stops rfl
    rw [hbody] at h ⊢
    obtain ⟨rfl, -, hrest⟩ := stops_of_derives_sourceEnd h
    exact (takes_sourceEnd (hstop hrest)).exists_derives place

/-! ### Texts one behind the other -/

theorem Describes.exists_derives (hp : p.Composed) (h : p.Describes text) (place : Nat)
    (hlooks : p.looks = false ∨ Stops (!isBlank ·) back) (hends : p.ends = false ∨ back = []) :
    ∃ trees, p.Derives place text back trees := by
  obtain ⟨offset, rest, trees, hderives⟩ := h
  refine hderives.elsewhere hp ⟨fun hlook _ => ?_, fun hend _ => ?_⟩ place
  · exact hlooks.resolve_left (by simp [hlook])
  · exact hends.resolve_left (by simp [hend])

/-- Texts of two phrases, one behind the other, are a text of both.  If the first looks ahead, then
the second has to give it what it looks for. -/
theorem Describes.seq (ha : a.Composed) (hb : b.Composed) (hs : a.Describes s) (ht : b.Describes t)
    (hlooks : a.looks = false ∨ Stops (!isBlank ·) t) (hends : a.ends = false) :
    (seq a b).Describes (s ++ t) := by
  rw [← List.append_nil t] at hlooks
  obtain ⟨ss, hfirst⟩ := hs.exists_derives ha 0 hlooks (Or.inl hends)
  obtain ⟨ts, hsecond⟩ := ht.exists_derives hb (0 + utf8Len s) (Or.inr stops_nil) (Or.inr rfl)
  exact ⟨0, [], _, s, t, ss, ts, hfirst, hsecond, rfl, rfl⟩

theorem repeats_concat {derives : Nat → List Char → List Char → List Tree → Prop}
    {others : List Tree} (h : Repeats derives offset s back trees) (hback : back = t ++ rest)
    (hlast : derives (offset + utf8Len s) t rest others) :
    Repeats derives offset (s ++ t) rest (trees ++ others) := by
  induction h with
  | @nil offset =>
    subst hback
    have hone : Repeats derives offset (t ++ []) rest (others ++ []) := .cons hlast .nil
    rwa [List.append_nil, List.append_nil] at hone
  | @cons offset s siblings back ss ts first further ih =>
    subst hback
    rw [String.utf8Len_append, ← Nat.add_assoc] at hlast
    rw [← List.append_assoc] at first
    rw [List.append_assoc, List.append_assoc]
    exact .cons first (ih rfl hlast)

/-- One more item behind several. -/
theorem Describes.star_concat (hitem : item.Composed) (hs : (star item).Describes s)
    (ht : item.Describes t) (hlooks : item.looks = false ∨ Stops (!isBlank ·) t)
    (hends : item.ends = false) : (star item).Describes (s ++ t) := by
  rw [← List.append_nil t] at hlooks
  have hseveral : (star item).Composed := hitem
  obtain ⟨ss, hfirst⟩ := hs.exists_derives hseveral 0 hlooks (Or.inl hends)
  obtain ⟨ts, hlast⟩ := ht.exists_derives hitem (0 + utf8Len s) (Or.inr stops_nil) (Or.inr rfl)
  exact ⟨0, [], _, repeats_concat hfirst rfl hlast⟩

/-! ### Attempts begin a text -/

/-- Every part of the phrase describes some text, and what follows a part that looks ahead gives it
what it looks for. -/
def Productive : Phrase → Prop
  | .text lexeme => ∃ s, s ∈ lexeme.language
  | .token _ lexeme => ∃ s, s ∈ lexeme.language
  | .node _ body => body.Productive
  | .seq first second => first.Productive ∧ second.Productive ∧ first.ends = false ∧
    (first.looks = false ∨ ∀ t, second.Describes t → Stops (!isBlank ·) t)
  | .alt first second => first.Productive ∧ second.Productive
  | .star item => item.Productive ∧ item.ends = false ∧
    (item.looks = false ∨ ∀ t, item.Describes t → Stops (!isBlank ·) t)
  | .finish => True
  | .ahead _ => True

theorem exists_describes (hc : p.Composed) (hp : p.Productive) : ∃ text, p.Describes text := by
  induction p with
  | text lexeme =>
    obtain ⟨s, hs⟩ := hp
    exact ⟨s, 0, [], [], hs, rfl⟩
  | token rule lexeme =>
    obtain ⟨s, hs⟩ := hp
    exact ⟨s, 0, [], _, hs, rfl⟩
  | node rule body ih =>
    obtain ⟨s, offset, rest, trees, hs⟩ := ih hc.2.2 hp
    exact ⟨s, offset, rest, _, trees, hs, rfl⟩
  | seq first second ih₁ ih₂ =>
    obtain ⟨hfirst, hsecond, hends, hlooks⟩ := hp
    obtain ⟨s, hs⟩ := ih₁ hc.1 hfirst
    obtain ⟨t, ht⟩ := ih₂ hc.2 hsecond
    exact ⟨s ++ t, hs.seq hc.1 hc.2 ht (hlooks.imp_right (· t ht)) hends⟩
  | alt first second ih₁ ih₂ =>
    obtain ⟨s, offset, rest, trees, hs⟩ := ih₁ hc.1 hp.1
    exact ⟨s, offset, rest, trees, Or.inl hs⟩
  | star item ih => exact ⟨[], 0, [], [], .nil⟩
  | finish => exact ⟨[], 0, [], _, rfl, rfl, rfl⟩
  | ahead body ih =>
    have hbody : Phrase.ahead body = sourceEnd := hc
    obtain ⟨trees, hderives⟩ := (takes_sourceEnd stops_nil).exists_derives 0
    exact ⟨[], 0, [], trees, hbody ▸ hderives⟩

/-- **Behind an attempt the text can be completed.** -/
theorem exists_describes_of_attempts (hc : p.Composed) (hp : p.Productive)
    (h : p.Attempts offset front back) : ∃ more, p.Describes (front ++ more) := by
  induction p generalizing offset front back with
  | text lexeme => cases h
  | token rule lexeme =>
    obtain rfl : front = [] := h
    exact exists_describes hc hp
  | node rule body ih =>
    rcases h with rfl | h
    · exact exists_describes hc hp
    · obtain ⟨more, offset, rest, trees, hmore⟩ := ih hc.2.2 hp h
      exact ⟨more, offset, rest, _, trees, hmore, rfl⟩
  | seq first second ih₁ ih₂ =>
    obtain ⟨hfirst, hsecond, hends, hlooks⟩ := hp
    rcases h with h | ⟨s, t, ss, rfl, hs, ht⟩
    · obtain ⟨more, hmore⟩ := ih₁ hc.1 hfirst h
      obtain ⟨t, ht⟩ := exists_describes hc.2 hsecond
      refine ⟨more ++ t, ?_⟩
      rw [← List.append_assoc]
      exact hmore.seq hc.1 hc.2 ht (hlooks.imp_right (· t ht)) hends
    · obtain ⟨more, hmore⟩ := ih₂ hc.2 hsecond ht
      refine ⟨more, ?_⟩
      rw [List.append_assoc]
      exact Describes.seq hc.1 hc.2 ⟨_, _, _, hs⟩ hmore (hlooks.imp_right (· _ hmore)) hends
  | alt first second ih₁ ih₂ =>
    rcases h with h | h
    · obtain ⟨more, offset, rest, trees, hmore⟩ := ih₁ hc.1 hp.1 h
      exact ⟨more, offset, rest, trees, Or.inl hmore⟩
    · obtain ⟨more, offset, rest, trees, hmore⟩ := ih₂ hc.2 hp.2 h
      exact ⟨more, offset, rest, trees, Or.inr hmore⟩
  | star item ih =>
    obtain ⟨hitem, hends, hlooks⟩ := hp
    obtain ⟨s, t, ss, rfl, hs, ht⟩ := h
    obtain ⟨more, hmore⟩ := ih hc hitem ht
    refine ⟨more, ?_⟩
    rw [List.append_assoc]
    exact Describes.star_concat hc ⟨_, _, _, hs⟩ hmore (hlooks.imp_right (· _ hmore)) hends
  | finish =>
    obtain rfl : front = [] := h
    exact exists_describes hc hp
  | ahead body ih =>
    -- Only the end of the text is attempted, at the place from which the look ahead goes out.
    have hbody : Phrase.ahead body = sourceEnd := hc
    rw [hbody] at h ⊢
    obtain rfl : front = [] := h.resolve_left nofun
    exact exists_describes rfl trivial

end Phrase

end ContentSecurity.Grammar

import ContentSecurity.Text.Words
import Mathlib.Data.List.TakeWhile
import Mathlib.Data.Nat.Init
/-!
# Runs of characters

Texts are cut where a class of characters begins or ends.  `Stops` says that a text does not go on
with a class, so that a run in front of it is as long as it can be; such a cut is unique
(`append_inj_of_stops`).  A text is `Bare` of separators if none stands at either end, which is
what `trimmed` makes of a text.  A bare text is a word, or a word, a gap and a shorter bare text
(`Bare.induct`), and that is how a list with separators is read.
-/

namespace ContentSecurity.Text

variable {α : Type} {accepts : α → Bool} {s t text rest gap : List α}

/-- What holds of every character of a text is decided by reading the text.  Characters are
finitely many, so without this instance all of them would be tried. -/
instance decidableForallMem (p : Char → Prop) [DecidablePred p] (text : List Char) :
    Decidable (∀ c ∈ text, p c) :=
  List.decidableBAll p text

/-- The text is at its end, or goes on with a character outside a class. -/
def Stops (accepts : α → Bool) (text : List α) : Prop :=
  ∀ c ∈ text.head?, accepts c = false

@[simp] theorem stops_nil : Stops accepts [] := by
  simp [Stops]

@[simp] theorem stops_cons {c : α} : Stops accepts (c :: text) ↔ accepts c = false := by
  simp [Stops]

instance decidableStops (accepts : α → Bool) : (text : List α) → Decidable (Stops accepts text)
  | [] => isTrue stops_nil
  | c :: _ => decidable_of_iff (accepts c = false) stops_cons.symm

theorem Stops.mono {narrow : α → Bool} (h : Stops accepts text)
    (hsub : ∀ c, narrow c → accepts c) : Stops narrow text := by
  cases text with
  | nil => exact stops_nil
  | cons c text =>
    rw [stops_cons] at h ⊢
    by_contra hc
    have := hsub c (by simpa using hc)
    simp [h] at this

theorem Stops.append_left (h : Stops accepts s) (hne : s ≠ []) : Stops accepts (s ++ t) := by
  obtain ⟨c, s, rfl⟩ := List.exists_cons_of_ne_nil hne
  simpa using h

theorem Stops.of_append (h : Stops accepts (s ++ t)) (hne : s ≠ []) : Stops accepts s := by
  obtain ⟨c, s, rfl⟩ := List.exists_cons_of_ne_nil hne
  simpa using h

theorem stops_of_forall (h : ∀ c ∈ text, accepts c = false) : Stops accepts text := by
  cases text with
  | nil => exact stops_nil
  | cons c text => exact stops_cons.mpr (h c (by simp))

theorem stops_append (hs : Stops accepts s) (ht : Stops accepts t) : Stops accepts (s ++ t) := by
  cases s with
  | nil => exact ht
  | cons c s => simpa using hs

theorem Stops.of_reverse_append (h : Stops accepts (s ++ t).reverse) (hne : t ≠ []) :
    Stops accepts t.reverse := by
  obtain ⟨c, r, hr⟩ := List.exists_cons_of_ne_nil (List.reverse_ne_nil_iff.mpr hne)
  rw [List.reverse_append, hr, List.cons_append, stops_cons] at h
  rw [hr]
  exact stops_cons.mpr h

/-! ### Cutting where a class ends -/

theorem takeWhile_append_of_stops (hall : ∀ c ∈ text, accepts c) (hstop : Stops accepts rest) :
    (text ++ rest).takeWhile accepts = text := by
  rw [List.takeWhile_append_of_pos hall]
  cases rest with
  | nil => simp
  | cons c rest => simp [stops_cons.mp hstop]

theorem dropWhile_append_of_stops (hall : ∀ c ∈ text, accepts c) (hstop : Stops accepts rest) :
    (text ++ rest).dropWhile accepts = rest := by
  rw [List.dropWhile_append_of_pos hall]
  cases rest with
  | nil => simp
  | cons c rest => simp [stops_cons.mp hstop]

theorem dropWhile_of_stops (hstop : Stops accepts text) : text.dropWhile accepts = text := by
  cases text with
  | nil => rfl
  | cons c text => simp [stops_cons.mp hstop]

/-- **There is one way to cut a text where a class ends.** -/
theorem append_inj_of_stops {a b x y : List α} (heq : a ++ x = b ++ y)
    (ha : ∀ c ∈ a, accepts c) (hx : Stops accepts x) (hb : ∀ c ∈ b, accepts c)
    (hy : Stops accepts y) : a = b ∧ x = y := by
  have htake := congrArg (List.takeWhile accepts) heq
  have hdrop := congrArg (List.dropWhile accepts) heq
  rw [takeWhile_append_of_stops ha hx, takeWhile_append_of_stops hb hy] at htake
  rw [dropWhile_append_of_stops ha hx, dropWhile_append_of_stops hb hy] at hdrop
  exact ⟨htake, hdrop⟩

theorem stops_dropWhile : Stops accepts (text.dropWhile accepts) := by
  induction text with
  | nil => simp
  | cons c text ih =>
    by_cases hc : accepts c
    · simpa [hc] using ih
    · simp [hc]

/-- A text is a run of a class, as long as it can be, and a rest. -/
theorem exists_run (accepts : α → Bool) (text : List α) :
    ∃ run rest, text = run ++ rest ∧ (∀ c ∈ run, accepts c) ∧ Stops accepts rest :=
  ⟨text.takeWhile accepts, text.dropWhile accepts, List.takeWhile_append_dropWhile.symm,
    fun _ => List.mem_takeWhile_imp, stops_dropWhile⟩

/-! ### Taking separators off both ends -/

/-- No separator stands at either end of the text. -/
def Bare (accepts : α → Bool) (text : List α) : Prop :=
  Stops accepts text ∧ Stops accepts text.reverse

@[simp] theorem bare_nil : Bare accepts ([] : List α) := by
  simp [Bare]

theorem bare_of_forall (h : ∀ c ∈ text, accepts c = false) : Bare accepts text :=
  ⟨stops_of_forall h, stops_of_forall fun c hc => h c (List.mem_reverse.mp hc)⟩

theorem Bare.mono {narrow : α → Bool} (h : Bare accepts text) (hsub : ∀ c, narrow c → accepts c) :
    Bare narrow text :=
  ⟨h.1.mono hsub, h.2.mono hsub⟩

theorem Bare.of_ends (h : Bare accepts text) (hhead : s.head? = text.head?)
    (hlast : s.getLast? = text.getLast?) : Bare accepts s := by
  unfold Bare Stops at *
  rw [List.head?_reverse] at *
  rwa [hhead, hlast]

theorem Bare.map {f : α → α} (h : Bare accepts text) (hf : ∀ c, accepts (f c) = accepts c) :
    Bare accepts (text.map f) := by
  have hstops : ∀ {t : List α}, Stops accepts t → Stops accepts (t.map f) := by
    intro t ht
    cases t with
    | nil => exact stops_nil
    | cons c t => simpa [hf] using ht
  exact ⟨hstops h.1, List.map_reverse ▸ hstops h.2⟩

/-- A bare text does not end with separators. -/
theorem Bare.eq_nil_of_append (h : Bare accepts (s ++ t)) (ht : ∀ c ∈ t, accepts c) : t = [] := by
  by_contra hne
  have hend := h.2.of_reverse_append hne
  obtain ⟨c, others, hc⟩ := List.exists_cons_of_ne_nil (List.reverse_ne_nil_iff.mpr hne)
  have hmem : c ∈ t := List.mem_reverse.mp (by simp [hc])
  rw [hc, stops_cons, ht c hmem] at hend
  cases hend

theorem Bare.append (hs : Bare accepts s) (ht : Bare accepts t) (hne : s ≠ []) (hnt : t ≠ []) :
    Bare accepts (s ++ rest ++ t) := by
  constructor
  · rw [List.append_assoc]
    exact hs.1.append_left hne
  · rw [List.reverse_append]
    exact ht.2.append_left (by simpa using hnt)

theorem dropWhile_ne_nil (h : Stops accepts text.reverse) (hne : text ≠ []) :
    text.dropWhile accepts ≠ [] := by
  obtain ⟨c, r, hr⟩ := List.exists_cons_of_ne_nil (List.reverse_ne_nil_iff.mpr hne)
  intro hnil
  have hc := List.dropWhile_eq_nil_iff.mp hnil c (List.mem_reverse.mp (hr ▸ List.mem_cons_self))
  rw [hr, stops_cons] at h
  simp [h] at hc

theorem bare_dropWhile (h : Stops accepts text.reverse) (hne : text ≠ []) :
    Bare accepts (text.dropWhile accepts) := by
  have hcut : text.takeWhile accepts ++ text.dropWhile accepts = text :=
    List.takeWhile_append_dropWhile
  rw [← hcut] at h
  exact ⟨stops_dropWhile, h.of_reverse_append (dropWhile_ne_nil (hcut ▸ h) hne)⟩

end ContentSecurity.Text

namespace ContentSecurity.Text

variable {sep : Char → Bool} {s t text rest gap : List Char}

theorem trimmed_of_forall (h : ∀ c ∈ text, sep c) : trimmed sep text = [] := by
  have hdrop : text.dropWhile sep = [] := List.dropWhile_eq_nil_iff.mpr h
  simp [trimmed, hdrop]

theorem trimmed_of_bare (h : Bare sep text) : trimmed sep text = text := by
  rw [trimmed, dropWhile_of_stops h.1, dropWhile_of_stops h.2, List.reverse_reverse]

theorem trimmed_append_left (h : ∀ c ∈ gap, sep c) :
    trimmed sep (gap ++ text) = trimmed sep text := by
  rw [trimmed, List.dropWhile_append_of_pos h, trimmed]

theorem trimmed_append_right (h : ∀ c ∈ gap, sep c) :
    trimmed sep (text ++ gap) = trimmed sep text := by
  by_cases hall : ∀ c ∈ text, sep c
  · rw [trimmed_of_forall hall, trimmed_of_forall]
    intro c hc
    rcases List.mem_append.mp hc with hc | hc
    · exact hall c hc
    · exact h c hc
  · have hne : text.dropWhile sep ≠ [] := fun hnil => hall (List.dropWhile_eq_nil_iff.mp hnil)
    have hsplit : (text ++ gap).dropWhile sep = text.dropWhile sep ++ gap := by
      rw [List.dropWhile_append]
      simp [hne]
    have hgap : ∀ c ∈ gap.reverse, sep c := fun c hc => h c (List.mem_reverse.mp hc)
    rw [trimmed, hsplit, List.reverse_append, List.dropWhile_append_of_pos hgap, trimmed]

/-- A text is its trimmed form between two gaps. -/
theorem exists_trimmed (sep : Char → Bool) (text : List Char) :
    ∃ before after, text = before ++ (trimmed sep text ++ after) ∧
      (∀ c ∈ before, sep c) ∧ (∀ c ∈ after, sep c) := by
  refine ⟨text.takeWhile sep, ((text.dropWhile sep).reverse.takeWhile sep).reverse, ?_,
    fun _ => List.mem_takeWhile_imp,
    fun c hc => List.mem_takeWhile_imp (List.mem_reverse.mp hc)⟩
  rw [trimmed, ← List.reverse_append, List.takeWhile_append_dropWhile, List.reverse_reverse,
    List.takeWhile_append_dropWhile]

theorem trimmed_eq_nil_iff : trimmed sep text = [] ↔ ∀ c ∈ text, sep c := by
  constructor
  · intro hnil
    obtain ⟨before, after, htext, hbefore, hafter⟩ := exists_trimmed sep text
    rw [htext, hnil, List.nil_append, List.forall_mem_append]
    exact ⟨hbefore, hafter⟩
  · exact trimmed_of_forall

theorem bare_trimmed (sep : Char → Bool) (text : List Char) : Bare sep (trimmed sep text) := by
  constructor
  · by_cases hnil : trimmed sep text = []
    · simp [hnil]
    · -- the front of the trimmed text is the front of what is left after the first cut
      have hfront : Stops sep (text.dropWhile sep) := stops_dropWhile
      have hsplit : text.dropWhile sep =
          trimmed sep text ++ ((text.dropWhile sep).reverse.takeWhile sep).reverse := by
        rw [trimmed, ← List.reverse_append, List.takeWhile_append_dropWhile, List.reverse_reverse]
      obtain ⟨c, t, hct⟩ := List.exists_cons_of_ne_nil hnil
      rw [hsplit, hct, List.cons_append, stops_cons] at hfront
      rw [hct, stops_cons]
      exact hfront
  · rw [trimmed, List.reverse_reverse]
    exact stops_dropWhile

/-! ### Words and gaps -/

/-- The longest runs of characters that are no separators, in order. -/
def words (sep : Char → Bool) (text : List Char) : List (List Char) :=
  (text.splitOnP sep).filter (!·.isEmpty)

theorem fields_eq (sep : Char → Bool) (text : String) :
    fields sep text = (words sep text.toList).map .ofList := rfl

@[simp] theorem words_nil : words sep [] = [] := by
  simp [words]

theorem words_append_left (h : ∀ c ∈ gap, sep c) : words sep (gap ++ text) = words sep text := by
  induction gap with
  | nil => rfl
  | cons c gap ih =>
    have hc : sep c := h c (by simp)
    rw [← ih fun d hd => h d (List.mem_cons_of_mem _ hd)]
    simp [words, List.splitOnP_cons_eq_if_modifyHead, hc]

/-- A run without separators is the first word, if a separator or nothing follows. -/
theorem words_append (hne : text ≠ []) (hrun : ∀ c ∈ text, sep c = false)
    (hrest : Stops (!sep ·) rest) : words sep (text ++ rest) = text :: words sep rest := by
  cases rest with
  | nil => simp [words, List.splitOnP_eq_singleton hrun, hne]
  | cons c rest =>
    have hc : sep c = true := by simpa using hrest
    have hskip : words sep ([c] ++ rest) = words sep rest := words_append_left (by simpa using hc)
    rw [List.singleton_append] at hskip
    rw [hskip, words, List.splitOnP_append_cons_of_forall_mem hrun c hc]
    simp [words, hne]

theorem words_of_run (hne : text ≠ []) (hrun : ∀ c ∈ text, sep c = false) :
    words sep text = [text] := by
  have h : words sep (text ++ []) = text :: words sep [] := words_append hne hrun stops_nil
  simpa using h

/-- Induction over a bare text: it is a word, or a word and a gap in front of a bare text. -/
@[elab_as_elim] theorem Bare.induct {motive : List Char → Prop}
    (word : ∀ text, text ≠ [] → (∀ c ∈ text, sep c = false) → motive text)
    (step : ∀ text gap rest, text ≠ [] → (∀ c ∈ text, sep c = false) → gap ≠ [] →
      (∀ c ∈ gap, sep c) → rest ≠ [] → Bare sep rest → motive rest → motive (text ++ (gap ++ rest)))
    (hne : text ≠ []) (hbare : Bare sep text) : motive text := by
  induction hn : text.length using Nat.strong_induction_on generalizing text with
  | _ n ih =>
    have hcut : text = text.takeWhile (!sep ·) ++ text.dropWhile (!sep ·) :=
      List.takeWhile_append_dropWhile.symm
    have hrun : ∀ c ∈ text.takeWhile (!sep ·), sep c = false := by
      intro c hc
      simpa using List.mem_takeWhile_imp hc
    have hword : text.takeWhile (!sep ·) ≠ [] := by
      obtain ⟨c, rest, rfl⟩ := List.exists_cons_of_ne_nil hne
      simp [stops_cons.mp hbare.1]
    have hbreak : Stops (!sep ·) (text.dropWhile (!sep ·)) := stops_dropWhile
    generalize htext : text.takeWhile (!sep ·) = first at *
    generalize hdrop : text.dropWhile (!sep ·) = others at *
    have hgap : others = others.takeWhile sep ++ others.dropWhile sep :=
      List.takeWhile_append_dropWhile.symm
    by_cases hlast : others = []
    · rw [hcut, hlast, List.append_nil]
      exact word first hword hrun
    · have hend : Stops sep others.reverse := by
        have hstop := hbare.2
        rw [hcut] at hstop
        exact hstop.of_reverse_append hlast
      have hne' : others.dropWhile sep ≠ [] := dropWhile_ne_nil hend hlast
      have hbare' : Bare sep (others.dropWhile sep) := bare_dropWhile hend hlast
      have hgne : others.takeWhile sep ≠ [] := by
        obtain ⟨c, rest, rfl⟩ := List.exists_cons_of_ne_nil hlast
        have hc : sep c = true := by simpa using hbreak
        simp [hc]
      have hshort : (others.dropWhile sep).length < n := by
        have h₁ := congrArg List.length hcut
        have h₂ := congrArg List.length hgap
        have h₃ := List.length_pos_iff.mpr hword
        simp only [List.length_append] at h₁ h₂
        omega
      rw [hcut, hgap]
      exact step first _ _ hword hrun hgne (fun _ => List.mem_takeWhile_imp) hne' hbare'
        (ih _ hshort hne' hbare' rfl)

/-! ### Gaps -/

/-- The words on both sides of a gap do not depend on it. -/
theorem words_append_gap (hne : gap ≠ []) (h : ∀ c ∈ gap, sep c) :
    words sep (s ++ (gap ++ t)) = words sep s ++ words sep t := by
  obtain ⟨c, gap, rfl⟩ := List.exists_cons_of_ne_nil hne
  obtain ⟨hc, hgap⟩ := List.forall_mem_cons.mp h
  have hcut : words sep (s ++ c :: (gap ++ t)) = words sep s ++ words sep (gap ++ t) := by
    rw [words, List.splitOnP_append_cons s _ hc, List.filter_append]
    rfl
  rw [List.cons_append, hcut, words_append_left hgap]

theorem words_append_right (h : ∀ c ∈ gap, sep c) : words sep (text ++ gap) = words sep text := by
  by_cases hne : gap = []
  · rw [hne, List.append_nil]
  · have hcut := words_append_gap (s := text) (t := []) hne h
    rwa [List.append_nil, words_nil, List.append_nil] at hcut

theorem words_trimmed (sep : Char → Bool) (text : List Char) :
    words sep (trimmed sep text) = words sep text := by
  obtain ⟨before, after, htext, hbefore, hafter⟩ := exists_trimmed sep text
  have hwords := congrArg (words sep) htext
  rw [words_append_left hbefore, words_append_right hafter] at hwords
  exact hwords.symm

/-- A run between separators is a word between the other words. -/
theorem words_insert (hne : text ≠ []) (hrun : ∀ c ∈ text, sep c = false)
    (hs : Stops (!sep ·) s.reverse) (ht : Stops (!sep ·) t) :
    words sep (s ++ (text ++ t)) = words sep s ++ text :: words sep t := by
  rw [← words_append hne hrun ht]
  rcases List.eq_nil_or_concat s with rfl | ⟨front, c, rfl⟩
  · simp
  · rw [List.concat_eq_append] at hs ⊢
    have hc : ∀ d ∈ [c], sep d := by simpa using hs
    rw [List.append_assoc, words_append_gap (by simp) hc, words_append_right hc]

/-- What stands between two texts that are no separators is left when the ends are trimmed. -/
theorem exists_trimmed_between (hs : trimmed sep s ≠ []) (ht : trimmed sep t ≠ []) :
    ∃ head tail, ∀ middle, trimmed sep (s ++ (middle ++ t)) = head ++ (middle ++ tail) := by
  obtain ⟨before, after, hs', hbefore, -⟩ := exists_trimmed sep s
  obtain ⟨before', after', ht', -, hafter'⟩ := exists_trimmed sep t
  refine ⟨trimmed sep s ++ after, before' ++ trimmed sep t, fun middle => ?_⟩
  have hsplit := calc
    s ++ (middle ++ t) = before ++ (trimmed sep s ++ after) ++
        (middle ++ (before' ++ (trimmed sep t ++ after'))) := by rw [← hs', ← ht']
    _ = before ++
        ((trimmed sep s ++ (after ++ (middle ++ before')) ++ trimmed sep t) ++ after') := by
      simp
  have hbare : Bare sep (trimmed sep s ++ (after ++ (middle ++ before')) ++ trimmed sep t) :=
    (bare_trimmed sep s).append (bare_trimmed sep t) hs ht
  rw [hsplit, trimmed_append_left hbefore, trimmed_append_right hafter', trimmed_of_bare hbare]
  simp

/-! ### Changes of every character -/

section Map

variable {f : Char → Char}

theorem trimmed_map (hf : ∀ c, sep (f c) = sep c) (text : List Char) :
    trimmed sep (text.map f) = (trimmed sep text).map f := by
  have hsep : sep ∘ f = sep := funext hf
  simp only [trimmed, List.dropWhile_map, hsep, ← List.map_reverse]

theorem splitOnP_map (hf : ∀ c, sep (f c) = sep c) (text : List Char) :
    (text.map f).splitOnP sep = (text.splitOnP sep).map (List.map f) := by
  induction text with
  | nil => rfl
  | cons c text ih =>
    obtain ⟨piece, pieces, hpieces⟩ := List.exists_cons_of_ne_nil (List.splitOnP_ne_nil sep text)
    rw [List.map_cons, List.splitOnP_cons_eq_if_modifyHead, List.splitOnP_cons_eq_if_modifyHead, ih,
      hf, hpieces]
    by_cases hc : sep c
    · simp [hc]
    · simp [hc]

theorem words_map (hf : ∀ c, sep (f c) = sep c) (text : List Char) :
    words sep (text.map f) = (words sep text).map (List.map f) := by
  rw [words, splitOnP_map hf, List.filter_map, words]
  congr 2
  funext piece
  simp

end Map

end ContentSecurity.Text

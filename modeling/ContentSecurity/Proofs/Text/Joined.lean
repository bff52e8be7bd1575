import ContentSecurity.Proofs.Text.Runs
import Mathlib.Algebra.GroupWithZero.Nat
import Mathlib.Algebra.Order.BigOperators.Group.List
import Mathlib.Algebra.Order.Group.Nat
import Mathlib.Data.String.Basic
/-!
# Joined words

Words with single spaces between them, which is how lists are written in canonical form.  Cutting
such a text gives the words back.  Conversely, the words of a text take no more room when they are
joined again than in the text, since there is at least one separator between two of them.
-/

namespace ContentSecurity.Text

open String (utf8Len)

variable {sep : Char → Bool} {text : List Char} {items : List (List Char)}

/-- Words with single spaces between them. -/
def spaced (items : List (List Char)) : List Char :=
  [' '].intercalate items

@[simp] theorem spaced_nil : spaced [] = [] :=
  List.intercalate_nil

@[simp] theorem spaced_singleton (item : List Char) : spaced [item] = item :=
  List.intercalate_singleton

theorem spaced_cons_cons (item next : List Char) (items : List (List Char)) :
    spaced (item :: next :: items) = item ++ ([' '] ++ spaced (next :: items)) := by
  rw [spaced, List.intercalate_cons_cons, List.append_assoc]
  rfl

theorem forall_mem_spaced {p : Char → Prop} (hspace : p ' ') (h : ∀ item ∈ items, ∀ c ∈ item, p c) :
    ∀ c ∈ spaced items, p c := by
  induction items with
  | nil => simp
  | cons item items ih =>
    obtain ⟨hitem, hitems⟩ := List.forall_mem_cons.mp h
    cases items with
    | nil => simpa using hitem
    | cons next items =>
      rw [spaced_cons_cons, List.forall_mem_append, List.forall_mem_append]
      exact ⟨hitem, by simpa using hspace, ih hitems⟩

theorem spaced_ne_nil (hne : items ≠ []) (h : ∀ item ∈ items, item ≠ []) : spaced items ≠ [] := by
  obtain ⟨item, others, rfl⟩ := List.exists_cons_of_ne_nil hne
  have hitem : item ≠ [] := h item (by simp)
  cases others with
  | nil => simpa using hitem
  | cons next others => simp [spaced_cons_cons, hitem]

/-- A change of every character but the space can be made before or after joining. -/
theorem spaced_map {f : Char → Char} (hspace : f ' ' = ' ') :
    spaced (items.map (List.map f)) = (spaced items).map f := by
  induction items with
  | nil => rfl
  | cons item items ih =>
    cases items with
    | nil => simp
    | cons next items =>
      rw [List.map_cons, List.map_cons, spaced_cons_cons, ← List.map_cons, ih, spaced_cons_cons]
      simp [hspace]

/-! ### Cutting at spaces -/

/-- **Joined words are cut into the same words.** -/
theorem words_spaced (hspace : sep ' ')
    (h : ∀ item ∈ items, item ≠ [] ∧ ∀ c ∈ item, sep c = false) :
    words sep (spaced items) = items := by
  induction items with
  | nil => simp
  | cons item items ih =>
    obtain ⟨⟨hne, hrun⟩, hitems⟩ := List.forall_mem_cons.mp h
    cases items with
    | nil => rw [spaced_singleton, words_of_run hne hrun]
    | cons next items =>
      have hbreak : Stops (!sep ·) ([' '] ++ spaced (next :: items)) := by simp [hspace]
      rw [spaced_cons_cons, words_append hne hrun hbreak, words_append_left (by simpa using hspace),
        ih hitems]

theorem bare_spaced (h : ∀ item ∈ items, item ≠ [] ∧ ∀ c ∈ item, sep c = false) :
    Bare sep (spaced items) := by
  induction items with
  | nil => simp
  | cons item items ih =>
    obtain ⟨⟨hne, hrun⟩, hitems⟩ := List.forall_mem_cons.mp h
    cases items with
    | nil =>
      rw [spaced_singleton]
      exact bare_of_forall hrun
    | cons next items =>
      rw [spaced_cons_cons, ← List.append_assoc]
      exact (bare_of_forall hrun).append (ih hitems) hne
        (spaced_ne_nil (by simp) fun item hitem => (hitems item hitem).1)

theorem mem_of_mem_splitOnP {piece : List Char} {c : Char} (h : piece ∈ text.splitOnP sep)
    (hc : c ∈ piece) : c ∈ text ∧ sep c = false := by
  induction text generalizing piece with
  | nil => simp_all
  | cons d text ih =>
    obtain ⟨first, others, hsplit⟩ := List.exists_cons_of_ne_nil (List.splitOnP_ne_nil sep text)
    rw [List.splitOnP_cons_eq_if_modifyHead] at h
    by_cases hd : sep d
    · rw [if_pos hd] at h
      rcases List.mem_cons.mp h with rfl | hpiece
      · cases hc
      · exact (ih hpiece hc).imp_left (List.mem_cons_of_mem d)
    · rw [if_neg hd, hsplit, List.modifyHead_cons] at h
      rw [hsplit] at ih
      rcases List.mem_cons.mp h with rfl | hpiece
      · rcases List.mem_cons.mp hc with rfl | hc
        · exact ⟨List.mem_cons_self, by simpa using hd⟩
        · exact (ih List.mem_cons_self hc).imp_left (List.mem_cons_of_mem d)
      · exact (ih (List.mem_cons_of_mem _ hpiece) hc).imp_left (List.mem_cons_of_mem d)

theorem mem_words {word : List Char} (h : word ∈ words sep text) :
    word ≠ [] ∧ ∀ c ∈ word, c ∈ text ∧ sep c = false := by
  obtain ⟨hpiece, hne⟩ := List.mem_filter.mp h
  exact ⟨by simpa using hne, fun c hc => mem_of_mem_splitOnP hpiece hc⟩

theorem ends_spaced_words (hne : text ≠ []) (hbare : Bare sep text) :
    words sep text ≠ [] ∧ (spaced (words sep text)).head? = text.head? ∧
      (spaced (words sep text)).getLast? = text.getLast? := by
  refine Bare.induct ?_ ?_ hne hbare
  · intro word hne hrun
    simp [words_of_run hne hrun]
  · intro word gap rest hne hrun hgne hgap hrne hbare ih
    rcases ih with ⟨hwords, -, hlast⟩
    have hbreak : Stops (!sep ·) (gap ++ rest) :=
      Stops.append_left (stops_of_forall fun c hc => by simp [hgap c hc]) hgne
    obtain ⟨next, others, hothers⟩ := List.exists_cons_of_ne_nil hwords
    obtain ⟨c, tail, rfl⟩ := List.exists_cons_of_ne_nil hne
    rw [words_append hne hrun hbreak, words_append_left hgap, hothers, spaced_cons_cons]
    rw [hothers] at hlast
    refine ⟨by simp, by simp, ?_⟩
    have hsome := List.getLast?_eq_some_getLast hrne
    simp only [← List.append_assoc, List.getLast?_append, hlast, hsome, Option.some_or]

/-- A bare text of a single word is the word. -/
theorem eq_of_words_eq_singleton {word : List Char} (hbare : Bare sep text)
    (h : words sep text = [word]) : text = word := by
  by_cases hne : text = []
  · simp [hne] at h
  · revert h
    refine Bare.induct ?_ ?_ hne hbare
    · intro text hne hrun h
      rw [words_of_run hne hrun] at h
      exact List.singleton_inj.mp h
    · intro first gap rest hne hrun hgne hgap hrne hbare _ h
      have hwords := (ends_spaced_words hrne hbare).1
      rw [words_append_gap hgne hgap, words_of_run hne hrun] at h
      simp [hwords] at h

/-! ### The room that words take -/

/-- Number of bytes of all members together. -/
def totalLength (items : List (List Char)) : Nat :=
  (items.map utf8Len).sum

theorem utf8Len_intercalate (separator : List Char) (items : List (List Char)) :
    utf8Len (separator.intercalate items) =
      totalLength items + utf8Len separator * (items.length - 1) := by
  induction items with
  | nil => rfl
  | cons item items ih =>
    cases items with
    | nil => simp [totalLength]
    | cons next items =>
      rw [List.intercalate_cons_cons, String.utf8Len_append, String.utf8Len_append, ih]
      simp only [totalLength, List.map_cons, List.sum_cons, List.length_cons, Nat.add_sub_cancel]
      rw [Nat.mul_succ]
      omega

theorem utf8Len_spaced (items : List (List Char)) :
    utf8Len (spaced items) = totalLength items + (items.length - 1) := by
  have hspace : utf8Len [' '] = 1 := by decide
  rw [spaced, utf8Len_intercalate, hspace, Nat.one_mul]

/-- The pieces between separators leave room for a byte between any two. -/
theorem totalLength_splitOnP (sep : Char → Bool) (text : List Char) :
    totalLength (text.splitOnP sep) + (text.splitOnP sep).length ≤ utf8Len text + 1 := by
  induction text with
  | nil => simp [totalLength]
  | cons c text ih =>
    have hsize : 0 < c.utf8Size := Char.utf8Size_pos c
    rw [List.splitOnP_cons_eq_if_modifyHead, String.utf8Len_cons]
    by_cases hc : sep c
    · rw [if_pos hc]
      simp only [totalLength, List.map_cons, List.sum_cons, List.length_cons,
        String.utf8Len_nil] at ih ⊢
      omega
    · rw [if_neg hc]
      obtain ⟨piece, pieces, hpieces⟩ := List.exists_cons_of_ne_nil (List.splitOnP_ne_nil sep text)
      rw [hpieces] at ih ⊢
      simp only [totalLength, List.modifyHead_cons, List.map_cons, List.sum_cons, List.length_cons,
        String.utf8Len_cons] at ih ⊢
      omega

theorem totalLength_filter (items : List (List Char)) :
    totalLength (items.filter (!·.isEmpty)) = totalLength items := by
  induction items with
  | nil => rfl
  | cons item items ih =>
    cases item with
    | nil => simpa [totalLength] using ih
    | cons c item => simpa [totalLength] using ih

theorem totalLength_words (sep : Char → Bool) (text : List Char) :
    totalLength (words sep text) + (words sep text).length ≤ utf8Len text + 1 := by
  have hpieces := totalLength_splitOnP sep text
  have hcount : (words sep text).length ≤ (text.splitOnP sep).length := List.length_filter_le _ _
  rw [words, totalLength_filter]
  change _ + (words sep text).length ≤ _
  omega

theorem length_le_totalLength (h : ∀ item ∈ items, item ≠ []) :
    items.length ≤ totalLength items := by
  induction items with
  | nil => rfl
  | cons item items ih =>
    obtain ⟨hne, hitems⟩ := List.forall_mem_cons.mp h
    obtain ⟨c, tail, rfl⟩ := List.exists_cons_of_ne_nil hne
    have hsize : 0 < c.utf8Size := Char.utf8Size_pos c
    have hothers := ih hitems
    simp only [totalLength, List.map_cons, List.sum_cons, List.length_cons,
      String.utf8Len_cons] at *
    omega

theorem length_words_le (sep : Char → Bool) (text : List Char) :
    (words sep text).length ≤ utf8Len text := by
  have hwords := totalLength_words sep text
  have hcount : (words sep text).length ≤ totalLength (words sep text) :=
    length_le_totalLength fun word hword => (mem_words hword).1
  omega

theorem totalLength_le {β : Type} {size : β → Nat} {values : List β}
    (h : List.Forall₂ (fun item value => size value ≤ utf8Len item) items values) :
    (values.map size).sum ≤ totalLength items := by
  induction h with
  | nil => rfl
  | cons hle _ ih =>
    simp only [totalLength, List.map_cons, List.sum_cons] at ih ⊢
    omega

theorem utf8Len_le_totalLength {item : List Char} (h : item ∈ items) :
    utf8Len item ≤ totalLength items :=
  List.le_sum_of_mem (List.mem_map_of_mem h)

theorem utf8Len_trimmed_le (sep : Char → Bool) (text : List Char) :
    utf8Len (trimmed sep text) ≤ utf8Len text := by
  obtain ⟨before, after, htext, -⟩ := exists_trimmed sep text
  have hsize := congrArg utf8Len htext
  rw [String.utf8Len_append, String.utf8Len_append] at hsize
  omega

/-- **Words take no more room joined than in the text**, even if each of them is replaced by one
that is not longer. -/
theorem utf8Len_spaced_le {values : List (List Char)}
    (h : List.Forall₂ (fun word value => utf8Len value ≤ utf8Len word) (words sep text) values) :
    utf8Len (spaced values) ≤ utf8Len text := by
  have hlength : (words sep text).length = values.length := h.length_eq
  have htotal : totalLength values ≤ totalLength (words sep text) := totalLength_le h
  have hwords := totalLength_words sep text
  rw [utf8Len_spaced]
  cases values with
  | nil => simp [totalLength]
  | cons value values =>
    simp only [List.length_cons] at hlength ⊢
    omega

end ContentSecurity.Text

import ContentSecurity.Grammar.Lexicon
import ContentSecurity.Proofs.Text.Runs
import Mathlib.Data.String.Basic
/-!
# Character classes

The classes of the lexicon by their code points, how they lie in each other, and what becomes of
them in small letters.  All of them are sets of visible characters without a comma and a
semicolon, so no text of a token contains a blank or ends a clause.
-/

namespace ContentSecurity.Grammar

open String (utf8Len)

variable {c : Char}

/-! ### By code point -/

theorem isUpper_iff : c.isUpper ↔ 65 ≤ c.toNat ∧ c.toNat ≤ 90 := by
  change decide ('A'.val ≤ c.val ∧ c.val ≤ 'Z'.val) = true ↔ _
  rw [decide_eq_true_iff, UInt32.le_iff_toNat_le, UInt32.le_iff_toNat_le]
  rfl

theorem isLower_iff : c.isLower ↔ 97 ≤ c.toNat ∧ c.toNat ≤ 122 := by
  change (decide ('a'.val ≤ c.val) && decide (c.val ≤ 'z'.val)) = true ↔ _
  rw [Bool.and_eq_true, decide_eq_true_iff, decide_eq_true_iff, UInt32.le_iff_toNat_le,
    UInt32.le_iff_toNat_le]
  rfl

theorem isDigit_iff : c.isDigit ↔ 48 ≤ c.toNat ∧ c.toNat ≤ 57 := by
  change (decide ('0'.val ≤ c.val) && decide (c.val ≤ '9'.val)) = true ↔ _
  rw [Bool.and_eq_true, decide_eq_true_iff, decide_eq_true_iff, UInt32.le_iff_toNat_le,
    UInt32.le_iff_toNat_le]
  rfl

theorem isAlphanum_iff :
    c.isAlphanum ↔ (65 ≤ c.toNat ∧ c.toNat ≤ 90) ∨ (97 ≤ c.toNat ∧ c.toNat ≤ 122) ∨
      (48 ≤ c.toNat ∧ c.toNat ≤ 57) := by
  change (c.isUpper || c.isLower || c.isDigit) = true ↔ _
  rw [Bool.or_eq_true, Bool.or_eq_true, isUpper_iff, isLower_iff, isDigit_iff, or_assoc]

theorem isBlank_iff : isBlank c ↔ c.toNat = 32 ∨ c.toNat = 9 := by
  simp only [isBlank, Bool.or_eq_true, beq_iff_eq, ← Char.toNat_inj]
  rfl

theorem isValueChar_iff :
    isValueChar c ↔ 33 ≤ c.toNat ∧ c.toNat ≤ 126 ∧ c.toNat ≠ 44 ∧ c.toNat ≠ 59 := by
  have hcomma : c = ',' ↔ c.toNat = 44 := by
    rw [← Char.toNat_inj]
    rfl
  have hsemicolon : c = ';' ↔ c.toNat = 59 := by
    rw [← Char.toNat_inj]
    rfl
  simp only [isValueChar, Bool.and_eq_true, decide_eq_true_eq, bne_iff_ne, ne_eq, Char.le_def,
    UInt32.le_iff_toNat_le, hcomma, hsemicolon, and_assoc]
  rfl

theorem toNat_toLower (c : Char) :
    c.toLower.toNat = if 65 ≤ c.toNat ∧ c.toNat ≤ 90 then c.toNat + 32 else c.toNat := by
  delta Char.toLower
  split
  · rename_i h
    have hupper : 65 ≤ c.toNat ∧ c.toNat ≤ 90 := by
      simpa [UInt32.le_iff_toNat_le] using h
    rw [if_pos hupper]
    change (c.val + 32).toNat = c.toNat + 32
    rw [UInt32.toNat_add]
    change (c.toNat + 32) % 4294967296 = c.toNat + 32
    omega
  · rename_i h
    have hupper : ¬ (65 ≤ c.toNat ∧ c.toNat ≤ 90) := by
      simpa [UInt32.le_iff_toNat_le] using h
    rw [if_neg hupper]

/-! ### Small letters -/

theorem toLower_eq_self_iff : c.toLower = c ↔ c.isUpper = false := by
  rw [← Char.toNat_inj, toNat_toLower, ← Bool.not_eq_true, isUpper_iff]
  split <;> omega

theorem isAlphanum_toLower (c : Char) : c.toLower.isAlphanum = c.isAlphanum := by
  rw [Bool.eq_iff_iff, isAlphanum_iff, isAlphanum_iff, toNat_toLower]
  split <;> omega

theorem isValueChar_toLower (c : Char) : isValueChar c.toLower = isValueChar c := by
  rw [Bool.eq_iff_iff, isValueChar_iff, isValueChar_iff, toNat_toLower]
  split <;> omega

theorem isBlank_toLower (c : Char) : isBlank c.toLower = isBlank c := by
  rw [Bool.eq_iff_iff, isBlank_iff, isBlank_iff, toNat_toLower]
  split <;> omega

theorem eq_of_toLower_eq {d : Char} (h : c.toLower = d.toLower) (hd : d.isAlphanum = false) :
    c = d := by
  have hc : c.isAlphanum = false := by rw [← isAlphanum_toLower, h, isAlphanum_toLower, hd]
  rw [← Bool.not_eq_true, isAlphanum_iff] at hc hd
  rw [← Char.toNat_inj, toNat_toLower, toNat_toLower, if_neg (by omega), if_neg (by omega)] at h
  exact Char.toNat_inj.mp h

/-- What is no letter has one case. -/
theorem toLower_eq_iff {d : Char} (hd : d.isAlphanum = false) : c.toLower = d ↔ c = d := by
  have hsmall : d.toLower = d := by
    apply toLower_eq_self_iff.mpr
    rw [← Bool.not_eq_true, isUpper_iff]
    rw [← Bool.not_eq_true, isAlphanum_iff] at hd
    omega
  constructor
  · intro h
    exact eq_of_toLower_eq (h.trans hsmall.symm) hd
  · rintro rfl
    exact hsmall

theorem isNameChar_toLower (c : Char) : isNameChar c.toLower = isNameChar c := by
  rw [isNameChar, isNameChar, isAlphanum_toLower]
  congr 1
  rw [Bool.eq_iff_iff, beq_iff_eq, beq_iff_eq]
  exact toLower_eq_iff (by decide)

theorem toList_toLower (text : String) : text.toLower.toList = text.toList.map Char.toLower :=
  String.toList_map ..

theorem isUpper_eq_false_of_mem_toLower {text : String} (h : c ∈ text.toLower.toList) :
    c.isUpper = false := by
  rw [toList_toLower] at h
  obtain ⟨d, -, rfl⟩ := List.mem_map.mp h
  rw [← Bool.not_eq_true, isUpper_iff, toNat_toLower]
  split <;> omega

theorem toLower_eq_self {text : String} (h : ∀ c ∈ text.toList, c.isUpper = false) :
    text.toLower = text := by
  apply String.toList_inj.mp
  rw [toList_toLower]
  refine (List.map_congr_left fun c hc => ?_).trans (List.map_id _)
  exact toLower_eq_self_iff.mpr (h c hc)

/-! ### Classes in each other -/

theorem isBlank_eq_false_of_isValueChar (h : isValueChar c) : isBlank c = false := by
  rw [← Bool.not_eq_true, isBlank_iff]
  rw [isValueChar_iff] at h
  omega

theorem isBlank_eq_false_of_forall {text : List Char} (h : ∀ c ∈ text, isValueChar c) :
    ∀ c ∈ text, isBlank c = false := by
  intro c hc
  exact isBlank_eq_false_of_isValueChar (h c hc)

theorem ne_semicolon_of_isValueChar (h : isValueChar c) : c ≠ ';' := by
  rintro rfl
  simp [isValueChar] at h

theorem ne_semicolon_of_isBlank (h : isBlank c) : c ≠ ';' := by
  rintro rfl
  simp [isBlank] at h

theorem isValueChar_of_isAlphanum (h : c.isAlphanum) : isValueChar c := by
  rw [isAlphanum_iff] at h
  rw [isValueChar_iff]
  omega

/-- Letters, digits and some visible characters are a class of visible characters. -/
theorem isValueChar_of_listed (listed : String) (hlisted : ∀ d ∈ listed.toList, isValueChar d)
    (h : (c.isAlphanum || listed.toList.contains c) = true) : isValueChar c := by
  rcases Bool.or_eq_true _ _ ▸ h with h | h
  · exact isValueChar_of_isAlphanum h
  · exact hlisted c (List.contains_iff_mem.mp h)

theorem isValueChar_of_isNameChar (h : isNameChar c) : isValueChar c :=
  isValueChar_of_listed "-" (by decide) (by simpa [isNameChar] using h)

theorem isSchemeChar_of_isAlpha (h : c.isAlpha) : isSchemeChar c := by
  simp [isSchemeChar, Char.isAlphanum, h]

theorem isValueChar_of_isSchemeChar (h : isSchemeChar c) : isValueChar c :=
  isValueChar_of_listed _ (by decide) h

theorem isValueChar_of_isPathChar (h : isPathChar c) : isValueChar c :=
  isValueChar_of_listed _ (by decide) h

theorem isValueChar_of_isBase64Char (h : isBase64Char c) : isValueChar c :=
  isValueChar_of_listed _ (by decide) h

theorem isValueChar_of_isTokenChar (h : isTokenChar c) : isValueChar c :=
  isValueChar_of_listed _ (by decide) h

theorem isValueChar_of_isUriChar (h : isUriChar c) : isValueChar c :=
  isValueChar_of_listed _ (by decide) h

theorem isValueChar_of_isPolicyNameChar (h : isPolicyNameChar c) : isValueChar c :=
  isValueChar_of_listed _ (by decide) h

theorem isValueChar_of_isDigit (h : c.isDigit) : isValueChar c :=
  isValueChar_of_isAlphanum (by simp [Char.isAlphanum, h])

theorem isValueChar_of_isHexDigit (h : isHexDigit c) : isValueChar c := by
  apply isValueChar_of_isAlphanum
  rw [isAlphanum_iff]
  simp only [isHexDigit, Bool.or_eq_true, Bool.and_eq_true, isDigit_iff, decide_eq_true_eq,
    Char.le_def, UInt32.le_iff_toNat_le] at h
  change (_ ∨ (97 ≤ c.toNat ∧ c.toNat ≤ 102)) ∨ (65 ≤ c.toNat ∧ c.toNat ≤ 70) at h
  omega

theorem forall_isValueChar_of_toLower {text word : String} (h : text.toLower = word)
    (hword : ∀ c ∈ word.toList, isValueChar c) : ∀ c ∈ text.toList, isValueChar c := by
  intro c hc
  rw [← isValueChar_toLower]
  apply hword
  rw [← h, toList_toLower]
  exact List.mem_map_of_mem hc

/-! ### Numbers of bytes -/

theorem utf8Len_pos {text : List Char} (hne : text ≠ []) : 0 < utf8Len text :=
  Nat.pos_of_ne_zero fun hzero => hne (String.utf8Len_eq_zero.mp hzero)

/-- A letter takes one byte, be it a capital or not. -/
theorem utf8Size_toLower (c : Char) : c.toLower.utf8Size = c.utf8Size := by
  have hlower := toNat_toLower c
  have hone : ∀ d : Char, d.toNat ≤ 127 → d.utf8Size = 1 := fun d hd =>
    Char.utf8Size_eq_one_iff.mpr (UInt32.le_iff_toNat_le.mpr hd)
  by_cases hupper : 65 ≤ c.toNat ∧ c.toNat ≤ 90
  · rw [if_pos hupper] at hlower
    rw [hone c (by omega), hone c.toLower (by omega)]
  · rw [if_neg hupper] at hlower
    rw [Char.toNat_inj.mp hlower]

theorem utf8Len_map_toLower (text : List Char) :
    utf8Len (text.map Char.toLower) = utf8Len text := by
  induction text with
  | nil => rfl
  | cons c text ih =>
    rw [List.map_cons, String.utf8Len_cons, String.utf8Len_cons, utf8Size_toLower, ih]

theorem utf8ByteSize_toLower (text : String) : text.toLower.utf8ByteSize = text.utf8ByteSize := by
  rw [← String.utf8Len_toList, ← String.utf8Len_toList, toList_toLower, utf8Len_map_toLower]

end ContentSecurity.Grammar

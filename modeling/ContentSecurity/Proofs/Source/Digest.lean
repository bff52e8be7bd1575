import ContentSecurity.Source.Digest
import ContentSecurity.Proofs.Base64
import ContentSecurity.Proofs.Grammar.Classes
import Mathlib.Algebra.Group.Nat.Defs
/-!
# Digests

A digest may be in either alphabet, and the second is tried only when the first refuses it.  That
makes no difference to what it stands for, since a form is never that of different bytes in the two
alphabets.  So the digests that are accepted are the Base64 forms of byte strings in one of the
alphabets, and what is refused has a fault (`Base64.Faulty`): a foreign byte, digits from both
alphabets, a last group that is not full, padding in a wrong place, or bits that should be zero.
-/

namespace ContentSecurity

open Grammar Text

namespace Base64

variable {alphabet other : Alphabet} {byte : UInt8} {value count : Nat}
variable {form front content : List UInt8} {values : List Nat}

/-! ### Faults -/

/-- The digits that are in this alphabet alone. -/
def Alphabet.own (alphabet : Alphabet) : List UInt8 :=
  [alphabet.plus, alphabet.slash]

/-- What can be wrong with a form, whichever alphabet it is in. -/
inductive Faulty : List UInt8 → Prop
  /-- A byte is not padding, and no digit either. -/
  | foreign {form : List UInt8} {byte : UInt8} (hmem : byte ∈ form) (hpadding : byte ≠ padding)
      (hdigit : ∀ alphabet : Alphabet, alphabet.value? byte = none) : Faulty form
  /-- There are digits that only the one alphabet has, and digits that only the other has. -/
  | mixed {form : List UInt8} (hstandard : ∃ byte ∈ form, byte ∈ Alphabet.standard.own)
      (hurlSafe : ∃ byte ∈ form, byte ∈ Alphabet.urlSafe.own) : Faulty form
  /-- The last group is not full. -/
  | unfilled {form : List UInt8} (hlength : form.length % 4 ≠ 0) : Faulty form
  /-- Behind a sign of padding stands more than a second one. -/
  | misplaced {front back : List UInt8} (hback : 2 ≤ back.length ∨ ∃ byte ∈ back, byte ≠ padding) :
      Faulty (front ++ padding :: back)
  /-- The last digit has bits that belong to no byte and are not zero, two of them for each sign of
  padding. -/
  | spare {front : List UInt8} {byte : UInt8} {alphabet : Alphabet} {value count : Nat}
      (hvalue : alphabet.value? byte = some value) (hbits : value % 4 ^ count ≠ 0) :
      Faulty (front ++ byte :: List.replicate count padding)

theorem Alphabet.not_digit_of_mem_own (h : byte ∈ alphabet.own) (hne : other ≠ alphabet) :
    byte ≠ padding ∧ other.value? byte = none := by
  have hown : byte = alphabet.plus ∨ byte = alphabet.slash := by simpa [own] using h
  revert hne
  rcases hown with rfl | rfl <;> cases alphabet <;> cases other <;> decide

theorem Alphabet.mem_own (h : alphabet.value? byte = some value)
    (hother : other.value? byte = none) : byte ∈ alphabet.own := by
  have hall : ∀ value < 64, other.value? (alphabet.digit value) = none →
      alphabet.digit value ∈ alphabet.own := by
    cases alphabet <;> cases other <;> decide +kernel
  obtain ⟨hvalue, rfl⟩ := Alphabet.value?_eq_some_iff.mp h
  exact hall value hvalue hother

/-! ### What is written has no fault -/

theorem mem_encode (h : byte ∈ encode alphabet content) :
    byte = padding ∨ ∃ value, alphabet.value? byte = some value := by
  rw [encode_eq] at h
  rcases List.mem_append.mp h with hdigit | hpadding
  · obtain ⟨value, hvalue, rfl⟩ := List.mem_map.mp hdigit
    exact Or.inr ⟨value, alphabet.value?_digit ((closed_sextets content).small value hvalue)⟩
  · exact Or.inl (List.eq_of_mem_replicate hpadding)

theorem length_encode (alphabet : Alphabet) (content : List UInt8) :
    (encode alphabet content).length % 4 = 0 := by
  rw [encode_eq, List.length_append, List.length_map, List.length_replicate]
  exact (closed_sextets content).whole

/-- The bits left over are those of the last number, two for each place that is missing. -/
theorem leftover_concat (hwhole : (values.length + 1 + count) % 4 = 0) (hfew : count ≤ 2) :
    leftover (values ++ [value]) = value % 4 ^ count := by
  induction values using induct_groups with
  | nil =>
    simp only [List.length_nil] at hwhole
    omega
  | one a =>
    simp only [List.length_cons, List.length_nil] at hwhole
    obtain rfl : count = 2 := by omega
    rfl
  | two a b =>
    simp only [List.length_cons, List.length_nil] at hwhole
    obtain rfl : count = 1 := by omega
    rfl
  | three a b c =>
    simp only [List.length_cons, List.length_nil] at hwhole
    obtain rfl : count = 0 := by omega
    simp [leftover, Nat.mod_one]
  | group a b c d rest ih =>
    simp only [List.length_cons] at hwhole
    exact ih (by omega)

/-- Behind a sign of padding there is at most one more, and nothing else. -/
theorem back_of_encode {back : List UInt8}
    (h : front ++ padding :: back = encode alphabet content) :
    back.length < 2 ∧ ∀ byte ∈ back, byte = padding := by
  have hclosed := closed_sextets content
  have hfew := hclosed.few
  rw [encode_eq] at h
  have hrest : ∃ front', front' ++ padding :: back = List.replicate (fillers content) padding := by
    rcases List.append_eq_append_iff.mp h with ⟨others, hdigits, hsplit⟩ | ⟨others, -, hsplit⟩
    · cases others with
      | nil => exact ⟨[], hsplit⟩
      | cons first others =>
        obtain ⟨rfl, -⟩ := List.cons.inj hsplit
        have hmem : padding ∈ (sextets content).map alphabet.digit := hdigits ▸ by simp
        exact (ne_padding_of_mem_map hclosed.small hmem rfl).elim
    · exact ⟨others, hsplit.symm⟩
  obtain ⟨front', hfront⟩ := hrest
  obtain ⟨hlength, hall⟩ := List.eq_replicate_iff.mp hfront
  rw [List.length_append, List.length_cons] at hlength
  exact ⟨by omega, fun byte hmem => hall byte (by simp [hmem])⟩

/-- The last digit has no bits that belong to no byte. -/
theorem bits_of_encode (h : front ++ byte :: List.replicate count padding = encode alphabet content)
    (hvalue : other.value? byte = some value) : value % 4 ^ count = 0 := by
  obtain ⟨hsmall, hwhole, hfew, hspare⟩ := closed_sextets content
  obtain ⟨hlt, rfl⟩ := Alphabet.value?_eq_some_iff.mp hvalue
  rw [encode_eq] at h
  -- seen from the end, both forms are a run of padding and then a digit
  have hreverse := congrArg List.reverse h
  simp only [List.reverse_append, List.reverse_cons, List.append_assoc, List.singleton_append,
    List.reverse_replicate] at hreverse
  have hpadding : ∀ count, ∀ byte ∈ List.replicate count padding, decide (byte = padding) := by
    intro count byte hmem
    exact decide_eq_true (List.eq_of_mem_replicate hmem)
  have hstops : Stops (fun byte => decide (byte = padding))
      ((sextets content).map alphabet.digit).reverse := by
    refine stops_of_forall fun byte hmem => decide_eq_false ?_
    exact ne_padding_of_mem_map hsmall (List.mem_reverse.mp hmem)
  have hdigit : Stops (fun byte => decide (byte = padding)) (other.digit value :: front.reverse) :=
    stops_cons.mpr (decide_eq_false (other.digit_ne_padding hlt))
  obtain ⟨hcount, hlast⟩ := append_inj_of_stops hreverse (hpadding _) hdigit (hpadding _) hstops
  have hlength := congrArg List.length hcount
  rw [List.length_replicate, List.length_replicate] at hlength
  have hmap : (sextets content).map alphabet.digit = front ++ [other.digit value] := by
    have hboth := congrArg List.reverse hlast.symm
    rwa [List.reverse_reverse, List.reverse_cons, List.reverse_reverse] at hboth
  obtain ⟨values, last, hvalues, -, hlastDigit⟩ := List.map_eq_append_iff.mp hmap
  obtain ⟨value', rfl, hdigits⟩ := List.map_eq_singleton_iff.mp hlastDigit
  rw [hvalues] at hsmall hwhole hspare
  obtain rfl := Alphabet.digit_inj (hsmall value' (by simp)) hlt hdigits
  rw [List.length_append, List.length_singleton] at hwhole
  rw [leftover_concat hwhole hfew] at hspare
  rwa [hlength]

theorem Faulty.ne_encode (h : Faulty form) (alphabet : Alphabet) (content : List UInt8) :
    form ≠ encode alphabet content := by
  intro heq
  cases h with
  | foreign hmem hpadding hdigit =>
    rcases mem_encode (heq ▸ hmem) with hpad | ⟨value, hvalue⟩
    · exact hpadding hpad
    · rw [hdigit alphabet] at hvalue
      cases hvalue
  | mixed hstandard hurlSafe =>
    have hnot : ∀ {other : Alphabet}, other ≠ alphabet → ¬ ∃ byte ∈ form, byte ∈ other.own := by
      rintro other hne ⟨byte, hmem, hown⟩
      obtain ⟨hpadding, hnone⟩ := Alphabet.not_digit_of_mem_own hown hne.symm
      rcases mem_encode (heq ▸ hmem) with hpad | ⟨value, hvalue⟩
      · exact hpadding hpad
      · rw [hnone] at hvalue
        cases hvalue
    cases alphabet with
    | standard => exact hnot (by decide) hurlSafe
    | urlSafe => exact hnot (by decide) hstandard
  | unfilled hlength => exact hlength (heq ▸ length_encode alphabet content)
  | misplaced hback =>
    obtain ⟨hlength, hall⟩ := back_of_encode heq
    rcases hback with hlong | ⟨byte, hmem, hne⟩
    · omega
    · exact hne (hall byte hmem)
  | spare hvalue hbits => exact hbits (bits_of_encode heq hvalue)

/-! ### What has no fault is written -/

/-- Without foreign digits, and without digits from both alphabets, all are of one alphabet. -/
theorem exists_alphabet (h : ¬ Faulty form) :
    ∃ alphabet : Alphabet, ∀ byte ∈ form,
      byte = padding ∨ ∃ value, alphabet.value? byte = some value := by
  have hsome : ∀ byte ∈ form, byte ≠ padding →
      ∃ alphabet : Alphabet, ∃ value, alphabet.value? byte = some value := by
    intro byte hmem hpadding
    by_contra hnone
    simp only [not_exists, ← Option.eq_none_iff_forall_ne_some] at hnone
    exact h (.foreign hmem hpadding hnone)
  have hone : ∀ {alphabet other : Alphabet}, (∀ third, third = alphabet ∨ third = other) →
      (¬ ∃ byte ∈ form, byte ∈ other.own) →
      ∀ byte ∈ form, byte = padding ∨ ∃ value, alphabet.value? byte = some value := by
    intro alphabet other htwo hnot byte hmem
    by_cases hpadding : byte = padding
    · exact Or.inl hpadding
    cases hvalue : alphabet.value? byte with
    | some value => exact Or.inr ⟨value, rfl⟩
    | none =>
      obtain ⟨third, value, hthird⟩ := hsome byte hmem hpadding
      rcases htwo third with rfl | rfl
      · rw [hvalue] at hthird
        cases hthird
      · exact (hnot ⟨byte, hmem, Alphabet.mem_own hthird hvalue⟩).elim
  by_cases hurlSafe : ∃ byte ∈ form, byte ∈ Alphabet.urlSafe.own
  · have hstandard : ¬ ∃ byte ∈ form, byte ∈ Alphabet.standard.own := fun hstandard =>
      h (.mixed hstandard hurlSafe)
    exact ⟨.urlSafe, hone (fun third => by cases third <;> simp) hstandard⟩
  · exact ⟨.standard, hone (fun third => by cases third <;> simp) hurlSafe⟩

theorem exists_values (h : ∀ byte ∈ form, ∃ value, alphabet.value? byte = some value) :
    ∃ values : List Nat, form = values.map alphabet.digit ∧ ∀ value ∈ values, value < 64 := by
  induction form with
  | nil => exact ⟨[], rfl, by simp⟩
  | cons byte rest ih =>
    obtain ⟨⟨value, hvalue⟩, hrest⟩ := List.forall_mem_cons.mp h
    obtain ⟨values, rfl, hsmall⟩ := ih hrest
    obtain ⟨hlt, rfl⟩ := Alphabet.value?_eq_some_iff.mp hvalue
    exact ⟨value :: values, rfl, List.forall_mem_cons.mpr ⟨hlt, hsmall⟩⟩

/-- Padding that is not misplaced is at the end, and at most two signs of it. -/
theorem exists_count {back : List UInt8} (h : ¬ Faulty (front ++ back))
    (hstop : Stops (fun byte => decide (byte ≠ padding)) back) :
    ∃ count ≤ 2, back = List.replicate count padding := by
  cases back with
  | nil => exact ⟨0, Nat.zero_le _, rfl⟩
  | cons byte back =>
    obtain rfl : byte = padding := by simpa using stops_cons.mp hstop
    have hback : ¬ (2 ≤ back.length ∨ ∃ byte ∈ back, byte ≠ padding) := fun hback =>
      h (.misplaced hback)
    push Not at hback
    obtain ⟨hlength, hall⟩ := hback
    refine ⟨back.length + 1, by omega, ?_⟩
    rw [List.replicate_succ, ← List.eq_replicate_of_mem hall]

theorem exists_encode_of_not_faulty (h : ¬ Faulty form) :
    ∃ alphabet content, form = encode alphabet content := by
  obtain ⟨alphabet, hbytes⟩ := exists_alphabet h
  obtain ⟨front, back, rfl, hfront, hback⟩ :=
    exists_run (fun byte => decide (byte ≠ padding)) form
  obtain ⟨count, hfew, rfl⟩ := exists_count h hback
  have hdigits : ∀ byte ∈ front, ∃ value, alphabet.value? byte = some value := by
    intro byte hmem
    exact (hbytes byte (List.mem_append_left _ hmem)).resolve_left
      (of_decide_eq_true (hfront byte hmem))
  obtain ⟨values, rfl, hsmall⟩ := exists_values hdigits
  have hwhole : (values.length + count) % 4 = 0 := by
    by_contra hwhole
    refine h (.unfilled ?_)
    rwa [List.length_append, List.length_map, List.length_replicate]
  have hspare : leftover values = 0 := by
    rcases List.eq_nil_or_concat values with rfl | ⟨others, last, hvalues⟩
    · rfl
    · rw [List.concat_eq_append] at hvalues
      subst hvalues
      rw [List.length_append, List.length_singleton] at hwhole
      rw [leftover_concat hwhole hfew]
      by_contra hbits
      rw [List.map_append, List.map_singleton, List.append_assoc, List.singleton_append] at h
      exact h (.spare (alphabet.value?_digit (hsmall last (by simp))) hbits)
  have hclosed : Closed values count := ⟨hsmall, hwhole, hfew, hspare⟩
  exact ⟨alphabet, bytes values, decode_eq_ok_iff.mp (hclosed.decode_eq_ok alphabet)⟩

/-- **What neither alphabet accepts has a fault.** -/
theorem faulty_iff : Faulty form ↔ ¬ ∃ alphabet content, form = encode alphabet content :=
  ⟨fun h ⟨alphabet, content, heq⟩ => h.ne_encode alphabet content heq,
    fun h => by_contra fun hnot => h (exists_encode_of_not_faulty hnot)⟩

end Base64

/-! ### Digests -/

namespace Digest

open Base64 (Alphabet Faulty encode)

variable {digest : String} {alphabet : Alphabet} {content : List UInt8}

theorem length_utf8 (text : String) : (utf8 text).length = text.utf8ByteSize := by
  rw [utf8, List.length_flatMap, ← String.utf8Len_toList]
  induction text.toList with
  | nil => rfl
  | cons c rest ih =>
    rw [List.map_cons, List.sum_cons, ih, String.utf8Len_cons, String.length_utf8EncodeChar,
      Nat.add_comm]

/-- Every form is the text of a digest: its bytes are characters of one byte each. -/
theorem exists_utf8_eq_encode (alphabet : Alphabet) (content : List UInt8) :
    ∃ digest, utf8 digest = encode alphabet content := by
  have hdigit : ∀ value < 64, String.utf8EncodeChar (.ofNat (alphabet.digit value).toNat) =
      [alphabet.digit value] := by
    cases alphabet <;> decide +kernel
  have hpadding : String.utf8EncodeChar (.ofNat Base64.padding.toNat) = [Base64.padding] := by
    decide
  have hbyte : ∀ byte ∈ encode alphabet content,
      String.utf8EncodeChar (.ofNat byte.toNat) = [byte] := by
    intro byte hmem
    rcases Base64.mem_encode hmem with rfl | ⟨value, hvalue⟩
    · exact hpadding
    · obtain ⟨hlt, rfl⟩ := Alphabet.value?_eq_some_iff.mp hvalue
      exact hdigit value hlt
  refine ⟨.ofList ((encode alphabet content).map fun byte => .ofNat byte.toNat), ?_⟩
  rw [utf8, String.toList_ofList, List.flatMap_map, List.flatMap_congr hbyte]
  exact List.flatMap_singleton' _

theorem decode_eq_ok_iff :
    decode digest = .ok content ↔ ∃ alphabet, utf8 digest = encode alphabet content := by
  unfold decode
  constructor
  · intro h
    split at h
    case h_1 own hstandard =>
      cases h
      exact ⟨.standard, Base64.decode_eq_ok_iff.mp hstandard⟩
    case h_2 =>
      cases hurlSafe : Base64.decode .urlSafe (utf8 digest) with
      | ok own =>
        rw [hurlSafe] at h
        cases h
        exact ⟨.urlSafe, Base64.decode_eq_ok_iff.mp hurlSafe⟩
      | error position =>
        rw [hurlSafe] at h
        cases h
  · rintro ⟨alphabet, hform⟩
    have hdecode := Base64.decode_eq_ok_iff.mpr hform
    cases hstandard : Base64.decode .standard (utf8 digest) with
    | ok own =>
      -- the first alphabet is taken whichever the digest was written in
      have hown := Base64.decode_eq_ok_iff.mp hstandard
      rw [Base64.encode_inj (hform.symm.trans hown)]
    | error position =>
      cases alphabet with
      | standard =>
        rw [hdecode] at hstandard
        cases hstandard
      | urlSafe =>
        rw [hdecode]
        rfl

/-- A word of five letters and one of six: only the last group of the first has to be filled up. -/
example : utf8 "Zm9vYmE=" = encode .standard (utf8 "fooba") ∧
    utf8 "Zm9vYmFy" = encode .standard (utf8 "foobar") := by
  decide +kernel

/-- What is not accepted does not match, at a place in the text or at its end. -/
theorem exists_mismatch (h : ∀ content, decode digest ≠ .ok content) :
    ∃ position ≤ digest.utf8ByteSize,
      decode digest = .error (Rule.base64Value.mismatch digest position) := by
  unfold decode at *
  split at h
  case h_1 own _ => exact (h own rfl).elim
  case h_2 =>
    cases hurlSafe : Base64.decode .urlSafe (utf8 digest) with
    | ok own =>
      rw [hurlSafe] at h
      exact (h own rfl).elim
    | error position =>
      refine ⟨position, ?_, rfl⟩
      rw [← length_utf8]
      exact Base64.le_length_of_decode_eq_error hurlSafe

/-- **The digests that are accepted are the Base64 forms of byte strings, and stand for these.**
Each byte string has a form in either alphabet, and no form is that of two byte strings.  What has
a fault, and nothing else, is refused at a place within the digest or at its end. -/
theorem decode_exact :
    (∀ digest content,
      decode digest = .ok content ↔ ∃ alphabet, utf8 digest = encode alphabet content) ∧
    (∀ alphabet content,
      ∃ digest, utf8 digest = encode alphabet content ∧ decode digest = .ok content) ∧
    (∀ alphabet other content content',
      encode alphabet content = encode other content' → content = content') ∧
    (∀ digest, Faulty (utf8 digest) ↔ ∃ position ≤ digest.utf8ByteSize,
      decode digest = .error (Rule.base64Value.mismatch digest position)) := by
  refine ⟨fun _ _ => decode_eq_ok_iff, ?_, fun _ _ _ _ => Base64.encode_inj, ?_⟩
  · intro alphabet content
    obtain ⟨digest, hform⟩ := exists_utf8_eq_encode alphabet content
    exact ⟨digest, hform, decode_eq_ok_iff.mpr ⟨alphabet, hform⟩⟩
  · intro digest
    rw [Base64.faulty_iff]
    constructor
    · intro hnone
      refine exists_mismatch fun content hdecode => hnone ?_
      obtain ⟨alphabet, hform⟩ := decode_eq_ok_iff.mp hdecode
      exact ⟨alphabet, content, hform⟩
    · rintro ⟨position, -, hrefused⟩ ⟨alphabet, content, hform⟩
      rw [decode_eq_ok_iff.mpr ⟨alphabet, hform⟩] at hrefused
      cases hrefused

/-- Two bytes in each of the alphabets, and with a digit from the other one. -/
theorem decode_exact_twoBytes :
    decode "+/8=" = .ok [0xFB, 0xFF] ∧ decode "-_8=" = .ok [0xFB, 0xFF] ∧
      ∃ position ≤ 4, decode "+_8=" = .error (Rule.base64Value.mismatch "+_8=" position) := by
  refine ⟨(decode_exact.1 _ _).mpr ⟨.standard, by decide⟩,
    (decode_exact.1 _ _).mpr ⟨.urlSafe, by decide⟩, (decode_exact.2.2.2 "+_8=").mp ?_⟩
  exact .mixed ⟨0x2B, by decide, by decide⟩ ⟨0x5F, by decide, by decide⟩

end Digest

end ContentSecurity

import ContentSecurity.Base64
import ContentSecurity.Proofs.Reading
import ContentSecurity.Proofs.Text.Runs
/-!
# Base64 is read exactly

A form is the digits of some numbers below 64 and signs of padding behind them (`sextets`,
`fillers`).  `Closed` says which numbers and how many signs can come from bytes: the last group is
full, at most two of its four places are padding, and the bits that belong to no byte are zero.
`sextets` and `bytes` go back and forth between bytes and what is closed, and `decode` accepts the
digits of what is closed and nothing else (`decode_eq_ok_iff`).

A digit stands for one number whichever alphabet it is of, so one form is never read as different
bytes by the two (`encode_inj`).
-/

namespace ContentSecurity.Base64

open Text

variable {alphabet other : Alphabet} {byte : UInt8} {value count : Nat}
variable {form content : List UInt8} {values : List Nat}

/-! ### Digits -/

namespace Alphabet

theorem value?_digit (alphabet : Alphabet) (h : value < 64) :
    alphabet.value? (alphabet.digit value) = some value := by
  have hall : ∀ value < 64, alphabet.value? (alphabet.digit value) = some value := by
    cases alphabet <;> decide +kernel
  exact hall value h

theorem value?_eq_some_iff :
    alphabet.value? byte = some value ↔ value < 64 ∧ alphabet.digit value = byte := by
  have hall : ∀ code < 256, ∀ value ∈ alphabet.value? (.ofNat code),
      value < 64 ∧ alphabet.digit value = .ofNat code := by
    cases alphabet <;> decide +kernel
  constructor
  · intro h
    have hbyte := hall byte.toNat byte.toNat_lt value
    rw [UInt8.ofNat_toNat] at hbyte
    exact hbyte h
  · rintro ⟨hsmall, rfl⟩
    exact alphabet.value?_digit hsmall

theorem value?_padding (alphabet : Alphabet) : alphabet.value? padding = none := by
  cases alphabet <;> decide

theorem digit_ne_padding (alphabet : Alphabet) (h : value < 64) :
    alphabet.digit value ≠ padding := by
  intro heq
  have hvalue := alphabet.value?_digit h
  rw [heq, value?_padding] at hvalue
  cases hvalue

/-- A byte that is a digit of both alphabets stands for the same number in both. -/
theorem digit_inj {other : Alphabet} {value value' : Nat} (h : value < 64) (h' : value' < 64)
    (heq : alphabet.digit value = other.digit value') : value = value' := by
  have hall : ∀ value < 64, ∀ number ∈ other.value? (alphabet.digit value), number = value := by
    cases alphabet <;> cases other <;> decide +kernel
  exact (hall value h value' (heq ▸ other.value?_digit h')).symm

end Alphabet

/-! ### Bytes as numbers below 64 -/

/-- Numbers come in groups of four; the last group may be smaller. -/
@[elab_as_elim]
theorem induct_groups {motive : List Nat → Prop} (nil : motive []) (one : ∀ a, motive [a])
    (two : ∀ a b, motive [a, b]) (three : ∀ a b c, motive [a, b, c])
    (group : ∀ a b c d rest, motive rest → motive (a :: b :: c :: d :: rest)) :
    ∀ values, motive values
  | [] => nil
  | [a] => one a
  | [a, b] => two a b
  | [a, b, c] => three a b c
  | a :: b :: c :: d :: rest =>
    group a b c d rest (induct_groups nil one two three group rest)

/-- Bytes as numbers of six bits, the last of them filled up with zeros. -/
def sextets : List UInt8 → List Nat
  | [] => []
  | [a] => [a.toNat / 4, a.toNat % 4 * 16]
  | [a, b] => [a.toNat / 4, a.toNat % 4 * 16 + b.toNat / 16, b.toNat % 16 * 4]
  | a :: b :: c :: rest =>
    a.toNat / 4 :: (a.toNat % 4 * 16 + b.toNat / 16) :: (b.toNat % 16 * 4 + c.toNat / 64) ::
      c.toNat % 64 :: sextets rest

/-- How many signs of padding fill up the last group. -/
def fillers : List UInt8 → Nat
  | [] => 0
  | [_] => 2
  | [_, _] => 1
  | _ :: _ :: _ :: rest => fillers rest

theorem encode_eq (alphabet : Alphabet) (bytes : List UInt8) :
    encode alphabet bytes =
      (sextets bytes).map alphabet.digit ++ List.replicate (fillers bytes) padding := by
  induction bytes using encode.induct with
  | case1 => rfl
  | case2 a => rfl
  | case3 a b => rfl
  | case4 a b c rest ih => simp [encode, sextets, fillers, ih]

/-- The numbers, and the signs of padding behind them, make up whole bytes. -/
structure Closed (values : List Nat) (count : Nat) : Prop where
  small : ∀ value ∈ values, value < 64
  whole : (values.length + count) % 4 = 0
  few : count ≤ 2
  spare : leftover values = 0

theorem closed_sextets (bytes : List UInt8) : Closed (sextets bytes) (fillers bytes) := by
  induction bytes using sextets.induct with
  | case1 => exact ⟨by simp [sextets], rfl, by simp [fillers], rfl⟩
  | case2 a =>
    have ha := a.toNat_lt
    refine ⟨?_, by simp [sextets, fillers], le_rfl, ?_⟩
    · simp only [sextets, List.forall_mem_cons]
      exact ⟨by omega, by omega, by simp⟩
    · simp only [sextets, leftover]
      omega
  | case3 a b =>
    have ha := a.toNat_lt
    have hb := b.toNat_lt
    refine ⟨?_, by simp [sextets, fillers], by simp [fillers], ?_⟩
    · simp only [sextets, List.forall_mem_cons]
      exact ⟨by omega, by omega, by omega, by simp⟩
    · simp only [sextets, leftover]
      omega
  | case4 a b c rest ih =>
    have ha := a.toNat_lt
    have hb := b.toNat_lt
    have hc := c.toNat_lt
    refine ⟨?_, ?_, ih.few, ih.spare⟩
    · simp only [sextets, List.forall_mem_cons]
      exact ⟨by omega, by omega, by omega, by omega, ih.small⟩
    · have hwhole := ih.whole
      simp only [sextets, fillers, List.length_cons]
      omega

theorem bytes_sextets (content : List UInt8) : bytes (sextets content) = content := by
  induction content using sextets.induct with
  | case1 => rfl
  | case2 a =>
    have ha := a.toNat_lt
    have hfirst : a.toNat / 4 * 4 + a.toNat % 4 * 16 / 16 = a.toNat := by omega
    rw [sextets, bytes, hfirst, UInt8.ofNat_toNat]
  | case3 a b =>
    have ha := a.toNat_lt
    have hb := b.toNat_lt
    have hfirst : a.toNat / 4 * 4 + (a.toNat % 4 * 16 + b.toNat / 16) / 16 = a.toNat := by omega
    have hsecond : (a.toNat % 4 * 16 + b.toNat / 16) % 16 * 16 + b.toNat % 16 * 4 / 4 =
        b.toNat := by
      omega
    rw [sextets, bytes, hfirst, hsecond, UInt8.ofNat_toNat, UInt8.ofNat_toNat]
  | case4 a b c rest ih =>
    have ha := a.toNat_lt
    have hb := b.toNat_lt
    have hc := c.toNat_lt
    have hfirst : a.toNat / 4 * 4 + (a.toNat % 4 * 16 + b.toNat / 16) / 16 = a.toNat := by omega
    have hsecond : (a.toNat % 4 * 16 + b.toNat / 16) % 16 * 16 +
        (b.toNat % 16 * 4 + c.toNat / 64) / 4 = b.toNat := by
      omega
    have hthird : (b.toNat % 16 * 4 + c.toNat / 64) % 4 * 64 + c.toNat % 64 = c.toNat := by omega
    rw [sextets, bytes, hfirst, hsecond, hthird, ih, UInt8.ofNat_toNat, UInt8.ofNat_toNat,
      UInt8.ofNat_toNat]

/-- What is closed comes from the bytes that it makes up. -/
theorem Closed.eq_sextets (h : Closed values count) :
    sextets (bytes values) = values ∧ fillers (bytes values) = count := by
  obtain ⟨hsmall, hwhole, hfew, hspare⟩ := h
  induction values using induct_groups with
  | nil =>
    rw [List.length_nil] at hwhole
    have hcount : count = 0 := by omega
    exact ⟨rfl, hcount.symm⟩
  | one a =>
    -- one number alone would need three signs of padding
    rw [List.length_singleton] at hwhole
    omega
  | two a b =>
    simp only [List.forall_mem_cons] at hsmall
    obtain ⟨ha, hb, -⟩ := hsmall
    simp only [leftover] at hspare
    simp only [List.length_cons, List.length_nil] at hwhole
    simp only [bytes, sextets, fillers, UInt8.toNat_ofNat', List.cons.injEq, and_true]
    omega
  | three a b c =>
    simp only [List.forall_mem_cons] at hsmall
    obtain ⟨ha, hb, hc, -⟩ := hsmall
    simp only [leftover] at hspare
    simp only [List.length_cons, List.length_nil] at hwhole
    simp only [bytes, sextets, fillers, UInt8.toNat_ofNat', List.cons.injEq, and_true]
    omega
  | group a b c d rest ih =>
    simp only [List.forall_mem_cons] at hsmall
    obtain ⟨ha, hb, hc, hd, hrest⟩ := hsmall
    have hlength : (rest.length + count) % 4 = 0 := by
      simp only [List.length_cons] at hwhole
      omega
    obtain ⟨hsextets, hfillers⟩ := ih hrest hlength hspare
    simp only [bytes, sextets, fillers, hsextets, hfillers, UInt8.toNat_ofNat', List.cons.injEq,
      and_true]
    omega

/-! ### Reading -/

theorem digits_eq_ok_iff {offset : Nat} :
    digits alphabet offset form = .ok values ↔
      form = values.map alphabet.digit ∧ ∀ value ∈ values, value < 64 := by
  induction form generalizing offset values with
  | nil =>
    constructor
    · rintro ⟨⟩
      exact ⟨rfl, by simp⟩
    · rintro ⟨hform, -⟩
      rw [List.map_eq_nil_iff.mp hform.symm]
      rfl
  | cons byte rest ih =>
    rw [digits]
    constructor
    · intro h
      cases hvalue : alphabet.value? byte with
      | none =>
        rw [hvalue] at h
        cases h
      | some value =>
        rw [hvalue] at h
        obtain ⟨others, hothers, rfl⟩ := map_eq_ok_iff.mp h
        obtain ⟨rfl, hsmall⟩ := ih.mp hothers
        obtain ⟨hlt, rfl⟩ := Alphabet.value?_eq_some_iff.mp hvalue
        exact ⟨rfl, List.forall_mem_cons.mpr ⟨hlt, hsmall⟩⟩
    · rintro ⟨hform, hsmall⟩
      obtain ⟨value, others, rfl, rfl, rfl⟩ := List.map_eq_cons_iff.mp hform.symm
      obtain ⟨hvalue, hothers⟩ := List.forall_mem_cons.mp hsmall
      rw [alphabet.value?_digit hvalue]
      exact map_eq_ok_iff.mpr ⟨others, ih.mpr ⟨rfl, hothers⟩, rfl⟩

theorem paddings_eq_ok_iff {blame index : Nat} :
    paddings blame index form = .ok count ↔
      form = List.replicate count padding ∧ ∀ i < count, 2 ≤ (index + i) % 4 := by
  induction form generalizing index count with
  | nil =>
    constructor
    · rintro ⟨⟩
      exact ⟨rfl, by simp⟩
    · rintro ⟨hform, -⟩
      rw [List.replicate_eq_nil_iff _ |>.mp hform.symm]
      rfl
  | cons byte rest ih =>
    rw [paddings]
    constructor
    · intro h
      split at h
      case isTrue hplace =>
        obtain ⟨rfl, hindex⟩ := hplace
        obtain ⟨others, hothers, rfl⟩ := map_eq_ok_iff.mp h
        obtain ⟨rfl, hplaces⟩ := ih.mp hothers
        refine ⟨rfl, fun i hi => ?_⟩
        cases i with
        | zero => exact hindex
        | succ i =>
          have hnext := hplaces i (Nat.lt_of_succ_lt_succ hi)
          rwa [Nat.add_assoc, Nat.add_comm 1] at hnext
      case isFalse => cases h
    · rintro ⟨hform, hplaces⟩
      cases count with
      | zero => cases hform
      | succ others =>
        obtain ⟨rfl, rfl⟩ := List.cons.inj hform
        have hplaces' : ∀ i < others, 2 ≤ (index + 1 + i) % 4 := by
          intro i hi
          rw [Nat.add_assoc, Nat.add_comm 1]
          exact hplaces (i + 1) (Nat.succ_lt_succ hi)
        rw [if_pos ⟨rfl, hplaces 0 (Nat.succ_pos _)⟩]
        exact map_eq_ok_iff.mpr ⟨others, ih.mpr ⟨rfl, hplaces'⟩, rfl⟩

theorem closing_eq_ok_iff {offset index : Nat} :
    closing alphabet offset index form = .ok (values, count) ↔
      form = values.map alphabet.digit ++ List.replicate count padding ∧
        (∀ value ∈ values, value < 64) ∧ ∀ i < count, 2 ≤ (index + values.length + i) % 4 := by
  induction form generalizing index values with
  | nil =>
    constructor
    · rintro ⟨⟩
      exact ⟨rfl, by simp, by simp⟩
    · rintro ⟨hform, -⟩
      obtain ⟨hvalues, hcount⟩ := List.append_eq_nil_iff.mp hform.symm
      rw [List.map_eq_nil_iff.mp hvalues, List.replicate_eq_nil_iff _ |>.mp hcount]
      rfl
  | cons byte rest ih =>
    rw [closing]
    by_cases hpadding : byte = padding
    · rw [if_pos hpadding]
      constructor
      · intro h
        obtain ⟨count, hcount, ⟨⟩⟩ := map_eq_ok_iff.mp h
        obtain ⟨hform, hplaces⟩ := paddings_eq_ok_iff.mp hcount
        exact ⟨hform, by simp, hplaces⟩
      · rintro ⟨hform, hsmall, hplaces⟩
        cases values with
        | nil => exact map_eq_ok_iff.mpr ⟨count, paddings_eq_ok_iff.mpr ⟨hform, hplaces⟩, rfl⟩
        | cons value others =>
          have hbyte := (List.cons.inj hform).1
          have hvalue := (List.forall_mem_cons.mp hsmall).1
          exact (alphabet.digit_ne_padding hvalue (hbyte.symm.trans hpadding)).elim
    · rw [if_neg hpadding]
      constructor
      · intro h
        cases hvalue : alphabet.value? byte with
        | none =>
          rw [hvalue] at h
          cases h
        | some value =>
          rw [hvalue] at h
          obtain ⟨⟨others, count⟩, hothers, ⟨⟩⟩ := map_eq_ok_iff.mp h
          obtain ⟨rfl, hsmall, hplaces⟩ := ih.mp hothers
          obtain ⟨hlt, rfl⟩ := Alphabet.value?_eq_some_iff.mp hvalue
          refine ⟨rfl, List.forall_mem_cons.mpr ⟨hlt, hsmall⟩, fun i hi => ?_⟩
          rw [List.length_cons, Nat.add_comm others.length, ← Nat.add_assoc]
          exact hplaces i hi
      · rintro ⟨hform, hsmall, hplaces⟩
        cases values with
        | nil =>
          cases count with
          | zero => cases hform
          | succ count => exact (hpadding (List.cons.inj hform).1).elim
        | cons value others =>
          obtain ⟨rfl, rfl⟩ := List.cons.inj hform
          obtain ⟨hvalue, hothers⟩ := List.forall_mem_cons.mp hsmall
          have hplaces' : ∀ i < count, 2 ≤ (index + 1 + others.length + i) % 4 := by
            intro i hi
            have hplace := hplaces i hi
            rwa [List.length_cons, Nat.add_comm others.length, ← Nat.add_assoc] at hplace
          rw [alphabet.value?_digit hvalue]
          exact map_eq_ok_iff.mpr ⟨(others, count), ih.mpr ⟨rfl, hothers, hplaces'⟩, rfl⟩

/-- Groups in front make no difference to the bits that are left over. -/
theorem leftover_append {front back : List Nat} (h : front.length % 4 = 0) :
    leftover (front ++ back) = leftover back := by
  induction front using induct_groups with
  | nil => rfl
  | one a => cases h
  | two a b => cases h
  | three a b c => cases h
  | group a b c d rest ih =>
    simp only [List.length_cons] at h
    exact ih (by omega)

/-- In a full group padding stands in the second half only, so there is not more than two of it. -/
theorem le_two_of_places {index : Nat} (hplaces : ∀ i < count, 2 ≤ (index + i) % 4)
    (hwhole : (index + count) % 4 = 0) : count ≤ 2 := by
  by_contra hmany
  have hfirst := hplaces 0 (by omega)
  have hsecond := hplaces 1 (by omega)
  have hthird := hplaces 2 (by omega)
  omega

/-- One byte behind full groups is refused, whatever it is. -/
theorem decode_eq_error_of_length (alphabet : Alphabet) (hlength : form.length % 4 = 1) :
    ∃ position ≤ form.length, decode alphabet form = .error position := by
  unfold decode
  rw [if_pos hlength]
  split
  · split
    · exact ⟨_, Nat.sub_le _ _, rfl⟩
    · exact ⟨_, le_rfl, rfl⟩
  · exact ⟨_, le_rfl, rfl⟩

/-- What is accepted is closed. -/
theorem closed_of_decode (h : decode alphabet form = .ok content) :
    ∃ values count, form = values.map alphabet.digit ++ List.replicate count padding ∧
      Closed values count ∧ bytes values = content := by
  by_cases hone : form.length % 4 = 1
  · obtain ⟨position, -, herror⟩ := decode_eq_error_of_length alphabet hone
    rw [herror] at h
    cases h
  unfold decode at h
  rw [if_neg hone] at h
  obtain ⟨front, hfront, h⟩ := bind_eq_ok_iff.mp h
  obtain ⟨⟨back, count⟩, hback, h⟩ := bind_eq_ok_iff.mp h
  obtain ⟨htake, hfront⟩ := digits_eq_ok_iff.mp hfront
  obtain ⟨hdrop, hback, hplaces⟩ := closing_eq_ok_iff.mp hback
  change (if _ then _ else _) = _ at h
  split at h
  case isTrue => cases h
  case isFalse hwhole =>
    split at h
    case isTrue => cases h
    case isFalse hspare =>
      have hform : form = (front ++ back).map alphabet.digit ++ List.replicate count padding := by
        rw [List.map_append, List.append_assoc, ← htake, ← hdrop, List.take_append_drop]
      have hstart : front.length % 4 = 0 := by
        have hlength := congrArg List.length htake
        rw [List.length_take, List.length_map] at hlength
        omega
      rw [Nat.zero_add] at hplaces
      refine ⟨front ++ back, count, hform, ⟨?_, ?_, ?_, ?_⟩, Except.ok.inj h⟩
      · exact List.forall_mem_append.mpr ⟨hfront, hback⟩
      · rw [List.length_append]
        omega
      · exact le_two_of_places hplaces (by omega)
      · rw [leftover_append hstart]
        exact not_not.mp hspare

/-- What is closed is accepted. -/
theorem Closed.decode_eq_ok (h : Closed values count) (alphabet : Alphabet) :
    decode alphabet (values.map alphabet.digit ++ List.replicate count padding) =
      .ok (bytes values) := by
  obtain ⟨hsmall, hwhole, hfew, hspare⟩ := h
  generalize hform : values.map alphabet.digit ++ List.replicate count padding = form
  have hlength : form.length = values.length + count := by
    rw [← hform, List.length_append, List.length_map, List.length_replicate]
  -- the padding lies behind the place where the closing part starts
  obtain ⟨start, hstart⟩ : ∃ start, start = (form.length - 1) / 8 * 8 := ⟨_, rfl⟩
  have hle : start ≤ values.length := by omega
  have htake : form.take start = (values.take start).map alphabet.digit := by
    rw [← hform, List.take_append_of_le_length (by rwa [List.length_map]), List.map_take]
  have hdrop : form.drop start =
      (values.drop start).map alphabet.digit ++ List.replicate count padding := by
    rw [← hform, List.drop_append_of_le_length (by rwa [List.length_map]), List.map_drop]
  have hfront : digits alphabet 0 (form.take start) = .ok (values.take start) :=
    digits_eq_ok_iff.mpr ⟨htake, fun value hmem => hsmall value (List.mem_of_mem_take hmem)⟩
  have hback : closing alphabet start 0 (form.drop start) = .ok (values.drop start, count) := by
    refine closing_eq_ok_iff.mpr
      ⟨hdrop, fun value hmem => hsmall value (List.mem_of_mem_drop hmem), fun i hi => ?_⟩
    rw [List.length_drop]
    omega
  have hleft : leftover (values.drop start) = 0 := by
    have hfull : (values.take start).length % 4 = 0 := by
      rw [List.length_take]
      omega
    rw [← leftover_append hfull, List.take_append_drop]
    exact hspare
  unfold decode
  rw [if_neg (by omega), ← hstart]
  refine bind_eq_ok_iff.mpr ⟨_, hfront, bind_eq_ok_iff.mpr ⟨_, hback, ?_⟩⟩
  have hfull : ((values.drop start).length + count) % 4 = 0 := by
    rw [List.length_drop]
    omega
  change (if _ then _ else _) = _
  rw [if_neg (not_not.mpr hfull), if_neg (not_not.mpr hleft), List.take_append_drop]

/-- **Exactly what was written is read**, and as the bytes that it was written for. -/
theorem decode_eq_ok_iff : decode alphabet form = .ok content ↔ form = encode alphabet content := by
  rw [encode_eq]
  constructor
  · intro h
    obtain ⟨values, count, rfl, hclosed, rfl⟩ := closed_of_decode h
    obtain ⟨hsextets, hfillers⟩ := hclosed.eq_sextets
    rw [hsextets, hfillers]
  · rintro rfl
    rw [(closed_sextets content).decode_eq_ok, bytes_sextets]

/-! ### Where a form is refused -/

theorem lt_of_digits_eq_error {offset position : Nat}
    (h : digits alphabet offset form = .error position) : position < offset + form.length := by
  induction form generalizing offset with
  | nil => cases h
  | cons byte rest ih =>
    rw [digits] at h
    split at h
    · cases h
      simp
    · have hrest := ih (map_eq_error_iff.mp h)
      rw [List.length_cons]
      omega

theorem eq_of_paddings_eq_error {blame index position : Nat}
    (h : paddings blame index form = .error position) : position = blame := by
  induction form generalizing index with
  | nil => cases h
  | cons byte rest ih =>
    rw [paddings] at h
    split at h
    · exact ih (map_eq_error_iff.mp h)
    · exact (Except.error.inj h).symm

theorem lt_of_closing_eq_error {offset index position : Nat}
    (h : closing alphabet offset index form = .error position) :
    position < offset + index + form.length := by
  induction form generalizing index with
  | nil => cases h
  | cons byte rest ih =>
    rw [closing] at h
    rw [List.length_cons]
    split at h
    · have hblame := eq_of_paddings_eq_error (map_eq_error_iff.mp h)
      omega
    · split at h
      · cases h
        omega
      · have hrest := ih (map_eq_error_iff.mp h)
        omega

theorem le_length_of_decode_eq_error {position : Nat}
    (h : decode alphabet form = .error position) : position ≤ form.length := by
  by_cases hone : form.length % 4 = 1
  · obtain ⟨own, hown, herror⟩ := decode_eq_error_of_length alphabet hone
    rw [herror] at h
    exact Except.error.inj h ▸ hown
  unfold decode at h
  rw [if_neg hone] at h
  rcases bind_eq_error_iff.mp h with hfront | ⟨front, -, h⟩
  · have hlt := lt_of_digits_eq_error hfront
    rw [List.length_take] at hlt
    omega
  rcases bind_eq_error_iff.mp h with hback | ⟨⟨back, count⟩, hback, h⟩
  · have hlt := lt_of_closing_eq_error hback
    rw [List.length_drop] at hlt
    omega
  · have hlength := congrArg List.length (closing_eq_ok_iff.mp hback).1
    rw [List.length_drop, List.length_append, List.length_map] at hlength
    change (if _ then _ else _) = _ at h
    split at h
    · cases h
      exact le_rfl
    · split at h
      · cases h
        omega
      · cases h

/-! ### Both alphabets -/

theorem map_digit_inj {others : List Nat} (hsmall : ∀ value ∈ values, value < 64)
    (hothers : ∀ value ∈ others, value < 64)
    (heq : values.map alphabet.digit = others.map other.digit) : values = others := by
  induction values generalizing others with
  | nil => exact (List.map_eq_nil_iff.mp heq.symm).symm
  | cons value values ih =>
    obtain ⟨value', others, rfl, hdigit, hrest⟩ := List.map_eq_cons_iff.mp heq.symm
    obtain ⟨hvalue, hsmall⟩ := List.forall_mem_cons.mp hsmall
    obtain ⟨hvalue', hothers⟩ := List.forall_mem_cons.mp hothers
    rw [Alphabet.digit_inj hvalue hvalue' hdigit.symm, ih hsmall hothers hrest.symm]

theorem ne_padding_of_mem_map (hsmall : ∀ value ∈ values, value < 64)
    (h : byte ∈ values.map alphabet.digit) : byte ≠ padding := by
  obtain ⟨value, hvalue, rfl⟩ := List.mem_map.mp h
  exact alphabet.digit_ne_padding (hsmall value hvalue)

/-- **A form stands for the same bytes in both alphabets.** -/
theorem encode_inj {content' : List UInt8}
    (h : encode alphabet content = encode other content') : content = content' := by
  rw [encode_eq, encode_eq] at h
  have hdigits : ∀ (alphabet : Alphabet) (content : List UInt8),
      ∀ byte ∈ (sextets content).map alphabet.digit, decide (byte ≠ padding) := by
    intro alphabet content byte hmem
    exact decide_eq_true (ne_padding_of_mem_map (closed_sextets content).small hmem)
  have hstops : ∀ count, Stops (fun byte => decide (byte ≠ padding))
      (List.replicate count padding) := by
    intro count
    exact stops_of_forall fun byte hmem => by simp [List.eq_of_mem_replicate hmem]
  have hboth := (append_inj_of_stops h (hdigits _ _) (hstops _) (hdigits _ _) (hstops _)).1
  have hsextets :=
    map_digit_inj (closed_sextets content).small (closed_sextets content').small hboth
  rw [← bytes_sextets content, hsextets, bytes_sextets]

end ContentSecurity.Base64

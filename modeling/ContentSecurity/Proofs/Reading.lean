import ContentSecurity.Reading
import Mathlib.Data.List.Forall2
/-!
# Results of readings

When a computation that may fail gives a value, each of its steps does; and when it fails, the first
step that fails tells why.  The lemmas take the results of `Except` and of `Reading` apart step by
step; which events happen on the way makes no difference to them (`Reading.result_bind`).

A reading that takes a tree apart has no events as long as it succeeds, and ends with the defect
that it reports (`Reading.Settles`).  Each step may report, and none goes on after a report; so such
readings follow each other to one report at most, also through a list (`Reading.settles_mapM`).
-/

namespace ContentSecurity

variable {ε α β γ δ : Type}

theorem bind_eq_ok_iff {first : Except ε α} {next : α → Except ε β} {b : β} :
    first >>= next = .ok b ↔ ∃ a, first = .ok a ∧ next a = .ok b := by
  cases first with
  | error error => simp [bind, Except.bind]
  | ok a => simp [bind, Except.bind]

theorem bind_eq_error_iff {first : Except ε α} {next : α → Except ε β} {error : ε} :
    first >>= next = .error error ↔
      first = .error error ∨ ∃ a, first = .ok a ∧ next a = .error error := by
  cases first with
  | error fault => simp [bind, Except.bind]
  | ok a => simp [bind, Except.bind]

theorem eq_ok_of_toOption {result : Except ε α} {a : α} (h : result.toOption = some a) :
    result = .ok a := by
  cases result with
  | error error => cases h
  | ok b => rw [Option.some.inj h]

theorem exists_ok_of_toBool {result : Except ε α} (h : result.toBool = true) :
    ∃ a, result = .ok a := by
  cases result with
  | error error => cases h
  | ok a => exact ⟨a, rfl⟩

theorem map_eq_ok_iff {f : α → β} {result : Except ε α} {b : β} :
    f <$> result = .ok b ↔ ∃ a, result = .ok a ∧ f a = b := by
  cases result with
  | error error => simp [Functor.map, Except.map]
  | ok a => simp [Functor.map, Except.map]

theorem exists_map_eq_ok_iff {f : α → β} {result : Except ε α} :
    (∃ b, f <$> result = .ok b) ↔ ∃ a, result = .ok a := by
  cases result with
  | error error => simp [Functor.map, Except.map]
  | ok a => simp [Functor.map, Except.map]

theorem map_eq_error_iff {f : α → β} {result : Except ε α} {error : ε} :
    f <$> result = .error error ↔ result = .error error := by
  cases result with
  | error error => simp [Functor.map, Except.map]
  | ok a => simp [Functor.map, Except.map]

theorem mapM_eq_ok_iff {f : α → Except ε β} {as : List α} {bs : List β} :
    as.mapM f = .ok bs ↔ List.Forall₂ (fun a b => f a = .ok b) as bs := by
  induction as generalizing bs with
  | nil => simp [pure, Except.pure, eq_comm]
  | cons a as ih =>
    rw [List.mapM_cons, List.forall₂_cons_left_iff, bind_eq_ok_iff]
    constructor
    · rintro ⟨b, ha, hrest⟩
      obtain ⟨others, hothers, hpure⟩ := bind_eq_ok_iff.mp hrest
      exact ⟨b, others, ha, ih.mp hothers, (Except.ok.inj hpure).symm⟩
    · rintro ⟨b, others, ha, hothers, rfl⟩
      exact ⟨b, ha, bind_eq_ok_iff.mpr ⟨others, ih.mpr hothers, rfl⟩⟩

/-- Going through a list fails with the error of the first member that fails. -/
theorem mapM_eq_error {f : α → Except ε β} {as front back : List α} {a : α} {error : ε}
    (hsplit : as = front ++ a :: back) (hfront : ∀ b ∈ front, ∃ c, f b = .ok c)
    (ha : f a = .error error) : as.mapM f = .error error := by
  subst hsplit
  induction front with
  | nil =>
    rw [List.nil_append, List.mapM_cons, ha]
    rfl
  | cons first front ih =>
    obtain ⟨⟨c, hc⟩, hothers⟩ := List.forall_mem_cons.mp hfront
    rw [List.cons_append, List.mapM_cons, hc, ih hothers]
    rfl

theorem exists_forall₂_iff {R : α → β → Prop} {as : List α} :
    (∃ bs, List.Forall₂ R as bs) ↔ ∀ a ∈ as, ∃ b, R a b := by
  constructor
  · rintro ⟨bs, h⟩
    induction h with
    | nil => simp
    | cons hab _ ih => exact List.forall_mem_cons.mpr ⟨⟨_, hab⟩, ih⟩
  · intro h
    induction as with
    | nil => exact ⟨[], .nil⟩
    | cons a as ih =>
      obtain ⟨⟨b, hb⟩, hothers⟩ := List.forall_mem_cons.mp h
      obtain ⟨bs, hbs⟩ := ih hothers
      exact ⟨b :: bs, .cons hb hbs⟩

/-- Where the second list is cut, the first one is as well. -/
theorem exists_split_of_forall₂ {R : α → β → Prop} {as : List α} {front back : List β} {b : β}
    (h : List.Forall₂ R as (front ++ b :: back)) :
    ∃ before a after, as = before ++ a :: after ∧ List.Forall₂ R before front ∧ R a b := by
  have hfront := List.forall₂_take_append as front (b :: back) h
  have hback := List.forall₂_drop_append as front (b :: back) h
  obtain ⟨a, after, hab, -, hsplit⟩ := List.forall₂_cons_right_iff.mp hback
  exact ⟨_, a, after, hsplit ▸ (List.take_append_drop front.length as).symm, hfront, hab⟩

/-- Where the members of one list are related to those of another, what the first ones are related
to carries over. -/
theorem exists_forall₂_of_forall₂ {R : α → γ → Prop} {S : α → β → Prop} {S' : γ → δ → Prop}
    {T : β → δ → Prop} {as : List α} {cs : List γ} {bs : List β} (hrelated : List.Forall₂ R as cs)
    (h : List.Forall₂ S as bs) (hstep : ∀ a c b, R a c → S a b → ∃ d, S' c d ∧ T b d) :
    ∃ ds, List.Forall₂ S' cs ds ∧ List.Forall₂ T bs ds := by
  induction hrelated generalizing bs with
  | nil => exact ⟨[], .nil, List.forall₂_nil_left_iff.mp h ▸ .nil⟩
  | cons hac _ ih =>
    obtain ⟨b, others, hab, hothers, rfl⟩ := List.forall₂_cons_left_iff.mp h
    obtain ⟨d, hcd, hbd⟩ := hstep _ _ b hac hab
    obtain ⟨ds, hds, hrest⟩ := ih hothers
    exact ⟨d :: ds, .cons hcd hds, .cons hbd hrest⟩

/-- Lists are related member by member by a function of the members if it maps them to the same. -/
theorem forall₂_eq_iff_map_eq {f : α → β} {as others : List α} :
    List.Forall₂ (fun a b => f a = f b) as others ↔ as.map f = others.map f := by
  rw [← List.forall₂_eq_eq_eq, List.forall₂_map_left_iff, List.forall₂_map_right_iff]

/-- If not all members have a property, there is a first one without it. -/
theorem exists_first_not {p : α → Prop} {as : List α} (h : ¬ ∀ a ∈ as, p a) :
    ∃ front a back, as = front ++ a :: back ∧ (∀ b ∈ front, p b) ∧ ¬ p a := by
  induction as with
  | nil => exact absurd (by simp) h
  | cons a as ih =>
    by_cases ha : p a
    · have hothers : ¬ ∀ b ∈ as, p b := fun hall => h (List.forall_mem_cons.mpr ⟨ha, hall⟩)
      obtain ⟨front, b, back, rfl, hfront, hb⟩ := ih hothers
      exact ⟨a :: front, b, back, rfl, List.forall_mem_cons.mpr ⟨ha, hfront⟩, hb⟩
    · exact ⟨[], a, as, rfl, by simp, ha⟩

/-- The error of going through a list is that of the first member that fails. -/
theorem exists_of_mapM_eq_error {f : α → Except ε β} {as : List α} {error : ε}
    (h : as.mapM f = .error error) :
    ∃ front a back, as = front ++ a :: back ∧ (∀ b ∈ front, ∃ c, f b = .ok c) ∧
      f a = .error error := by
  have hnot : ¬ ∀ a ∈ as, ∃ c, f a = .ok c := by
    intro hall
    obtain ⟨cs, hcs⟩ := exists_forall₂_iff.mpr hall
    rw [mapM_eq_ok_iff.mpr hcs] at h
    cases h
  obtain ⟨front, a, back, hsplit, hfront, ha⟩ := exists_first_not hnot
  refine ⟨front, a, back, hsplit, hfront, ?_⟩
  cases hresult : f a with
  | ok c => exact absurd ⟨c, hresult⟩ ha
  | error other =>
    rw [mapM_eq_error hsplit hfront hresult] at h
    rw [Except.error.inj h]

theorem exists_of_forall₂ {R : α → β → Prop} {as : List α} {bs : List β} {b : β}
    (h : List.Forall₂ R as bs) (hb : b ∈ bs) : ∃ a ∈ as, R a b := by
  induction h with
  | nil => cases hb
  | cons hab _ ih =>
    rcases List.mem_cons.mp hb with rfl | hb
    · exact ⟨_, List.mem_cons_self, hab⟩
    · obtain ⟨a, ha, hrel⟩ := ih hb
      exact ⟨a, List.mem_cons_of_mem _ ha, hrel⟩

namespace Reading

variable {reading : Reading α} {next : α → Reading β} {a : α} {b : β}

/-! ### Readings that follow each other -/

theorem bind_mk_ok (events : List Event) (a : α) (next : α → Reading β) :
    (⟨events, .ok a⟩ : Reading α) >>= next =
      ⟨events ++ (next a).events, (next a).result⟩ := rfl

theorem bind_mk_error (events : List Event) (error : Error) (next : α → Reading β) :
    (⟨events, .error error⟩ : Reading α) >>= next = ⟨events, .error error⟩ := rfl

theorem bind_bind (reading : Reading α) (next : α → Reading β) (last : β → Reading γ) :
    reading >>= next >>= last = reading >>= fun a => next a >>= last := by
  rcases reading with ⟨events, result⟩
  cases result with
  | error error => rfl
  | ok a =>
    rw [bind_mk_ok, bind_mk_ok]
    rcases next a with ⟨later, result⟩
    cases result with
    | error error => rfl
    | ok b => rw [bind_mk_ok, bind_mk_ok, List.append_assoc]

theorem bind_pure_eq_map (f : α → β) (reading : Reading α) :
    reading >>= (fun a => pure (f a)) = f <$> reading := by
  rcases reading with ⟨events, result⟩
  cases result with
  | error error => rfl
  | ok a =>
    change (⟨events ++ [], .ok (f a)⟩ : Reading β) = _
    rw [List.append_nil]
    rfl

instance : LawfulMonad Reading := .mk' Reading
  (fun reading => by rcases reading with ⟨events, _ | a⟩ <;> rfl)
  (fun _ _ => rfl)
  bind_bind
  (fun _ _ => rfl)
  (fun _ _ => rfl)
  (fun _ _ => rfl)
  bind_pure_eq_map

/-! ### Results -/

/-- The result of readings that follow each other is that of their results. -/
theorem result_bind (reading : Reading α) (next : α → Reading β) :
    (reading >>= next).result = reading.result >>= fun a => (next a).result := by
  change (Reading.bind reading next).result = _
  unfold Reading.bind
  rcases reading.result with error | a
  · rfl
  · rfl

theorem result_map (f : α → β) (reading : Reading α) :
    (f <$> reading).result = f <$> reading.result := rfl

theorem result_bind_pure (reading : Reading α) (f : α → β) :
    (reading >>= fun a => pure (f a)).result = f <$> reading.result := by
  rw [result_bind]
  rcases reading.result with error | a
  · rfl
  · rfl

theorem result_bind_eq_ok_iff :
    (reading >>= next).result = .ok b ↔ ∃ a, reading.result = .ok a ∧ (next a).result = .ok b := by
  rw [result_bind, bind_eq_ok_iff]

@[simp] theorem result_pure : (pure a : Reading α).result = .ok a := rfl

theorem result_mapError_eq_ok_iff {f : Error → Error} :
    (reading.mapError f).result = .ok a ↔ reading.result = .ok a := by
  change reading.result.mapError f = _ ↔ _
  cases reading.result with
  | error error => simp [Except.mapError]
  | ok a => simp [Except.mapError]

/-! ### Readings without events -/

theorem eq_pure_iff : reading = pure a ↔ reading.events = [] ∧ reading.result = .ok a := by
  rcases reading with ⟨events, result⟩
  exact Reading.mk.injEq .. ▸ Iff.rfl

theorem pure_inj {a b : α} : (pure a : Reading α) = pure b ↔ a = b := by
  rw [eq_pure_iff, result_pure, Except.ok.injEq]
  exact and_iff_right rfl

/-- What is known to read without events does so with the value that it has. -/
theorem eq_pure_of_result (h : ∃ b, reading = pure b) (ha : reading.result = .ok a) :
    reading = pure a := by
  obtain ⟨b, rfl⟩ := h
  rw [Except.ok.inj ha]

/-- If nothing happens in both, nothing happens in either. -/
theorem bind_eq_pure_iff :
    reading >>= next = pure b ↔ ∃ a, reading = pure a ∧ next a = pure b := by
  rcases reading with ⟨events, result⟩
  cases result with
  | error error => simp [bind_mk_error, eq_pure_iff]
  | ok a => simp [bind_mk_ok, eq_pure_iff, and_assoc]

theorem mapM_eq_pure_iff {f : α → Reading β} {as : List α} {bs : List β} :
    as.mapM f = pure bs ↔ List.Forall₂ (fun a b => f a = pure b) as bs := by
  induction as generalizing bs with
  | nil => rw [List.mapM_nil, pure_inj, List.forall₂_nil_left_iff, eq_comm]
  | cons a as ih =>
    rw [List.mapM_cons, List.forall₂_cons_left_iff, bind_eq_pure_iff]
    constructor
    · rintro ⟨b, ha, hrest⟩
      obtain ⟨others, hothers, hpure⟩ := bind_eq_pure_iff.mp hrest
      exact ⟨b, others, ha, ih.mp hothers, (pure_inj.mp hpure).symm⟩
    · rintro ⟨b, others, ha, hothers, rfl⟩
      exact ⟨b, ha, bind_eq_pure_iff.mpr ⟨others, ih.mpr hothers, rfl⟩⟩

/-! ### Readings that report a defect -/

/-- The reading gives a value that is `good`, and nothing happens, or it reports a defect that is
`bad`, and nothing else happens. -/
def Settles (good : α → Prop) (bad : Defect → Prop) (reading : Reading α) : Prop :=
  (∃ a, good a ∧ reading = pure a) ∨ ∃ fault, bad fault ∧ reading = report fault

variable {good : α → Prop} {good' : β → Prop} {bad bad' : Defect → Prop} {fault : Defect}

theorem settles_pure (h : good a) : (pure a : Reading α).Settles good bad :=
  Or.inl ⟨a, h, rfl⟩

theorem settles_report (h : bad fault) : (report fault : Reading α).Settles good bad :=
  Or.inr ⟨fault, h, rfl⟩

theorem report_bind (fault : Defect) (next : α → Reading β) :
    report fault >>= next = report fault := rfl

/-- What follows need only settle for good values. -/
theorem Settles.bind (h : reading.Settles good bad)
    (hnext : ∀ a, good a → (next a).Settles good' bad) : (reading >>= next).Settles good' bad := by
  obtain ⟨a, ha, rfl⟩ | ⟨fault, hfault, rfl⟩ := h
  · rw [pure_bind]
    exact hnext a ha
  · rw [report_bind]
    exact settles_report hfault

theorem Settles.mono (h : reading.Settles good bad) (hbad : ∀ fault, bad fault → bad' fault) :
    reading.Settles good bad' := by
  obtain ⟨a, ha, rfl⟩ | ⟨fault, hfault, rfl⟩ := h
  · exact settles_pure ha
  · exact settles_report (hbad fault hfault)

/-- **Going through a list reports the first defect only**: it is one of the first member that has
none of the good values. -/
theorem settles_mapM {f : α → Reading β} {good : α → β → Prop} {bad : α → Defect → Prop}
    (h : ∀ a, (f a).Settles (good a) (bad a)) (as : List α) :
    (as.mapM f).Settles (List.Forall₂ good as) fun fault =>
      ∃ front a back, as = front ++ a :: back ∧ (∀ b ∈ front, ∃ c, good b c) ∧ bad a fault := by
  induction as with
  | nil =>
    rw [List.mapM_nil]
    exact settles_pure .nil
  | cons a as ih =>
    rw [List.mapM_cons]
    obtain ⟨b, hb, hread⟩ | ⟨fault, hfault, hread⟩ := h a
    · rw [hread, pure_bind]
      refine Settles.bind (ih.mono ?_) fun bs hbs => settles_pure (.cons hb hbs)
      rintro fault ⟨front, other, back, rfl, hfront, hfault⟩
      exact ⟨a :: front, other, back, rfl, List.forall_mem_cons.mpr ⟨⟨b, hb⟩, hfront⟩, hfault⟩
    · rw [hread, report_bind]
      exact settles_report ⟨[], a, as, rfl, by simp, hfault⟩

end Reading

end ContentSecurity

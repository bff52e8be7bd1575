import ContentSecurity.Proofs.Policy.Reading
/-!
# Readings without fault

The functions that take a parse tree apart report every shape that they do not expect, as an error
and as a warning.  A matched tree has none of those shapes: its list has an entry for each word,
each entry holds one child, and each child has the parts that its rule always has.  So reading a
header ends with a policy or with a refusal that the header is to blame for, without a warning.

`Reading.Faultless` says so of one reading.  It is kept by everything that readings are built from,
and the matched tree comes in where a reading is followed by one that takes its tree apart.
-/

namespace ContentSecurity

open Grammar

/-! ### Refusals -/

theorem Error.isInternal_inDirective (name : String) (error : Error) :
    (error.inDirective name).isInternal = error.isInternal := by
  cases error <;> rfl

theorem Limits.isInternal_of_check {limits : Limits} {quantity : Quantity} {actual : Nat}
    {error : Error} (h : limits.check quantity actual = .error error) :
    error.isInternal = false := by
  unfold Limits.check at h
  by_cases hlimit : actual > limits.of quantity
  · rw [if_pos hlimit] at h
    cases h
    rfl
  · rw [if_neg hlimit] at h
    cases h

namespace Grammar.Rule

variable {rule : Rule} {input : String} {error : Error}

theorem isInternal_of_tree (h : rule.tree input = .error error) : error.isInternal = false := by
  obtain ⟨position, hposition⟩ := exists_mismatch_of_tree h
  rw [hposition]
  rfl

end Grammar.Rule

/-! ### Readings -/

namespace Reading

variable {α β : Type} {reading : Reading α} {next : α → Reading β}

/-- The error, if there is one, is no fault of the library, and no event is a warning. -/
structure Faultless (reading : Reading α) : Prop where
  error : ∀ error, reading.result = .error error → error.isInternal = false
  events : ∀ event ∈ reading.events, event.level ≠ .warn

theorem faultless_pure (a : α) : (pure a : Reading α).Faultless where
  error := by
    intro error h
    cases h
  events := by
    intro event h
    cases h

theorem faultless_ofExcept {result : Except Error α}
    (h : ∀ error, result = .error error → error.isInternal = false) :
    (ofExcept result).Faultless where
  error := h
  events := by
    intro event hevent
    cases hevent

theorem faultless_emitAll {events : List Event} (h : ∀ event ∈ events, event.level ≠ .warn) :
    (emitAll events).Faultless where
  error := by
    intro error herror
    cases herror
  events := h

theorem faultless_of_eq_pure (h : ∃ a, reading = pure a) : reading.Faultless := by
  rcases h with ⟨a, rfl⟩
  exact faultless_pure a

/-- The reading that follows need only be faultless for the value that was read. -/
theorem Faultless.bind (h : reading.Faultless)
    (hnext : ∀ a, reading.result = .ok a → (next a).Faultless) :
    (reading >>= next).Faultless := by
  change (Reading.bind reading next).Faultless
  unfold Reading.bind
  rcases hresult : reading.result with error | a
  · constructor
    · intro other hother
      cases hother
      exact h.error _ hresult
    · exact h.events
  · have ha := hnext a hresult
    constructor
    · exact ha.error
    · intro event hevent
      rcases List.mem_append.mp hevent with hevent | hevent
      · exact h.events event hevent
      · exact ha.events event hevent

theorem Faultless.map (h : reading.Faultless) (f : α → β) : (f <$> reading).Faultless where
  error := by
    intro error herror
    change reading.result.map f = .error error at herror
    rcases hresult : reading.result with other | a
    · rw [hresult] at herror
      cases herror
      exact h.error _ hresult
    · rw [hresult] at herror
      cases herror
  events := h.events

theorem Faultless.mapError (h : reading.Faultless) {f : Error → Error}
    (hf : ∀ error, (f error).isInternal = error.isInternal) : (reading.mapError f).Faultless where
  error := by
    intro error herror
    change reading.result.mapError f = .error error at herror
    rcases hresult : reading.result with other | a
    · rw [hresult] at herror
      cases herror
      rw [hf]
      exact h.error _ hresult
    · rw [hresult] at herror
      cases herror
  events := h.events

end Reading

open Reading

/-! ### Values -/

namespace Directive

variable {limits : Limits} {value : String} {tree : Tree}

namespace Body

theorem faultless_sourcesOf (limits : Limits) (kind : ListKind) (value : String) :
    (sourcesOf limits kind value).Faultless := by
  unfold sourcesOf
  by_cases hnone : value = Source.noneText
  · rw [if_pos hnone]
    exact faultless_pure _
  by_cases hempty : value.isEmpty = true
  · rw [if_neg hnone, if_pos hempty]
    exact faultless_pure _
  rw [if_neg hnone, if_neg hempty]
  apply (faultless_ofExcept fun error => Rule.isInternal_of_tree).bind
  intro tree htree
  have hread : ∃ sources, Source.interpret value kind.root tree = pure sources :=
    exists_interpret_of_tree htree
  apply (faultless_of_eq_pure hread).bind
  intro sources _
  by_cases hnil : sources.isEmpty = true
  · rw [if_pos hnil]
    apply faultless_ofExcept
    intro error herror
    cases herror
    rfl
  · rw [if_neg hnil]
    apply (faultless_ofExcept fun error => Limits.isInternal_of_check).bind
    intro _ _
    exact faultless_pure sources

theorem isInternal_of_leaves {root leaf : Rule} {error : Error}
    (h : leaves root leaf value = .error error) : error.isInternal = false := by
  obtain ⟨position, hposition⟩ := exists_mismatch_of_leaves h
  rw [hposition]
  rfl

theorem faultless_trustedTypesOf (value : String) : (trustedTypesOf value).Faultless := by
  apply (faultless_ofExcept fun error => Rule.isInternal_of_tree).bind
  intro tree htree
  exact faultless_of_eq_pure (exists_trustedTypes_of_tree htree)

theorem faultless_ignore (kind : Kind) (value : String) : (ignore kind value).Faultless := by
  unfold ignore
  by_cases hempty : value.isEmpty = true
  · rw [if_pos hempty]
    exact faultless_pure ()
  · rw [if_neg hempty]
    apply faultless_emitAll
    intro event hevent
    rw [List.mem_singleton.mp hevent]
    exact Level.noConfusion

theorem faultless_ofText (limits : Limits) (kind : Kind) (value : String) :
    (ofText limits kind value).Faultless := by
  have hleaves : ∀ root leaf, (Reading.ofExcept (leaves root leaf value)).Faultless := by
    intro root leaf
    exact faultless_ofExcept fun error => isInternal_of_leaves
  cases kind with
  | sourceList kind =>
    apply (faultless_sourcesOf limits kind value).bind
    intro sources _
    exact faultless_pure _
  | sandbox =>
    apply (hleaves .sandboxRoot .token).bind
    intro tokens _
    exact faultless_pure _
  | reportUri =>
    apply (hleaves .reportUriRoot .uriReference).bind
    intro uris _
    exact faultless_pure _
  | reportTo => exact faultless_pure _
  | requireSriFor => exact faultless_pure _
  | trustedTypes =>
    apply (faultless_trustedTypesOf value).bind
    intro entries _
    exact faultless_pure _
  | requireTrustedTypesFor =>
    apply (hleaves .requireTrustedTypesForRoot .trustedTypesSinkGroup).bind
    intro groups _
    exact faultless_pure _
  | webrtc =>
    simp only [ofText]
    rcases Webrtc.ofName? value with _ | choice
    · apply faultless_ofExcept
      intro error herror
      cases herror
      rfl
    · exact faultless_pure _
  | upgradeInsecureRequests =>
    apply (faultless_ignore _ value).bind
    intro _ _
    exact faultless_pure _
  | blockAllMixedContent =>
    apply (faultless_ignore _ value).bind
    intro _ _
    exact faultless_pure _

end Body

/-! ### Directives -/

theorem faultless_ofText (limits : Limits) (rawName rawValue : String) :
    (ofText limits rawName rawValue).Faultless := by
  unfold ofText
  apply Faultless.bind
  · apply faultless_emitAll
    intro event hevent
    rw [List.mem_singleton.mp hevent]
    exact Level.noConfusion
  intro _ _
  rcases Kind.ofName? rawName.toLower with _ | kind
  · exact faultless_pure _
  · have hbody := (Body.faultless_ofText limits kind rawValue).mapError
      (Error.isInternal_inDirective rawName.toLower)
    apply hbody.bind
    intro body _
    exact faultless_pure _

/-- The node of a matched directive has a name. -/
theorem faultless_ofTree {header : String} {clause : List Char} (h : Gives header clause tree) :
    (ofTree limits header tree).Faultless := by
  unfold ofTree
  rw [h.1]
  exact faultless_ofText limits _ _

end Directive

/-! ### Policies -/

namespace Policy

open Directive

variable {limits : Limits} {header : String}

theorem level_of_mem_placementEvents {directive : Directive} {placement : Placement} {event : Event}
    (h : event ∈ placementEvents directive placement) : event.level ≠ .warn := by
  cases placement with
  | recognized => cases h
  | unrecognized =>
    rw [List.mem_singleton.mp h]
    exact Level.noConfusion
  | ineffective =>
    rw [List.mem_singleton.mp h]
    exact Level.noConfusion

theorem faultless_readDirectives {clauses : List (List Char)} {trees : List Tree}
    (h : List.Forall₂ (Gives header) clauses trees) (seen : List String) :
    (readDirectives limits header seen trees).Faultless := by
  induction h generalizing seen with
  | nil => exact faultless_pure []
  | cons hgives _ ih =>
    rw [readDirectives]
    apply (faultless_ofTree hgives).bind
    intro directive _
    apply (faultless_emitAll fun event => level_of_mem_placementEvents).bind
    intro _ _
    exact (ih (directive.name :: seen)).map _

theorem isInternal_of_outline {data : ByteArray} {error : Error}
    (h : outline limits data = .error error) : error.isInternal = false := by
  unfold outline at h
  rcases hsize : limits.check .headerLength data.size with other | _
  · rw [hsize] at h
    cases h
    exact Limits.isInternal_of_check hsize
  rw [hsize] at h
  rcases htext : String.fromUTF8? data with _ | header
  · simp only [htext] at h
    cases h
    rfl
  simp only [htext] at h
  rcases htree : Rule.serializedPolicy.tree header with other | tree
  · rw [htree] at h
    cases h
    exact Rule.isInternal_of_tree htree
  rw [htree] at h
  rcases hcount : limits.check .directiveCount (tree.search [.serializedDirective] 2).length with
    other | _
  · simp only [bind, Except.bind, hcount] at h
    cases h
    exact Limits.isInternal_of_check hcount
  · simp only [bind, Except.bind, hcount] at h
    cases h

theorem faultless_parse (limits : Limits) (data : ByteArray) : (parse limits data).Faultless := by
  apply (faultless_ofExcept fun error => isInternal_of_outline).bind
  intro found hfound
  rcases found with ⟨header, trees⟩
  obtain ⟨-, -, ⟨tree, htree, rfl⟩, -⟩ := outline_eq_ok_iff.mp hfound
  apply (faultless_readDirectives (gives_of_tree htree).2 []).bind
  intro directives _
  exact faultless_pure _

/-- **Reading never finds a fault of its own.**  Whatever bytes a header consists of and whatever
the limits are, it is read as a policy, or refused for its text or for its size; the error is never
an internal one, and no event is a warning. -/
theorem parse_accepts_or_refuses (limits : Limits) (data : ByteArray) :
    ((∃ policy, (parse limits data).result = .ok policy) ∨
      (∃ rule directive input position,
        (parse limits data).result = .error (.mismatch rule directive input position)) ∨
      ∃ quantity limit actual,
        (parse limits data).result = .error (.limitExceeded quantity limit actual)) ∧
    (∀ error, (parse limits data).result = .error error → error.isInternal = false) ∧
    ∀ event ∈ (parse limits data).events, event.level ≠ .warn := by
  have hfaultless := faultless_parse limits data
  refine ⟨?_, hfaultless.error, hfaultless.events⟩
  rcases hresult : (parse limits data).result with error | policy
  · have hinternal := hfaultless.error error hresult
    cases error with
    | mismatch rule directive input position =>
      exact Or.inr (Or.inl ⟨rule, directive, input, position, rfl⟩)
    | limitExceeded quantity limit actual => exact Or.inr (Or.inr ⟨quantity, limit, actual, rfl⟩)
    | matcherFailure rule message => cases hinternal
    | defect fault => cases hinternal
  · exact Or.inl ⟨policy, rfl⟩

end Policy

end ContentSecurity

import ContentSecurity.Proofs.Policy.Rendering
/-!
# Reading what was written

The canonical form of a well-formed policy is read as the same policy in canonical form, without
the directives that have no effect (`WellFormed.parse_render`).  It does not matter whether the
policy was read itself or made by hand; and one that was read is well-formed, so the canonical form
of a policy has no other canonical form than itself.  Limits that admit a header admit its canonical
form if this is not too long (`admit_render`).
-/

namespace ContentSecurity

open Text Grammar Directive

namespace Policy

variable {limits : Limits} {policy other : Policy} {data : ByteArray}

/-- The same policy in canonical form, without the directives that have no effect. -/
def canonical (policy : Policy) : Policy :=
  { policy.plain with ineffectiveDirectives := [], raw := some policy.render }

/-- The directives in force are those of another policy, in the same order and written alike, and
there are no directives without effect. -/
structure Restores (policy other : Policy) : Prop where
  directives : List.Forall₂ (· ≈ ·) policy.directives other.directives
  otherDirectives : List.Forall₂ (· ≈ ·) policy.otherDirectives other.otherDirectives
  ineffectiveDirectives : policy.ineffectiveDirectives = []
  render : policy.render = other.render
  equiv_iff : policy ≈ other ↔ other.ineffectiveDirectives = []

theorem forall₂_equiv_plain (directives : List Directive) :
    List.Forall₂ (· ≈ ·) (directives.map Directive.plain) directives := by
  rw [List.forall₂_map_left_iff, List.forall₂_same]
  intro directive _
  exact Directive.plain_plain directive

theorem render_plain (policy : Policy) : policy.plain.render = policy.render := by
  have htexts : policy.plain.effectiveDirectives.map Directive.text =
      policy.effectiveDirectives.map Directive.text := by
    simp only [plain, effectiveDirectives, List.map_append, List.map_map]
    congr 1
    · exact List.map_congr_left fun directive _ => Directive.text_plain directive
    · exact List.map_congr_left fun directive _ => Directive.text_plain directive
  rw [render, htexts, render]

theorem render_canonical (policy : Policy) : policy.canonical.render = policy.render :=
  render_plain policy

theorem canonical_equiv_iff (policy : Policy) :
    policy.canonical ≈ policy ↔ policy.ineffectiveDirectives = [] := by
  have hplain : ∀ directives : List Directive,
      (directives.map Directive.plain).map Directive.plain = directives.map Directive.plain := by
    intro directives
    rw [List.map_map]
    exact List.map_congr_left fun directive _ => Directive.plain_plain directive
  change policy.canonical.plain = policy.plain ↔ _
  simp [canonical, plain, hplain, eq_comm]

theorem restores_canonical (policy : Policy) : policy.canonical.Restores policy where
  directives := forall₂_equiv_plain policy.directives
  otherDirectives := forall₂_equiv_plain policy.otherDirectives
  ineffectiveDirectives := rfl
  render := render_canonical policy
  equiv_iff := canonical_equiv_iff policy

/-- The plain forms of what is in force are put back in their places. -/
theorem WellFormed.ofDirectives_plain (h : policy.WellFormed) :
    ofDirectives (policy.effectiveDirectives.map Directive.plain) =
      { directives := policy.directives.map Directive.plain
        otherDirectives := policy.otherDirectives.map Directive.plain } := by
  have hnames : (policy.effectiveDirectives.map Directive.plain).map Directive.name =
      policy.effectiveNames := by
    rw [List.map_map]
    rfl
  have hrecognized : ∀ directive ∈ policy.directives.map Directive.plain,
      directive.isOther = false := by
    rw [List.forall_mem_map]
    intro directive hmem
    exact (Body.isOther_plain directive.body).trans (h.recognized directive hmem).2
  have hothers : ∀ directive ∈ policy.otherDirectives.map Directive.plain,
      directive.isOther = true := by
    rw [List.forall_mem_map]
    intro directive hmem
    exact (Body.isOther_plain directive.body).trans (h.others directive hmem).2
  obtain ⟨hdirectives, hotherDirectives⟩ := filter_isOther hrecognized hothers
  rw [ofDirectives, place_of_nodup (hnames ▸ h.nodup) (by simp), effectiveDirectives,
    List.map_append, hdirectives, hotherDirectives]

/-- **The canonical form of a well-formed policy is read as its canonical form.** -/
theorem WellFormed.parse_render (h : policy.WellFormed)
    (hlimits : limits.Admit policy.render (policy.effectiveDirectives.map Directive.plain)) :
    (parse limits policy.render.toUTF8).result = .ok policy.canonical := by
  refine parse_eq_ok_iff.mpr ⟨_, _, rfl, h.means_render, hlimits, ?_⟩
  rw [h.ofDirectives_plain]
  rfl

theorem wellFormed_of_parse (h : (parse limits data).result = .ok policy) : policy.WellFormed := by
  obtain ⟨header, directives, -, hmeans, -, rfl⟩ := parse_eq_ok_iff.mp h
  obtain ⟨hne, hnodup, hrecognized, hothers⟩ := hmeans.wellFormed_ofDirectives
  exact ⟨hne, hnodup, hrecognized, hothers⟩

/-- The canonical form of what was read is not twice as long as the header. -/
theorem utf8ByteSize_render_lt (h : (parse limits data).result = .ok policy) :
    policy.render.utf8ByteSize < 2 * data.size := by
  obtain ⟨header, directives, rfl, hmeans, -, rfl⟩ := parse_eq_ok_iff.mp h
  have hrender := hmeans.utf8ByteSize_render_le
  have hcount := (length_effectiveDirectives_le directives).trans hmeans.length_le
  change (ofDirectives directives).render.utf8ByteSize < 2 * header.utf8ByteSize
  omega

/-- **Reading undoes writing.**  The canonical form of every well-formed policy that fits into the
greatest limits is read as a policy with the same directives in force, and as the same policy if
none of its directives is without effect. -/
theorem exists_parse_render_of_wellFormed (policy : Policy) (h : policy.WellFormed)
    (hsize : policy.render.utf8ByteSize ≤ Limits.greatest) :
    ∃ read, (parse .unbounded policy.render.toUTF8).result = .ok read ∧ read.Restores policy :=
  ⟨policy.canonical, h.parse_render (h.means_render.admit_unbounded hsize),
    restores_canonical policy⟩

/-- A host source with all its parts. -/
def imageHost : Host where
  scheme := some "https"
  name := "a"
  port := some "1"
  path := some "/"

theorem wellFormed_imageHost : imageHost.WellFormed where
  scheme := by
    rintro scheme ⟨⟩
    exact Lexeme.mem_language_schemePart.mpr
      ⟨'h', ['t', 't', 'p', 's'], by decide, by decide, by decide⟩
  name := by
    apply Lexeme.mem_language_hostPart.mpr
    refine Or.inr (Or.inr (Lexeme.mem_language_hostLabels.mpr ⟨['a'], [], [], ?_⟩))
    simp [imageHost, isNameChar]
  port := by
    rintro port ⟨⟩
    exact Lexeme.mem_language_portPart.mpr (Or.inl ⟨by decide, by decide⟩)
  path := by
    rintro path ⟨⟩
    exact Lexeme.mem_language_pathPart.mpr ⟨[], ⟨[], by simp⟩, by decide⟩

/-- A policy made by hand: one image source with all its parts, and a directive of another name. -/
def imagePolicy : Policy where
  directives := [.sourceList .imgSrc [.ofExpression (.host imageHost)]]
  otherDirectives := [⟨"x-a", "x-a", "1", .other⟩]

theorem wellFormed_imagePolicy : imagePolicy.WellFormed where
  nonempty := by simp [imagePolicy, effectiveDirectives]
  nodup := by decide
  recognized := by
    intro directive hmem
    obtain rfl := List.mem_singleton.mp hmem
    refine ⟨⟨by decide, (fun hother => by cases hother), Or.inr ?_⟩, rfl⟩
    intro source hsource
    obtain rfl := List.mem_singleton.mp hsource
    exact ⟨.host imageHost, rfl, trivial, wellFormed_imageHost⟩
  others := by
    intro directive hmem
    obtain rfl := List.mem_singleton.mp hmem
    refine ⟨⟨by decide, fun _ => ⟨?_, by decide⟩, Or.inr ?_⟩, rfl⟩
    · exact Lexeme.mem_language_directiveName.mpr ⟨by decide, by decide⟩
    · exact Lexeme.mem_language_directiveValue.mpr
        ⟨by decide, by decide, bare_of_forall (by decide)⟩

theorem exists_parse_render_imagePolicy :
    imagePolicy.WellFormed ∧ imagePolicy.render.utf8ByteSize ≤ Limits.greatest ∧
      ∃ read, (parse .unbounded imagePolicy.render.toUTF8).result = .ok read ∧
        read.Restores imagePolicy :=
  have hsize : imagePolicy.render.utf8ByteSize ≤ Limits.greatest := by decide
  ⟨wellFormed_imagePolicy, hsize,
    exists_parse_render_of_wellFormed imagePolicy wellFormed_imagePolicy hsize⟩

/-- **The canonical form is a fixpoint.**  Whatever header a policy was read from, reading its
canonical form gives a policy with the same directives in force and the same canonical form, and
the same policy if none of its directives is without effect.  No text in memory is as long as
`2 ^ 63` bytes. -/
theorem exists_parse_render_of_parse (data : ByteArray) (policy : Policy)
    (h : (parse .unbounded data).result = .ok policy) (hsize : data.size < 2 ^ 63) :
    ∃ read, (parse .unbounded policy.render.toUTF8).result = .ok read ∧ read.Restores policy := by
  have hformed := wellFormed_of_parse h
  have hrender : policy.render.utf8ByteSize ≤ Limits.greatest := by
    have hlt := utf8ByteSize_render_lt h
    simp only [Limits.greatest, UInt64.size]
    omega
  exact ⟨policy.canonical, hformed.parse_render (hformed.means_render.admit_unbounded hrender),
    restores_canonical policy⟩

/-- A policy as it was read from a header that is not in canonical form. -/
def spacedPolicy : Policy where
  directives := [⟨"img-src", "IMG-SRC", "* 'SELF'", .sourceList .imgSrc
    [.written "*" (.host { name := "*" }), .written "'SELF'" (.keyword "self")]⟩]
  raw := some "IMG-SRC  * 'SELF'"

theorem parse_spacedPolicy :
    (parse .unbounded "IMG-SRC  * 'SELF'".toUTF8).result = .ok spacedPolicy :=
  eq_ok_of_toOption (by decide +kernel)

theorem exists_parse_render_spacedPolicy :
    (parse .unbounded "IMG-SRC  * 'SELF'".toUTF8).result = .ok spacedPolicy ∧
      "IMG-SRC  * 'SELF'".toUTF8.size < 2 ^ 63 ∧
      ∃ read, (parse .unbounded spacedPolicy.render.toUTF8).result = .ok read ∧
        read.Restores spacedPolicy :=
  have hsize : "IMG-SRC  * 'SELF'".toUTF8.size < 2 ^ 63 := by decide
  ⟨parse_spacedPolicy, hsize, exists_parse_render_of_parse _ spacedPolicy parse_spacedPolicy hsize⟩

/-! ### Within the same limits -/

/-- Limits that admit a header admit the canonical form, if this is not too long. -/
theorem admit_render {header : String} {directives : List Directive}
    (h : limits.Admit header directives)
    (hsize : (ofDirectives directives).render.utf8ByteSize ≤ limits.headerLength) :
    limits.Admit (ofDirectives directives).render
      ((ofDirectives directives).effectiveDirectives.map Directive.plain) where
  size := hsize
  count := by
    rw [List.length_map]
    exact (length_effectiveDirectives_le directives).trans h.count
  sources := by
    rw [List.forall_mem_map]
    intro directive hmem
    have hfirst := (effectiveDirectives_perm directives).mem_iff.mp hmem
    exact (h.sources directive ((firsts_sublist [] directives).mem hfirst)).plain

/-- **Limits with a little room admit the canonical form of what they admit.**  The canonical form
has at most one more byte than the header for each directive in force but the first; if the limits
admit a header that is longer by as much, they admit the canonical form, and it is read as a policy
with the same directives in force. -/
theorem parse_render_of_slack (limits : Limits) (data : ByteArray) (policy : Policy)
    (h : (parse limits data).result = .ok policy) :
    1 ≤ policy.effectiveDirectives.length ∧
      policy.render.utf8ByteSize ≤ data.size + (policy.effectiveDirectives.length - 1) ∧
      (data.size + (policy.effectiveDirectives.length - 1) ≤ limits.headerLength →
        ∃ read, (parse limits policy.render.toUTF8).result = .ok read ∧ read.Restores policy) := by
  have hformed := wellFormed_of_parse h
  obtain ⟨header, directives, rfl, hmeans, hadmit, rfl⟩ := parse_eq_ok_iff.mp h
  have hcount : 1 ≤ (ofDirectives directives).effectiveDirectives.length :=
    List.length_pos_iff.mpr hformed.nonempty
  have hrender : (ofDirectives directives).render.utf8ByteSize ≤
      header.utf8ByteSize + ((ofDirectives directives).effectiveDirectives.length - 1) := by
    have hbound := hmeans.utf8ByteSize_render_le
    omega
  refine ⟨hcount, hrender, fun hslack => ?_⟩
  have hcanonical := hformed.parse_render (admit_render hadmit (hrender.trans hslack))
  exact ⟨_, hcanonical, restores_canonical _⟩

/-- Two directives that were read from a header without a space behind the semicolon. -/
def crampedPolicy : Policy where
  otherDirectives := [⟨"a", "a", "", .other⟩, ⟨"b", "b", "", .other⟩]
  raw := some "a;b"

theorem parse_crampedPolicy :
    (parse { headerLength := 4 } "a;b".toUTF8).result = .ok crampedPolicy :=
  eq_ok_of_toOption (by decide +kernel)

theorem parse_render_of_slack_crampedPolicy :
    (parse { headerLength := 4 } "a;b".toUTF8).result = .ok crampedPolicy ∧
      crampedPolicy.render.utf8ByteSize ≤ "a;b".toUTF8.size + 1 ∧
      "a;b".toUTF8.size + (crampedPolicy.effectiveDirectives.length - 1) ≤ 4 ∧
      ∃ read, (parse { headerLength := 4 } crampedPolicy.render.toUTF8).result = .ok read ∧
        read.Restores crampedPolicy := by
  have hslack : "a;b".toUTF8.size + (crampedPolicy.effectiveDirectives.length - 1) ≤ 4 := by decide
  obtain ⟨-, hrender, hread⟩ := parse_render_of_slack _ _ crampedPolicy parse_crampedPolicy
  exact ⟨parse_crampedPolicy, hrender, hslack, hread hslack⟩

/-- With a byte less the header is admitted, and its canonical form is not. -/
example :
    (parse { headerLength := 3 } "a;b".toUTF8).result.toOption = some crampedPolicy ∧
      (parse { headerLength := 3 } crampedPolicy.render.toUTF8).result.toOption = none := by
  decide +kernel

end Policy

end ContentSecurity

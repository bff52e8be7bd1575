import ContentSecurity.Proofs.Source.Lists
/-!
# The two texts of a source

A source has the text that it was written as, its raw text, and a canonical text that is put
together from its parts.  A source that was read keeps its word as the raw text, and the canonical
text is the same up to letter case: nothing of the word is lost when it is taken apart
(`Source.Retains`).  A source that was made, and then given parts in any order, always has the two
texts in step (`Source.Built`).
-/

namespace ContentSecurity

open Text Grammar

/-! ### Sources that were read -/

namespace Expression

variable {a : Expression} {token : String}

/-- A source without quotes is written in one way only. -/
theorem WrittenAs.text_eq (h : a.WrittenAs token) (hquoted : a.isQuoted = false) :
    a.text = token := by
  cases a with
  | scheme name => exact h.2.symm
  | host parts => exact h.2.symm
  | keyword word => cases hquoted
  | nonce value => cases hquoted
  | hash algorithm digest => cases hquoted

/-- The canonical text ends with the payload as the token does, with the same letters before it. -/
theorem WrittenAs.exists_fronts (h : a.WrittenAs token) :
    ∃ front front', front.map Char.toLower = front'.map Char.toLower ∧
      token.toList = front ++ a.payload ∧ a.text.toList = front' ++ a.payload := by
  cases hquoted : a.isQuoted with
  | true =>
    obtain ⟨text, htoken, hmark⟩ := h.exists_mark hquoted
    obtain ⟨text', htext, hmark'⟩ := h.wellFormed.writtenAs_text.exists_mark hquoted
    refine ⟨'\x27' :: text, '\x27' :: text', ?_, htoken, htext⟩
    rw [List.map_cons, List.map_cons, hmark, hmark']
  | false =>
    have hpayload : a.payload = [] := by
      cases a <;> first | rfl | cases hquoted
    refine ⟨token.toList, a.text.toList, ?_, ?_, ?_⟩
    · rw [h.text_eq hquoted]
    · rw [hpayload, List.append_nil]
    · rw [hpayload, List.append_nil]

theorem WrittenAs.toLower_text (h : a.WrittenAs token) : a.text.toLower = token.toLower := by
  obtain ⟨front, front', hletters, htoken, htext⟩ := h.exists_fronts
  rw [← String.toList_inj, toList_toLower, toList_toLower, htoken, htext, List.map_append,
    List.map_append, hletters]

end Expression

namespace Source

variable {value : String} {root : Rule} {trees : List Tree} {source : Source}

/-- The source keeps the token that it was read from, and its canonical text differs from that at
most in letter case: not at all if there are no quotes, and never in the payload of a nonce or
hash. -/
structure Retains (token : String) (source : Source) : Prop where
  raw_eq : source.raw = token
  utf8ByteSize_text : source.text.utf8ByteSize = token.utf8ByteSize
  toLower_text : source.text.toLower = token.toLower
  payload : ∃ e, source.expression? = some e ∧ (e.isQuoted = false → source.text = token) ∧
    ∃ front front' : List Char, front.length = front'.length ∧
      token.toList = front ++ e.payload ∧ source.text.toList = front' ++ e.payload

theorem retains_of_writtenAs {e : Expression} {token : String} (h : e.WrittenAs token) :
    Retains token (.written token e) where
  raw_eq := rfl
  utf8ByteSize_text := h.utf8ByteSize_text
  toLower_text := h.toLower_text
  payload := by
    obtain ⟨front, front', hletters, htoken, htext⟩ := h.exists_fronts
    have hlength : front.length = front'.length := by
      simpa using congrArg List.length hletters
    exact ⟨e, rfl, h.text_eq, front, front', hlength, htoken, htext⟩

/-- The rules of the two kinds of source lists. -/
def listRules : List Rule :=
  [.serializedSourceList, .ancestorSourceListRoot]

/-- What either grammar matches is interpreted, each word as a source that is written so. -/
theorem exists_spells_of_trees (hroot : root ∈ listRules) (list : Rule)
    (h : root.trees value = .ok trees) :
    ∃ tree sources, trees = [tree] ∧ interpret value list tree = pure sources ∧
      List.Forall₂ (Spells Expression.IsAny) (words isBlank value.toList) sources := by
  simp only [listRules, List.mem_cons, List.not_mem_nil, or_false] at hroot
  rcases hroot with rfl | rfl
  · exact (isReader_source list).exists_of_trees [.sourceExpression, .ancestorSource] (Or.inl rfl)
      (by simp) (by simp) (by simp) h
  · obtain ⟨tree, sources, hsingle, hread, hspelled⟩ := (isReader_ancestor list).exists_of_trees
      [.sourceExpression, .ancestorSource] (Or.inl rfl) (by simp) (by simp) (by simp) h
    exact ⟨tree, sources, hsingle, hread, (forall₂_spells_iff.mp hspelled).1⟩

/-! ### Sources that were made -/

/-- The source comes from a constructor, and may have been given parts of a host after that. -/
inductive Built : Source → Prop
  | none : Built .none
  | scheme (name : String) : Built (.ofExpression (.scheme name))
  | host (name : String) : Built (.ofHost name)
  | keyword (word : String) : Built (.ofExpression (.ofKeyword word))
  | nonce (value : String) : Built (.ofExpression (.nonce value))
  | hash (algorithm : HashAlgorithm) (digest : String) :
      Built (.ofExpression (.hash algorithm digest))
  | withPart {source : Source} (h : Built source) (part : Host.Part) (value : String) :
      Built (source.withPart part value)

/-- Giving a part keeps the texts in step. -/
theorem raw_withPart (h : source.raw = source.text) (part : Host.Part) (value : String) :
    (source.withPart part value).raw = (source.withPart part value).text := by
  rcases source with _ | ⟨raw, e⟩
  · exact h
  · cases e with
    | host parts => rfl
    | scheme name => exact h
    | keyword word => exact h
    | nonce value => exact h
    | hash algorithm digest => exact h

theorem Built.raw_eq_text (h : Built source) : source.raw = source.text := by
  induction h with
  | none => rfl
  | scheme name => rfl
  | host name => rfl
  | keyword word => rfl
  | nonce value => rfl
  | hash algorithm digest => rfl
  | withPart _ part value ih => exact raw_withPart ih part value

end Source

namespace Host

variable {host other : Host}

/-- A part of a host source, if it has it. -/
def part? (host : Host) : Part → Option String
  | .scheme => host.scheme
  | .port => host.port
  | .path => host.path

theorem eq_of_parts (hname : host.name = other.name)
    (hparts : ∀ part, host.part? part = other.part? part) : host = other := by
  rcases host with ⟨scheme, name, port, path⟩
  rcases other with ⟨scheme', name', port', path'⟩
  obtain rfl : name = name' := hname
  obtain rfl : scheme = scheme' := hparts .scheme
  obtain rfl : port = port' := hparts .port
  obtain rfl : path = path' := hparts .path
  rfl

theorem part?_set (host : Host) (part other : Part) (value : String) :
    (host.set part value).part? other = if other = part then some value else host.part? other := by
  cases part <;> cases other <;> rfl

theorem name_set (host : Host) (part : Part) (value : String) :
    (host.set part value).name = host.name := by
  cases part <;> rfl

/-- A name alone is its own text. -/
theorem text_mk (name : String) : text { name } = name := by
  simp [text]

/-- Give parts one after the other. -/
def setAll (host : Host) (given : List (Part × String)) : Host :=
  given.foldl (fun host (part, value) => host.set part value) host

theorem setAll_cons (host : Host) (part : Part) (value : String) (given : List (Part × String)) :
    host.setAll ((part, value) :: given) = (host.set part value).setAll given := rfl

/-- **Of the values that are given for a part the last one counts**, whatever is given between. -/
theorem part?_setAll (host : Host) (given : List (Part × String)) (part : Part) :
    (host.setAll given).part? part = (given.reverse.lookup part).or (host.part? part) := by
  induction given generalizing host with
  | nil => rfl
  | cons first given ih =>
    obtain ⟨own, value⟩ := first
    rw [setAll_cons, ih, part?_set, List.reverse_cons, List.lookup_append, Option.or_assoc]
    by_cases hown : part = own
    · rw [hown, List.lookup_cons_self, if_pos rfl, Option.some_or]
    · rw [List.lookup_cons, beq_false_of_ne hown, if_neg hown, List.lookup_nil, Option.none_or]

theorem name_setAll (host : Host) (given : List (Part × String)) :
    (host.setAll given).name = host.name := by
  induction given generalizing host with
  | nil => rfl
  | cons first given ih => exact (ih _).trans (name_set host _ _)

/-- What a name becomes with the parts that are given to it. -/
theorem setAll_mk (name : String) (given : List (Part × String)) :
    setAll { name } given = {
      scheme := given.reverse.lookup .scheme
      name
      port := given.reverse.lookup .port
      path := given.reverse.lookup .path } := by
  refine eq_of_parts (name_setAll _ _) fun part => ?_
  rw [part?_setAll]
  cases part <;> exact Option.or_none

end Host

namespace Source

/-- Give parts one after the other. -/
def withParts (source : Source) (given : List (Host.Part × String)) : Source :=
  given.foldl (fun source (part, value) => source.withPart part value) source

theorem Built.withParts {source : Source} (h : Built source) (given : List (Host.Part × String)) :
    Built (source.withParts given) := by
  induction given generalizing source with
  | nil => exact h
  | cons first given ih => exact ih (h.withPart first.1 first.2)

/-- A host stays one when it is given parts, and is written anew. -/
theorem withParts_host (parts : Host) (given : List (Host.Part × String)) :
    withParts (.ofExpression (.host parts)) given = .ofExpression (.host (parts.setAll given)) := by
  induction given generalizing parts with
  | nil => rfl
  | cons first given ih => exact ih _

/-- **The two texts of a source differ at most in letter case.**  What either grammar matches is
interpreted, and each source keeps its word.  A source that was made has one text for both, and that
of a host with parts has its name and what was given last for each of them. -/
theorem raw_matches_text :
    (∀ root ∈ listRules, ∀ (value : String) (list : Rule) (trees : List Tree),
      root.trees value = .ok trees →
        ∃ tree sources, trees = [tree] ∧ interpret value list tree = pure sources ∧
          List.Forall₂ Retains (fields isBlank value) sources) ∧
    (∀ source, Built source → source.raw = source.text) ∧
    ∀ (name : String) (given : List (Host.Part × String)),
      (ofHost name).raw = name ∧ Built ((ofHost name).withParts given) ∧
      ((ofHost name).withParts given).text = Host.text {
        scheme := given.reverse.lookup .scheme
        name
        port := given.reverse.lookup .port
        path := given.reverse.lookup .path } := by
  refine ⟨?_, fun source h => h.raw_eq_text, ?_⟩
  · intro root hroot value list trees h
    obtain ⟨tree, sources, hsingle, hread, hspelled⟩ := exists_spells_of_trees hroot list h
    refine ⟨tree, sources, hsingle, hread, ?_⟩
    rw [fields_eq, List.forall₂_map_left_iff]
    refine hspelled.imp ?_
    rintro token source ⟨e, -, hwritten, rfl⟩
    exact retains_of_writtenAs hwritten
  · intro name given
    refine ⟨Host.text_mk name, (Built.host name).withParts given, ?_⟩
    rw [ofHost, withParts_host, Host.setAll_mk]
    rfl

theorem raw_matches_text_nonce :
    Rule.serializedSourceList ∈ listRules ∧
      ∃ trees, Rule.serializedSourceList.trees "'NONCE-aB=' HTTPS:" = .ok trees ∧
        ∃ tree sources, trees = [tree] ∧
          interpret "'NONCE-aB=' HTTPS:" .serializedSourceList tree = pure sources ∧
          List.Forall₂ Retains ["'NONCE-aB='", "HTTPS:"] sources ∧
      Built ((ofHost "a").withParts [(.port, "1"), (.path, "/"), (.port, "*")]) ∧
        ((ofHost "a").withParts [(.port, "1"), (.path, "/"), (.port, "*")]).raw = "a:*/" := by
  have hroot : Rule.serializedSourceList ∈ listRules := by simp [listRules]
  have haccepted : (Rule.serializedSourceList.trees "'NONCE-aB=' HTTPS:").toBool = true := by
    decide +kernel
  have hwords : fields isBlank "'NONCE-aB=' HTTPS:" = ["'NONCE-aB='", "HTTPS:"] := by
    decide +kernel
  obtain ⟨trees, htrees⟩ := exists_ok_of_toBool haccepted
  obtain ⟨hread, hbuilt, hparts⟩ := raw_matches_text
  obtain ⟨tree, sources, hsingle, hsources, hretained⟩ :=
    hread _ hroot _ .serializedSourceList _ htrees
  obtain ⟨-, hhost, htext⟩ := hparts "a" [(.port, "1"), (.path, "/"), (.port, "*")]
  refine ⟨hroot, trees, htrees, tree, sources, hsingle, hsources, hwords ▸ hretained, hhost, ?_⟩
  rw [hbuilt _ hhost, htext]
  decide

end Source

end ContentSecurity

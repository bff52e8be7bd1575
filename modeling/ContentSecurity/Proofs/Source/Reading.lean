import ContentSecurity.Proofs.Grammar.Lists
import ContentSecurity.Proofs.Source.Forms
/-!
# Reading sources

A source expression is an ordered choice, and a source list reads one for each word.  Each
alternative reads texts of its form only, and takes each of them in front of a break
(`IsAlternative`); since no text is of two forms, an alternative that stands before the right one
fails.  So the order does not matter, and a list is read as the forms say.
-/

namespace ContentSecurity

open Text Grammar
open String (utf8Len)

variable {token rest front back : List Char} {input : String} {trees : List Tree}
variable {allows : Expression → Prop}

/-- The tree covers the token and has this meaning. -/
structure Expression.ReadFrom (input : String) (token : List Char) (tree : Tree)
    (e : Expression) : Prop where
  text : tree.text input = .ofList token
  meaning : Expression.ofTree input tree = pure e
  written : e.WrittenAs (.ofList token)

/-- One alternative of a choice among the allowed sources: it reads sources of one form, and takes
each of them in front of a break.  Without quotes it also looks for the break. -/
structure IsAlternative (allows : Expression → Prop) (form : Rule) (phrase : Phrase) : Prop where
  reads : ∀ {input : String} {front token back : List Char} {trees : List Tree},
    input.toList = front ++ (token ++ back) → phrase.Derives (utf8Len front) token back trees →
      ∃ tree e, trees = [tree] ∧ e.ReadFrom input token tree ∧ allows e ∧ e.form = form ∧
        (e.isQuoted = false → Stops (!isBlank ·) back)
  takes : ∀ {e : Expression} {token rest : List Char}, allows e → e.form = form →
    e.WrittenAs (.ofList token) → Stops (!isBlank ·) rest → phrase.Takes token rest

/-! ### The end of a source -/

theorem takes_sourceEnd (h : Stops (!isBlank ·) rest) : Phrase.sourceEnd.Takes [] rest := by
  cases rest with
  | nil =>
    have hblank : (Phrase.text .blank).Fails [] :=
      Phrase.fails_text (Lexeme.fails_one stops_nil)
    have hends : (Phrase.alt (.text .blank) .finish).Takes [] [] :=
      Phrase.takes_finish.alt_right hblank
    exact hends.ahead
  | cons c rest =>
    have hc : isBlank c = true := by simpa using h
    have hblank : (Phrase.text .blank).Takes [c] rest :=
      Phrase.takes_text (Lexeme.takes_one hc)
    have hends : (Phrase.alt (.text .blank) .finish).Takes [c] rest := hblank.alt_left
    exact hends.ahead

theorem stops_of_derives_sourceEnd {offset : Nat}
    (h : Phrase.sourceEnd.Derives offset token back trees) :
    token = [] ∧ trees = [] ∧ Stops (!isBlank ·) back := by
  rcases h with ⟨rfl, rfl, s, t, ss, rfl, ⟨⟨c, hc, rfl⟩, -⟩ | ⟨rfl, rfl, -⟩⟩
  · exact ⟨rfl, rfl, by simpa using hc⟩
  · exact ⟨rfl, rfl, stops_nil⟩

/-! ### Schemes -/

theorem isAlternative_scheme (hallows : ∀ name, allows (.scheme name)) :
    IsAlternative allows .schemeSource Phrase.schemeSource where
  reads := by
    rintro input front token back trees hinput ⟨_, ⟨name, _, _, _, ⟨hname, rfl⟩,
      ⟨colon, _, _, _, ⟨hcolon, rfl⟩, hend, rfl, rfl⟩, rfl, rfl⟩, rfl⟩
    obtain ⟨rfl, rfl, hbreak⟩ := stops_of_derives_sourceEnd hend
    obtain rfl := Lexeme.mem_language_literal.mp hcolon
    have hplace : input.toList = front ++ (name ++ (":".toList ++ back)) := by
      rw [hinput]
      simp
    have htext := Tree.text_of_append .schemePart [] hplace
    refine ⟨_, .scheme (.ofList name), rfl, ⟨?_, ?_, ?_⟩, hallows _, rfl, fun _ => hbreak⟩
    · exact Tree.text_of_append .schemeSource _ hinput
    · simp [Expression.ofTree, Tree.part, Tree.part?_mk, htext]
    · refine ⟨by simpa [Lexeme.Matches] using hname, ?_⟩
      rw [← String.toList_inj]
      simp
  takes := by
    intro e token rest _ hform hwritten hrest
    cases e with
    | scheme name =>
      rcases hwritten with ⟨hname, htoken⟩
      have hsplit : token = name.toList ++ (":".toList ++ []) := by
        rw [← String.toList_inj] at htoken
        simpa using htoken
      have hstop : Stops isSchemeChar (":".toList ++ [] ++ rest) := by
        simp [isSchemeChar]
      have hscheme : Phrase.schemePart.Takes name.toList (":".toList ++ [] ++ rest) :=
        Phrase.takes_token (Lexeme.takes_schemePart hname hstop)
      have hcolon := Phrase.takes_literal ":" ([] ++ rest)
      rw [hsplit]
      exact (hscheme.seq (hcolon.seq (takes_sourceEnd hrest))).node
    | _ => cases hform

/-! ### Hosts -/

theorem exists_scheme_of_derives {offset : Nat}
    (h : (Phrase.opt (.seq .schemePart (.text (.literal "://")))).Derives offset token rest trees) :
    ∃ scheme : Option String, (∀ text ∈ scheme, Lexeme.schemePart.Matches text) ∧
      token = Host.lead { scheme, name := "" } ∧ trees = Tree.ofPart .schemePart offset scheme := by
  rcases Phrase.derives_opt.mp h with
    ⟨scheme, slashes, _, _, ⟨hscheme, rfl⟩, ⟨hslashes, rfl⟩, rfl, rfl⟩ | ⟨rfl, rfl⟩
  · obtain rfl := Lexeme.mem_language_literal.mp hslashes
    refine ⟨some (.ofList scheme), ?_, by simp [Host.lead],
      by simp [Tree.ofPart, String.utf8ByteSize_ofList]⟩
    simpa [Lexeme.Matches] using hscheme
  · exact ⟨none, by simp, rfl, rfl⟩

theorem exists_port_of_derives {offset : Nat}
    (h : (Phrase.opt (.seq (.text (.literal ":")) (.token .portPart .portPart))).Derives offset
      token rest trees) :
    ∃ port : Option String, (∀ text ∈ port, Lexeme.portPart.Matches text) ∧
      token = Host.portText { port, name := "" } ∧
        trees = Tree.ofPart .portPart (offset + utf8Len [':']) port := by
  rcases Phrase.derives_opt.mp h with
    ⟨colon, port, _, _, ⟨hcolon, rfl⟩, ⟨hport, rfl⟩, rfl, rfl⟩ | ⟨rfl, rfl⟩
  · obtain rfl := Lexeme.mem_language_literal.mp hcolon
    refine ⟨some (.ofList port), ?_, by simp [Host.portText],
      by simp [Tree.ofPart, String.utf8ByteSize_ofList]⟩
    simpa [Lexeme.Matches] using hport
  · exact ⟨none, by simp, rfl, rfl⟩

theorem ofTree_hostSource {start stop : Nat} {parts : Host}
    (hscheme : Tree.part? ⟨.hostSource, start, stop, trees⟩ input .schemePart = parts.scheme)
    (hname : Tree.part? ⟨.hostSource, start, stop, trees⟩ input .hostPart = some parts.name)
    (hport : Tree.part? ⟨.hostSource, start, stop, trees⟩ input .portPart = parts.port)
    (hpath : Tree.part? ⟨.hostSource, start, stop, trees⟩ input .pathPart = parts.path) :
    Expression.ofTree input ⟨.hostSource, start, stop, trees⟩ = pure (.host parts) := by
  simp only [Expression.ofTree, Tree.part, hscheme, hname, hport, hpath]
  rfl

section

variable {name : Tree} {a b c : Nat} {scheme port path : Option String}

/-- The parts of a host source, the optional ones where they are given. -/
def hostParts (name : Tree) (a b c : Nat) (scheme port path : Option String) : List Tree :=
  Tree.ofPart .schemePart a scheme ++
    ([name] ++ (Tree.ofPart .portPart b port ++ (Tree.ofPart .pathPart c path ++ [])))

theorem find?_schemePart_host (hname : name.rule = .hostPart) :
    (hostParts name a b c scheme port path).find? (·.rule = .schemePart) =
      (Tree.ofPart .schemePart a scheme).find? (·.rule = .schemePart) := by
  simp [hostParts, Tree.find?_ofPart_of_ne, hname]

theorem find?_hostPart_host (hname : name.rule = .hostPart) :
    (hostParts name a b c scheme port path).find? (·.rule = .hostPart) = some name := by
  simp [hostParts, Tree.find?_ofPart_of_ne, hname]

theorem find?_portPart_host (hname : name.rule = .hostPart) :
    (hostParts name a b c scheme port path).find? (·.rule = .portPart) =
      (Tree.ofPart .portPart b port).find? (·.rule = .portPart) := by
  simp [hostParts, Tree.find?_ofPart_of_ne, hname]

theorem find?_pathPart_host (hname : name.rule = .hostPart) :
    (hostParts name a b c scheme port path).find? (·.rule = .pathPart) =
      (Tree.ofPart .pathPart c path).find? (·.rule = .pathPart) := by
  simp [hostParts, Tree.find?_ofPart_of_ne, hname]

end

/-- The tree of a host source at an offset. -/
def hostTree (offset : Nat) (parts : Host) : Tree :=
  let name := offset + utf8Len parts.lead
  let port := name + utf8Len parts.name.toList
  ⟨.hostSource, offset, offset + utf8Len parts.text.toList,
    hostParts ⟨.hostPart, name, port, []⟩ offset (port + utf8Len [':'])
      (port + utf8Len parts.portText) parts.scheme parts.port parts.path⟩

/-- **The tree of a host source depends on its parts only.** -/
theorem exists_host_of_derives {offset : Nat}
    (h : Phrase.hostSource.Derives offset token back trees) :
    ∃ parts : Host, parts.WellFormed ∧ token = parts.text.toList ∧ Stops (!isBlank ·) back ∧
      trees = [hostTree offset parts] := by
  obtain ⟨_, ⟨lead, _, _, _, hlead, ⟨name, _, _, _, ⟨hname, rfl⟩, ⟨colon, _, _, _, hcolon,
    ⟨slash, _, _, _, hslash, hend, rfl, rfl⟩, rfl, rfl⟩, rfl, rfl⟩, rfl, rfl⟩, rfl⟩ := h
  obtain ⟨rfl, rfl, hbreak⟩ := stops_of_derives_sourceEnd hend
  obtain ⟨scheme, hscheme, hleadText, rfl⟩ := exists_scheme_of_derives hlead
  obtain ⟨port, hport, hportText, rfl⟩ := exists_port_of_derives hcolon
  obtain ⟨path, hpath, hpathText, rfl⟩ := Tree.exists_ofPart_of_derives hslash
  let parts : Host := { scheme, name := .ofList name, port, path }
  have hname' : parts.name.toList = name := String.toList_ofList
  have hleadText' : parts.lead = lead := hleadText.symm
  have hportText' : parts.portText = colon := hportText.symm
  have hpathText' : parts.pathText = slash := hpathText.symm
  have htoken : lead ++ (name ++ (colon ++ (slash ++ []))) = parts.text.toList := by
    rw [Host.toList_text, hname', hleadText', hportText', hpathText', List.append_nil]
  refine ⟨parts, ⟨hscheme, ?_, hport, hpath⟩, htoken, hbreak, ?_⟩
  · rwa [Lexeme.Matches, hname']
  · simp only [hostTree, hname', hleadText', hportText', ← htoken]
    rfl

theorem reads_host (hallows : ∀ parts, allows (.host parts))
    (hinput : input.toList = front ++ (token ++ back))
    (h : Phrase.hostSource.Derives (utf8Len front) token back trees) :
    ∃ tree e, trees = [tree] ∧ Expression.ReadFrom input token tree e ∧ allows e ∧
      e.form = .hostSource ∧ (e.isQuoted = false → Stops (!isBlank ·) back) := by
  obtain ⟨parts, hwell, rfl, hbreak, rfl⟩ := exists_host_of_derives h
  have hcovers := Tree.text_of_append .hostSource (hostTree (utf8Len front) parts).children hinput
  rw [Host.toList_text] at hinput
  -- the texts of the four parts
  have hschemePlace : ∀ text ∈ parts.scheme, ∃ back,
      input.toList = front ++ (text.toList ++ back) := by
    intro text htext
    refine
      ⟨[':', '/', '/'] ++ (parts.name.toList ++ (parts.portText ++ parts.pathText) ++ back), ?_⟩
    rw [hinput, Host.lead, Option.mem_def.mp htext]
    simp
  have hnamePlace : input.toList = front ++ parts.lead ++
      (parts.name.toList ++ (parts.portText ++ parts.pathText ++ back)) := by
    rw [hinput]
    simp
  have hportPlace : ∀ text ∈ parts.port, ∃ back,
      input.toList =
        front ++ parts.lead ++ parts.name.toList ++ [':'] ++ (text.toList ++ back) := by
    intro text htext
    refine ⟨parts.pathText ++ back, ?_⟩
    rw [hinput, Host.portText, Option.mem_def.mp htext]
    simp
  have hpathPlace : ∀ text ∈ parts.path, ∃ back,
      input.toList = front ++ parts.lead ++ parts.name.toList ++ parts.portText ++
        (text.toList ++ back) := by
    intro text htext
    refine ⟨back, ?_⟩
    rw [hinput, Host.pathText, Option.mem_def.mp htext]
    simp
  have hnameText := Tree.text_of_append .hostPart [] hnamePlace
  have hscheme' := Tree.text_find?_ofPart .schemePart hschemePlace
  have hport' := Tree.text_find?_ofPart .portPart hportPlace
  have hpath' := Tree.text_find?_ofPart .pathPart hpathPlace
  simp only [String.utf8Len_append] at hnameText hport' hpath'
  rw [String.ofList_toList] at hnameText
  refine ⟨_, .host parts, rfl, ⟨hcovers, ?_, hwell, ?_⟩, hallows _, rfl, fun _ => hbreak⟩
  · apply ofTree_hostSource
    · rw [Tree.part?_mk (by decide), find?_schemePart_host rfl, hscheme']
    · rw [Tree.part?_mk (by decide), find?_hostPart_host rfl, Option.map_some, hnameText]
    · rw [Tree.part?_mk (by decide), find?_portPart_host rfl, hport']
    · rw [Tree.part?_mk (by decide), find?_pathPart_host rfl, hpath']
  · rw [String.ofList_toList]

theorem takes_pathText {parts : Host} (h : parts.WellFormed) (hrest : Stops (!isBlank ·) rest) :
    (Phrase.opt (.token .pathPart .pathPart)).Takes parts.pathText rest := by
  cases hpart : parts.path with
  | some path =>
    have hstop : Stops (fun c => isPathChar c || c == '%') rest := by
      apply stops_of_break hrest
      intro c hc
      rcases Bool.or_eq_true _ _ ▸ hc with hc | hc
      · exact isValueChar_of_isPathChar hc
      · rw [beq_iff_eq.mp hc]
        decide
    rw [Host.pathText, hpart]
    exact (Phrase.takes_token (Lexeme.takes_pathPart (h.path _ hpart) hstop)).opt
  | none =>
    have hslash : (Lexeme.literal "/").Fails rest := by
      apply Lexeme.fails_literal
      rintro ⟨tail, rfl⟩
      simp [isBlank] at hrest
    rw [Host.pathText, hpart]
    exact Phrase.takes_opt_nil (Phrase.fails_token hslash.seq_left)

theorem takes_portText {parts : Host} (h : parts.WellFormed) (hrest : Stops (!isBlank ·) rest) :
    (Phrase.opt (.seq (.text (.literal ":")) (.token .portPart .portPart))).Takes
      parts.portText (parts.pathText ++ rest) := by
  cases hpart : parts.port with
  | some port =>
    have hstop : Stops Char.isDigit (parts.pathText ++ rest) := by
      apply stops_append
      · rcases h.pathText_cases with ⟨-, htext⟩ | ⟨tail, htext, -⟩ <;> simp [htext]
      · exact stops_of_break hrest fun c => isValueChar_of_isDigit
    have hcolon := Phrase.takes_literal ":" (port.toList ++ (parts.pathText ++ rest))
    rw [Host.portText, hpart]
    exact (hcolon.seq (Phrase.takes_token (Lexeme.takes_portPart (h.port _ hpart) hstop))).opt
  | none =>
    have hcolon : (Lexeme.literal ":").Fails (parts.pathText ++ rest) := by
      apply Lexeme.fails_literal
      rintro ⟨tail, htail⟩
      rcases h.pathText_cases with ⟨-, htext⟩ | ⟨path, htext, -⟩
      · rw [htext, List.nil_append] at htail
        rw [← htail] at hrest
        simp [isBlank] at hrest
      · simp [htext] at htail
    rw [Host.portText, hpart]
    exact Phrase.takes_opt_nil (Phrase.fails_text hcolon).seq_left

theorem takes_hostName {parts : Host} (h : parts.WellFormed) (hrest : Stops (!isBlank ·) rest) :
    (Phrase.token .hostPart .hostPart).Takes parts.name.toList
      (parts.portText ++ parts.pathText ++ rest) := by
  have hstop : Stops Lexeme.isHostChar (parts.portText ++ parts.pathText ++ rest) := by
    apply stops_append
    · exact h.stops_portText.mono fun c => isUncut_of_isHostChar
    · exact stops_of_break hrest fun c => Lexeme.isValueChar_of_isHostChar
  exact Phrase.takes_token (Lexeme.takes_hostPart h.name hstop)

/-- No scheme is read where a host without one stands: the scheme would be its name, and the
slashes would follow the name. -/
theorem fails_scheme {parts : Host} (h : parts.WellFormed) (hrest : Stops (!isBlank ·) rest) :
    (Phrase.seq .schemePart (.text (.literal "://"))).Fails
      (parts.name.toList ++ (parts.portText ++ parts.pathText) ++ rest) := by
  apply Phrase.fails_of_forall_prefix
  rintro s t offset trees heq ⟨scheme, slashes, _, _, ⟨hscheme, -⟩, ⟨hslashes, -⟩, rfl, -⟩
  obtain rfl := Lexeme.mem_language_literal.mp hslashes
  have hcut : ∀ {c : Char}, isUncut c → isValueChar c → (isUncut c && !isBlank c) = true := by
    intro c hc hvisible
    simp [hc, isBlank_eq_false_of_isValueChar hvisible]
  have hscheme' : ∀ c ∈ scheme, (isUncut c && !isBlank c) = true := by
    intro c hc
    have hchar := Lexeme.over_schemePart.forall_mem hscheme c hc
    exact hcut (isUncut_of_isSchemeChar hchar) (isValueChar_of_isSchemeChar hchar)
  have hname' : ∀ c ∈ parts.name.toList, (isUncut c && !isBlank c) = true := by
    intro c hc
    have hchar := Lexeme.over_hostPart.forall_mem h.name c hc
    exact hcut (isUncut_of_isHostChar hchar) (Lexeme.isValueChar_of_isHostChar hchar)
  have hstop : Stops (fun c => isUncut c && !isBlank c)
      (parts.portText ++ parts.pathText ++ rest) := by
    apply stops_append
    · exact h.stops_portText.mono fun c hc => (Bool.and_eq_true _ _ ▸ hc).1
    · exact hrest.mono fun c hc => (Bool.and_eq_true _ _ ▸ hc).2
  have heq' : parts.name.toList ++ (parts.portText ++ parts.pathText ++ rest) =
      scheme ++ ("://".toList ++ t) := by
    rw [← List.append_assoc, heq, List.append_assoc]
  have htail := (append_inj_of_stops heq' hname' hstop hscheme' (by simp [isUncut])).2
  exact h.not_slashes hrest htail

theorem takes_lead {parts : Host} (h : parts.WellFormed) (hrest : Stops (!isBlank ·) rest) :
    (Phrase.opt (.seq .schemePart (.text (.literal "://")))).Takes parts.lead
      (parts.name.toList ++ (parts.portText ++ parts.pathText) ++ rest) := by
  cases hpart : parts.scheme with
  | some scheme =>
    have hslashes := Phrase.takes_literal "://"
      (parts.name.toList ++ (parts.portText ++ parts.pathText) ++ rest)
    have hscheme : Phrase.schemePart.Takes scheme.toList ("://".toList ++
        (parts.name.toList ++ (parts.portText ++ parts.pathText) ++ rest)) :=
      Phrase.takes_token (Lexeme.takes_schemePart (h.scheme _ hpart) (by simp [isSchemeChar]))
    rw [Host.lead, hpart]
    exact (hscheme.seq hslashes).opt
  | none =>
    rw [Host.lead, hpart]
    exact Phrase.takes_opt_nil (fails_scheme h hrest)

theorem takes_host {parts : Host} (h : parts.WellFormed) (hrest : Stops (!isBlank ·) rest) :
    Phrase.hostSource.Takes parts.text.toList rest := by
  have hpath : (Phrase.opt (.token .pathPart .pathPart)).Takes parts.pathText ([] ++ rest) :=
    takes_pathText h hrest
  have hport : (Phrase.opt (.seq (.text (.literal ":")) (.token .portPart .portPart))).Takes
      parts.portText (parts.pathText ++ [] ++ rest) := by
    rw [List.append_nil]
    exact takes_portText h hrest
  have hname : (Phrase.token .hostPart .hostPart).Takes parts.name.toList
      (parts.portText ++ (parts.pathText ++ []) ++ rest) := by
    rw [List.append_nil]
    exact takes_hostName h hrest
  have hlead : (Phrase.opt (.seq .schemePart (.text (.literal "://")))).Takes parts.lead
      (parts.name.toList ++ (parts.portText ++ (parts.pathText ++ [])) ++ rest) := by
    rw [List.append_nil]
    exact takes_lead h hrest
  rw [Host.toList_text, ← List.append_nil parts.pathText]
  exact (hlead.seq (hname.seq (hport.seq (hpath.seq (takes_sourceEnd hrest))))).node

theorem isAlternative_host (hallows : ∀ parts, allows (.host parts)) :
    IsAlternative allows .hostSource Phrase.hostSource where
  reads := fun hinput h => reads_host hallows hinput h
  takes := by
    intro e token rest _ hform hwritten hrest
    cases e with
    | host parts =>
      rcases hwritten with ⟨hparts, htoken⟩
      have htext : token = parts.text.toList := by rw [← htoken, String.toList_ofList]
      rw [htext]
      exact takes_host hparts hrest
    | _ => cases hform

/-! ### Quoted words -/

theorem isUpper_eq_false_of_keyword :
    ∀ word ∈ sourceKeywords, ∀ c ∈ (Lexeme.quotedText word).toList, c.isUpper = false := by
  decide

theorem keyword_free : ∀ v ∈ sourceKeywords, ∀ w ∈ sourceKeywords,
    (Lexeme.quotedText v).toList <+: (Lexeme.quotedText w).toList → v = w := by
  decide

/-- The keywords of a list are some of the nine; those and no others have to be allowed. -/
theorem isAlternative_keyword {words : List String} {rule : Rule}
    (hwords : ∀ word ∈ words, word ∈ sourceKeywords)
    (hallows : ∀ word ∈ sourceKeywords, allows (.keyword word) ↔ word ∈ words)
    (hrule : rule = .keywordSource ∨ rule = .ancestorKeywordSource) :
    IsAlternative allows .keywordSource
      (.token rule (.oneOf (words.map Lexeme.quotedWord))) where
  reads := by
    rintro input front token back trees hinput ⟨htoken, rfl⟩
    obtain ⟨word, hword, hlower⟩ := (Lexeme.mem_language_oneOf_quotedWord fun word hword =>
      isUpper_eq_false_of_keyword word (hwords word hword)).mp htoken
    have hkeyword := hwords word hword
    have hplain : ∀ word ∈ sourceKeywords, ∀ c ∈ word.toList, c ≠ '\x27' := by decide
    have htext := Tree.text_of_append rule [] hinput
    have hmeaning := Lexeme.toLower_unquoted hlower (hplain word hkeyword)
    refine ⟨_, .keyword word, rfl, ⟨htext, ?_, hkeyword, hlower⟩, (hallows word hkeyword).mpr hword,
      rfl, fun hquoted => by cases hquoted⟩
    rcases hrule with rfl | rfl <;>
      simp only [Expression.ofTree, htext, Expression.ofKeyword, hmeaning]
  takes := by
    intro e token rest hallowed hform hwritten _
    cases e with
    | keyword word =>
      rcases hwritten with ⟨hkeyword, hlower⟩
      have hword := (hallows word hkeyword).mp hallowed
      apply Phrase.takes_token
      apply Lexeme.takes_oneOf_quotedWord hword _ _ hlower
      · intro word hword
        exact isUpper_eq_false_of_keyword word (hwords word hword)
      · intro v hv w hw
        exact keyword_free v (hwords v hv) w (hwords w hw)
    | _ => cases hform

theorem takes_base64Value_quote {value : String} (h : Lexeme.base64Value.Matches value)
    (rest : List Char) : Phrase.base64Value.Takes value.toList ("'".toList ++ rest) :=
  Phrase.takes_token (Lexeme.takes_base64Value h (by simp [isBase64Char]))

theorem ofTree_nonceSource {start stop : Nat} {value : String} (hcount : trees.length = 1)
    (hvalue : Tree.part? ⟨.nonceSource, start, stop, trees⟩ input .base64Value = some value) :
    Expression.ofTree input ⟨.nonceSource, start, stop, trees⟩ = pure (.nonce value) := by
  simp only [Expression.ofTree, Tree.checkCount, Tree.part, hcount, hvalue]
  rfl

theorem ofTree_hashSource {start stop : Nat} {name digest : String} {algorithm : HashAlgorithm}
    (hcount : trees.length = 2) (halgorithm : HashAlgorithm.parse? name = some algorithm)
    (hname : Tree.part? ⟨.hashSource, start, stop, trees⟩ input .hashAlgorithm = some name)
    (hdigest : Tree.part? ⟨.hashSource, start, stop, trees⟩ input .base64Value = some digest) :
    Expression.ofTree input ⟨.hashSource, start, stop, trees⟩ = pure (.hash algorithm digest) := by
  simp only [Expression.ofTree, Tree.checkCount, Tree.part, hcount, hname, hdigest, if_true,
    pure_bind, halgorithm]

theorem reads_nonce (hallows : ∀ value, allows (.nonce value))
    (hinput : input.toList = front ++ (token ++ back))
    (h : Phrase.nonceSource.Derives (utf8Len front) token back trees) :
    ∃ tree e, trees = [tree] ∧ Expression.ReadFrom input token tree e ∧ allows e ∧
      e.form = .nonceSource ∧ (e.isQuoted = false → Stops (!isBlank ·) back) := by
  obtain ⟨_, ⟨_, _, _, _, ⟨hopening, rfl⟩, ⟨label, _, _, _, ⟨hlabel, rfl⟩, ⟨value, _, _, _,
    ⟨hvalue, rfl⟩, ⟨hclosing, rfl⟩, rfl, rfl⟩, rfl, rfl⟩, rfl, rfl⟩, rfl⟩ := h
  obtain rfl := Lexeme.mem_language_literal.mp hopening
  obtain rfl := Lexeme.mem_language_literal.mp hclosing
  have hsmall : "nonce-".toLower = "nonce-" := toLower_eq_self (by decide)
  have hlower : (String.ofList label).toLower = "nonce-" := by
    rw [← String.toList_inj, toList_toLower, String.toList_ofList,
      Lexeme.mem_language_word.mp hlabel, ← toList_toLower, hsmall]
  have hplace : input.toList = front ++ "'".toList ++ label ++ (value ++ ("'".toList ++ back)) := by
    rw [hinput]
    simp
  have htext := Tree.text_of_append .base64Value [] hplace
  rw [String.utf8Len_append, String.utf8Len_append] at htext
  refine ⟨_, .nonce (.ofList value), rfl, ⟨Tree.text_of_append .nonceSource _ hinput, ?_, ?_⟩,
    hallows _, rfl, fun hquoted => by cases hquoted⟩
  · apply ofTree_nonceSource rfl
    rw [← htext]
    exact Tree.part?_cons_self (by simp) input
  · refine ⟨by simpa [Lexeme.Matches] using hvalue, .ofList label, hlower, ?_⟩
    rw [← String.toList_inj]
    simp

theorem takes_nonce {value : String} (h : (Expression.nonce value).WrittenAs (.ofList token))
    (rest : List Char) : Phrase.nonceSource.Takes token rest := by
  rcases h with ⟨hvalue, label, hlabel, htoken⟩
  have hsplit : token = "'".toList ++ (label.toList ++ (value.toList ++ "'".toList)) := by
    rw [← String.toList_inj] at htoken
    simpa using htoken
  have hopening := Phrase.takes_literal "'" (label.toList ++ (value.toList ++ "'".toList) ++ rest)
  have hword : (Phrase.text (.word "nonce-")).Takes label.toList
      (value.toList ++ "'".toList ++ rest) := by
    apply Phrase.takes_text
    apply Lexeme.takes_word
    rw [← toList_toLower, ← toList_toLower, hlabel, toLower_eq_self (by decide)]
  have hvalue' := takes_base64Value_quote hvalue rest
  have hclosing := Phrase.takes_literal "'" rest
  rw [hsplit]
  exact (hopening.seq (hword.seq (hvalue'.seq hclosing))).node

theorem isAlternative_nonce (hallows : ∀ value, allows (.nonce value)) :
    IsAlternative allows .nonceSource Phrase.nonceSource where
  reads := fun hinput h => reads_nonce hallows hinput h
  takes := by
    intro e token rest _ hform hwritten _
    cases e with
    | nonce value => exact takes_nonce hwritten rest
    | _ => cases hform

theorem exists_algorithm_of_mem {name : List Char} (h : name ∈ Lexeme.hashAlgorithm.language) :
    ∃ algorithm : HashAlgorithm, (String.ofList name).toLower = algorithm.name ∧
      HashAlgorithm.parse? (.ofList name) = some algorithm := by
  obtain ⟨word, hword, hname⟩ := Lexeme.mem_language_oneOf_word.mp h
  have hsmall : ∀ algorithm : HashAlgorithm, algorithm.name.toLower = algorithm.name := by
    intro algorithm
    apply toLower_eq_self
    cases algorithm <;> decide
  have hnames : ∀ word ∈ ["sha256", "sha384", "sha512"], ∃ algorithm ∈ HashAlgorithm.all,
      word = algorithm.name ∧ HashAlgorithm.ofName? word = some algorithm := by
    decide
  obtain ⟨algorithm, -, rfl, hfound⟩ := hnames word hword
  have hlower : (String.ofList name).toLower = algorithm.name := by
    rw [← hsmall, ← String.toList_inj, toList_toLower, toList_toLower, String.toList_ofList, hname]
  exact ⟨algorithm, hlower, by rw [HashAlgorithm.parse?, hlower, hfound]⟩

theorem takes_hashAlgorithm {name : String} {algorithm : HashAlgorithm}
    (h : name.toLower = algorithm.name) : Lexeme.hashAlgorithm.Takes name.toList rest := by
  have hlower := congrArg String.toList h
  rw [toList_toLower] at hlower
  have hmem : algorithm.name ∈ ["sha256", "sha384", "sha512"] := by cases algorithm <;> decide
  apply Lexeme.takes_oneOf_word hmem
  · decide
  · rw [hlower]
    cases algorithm <;> decide

theorem reads_hash (hallows : ∀ algorithm digest, allows (.hash algorithm digest))
    (hinput : input.toList = front ++ (token ++ back))
    (h : Phrase.hashSource.Derives (utf8Len front) token back trees) :
    ∃ tree e, trees = [tree] ∧ Expression.ReadFrom input token tree e ∧ allows e ∧
      e.form = .hashSource ∧ (e.isQuoted = false → Stops (!isBlank ·) back) := by
  obtain ⟨_, ⟨_, _, _, _, ⟨hopening, rfl⟩, ⟨name, _, _, _, ⟨hname, rfl⟩, ⟨_, _, _, _,
    ⟨hhyphen, rfl⟩, ⟨digest, _, _, _, ⟨hdigest, rfl⟩, ⟨hclosing, rfl⟩, rfl, rfl⟩, rfl, rfl⟩,
    rfl, rfl⟩, rfl, rfl⟩, rfl⟩ := h
  obtain rfl := Lexeme.mem_language_literal.mp hopening
  obtain rfl := Lexeme.mem_language_literal.mp hhyphen
  obtain rfl := Lexeme.mem_language_literal.mp hclosing
  obtain ⟨algorithm, hlower, halgorithm⟩ := exists_algorithm_of_mem hname
  have hnamePlace : input.toList = front ++ "'".toList ++
      (name ++ ("-".toList ++ (digest ++ ("'".toList ++ back)))) := by
    rw [hinput]
    simp
  have hdigestPlace : input.toList = front ++ "'".toList ++ name ++ "-".toList ++
      (digest ++ ("'".toList ++ back)) := by
    rw [hinput]
    simp
  have hnameText := Tree.text_of_append .hashAlgorithm [] hnamePlace
  have hdigestText := Tree.text_of_append .base64Value [] hdigestPlace
  simp only [String.utf8Len_append] at hnameText hdigestText
  refine ⟨_, .hash algorithm (.ofList digest), rfl,
    ⟨Tree.text_of_append .hashSource _ hinput, ?_, ?_⟩, hallows _ _, rfl,
    fun hquoted => by cases hquoted⟩
  · apply ofTree_hashSource rfl halgorithm
    · rw [← hnameText]
      exact Tree.part?_cons_self (by simp) input
    · rw [← hdigestText]
      exact (Tree.part?_cons_of_ne (by simp) (by simp) input).trans
        (Tree.part?_cons_self (by simp) input)
  · refine ⟨by simpa [Lexeme.Matches] using hdigest, .ofList name, hlower, ?_⟩
    rw [← String.toList_inj]
    simp

theorem takes_hash {algorithm : HashAlgorithm} {digest : String}
    (h : (Expression.hash algorithm digest).WrittenAs (.ofList token)) (rest : List Char) :
    Phrase.hashSource.Takes token rest := by
  rcases h with ⟨hdigest, name, hname, htoken⟩
  have hsplit : token = "'".toList ++
      (name.toList ++ ("-".toList ++ (digest.toList ++ "'".toList))) := by
    rw [← String.toList_inj] at htoken
    simpa using htoken
  have hopening := Phrase.takes_literal "'"
    (name.toList ++ ("-".toList ++ (digest.toList ++ "'".toList)) ++ rest)
  have hword : (Phrase.token .hashAlgorithm .hashAlgorithm).Takes name.toList
      ("-".toList ++ (digest.toList ++ "'".toList) ++ rest) :=
    Phrase.takes_token (takes_hashAlgorithm hname)
  have hhyphen := Phrase.takes_literal "-" (digest.toList ++ "'".toList ++ rest)
  have hdigest' := takes_base64Value_quote hdigest rest
  have hclosing := Phrase.takes_literal "'" rest
  rw [hsplit]
  exact (hopening.seq (hword.seq (hhyphen.seq (hdigest'.seq hclosing)))).node

theorem isAlternative_hash (hallows : ∀ algorithm digest, allows (.hash algorithm digest)) :
    IsAlternative allows .hashSource Phrase.hashSource where
  reads := fun hinput h => reads_hash hallows hinput h
  takes := by
    intro e token rest _ hform hwritten _
    cases e with
    | hash algorithm digest => exact takes_hash hwritten rest
    | _ => cases hform

end ContentSecurity

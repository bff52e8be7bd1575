import ContentSecurity.Source
import ContentSecurity.Grammar.Rule
import ContentSecurity.Proofs.Grammar.Parts
/-!
# The forms of sources

`Expression.WrittenAs` says as plain regular languages what the five forms of sources look like and
what they mean.  The forms do not overlap, and a token of a form has one meaning
(`Expression.writtenAs_unique`): quoted words start with a quote and differ in their first letters,
and the parts of a host are cut apart at the first colon or slash.
-/

namespace ContentSecurity

open Text Grammar

/-- Every part of a host source is a text of its rule. -/
structure Host.WellFormed (host : Host) : Prop where
  scheme : ∀ scheme ∈ host.scheme, Lexeme.schemePart.Matches scheme
  name : Lexeme.hostPart.Matches host.name
  port : ∀ port ∈ host.port, Lexeme.portPart.Matches port
  path : ∀ path ∈ host.path, Lexeme.pathPart.Matches path

/-- The token is a source with this meaning.  Keywords, prefixes and algorithms are written in any
letter case. -/
def Expression.WrittenAs (token : String) : Expression → Prop
  | .scheme name => Lexeme.schemePart.Matches name ∧ token = name ++ ":"
  | .host parts => parts.WellFormed ∧ token = parts.text
  | .keyword word => word ∈ sourceKeywords ∧ token.toLower = "'" ++ word ++ "'"
  | .nonce value => Lexeme.base64Value.Matches value ∧
      ∃ label, label.toLower = "nonce-" ∧ token = "'" ++ label ++ value ++ "'"
  | .hash algorithm digest => Lexeme.base64Value.Matches digest ∧
      ∃ name, name.toLower = algorithm.name ∧ token = "'" ++ name ++ "-" ++ digest ++ "'"

/-! ### Where a host is cut -/

/-- Neither a colon nor a slash. -/
def isUncut (c : Char) : Bool :=
  c != ':' && c != '/'

theorem isUncut_of_isSchemeChar {c : Char} (h : isSchemeChar c) : isUncut c := by
  by_contra hcut
  have hsign : c = ':' ∨ c = '/' := by simpa [isUncut, or_iff_not_imp_left] using hcut
  rcases hsign with rfl | rfl <;> simp [isSchemeChar] at h

theorem isUncut_of_isHostChar {c : Char} (h : Lexeme.isHostChar c) : isUncut c := by
  by_contra hcut
  have hsign : c = ':' ∨ c = '/' := by simpa [isUncut, or_iff_not_imp_left] using hcut
  rcases hsign with rfl | rfl <;> simp [Lexeme.isHostChar, isNameChar] at h

namespace Host

/-- What stands in front of the name. -/
def lead (host : Host) : List Char :=
  match host.scheme with
  | some scheme => scheme.toList ++ [':', '/', '/']
  | none => []

/-- The port with its colon. -/
def portText (host : Host) : List Char :=
  match host.port with
  | some port => ':' :: port.toList
  | none => []

def pathText (host : Host) : List Char :=
  (host.path.getD "").toList

theorem toList_text (host : Host) :
    host.text.toList = host.lead ++ (host.name.toList ++ (host.portText ++ host.pathText)) := by
  rcases host with ⟨scheme, name, port, path⟩
  cases scheme <;> cases port <;> simp [text, lead, portText, pathText]

variable {host other : Host} {rest : List Char}

namespace WellFormed

theorem isUncut_scheme (h : host.WellFormed) {scheme : String} (hs : scheme ∈ host.scheme) :
    ∀ c ∈ scheme.toList, isUncut c := by
  intro c hc
  exact isUncut_of_isSchemeChar (Lexeme.over_schemePart.forall_mem (h.scheme _ hs) c hc)

theorem isUncut_name (h : host.WellFormed) : ∀ c ∈ host.name.toList, isUncut c := by
  intro c hc
  exact isUncut_of_isHostChar (Lexeme.over_hostPart.forall_mem h.name c hc)

theorem name_ne_nil (h : host.WellFormed) : host.name.toList ≠ [] := by
  intro hnil
  have hname : host.name.toList ∈ Lexeme.hostPart.language := h.name
  rw [hnil, Lexeme.mem_language_hostPart] at hname
  rcases hname with ⟨labels, -, heq⟩ | heq | hlabels
  · simp at heq
  · simp at heq
  · obtain ⟨first, parts, dot, heq, hne, -⟩ := Lexeme.mem_language_hostLabels.mp hlabels
    simp [hne] at heq

theorem pathText_cases (h : host.WellFormed) :
    host.path = none ∧ host.pathText = [] ∨ ∃ tail, host.pathText = '/' :: tail ∧
      host.path = some (.ofList ('/' :: tail)) := by
  cases hpath : host.path with
  | none => simp [pathText, hpath]
  | some path =>
    obtain ⟨tail, -, htail⟩ := Lexeme.mem_language_pathPart.mp (h.path path hpath)
    refine Or.inr ⟨tail, by simp [pathText, hpath, htail], ?_⟩
    rw [← htail, String.ofList_toList]

theorem port_cases {port : String} (h : host.WellFormed) (hport : host.port = some port) :
    port.toList ≠ [] ∧ ∀ c ∈ port.toList, c ≠ '/' := by
  rcases Lexeme.mem_language_portPart.mp (h.port port hport) with ⟨hne, hall⟩ | hstar
  · refine ⟨hne, ?_⟩
    rintro c hc rfl
    exact absurd (hall '/' hc) (by decide)
  · simp [hstar]

/-- What follows the name starts with a sign that cuts, and what follows the port does so with a
slash. -/
theorem stops_pathText (h : host.WellFormed) : Stops (· != '/') host.pathText := by
  rcases h.pathText_cases with ⟨-, hpath⟩ | ⟨tail, hpath, -⟩ <;> simp [hpath]

theorem stops_portText (h : host.WellFormed) : Stops isUncut (host.portText ++ host.pathText) := by
  cases hport : host.port with
  | none =>
    rw [portText, hport, List.nil_append]
    exact h.stops_pathText.mono fun c hc => by simp_all [isUncut]
  | some port =>
    rw [portText, hport]
    exact stops_cons.mpr (by decide)

theorem forall_isValueChar (h : host.WellFormed) : ∀ c ∈ host.text.toList, isValueChar c := by
  intro c hc
  rw [toList_text] at hc
  rcases List.mem_append.mp hc with hc | hc
  · cases hscheme : host.scheme with
    | none => simp [lead, hscheme] at hc
    | some scheme =>
      rw [lead, hscheme] at hc
      rcases List.mem_append.mp hc with hc | hc
      · exact isValueChar_of_isSchemeChar
          (Lexeme.over_schemePart.forall_mem (h.scheme _ hscheme) c hc)
      · exact (by decide : ∀ c ∈ [':', '/', '/'], isValueChar c) c hc
  rcases List.mem_append.mp hc with hc | hc
  · exact Lexeme.isValueChar_of_isHostChar (Lexeme.over_hostPart.forall_mem h.name c hc)
  rcases List.mem_append.mp hc with hc | hc
  · cases hport : host.port with
    | none => simp [portText, hport] at hc
    | some port =>
      rw [portText, hport] at hc
      rcases List.mem_cons.mp hc with rfl | hc
      · decide
      · exact Lexeme.over_portPart.forall_mem (h.port _ hport) c hc
  · cases hpath : host.path with
    | none => simp [pathText, hpath] at hc
    | some path =>
      rw [pathText, hpath] at hc
      exact Lexeme.over_pathPart.forall_mem (h.path _ hpath) c hc

theorem port_path_unique (h : host.WellFormed) (h' : other.WellFormed)
    (heq : host.portText ++ host.pathText = other.portText ++ other.pathText) :
    host.port = other.port ∧ host.path = other.path := by
  have hpath : host.pathText = other.pathText → host.path = other.path := by
    intro hsame
    rcases h.pathText_cases with ⟨hnone, htext⟩ | ⟨tail, htext, hsome⟩
    · rcases h'.pathText_cases with ⟨hnone', -⟩ | ⟨tail', htext', -⟩
      · rw [hnone, hnone']
      · simp [htext, htext'] at hsame
    · rcases h'.pathText_cases with ⟨-, htext'⟩ | ⟨tail', htext', hsome'⟩
      · simp [htext, htext'] at hsame
      · rw [hsome, hsome', ← htext, ← htext', hsame]
  -- a port shows by the colon in front
  have hcolon : ∀ {a b : Host} {port : String}, a.port = some port → b.port = none →
      b.WellFormed → a.portText ++ a.pathText ≠ b.portText ++ b.pathText := by
    intro a b port hsome hnone hb hsame
    rw [portText, portText, hsome, hnone] at hsame
    rcases hb.pathText_cases with ⟨-, htext⟩ | ⟨tail, htext, -⟩ <;> simp [htext] at hsame
  cases hport : host.port with
  | none =>
    cases hport' : other.port with
    | none =>
      rw [portText, portText, hport, hport', List.nil_append, List.nil_append] at heq
      exact ⟨rfl, hpath heq⟩
    | some port => exact absurd heq.symm (hcolon hport' hport h)
  | some port =>
    cases hport' : other.port with
    | none => exact absurd heq (hcolon hport hport' h')
    | some port' =>
      rw [portText, portText, hport, hport', List.cons_append, List.cons_append,
        List.cons.injEq] at heq
      have hslash := fun c hc => (bne_iff_ne (a := c)).mpr ((h.port_cases hport).2 c hc)
      have hslash' := fun c hc => (bne_iff_ne (a := c)).mpr ((h'.port_cases hport').2 c hc)
      obtain ⟨hsame, htext⟩ :=
        append_inj_of_stops heq.2 hslash h.stops_pathText hslash' h'.stops_pathText
      rw [String.toList_inj.mp hsame]
      exact ⟨rfl, hpath htext⟩

theorem name_port_path_unique (h : host.WellFormed) (h' : other.WellFormed)
    (heq : host.name.toList ++ (host.portText ++ host.pathText) =
      other.name.toList ++ (other.portText ++ other.pathText)) :
    host.name = other.name ∧ host.port = other.port ∧ host.path = other.path := by
  obtain ⟨hname, htail⟩ := append_inj_of_stops heq h.isUncut_name h.stops_portText
    h'.isUncut_name h'.stops_portText
  exact ⟨String.toList_inj.mp hname, port_path_unique h h' htail⟩

/-- Behind the name of a host without a scheme there are no two slashes behind a colon. -/
theorem not_slashes (h : host.WellFormed) {tail : List Char}
    (hrest : Stops (!isBlank ·) rest) :
    host.portText ++ host.pathText ++ rest ≠ ':' :: '/' :: '/' :: tail := by
  intro heq
  cases hport : host.port with
  | none =>
    rw [portText, hport, List.nil_append] at heq
    rcases h.pathText_cases with ⟨-, htext⟩ | ⟨path, htext, -⟩
    · rw [htext, List.nil_append] at heq
      rw [heq] at hrest
      simp [isBlank] at hrest
    · simp [htext] at heq
  | some port =>
    obtain ⟨hne, hall⟩ := h.port_cases hport
    obtain ⟨c, digits, hdigits⟩ := List.exists_cons_of_ne_nil hne
    have hc : c ≠ '/' := hall c (by simp [hdigits])
    simp only [portText, hport, hdigits, List.cons_append, List.cons.injEq] at heq
    exact hc heq.2.1

end WellFormed

/-- **A host is cut into its parts in one way.** -/
theorem text_injective (h : host.WellFormed) (h' : other.WellFormed)
    (heq : host.text.toList = other.text.toList) : host = other := by
  -- a scheme shows by the slashes behind the first colon
  have hlead : ∀ {a b : Host} {scheme : String}, a.WellFormed → b.WellFormed →
      a.scheme = some scheme → b.scheme = none → a.text.toList ≠ b.text.toList := by
    intro a b scheme ha hb hsome hnone hsame
    rw [toList_text, toList_text, lead, lead, hsome, hnone, List.nil_append,
      List.append_assoc] at hsame
    obtain ⟨-, htail⟩ := append_inj_of_stops hsame (ha.isUncut_scheme hsome)
      (stops_cons.mpr (by decide)) hb.isUncut_name hb.stops_portText
    have hslashes : b.portText ++ b.pathText ++ [] =
        ':' :: '/' :: '/' :: (a.name.toList ++ (a.portText ++ a.pathText)) := by
      rw [List.append_nil, ← htail]
      rfl
    exact hb.not_slashes stops_nil hslashes
  have hparts : ∀ {a b : Host}, a.scheme = b.scheme → a.name = b.name ∧ a.port = b.port ∧
      a.path = b.path → a = b := by
    rintro ⟨⟩ ⟨⟩ hscheme ⟨hname, hport, hpath⟩
    simp_all
  cases hscheme : host.scheme with
  | none =>
    cases hscheme' : other.scheme with
    | none =>
      rw [toList_text, toList_text, lead, lead, hscheme, hscheme'] at heq
      exact hparts (by rw [hscheme, hscheme']) (h.name_port_path_unique h' heq)
    | some scheme => exact absurd heq.symm (hlead h' h hscheme' hscheme)
  | some scheme =>
    cases hscheme' : other.scheme with
    | none => exact absurd heq (hlead h h' hscheme hscheme')
    | some scheme' =>
      rw [toList_text, toList_text, lead, lead, hscheme, hscheme', List.append_assoc,
        List.append_assoc] at heq
      obtain ⟨hsame, htail⟩ := append_inj_of_stops heq (h.isUncut_scheme hscheme)
        (stops_cons.mpr (by decide)) (h'.isUncut_scheme hscheme') (stops_cons.mpr (by decide))
      refine hparts ?_ (h.name_port_path_unique h' (List.append_cancel_left htail))
      rw [hscheme, hscheme', String.toList_inj.mp hsame]

end Host

/-! ### Where a quoted word is told from another -/

namespace Expression

variable {token : String} {a b : Expression}

/-- The rule that records sources of this form. -/
def form : Expression → Rule
  | .scheme _ => .schemeSource
  | .host _ => .hostSource
  | .keyword _ => .keywordSource
  | .nonce _ => .nonceSource
  | .hash .. => .hashSource

/-- The source is written with quotes. -/
def isQuoted : Expression → Bool
  | .scheme _ | .host _ => false
  | .keyword _ | .nonce _ | .hash .. => true

/-- In small letters a quoted source starts with a mark of its form. -/
def mark : Expression → List Char
  | .scheme _ | .host _ => []
  | .keyword word => word.toList ++ ['\x27']
  | .nonce _ => ['n', 'o', 'n', 'c', 'e', '-']
  | .hash algorithm _ => algorithm.name.toList ++ ['-']

/-- What stands behind the mark. -/
def payload : Expression → List Char
  | .scheme _ | .host _ | .keyword _ => []
  | .nonce value => value.toList ++ ['\x27']
  | .hash _ digest => digest.toList ++ ['\x27']

theorem WrittenAs.exists_mark (h : a.WrittenAs token) (hquoted : a.isQuoted) :
    ∃ text, token.toList = '\x27' :: (text ++ a.payload) ∧ text.map Char.toLower = a.mark := by
  cases a with
  | scheme name => cases hquoted
  | host parts => cases hquoted
  | keyword word =>
    have hlower := congrArg String.toList h.2
    rw [toList_toLower] at hlower
    simp only [String.toList_append] at hlower
    obtain ⟨quote, text, htoken, hquote, htext⟩ := List.map_eq_cons_iff.mp hlower
    refine ⟨text, ?_, htext⟩
    rw [htoken, eq_of_toLower_eq (d := '\x27') hquote (by decide)]
    simp [payload]
  | nonce value =>
    rcases h with ⟨-, label, hlabel, rfl⟩
    refine ⟨label.toList, by simp [payload], ?_⟩
    rw [← toList_toLower, hlabel]
    rfl
  | hash algorithm digest =>
    rcases h with ⟨-, name, hname, rfl⟩
    refine ⟨name.toList ++ ['-'], by simp [payload], ?_⟩
    rw [List.map_append, ← toList_toLower, hname]
    rfl

theorem WrittenAs.exists_uncut (h : a.WrittenAs token) (hquoted : a.isQuoted = false) :
    ∃ c rest, token.toList = c :: rest ∧ c ≠ '\x27' := by
  have hquote : ∀ {c : Char}, isSchemeChar c ∨ Lexeme.isHostChar c → c ≠ '\x27' := by
    rintro c hc rfl
    revert hc
    decide
  have hscheme : ∀ {scheme : String} (tail : List Char), Lexeme.schemePart.Matches scheme →
      ∃ c rest, scheme.toList ++ tail = c :: rest ∧ c ≠ '\x27' := by
    intro scheme tail hs
    obtain ⟨c, rest, htext, hc, -⟩ := Lexeme.mem_language_schemePart.mp hs
    refine ⟨c, rest ++ tail, by rw [htext, List.cons_append], ?_⟩
    exact hquote (Or.inl (isSchemeChar_of_isAlpha hc))
  cases a with
  | scheme name =>
    rcases h with ⟨hname, rfl⟩
    rw [String.toList_append]
    exact hscheme _ hname
  | host parts =>
    rcases h with ⟨hparts, rfl⟩
    rw [Host.toList_text]
    cases hlead : parts.scheme with
    | some scheme =>
      rw [Host.lead, hlead, List.append_assoc]
      exact hscheme _ (hparts.scheme _ hlead)
    | none =>
      obtain ⟨c, rest, htext⟩ := List.exists_cons_of_ne_nil hparts.name_ne_nil
      refine ⟨c, rest ++ (parts.portText ++ parts.pathText), by simp [Host.lead, hlead, htext], ?_⟩
      exact hquote (Or.inr (Lexeme.over_hostPart.forall_mem hparts.name c (by simp [htext])))
  | keyword word => cases hquoted
  | nonce value => cases hquoted
  | hash algorithm digest => cases hquoted

theorem WrittenAs.isQuoted_eq (ha : a.WrittenAs token) (hb : b.WrittenAs token) :
    a.isQuoted = b.isQuoted := by
  have hdiffer : ∀ {x y : Expression}, x.WrittenAs token → y.WrittenAs token →
      x.isQuoted = true → y.isQuoted = false → False := by
    intro x y hx hy hquoted hplain
    obtain ⟨text, htext, -⟩ := hx.exists_mark hquoted
    obtain ⟨c, rest, hrest, hc⟩ := hy.exists_uncut hplain
    rw [htext, List.cons.injEq] at hrest
    exact hc hrest.1.symm
  cases hqa : a.isQuoted with
  | true =>
    cases hqb : b.isQuoted with
    | true => rfl
    | false => exact (hdiffer ha hb hqa hqb).elim
  | false =>
    cases hqb : b.isQuoted with
    | true => exact (hdiffer hb ha hqb hqa).elim
    | false => rfl

/-- The marks of all quoted sources. -/
def marks : List (List Char) :=
  sourceKeywords.map (fun word => word.toList ++ ['\x27']) ++ [['n', 'o', 'n', 'c', 'e', '-']] ++
    HashAlgorithm.all.map fun algorithm => algorithm.name.toList ++ ['-']

theorem WrittenAs.mark_mem (h : a.WrittenAs token) (hquoted : a.isQuoted) : a.mark ∈ marks := by
  cases a with
  | scheme name => cases hquoted
  | host parts => cases hquoted
  | keyword word =>
    exact List.mem_append_left _ (List.mem_append_left _ (List.mem_map_of_mem h.1))
  | nonce value => simp [marks, mark]
  | hash algorithm digest => cases algorithm <;> simp [marks, mark, HashAlgorithm.all]

/-- No mark starts another, so a text starts with at most one. -/
theorem mark_unique {m m' text : List Char} (hm : m ∈ marks) (hm' : m' ∈ marks)
    (h : m <+: text) (h' : m' <+: text) : m = m' := by
  have hfree : ∀ x ∈ marks, ∀ y ∈ marks, x <+: y → x = y := by decide
  rcases List.prefix_or_prefix_of_prefix h h' with hle | hle
  · exact hfree m hm m' hm' hle
  · exact (hfree m' hm' m hm hle).symm

/-- A mark tells the form: only that of a keyword ends with a quote. -/
theorem form_eq_of_mark (hqa : a.isQuoted) (hqb : b.isQuoted) (hmark : a.mark = b.mark) :
    a.form = b.form := by
  have hlast := congrArg List.getLast? hmark
  cases a with
  | scheme name => cases hqa
  | host parts => cases hqa
  | keyword word =>
    cases b with
    | scheme name => cases hqb
    | host parts => cases hqb
    | keyword word' => rfl
    | nonce value => simp [mark] at hlast
    | hash algorithm digest => simp [mark] at hlast
  | nonce value =>
    cases b with
    | scheme name => cases hqb
    | host parts => cases hqb
    | keyword word => simp [mark] at hlast
    | nonce value' => rfl
    | hash algorithm digest => cases algorithm <;> simp [mark, HashAlgorithm.name] at hmark
  | hash algorithm digest =>
    cases b with
    | scheme name => cases hqb
    | host parts => cases hqb
    | keyword word => simp [mark] at hlast
    | nonce value => cases algorithm <;> simp [mark, HashAlgorithm.name] at hmark
    | hash algorithm' digest' => rfl

theorem eq_of_mark_payload (hqa : a.isQuoted) (hqb : b.isQuoted) (hmark : a.mark = b.mark)
    (hpayload : a.payload = b.payload) : a = b := by
  have hform := form_eq_of_mark hqa hqb hmark
  cases a with
  | scheme name => cases hqa
  | host parts => cases hqa
  | keyword word =>
    cases b <;> try cases hform
    simp only [mark, List.append_cancel_right_eq, String.toList_inj] at hmark
    rw [hmark]
  | nonce value =>
    cases b <;> try cases hform
    simp only [payload, List.append_cancel_right_eq, String.toList_inj] at hpayload
    rw [hpayload]
  | hash algorithm digest =>
    cases b <;> try cases hform
    rename_i algorithm' digest'
    simp only [payload, List.append_cancel_right_eq, String.toList_inj] at hpayload
    have hname : algorithm = algorithm' := by
      cases algorithm <;> cases algorithm' <;>
        first | rfl | simp [mark, HashAlgorithm.name] at hmark
    rw [hname, hpayload]

theorem WrittenAs.mark_eq {token' : String} {text : List Char} (ha : a.WrittenAs token)
    (hb : b.WrittenAs token') (hqa : a.isQuoted) (hqb : b.isQuoted)
    (hfront : token.toList <+: text) (hfront' : token'.toList <+: text) : a.mark = b.mark := by
  have hstarts : ∀ {x : Expression} {written : String}, x.WrittenAs written → x.isQuoted →
      written.toList <+: text → '\x27' :: x.mark <+: text.map Char.toLower := by
    intro x written hx hquoted hwritten
    obtain ⟨body, hbody, hmark⟩ := hx.exists_mark hquoted
    have hlower := hwritten.map Char.toLower
    rw [hbody, List.map_cons, List.map_append, hmark, ← List.cons_append] at hlower
    exact (List.prefix_append _ _).trans hlower
  have ha' := hstarts ha hqa hfront
  have hb' := hstarts hb hqb hfront'
  rcases ha' with ⟨tail, htail⟩
  rw [← htail] at hb'
  exact mark_unique (ha.mark_mem hqa) (hb.mark_mem hqb) (List.prefix_append _ tail)
    (List.cons_prefix_cons.mp hb').2

/-- A scheme ends with the first colon, behind which a host goes on. -/
theorem WrittenAs.not_host {name : String} {parts : Host} (h : (scheme name).WrittenAs token) :
    ¬ (host parts).WrittenAs token := by
  rintro ⟨hparts, htext⟩
  rcases h with ⟨hname, rfl⟩
  have htoken := congrArg String.toList htext
  have huncut : ∀ c ∈ name.toList, isUncut c := fun c hc =>
    isUncut_of_isSchemeChar (Lexeme.over_schemePart.forall_mem hname c hc)
  have hcolon : Stops isUncut ":".toList := by simp [isUncut]
  rw [String.toList_append, Host.toList_text] at htoken
  cases hscheme : parts.scheme with
  | some scheme =>
    rw [Host.lead, hscheme, List.append_assoc] at htoken
    have htail := (append_inj_of_stops htoken huncut hcolon
      (hparts.isUncut_scheme hscheme) (stops_cons.mpr (by decide))).2
    simp at htail
  | none =>
    rw [Host.lead, hscheme, List.nil_append] at htoken
    have htail := (append_inj_of_stops htoken huncut hcolon hparts.isUncut_name
      hparts.stops_portText).2
    cases hport : parts.port with
    | none =>
      rw [Host.portText, hport] at htail
      rcases hparts.pathText_cases with ⟨-, hpath⟩ | ⟨path, hpath, -⟩ <;> simp [hpath] at htail
    | some port =>
      have hne := (hparts.port_cases hport).1
      rw [Host.portText, hport] at htail
      simp [hne] at htail

/-- **A token is of one form and has one meaning.** -/
theorem WrittenAs.unique (ha : a.WrittenAs token) (hb : b.WrittenAs token) : a = b := by
  have hsame := ha.isQuoted_eq hb
  cases hqa : a.isQuoted with
  | true =>
    have hqb : b.isQuoted = true := hsame ▸ hqa
    have hmark := ha.mark_eq hb hqa hqb List.prefix_rfl List.prefix_rfl
    obtain ⟨text, htoken, htext⟩ := ha.exists_mark hqa
    obtain ⟨text', htoken', htext'⟩ := hb.exists_mark hqb
    rw [htoken, List.cons.injEq] at htoken'
    have hlength : text.length = text'.length := by
      have := congrArg List.length (htext.trans (hmark.trans htext'.symm))
      simpa using this
    exact eq_of_mark_payload hqa hqb hmark (List.append_inj htoken'.2 hlength).2
  | false =>
    have hqb : b.isQuoted = false := hsame ▸ hqa
    cases a with
    | scheme name =>
      cases b with
      | scheme name' =>
        have heq := congrArg String.toList (ha.2.symm.trans hb.2)
        simp only [String.toList_append, List.append_cancel_right_eq, String.toList_inj] at heq
        rw [heq]
      | host parts => exact absurd hb (ha.not_host)
      | keyword word => cases hqb
      | nonce value => cases hqb
      | hash algorithm digest => cases hqb
    | host parts =>
      cases b with
      | scheme name => exact absurd ha (hb.not_host)
      | host parts' =>
        rw [Host.text_injective ha.1 hb.1 (congrArg String.toList (ha.2.symm.trans hb.2))]
      | keyword word => cases hqb
      | nonce value => cases hqb
      | hash algorithm digest => cases hqb
    | keyword word => cases hqa
    | nonce value => cases hqa
    | hash algorithm digest => cases hqa

/-! ### The canonical text -/

/-- Every part of a source is a text of its rule, and a keyword is one of the nine. -/
def WellFormed : Expression → Prop
  | .scheme name => Lexeme.schemePart.Matches name
  | .host parts => parts.WellFormed
  | .keyword word => word ∈ sourceKeywords
  | .nonce value => Lexeme.base64Value.Matches value
  | .hash _ digest => Lexeme.base64Value.Matches digest

theorem WrittenAs.wellFormed (h : a.WrittenAs token) : a.WellFormed := by
  cases a <;> exact h.1

theorem WellFormed.writtenAs_text (h : a.WellFormed) : a.WrittenAs a.text := by
  cases a with
  | scheme name => exact ⟨h, rfl⟩
  | host parts => exact ⟨h, rfl⟩
  | keyword word =>
    have hsmall : ∀ word ∈ sourceKeywords, ∀ c ∈ ("'" ++ word ++ "'").toList,
        c.isUpper = false := by decide
    exact ⟨h, toLower_eq_self (hsmall word h)⟩
  | nonce value =>
    refine ⟨h, "nonce-", toLower_eq_self (by decide), ?_⟩
    simp [text]
  | hash algorithm digest =>
    refine ⟨h, algorithm.name, toLower_eq_self ?_, rfl⟩
    cases algorithm <;> decide

/-- A quoted source is written as its mark, in any letter case, and its payload. -/
theorem WellFormed.writtenAs_of_mark {token : String} {text : List Char} (h : a.WellFormed)
    (hquoted : a.isQuoted) (htoken : token.toList = '\x27' :: (text ++ a.payload))
    (hmark : text.map Char.toLower = a.mark) : a.WrittenAs token := by
  cases a with
  | scheme name => cases hquoted
  | host parts => cases hquoted
  | keyword word =>
    refine ⟨h, String.toList_inj.mp ?_⟩
    rw [toList_toLower, htoken, List.map_cons, List.map_append, hmark]
    simp [payload, mark]
  | nonce value =>
    refine ⟨h, .ofList text, ?_, ?_⟩
    · rw [← String.toList_inj, toList_toLower, String.toList_ofList, hmark]
      rfl
    · rw [← String.toList_inj, htoken]
      simp [payload]
  | hash algorithm digest =>
    obtain ⟨name, hyphen, rfl, hname, hhyphen⟩ := List.map_eq_append_iff.mp hmark
    obtain ⟨c, rfl, hc⟩ := List.map_eq_singleton_iff.mp hhyphen
    obtain rfl : c = '-' := eq_of_toLower_eq hc (by decide)
    refine ⟨h, .ofList name, ?_, ?_⟩
    · rw [← String.toList_inj, toList_toLower, String.toList_ofList, hname]
    · rw [← String.toList_inj, htoken]
      simp [payload]

/-- The canonical text is as long as the token, from which it differs only in letter case. -/
theorem WrittenAs.utf8ByteSize_text (h : a.WrittenAs token) :
    a.text.utf8ByteSize = token.utf8ByteSize := by
  cases a with
  | scheme name => rw [h.2, text]
  | host parts => rw [h.2, text]
  | keyword word => rw [← utf8ByteSize_toLower token, h.2, text]
  | nonce value =>
    rcases h with ⟨-, label, hlabel, rfl⟩
    have hsize : label.utf8ByteSize = "nonce-".utf8ByteSize := by
      rw [← utf8ByteSize_toLower, hlabel]
    have hquoted : "'nonce-".utf8ByteSize = "'".utf8ByteSize + "nonce-".utf8ByteSize := by decide
    simp only [text, String.utf8ByteSize_append, hsize, hquoted]
  | hash algorithm digest =>
    rcases h with ⟨-, name, hname, rfl⟩
    have hsize : name.utf8ByteSize = algorithm.name.utf8ByteSize := by
      rw [← utf8ByteSize_toLower, hname]
    simp only [text, String.utf8ByteSize_append, hsize]

theorem WrittenAs.forall_isValueChar (h : a.WrittenAs token) :
    ∀ c ∈ token.toList, isValueChar c := by
  cases a with
  | scheme name =>
    rcases h with ⟨hname, rfl⟩
    intro c hc
    rw [String.toList_append] at hc
    rcases List.mem_append.mp hc with hc | hc
    · exact isValueChar_of_isSchemeChar (Lexeme.over_schemePart.forall_mem hname c hc)
    · rw [List.mem_singleton.mp hc]
      decide
  | host parts =>
    rcases h with ⟨hparts, rfl⟩
    exact hparts.forall_isValueChar
  | keyword word =>
    have hword : ∀ word ∈ sourceKeywords, ∀ c ∈ ("'" ++ word ++ "'").toList, isValueChar c := by
      decide
    exact forall_isValueChar_of_toLower h.2 (hword word h.1)
  | nonce value =>
    rcases h with ⟨hvalue, label, hlabel, rfl⟩
    have hquote : ∀ c ∈ "'".toList, isValueChar c := by decide
    have hlabel' := forall_isValueChar_of_toLower hlabel (by decide)
    have hvalue' := Lexeme.over_base64Value.forall_mem hvalue
    simp only [String.toList_append, List.forall_mem_append]
    exact ⟨⟨⟨hquote, hlabel'⟩, hvalue'⟩, hquote⟩
  | hash algorithm digest =>
    rcases h with ⟨hdigest, name, hname, rfl⟩
    have hquote : ∀ c ∈ "'".toList, isValueChar c := by decide
    have hhyphen : ∀ c ∈ "-".toList, isValueChar c := by decide
    have halgorithm : ∀ c ∈ algorithm.name.toList, isValueChar c := by cases algorithm <;> decide
    have hname' := forall_isValueChar_of_toLower hname halgorithm
    have hdigest' := Lexeme.over_base64Value.forall_mem hdigest
    simp only [String.toList_append, List.forall_mem_append]
    exact ⟨⟨⟨⟨hquote, hname'⟩, hhyphen⟩, hdigest'⟩, hquote⟩

theorem WrittenAs.ne_nil (h : a.WrittenAs token) : token.toList ≠ [] := by
  cases hquoted : a.isQuoted with
  | true =>
    obtain ⟨text, htoken, -⟩ := h.exists_mark hquoted
    simp [htoken]
  | false =>
    obtain ⟨c, rest, htoken, -⟩ := h.exists_uncut hquoted
    simp [htoken]

end Expression

end ContentSecurity

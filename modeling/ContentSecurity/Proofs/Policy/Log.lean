import ContentSecurity.Proofs.Faultless
import ContentSecurity.Proofs.Policy.Limits
/-!
# The log of a reading

What is logged while a header is read tells what is decided about it.  Nothing is logged of a header
that is refused as a whole.  Otherwise each directive has its lines, one when its value is about to
be read, one if the value is of no use, and one if the directive is not among the recognized ones in
force (`Directive.lines`); a directive that is refused has its first line only, which is the last of
the log.  So the log of a policy can be counted: all its directives, and those in two of its
sequences.

The lines come from three functions, and the first two of them say something before it is known how
the reading ends.  What they say of a text depends on the text alone (`record_events_ofText`), so
one induction along the directives, with the names seen so far, gives the log up to any of them.
-/

namespace ContentSecurity

open Grammar

/-! ### Readings that follow each other -/

namespace Reading

variable {α β : Type} {reading : Reading α} {next : α → Reading β} {a : α} {error : Error}

theorem events_bind_of_ok (h : reading.result = .ok a) :
    (reading >>= next).events = reading.events ++ (next a).events := by
  change (Reading.bind reading next).events = _
  unfold Reading.bind
  rw [h]

theorem events_bind_of_error (h : reading.result = .error error) :
    (reading >>= next).events = reading.events := by
  change (Reading.bind reading next).events = _
  unfold Reading.bind
  rw [h]

/-- Nothing happens later on. -/
theorem events_bind_of_silent (h : ∀ a, reading.result = .ok a → (next a).events = []) :
    (reading >>= next).events = reading.events := by
  cases hresult : reading.result with
  | error error => exact events_bind_of_error hresult
  | ok a => rw [events_bind_of_ok hresult, h a hresult, List.append_nil]

theorem events_bind_pure (reading : Reading α) (f : α → β) :
    (reading >>= fun a => pure (f a)).events = reading.events :=
  events_bind_of_silent fun _ _ => rfl

end Reading

open Reading

/-! ### The lines of a directive -/

namespace Directive

/-- Directives of this name have no use for a value. -/
def TakesNoValue (name : String) : Prop :=
  name = "upgrade-insecure-requests" ∨ name = "block-all-mixed-content"

instance (name : String) : Decidable (TakesNoValue name) :=
  inferInstanceAs (Decidable (_ ∨ _))

/-- The line of a value that is about to be read. -/
def openingLine (name rawValue : String) : Level × String :=
  (.trace, "Dispatching directive " ++ name ++ " = " ++ Text.quoted rawValue)

/-- The line of a value that is of no use. -/
def ignoringLine (name rawValue : String) : Level × String :=
  (.debug, "Ignoring value " ++ Text.quoted rawValue ++ " of valueless directive " ++ name)

/-- The lines of a value that is read. -/
def readingLines (name rawValue : String) : List (Level × String) :=
  openingLine name rawValue ::
    if TakesNoValue name ∧ rawValue ≠ "" then [ignoringLine name rawValue] else []

/-- How the line begins that tells the place of a directive.  A recognized directive in force has
none. -/
def placementWords : Placement → Option String
  | .recognized => none
  | .unrecognized => some "Unrecognized directive "
  | .ineffective => some "Ineffective duplicate directive "

/-- The lines of a directive that is put in its place. -/
def placementLines (rawName : String) (place : Placement) : List (Level × String) :=
  (placementWords place).toList.map fun words => (.debug, words ++ rawName)

/-- The lines of a directive with its place. -/
def lines (directive : Directive) (place : Placement) : List (Level × String) :=
  readingLines directive.name directive.rawValue ++ placementLines directive.rawName place

namespace Body

variable {limits : Limits} {value : String}

theorem events_sourcesOf (limits : Limits) (kind : ListKind) (value : String) :
    (sourcesOf limits kind value).events = [] := by
  unfold sourcesOf
  by_cases hnone : value = Source.noneText
  · rw [if_pos hnone]
    rfl
  by_cases hempty : value.isEmpty = true
  · rw [if_neg hnone, if_pos hempty]
    rfl
  rw [if_neg hnone, if_neg hempty]
  apply events_bind_of_silent
  intro tree htree
  -- only a tree of a foreign shape would be reported, and a matched one is none
  obtain ⟨sources, hread⟩ : ∃ sources, Source.interpret value kind.root tree = pure sources :=
    exists_interpret_of_tree htree
  change (Source.interpret value kind.root tree >>= _).events = []
  rw [hread, pure_bind]
  by_cases hnil : sources.isEmpty = true
  · rw [if_pos hnil]
    rfl
  · rw [if_neg hnil]
    exact events_bind_of_silent fun _ _ => rfl

theorem events_trustedTypesOf (value : String) : (trustedTypesOf value).events = [] := by
  apply events_bind_of_silent
  intro tree htree
  obtain ⟨entries, hentries⟩ := exists_trustedTypes_of_tree htree
  rw [hentries]
  rfl

theorem events_ignore (kind : Kind) (value : String) :
    (ignore kind value).events = if value ≠ "" then [.ignoredValue value kind.name] else [] := by
  unfold ignore
  by_cases hempty : value = ""
  · subst hempty
    rfl
  · rw [if_neg (by simpa using hempty), if_pos hempty]
    rfl

theorem takesNoValue_name_iff {kind : Kind} :
    TakesNoValue kind.name ↔ kind = .upgradeInsecureRequests ∨ kind = .blockAllMixedContent := by
  cases kind with
  | sourceList list => cases list <;> decide
  | _ => decide

theorem events_ofText_of_not {kind : Kind} (h : ¬ TakesNoValue kind.name) (limits : Limits)
    (value : String) : (ofText limits kind value).events = [] := by
  cases kind with
  | sourceList list =>
    exact (events_bind_pure _ _).trans (events_sourcesOf limits list value)
  | trustedTypes => exact (events_bind_pure _ _).trans (events_trustedTypesOf value)
  | webrtc =>
    simp only [ofText]
    cases Webrtc.ofName? value <;> rfl
  | upgradeInsecureRequests => exact absurd (by decide) h
  | blockAllMixedContent => exact absurd (by decide) h
  | reportTo | requireSriFor => rfl
  | sandbox | reportUri | requireTrustedTypesFor => exact events_bind_pure _ _

/-- Reading a value says no more than that it is of no use. -/
theorem events_ofText (limits : Limits) (kind : Kind) (value : String) :
    (ofText limits kind value).events =
      if TakesNoValue kind.name ∧ value ≠ "" then [.ignoredValue value kind.name] else [] := by
  by_cases htakes : TakesNoValue kind.name
  · simp only [htakes, true_and]
    rw [← events_ignore]
    rcases takesNoValue_name_iff.mp htakes with rfl | rfl
    · exact events_bind_pure _ _
    · exact events_bind_pure _ _
  · simp only [htakes, false_and, if_false]
    exact events_ofText_of_not htakes limits value

/-- Where a value is of no use, it is no reason to refuse a directive. -/
theorem result_ofText_of_takesNoValue {kind : Kind} (h : TakesNoValue kind.name) (limits : Limits)
    (value : String) : ∃ body, (ofText limits kind value).result = .ok body := by
  rcases takesNoValue_name_iff.mp h with rfl | rfl
  · exact ⟨_, result_bind_eq_ok_iff.mpr ⟨(), result_ignore _ value, rfl⟩⟩
  · exact ⟨_, result_bind_eq_ok_iff.mpr ⟨(), result_ignore _ value, rfl⟩⟩

end Body

variable {limits : Limits} {header rawName rawValue : String} {error : Error}

theorem exists_kind_of_takesNoValue {name : String} (h : TakesNoValue name) :
    ∃ kind : Kind, name = kind.name := by
  rcases h with rfl | rfl
  · exact ⟨.upgradeInsecureRequests, rfl⟩
  · exact ⟨.blockAllMixedContent, rfl⟩

/-- **What is logged of a text** depends on the text alone, and not on whether it can be read. -/
theorem record_events_ofText (limits : Limits) (rawName rawValue : String) :
    (ofText limits rawName rawValue).events.map Event.record =
      readingLines rawName.toLower rawValue := by
  have hopening : (emit (.dispatching rawName.toLower rawValue)).result = .ok () := rfl
  unfold ofText
  rw [events_bind_of_ok hopening, List.map_append]
  apply congrArg (openingLine rawName.toLower rawValue :: ·)
  cases hkind : Kind.ofName? rawName.toLower with
  | none =>
    have htakes : ¬ TakesNoValue rawName.toLower := by
      intro h
      obtain ⟨kind, hname⟩ := exists_kind_of_takesNoValue h
      rw [Kind.ofName?_eq_some_iff.mpr hname] at hkind
      cases hkind
    simp only [htakes, false_and, if_false]
    rfl
  | some kind =>
    have hname := Kind.ofName?_eq_some_iff.mp hkind
    rw [hname]
    have hbody : ((Body.ofText limits kind rawValue).events).map Event.record =
        if TakesNoValue kind.name ∧ rawValue ≠ "" then [ignoringLine kind.name rawValue]
        else [] := by
      rw [Body.events_ofText]
      split <;> rfl
    rw [← hbody]
    exact congrArg (List.map Event.record) (events_bind_pure _ _)

example : readingLines "block-all-mixed-content" "1" =
    [(.trace, "Dispatching directive block-all-mixed-content = \"1\""),
      (.debug, "Ignoring value \"1\" of valueless directive block-all-mixed-content")] := by
  decide

/-- A text that is refused has only its first line. -/
theorem readingLines_of_error (h : (ofText limits rawName rawValue).result = .error error) :
    readingLines rawName.toLower rawValue = [openingLine rawName.toLower rawValue] := by
  have htakes : ¬ TakesNoValue rawName.toLower := by
    intro htakes
    obtain ⟨kind, hname⟩ := exists_kind_of_takesNoValue htakes
    obtain ⟨body, hbody⟩ := Body.result_ofText_of_takesNoValue (hname ▸ htakes) limits rawValue
    rw [result_ofText] at h
    simp only [Kind.ofName?_eq_some_iff.mpr hname, hbody] at h
    cases h
  rw [readingLines, if_neg fun hboth => htakes hboth.1]

end Directive

/-! ### The lines of a header -/

namespace Policy

open Directive

variable {limits : Limits} {header : String} {directives : List Directive}

/-- The lines of directives that have these places. -/
def lines (directives : List Directive) (place : Fin directives.length → Placement) :
    List (Level × String) :=
  (List.finRange directives.length).flatMap fun i => (directives.get i).lines (place i)

/-- The header is not refused before its directives are looked at. -/
structure Dispatches (limits : Limits) (data : ByteArray) (header : String) (tree : Tree) :
    Prop where
  text : data = header.toUTF8
  size : data.size ≤ limits.headerLength
  matched : Rule.serializedPolicy.tree header = .ok tree
  count : (tree.search [.serializedDirective] 2).length ≤ limits.directives

theorem lines_cons (directive : Directive) (rest : List Directive)
    (place : Fin (directive :: rest).length → Placement) :
    lines (directive :: rest) place =
      directive.lines (place 0) ++ lines rest fun i => place i.succ := by
  have hall : List.finRange (directive :: rest).length =
      0 :: (List.finRange rest.length).map Fin.succ := List.finRange_succ
  unfold lines
  rw [hall, List.flatMap_cons, List.flatMap_map]
  rfl

theorem record_events_ofTree {node : Tree} {directive : Directive}
    (h : Occurs limits header node directive) :
    (ofTree limits header node).events.map Event.record =
      readingLines directive.name directive.rawValue := by
  unfold ofTree
  rw [h.rawName, h.rawValue, h.name]
  exact record_events_ofText limits directive.rawName directive.rawValue

theorem record_placementEvents (directive : Directive) (place : Placement) :
    (placementEvents directive place).map Event.record =
      placementLines directive.rawName place := by
  cases place <;> rfl

/-- **The log up to some directive** holds the lines of those in front of it, each with the place
that the names before it give it. -/
theorem record_events_readDirectives {front back : List Tree} (seen : List String)
    (h : List.Forall₂ (Occurs limits header) front directives) :
    (readDirectives limits header seen (front ++ back)).events.map Event.record =
      lines directives (placeAt seen directives) ++
        (readDirectives limits header ((directives.map Directive.name).reverse ++ seen)
          back).events.map Event.record := by
  induction h generalizing seen with
  | nil => rfl
  | @cons node directive front rest hnode _ ih =>
    have hplaced : (emitAll (placementEvents directive (directive.placement seen))).result =
        .ok () := rfl
    have hrest : (fun i : Fin rest.length => placeAt seen (directive :: rest) i.succ) =
        placeAt (directive.name :: seen) rest := funext (placeAt_succ seen directive rest)
    have hnames : ((directive :: rest).map Directive.name).reverse ++ seen =
        (rest.map Directive.name).reverse ++ directive.name :: seen := by simp
    have hmap : ∀ reading : Reading (List Directive),
        ((directive :: ·) <$> reading).events = reading.events := fun _ => rfl
    rw [List.cons_append, readDirectives, events_bind_of_ok hnode.read, events_bind_of_ok hplaced,
      List.map_append, List.map_append, record_events_ofTree hnode, hmap, ih, lines_cons, hrest,
      hnames]
    simp only [emitAll, record_placementEvents, Directive.lines, List.append_assoc]
    rfl

/-! ### Counting lines -/

/-- The words of a line begin so. -/
def begins (words : String) (line : Level × String) : Bool :=
  words.toList <+: line.2.toList

theorem countP_flatMap_eq {α β : Type} {p : β → Bool} {q : α → Bool} {f : α → List β}
    (h : ∀ a, (f a).countP p = if q a then 1 else 0) (as : List α) :
    (as.flatMap f).countP p = (as.filter q).length := by
  induction as with
  | nil => rfl
  | cons a as ih =>
    rw [List.flatMap_cons, List.countP_append, ih, h, List.filter_cons]
    split
    · rw [List.length_cons, Nat.add_comm]
    · rw [Nat.zero_add]

theorem countP_trace (directive : Directive) (place : Placement) :
    (directive.lines place).countP (·.1 = .trace) = 1 := by
  unfold Directive.lines readingLines
  split <;> cases place <;> simp [placementLines, openingLine, ignoringLine]

theorem countP_placement {here : Placement} {words : String} (h : placementWords here = some words)
    (directive : Directive) (place : Placement) :
    (directive.lines place).countP (begins words) = if place = here then 1 else 0 := by
  have hreading : (readingLines directive.name directive.rawValue).countP (begins words) = 0 := by
    unfold readingLines
    split <;> cases here <;> cases h <;> simp [openingLine, ignoringLine, begins]
  rw [Directive.lines, List.countP_append, hreading, Nat.zero_add]
  cases here <;> cases h <;> cases place <;> simp [placementLines, placementWords, begins]

theorem countP_lines_trace (directives : List Directive)
    (place : Fin directives.length → Placement) :
    (lines directives place).countP (·.1 = .trace) = directives.length := by
  have hone : ∀ i : Fin directives.length, ((directives.get i).lines (place i)).countP
      (·.1 = .trace) = if true then 1 else 0 := fun i => countP_trace _ _
  rw [lines, countP_flatMap_eq hone, List.filter_true, List.length_finRange]

/-- The lines that tell a place are as many as the directives that have it. -/
theorem countP_lines_placement {here : Placement} {words : String}
    (h : placementWords here = some words) (directives : List Directive)
    (place : Fin directives.length → Placement) :
    (lines directives place).countP (begins words) =
      (membersAt directives place here).length := by
  have hone : ∀ i : Fin directives.length, ((directives.get i).lines (place i)).countP
      (begins words) = if decide (place i = here) then 1 else 0 := by
    intro i
    simp only [countP_placement h, decide_eq_true_eq]
  rw [lines, countP_flatMap_eq hone, membersAt, List.length_map]

/-! ### The log of a header -/

/-- The log of a policy that was read: the lines of all its directives, each with the place that is
due to it and where the policy has it. -/
structure Mirrors (directives : List Directive) (policy : Policy) (log : List (Level × String)) :
    Prop where
  lines : ∃ place : Fin directives.length → Placement,
    (∀ here, policy.sequence here = membersAt directives place here) ∧
      (∀ i here, place i = here ↔ IsDue directives i here) ∧ log = lines directives place
  total : log.countP (·.1 = .trace) = policy.allDirectives.length
  unrecognized : log.countP (begins "Unrecognized directive ") = policy.otherDirectives.length
  ineffective : log.countP (begins "Ineffective duplicate directive ") =
    policy.ineffectiveDirectives.length

/-- The log of a header that is refused for the directive of a node: the lines of the directives in
front of it, and the line of the value that could not be read. -/
def BreaksOff (header : String) (front : List Directive) (node : Tree)
    (log : List (Level × String)) : Prop :=
  ∃ (place : Fin front.length → Placement) (rawName : String),
    (∀ i here, place i = here ↔ IsDue front i here) ∧
      node.part? header .directiveName = some rawName ∧
      log = lines front place ++
        [openingLine rawName.toLower ((node.part? header .directiveValue).getD "")]

variable {data : ByteArray} {tree : Tree} {trees : List Tree} {error : Error}

theorem isDue_of_occurs (h : List.Forall₂ (Occurs limits header) trees directives) :
    ∀ i here, placeAt [] directives i = here ↔ IsDue directives i here := by
  apply placeAt_eq_iff
  · intro directive hmem
    obtain ⟨node, -, hnode⟩ := exists_of_forall₂ h hmem
    exact hnode.name
  · intro directive hmem
    obtain ⟨node, -, hnode⟩ := exists_of_forall₂ h hmem
    exact hnode.isOther_eq_false_iff

theorem mirrors_ofDirectives (h : List.Forall₂ (Occurs limits header) trees directives) :
    Mirrors directives { ofDirectives directives with raw := some header }
      (lines directives (placeAt [] directives)) := by
  have hsequence : ∀ here, { ofDirectives directives with raw := some header }.sequence here =
      membersAt directives (placeAt [] directives) here := by
    intro here
    rw [sequence_raw]
    exact sequence_place [] directives here
  constructor
  · exact ⟨placeAt [] directives, hsequence, isDue_of_occurs h, rfl⟩
  · rw [countP_lines_trace]
    exact (allDirectives_place_perm [] directives).length_eq.symm
  · have hwords : placementWords .unrecognized = some "Unrecognized directive " := rfl
    rw [countP_lines_placement hwords, ← hsequence]
    rfl
  · have hwords : placementWords .ineffective = some "Ineffective duplicate directive " := rfl
    rw [countP_lines_placement hwords, ← hsequence]
    rfl

theorem events_parse (h : outline limits data = .ok (header, trees)) :
    (parse limits data).events = (readDirectives limits header [] trees).events := by
  have houtline : (ofExcept (outline limits data)).result = .ok (header, trees) := h
  unfold parse
  rw [events_bind_of_ok houtline]
  exact events_bind_pure _ _

theorem result_parse_of_mapM {result : Except Error (List Directive)}
    (h : outline limits data = .ok (header, trees))
    (hresult : (trees.mapM fun node => (ofTree limits header node).result) = result) :
    (parse limits data).result =
      (fun directives => { ofDirectives directives with raw := some header }) <$> result := by
  rw [result_parse, contents, h]
  subst hresult
  simp only [map_eq_pure_bind, bind_assoc, pure_bind]
  rfl

/-- The last line of a log is that of the value that could not be read. -/
theorem record_events_of_error {clause : List Char} {node : Tree}
    (hgives : Gives header clause node) (h : (ofTree limits header node).result = .error error)
    (seen : List String) (rest : List Tree) :
    (readDirectives limits header seen (node :: rest)).events.map Event.record =
      [openingLine (String.ofList (clauseName clause)).toLower
        ((node.part? header .directiveValue).getD "")] := by
  rw [readDirectives, events_bind_of_error h, hgives.2]
  rw [ofTree_of_gives hgives] at h ⊢
  rw [record_events_ofText, readingLines_of_error h]

/-- Nothing is logged, and there is no policy. -/
def LeavesNoTrace (limits : Limits) (data : ByteArray) : Prop :=
  (∃ error, (parse limits data).result = .error error) ∧ (parse limits data).events = []

/-- All directives are read, and the log has the lines of them all. -/
def LogsAll (limits : Limits) (data : ByteArray) (header : String) (nodes : List Tree) : Prop :=
  ∃ directives policy, List.Forall₂ (Occurs limits header) nodes directives ∧
    (parse limits data).result = .ok policy ∧
    Mirrors directives policy ((parse limits data).events.map Event.record)

/-- The directive of some node is refused, and the log ends with its first line. -/
def LogsUpTo (limits : Limits) (data : ByteArray) (header : String) (nodes : List Tree) : Prop :=
  ∃ front node back directives error, nodes = front ++ node :: back ∧
    List.Forall₂ (Occurs limits header) front directives ∧
    (ofTree limits header node).result = .error error ∧
    (parse limits data).result = .error error ∧
    BreaksOff header directives node ((parse limits data).events.map Event.record)

theorem leavesNoTrace_of_outline (h : outline limits data = .error error) :
    LeavesNoTrace limits data := by
  have houtline : (ofExcept (outline limits data)).result = .error error := h
  constructor
  · refine ⟨error, ?_⟩
    rw [result_parse, contents, h]
    rfl
  · exact events_bind_of_error houtline

theorem logsAll_of_mapM (h : outline limits data = .ok (header, trees))
    (hread : (trees.mapM fun node => (ofTree limits header node).result) = .ok directives) :
    LogsAll limits data header trees := by
  have hoccurs := (mapM_eq_ok_iff.mp hread).imp fun node directive => occurs_of_ofTree
  refine ⟨directives, _, hoccurs, result_parse_of_mapM h hread, ?_⟩
  have hlog : (readDirectives limits header [] (trees ++ [])).events.map Event.record =
      lines directives (placeAt [] directives) ++ [] := record_events_readDirectives [] hoccurs
  rw [List.append_nil, List.append_nil] at hlog
  rw [events_parse h, hlog]
  exact mirrors_ofDirectives hoccurs

theorem logsUpTo_of_mapM (h : outline limits data = .ok (header, trees))
    (hgives : ∀ node ∈ trees, ∃ clause, Gives header clause node)
    (hread : (trees.mapM fun node => (ofTree limits header node).result) = .error error) :
    LogsUpTo limits data header trees := by
  obtain ⟨front, node, back, rfl, hfront, hnode⟩ := exists_of_mapM_eq_error hread
  obtain ⟨directives, hdirectives⟩ := exists_forall₂_iff.mpr hfront
  have hoccurs := hdirectives.imp fun node directive => occurs_of_ofTree
  obtain ⟨clause, hclause⟩ := hgives node (List.mem_append_right _ List.mem_cons_self)
  refine ⟨front, node, back, directives, error, rfl, hoccurs, hnode,
    result_parse_of_mapM h hread, placeAt [] directives, _, isDue_of_occurs hoccurs, hclause.1, ?_⟩
  rw [events_parse h, record_events_readDirectives [] hoccurs,
    record_events_of_error hclause hnode]

/-- **The log of a header mirrors what is decided about it.**  A header that is refused for its
length, its bytes, its outline or the number of its directives leaves no trace.  Of any other the
log has the lines of the directives in order, up to the first line of one that is refused. -/
theorem parse_logs_decisions (limits : Limits) (data : ByteArray) :
    ((¬ ∃ header tree, Dispatches limits data header tree) ∧ LeavesNoTrace limits data) ∨
    ∃ header tree, Dispatches limits data header tree ∧
      (LogsAll limits data header (tree.search [.serializedDirective] 2) ∨
        LogsUpTo limits data header (tree.search [.serializedDirective] 2)) := by
  cases houtline : outline limits data with
  | error error =>
    refine Or.inl ⟨?_, leavesNoTrace_of_outline houtline⟩
    rintro ⟨header, tree, hdispatches⟩
    have hok : outline limits data = .ok (header, tree.search [.serializedDirective] 2) :=
      outline_eq_ok_iff.mpr ⟨hdispatches.text, hdispatches.size, ⟨tree, hdispatches.matched, rfl⟩,
        hdispatches.count⟩
    rw [houtline] at hok
    cases hok
  | ok found =>
    rcases found with ⟨header, trees⟩
    obtain ⟨htext, hsize, ⟨tree, htree, rfl⟩, hcount⟩ := outline_eq_ok_iff.mp houtline
    refine Or.inr ⟨header, tree, ⟨htext, hsize, htree, hcount⟩, ?_⟩
    cases hread : (tree.search [.serializedDirective] 2).mapM fun node =>
        (ofTree limits header node).result with
    | ok directives => exact Or.inl (logsAll_of_mapM houtline hread)
    | error error =>
      refine Or.inr (logsUpTo_of_mapM houtline ?_ hread)
      intro node hmem
      obtain ⟨clause, -, hgives⟩ := exists_of_forall₂ (gives_of_tree htree).2 hmem
      exact ⟨clause, hgives⟩

end Policy

end ContentSecurity

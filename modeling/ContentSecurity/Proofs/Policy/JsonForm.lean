import ContentSecurity.Policy.Json
import Mathlib.Data.List.Forall2
import Mathlib.Data.List.Nodup
/-!
# Reading JSON forms back

The JSON form of a policy may be loosened before it is read: in any of its objects, fields that hold
`null` may be left out, and fields of names that the object has no use for may be put in
(`Json.Loosens`).  Every type has a relation `Form` between its values and the loosened objects that
stand for them, and reading gives the value again, with the texts that were written.
-/

namespace ContentSecurity

open Directive (ListKind Body)

/-! ### Loosened objects -/

namespace Json

/-- The fields of an object are loosened: fields that hold `null` are left out, and fields of names
that are not in use are put in. -/
inductive Loosens (uses : List String) : List (String × Json) → List (String × Json) → Prop
  | nil : Loosens uses [] []
  | keep {fields loose : List (String × Json)} (field : String × Json)
      (h : Loosens uses fields loose) : Loosens uses (field :: fields) (field :: loose)
  | leaveOut {fields loose : List (String × Json)} (name : String)
      (h : Loosens uses fields loose) : Loosens uses ((name, .null) :: fields) loose
  | putIn {fields loose : List (String × Json)} {name : String} (value : Json)
      (hname : name ∉ uses) (h : Loosens uses fields loose) :
      Loosens uses fields ((name, value) :: loose)

/-- An object of these fields, loosened. -/
def Loosened (uses : List String) (fields : List (String × Json)) (json : Json) : Prop :=
  ∃ loose, Loosens uses fields loose ∧ json = .object loose

/-- A field has this value, where `null` may be missing. -/
def Holds (json : Json) (name : String) (value : Json) : Prop :=
  json.field? name = some value ∨ value = .null ∧ json.field? name = none

variable {uses : List String} {fields loose : List (String × Json)} {name : String}
variable {value json : Json} {α : Type}

theorem Loosens.refl (uses : List String) (fields : List (String × Json)) :
    Loosens uses fields fields := by
  induction fields with
  | nil => exact .nil
  | cons field rest ih => exact .keep field ih

theorem loosened_object (uses : List String) (fields : List (String × Json)) :
    Loosened uses fields (.object fields) :=
  ⟨fields, .refl uses fields, rfl⟩

/-- No field is put in under a name that is in use. -/
theorem Loosens.lookup_eq_none (h : Loosens uses fields loose) (hname : name ∈ uses)
    (hmissing : ∀ field ∈ fields, field.1 ≠ name) : loose.lookup name = none := by
  induction h with
  | nil => rfl
  | keep field h ih =>
    obtain ⟨hfield, hrest⟩ := List.forall_mem_cons.mp hmissing
    rw [List.lookup_cons, beq_false_of_ne hfield.symm]
    exact ih hrest
  | leaveOut own h ih => exact ih (List.forall_mem_cons.mp hmissing).2
  | putIn value hown h ih =>
    rw [List.lookup_cons, beq_false_of_ne (ne_of_mem_of_not_mem hname hown)]
    exact ih hmissing

/-- **A field in use keeps its value** when an object is loosened, where `null` may be missing. -/
theorem Loosens.holds (h : Loosens uses fields loose) (hnodup : (fields.map Prod.fst).Nodup)
    (huses : fields.map Prod.fst ⊆ uses) :
    ∀ field ∈ fields, (object loose).Holds field.1 field.2 := by
  have hcons : ∀ {own name : String} {value extra : Json} {loose : List (String × Json)},
      name ≠ own → (object loose).Holds name value →
        (object ((own, extra) :: loose)).Holds name value := by
    intro own name value extra loose hne hholds
    rw [Holds, field?, List.lookup_cons, beq_false_of_ne hne]
    exact hholds
  induction h with
  | nil => simp
  | keep own h ih =>
    rw [List.map_cons, List.nodup_cons] at hnodup
    obtain ⟨-, hrest⟩ := List.cons_subset.mp huses
    rw [List.forall_mem_cons]
    constructor
    · exact Or.inl List.lookup_cons_self
    · intro field hmem
      exact hcons (fun heq => hnodup.1 (heq ▸ List.mem_map_of_mem hmem))
        (ih hnodup.2 hrest field hmem)
  | leaveOut own h ih =>
    rw [List.map_cons, List.nodup_cons] at hnodup
    obtain ⟨hown, hrest⟩ := List.cons_subset.mp huses
    rw [List.forall_mem_cons]
    constructor
    · refine Or.inr ⟨rfl, h.lookup_eq_none hown fun field hmem heq => hnodup.1 ?_⟩
      exact heq ▸ List.mem_map_of_mem hmem
    · exact ih hnodup.2 hrest
  | putIn value hown h ih =>
    intro field hmem
    exact hcons (fun heq => hown (heq ▸ huses (List.mem_map_of_mem hmem)))
      (ih hnodup huses field hmem)

theorem Holds.required? (h : json.Holds name value) (hne : value ≠ .null)
    (read? : Json → Option α) :
    json.required? name read? = read? value := by
  rw [Json.required?, h.resolve_right fun hnull => hne hnull.1]
  rfl

theorem Holds.string? {text : String} (h : json.Holds name (.string text)) :
    json.required? name Json.string? = some text :=
  h.required? nofun _

theorem Holds.optionalText? {text : Option String} (h : json.Holds name (.ofText? text)) :
    json.optionalText? name = some text := by
  rw [Json.optionalText?]
  rcases h with hfound | ⟨hnull, hmissing⟩
  · rw [hfound]
    cases text <;> rfl
  · rw [hmissing]
    cases text with
    | none => rfl
    | some text => cases hnull

/-- A list is read if every item is. -/
theorem list?_array {read? : Json → Option α} {values : List α} {items : List Json}
    (h : List.Forall₂ (fun value item => read? item = some value) values items) :
    list? read? (.array items) = some values := by
  change items.mapM read? = some values
  induction h with
  | nil => rfl
  | cons hitem _ ih =>
    rw [List.mapM_cons, hitem, ih]
    rfl

theorem texts?_ofTexts (texts : List String) : texts? (ofTexts texts) = some texts := by
  apply list?_array
  rw [List.forall₂_map_right_iff, List.forall₂_same]
  exact fun _ _ => rfl

theorem Holds.texts? {texts : List String} (h : json.Holds name (.ofTexts texts)) :
    json.required? name Json.texts? = some texts :=
  (h.required? nofun _).trans (texts?_ofTexts texts)

/-- A loosened object is a record of any names, and any of its fields may be its tag. -/
structure IsRecord (json : Json) : Prop where
  record? : ∀ names, json.record? names = some json
  tagged? : ∀ {name tag : String}, json.Holds name (.string tag) →
    json.tagged? name = some (.string tag, json)

theorem Loosened.isRecord (h : Loosened uses fields json) : json.IsRecord where
  record? := by
    obtain ⟨loose, -, rfl⟩ := h
    exact fun names => rfl
  tagged? := by
    obtain ⟨loose, -, rfl⟩ := h
    intro name tag htag
    have hfound : loose.lookup name = some (.string tag) := htag.resolve_right nofun
    rw [Json.tagged?, hfound]
    rfl

theorem Loosened.holds (h : Loosened uses fields json) (hnodup : (fields.map Prod.fst).Nodup)
    (huses : fields.map Prod.fst ⊆ uses) : ∀ field ∈ fields, json.Holds field.1 field.2 := by
  obtain ⟨loose, hloose, rfl⟩ := h
  exact hloose.holds hnodup huses

end Json

/-! ### Forms -/

/-- A loosened JSON form of a source.  The names in use are those of its own fields. -/
def Source.Form (source : Source) (json : Json) : Prop :=
  ∃ fields, source.toJson = .object fields ∧ Json.Loosened (fields.map Prod.fst) fields json

/-- A loosened JSON form of an entry.  A wildcard has no text, and yet its name is in use. -/
def TrustedType.Form (entry : TrustedType) (json : Json) : Prop :=
  ∃ fields, entry.toJson = .object fields ∧ Json.Loosened ["kind", "value"] fields json

namespace Directive

/-- The fields of a value beside its type, where the members of a list are loosened. -/
def Body.FormFields : Body → List (String × Json) → Prop
  | .sourceList kind sources, fields => ∃ items, List.Forall₂ Source.Form sources items ∧
      fields = [("kind", .string kind.name), ("sources", .array items)]
  | .trustedTypes entries, fields => ∃ items, List.Forall₂ TrustedType.Form entries items ∧
      fields = [("expressions", .array items)]
  | body, fields => fields = body.fields

/-- A loosened JSON form of a value. -/
def Body.Form (body : Body) (json : Json) : Prop :=
  ∃ fields, body.FormFields fields ∧
    Json.Loosened ("type" :: fields.map Prod.fst) (("type", .string body.typeName) :: fields) json

/-- A loosened JSON form of a directive, around one of its value. -/
def Form (directive : Directive) (json : Json) : Prop :=
  ∃ body, directive.body.Form body ∧
    Json.Loosened ["name", "raw_name", "raw_value", "body"]
      [("name", .string directive.name), ("raw_name", .string directive.rawName),
        ("raw_value", .string directive.rawValue), ("body", body)] json

end Directive

/-- A loosened JSON form of a policy, around those of its directives. -/
def Policy.Form (policy : Policy) (json : Json) : Prop :=
  ∃ directives others ineffective,
    List.Forall₂ Directive.Form policy.directives directives ∧
    List.Forall₂ Directive.Form policy.otherDirectives others ∧
    List.Forall₂ Directive.Form policy.ineffectiveDirectives ineffective ∧
    Json.Loosened ["directives", "other_directives", "ineffective_directives", "raw"]
      [("directives", .array directives), ("other_directives", .array others),
        ("ineffective_directives", .array ineffective), ("raw", .ofText? policy.raw)] json

/-! ### Reading -/

theorem HashAlgorithm.ofJson?_name (algorithm : HashAlgorithm) :
    ofJson? (.string algorithm.name) = some algorithm := by
  cases algorithm <;> rfl

theorem Webrtc.ofJson?_name (choice : Webrtc) : ofJson? (.string choice.name) = some choice := by
  cases choice <;> rfl

theorem Directive.ListKind.ofInnerJson?_name (kind : ListKind) :
    ofInnerJson? (.string kind.name) = some kind := by
  cases kind <;> rfl

namespace Source

variable {source : Source} {json : Json}

/-- A form of a source is a record that holds the fields of the source. -/
theorem Form.parts (h : source.Form json) :
    json.IsRecord ∧ ∀ fields, source.toJson = .object fields →
      ∀ field ∈ fields, json.Holds field.1 field.2 := by
  obtain ⟨fields, hfields, hloose⟩ := h
  have hnodup : (fields.map Prod.fst).Nodup := by
    rcases source with _ | ⟨raw, _ | _ | _ | _ | _⟩ <;>
      obtain rfl := Json.object.inj hfields <;> simp
  refine ⟨hloose.isRecord, fun others hothers => ?_⟩
  obtain rfl := Json.object.inj (hfields.symm.trans hothers)
  exact hloose.holds hnodup (List.Subset.refl _)

theorem ofInnerJson?_of_isRecord {tag : String} (h : json.IsRecord)
    (htag : json.Holds "kind" (.string tag)) : ofInnerJson? json = ofFields? tag json := by
  rw [ofInnerJson?, h.tagged? htag]
  rfl

/-- **A source is read from each of its forms.** -/
theorem ofInnerJson?_of_form (h : source.Form json) : ofInnerJson? json = some source := by
  obtain ⟨hrecord, hparts⟩ := h.parts
  cases source with
  | none =>
    have hholds := hparts _ rfl
    simp only [List.forall_mem_cons] at hholds
    obtain ⟨hkind, -⟩ := hholds
    simp only [ofInnerJson?_of_isRecord hrecord hkind, ofFields?, hrecord.record?,
      Option.bind_eq_bind, Option.bind_some, Option.pure_def]
  | written raw expression =>
    cases expression with
    | scheme name =>
      have hholds := hparts _ rfl
      simp only [List.forall_mem_cons] at hholds
      obtain ⟨hkind, hraw, hscheme, -⟩ := hholds
      simp only [ofInnerJson?_of_isRecord hrecord hkind, ofFields?, hrecord.record?, hraw.string?,
        hscheme.string?, Option.bind_eq_bind, Option.bind_some, Option.pure_def]
    | host parts =>
      have hholds := hparts _ rfl
      simp only [List.forall_mem_cons] at hholds
      obtain ⟨hkind, hraw, hscheme, hhost, hport, hpath, -⟩ := hholds
      simp only [ofInnerJson?_of_isRecord hrecord hkind, ofFields?, hrecord.record?, hraw.string?,
        hscheme.optionalText?, hhost.string?, hport.optionalText?, hpath.optionalText?,
        Option.bind_eq_bind, Option.bind_some, Option.pure_def]
    | keyword word =>
      have hholds := hparts _ rfl
      simp only [List.forall_mem_cons] at hholds
      obtain ⟨hkind, hraw, hword, -⟩ := hholds
      simp only [ofInnerJson?_of_isRecord hrecord hkind, ofFields?, hrecord.record?, hraw.string?,
        hword.string?, Option.bind_eq_bind, Option.bind_some, Option.pure_def]
    | nonce value =>
      have hholds := hparts _ rfl
      simp only [List.forall_mem_cons] at hholds
      obtain ⟨hkind, hraw, hvalue, -⟩ := hholds
      simp only [ofInnerJson?_of_isRecord hrecord hkind, ofFields?, hrecord.record?, hraw.string?,
        hvalue.string?, Option.bind_eq_bind, Option.bind_some, Option.pure_def]
    | hash algorithm digest =>
      have hholds := hparts _ rfl
      simp only [List.forall_mem_cons] at hholds
      obtain ⟨hkind, hraw, halgorithm, hdigest, -⟩ := hholds
      have hname := (halgorithm.required? nofun HashAlgorithm.ofJson?).trans algorithm.ofJson?_name
      simp only [ofInnerJson?_of_isRecord hrecord hkind, ofFields?, hrecord.record?, hraw.string?,
        hname, hdigest.string?, Option.bind_eq_bind, Option.bind_some, Option.pure_def]

end Source

/-- **An entry is read from each of its forms.** -/
theorem TrustedType.ofJson?_of_form {entry : TrustedType} {json : Json} (h : entry.Form json) :
    ofJson? json = some entry := by
  obtain ⟨fields, hfields, loose, hloose, rfl⟩ := h
  have hkind : ∀ {tag : String}, (Json.object loose).Holds "kind" (.string tag) →
      ofJson? (.object loose) = ofValue? tag (loose.lookup "value") := by
    intro tag htag
    have hname := htag.required? nofun Json.innerName?
    simp only [ofJson?, hname]
    rfl
  cases entry with
  | policyName name =>
    obtain rfl := Json.object.inj hfields
    have hholds := hloose.holds (by simp) (by simp)
    simp only [List.forall_mem_cons] at hholds
    have hvalue : loose.lookup "value" = some (.string name) := hholds.2.1.resolve_right nofun
    rw [hkind hholds.1, hvalue]
    rfl
  | keyword word =>
    obtain rfl := Json.object.inj hfields
    have hholds := hloose.holds (by simp) (by simp)
    simp only [List.forall_mem_cons] at hholds
    have hvalue : loose.lookup "value" = some (.string word) := hholds.2.1.resolve_right nofun
    rw [hkind hholds.1, hvalue]
    rfl
  | wildcard =>
    obtain rfl := Json.object.inj hfields
    have hholds := hloose.holds (by simp) (by simp)
    simp only [List.forall_mem_cons] at hholds
    have hvalue : loose.lookup "value" = none := hloose.lookup_eq_none (by simp) (by simp)
    rw [hkind hholds.1, hvalue]
    rfl

namespace Directive

/-- The fields of a value have different names, which are not the name of its type. -/
theorem Body.FormFields.nodup {body : Body} {fields : List (String × Json)}
    (h : body.FormFields fields) : ("type" :: fields.map Prod.fst).Nodup := by
  cases body with
  | sourceList | trustedTypes =>
    obtain ⟨items, -, rfl⟩ := h
    simp
  | _ =>
    obtain rfl : fields = _ := h
    simp [Body.fields]

/-- A form of a value is a record with the type and the fields of the value. -/
theorem Body.Form.parts {body : Body} {json : Json} (h : body.Form json) :
    ∃ fields, body.FormFields fields ∧ ofJson? json = ofFields? body.typeName json ∧
      (∀ names, json.record? names = some json) ∧ ∀ field ∈ fields, json.Holds field.1 field.2 := by
  obtain ⟨fields, hfields, hloose⟩ := h
  have hrecord := hloose.isRecord
  obtain ⟨htype, hholds⟩ :=
    List.forall_mem_cons.mp (hloose.holds hfields.nodup (List.Subset.refl _))
  refine ⟨fields, hfields, ?_, hrecord.record?, hholds⟩
  rw [ofJson?, hrecord.tagged? htype]
  rfl

/-- **A value is read from each of its forms.** -/
theorem Body.ofJson?_of_form {body : Body} {json : Json} (h : body.Form json) :
    ofJson? json = some body := by
  obtain ⟨fields, hfields, hread, hrecord, hholds⟩ := h.parts
  rw [hread]
  cases body with
  | sourceList kind sources =>
    obtain ⟨items, hitems, rfl⟩ := hfields
    simp only [List.forall_mem_cons] at hholds
    obtain ⟨hkind, hsources, -⟩ := hholds
    have hname := (hkind.required? nofun ListKind.ofInnerJson?).trans kind.ofInnerJson?_name
    have hlist : json.required? "sources" (Json.list? Source.ofInnerJson?) = some sources :=
      (hsources.required? nofun _).trans
        (Json.list?_array (hitems.imp fun _ _ => Source.ofInnerJson?_of_form))
    simp only [typeName, ofFields?, hrecord, hname, hlist, Option.bind_eq_bind, Option.bind_some,
      Option.pure_def]
  | trustedTypes entries =>
    obtain ⟨items, hitems, rfl⟩ := hfields
    simp only [List.forall_mem_cons] at hholds
    have hlist : json.required? "expressions" (Json.list? TrustedType.ofJson?) = some entries :=
      (hholds.1.required? nofun _).trans
        (Json.list?_array (hitems.imp fun _ _ => TrustedType.ofJson?_of_form))
    simp only [typeName, ofFields?, hrecord, hlist, Option.bind_eq_bind, Option.bind_some,
      Option.pure_def]
  | sandbox texts | reportUri texts | requireSriFor texts | requireTrustedTypesFor texts =>
    obtain rfl : fields = _ := hfields
    simp only [List.forall_mem_cons, Body.fields] at hholds
    simp only [typeName, ofFields?, hrecord, hholds.1.texts?, Option.bind_eq_bind, Option.bind_some,
      Option.pure_def]
  | reportTo group =>
    obtain rfl : fields = _ := hfields
    simp only [List.forall_mem_cons, Body.fields] at hholds
    simp only [typeName, ofFields?, hrecord, hholds.1.string?, Option.bind_eq_bind,
      Option.bind_some, Option.pure_def]
  | webrtc choice =>
    obtain rfl : fields = _ := hfields
    simp only [List.forall_mem_cons, Body.fields] at hholds
    have hname := (hholds.1.required? nofun Webrtc.ofJson?).trans choice.ofJson?_name
    simp only [typeName, ofFields?, hrecord, hname, Option.bind_eq_bind, Option.bind_some,
      Option.pure_def]
  | upgradeInsecureRequests | blockAllMixedContent | other =>
    simp only [typeName, ofFields?, hrecord, Option.bind_eq_bind, Option.bind_some, Option.pure_def]

/-- **A directive is read from each of its forms.** -/
theorem ofJson?_of_form {directive : Directive} {json : Json} (h : directive.Form json) :
    ofJson? json = some directive := by
  obtain ⟨body, hbody, hloose⟩ := h
  have hrecord := hloose.isRecord.record?
  have hholds := hloose.holds (by simp) (by simp)
  simp only [List.forall_mem_cons] at hholds
  obtain ⟨hname, hrawName, hrawValue, hvalue, -⟩ := hholds
  have hne : body ≠ .null := by
    obtain ⟨_, -, loose, -, rfl⟩ := hbody
    exact nofun
  have hread := (hvalue.required? hne Body.ofJson?).trans (Body.ofJson?_of_form hbody)
  simp only [ofJson?, hrecord, hname.string?, hrawName.string?, hrawValue.string?, hread,
    Option.bind_eq_bind, Option.bind_some, Option.pure_def]

end Directive

namespace Policy

/-- **A policy is read from each of its forms.** -/
theorem ofJson?_of_form {policy : Policy} {json : Json} (h : policy.Form json) :
    ofJson? json = some policy := by
  obtain ⟨directives, others, ineffective, hdirectives, hothers, hineffective, hloose⟩ := h
  have hrecord := hloose.isRecord.record?
  have hholds := hloose.holds (by simp) (by simp)
  simp only [List.forall_mem_cons] at hholds
  obtain ⟨hfirst, hsecond, hthird, hraw, -⟩ := hholds
  have hlist : ∀ {name : String} {sequence : List Directive} {items : List Json},
      json.Holds name (.array items) → List.Forall₂ Directive.Form sequence items →
        json.required? name (Json.list? Directive.ofJson?) = some sequence := by
    intro name sequence items hname hitems
    exact (hname.required? nofun _).trans
      (Json.list?_array (hitems.imp fun _ _ => Directive.ofJson?_of_form))
  simp only [ofJson?, hrecord, hlist hfirst hdirectives, hlist hsecond hothers,
    hlist hthird hineffective, hraw.optionalText?, Option.bind_eq_bind, Option.bind_some,
    Option.pure_def]

end Policy

/-! ### The JSON form is one of the forms -/

theorem Source.form_toJson (source : Source) : source.Form source.toJson := by
  have hobject : ∃ fields, source.toJson = .object fields := by
    rcases source with _ | ⟨raw, _ | _ | _ | _ | _⟩ <;> exact ⟨_, rfl⟩
  obtain ⟨fields, hfields⟩ := hobject
  exact ⟨fields, hfields, hfields ▸ Json.loosened_object _ _⟩

theorem TrustedType.form_toJson (entry : TrustedType) : entry.Form entry.toJson := by
  cases entry <;> exact ⟨_, rfl, Json.loosened_object _ _⟩

theorem forall₂_form_map {α : Type} {form : α → Json → Prop} {toJson : α → Json}
    (h : ∀ a, form a (toJson a)) (as : List α) : List.Forall₂ form as (as.map toJson) := by
  rw [List.forall₂_map_right_iff, List.forall₂_same]
  exact fun a _ => h a

theorem Directive.Body.form_toJson (body : Body) : body.Form body.toJson := by
  refine ⟨body.fields, ?_, Json.loosened_object _ _⟩
  cases body with
  | sourceList kind sources => exact ⟨_, forall₂_form_map Source.form_toJson sources, rfl⟩
  | trustedTypes entries => exact ⟨_, forall₂_form_map TrustedType.form_toJson entries, rfl⟩
  | _ => rfl

theorem Directive.form_toJson (directive : Directive) : directive.Form directive.toJson :=
  ⟨_, directive.body.form_toJson, Json.loosened_object _ _⟩

namespace Policy

theorem form_toJson (policy : Policy) : policy.Form policy.toJson :=
  ⟨_, _, _, forall₂_form_map Directive.form_toJson policy.directives,
    forall₂_form_map Directive.form_toJson policy.otherDirectives,
    forall₂_form_map Directive.form_toJson policy.ineffectiveDirectives,
    Json.loosened_object _ _⟩

/-- **The JSON form loses nothing.**  Every policy, however it was made, is read back from its JSON
form with all its texts, and from every loosened form of it. -/
theorem ofJson?_toJson (policy : Policy) :
    ofJson? policy.toJson = some policy ∧ policy.Form policy.toJson ∧
      ∀ json, policy.Form json → ofJson? json = some policy :=
  ⟨ofJson?_of_form policy.form_toJson, policy.form_toJson, fun _ => ofJson?_of_form⟩

example : ofJson? (.object [("x", .bool true), ("directives", .array []),
    ("other_directives", .array []), ("ineffective_directives", .array [])]) = some {} :=
  rfl

end Policy

end ContentSecurity

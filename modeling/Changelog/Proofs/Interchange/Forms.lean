import Changelog.Proofs.Interchange
import Changelog.Proofs.Json.Accepted

/-!
# The forms of records in JSON

A record is accepted in more forms than the one in which it is written: as an object with its fields in
any order, or as an array of its fields in their order.  A scope may be left out where there is none,
and a map of settings where it is empty.  In an array only maps at the end may be left out, since its
items have no names.

Settings refuse any other member.  The other records pass over members that are no fields, whatever
their values, as long as the key is a text; a key that spells half a surrogate pair is read before it is
known to be no field, and is refused everywhere.
-/

namespace Changelog

open Json (Fields ObjectForm RecordReader)

theorem Json.text?_eq_some_iff {v : Json} {s : String} : v.text? = some s ↔ v = ofText s := by
  constructor
  · intro h
    cases v with
    | string str =>
        cases str with
        | text _ =>
            obtain rfl := Option.some.inj h
            rfl
        | unpaired => cases h
    | _ => cases h
  · rintro rfl
    exact text?_ofText s

theorem Json.texts?_eq_some_iff {v : Json} {ss : List String} :
    v.texts? = some ss ↔ v = ofTexts ss := by
  constructor
  · intro h
    obtain ⟨items, hitems, htexts⟩ := Option.bind_eq_some_iff.mp h
    cases v with
    | array vs =>
        obtain rfl := Option.some.inj hitems
        rw [(Steps.mapM_eq_some_iff fun _ _ => text?_eq_some_iff).mp htexts]
        rfl
    | _ => cases hitems
  · rintro rfl
    exact texts?_ofTexts ss

namespace LogEntry

/-- How log entries are read. -/
def reader : RecordReader LogEntry where
  names := fieldNames
  required := fieldNames
  surplus := .ignored
  least := 3
  ofMembers? := ofFields?
  ofItems? := ofFields?
  names_nodup := by decide
  ofMembers?_congr h := by simp only [ofFields?, h]
  ofMembers?_eq_none hname h := by
    simp only [fieldNames, List.mem_cons, List.not_mem_nil, or_false] at hname
    rcases hname with rfl | rfl | rfl <;> simp [ofFields?, h]

theorem reader_read? (json : Json) : reader.read? json = ofJson? json := by
  cases json <;> rfl

/-- The forms of a log entry. -/
inductive Form (entry : LogEntry) : Json → Prop
  | object {json : Json} (h : ObjectForm fieldNames .ignored
      [("hash", .ofText entry.hash), ("header", .ofText entry.header),
        ("body", .ofText entry.body)] json) : Form entry json
  | array : Form entry (.array [.ofText entry.hash, .ofText entry.header, .ofText entry.body])

variable {entry : LogEntry} {json : Json}

theorem ofFields?_eq_some_iff {fields : Fields} :
    ofFields? fields = some entry ↔
      fields.get? "hash" = some (.ofText entry.hash) ∧
        fields.get? "header" = some (.ofText entry.header) ∧
        fields.get? "body" = some (.ofText entry.body) := by
  simp only [ofFields?, Option.bind_eq_bind, Option.bind_eq_some_iff, Json.text?_eq_some_iff,
    Option.pure_def, Option.some.injEq]
  constructor
  · rintro ⟨_, hhash, _, rfl, _, hheader, _, rfl, _, hbody, _, rfl, rfl⟩
    exact ⟨hhash, hheader, hbody⟩
  · rintro ⟨hhash, hheader, hbody⟩
    exact ⟨_, hhash, _, rfl, _, hheader, _, rfl, _, hbody, _, rfl, rfl⟩

theorem ofJson?_eq_some_iff : ofJson? json = some entry ↔ entry.Form json := by
  rw [← reader_read?]
  constructor
  · intro h
    rcases reader.forms_of_read? h with ⟨get, hform, hget, hfields⟩ | ⟨items, rfl, hlength, hfields⟩
    · obtain ⟨hhash, hheader, hbody⟩ := ofFields?_eq_some_iff.mp hfields
      rw [hget _ (by decide)] at hhash hheader hbody
      simp only [reader, fieldNames, Fields.ofNames, List.filterMap_cons, hhash, hheader, hbody]
        at hform
      exact .object hform
    · obtain ⟨hash, header, body, rfl⟩ :=
        List.length_eq_three.mp (le_antisymm hlength.2 hlength.1)
      obtain ⟨⟨⟩, ⟨⟩, ⟨⟩⟩ := ofFields?_eq_some_iff.mp hfields
      exact .array
  · rintro (hobject | _)
    · rw [reader.read?_of_objectForm (List.Sublist.refl _) hobject]
      exact ofFields?_eq_some_iff.mpr ⟨rfl, rfl, rfl⟩
    · rw [reader.read?_array (Nat.le_refl _) (Nat.le_refl _)]
      exact ofFields?_eq_some_iff.mpr ⟨rfl, rfl, rfl⟩

end LogEntry

namespace Heading

/-- A heading from the members of an object. -/
def ofMembers? (fields : Fields) : Option Heading := do
  ofKind? (← kind? (← fields.get? "kind")) (← (← fields.get? "value").text?)

/-- A heading from the items of an array, which name the kind by a string. -/
def ofItems? (fields : Fields) : Option Heading := do
  ofKind? (← (← fields.get? "kind").text?) (← (← fields.get? "value").text?)

/-- How headings are read. -/
def reader : RecordReader Heading where
  names := fieldNames
  required := fieldNames
  surplus := .ignored
  least := 2
  ofMembers? := ofMembers?
  ofItems? := ofItems?
  names_nodup := by decide
  ofMembers?_congr h := by simp only [ofMembers?, h]
  ofMembers?_eq_none hname h := by
    simp only [fieldNames, List.mem_cons, List.not_mem_nil, or_false] at hname
    rcases hname with rfl | rfl <;> simp [ofMembers?, h]

theorem reader_read? (json : Json) : reader.read? json = ofJson? json := by
  cases json <;> rfl

/-- The kind of a heading, by name. -/
def kind : Heading → String
  | labelled _ => "labeled"
  | unformatted _ => "unformatted"

/-- The label or the code of a heading. -/
def value : Heading → String
  | labelled label => label
  | unformatted code => code

/-- The forms of a kind in an object: its name, or an object with the name as its one key. -/
inductive KindForm (kind : String) : Json → Prop
  | name : KindForm kind (.ofText kind)
  | key : KindForm kind (.object [(.text kind, .null)])

/-- The forms of a heading. -/
inductive Form (heading : Heading) : Json → Prop
  | object {kind json : Json} (hkind : KindForm heading.kind kind)
      (h : ObjectForm fieldNames .ignored
        [("kind", kind), ("value", .ofText heading.value)] json) : Form heading json
  | array : Form heading (.array [.ofText heading.kind, .ofText heading.value])

variable {heading : Heading} {json : Json} {fields : Fields}

theorem ofKind?_eq_some_iff {kind value : String} :
    ofKind? kind value = some heading ↔ kind = heading.kind ∧ value = heading.value := by
  unfold ofKind?
  constructor
  · intro h
    split_ifs at h with hlabelled hunformatted
    · obtain rfl := Option.some.inj h
      exact ⟨hlabelled, rfl⟩
    · obtain rfl := Option.some.inj h
      exact ⟨hunformatted, rfl⟩
  · rintro ⟨rfl, rfl⟩
    cases heading <;> rfl

theorem kind?_eq_some_iff {kind : String} : kind? json = some kind ↔ KindForm kind json := by
  constructor
  · intro h
    unfold kind? at h
    split at h
    · rename_i key
      cases key with
      | text _ =>
          obtain rfl := Option.some.inj h
          exact .key
      | unpaired => cases h
    · obtain rfl := Json.text?_eq_some_iff.mp h
      exact .name
  · rintro (_ | _) <;> rfl

theorem ofMembers?_eq_some_iff :
    ofMembers? fields = some heading ↔
      (∃ kind, fields.get? "kind" = some kind ∧ KindForm heading.kind kind) ∧
        fields.get? "value" = some (.ofText heading.value) := by
  simp only [ofMembers?, Option.bind_eq_bind, Option.bind_eq_some_iff, kind?_eq_some_iff,
    Json.text?_eq_some_iff, ofKind?_eq_some_iff]
  constructor
  · rintro ⟨kind, hkind, _, hform, _, hvalue, _, rfl, rfl, rfl⟩
    exact ⟨⟨kind, hkind, hform⟩, hvalue⟩
  · rintro ⟨⟨kind, hkind, hform⟩, hvalue⟩
    exact ⟨kind, hkind, _, hform, _, hvalue, _, rfl, rfl, rfl⟩

theorem ofItems?_eq_some_iff :
    ofItems? fields = some heading ↔
      fields.get? "kind" = some (.ofText heading.kind) ∧
        fields.get? "value" = some (.ofText heading.value) := by
  simp only [ofItems?, Option.bind_eq_bind, Option.bind_eq_some_iff, Json.text?_eq_some_iff,
    ofKind?_eq_some_iff]
  constructor
  · rintro ⟨_, hkind, _, rfl, _, hvalue, _, rfl, rfl, rfl⟩
    exact ⟨hkind, hvalue⟩
  · rintro ⟨hkind, hvalue⟩
    exact ⟨_, hkind, _, rfl, _, hvalue, _, rfl, rfl, rfl⟩

theorem ofJson?_eq_some_iff : ofJson? json = some heading ↔ heading.Form json := by
  rw [← reader_read?]
  constructor
  · intro h
    rcases reader.forms_of_read? h with ⟨get, hform, hget, hfields⟩ | ⟨items, rfl, hlength, hfields⟩
    · obtain ⟨⟨kind, hkind, hkindForm⟩, hvalue⟩ := ofMembers?_eq_some_iff.mp hfields
      rw [hget _ (by decide)] at hkind hvalue
      simp only [reader, fieldNames, Fields.ofNames, List.filterMap_cons, hkind, hvalue] at hform
      exact .object hkindForm hform
    · obtain ⟨kind, value, rfl⟩ := List.length_eq_two.mp (le_antisymm hlength.2 hlength.1)
      obtain ⟨⟨⟩, ⟨⟩⟩ := ofItems?_eq_some_iff.mp hfields
      exact .array
  · rintro (⟨hkind, hobject⟩ | _)
    · rw [reader.read?_of_objectForm (List.Sublist.refl _) hobject]
      exact ofMembers?_eq_some_iff.mpr ⟨⟨_, rfl, hkind⟩, rfl⟩
    · rw [reader.read?_array (Nat.le_refl _) (Nat.le_refl _)]
      exact ofItems?_eq_some_iff.mpr ⟨rfl, rfl⟩

end Heading

namespace Change

/-- How changes are read. -/
def reader : RecordReader Change where
  names := fieldNames
  required := ["hash", "type", "message", "closed_issues"]
  surplus := .ignored
  least := 5
  ofMembers? := ofFields?
  ofItems? := ofFields?
  names_nodup := by decide
  ofMembers?_congr h := by simp only [ofFields?, h]
  ofMembers?_eq_none hname h := by
    simp only [List.mem_cons, List.not_mem_nil, or_false] at hname
    rcases hname with rfl | rfl | rfl | rfl <;> simp [ofFields?, h]

theorem reader_read? (json : Json) : reader.read? json = ofJson? json := by
  cases json <;> rfl

/-- The member for a scope, which may be left out where there is none. -/
inductive ScopeMember (scope? : Option String) : Fields → Prop
  | present : ScopeMember scope? [("scope", scopeToJson scope?)]
  | absent (h : scope? = none) : ScopeMember scope? []

/-- The forms of a change, whose heading may be in any form itself. -/
inductive Form (change : Change) : Json → Prop
  | object {heading json : Json} {scope : Fields} (hheading : change.heading.Form heading)
      (hscope : ScopeMember change.scope? scope)
      (h : ObjectForm fieldNames .ignored ([("hash", .ofText change.hash), ("type", heading)] ++
        scope ++ [("message", .ofText change.message),
          ("closed_issues", .ofTexts change.issues)]) json) : Form change json
  | array {heading : Json} (hheading : change.heading.Form heading) :
      Form change (.array [.ofText change.hash, heading, scopeToJson change.scope?,
        .ofText change.message, .ofTexts change.issues])

variable {change : Change} {json : Json} {fields : Fields}

theorem scopeOfJson?_eq_some_iff {scope? : Option String} :
    scopeOfJson? json = some scope? ↔ json = scopeToJson scope? := by
  constructor
  · intro h
    unfold scopeOfJson? at h
    split at h
    · obtain rfl := Option.some.inj h
      rfl
    · obtain ⟨scope, hscope, rfl⟩ := Option.map_eq_some_iff.mp h
      exact Json.text?_eq_some_iff.mp hscope
  · rintro rfl
    exact scopeOfJson?_scopeToJson scope?

theorem scopeToJson_eq_null_iff {scope? : Option String} :
    scopeToJson scope? = .null ↔ scope? = none := by
  cases scope? <;> simp [scopeToJson, Json.ofText]

theorem ofFields?_eq_some_iff :
    ofFields? fields = some change ↔
      fields.get? "hash" = some (.ofText change.hash) ∧
        (∃ heading, fields.get? "type" = some heading ∧ change.heading.Form heading) ∧
        (fields.get? "scope").getD .null = scopeToJson change.scope? ∧
        fields.get? "message" = some (.ofText change.message) ∧
        fields.get? "closed_issues" = some (.ofTexts change.issues) := by
  simp only [ofFields?, Option.bind_eq_bind, Option.bind_eq_some_iff, Json.text?_eq_some_iff,
    Json.texts?_eq_some_iff, Heading.ofJson?_eq_some_iff, scopeOfJson?_eq_some_iff, Option.pure_def,
    Option.some.injEq]
  constructor
  · rintro ⟨_, hhash, _, rfl, heading, hheading, _, hform, _, hscope, _, hmessage, _, rfl, _, hissues,
      _, rfl, rfl⟩
    exact ⟨hhash, ⟨heading, hheading, hform⟩, hscope, hmessage, hissues⟩
  · rintro ⟨hhash, ⟨heading, hheading, hform⟩, hscope, hmessage, hissues⟩
    exact ⟨_, hhash, _, rfl, heading, hheading, _, hform, _, hscope, _, hmessage, _, rfl, _, hissues,
      _, rfl, rfl⟩

theorem ofJson?_eq_some_iff : ofJson? json = some change ↔ change.Form json := by
  rw [← reader_read?]
  constructor
  · intro h
    rcases reader.forms_of_read? h with ⟨get, hform, hget, hfields⟩ | ⟨items, rfl, hlength, hfields⟩
    · obtain ⟨hhash, ⟨heading, htype, hheading⟩, hscope, hmessage, hissues⟩ :=
        ofFields?_eq_some_iff.mp hfields
      rw [hget _ (by decide)] at hhash htype hscope hmessage hissues
      simp only [reader, fieldNames, Fields.ofNames, List.filterMap_cons, hhash, htype, hmessage,
        hissues] at hform
      cases hget : get "scope" with
      | none =>
          rw [hget] at hform hscope
          exact .object hheading (.absent (scopeToJson_eq_null_iff.mp hscope.symm)) hform
      | some scope =>
          rw [hget] at hform hscope
          obtain rfl := hscope
          exact .object hheading .present hform
    · obtain ⟨hash, rest, rfl⟩ :=
        List.exists_cons_of_length_eq_add_one (le_antisymm hlength.2 hlength.1)
      obtain ⟨heading, scope, message, issues, rfl⟩ :=
        List.length_eq_four.mp (Nat.succ.inj (le_antisymm hlength.2 hlength.1))
      obtain ⟨⟨⟩, ⟨_, ⟨⟩, hheading⟩, ⟨⟩, ⟨⟩, ⟨⟩⟩ := ofFields?_eq_some_iff.mp hfields
      exact .array hheading
  · rintro (⟨hheading, hscope, hobject⟩ | hheading)
    · cases hscope with
      | present =>
          rw [reader.read?_of_objectForm (List.Sublist.refl _) hobject]
          apply ofFields?_eq_some_iff.mpr
          exact ⟨rfl, ⟨_, rfl, hheading⟩, rfl, rfl, rfl⟩
      | absent hnone =>
          rw [reader.read?_of_objectForm ?_ hobject]
          · apply ofFields?_eq_some_iff.mpr
            rw [hnone]
            exact ⟨rfl, ⟨_, rfl, hheading⟩, rfl, rfl, rfl⟩
          · change ["hash", "type", "message", "closed_issues"].Sublist fieldNames
            decide
    · rw [reader.read?_array (Nat.le_refl _) (Nat.le_refl _)]
      apply ofFields?_eq_some_iff.mpr
      exact ⟨rfl, ⟨_, rfl, hheading⟩, rfl, rfl, rfl⟩

end Change

namespace CodeMap

/-- The forms of a map: an object whose members give its entries.  Where a code is repeated, the last
text counts. -/
inductive Form (codes : CodeMap) : Json → Prop
  | object {entries : List (String × String)} (h : .ofList entries compare = codes) :
      Form codes (.ofFields (entries.map fun entry => (entry.1, .ofText entry.2)))

/-- The member for a map, which may be left out where the map is empty. -/
inductive Member (name : String) (codes : CodeMap) : Fields → Prop
  | present {json : Json} (h : Form codes json) : Member name codes [(name, json)]
  | absent (h : codes = ∅) : Member name codes []

variable {codes : CodeMap} {json : Json} {fields : Fields}

theorem mapM_text?_eq_some_iff {entries : List (String × String)} :
    fields.mapM (fun member => member.2.text?.map (member.1, ·)) = some entries ↔
      fields = entries.map fun entry => (entry.1, .ofText entry.2) := by
  apply Steps.mapM_eq_some_iff
  rintro ⟨code, v⟩ ⟨code', text⟩
  simp only [Option.map_eq_some_iff, Json.text?_eq_some_iff, Prod.mk.injEq]
  constructor
  · rintro ⟨_, rfl, rfl, rfl⟩
    exact ⟨rfl, rfl⟩
  · rintro ⟨rfl, rfl⟩
    exact ⟨_, rfl, rfl, rfl⟩

theorem ofJson?_eq_some_iff : ofJson? json = some codes ↔ Form codes json := by
  constructor
  · intro h
    cases json with
    | object members =>
        obtain ⟨fields, hnamed, hread⟩ := Option.bind_eq_some_iff.mp h
        obtain ⟨entries, hentries, hcodes⟩ := Option.bind_eq_some_iff.mp hread
        obtain rfl := Json.named?_eq_some_iff.mp hnamed
        obtain rfl := mapM_text?_eq_some_iff.mp hentries
        exact .object (Option.some.inj hcodes)
    | _ => cases h
  · rintro ⟨rfl⟩
    exact ofJson?_ofFields _

/-- The entries of a map give it in any order. -/
theorem Form.of_perm {entries : List (String × String)} (h : entries.Perm codes.toList) :
    Form codes (.ofFields (entries.map fun entry => (entry.1, .ofText entry.2))) :=
  .object (ofList_of_perm h)

/-- A map that is read where it may be left out. -/
theorem member_of_ofJson? {name : String} {given : Option Json}
    (h : ofJson? (given.getD (.object [])) = some codes) :
    Member name codes (given.map (name, ·)).toList := by
  cases given with
  | none => exact .absent (Option.some.inj h).symm
  | some json => exact .present (ofJson?_eq_some_iff.mp h)

theorem Member.ofJson?_get? {name : String} (h : Member name codes fields) :
    ofJson? ((fields.get? name).getD (.object [])) = some codes := by
  cases h with
  | @present json hform =>
      have hget : Fields.get? [(name, json)] name = some json := List.lookup_cons_self
      rw [hget]
      exact ofJson?_eq_some_iff.mpr hform
  | absent hempty =>
      rw [hempty]
      rfl

theorem Member.map_fst_sublist {name : String} (h : Member name codes fields) :
    (fields.map Prod.fst).Sublist [name] := by
  cases h with
  | present _ => exact List.Sublist.refl _
  | absent _ => exact List.nil_sublist _

end CodeMap

namespace Settings

/-- How settings are read. -/
def reader : RecordReader Settings where
  names := fieldNames
  required := []
  surplus := .refused
  least := 0
  ofMembers? := ofFields?
  ofItems? := ofFields?
  names_nodup := by decide
  ofMembers?_congr h := by simp only [ofFields?, h]
  ofMembers?_eq_none hname := absurd hname List.not_mem_nil

theorem reader_read? (json : Json) : reader.read? json = ofJson? json := by
  cases json <;> rfl

/-- The forms of settings.  In an array what is left out must be at the end. -/
inductive Form (settings : Settings) : Json → Prop
  | object {labels aliases : Fields} {json : Json}
      (hlabels : CodeMap.Member "labels" settings.labels labels)
      (haliases : CodeMap.Member "aliases" settings.aliases aliases)
      (h : ObjectForm fieldNames .refused (labels ++ aliases) json) : Form settings json
  | array {labels aliases : Json} (hlabels : CodeMap.Form settings.labels labels)
      (haliases : CodeMap.Form settings.aliases aliases) : Form settings (.array [labels, aliases])
  | labelsAlone {labels : Json} (hlabels : CodeMap.Form settings.labels labels)
      (haliases : settings.aliases = ∅) : Form settings (.array [labels])
  | nothing (hlabels : settings.labels = ∅) (haliases : settings.aliases = ∅) :
      Form settings (.array [])

variable {settings : Settings} {json : Json}

theorem ofFields?_eq_some_iff {fields : Fields} :
    ofFields? fields = some settings ↔
      CodeMap.ofJson? ((fields.get? "labels").getD (.object [])) = some settings.labels ∧
        CodeMap.ofJson? ((fields.get? "aliases").getD (.object [])) = some settings.aliases := by
  simp only [ofFields?, Option.bind_eq_bind, Option.bind_eq_some_iff, Option.pure_def,
    Option.some.injEq]
  constructor
  · rintro ⟨_, hlabels, _, haliases, rfl⟩
    exact ⟨hlabels, haliases⟩
  · rintro ⟨hlabels, haliases⟩
    exact ⟨_, hlabels, _, haliases, rfl⟩

theorem ofFields?_append {labels aliases : Fields}
    (hlabels : CodeMap.Member "labels" settings.labels labels)
    (haliases : CodeMap.Member "aliases" settings.aliases aliases) :
    ofFields? (labels ++ aliases) = some settings := by
  have hfirst : (labels ++ aliases).get? "labels" = labels.get? "labels" := by
    cases haliases <;> simp [Fields.get?, List.lookup_append, List.lookup]
  have hsecond : (labels ++ aliases).get? "aliases" = aliases.get? "aliases" := by
    cases hlabels <;> simp [Fields.get?, List.lookup]
  rw [ofFields?_eq_some_iff, hfirst, hsecond]
  exact ⟨hlabels.ofJson?_get?, haliases.ofJson?_get?⟩

/-- Settings are read from their forms only.  The items of an array are found by their places, so there
is one form for each number of items. -/
theorem ofJson?_eq_some_iff : ofJson? json = some settings ↔ settings.Form json := by
  rw [← reader_read?]
  constructor
  · intro h
    rcases reader.forms_of_read? h with ⟨get, hform, hget, hfields⟩ | ⟨items, rfl, hlength, hfields⟩
    · obtain ⟨hlabels, haliases⟩ := ofFields?_eq_some_iff.mp hfields
      rw [hget _ (by decide)] at hlabels haliases
      have hnames : Fields.ofNames fieldNames get = ((get "labels").map ("labels", ·)).toList ++
          ((get "aliases").map ("aliases", ·)).toList := by
        rw [fieldNames, Fields.ofNames, List.filterMap_cons, List.filterMap_cons]
        cases get "labels" <;> cases get "aliases" <;> rfl
      simp only [reader, hnames] at hform
      exact .object (CodeMap.member_of_ofJson? hlabels) (CodeMap.member_of_ofJson? haliases) hform
    · obtain ⟨hlabels, haliases⟩ := ofFields?_eq_some_iff.mp hfields
      rcases items with _ | ⟨labels, _ | ⟨aliases, _ | ⟨_, _⟩⟩⟩
      · exact .nothing (Option.some.inj hlabels).symm (Option.some.inj haliases).symm
      · rw [CodeMap.ofJson?_eq_some_iff] at hlabels
        exact .labelsAlone hlabels (Option.some.inj haliases).symm
      · rw [CodeMap.ofJson?_eq_some_iff] at hlabels haliases
        exact .array hlabels haliases
      · simp [reader, fieldNames] at hlength
  · rintro (⟨hlabels, haliases, hobject⟩ | ⟨hlabels, haliases⟩ | ⟨hlabels, haliases⟩ |
      ⟨hlabels, haliases⟩)
    · rw [reader.read?_of_objectForm ?_ hobject]
      · exact ofFields?_append hlabels haliases
      · rw [List.map_append]
        exact hlabels.map_fst_sublist.append haliases.map_fst_sublist
    · rw [reader.read?_array (Nat.zero_le _) (Nat.le_refl _)]
      exact ofFields?_append (.present hlabels) (.present haliases)
    · rw [reader.read?_array (Nat.zero_le _) (Nat.le_succ _)]
      exact ofFields?_append (.present hlabels) (.absent haliases)
    · rw [reader.read?_array (Nat.zero_le _) (Nat.zero_le _)]
      exact ofFields?_append (.absent hlabels) (.absent haliases)

end Settings

/-! ## Texts of records -/

section

variable {α : Type} {ofJson? : Json → Option α} {json : Json}

/-- Every text of a value is refused by a reader. -/
def Json.Refused (ofJson? : Json → Option α) (json : Json) : Prop :=
  ∀ text, json.IsText text → Json.parse? text >>= ofJson? = none

theorem Json.refused_of_eq_none (h : ofJson? json = none) : Refused ofJson? json := by
  intro text htext
  rw [htext.parse?]
  exact h

theorem Json.bind_parse?_eq_some_iff {text : String} {v : α} :
    Json.parse? text >>= ofJson? = some v ↔
      ∃ json : Json, json.IsText text ∧ ofJson? json = some v := by
  simp only [Option.bind_eq_bind, Option.bind_eq_some_iff, Json.parse?_eq_some_iff]

/-- What every reader of a record refuses: an object without a field that it must have, with a field
given twice or with a key that is no text, and an array with too few items. -/
structure Refuses (names required : List String) (least : Nat) (ofJson? : Json → Option α) : Prop where
  missing : ∀ {members : List (Json.Str × Json)} {name : String}, name ∈ required →
    Json.Str.text name ∉ members.map Prod.fst → Json.Refused ofJson? (.object members)
  repeated : ∀ {members : List (Json.Str × Json)} {name : String}, name ∈ names →
    2 ≤ (members.map Prod.fst).count (.text name) → Json.Refused ofJson? (.object members)
  unpaired : ∀ {members : List (Json.Str × Json)}, .unpaired ∈ members.map Prod.fst →
    Json.Refused ofJson? (.object members)
  short : ∀ {items : List Json}, items.length < least → Json.Refused ofJson? (.array items)

theorem Json.RecordReader.refuses
    (reader : RecordReader α) (h : ∀ json, reader.read? json = ofJson? json) :
    Refuses reader.names reader.required reader.least ofJson? := by
  have hrefused : ∀ {json}, reader.read? json = none → Json.Refused ofJson? json :=
    fun hnone => Json.refused_of_eq_none ((h _).symm.trans hnone)
  exact
    { missing := fun hname hmissing => hrefused (reader.read?_of_missing hname hmissing)
      repeated := fun hname hcount => hrefused (reader.read?_of_repeated hname hcount)
      unpaired := fun hunpaired => hrefused (reader.read?_of_unpaired hunpaired)
      short := fun hshort => hrefused (reader.read?_array_eq_none hshort) }

end

/-- A text is accepted as a record exactly if it is a text of one of the forms of the record.  So the
order of the members of an object makes no difference, nor do members that are no fields, for all
records but settings, nor whether no scope or an empty map is left out.  The entries of a map may stand
in any order as well.  A field that is left out otherwise, a field given twice, a key that is no text
and, for settings, any other member are refused in every text. -/
theorem records_are_accepted_in_their_forms :
    ((∀ text (entry : LogEntry), Json.parse? text >>= LogEntry.ofJson? = some entry ↔
        ∃ json : Json, json.IsText text ∧ entry.Form json) ∧
      (∀ text (heading : Heading), Json.parse? text >>= Heading.ofJson? = some heading ↔
        ∃ json : Json, json.IsText text ∧ heading.Form json) ∧
      (∀ text (change : Change), Json.parse? text >>= Change.ofJson? = some change ↔
        ∃ json : Json, json.IsText text ∧ change.Form json) ∧
      (∀ text (settings : Settings), Json.parse? text >>= Settings.ofJson? = some settings ↔
        ∃ json : Json, json.IsText text ∧ settings.Form json) ∧
      ∀ (codes : CodeMap) (entries : List (String × String)), entries.Perm codes.toList →
        CodeMap.Form codes (.ofFields (entries.map fun entry => (entry.1, .ofText entry.2)))) ∧
    (Refuses LogEntry.fieldNames LogEntry.fieldNames 3 LogEntry.ofJson? ∧
      Refuses Heading.fieldNames Heading.fieldNames 2 Heading.ofJson? ∧
      Refuses Change.fieldNames ["hash", "type", "message", "closed_issues"] 5 Change.ofJson? ∧
      Refuses Settings.fieldNames [] 0 Settings.ofJson?) ∧
    ∀ members : List (Json.Str × Json),
      (∃ member ∈ members, ∀ name ∈ Settings.fieldNames, member.1 ≠ .text name) →
        Json.Refused Settings.ofJson? (.object members) := by
  refine ⟨⟨?_, ?_, ?_, ?_, fun _ _ => CodeMap.Form.of_perm⟩,
    ⟨LogEntry.reader.refuses LogEntry.reader_read?, Heading.reader.refuses Heading.reader_read?,
      Change.reader.refuses Change.reader_read?, Settings.reader.refuses Settings.reader_read?⟩, ?_⟩
  · intro text entry
    simp only [Json.bind_parse?_eq_some_iff, LogEntry.ofJson?_eq_some_iff]
  · intro text heading
    simp only [Json.bind_parse?_eq_some_iff, Heading.ofJson?_eq_some_iff]
  · intro text change
    simp only [Json.bind_parse?_eq_some_iff, Change.ofJson?_eq_some_iff]
  · intro text settings
    simp only [Json.bind_parse?_eq_some_iff, Settings.ofJson?_eq_some_iff]
  · intro members hunknown
    apply Json.refused_of_eq_none
    rw [← Settings.reader_read?]
    exact Settings.reader.read?_of_unknown rfl hunknown

/-- A change in an object with its fields out of order, an array for its heading, no scope and a member
that is no field. -/
def shuffledText : String :=
  "\x7b \"x\": [1.5e3, \"\\ud800\"], \"type\": [\"labeled\", \"Fixes\"], \"m\\u0065ssage\": \"m\",
    \"closed_issues\": [\"1\"], \"hash\": \"h\" \x7d"

/-- The shuffled text is accepted.  A heading whose kind is given twice, an entry without a body, two
items for an entry, and settings with another member are not. -/
theorem records_are_accepted_in_shuffled_forms :
    (∃ json : Json, json.IsText shuffledText ∧
      Change.Form ⟨"h", .labelled "Fixes", none, "m", ["1"]⟩ json) ∧
    Json.Refused Heading.ofJson? (.object [(.text "kind", .ofText "labeled"),
      (.text "value", .ofText "x"), (.text "kind", .ofText "labeled")]) ∧
    Json.Refused LogEntry.ofJson? (.object [(.text "hash", .ofText "h"),
      (.text "header", .ofText "x")]) ∧
    Json.Refused LogEntry.ofJson? (.array [.ofText "h", .ofText "x"]) ∧
    Json.Refused Settings.ofJson? (.object [(.text "labels", .object []),
      (.text "extra", .number "1")]) := by
  obtain ⟨⟨-, -, hchange, -, -⟩, ⟨hentry, hheading, -, -⟩, hunknown⟩ :=
    records_are_accepted_in_their_forms
  refine ⟨(hchange _ _).mp (by cbv), ?_, ?_, hentry.short (by decide), ?_⟩
  · have hkind : "kind" ∈ Heading.fieldNames := by decide
    exact hheading.repeated hkind (by decide)
  · have hbody : "body" ∈ LogEntry.fieldNames := by decide
    exact hentry.missing hbody (by decide)
  · exact hunknown _ ⟨(.text "extra", .number "1"), by simp, by decide⟩

/-- A log entry beside a member whose key is half a surrogate pair. -/
def halfPairText : String :=
  "\x7b\"hash\":\"h\",\"header\":\"x\",\"body\":\"\",\"\\ud800\":null\x7d"

/-- A member that is no field changes what is read if its key is no text. -/
theorem exists_other_member_refused :
    (Json.object [(.text "hash", .ofText "h"), (.text "header", .ofText "x"),
      (.text "body", .ofText ""), (.unpaired, .null)]).IsText halfPairText ∧
    (∀ name ∈ LogEntry.fieldNames, Json.Str.unpaired ≠ .text name) ∧
    LogEntry.ofJson? (.object [(.text "hash", .ofText "h"), (.text "header", .ofText "x"),
      (.text "body", .ofText "")]) = some ⟨"h", "x", ""⟩ ∧
    Json.parse? halfPairText >>= LogEntry.ofJson? = none :=
  ⟨Json.parse?_eq_some_iff.mp (by cbv), by decide, rfl, by cbv⟩

end Changelog

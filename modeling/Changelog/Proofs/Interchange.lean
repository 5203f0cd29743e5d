import Changelog.Interchange
import Changelog.Proofs.Json.Printed
import Changelog.Proofs.Json.Record

/-!
# Records that are written are read back

The written form of a record is an object with each field once and in order, so reading it finds the
fields as they were written.  A map is written in the order of its codes, and each code occurs once.

As reading undoes writing, no two records have one text: not a label and a bare code that read alike,
and not a change without a scope and one whose scope is empty.
-/

namespace Changelog

namespace Json

theorem numberless_ofText (s : String) : (ofText s).Numberless := .string _

theorem numberless_ofTexts (ss : List String) : (ofTexts ss).Numberless := by
  refine .array fun item hitem => ?_
  obtain ⟨s, -, rfl⟩ := List.mem_map.mp hitem
  exact numberless_ofText s

theorem numberless_ofFields {fields : Fields} (h : ∀ field ∈ fields, field.2.Numberless) :
    (ofFields fields).Numberless := by
  refine .object fun member hmember => ?_
  obtain ⟨field, hfield, rfl⟩ := List.mem_map.mp hmember
  exact h field hfield

end Json

namespace LogEntry

variable (entry : LogEntry)

theorem numberless_toJson : entry.toJson.Numberless := by
  apply Json.numberless_ofFields
  simp [Json.numberless_ofText]

theorem ofJson?_toJson : ofJson? entry.toJson = some entry := by
  rw [toJson, Json.ofFields, ofJson?, @Json.objectFields?_written fieldNames _ rfl (by decide)]
  rfl

end LogEntry

namespace Heading

variable (heading : Heading)

theorem numberless_toJson : heading.toJson.Numberless := by
  cases heading with
  | labelled _ | unformatted _ =>
      apply Json.numberless_ofFields
      simp [Json.numberless_ofText]

theorem ofJson?_toJson : ofJson? heading.toJson = some heading := by
  cases heading with
  | labelled _ | unformatted _ =>
      rw [toJson, Json.ofFields, ofJson?, @Json.objectFields?_written fieldNames _ rfl (by decide)]
      rfl

end Heading

namespace Change

theorem numberless_scopeToJson (scope? : Option String) : (scopeToJson scope?).Numberless := by
  cases scope? with
  | none => exact .null
  | some scope => exact Json.numberless_ofText scope

/-- A missing scope is null and an empty one is a text, so they stay apart. -/
theorem scopeOfJson?_scopeToJson (scope? : Option String) :
    scopeOfJson? (scopeToJson scope?) = some scope? := by
  cases scope? <;> rfl

variable (change : Change)

theorem numberless_toJson : change.toJson.Numberless := by
  apply Json.numberless_ofFields
  simp [Json.numberless_ofText, Json.numberless_ofTexts, numberless_scopeToJson,
    Heading.numberless_toJson]

theorem ofJson?_toJson : ofJson? change.toJson = some change := by
  rw [toJson, Json.ofFields, ofJson?, @Json.objectFields?_written fieldNames _ rfl (by decide)]
  simp [ofFields?, Json.Fields.get?, List.lookup, Heading.ofJson?_toJson, scopeOfJson?_scopeToJson]

end Change

namespace CodeMap

variable (codes : CodeMap)

theorem numberless_toJson : (toJson codes).Numberless := by
  refine Json.numberless_ofFields fun field hfield => ?_
  obtain ⟨entry, -, rfl⟩ := List.mem_map.mp hfield
  exact Json.numberless_ofText entry.2

/-- The entries of a map give it in any order. -/
theorem ofList_of_perm {codes : CodeMap} {entries : List (String × String)}
    (h : entries.Perm codes.toList) : .ofList entries compare = codes := by
  apply Std.ExtTreeMap.ext_getElem?
  intro code
  cases hcode : codes[code]? with
  | some text =>
      have hmem := h.mem_iff.mpr (Std.ExtTreeMap.mem_toList_iff_getElem?_eq_some.mpr hcode)
      have hdistinct := h.symm.pairwise codes.distinct_keys_toList fun hne heq =>
        hne (Std.OrientedCmp.eq_symm heq)
      exact Std.ExtTreeMap.getElem?_ofList_of_mem Std.compare_self hdistinct hmem
  | none =>
      have habsent : code ∉ codes := by simpa using hcode
      apply Std.ExtTreeMap.getElem?_ofList_of_contains_eq_false
      rw [List.contains_eq_mem, decide_eq_false_iff_not, (h.map Prod.fst).mem_iff,
        Std.ExtTreeMap.map_fst_toList_eq_keys, Std.ExtTreeMap.mem_keys]
      exact habsent

theorem ofJson?_ofFields (entries : List (String × String)) :
    ofJson? (.ofFields (entries.map fun entry => (entry.1, .ofText entry.2))) =
      some (.ofList entries compare) := by
  rw [Json.ofFields, ofJson?, Json.named?_fields, Option.bind_eq_bind, Option.bind_some,
    Steps.mapM_map_eq_some (fun entry : String × String => (entry.1, Json.ofText entry.2))
      (fun _ => rfl)]
  rfl

theorem ofJson?_toJson : ofJson? (toJson codes) = some codes := by
  rw [toJson, ofJson?_ofFields, ofList_of_perm (.refl _)]

end CodeMap

namespace Settings

variable (settings : Settings)

theorem numberless_toJson : settings.toJson.Numberless := by
  apply Json.numberless_ofFields
  simp [CodeMap.numberless_toJson]

theorem ofJson?_toJson : ofJson? settings.toJson = some settings := by
  rw [toJson, Json.ofFields, ofJson?, @Json.objectFields?_written fieldNames _ rfl (by decide)]
  simp [ofFields?, Json.Fields.get?, List.lookup, CodeMap.ofJson?_toJson]

end Settings

/-! ## The texts of records -/

/-- A value is what its written text is read as. -/
def ReadsBack {α : Type} (toJson : α → Json) (ofJson? : Json → Option α) (v : α) : Prop :=
  Json.parse? (toJson v).print >>= ofJson? = some v

namespace ReadsBack

variable {α : Type} {toJson : α → Json} {ofJson? : Json → Option α} {v w : α}

theorem of_numberless (hv : (toJson v).Numberless) (hread : ofJson? (toJson v) = some v) :
    ReadsBack toJson ofJson? v := by
  rw [ReadsBack, hv.parse?_print]
  exact hread

/-- Values with one text are one value. -/
theorem eq_of_print_eq
    (hv : ReadsBack toJson ofJson? v) (hw : ReadsBack toJson ofJson? w)
    (htext : (toJson v).print = (toJson w).print) : v = w := by
  rw [ReadsBack, htext] at hv
  exact Option.some.inj (hv.symm.trans hw)

end ReadsBack

theorem LogEntry.readsBack (entry : LogEntry) : ReadsBack toJson ofJson? entry :=
  .of_numberless entry.numberless_toJson entry.ofJson?_toJson

theorem Heading.readsBack (heading : Heading) : ReadsBack toJson ofJson? heading :=
  .of_numberless heading.numberless_toJson heading.ofJson?_toJson

theorem Change.readsBack (change : Change) : ReadsBack toJson ofJson? change :=
  .of_numberless change.numberless_toJson change.ofJson?_toJson

theorem Settings.readsBack (settings : Settings) : ReadsBack toJson ofJson? settings :=
  .of_numberless settings.numberless_toJson settings.ofJson?_toJson

/-- Every record is read back from its text, whatever its strings are and however many issues or
entries it has.  The two sorts of headings have different texts even for one string, and so have
changes that differ only in that one has no scope and the other an empty one. -/
theorem written_records_are_read_back :
    (∀ entry : LogEntry,
      Json.parse? entry.toJson.print >>= LogEntry.ofJson? = some entry) ∧
    (∀ heading : Heading,
      Json.parse? heading.toJson.print >>= Heading.ofJson? = some heading) ∧
    (∀ change : Change,
      Json.parse? change.toJson.print >>= Change.ofJson? = some change) ∧
    (∀ settings : Settings,
      Json.parse? settings.toJson.print >>= Settings.ofJson? = some settings) ∧
    (∀ s : String,
      (Heading.labelled s).toJson.print ≠ (Heading.unformatted s).toJson.print) ∧
    ∀ change : Change, { change with scope? := none }.toJson.print ≠
      { change with scope? := some "" }.toJson.print := by
  refine ⟨LogEntry.readsBack, Heading.readsBack, Change.readsBack, Settings.readsBack, ?_, ?_⟩
  · intro s htext
    have heq := (Heading.labelled s).readsBack.eq_of_print_eq (Heading.unformatted s).readsBack htext
    exact Heading.noConfusion heq
  · intro change htext
    have heq := (Change.readsBack _).eq_of_print_eq (Change.readsBack _) htext
    have hscope := congrArg Change.scope? heq
    exact Option.some_ne_none _ hscope.symm

end Changelog

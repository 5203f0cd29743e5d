import Changelog.Json.Fields
import Changelog.Proofs.Steps
import Mathlib

/-!
# Reading records

A record is read from the members of an object or from the items of an array.  What is read from an
object depends only on the members that are fields, and not on their order: the fields must occur once
each, so a search for a name finds the one member that has it.

So all readers of records share what they refuse: a key that is no text, a field given twice, a
required field left out, an array that is too short, and, for some of them, any other member.
-/

namespace Changelog.Json

variable {names : List String} {surplus : Surplus} {fields fields' others : Fields} {name : String}
  {members : List (Str × Json)} {v : Json}

/-! ## Fields by name -/

namespace Fields

/-- The fields that have one of the names. -/
def known (names : List String) (fields : Fields) : Fields :=
  fields.filter fun field => names.contains field.1

theorem mem_known {field : String × Json} :
    field ∈ fields.known names ↔ field ∈ fields ∧ field.1 ∈ names := by
  rw [known, List.mem_filter, List.contains_iff_mem]

theorem known_eq_self (h : ∀ field ∈ fields, field.1 ∈ names) : fields.known names = fields := by
  apply List.filter_eq_self.mpr
  intro field hfield
  exact List.contains_iff_mem.mpr (h field hfield)

theorem known_eq_nil (h : ∀ field ∈ fields, field.1 ∉ names) : fields.known names = [] := by
  apply List.eq_nil_iff_forall_not_mem.mpr
  intro field hfield
  obtain ⟨hmem, hname⟩ := mem_known.mp hfield
  exact h field hmem hname

/-- Fields beside others are the known ones among all of them. -/
theorem known_perm (hnames : ∀ field ∈ fields, field.1 ∈ names)
    (hothers : ∀ other ∈ others, other.1 ∉ names) (horder : fields'.Perm (fields ++ others)) :
    (fields'.known names).Perm fields := by
  have hfilter := horder.filter fun field => names.contains field.1
  rw [List.filter_append] at hfilter
  change (fields'.known names).Perm (fields.known names ++ known names others) at hfilter
  rwa [known_eq_self hnames, known_eq_nil hothers, List.append_nil] at hfilter

/-- A name of a field is among the known fields as often as among the members. -/
theorem count_known (hname : name ∈ names) :
    ((fields.known names).map Prod.fst).count name =
      ((fields.map fun field => (Str.text field.1, field.2)).map Prod.fst).count (.text name) := by
  simp only [List.count, List.map_map, List.countP_map, known, List.countP_filter]
  apply List.countP_congr
  intro field _
  simp only [Function.comp_apply, Bool.and_eq_true, beq_iff_eq, List.contains_iff_mem,
    Str.text.injEq, and_iff_left_iff_imp]
  rintro rfl
  exact hname

theorem get?_eq_none (h : name ∉ fields.map Prod.fst) : fields.get? name = none := by
  apply List.lookup_eq_none_iff.mpr
  intro field hfield
  rw [bne_iff_ne]
  rintro rfl
  exact h (List.mem_map_of_mem hfield)

/-- Where no name occurs twice, a search finds whatever has the name, since no field in front of it
has. -/
theorem get?_eq_some_iff (hdistinct : (fields.map Prod.fst).Nodup) :
    fields.get? name = some v ↔ (name, v) ∈ fields := by
  rw [get?, List.lookup_eq_some_iff]
  constructor
  · rintro ⟨front, rest, rfl, -⟩
    simp
  · intro hmem
    obtain ⟨front, rest, rfl⟩ := List.append_of_mem hmem
    refine ⟨front, rest, rfl, fun field hfield => ?_⟩
    rw [List.map_append, List.map_cons] at hdistinct
    have hapart := (List.nodup_append.mp hdistinct).2.2
    rw [bne_iff_ne]
    exact (hapart field.1 (List.mem_map_of_mem hfield) name List.mem_cons_self).symm

theorem get?_perm (h : fields.Perm fields') (hdistinct : (fields.map Prod.fst).Nodup)
    (name : String) : fields.get? name = fields'.get? name := by
  have hdistinct' := (h.map Prod.fst).nodup_iff.mp hdistinct
  ext v
  rw [get?_eq_some_iff hdistinct, get?_eq_some_iff hdistinct', h.mem_iff]

/-- The fields that are there, in the order of their names. -/
def ofNames (names : List String) (get : String → Option Json) : Fields :=
  names.filterMap fun name => (get name).map (name, ·)

variable {get : String → Option Json}

theorem mem_ofNames : (name, v) ∈ ofNames names get ↔ name ∈ names ∧ get name = some v := by
  simp only [ofNames, List.mem_filterMap, Option.map_eq_some_iff, Prod.mk.injEq]
  constructor
  · rintro ⟨_, hname, _, hget, rfl, rfl⟩
    exact ⟨hname, hget⟩
  · rintro ⟨hname, hget⟩
    exact ⟨name, hname, v, hget, rfl, rfl⟩

theorem map_fst_ofNames_sublist : ((ofNames names get).map Prod.fst).Sublist names := by
  induction names with
  | nil => exact List.Sublist.refl _
  | cons name names ih =>
      rw [ofNames, List.filterMap_cons]
      cases get name with
      | none => exact ih.cons _
      | some v => exact ih.cons_cons _

theorem get?_ofNames (hnames : names.Nodup) (hname : name ∈ names) :
    (ofNames names get).get? name = get name := by
  ext v
  rw [get?_eq_some_iff (hnames.sublist map_fst_ofNames_sublist), mem_ofNames]
  exact and_iff_right hname

/-- Fields without repetition are those that a search finds, up to their order. -/
theorem perm_ofNames (hnames : names.Nodup) (hmem : ∀ field ∈ fields, field.1 ∈ names)
    (hdistinct : (fields.map Prod.fst).Nodup) : fields.Perm (ofNames names fields.get?) := by
  apply (List.perm_ext_iff_of_nodup hdistinct.of_map ?_).mpr
  · rintro ⟨name, v⟩
    rw [mem_ofNames, get?_eq_some_iff hdistinct]
    exact ⟨fun hfield => ⟨hmem _ hfield, hfield⟩, And.right⟩
  · exact (hnames.sublist map_fst_ofNames_sublist).of_map

end Fields

/-! ## Fields among the members of an object -/

theorem named?_fields (fields : Fields) :
    named? (fields.map fun field => (.text field.1, field.2)) = some fields :=
  Steps.mapM_map_eq_some (fun field : String × Json => (Str.text field.1, field.2))
    (fun _ => rfl) fields

/-- Members have names exactly if they are fields written as members. -/
theorem named?_eq_some_iff :
    named? members = some fields ↔
      members = fields.map fun field => (.text field.1, field.2) := by
  apply Steps.mapM_eq_some_iff
  rintro ⟨key, v⟩ ⟨name, w⟩
  cases key <;> simp [Str.text?]

/-- What an object gives whose keys are texts. -/
theorem objectFields?_fields (names : List String) (surplus : Surplus) (fields : Fields) :
    objectFields? names surplus (fields.map fun field => (.text field.1, field.2)) =
      if (surplus = .ignored ∨ (fields.known names).length = fields.length) ∧
          ((fields.known names).map Prod.fst).Nodup then
        some (fields.known names)
      else none := by
  rw [objectFields?, named?_fields, Option.bind_eq_bind, Option.bind_some]
  change (guard (surplus = .ignored ∨ (fields.known names).length = fields.length) >>= fun _ =>
    guard ((fields.known names).map Prod.fst).Nodup >>= fun _ => some (fields.known names)) = _
  by_cases hsurplus : surplus = .ignored ∨ (fields.known names).length = fields.length
  · by_cases hdistinct : ((fields.known names).map Prod.fst).Nodup
    · simp [guard, hsurplus, hdistinct]
    · simp [guard, hdistinct]
  · simp [guard, hsurplus]

/-- The fields of a record that is written in full are found, whatever it does with other members. -/
theorem objectFields?_written (hnames : fields.map Prod.fst = names) (hdistinct : names.Nodup)
    (surplus : Surplus) :
    objectFields? names surplus (fields.map fun field => (.text field.1, field.2)) =
      some fields := by
  have hall : fields.known names = fields := by
    apply Fields.known_eq_self
    intro field hfield
    rw [← hnames]
    exact List.mem_map_of_mem hfield
  rw [objectFields?_fields, hall, hnames, if_pos ⟨.inr rfl, hdistinct⟩]

theorem exists_fields_of_objectFields? {known : Fields}
    (h : objectFields? names surplus members = some known) :
    ∃ fields : Fields, (members = fields.map fun field => (.text field.1, field.2)) ∧
      (surplus = .ignored ∨ (fields.known names).length = fields.length) ∧
      ((fields.known names).map Prod.fst).Nodup ∧ fields.known names = known := by
  obtain ⟨fields, hnamed, -⟩ := Option.bind_eq_some_iff.mp h
  obtain rfl := named?_eq_some_iff.mp hnamed
  rw [objectFields?_fields] at h
  split_ifs at h with hfields
  exact ⟨fields, rfl, hfields.1, hfields.2, Option.some.inj h⟩

/-- An object that holds the fields, in any order, beside members that are none of the names.  There
are no such members where they are refused. -/
inductive ObjectForm (names : List String) (surplus : Surplus) (fields : Fields) : Json → Prop
  | intro {others members : Fields} (hothers : ∀ other ∈ others, other.1 ∉ names)
      (hsurplus : surplus = .ignored ∨ others = []) (horder : members.Perm (fields ++ others)) :
      ObjectForm names surplus fields (.ofFields members)

/-- The fields of an object that holds them once each are found, in some order. -/
theorem ObjectForm.exists_objectFields? {json : Json} (hnames : names.Nodup)
    (hfields : (fields.map Prod.fst).Sublist names) (h : ObjectForm names surplus fields json) :
    ∃ members known, json = .object members ∧ objectFields? names surplus members = some known ∧
      known.Perm fields := by
  obtain ⟨hothers, hsurplus, horder⟩ := h
  have hmem : ∀ field ∈ fields, field.1 ∈ names := fun field hfield =>
    hfields.subset (List.mem_map_of_mem hfield)
  have hknown := Fields.known_perm hmem hothers horder
  refine ⟨_, _, rfl, ?_, hknown⟩
  rw [objectFields?_fields, if_pos]
  refine ⟨hsurplus.imp_right ?_, (hknown.map Prod.fst).nodup_iff.mpr (hnames.sublist hfields)⟩
  rintro rfl
  rw [hknown.length_eq, horder.length_eq, List.append_nil]

/-- An object in which fields are found holds them, each once. -/
theorem objectForm_of_objectFields? {known : Fields} (hnames : names.Nodup)
    (h : objectFields? names surplus members = some known) :
    ObjectForm names surplus (.ofNames names known.get?) (.object members) := by
  obtain ⟨fields, rfl, hsurplus, hdistinct, rfl⟩ := exists_fields_of_objectFields? h
  have hsplit : fields.Perm
      (fields.known names ++ fields.filter fun field => !names.contains field.1) :=
    (List.filter_append_perm _ _).symm
  have hperm := Fields.perm_ofNames hnames
    (fun field hfield => (Fields.mem_known.mp hfield).2) hdistinct
  refine .intro ?_ ?_ (hsplit.trans (hperm.append_right _))
  · intro other hother
    simpa using (List.mem_filter.mp hother).2
  · refine hsurplus.imp_right fun hlength => ?_
    have hall := List.length_filter_eq_length_iff.mp hlength
    apply List.filter_eq_nil_iff.mpr
    intro field hfield
    simpa using hall field hfield

/-! ## Readers of records -/

/-- A reader of records: which fields it looks for, and what it makes of those it finds. -/
structure RecordReader (α : Type) where
  /-- The fields, in order. -/
  names : List String
  /-- The fields that an object must have. -/
  required : List String
  /-- What becomes of other members. -/
  surplus : Surplus
  /-- How many items an array must have. -/
  least : Nat
  /-- The record from the members of an object. -/
  ofMembers? : Fields → Option α
  /-- The record from the items of an array. -/
  ofItems? : Fields → Option α
  names_nodup : names.Nodup
  /-- The members are asked for by name. -/
  ofMembers?_congr : ∀ {fields fields' : Fields},
    (∀ name, fields.get? name = fields'.get? name) → ofMembers? fields = ofMembers? fields'
  ofMembers?_eq_none : ∀ {fields : Fields} {name : String},
    name ∈ required → fields.get? name = none → ofMembers? fields = none

namespace RecordReader

variable {α : Type} (reader : RecordReader α)

/-- Read a record. -/
def read? : Json → Option α
  | .object members => objectFields? reader.names reader.surplus members >>= reader.ofMembers?
  | .array items => arrayFields? reader.names reader.least items >>= reader.ofItems?
  | _ => none

/-- An object is read by its fields alone. -/
theorem read?_of_objectForm {json : Json} (hnames : (fields.map Prod.fst).Sublist reader.names)
    (h : ObjectForm reader.names reader.surplus fields json) :
    reader.read? json = reader.ofMembers? fields := by
  obtain ⟨members, known, rfl, hknown, hperm⟩ := h.exists_objectFields? reader.names_nodup hnames
  change objectFields? _ _ _ >>= _ = _
  rw [hknown, Option.bind_eq_bind, Option.bind_some]
  apply reader.ofMembers?_congr
  have hdistinct := reader.names_nodup.sublist hnames
  exact Fields.get?_perm hperm ((hperm.map Prod.fst).nodup_iff.mpr hdistinct)

/-- A record that is read is what the fields of an object or the items of an array give. -/
theorem forms_of_read? {json : Json} {record : α} (h : reader.read? json = some record) :
    (∃ get : String → Option Json,
      ObjectForm reader.names reader.surplus (.ofNames reader.names get) json ∧
        (∀ name ∈ reader.names, (Fields.ofNames reader.names get).get? name = get name) ∧
        reader.ofMembers? (.ofNames reader.names get) = some record) ∨
    ∃ items, json = .array items ∧
      (reader.least ≤ items.length ∧ items.length ≤ reader.names.length) ∧
        reader.ofItems? (reader.names.zip items) = some record := by
  cases json with
  | object members =>
      obtain ⟨known, hknown, -⟩ := Option.bind_eq_some_iff.mp h
      have hform := objectForm_of_objectFields? reader.names_nodup hknown
      left
      refine ⟨known.get?, hform, fun name => Fields.get?_ofNames reader.names_nodup, ?_⟩
      rw [← reader.read?_of_objectForm Fields.map_fst_ofNames_sublist hform]
      exact h
  | array items =>
      obtain ⟨fields, hfields, hrecord⟩ := Option.bind_eq_some_iff.mp h
      obtain ⟨_, hlength, hfields⟩ := Option.bind_eq_some_iff.mp hfields
      obtain rfl := Option.some.inj hfields
      right
      exact ⟨items, rfl, (Option.guard_eq_some' ..).mp hlength, hrecord⟩
  | _ => cases h

/-- Whether an array is read depends on the number of its items. -/
theorem read?_array {items : List Json} (hleast : reader.least ≤ items.length)
    (hmost : items.length ≤ reader.names.length) :
    reader.read? (.array items) = reader.ofItems? (reader.names.zip items) := by
  change arrayFields? _ _ _ >>= _ = _
  simp [arrayFields?, guard, hleast, hmost]

theorem read?_array_eq_none {items : List Json} (h : items.length < reader.least) :
    reader.read? (.array items) = none := by
  change arrayFields? _ _ _ >>= _ = _
  simp [arrayFields?, guard, Nat.not_le.mpr h]

/-- An object is refused if none of the fields that could be found in it gives a record. -/
theorem read?_object_eq_none
    (h : ∀ fields : Fields, (members = fields.map fun field => (.text field.1, field.2)) →
      (reader.surplus = .ignored ∨ (fields.known reader.names).length = fields.length) →
      ((fields.known reader.names).map Prod.fst).Nodup →
      reader.ofMembers? (fields.known reader.names) = none) :
    reader.read? (.object members) = none := by
  apply Option.bind_eq_none_iff.mpr
  intro known hknown
  obtain ⟨fields, hmembers, hsurplus, hdistinct, rfl⟩ := exists_fields_of_objectFields? hknown
  exact h fields hmembers hsurplus hdistinct

theorem read?_of_missing (hname : name ∈ reader.required)
    (h : Str.text name ∉ members.map Prod.fst) : reader.read? (.object members) = none := by
  apply read?_object_eq_none
  rintro fields rfl - -
  apply reader.ofMembers?_eq_none hname
  apply Fields.get?_eq_none
  intro hmem
  obtain ⟨field, hfield, rfl⟩ := List.mem_map.mp hmem
  apply h
  rw [List.map_map]
  exact List.mem_map_of_mem (Fields.mem_known.mp hfield).1

theorem read?_of_repeated (hname : name ∈ reader.names)
    (h : 2 ≤ (members.map Prod.fst).count (.text name)) : reader.read? (.object members) = none := by
  apply read?_object_eq_none
  rintro fields rfl - hdistinct
  have hone := List.nodup_iff_count_le_one.mp hdistinct name
  rw [Fields.count_known hname] at hone
  omega

theorem read?_of_unpaired (h : .unpaired ∈ members.map Prod.fst) :
    reader.read? (.object members) = none := by
  apply read?_object_eq_none
  rintro fields rfl
  simp at h

theorem read?_of_unknown (hsurplus : reader.surplus = .refused)
    (h : ∃ member ∈ members, ∀ name ∈ reader.names, member.1 ≠ .text name) :
    reader.read? (.object members) = none := by
  apply read?_object_eq_none
  rintro fields rfl hall -
  obtain ⟨member, hmember, hunknown⟩ := h
  obtain ⟨field, hfield, rfl⟩ := List.mem_map.mp hmember
  rcases hall with hignored | hlength
  · rw [hsurplus] at hignored
    cases hignored
  · have hname := List.length_filter_eq_length_iff.mp hlength field hfield
    exact absurd rfl (hunknown field.1 (List.contains_iff_mem.mp hname))

end RecordReader

end Changelog.Json

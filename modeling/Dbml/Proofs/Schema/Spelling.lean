import Dbml.Proofs.Json.RoundTrip
import Dbml.Schema.Json
import Mathlib.Data.List.Forall2

/-!
# How schema objects are spelled as JSON

What a JSON value has to hold to spell an object, by the fields of the object (`Field`): either an
object that gives each of them at most once, among other members and in any order, or an array that
lists them in order (`Record`). A field that is as by default may be left out, in an array at its
end only.

A value is read as an object if and only if it spells the object (`Reads`), so a text is read as the
object if and only if it is a JSON text of such a value (`ReadsTexts`), and what is written is read
back (`ReadsBack`). A member with another key may have any value, but its key has to be a string:
one in which half of a surrogate pair stands alone is refused (`Column.not_read_half_key`).
-/

namespace Dbml

open Json (Value)

/-! ## Fields -/

/-- A field of an object, by what JSON can hold for it. -/
structure Field where
  key : String
  /-- The values that spell what the object has in the field. -/
  Spelt : Value → Prop
  /-- Whether the field may be left out. -/
  MayMiss : Prop

namespace Field

/-- A field that has to be given. -/
def required {α : Type} (key : String) (P : α → Value → Prop) (a : α) : Field :=
  ⟨key, P a, False⟩

/-- A field that may be left out if it is as by default. -/
def optional {α : Type} (key : String) (default : α) (P : α → Value → Prop) (a : α) : Field :=
  ⟨key, P a, a = default⟩

/-- The members of an object give a field as they should. -/
structure Fits (f : Field) (members : List (Option String × Value)) : Prop where
  once : (members.map Prod.fst).count (some f.key) ≤ 1
  spelt : ∀ {v : Value}, (some f.key, v) ∈ members → f.Spelt v
  absent : some f.key ∉ members.map Prod.fst → f.MayMiss

/-- What a slot holds is right for a field. -/
def Filled (f : Field) : Option Value → Prop
  | some v => f.Spelt v
  | none => f.MayMiss

end Field

/-- The values that spell an object with the given fields. The members of an object may be more than
the fields, as long as their keys are strings. -/
inductive Record (fields : List Field) : Value → Prop where
  | object {members : List (Option String × Value)} (hkeys : ∀ m ∈ members, m.1 ≠ none)
    (h : ∀ f ∈ fields, f.Fits members) : Record fields (.object members)
  | array {given left : List Field} {items : List Value} (hfields : fields = given ++ left)
    (hitems : List.Forall₂ (fun f v => f.Spelt v) given items) (hleft : ∀ f ∈ left, f.MayMiss) :
    Record fields (.array items)

/-- The value of a string. -/
def TextSpelling (s : String) (v : Value) : Prop := v = .str s

/-- The arrays whose items spell the members of a list in order. -/
def ListSpelling {α : Type} (P : α → Value → Prop) (as : List α) (v : Value) : Prop :=
  ∃ items, v = .array items ∧ List.Forall₂ P as items

/-! ## Slots -/

/-- The values that members give for a key. -/
def given (members : List (Option String × Value)) (key : String) : List Value :=
  (members.filter fun m => m.1 == some key).map Prod.snd

/-- The slot of a key holds what the members give for it; a key that is given twice has none. -/
theorem slot?_eq_some_iff {members : List (Option String × Value)} {key : String}
    {slot : Option Value} : slot? members key = some slot ↔ given members key = slot.toList := by
  unfold slot? given
  generalize members.filter (fun m => m.1 == some key) = ms
  rcases ms with _ | ⟨m, _ | ⟨n, ms⟩⟩ <;> cases slot <;> simp

theorem mem_given {members : List (Option String × Value)} {key : String} {v : Value} :
    v ∈ given members key ↔ (some key, v) ∈ members := by
  simp [given]

theorem length_given (members : List (Option String × Value)) (key : String) :
    (given members key).length = (members.map Prod.fst).count (some key) := by
  rw [given, List.length_map, List.count, List.countP_map, List.countP_eq_length_filter]
  rfl

theorem given_eq_nil_iff {members : List (Option String × Value)} {key : String} :
    given members key = [] ↔ some key ∉ members.map Prod.fst := by
  rw [← List.length_eq_zero_iff, length_given, List.count_eq_zero]

theorem exists_slot?_iff {members : List (Option String × Value)} {f : Field} :
    (∃ slot, slot? members f.key = some slot ∧ f.Filled slot) ↔ f.Fits members := by
  simp only [slot?_eq_some_iff]
  constructor
  · rintro ⟨slot, hgiven, hfilled⟩
    refine ⟨?_, ?_, ?_⟩
    · rw [← length_given, hgiven]
      cases slot <;> simp
    · intro v hv
      rw [← mem_given, hgiven, Option.mem_toList] at hv
      rw [hv] at hfilled
      exact hfilled
    · intro hkey
      rw [← given_eq_nil_iff, hgiven, Option.toList_eq_nil_iff] at hkey
      rw [hkey] at hfilled
      exact hfilled
  · rintro ⟨hone, hspelt, habsent⟩
    rw [← length_given] at hone
    simp only [← mem_given, ← given_eq_nil_iff] at hspelt habsent
    match hgiven : given members f.key with
    | [] => exact ⟨none, rfl, habsent hgiven⟩
    | [v] => exact ⟨some v, rfl, hspelt (by simp [hgiven])⟩
    | v :: w :: vs => simp [hgiven] at hone

/-- All fields have slots that fill them if the members fit each. -/
theorem exists_slots_iff {members : List (Option String × Value)} {fields : List Field} :
    (∃ slots, (fields.map Field.key).mapM (slot? members) = some slots ∧
      List.Forall₂ Field.Filled fields slots) ↔ ∀ f ∈ fields, f.Fits members := by
  induction fields with
  | nil => simp
  | cons f fields ih =>
    rw [List.forall_mem_cons, ← ih, ← exists_slot?_iff]
    constructor
    · rintro ⟨slots, hmap, hfilled⟩
      rw [List.map_cons, List.mapM_cons] at hmap
      obtain ⟨slot, hslot, hmap⟩ := Option.bind_eq_some_iff.1 hmap
      obtain ⟨slots, hslots, he⟩ := Option.bind_eq_some_iff.1 hmap
      cases he
      cases hfilled with
      | cons h hs => exact ⟨⟨slot, hslot, h⟩, slots, hslots, hs⟩
    · rintro ⟨⟨slot, hslot, h⟩, slots, hslots, hs⟩
      exact ⟨slot :: slots, by simp [List.mapM_cons, hslot, hslots], .cons h hs⟩

theorem forall₂_replicate {α β : Type} {R : α → β → Prop} {as : List α} {b : β} :
    List.Forall₂ R as (List.replicate as.length b) ↔ ∀ a ∈ as, R a b := by
  induction as with
  | nil => simp
  | cons a as ih => simp [List.replicate_succ, ih]

/-- The fields of an array: those that its items stand for, and those that are left out. -/
theorem forall₂_filled_iff {fields : List Field} {items : List Value} :
    items.length ≤ fields.length ∧ List.Forall₂ Field.Filled fields
        (items.map some ++ List.replicate (fields.length - items.length) none) ↔
      ∃ given left, fields = given ++ left ∧
        List.Forall₂ (fun f v => f.Spelt v) given items ∧ ∀ f ∈ left, f.MayMiss := by
  induction items generalizing fields with
  | nil => simp [forall₂_replicate, Field.Filled]
  | cons v items ih =>
    constructor
    · rintro ⟨hlength, hfilled⟩
      cases hfilled with
      | @cons f _ fields _ h hs =>
        simp only [List.length_cons, Nat.add_le_add_iff_right, Nat.add_sub_add_right] at hlength hs
        obtain ⟨given, left, rfl, hgiven, hleft⟩ := ih.1 ⟨hlength, hs⟩
        exact ⟨f :: given, left, rfl, .cons h hgiven, hleft⟩
    · rintro ⟨given, left, rfl, hgiven, hleft⟩
      cases hgiven with
      | @cons f _ given _ h hs =>
        obtain ⟨hlength, hfilled⟩ := ih.2 ⟨given, left, rfl, hs, hleft⟩
        simp only [List.cons_append, List.length_cons, Nat.add_le_add_iff_right,
          Nat.add_sub_add_right, List.map_cons]
        exact ⟨hlength, .cons h hfilled⟩

/-- A value spells an object if and only if its slots are filled as the fields ask for. -/
theorem record_iff {fields : List Field} {v : Value} :
    Record fields v ↔ ∃ slots, slots? (fields.map Field.key) v = some slots ∧
      List.Forall₂ Field.Filled fields slots := by
  cases v with
  | object members =>
    have hall : members.all (·.1.isSome) = true ↔ ∀ m ∈ members, m.1 ≠ none := by
      simp only [List.all_eq_true, Option.isSome_iff_ne_none]
    simp only [slots?]
    constructor
    · rintro (⟨hkeys, h⟩ | _)
      rw [if_pos (hall.2 hkeys)]
      exact exists_slots_iff.2 h
    · rintro ⟨slots, hslots, hfilled⟩
      split at hslots
      · rename_i hkeys
        exact .object (hall.1 hkeys) (exists_slots_iff.1 ⟨slots, hslots, hfilled⟩)
      · cases hslots
  | array items =>
    simp only [slots?, List.length_map]
    constructor
    · rintro (_ | ⟨hfields, hitems, hleft⟩)
      obtain ⟨hlength, hfilled⟩ := forall₂_filled_iff.2 ⟨_, _, hfields, hitems, hleft⟩
      exact ⟨_, if_pos hlength, hfilled⟩
    · rintro ⟨slots, hslots, hfilled⟩
      split at hslots
      · rename_i hlength
        cases hslots
        obtain ⟨given, left, hfields, hitems, hleft⟩ := forall₂_filled_iff.1 ⟨hlength, hfilled⟩
        exact .array hfields hitems hleft
      · cases hslots
  | _ =>
    constructor
    · rintro ⟨⟩
    · rintro ⟨slots, hslots, -⟩
      cases hslots

/-! ## Readers of values -/

/-- A reader takes the values that spell something, and no others. -/
def Reads {α : Type} (read : Value → Option α) (P : α → Value → Prop) : Prop :=
  ∀ v a, read v = some a ↔ P a v

theorem reads_text : Reads Value.text? TextSpelling := by
  intro v s
  cases v <;> simp [Value.text?, TextSpelling, Value.str]

theorem mapM_eq_some_iff {α β : Type} {f : α → Option β} {as : List α} {bs : List β} :
    as.mapM f = some bs ↔ List.Forall₂ (fun b a => f a = some b) bs as := by
  induction as generalizing bs with
  | nil => simp [eq_comm]
  | cons a as ih =>
    rw [List.mapM_cons]
    constructor
    · intro h
      obtain ⟨b, hb, h⟩ := Option.bind_eq_some_iff.1 h
      obtain ⟨bs, hbs, h⟩ := Option.bind_eq_some_iff.1 h
      cases h
      exact .cons hb (ih.1 hbs)
    · rintro (_ | ⟨hb, hbs⟩)
      simp [hb, ih.2 hbs]

namespace Reads

variable {α : Type} {read : Value → Option α} {P : α → Value → Prop} (h : Reads read P)
include h

/-- A list is read from the arrays whose items spell its own. -/
theorem list : Reads (list? read) (ListSpelling P) := by
  intro v as
  have hitems (items : List Value) : items.mapM read = some as ↔ List.Forall₂ P as items := by
    rw [mapM_eq_some_iff]
    simp only [h _ _]
  cases v <;> simp [list?, Value.items?, ListSpelling, hitems]

/-- A required field is read from a slot that holds a spelling of it. -/
theorem required_iff {key : String} {slot : Option Value} {a : α} :
    required read slot = some a ↔ (Field.required key P a).Filled slot := by
  cases slot with
  | none => simp [required, Field.Filled, Field.required]
  | some v => exact h v a

/-- A field with a default is read from such a slot, or it is the default and the slot is empty. -/
theorem optional_iff {key : String} {slot : Option Value} {default a : α} :
    optional default read slot = some a ↔ (Field.optional key default P a).Filled slot := by
  cases slot with
  | none => simp [optional, Field.Filled, Field.optional, eq_comm]
  | some v => exact h v a

end Reads

/-! ## Schema objects -/

/-- The fields of a column. -/
def Column.fields (c : Column) : List Field :=
  [.required "name" TextSpelling c.name, .required "type" TextSpelling c.type]

/-- The values that spell a column. -/
def Column.Spelling (c : Column) (v : Value) : Prop := Record c.fields v

/-- The fields of a table. -/
def Table.fields (t : Table) : List Field :=
  [.required "name" TextSpelling t.name, .optional "alias" "" TextSpelling t.aliasName,
    .optional "note" "" TextSpelling t.note,
    .optional "columns" [] (ListSpelling Column.Spelling) t.columns]

/-- The values that spell a table. -/
def Table.Spelling (t : Table) (v : Value) : Prop := Record t.fields v

/-- The fields of an enumeration. -/
def Enum.fields (e : Enum) : List Field :=
  [.required "name" TextSpelling e.name, .optional "values" [] (ListSpelling TextSpelling) e.values]

/-- The values that spell an enumeration. -/
def Enum.Spelling (e : Enum) (v : Value) : Prop := Record e.fields v

/-- The fields of a project. -/
def Project.fields (p : Project) : List Field :=
  [.required "name" TextSpelling p.name, .optional "db_type" "" TextSpelling p.databaseType,
    .optional "note" "" TextSpelling p.note,
    .optional "tables" [] (ListSpelling Table.Spelling) p.tables]

/-- The values that spell a project. -/
def Project.Spelling (p : Project) (v : Value) : Prop := Record p.fields v

/-- Columns are read from their spellings and from nothing else. -/
theorem Column.reads : Reads ofJson? Spelling := by
  rintro v ⟨name, type⟩
  rw [Spelling, record_iff, ofJson?, Option.bind_eq_bind, Option.bind_eq_some_iff]
  refine exists_congr fun slots => and_congr_right fun _ => ?_
  rcases slots with _ | ⟨s₁, _ | ⟨s₂, _ | _⟩⟩ <;>
    simp [fields, Option.bind_eq_some_iff, ← reads_text.required_iff]

theorem Enum.reads : Reads ofJson? Spelling := by
  rintro v ⟨name, values⟩
  rw [Spelling, record_iff, ofJson?, Option.bind_eq_bind, Option.bind_eq_some_iff]
  refine exists_congr fun slots => and_congr_right fun _ => ?_
  rcases slots with _ | ⟨s₁, _ | ⟨s₂, _ | _⟩⟩ <;>
    simp [fields, Option.bind_eq_some_iff, ← reads_text.required_iff,
      ← reads_text.list.optional_iff]

theorem Table.reads : Reads ofJson? Spelling := by
  rintro v ⟨name, aliasName, note, columns⟩
  rw [Spelling, record_iff, ofJson?, Option.bind_eq_bind, Option.bind_eq_some_iff]
  refine exists_congr fun slots => and_congr_right fun _ => ?_
  rcases slots with _ | ⟨s₁, _ | ⟨s₂, _ | ⟨s₃, _ | ⟨s₄, _ | _⟩⟩⟩⟩ <;>
    simp [fields, Option.bind_eq_some_iff, ← reads_text.required_iff, ← reads_text.optional_iff,
      ← Column.reads.list.optional_iff]

theorem Project.reads : Reads ofJson? Spelling := by
  rintro v ⟨name, databaseType, note, tables⟩
  rw [Spelling, record_iff, ofJson?, Option.bind_eq_bind, Option.bind_eq_some_iff]
  refine exists_congr fun slots => and_congr_right fun _ => ?_
  rcases slots with _ | ⟨s₁, _ | ⟨s₂, _ | ⟨s₃, _ | ⟨s₄, _ | _⟩⟩⟩⟩ <;>
    simp [fields, Option.bind_eq_some_iff, ← reads_text.required_iff, ← reads_text.optional_iff,
      ← Table.reads.list.optional_iff]

/-! ## Written objects -/

/-- A table with its keys in the order of its fields. -/
def Table.serialized (t : Table) : Value :=
  .record [("name", .str t.name), ("alias", .str t.aliasName), ("note", .str t.note),
    ("columns", .array (t.columns.map Column.toJson))]

/-- A project with its keys in the order of its fields, and so those of its tables. -/
def Project.serialized (p : Project) : Value :=
  .record [("name", .str p.name), ("db_type", .str p.databaseType), ("note", .str p.note),
    ("tables", .array (p.tables.map Table.serialized))]

/-- A list is spelled by the array of what is written for its items. -/
theorem listSpelling_map {α : Type} {P : α → Value → Prop} {write : α → Value}
    (h : ∀ a, P a (write a)) (as : List α) : ListSpelling P as (.array (as.map write)) := by
  refine ⟨as.map write, rfl, ?_⟩
  rw [List.forall₂_map_right_iff, List.forall₂_same]
  exact fun a _ => h a

theorem Column.spelling_toJson (c : Column) : c.Spelling c.toJson :=
  record_iff.2 ⟨_, rfl, .cons rfl (.cons rfl .nil)⟩

theorem textSpelling_str (s : String) : TextSpelling s (.str s) := rfl

theorem Enum.spelling_toJson (e : Enum) : e.Spelling e.toJson :=
  record_iff.2 ⟨_, rfl, .cons rfl (.cons (listSpelling_map textSpelling_str e.values) .nil)⟩

theorem Table.spelling_toJson (t : Table) : t.Spelling t.toJson :=
  record_iff.2 ⟨_, rfl, .cons rfl (.cons rfl (.cons rfl
    (.cons (listSpelling_map Column.spelling_toJson t.columns) .nil)))⟩

theorem Table.spelling_serialized (t : Table) : t.Spelling t.serialized :=
  record_iff.2 ⟨_, rfl, .cons rfl (.cons rfl (.cons rfl
    (.cons (listSpelling_map Column.spelling_toJson t.columns) .nil)))⟩

theorem Project.spelling_toJson (p : Project) : p.Spelling p.toJson :=
  record_iff.2 ⟨_, rfl, .cons rfl (.cons rfl (.cons rfl
    (.cons (listSpelling_map Table.spelling_toJson p.tables) .nil)))⟩

theorem Project.spelling_serialized (p : Project) : p.Spelling p.serialized :=
  record_iff.2 ⟨_, rfl, .cons rfl (.cons rfl (.cons rfl
    (.cons (listSpelling_map Table.spelling_serialized p.tables) .nil)))⟩

open Json.Value (Plain)

theorem Column.plain_toJson (c : Column) : c.toJson.Plain :=
  .record (by simp [Plain.str])

theorem Enum.plain_toJson (e : Enum) : e.toJson.Plain :=
  .record (by simp [Plain.str, strings, Plain.items Plain.str])

theorem Table.plain_toJson (t : Table) : t.toJson.Plain :=
  .record (by simp [Plain.str, Plain.items Column.plain_toJson])

theorem Table.plain_serialized (t : Table) : t.serialized.Plain :=
  .record (by simp [Plain.str, Plain.items Column.plain_toJson])

theorem Project.plain_toJson (p : Project) : p.toJson.Plain :=
  .record (by simp [Plain.str, Plain.items Table.plain_toJson])

theorem Project.plain_serialized (p : Project) : p.serialized.Plain :=
  .record (by simp [Plain.str, Plain.items Table.plain_serialized])

/-! ## Whole texts -/

/-- A text is read as something if and only if it is a JSON text of a value that spells it. -/
def ReadsTexts {α : Type} (read : Value → Option α) (P : α → Value → Prop) : Prop :=
  ∀ text a, (Json.parse? text).bind read = some a ↔ ∃ v, Json.IsText text v ∧ P a v

/-- What is written, over lines or without blanks, is read back. -/
def ReadsBack {α : Type} (read : Value → Option α) (write : α → Value) : Prop :=
  ∀ a, (Json.parse? (write a).pretty).bind read = some a ∧
    (Json.parse? (write a).compact).bind read = some a

namespace Reads

variable {α : Type} {read : Value → Option α} {P : α → Value → Prop} (h : Reads read P)
include h

/-- What is read from values is read from texts, by way of the values they spell. -/
theorem texts : ReadsTexts read P := by
  intro text a
  simp only [Option.bind_eq_some_iff, Json.parse?_eq_some_iff, h _ _]

/-- What is written and spelled is read back from either layout. -/
theorem back {write : α → Value} (hspelling : ∀ a, P a (write a))
    (hplain : ∀ a, (write a).Plain) : ReadsBack read write := by
  intro a
  have hread : read (write a) = some a := (h _ _).2 (hspelling a)
  have hpretty : Json.parse? ((write a).pretty ++ "") = some (write a) :=
    Value.parse?_pretty (hplain a) (by simp)
  rw [String.append_empty] at hpretty
  rw [hpretty, Value.parse?_compact (hplain a)]
  exact ⟨hread, hread⟩

end Reads

/-- Columns, tables, enumerations and projects are read from the texts that spell them and from no
others, and are read back from what is written for them, whether keys stand in alphabetical order or
in that of the fields. -/
theorem schema_reads_texts :
    (ReadsTexts Column.ofJson? Column.Spelling ∧ ReadsBack Column.ofJson? Column.toJson) ∧
    (ReadsTexts Table.ofJson? Table.Spelling ∧ ReadsBack Table.ofJson? Table.toJson ∧
      ReadsBack Table.ofJson? Table.serialized) ∧
    (ReadsTexts Enum.ofJson? Enum.Spelling ∧ ReadsBack Enum.ofJson? Enum.toJson) ∧
    (ReadsTexts Project.ofJson? Project.Spelling ∧ ReadsBack Project.ofJson? Project.toJson ∧
      ReadsBack Project.ofJson? Project.serialized) := by
  refine ⟨⟨Column.reads.texts, ?_⟩, ⟨Table.reads.texts, ?_, ?_⟩, ⟨Enum.reads.texts, ?_⟩,
    Project.reads.texts, ?_, ?_⟩
  · exact Column.reads.back Column.spelling_toJson Column.plain_toJson
  · exact Table.reads.back Table.spelling_toJson Table.plain_toJson
  · exact Table.reads.back Table.spelling_serialized Table.plain_serialized
  · exact Enum.reads.back Enum.spelling_toJson Enum.plain_toJson
  · exact Project.reads.back Project.spelling_toJson Project.plain_toJson
  · exact Project.reads.back Project.spelling_serialized Project.plain_serialized

/-- Half of a surrogate pair in another key is refused, though each field is given as it should be;
in the value of another key it makes no difference. -/
theorem Column.not_read_half_key :
    let c : Column := ⟨"a", "b"⟩
    let half := [(none, .nat 0), (some "name", .str "a"), (some "type", .str "b")]
    let text := "\x7b\"\\ud800\":0,\"name\":\"a\",\"type\":\"b\"\x7d"
    let skipped := [(some "x", .string none), (some "name", .str "a"), (some "type", .str "b")]
    let other := "\x7b\"x\":\"\\ud800\",\"name\":\"a\",\"type\":\"b\"\x7d"
    (Json.IsText text (.object half) ∧ (∀ f ∈ c.fields, f.Fits half) ∧
      (Json.parse? text).bind ofJson? = none) ∧
    Json.IsText other (.object skipped) ∧ (Json.parse? other).bind ofJson? = some c := by
  intro c half text skipped other
  have hhalf : (Value.object half).Plain := by
    apply Plain.object
    simp [half, Plain.nat, Plain.str]
  have htext : (Value.object half).compact = text := by
    decide +kernel
  have hparse : Json.parse? text = some (.object half) := by
    rw [← htext]
    exact Value.parse?_compact hhalf
  have hfits : ∀ f ∈ c.fields, f.Fits half := by
    intro f hf
    apply exists_slot?_iff.1
    simp only [fields, List.mem_cons, List.not_mem_nil, or_false] at hf
    rcases hf with rfl | rfl
    · exact ⟨some (.str "a"), rfl, rfl⟩
    · exact ⟨some (.str "b"), rfl, rfl⟩
  have hskipped : (Value.object skipped).Plain := by
    apply Plain.object
    simp [skipped, Plain.string, Plain.str]
  have hother : (Value.object skipped).compact = other := by
    decide +kernel
  have hparse' : Json.parse? other = some (.object skipped) := by
    rw [← hother]
    exact Value.parse?_compact hskipped
  refine ⟨⟨Json.parse?_eq_some_iff.1 hparse, hfits, ?_⟩, Json.parse?_eq_some_iff.1 hparse', ?_⟩
  · rw [hparse]
    rfl
  · rw [hparse']
    rfl

end Dbml

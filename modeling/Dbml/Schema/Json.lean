import Dbml.Json.Reader
import Dbml.Json.Writer
import Dbml.Schema.Basic

/-!
# Schema objects as JSON

An object is written with all its fields, keys in alphabetical order. It is read from any JSON
object that has the fields, in any order and among others, or from an array that lists the fields in
order; a field that may be empty may be left out, in an array at its end only. Both shapes are
brought to one form first: a slot for each field, filled or not (`slots?`).
-/

namespace Dbml

open Json (Value)

/-! ## Writing -/

/-- A list of strings. -/
def strings (ss : List String) : Value := .array (ss.map .str)

/-- A column as JSON. -/
def Column.toJson (c : Column) : Value := .record [("name", .str c.name), ("type", .str c.type)]

/-- A table as JSON. -/
def Table.toJson (t : Table) : Value :=
  .record [("alias", .str t.aliasName), ("columns", .array (t.columns.map Column.toJson)),
    ("name", .str t.name), ("note", .str t.note)]

/-- An enumeration as JSON. -/
def Enum.toJson (e : Enum) : Value :=
  .record [("name", .str e.name), ("values", strings e.values)]

/-- A project as JSON. -/
def Project.toJson (p : Project) : Value :=
  .record [("db_type", .str p.databaseType), ("name", .str p.name), ("note", .str p.note),
    ("tables", .array (p.tables.map Table.toJson))]

/-! ## Fields -/

/-- The slot of a field in an object: empty if the key is missing, nothing if it is repeated. -/
def slot? (members : List (Option String × Value)) (key : String) : Option (Option Value) :=
  match members.filter (fun m => m.1 == some key) with
  | [] => some none
  | [m] => some (some m.2)
  | _ => none

/-- The slots of the fields with the given keys. A key that no `String` holds is refused, and so is
an array with more items than fields. -/
def slots? (keys : List String) : Value → Option (List (Option Value))
  | .object members =>
    if members.all (·.1.isSome) then keys.mapM (slot? members) else none
  | .array items =>
    if items.length ≤ keys.length then
      some (items.map some ++ List.replicate (keys.length - items.length) none)
    else none
  | _ => none

/-- A slot that has to be filled. -/
def required {α : Type} (read : Value → Option α) : Option Value → Option α
  | some v => read v
  | none => none

/-- A slot that may be empty. -/
def optional {α : Type} (default : α) (read : Value → Option α) : Option Value → Option α
  | some v => read v
  | none => some default

/-- A list by reading each of its items. -/
def list? {α : Type} (read : Value → Option α) (v : Value) : Option (List α) :=
  v.items?.bind (·.mapM read)

/-! ## Reading -/

/-- A column from JSON. -/
def Column.ofJson? (v : Value) : Option Column := do
  let [name, type] ← slots? ["name", "type"] v | none
  return { name := ← required Value.text? name, type := ← required Value.text? type }

/-- A table from JSON. -/
def Table.ofJson? (v : Value) : Option Table := do
  let [name, aliasName, note, columns] ← slots? ["name", "alias", "note", "columns"] v | none
  return {
    name := ← required Value.text? name
    aliasName := ← optional "" Value.text? aliasName
    note := ← optional "" Value.text? note
    columns := ← optional [] (list? Column.ofJson?) columns }

/-- An enumeration from JSON. -/
def Enum.ofJson? (v : Value) : Option Enum := do
  let [name, values] ← slots? ["name", "values"] v | none
  return {
    name := ← required Value.text? name
    values := ← optional [] (list? Value.text?) values }

/-- A project from JSON. -/
def Project.ofJson? (v : Value) : Option Project := do
  let [name, databaseType, note, tables] ← slots? ["name", "db_type", "note", "tables"] v | none
  return {
    name := ← required Value.text? name
    databaseType := ← optional "" Value.text? databaseType
    note := ← optional "" Value.text? note
    tables := ← optional [] (list? Table.ofJson?) tables }

end Dbml

/-!
# Schema objects

The things that a document describes: a project and its tables, the columns of a table, and
enumerations. An empty text stands for a setting that is not given.
-/

namespace Dbml

/-- A column of a table. -/
structure Column where
  name : String
  type : String
deriving DecidableEq, Repr

namespace Column

/-- The written form: name and type. -/
def text (c : Column) : String := c.name ++ " " ++ c.type

end Column

/-- A table with its columns in order. -/
structure Table where
  name : String
  aliasName : String := ""
  note : String := ""
  columns : List Column := []
deriving DecidableEq, Repr

namespace Table

/-- Whether the table has a second name. -/
def hasAlias (t : Table) : Bool := !t.aliasName.isEmpty

/-- Whether the table answers to a name: its own or its alias. -/
def answersTo (t : Table) (name : String) : Bool :=
  t.name == name || (t.hasAlias && t.aliasName == name)

/-- The first column with the given name. -/
def column? (t : Table) (name : String) : Option Column := t.columns.find? (·.name == name)

/-- The names of the columns in order. -/
def columnNames (t : Table) : List String := t.columns.map (·.name)

end Table

/-- A project with its tables in order. -/
structure Project where
  name : String
  databaseType : String := ""
  note : String := ""
  tables : List Table := []
deriving DecidableEq, Repr

namespace Project

/-- The first table that answers to the given name. -/
def table? (p : Project) (name : String) : Option Table := p.tables.find? (·.answersTo name)

/-- The project with one more table at the end. -/
def addTable (p : Project) (t : Table) : Project := { p with tables := p.tables ++ [t] }

end Project

/-- An enumeration. Its values stand as written: a quoted one has its quotes. -/
structure Enum where
  name : String
  values : List String := []
deriving DecidableEq, Repr

namespace Enum

/-- Whether a value occurs, quotes included. -/
def contains (e : Enum) (value : String) : Bool := e.values.contains value

/-- A value without the quotes around it; a value that is not quoted stays. -/
def unquote (value : String) : String :=
  match value.toList with
  | '"' :: rest =>
    if rest.getLast? = some '"' then String.ofList rest.dropLast else value
  | _ => value

/-- The values without the quotes around them. -/
def unquotedValues (e : Enum) : List String := e.values.map unquote

end Enum

end Dbml

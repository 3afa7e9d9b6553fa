import Dbml.Schema.Basic
import Dbml.Text.Place
import Dbml.Token.Kind

/-!
# Documents

A document is a list of declarations in the order they are written. A declaration keeps what was
written, and the position of its keyword; it stands for an object of a schema (`Decl.object`).
-/

namespace Dbml

/-- A column as declared; its position is that of its name. -/
structure Decl.Column where
  name : String
  type : String
  position : Position
deriving DecidableEq, Repr

/-- A declaration; its position is that of its keyword. Enumeration values stand as written, quoted
ones with their quotes. -/
inductive Decl where
  | project (name : String) (databaseType : Option String) (position : Position)
  | table (name : String) (aliasName : Option String) (columns : List Decl.Column) (position : Position)
  | enum (name : String) (values : List String) (position : Position)
deriving DecidableEq, Repr

/-- The object that a declaration stands for. -/
inductive SchemaObject where
  | project (p : Project)
  | table (t : Table)
  | enum (e : Enum)
deriving DecidableEq, Repr

namespace Decl

/-- The keyword that begins the declaration. -/
def keyword : Decl → Keyword
  | project .. => .project
  | table .. => .table
  | enum .. => .enum

/-- The name declared. -/
def name : Decl → String
  | project n .. => n
  | table n .. => n
  | enum n .. => n

/-- The position of the keyword. -/
def position : Decl → Position
  | project _ _ p => p
  | table _ _ _ p => p
  | enum _ _ p => p

/-- The column that a column declaration stands for. -/
def Column.object (c : Decl.Column) : Dbml.Column := ⟨c.name, c.type⟩

/-- The object that the declaration stands for. What is not declared is empty; in particular a
project declaration alone has no tables. -/
def object : Decl → SchemaObject
  | project n d _ => .project { name := n, databaseType := d.getD "" }
  | table n a cs _ => .table { name := n, aliasName := a.getD "", columns := cs.map Column.object }
  | enum n vs _ => .enum { name := n, values := vs }

end Decl

/-- What a node of a document is. -/
inductive Node.Label where
  | project
  | table
  | column
  | enum
deriving DecidableEq, Repr

/-- A named part of a document. -/
structure Node where
  label : Node.Label
  name : String
  position : Position
deriving DecidableEq, Repr

/-- The declaration as a node, followed by the nodes inside it. -/
def Decl.nodes : Decl → List Node
  | project n _ p => [⟨.project, n, p⟩]
  | table n _ cs p => ⟨.table, n, p⟩ :: cs.map fun c => ⟨.column, c.name, c.position⟩
  | enum n _ p => [⟨.enum, n, p⟩]

/-- A document. -/
structure Document where
  decls : List Decl
deriving DecidableEq, Repr

namespace Document

/-- The number of declarations. -/
def size (d : Document) : Nat := d.decls.length

/-- Whether nothing is declared. -/
def isEmpty (d : Document) : Bool := d.decls.isEmpty

/-- The objects declared, in order. -/
def objects (d : Document) : List SchemaObject := d.decls.map Decl.object

/-- The tables declared, in order. -/
def tables (d : Document) : List Table :=
  d.objects.filterMap fun
    | .table t => some t
    | _ => none

/-- The enumerations declared, in order. -/
def enums (d : Document) : List Enum :=
  d.objects.filterMap fun
    | .enum e => some e
    | _ => none

/-- The first project declared, with all the tables of the document. -/
def project? (d : Document) : Option Project :=
  d.objects.findSome? fun
    | .project p => some { p with tables := d.tables }
    | _ => none

/-- All nodes, each before the nodes inside it. -/
def nodes (d : Document) : List Node := d.decls.flatMap Decl.nodes

end Document

end Dbml

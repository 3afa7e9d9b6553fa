/-!
# TOML values and tables

The values of TOML as data, and the rules by which statements fill a table. A table knows how it
came about (`Origin`), for that decides what may still be added to it: a table made by its header or
written in one piece is complete, one that was only passed through may get its header later, and one
made by dotted keys takes more of them. Nothing is ever written twice.
-/

namespace Dbml.Toml

/-- How a table came about. -/
inductive Origin where
  /-- Written in braces. -/
  | inline
  /-- Opened by a header of its own. -/
  | header
  /-- Passed through by the header of a table inside it. -/
  | implied
  /-- Passed through by a dotted key. -/
  | dotted
deriving DecidableEq, Repr

/-- A TOML value. Floats, dates and times keep their written form. -/
inductive Value where
  | string (s : String)
  | integer (n : Int)
  | float (text : String)
  | boolean (b : Bool)
  | dateTime (text : String)
  | array (items : List Value)
  | table (origin : Origin) (entries : List (String × Value))
  /-- An array of tables: the last one, and those before it. -/
  | tables (last : List (String × Value)) (before : List (List (String × Value)))
deriving Repr

/-- The keys of a table with their values, the last one written first. -/
abbrev Table := List (String × Value)

namespace Table

/-- Changes the value of a key that is there. -/
def set (key : String) (value : Value) : Table → Table
  | [] => []
  | e :: t => if e.1 = key then (key, value) :: t else e :: set key value t

/-- Puts a value at a dotted key. `own` says whether plain keys may be added to this table. -/
def put (value : Value) (own : Bool) : List String → Table → Option Table
  | [], _ => none
  | [k], t => if own && (t.lookup k).isNone then some ((k, value) :: t) else none
  | k :: ks, t =>
    match t.lookup k with
    | none => (put value true ks []).map fun sub => (k, .table .dotted sub) :: t
    | some (.table origin sub) =>
      if origin = .implied ∨ origin = .dotted then
        (put value (origin = .dotted) ks sub).map fun sub => set k (.table origin sub) t
      else none
    | some (.tables last before) =>
      (put value false ks last).map fun last => set k (.tables last before) t
    | some _ => none

/-- Changes the table at the end of a path of headers. Of an array of tables the last one counts;
what is missing on the way is implied. -/
def descend (change : Table → Option Table) : List String → Table → Option Table
  | [], t => change t
  | k :: ks, t =>
    match t.lookup k with
    | none => (descend change ks []).map fun sub => (k, .table .implied sub) :: t
    | some (.table origin sub) =>
      if origin = .inline then none
      else (descend change ks sub).map fun sub => set k (.table origin sub) t
    | some (.tables last before) =>
      (descend change ks last).map fun last => set k (.tables last before) t
    | some _ => none

/-- Opens the table with the given key. -/
def openTable (key : String) (t : Table) : Option Table :=
  match t.lookup key with
  | none => some ((key, .table .header []) :: t)
  | some (.table .implied sub) => some (set key (.table .header sub) t)
  | some _ => none

/-- Opens one more table in the array of tables with the given key. -/
def openItem (key : String) (t : Table) : Option Table :=
  match t.lookup key with
  | none => some ((key, .tables [] []) :: t)
  | some (.tables last before) => some (set key (.tables [] (last :: before)) t)
  | some _ => none

end Table

/-! ## Statements -/

/-- A value as written: the keys of a table in braces may be dotted. -/
inductive Term where
  | string (s : String)
  | integer (n : Int)
  | float (text : String)
  | boolean (b : Bool)
  | dateTime (text : String)
  | array (items : List Term)
  | inline (pairs : List (List String × Term))
deriving Repr

mutual

/-- The value of a term. -/
def Term.value? : Term → Option Value
  | .string s => some (.string s)
  | .integer n => some (.integer n)
  | .float text => some (.float text)
  | .boolean b => some (.boolean b)
  | .dateTime text => some (.dateTime text)
  | .array items => (values? items).map .array
  | .inline pairs => (fill? [] pairs).map (.table .inline)

/-- The values of terms. -/
def values? : List Term → Option (List Value)
  | [] => some []
  | t :: ts =>
    match t.value?, values? ts with
    | some v, some vs => some (v :: vs)
    | _, _ => none

/-- The table after some pairs are put into it. -/
def fill? (table : Table) : List (List String × Term) → Option Table
  | [] => some table
  | (key, t) :: pairs =>
    match t.value? with
    | some v =>
      match Table.put v true key table with
      | some table => fill? table pairs
      | none => none
    | none => none

end

/-- A statement of a TOML text. -/
inductive Statement where
  | pair (key : List String) (term : Term)
  | header (key : List String)
  | itemHeader (key : List String)
deriving Repr

/-- The table written so far, and the path of the header that counts. -/
structure Draft where
  root : Table
  path : List String

/-- The draft after one more statement. -/
def Draft.add (d : Draft) : Statement → Option Draft
  | .pair key term => do
    let v ← term.value?
    let root ← Table.descend (Table.put v true key) d.path d.root
    return { d with root }
  | .header key => do
    let root ← Table.descend (Table.openTable (key.getLastD "")) key.dropLast d.root
    return ⟨root, key⟩
  | .itemHeader key => do
    let root ← Table.descend (Table.openItem (key.getLastD "")) key.dropLast d.root
    return ⟨root, key⟩

/-- The table that statements make up. -/
def Table.ofStatements (ss : List Statement) : Option Table :=
  (ss.foldlM Draft.add ⟨[], []⟩).map (·.root)

end Dbml.Toml

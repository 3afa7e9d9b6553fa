/-!
# JSON values

The values of JSON as data. A string may name half of a surrogate pair by an escape: such a string
is well formed, but no `String` holds it, so it is kept as `none`. Numbers keep their written form:
nothing here calculates with them.
-/

namespace Dbml.Json

/-- A JSON value. The members of an object stand in the order they are written. -/
inductive Value where
  | null
  | bool (b : Bool)
  | number (text : String)
  | string (s : Option String)
  | array (items : List Value)
  | object (members : List (Option String × Value))
deriving Repr, Inhabited

namespace Value

/-- A number without sign, fraction and exponent. -/
def nat (n : Nat) : Value := number (toString n)

/-- A string. -/
def str (s : String) : Value := string (some s)

/-- An object whose keys are strings. -/
def record (members : List (String × Value)) : Value :=
  object (members.map fun (k, v) => (some k, v))

/-- `null` for what is absent. -/
def orNull {α : Type} (f : α → Value) : Option α → Value
  | some a => f a
  | none => null

/-- The text of a string. -/
def text? : Value → Option String
  | string s => s
  | _ => none

/-- The items of an array. -/
def items? : Value → Option (List Value)
  | array items => some items
  | _ => none

end Value

end Dbml.Json

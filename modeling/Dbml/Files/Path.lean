/-!
# Paths

A path is kept as it is written. What it says is its list of components (`Path.components`): doubled
and trailing slashes say nothing, nor does a `.` anywhere but at the very front. Paths are compared
component by component, so `a/b` comes before `a-b`, and two spellings of one list of components are
equivalent (`Path.same`).
-/

namespace Dbml

/-- A path as written. -/
structure Path where
  text : String
deriving DecidableEq, Repr

/-- A component of a path. -/
inductive Component where
  | root
  | current
  | parent
  | name (s : String)
deriving DecidableEq, Repr

namespace Component

/-- The sort of a component as a number, and its name if it has one. -/
def key : Component → Nat × String
  | root => (0, "")
  | current => (1, "")
  | parent => (2, "")
  | name s => (3, s)

/-- The root first, then `.`, then `..`, then names in the order of their characters. -/
instance : Ord Component where
  compare a b := (compare a.key.1 b.key.1).then (compare a.key.2 b.key.2)

/-- The order of lists of components: the first difference decides, and of a list and its extension
the list comes first. -/
def compareAll : List Component → List Component → Ordering
  | [], [] => .eq
  | [], _ :: _ => .lt
  | _ :: _, [] => .gt
  | a :: as, b :: bs => (compare a b).then (compareAll as bs)

end Component

/-- The pieces of a text between slashes; there is one more than there are slashes. -/
def pieces : List Char → List (List Char)
  | [] => [[]]
  | c :: cs =>
    if c = '/' then [] :: pieces cs
    else
      match pieces cs with
      | [] => [[c]]
      | p :: ps => (c :: p) :: ps

namespace Path

/-- The pieces between the slashes of a path. -/
def segments (p : Path) : List String := (pieces p.text.toList).map String.ofList

/-- Whether the path begins at the root. -/
def isAbsolute (p : Path) : Bool := p.text.toList.head? == some '/'

/-- What a piece says when it does not stand at the very front. -/
def component? (segment : String) : Option Component :=
  if segment = "" ∨ segment = "." then none
  else if segment = ".." then some .parent
  else some (.name segment)

/-- The names that the path goes through. -/
def names (p : Path) : List String := p.segments.filter fun s => s ≠ "" ∧ s ≠ "."

/-- What the path says. -/
def components (p : Path) : List Component :=
  let front := if p.isAbsolute then [.root] else if p.segments.head? = some "." then [.current] else []
  front ++ p.segments.filterMap component?

/-- Paths are ordered by their components. -/
instance : Ord Path where
  compare p q := Component.compareAll p.components q.components

/-- Whether two paths say the same. -/
def same (p q : Path) : Bool := p.components == q.components

/-- The path of `q` seen from the directory `p`; an absolute path stays. -/
def join (p q : Path) : Path :=
  if q.isAbsolute || p.text.isEmpty then q
  else if p.text.toList.getLast? == some '/' then ⟨p.text ++ q.text⟩
  else ⟨p.text ++ "/" ++ q.text⟩

/-- Leaves out each path that says the same as the one kept before it, which is `p` at first. -/
def thin (p : Path) : List Path → List Path
  | [] => []
  | q :: qs => if p.same q then thin p qs else q :: thin q qs

/-- The paths in order, and of those that say the same only the first. -/
def sortUnique (ps : List Path) : List Path :=
  match ps.mergeSort (fun p q => compare p q != .gt) with
  | [] => []
  | p :: qs => p :: thin p qs

end Path

end Dbml

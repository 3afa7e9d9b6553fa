import Dbml.Files.Pattern
import Dbml.Files.System

/-!
# Searching a file system

The entries that a pattern stands for, each by the path that leads to it along the pattern
(`FileSystem.search`). The search starts at the working directory, or at the root for an absolute
pattern, and goes one component at a time. Directories are found like files, and names that begin
with a dot like any other.
-/

namespace Dbml

/-- An entry on the way: the path as it is shown, and where it is. -/
structure Found where
  shown : Path
  location : Location
deriving DecidableEq, Repr

namespace Found

/-- The path shown after one more step; the working directory itself is not shown. -/
def showing (f : Found) (segment : String) : Path :=
  if f.shown.text = "." then ⟨segment⟩ else f.shown.join ⟨segment⟩

/-- An entry one step below. -/
def child (f : Found) (name : String) : Found := ⟨f.showing name, f.location ++ [name]⟩

/-- An entry any number of steps below. -/
def descend (f : Found) (names : List String) : Found := names.foldl child f

end Found

namespace FileSystem

/-- One step that a component with a fixed text takes. Nothing is found by an empty component that
follows the working directory. -/
def follow (fs : FileSystem) (f : Found) (segment : String) : Option Found :=
  if segment = "" ∧ f.shown.text = "." then none
  else
    match fs.step f.location segment with
    | .ok l => some ⟨f.showing segment, l⟩
    | .error _ => none

/-- The entries one step below that a component stands for. A component that begins with a dot may
also stand for the directory itself or the one above. -/
def childrenLike (fs : FileSystem) (f : Found) (s : PatternSegment) : List Found :=
  let children := (fs.children f.location).filterMap fun (name, _) =>
    if s.accepts name then some (f.child name) else none
  let dots := if s.beginsWithDot then [".", ".."].filter s.accepts else []
  children ++ dots.filterMap fun dot =>
    match fs.step f.location dot with
    | .ok l => some ⟨f.shown.join ⟨dot⟩, l⟩
    | .error _ => none

/-- The entries that a list of components leads to from `f`. -/
def expand (fs : FileSystem) : List PatternSegment → Found → List Found
  | [], f => [f]
  | s :: rest, f =>
    if s.isRecursive then
      match rest with
      | [] =>
        (fs.below f.location).filterMap fun (names, e) =>
          if e.isDirectory then some (f.descend names) else none
      | next :: rest =>
        if next.isRecursive then fs.expand (next :: rest) f
        else
          (fs.below f.location).flatMap fun (names, _) =>
            if next.accepts (names.getLastD "") then fs.expand rest (f.descend names) else []
    else
      match s.literal? with
      | some segment =>
        match fs.follow f segment with
        | some g => fs.expand rest g
        | none => []
      | none => (fs.childrenLike f s).flatMap (fs.expand rest)

/-- The paths of all entries that a pattern stands for. -/
def search (fs : FileSystem) (p : Pattern) : List Path :=
  let start : Found := if p.absolute then ⟨⟨"/"⟩, []⟩ else ⟨⟨"."⟩, fs.workingDirectory⟩
  let found := fs.expand p.segments start
  (found.filter fun f =>
    !p.directoriesOnly || (fs.entry? f.location).any (·.isDirectory)).map (·.shown)

end FileSystem

end Dbml

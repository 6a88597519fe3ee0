import Switching.Pla.Error
import Switching.Text.Blank

/-!
# File trees

A file tree says which files and directories there are.  A path is followed
name by name, and every name but the last one has to lead to a directory.  A
path is read if it leads to a file; it is written if it leads to a file or to
no entry of an existing directory.
-/

namespace Switching.CommandLine

open Pla (StreamFault)

/-- What can stand at a place of a file tree. -/
inductive Entry
  | file (contents : ByteArray)
  | directory

/-- A place in a file tree: the names that lead to it from the root, the last
one first. -/
abbrev Place := List String

/-- The files and directories that exist, and the directory from which
relative paths start.  The root is always a directory. -/
structure FileTree where
  entries : List (Place × Entry)
  start : Place

namespace FileTree

variable (tree : FileTree)

/-- What stands at a place. -/
def entry? : Place → Option Entry
  | [] => some .directory
  | place => tree.entries.lookup place

/-- The place that a name means, seen from a directory. -/
def step (place : Place) : String → Place
  | "" => place
  | "." => place
  | ".." => place.tail
  | name => name :: place

/-- Follow a name from a place, which has to be a directory. -/
def enter (place : Place) (name : String) : Except StreamFault Place :=
  match tree.entry? place with
  | some .directory => .ok (step place name)
  | some (.file _) => .error .notDirectory
  | none => .error .notFound

/-- The names of a path between its slashes. -/
def names (path : String) : List String :=
  (Text.pieces (· == '/') path.toList).map String.ofList

/-- Follow the given names of a path, from the root if the path starts with a
slash.  The empty path leads nowhere. -/
def follow (path : String) (names : List String) : Except StreamFault Place :=
  match path.toList with
  | [] => .error .notFound
  | '/' :: _ => names.foldlM tree.enter []
  | _ => names.foldlM tree.enter tree.start

/-- The contents of the file at a path. -/
def read (path : String) : Except StreamFault ByteArray := do
  match tree.entry? (← tree.follow path (names path)) with
  | some (.file contents) => return contents
  | some .directory => throw .isDirectory
  | none => throw .notFound

/-- Whether a path says, by a slash at its end, that it leads to a
directory. -/
def namesDirectory (path : String) : Bool :=
  path.toList.getLast? == some '/'

/-- The names of a path without the slashes at its end. -/
def trimmedNames (path : String) : List String :=
  ((names path).reverse.dropWhile String.isEmpty).reverse

/-- Put a file with the given contents at a path, in the place of an earlier
one if there is one. -/
def write (path : String) (contents : ByteArray) : Except StreamFault FileTree := do
  let place ← tree.follow path (trimmedNames path)
  match namesDirectory path, tree.entry? place with
  | true, _ => throw .isDirectory
  | _, some .directory => throw .isDirectory
  | _, _ => return { tree with entries := (place, .file contents) :: tree.entries }

end FileTree

end Switching.CommandLine

import StrongMotion.FileSystem.Basic

/-!
# Trees of files

A tree is a file system below a working directory, which absolute paths and paths through the
parent of that directory leave.  Nothing is known there but that directories exist.
-/

namespace StrongMotion

inductive Node
  | directory
  | file (content : Bytes)
deriving DecidableEq, Repr

/-- The nodes below the working directory, each under the names that lead to it.  A later node
takes the place of an earlier one. -/
structure Tree where
  nodes : List (List Bytes × Node) := []
deriving Repr

/-- A place that a path has got to. -/
inductive Place
  /-- The names that lead there from the working directory. -/
  | inside (names : List Bytes)
  /-- A directory from which the working directory is reached. -/
  | above
deriving DecidableEq, Repr

namespace Tree

def maxName : Nat := 255

/-- The longest path that can be looked up, whatever the names in it. -/
def maxPath : Nat := 4095

def separator : UInt8 := '/'.toUInt8

/-- The names of a path in order when `begun`, read backwards, is the part of the first one already
seen.  Nothing between two separators is an empty name. -/
def namesFrom (begun : Bytes) : Bytes → List Bytes
  | [] => [begun.reverse]
  | b :: rest =>
    if b = separator then begun.reverse :: namesFrom [] rest else namesFrom (b :: begun) rest

def names (path : Bytes) : List Bytes := namesFrom [] path

def node? (t : Tree) : List Bytes → Option Node
  | [] => some .directory
  | names => t.nodes.lookup names

def entryAt (t : Tree) : Place → Entry
  | .above => .directory
  | .inside names =>
    match t.node? names with
    | none => .missing
    | some .directory => .directory
    | some (.file content) => .file content

/-- Follows the names of a path from a place.  Only a directory can be gone through, and no name
at all, like a single dot, stays where it is. -/
def walk (t : Tree) (place : Place) : List Bytes → Entry
  | [] => t.entryAt place
  | name :: rest =>
    if t.entryAt place ≠ .directory then .missing
    else if name = [] ∨ name = "." then walk t place rest
    else if name = ".." then
      match place with
      | .above | .inside [] => walk t .above rest
      | .inside names => walk t (.inside names.dropLast) rest
    else if maxName < name.length then .nameTooLong
    else
      match place with
      | .above => .missing
      | .inside names => walk t (.inside (names ++ [name])) rest

def entry (t : Tree) (path : Bytes) : Entry :=
  if path = [] then .missing
  else if maxPath < path.length then .nameTooLong
  else if path.head? = some separator then t.walk .above (names path)
  else t.walk (.inside []) (names path)

def fileSystem (t : Tree) : FileSystem := ⟨t.entry⟩

/-- The names of a path that lead somewhere. -/
def properNames (path : Bytes) : List Bytes := (names path).filter fun n => n ≠ [] ∧ n ≠ "."

/-- The tree with a directory added and the directories that lead to it. -/
def addDirectory (t : Tree) (path : Bytes) : Tree :=
  let names := properNames path
  let prefixes := (List.range names.length).map fun i => names.take (i + 1)
  { nodes := prefixes.reverse.map (·, .directory) ++ t.nodes }

/-- The tree with a file added, if there is a directory for it. -/
def addFile (t : Tree) (path content : Bytes) : Tree :=
  let names := properNames path
  if t.node? names.dropLast = some .directory then { nodes := (names, .file content) :: t.nodes }
  else t

end Tree
end StrongMotion

import StrongMotion.FileKind
import StrongMotion.Record.Reader

/-!
# Files

A file system says what each path leads to.  Asking about a path with too long a name in it is an
error, while opening such a path is only a failure like any other.

Other lookups fail too, below a directory that may not be searched or through links that lead back
to themselves.  No file system here has such entries: what is said of all of them is said of those
where every other path can be asked about.
-/

namespace StrongMotion

/-- What stands at a path.  A lookup that fails for a reason other than a long name, as in a
directory without permission or a loop of links, has no entry here. -/
inductive Entry
  | missing
  /-- A name in the path is too long to look up. -/
  | nameTooLong
  | directory
  | file (content : Bytes)
deriving DecidableEq, Repr

structure FileSystem where
  /-- The entry for a path without zero bytes. -/
  entry : Bytes → Entry

/-- A question about a path that cannot be answered, always for the length of a name.  The other
reasons that a system has are left out with the entries they belong to. -/
structure NameTooLong where
  path : Bytes
deriving DecidableEq, Repr

namespace NameTooLong

def message (e : NameTooLong) : Bytes :=
  Bytes.untilNul ("filesystem error: status: File name too long [" ++ e.path ++ "]")

end NameTooLong

namespace FileSystem

/-- What a path leads to; a zero byte ends the path. -/
def find (fs : FileSystem) (path : Bytes) : Entry := fs.entry path.untilNul

/-- What a path leads to, if that can be asked. -/
def status (fs : FileSystem) (path : Bytes) : Except NameTooLong Entry :=
  match fs.find path with
  | .nameTooLong => .error ⟨path⟩
  | entry => .ok entry

def isPresent (fs : FileSystem) (path : Bytes) : Except NameTooLong Bool :=
  (fs.status path).map (· ≠ .missing)

def isDirectory (fs : FileSystem) (path : Bytes) : Except NameTooLong Bool :=
  (fs.status path).map (· = .directory)

/-- The content of what a path opens.  A directory opens, but holds no bytes. -/
def content? (fs : FileSystem) (path : Bytes) : Option Bytes :=
  match fs.find path with
  | .file content => some content
  | .directory => some []
  | .missing | .nameTooLong => none

def readRecord (fs : FileSystem) (o : ReadOptions) (path : Bytes) : Except Fault Record :=
  match fs.content? path with
  | none => .error (.cannotOpen path)
  | some content => Record.read o content

def kindByContent (fs : FileSystem) (encoding : Option Bytes) (path : Bytes) :
    Except NameTooLong FileKind :=
  (fs.status path).map fun
    | .file content => if Signature.marks encoding content then .record else .unknown
    | _ => .unknown

/-- The kind of something that exists, by its signature or else by its name. -/
def kind (fs : FileSystem) (encoding : Option Bytes) (path : Bytes) :
    Except NameTooLong FileKind := do
  if ← fs.isPresent path then
    match ← fs.kindByContent encoding path with
    | .record => return .record
    | .unknown => return FileName.kind path
  else return .unknown

end FileSystem
end StrongMotion

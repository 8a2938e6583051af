/-
The directory a session works in.

A directory maps paths to entries, each a file with its bytes or a directory.  A
path is looked up the way a POSIX system does it: every name but the last must be
a directory, `.` and `..` move about, a trailing slash asks for a directory.  The
places above and beside the session's own directory exist and are empty: a path
may start with `..` or with a slash, and finds nothing there.
-/
import DualStack.Dictionary
import DualStack.Fault

namespace DualStack

/-- A path as the names on the way to it. A path above the session's directory starts with
`..`, one from the root with `/`. -/
abbrev Path := List String

/-- What a path leads to. -/
inductive Entry where
  | file (contents : List UInt8)
  | directory

/-- Everything below a directory. -/
structure Directory where
  table : Dictionary Path Entry

/-- A path as it is written: where it starts, its names, and whether it ends in a slash. -/
structure WrittenPath where
  start : Path
  names : List String
  slash : Bool

namespace WrittenPath

/-- Take a written path apart. -/
def ofString (text : String) : WrittenPath :=
  let cs := text.toList
  { start := if cs.head? = some '/' then ["/"] else []
    names := ((text.splitToList (· == '/')).filter (!·.isEmpty))
    slash := cs.getLast? = some '/' }

end WrittenPath

namespace Directory

/-- The longest name an entry may have, in bytes. -/
def maxName : Nat := 255

/-- The length from which on a path is refused, in bytes. -/
def maxPath : Nat := 4096

/-- The directory without entries. -/
def empty : Directory :=
  ⟨.empty⟩

/-- Whether a path is the session's directory, one above it, or the root. -/
def isAnchor (path : Path) : Bool :=
  path.all (· == "..") || path == ["/"]

/-- What a path leads to, if to anything. -/
def entry? (d : Directory) (path : Path) : Option Entry :=
  if isAnchor path then some .directory else d.table.find? path

/-- Let a path lead to an entry. -/
def insert (path : Path) (entry : Entry) (d : Directory) : Directory :=
  ⟨d.table.insert path entry⟩

/-- The place one name further, whatever may be there. -/
def beyond (here : Path) (name : String) : Path :=
  if name = "." then here
  else if name = ".." then
    if here = ["/"] then here
    else if here.all (· == "..") then ".." :: here
    else here.dropLast
  else here ++ [name]

/-- Refuse a place that is not a directory. -/
def checkDirectory (d : Directory) (here : Path) : Except Fault Unit :=
  match d.entry? here with
  | none => .error (.system .noEntry)
  | some (.file _) => .error (.system .notDirectory)
  | some .directory => .ok ()

/-- The place one name further, from a directory. -/
def descend (d : Directory) (here : Path) (name : String) : Except Fault Path := do
  d.checkDirectory here
  if maxName < name.utf8ByteSize then .error (.system .nameTooLong) else .ok (beyond here name)

/-- The place a sequence of names leads to. -/
def walk (d : Directory) (here : Path) : List String → Except Fault Path
  | [] => .ok here
  | name :: names =>
    match d.descend here name with
    | .ok there => d.walk there names
    | .error fault => .error fault

/-- Refuse what no path may be. -/
def checkPath (text : String) : Except Fault Unit :=
  if text.contains '\x00' then .error .nullInName
  else if text = "" then .error (.system .noEntry)
  else if maxPath ≤ text.utf8ByteSize then .error (.system .nameTooLong)
  else .ok ()

/-- The entry a written path leads to, with its place. -/
def locate (d : Directory) (text : String) : Except Fault (Path × Entry) := do
  checkPath text
  let written := WrittenPath.ofString text
  let path ← d.walk written.start written.names
  match d.entry? path with
  | none => .error (.system .noEntry)
  | some (.file contents) =>
    if written.slash then .error (.system .notDirectory) else .ok (path, .file contents)
  | some .directory => .ok (path, .directory)

/-- Make a written path lead to an empty file. A path that asks for a directory is refused
before its last name is looked at. -/
def create (d : Directory) (text : String) : Except Fault (Path × Directory) := do
  checkPath text
  let written := WrittenPath.ofString text
  match written.names.getLast? with
  | none => .error (.system .isDirectory)
  | some name =>
    let parent ← d.walk written.start written.names.dropLast
    d.checkDirectory parent
    if written.slash || name = "." || name = ".." then .error (.system .isDirectory)
    else
      let path ← d.descend parent name
      match d.entry? path with
      | some .directory => .error (.system .isDirectory)
      | _ => .ok (path, d.insert path (.file []))

/-- Put an entry where a written path leads, with every directory on the way. -/
def install (text : String) (entry : Entry) (d : Directory) : Directory :=
  let written := WrittenPath.ofString text
  let along := fun (d, here) name =>
    let there := beyond here name
    (if isAnchor here then d else insert here .directory d, there)
  let (d, place) := written.names.foldl along (d, written.start)
  if isAnchor place then d else d.insert place entry

/-- The whole contents of the file a written path leads to. -/
def readFile (d : Directory) (text : String) : Except Fault (List UInt8) := do
  match ← d.locate text with
  | (_, .file contents) => .ok contents
  | (_, .directory) => .error (.system .isDirectory)

/-- The files directly in the session's directory. -/
def files (d : Directory) : List (String × List UInt8) :=
  d.table.entries.filterMap fun
    | ([name], .file contents) => some (name, contents)
    | _ => none

end Directory

/-- Bytes written over others at a position; a gap in front is filled with zeros. -/
def overwrite (old : List UInt8) (position : Nat) (bytes : List UInt8) : List UInt8 :=
  old.take position ++ List.replicate (position - old.length) 0 ++ bytes ++
    old.drop (position + bytes.length)

end DualStack

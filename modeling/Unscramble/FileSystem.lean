/-
Files and directories by their paths below the working directory.  Creating or removing a file changes
nothing at any other path.
-/
import Unscramble.ClassFile.Bytes

namespace Unscramble

/-- The names on the way from the working directory to a file or directory.  An absolute path starts with
a slash as its first name. -/
abbrev Path := List String

namespace Path

/-- The parts of a written path.  A slash at the start is a part of its own, and an empty part elsewhere
stands for the directory itself, as a dot does. -/
def parts (text : String) : List String :=
  match (text.toList.splitOn '/').map String.ofList with
  | "" :: rest => "/" :: rest.map orDot
  | relative => relative.map orDot
where
  orDot (part : String) : String := if part.isEmpty then "." else part

/-- Whether a written path can lead anywhere: it is not empty, holds no zero character and takes at most
4095 bytes. -/
def isUsable (text : String) : Bool :=
  !text.isEmpty && !text.toList.contains '\x00' && text.utf8ByteSize ≤ 4095

/-- Whether a file or directory can have this name, which takes at most 255 bytes. -/
def isName (part : String) : Bool :=
  part.utf8ByteSize ≤ 255

/-- The name of the file that a written path ends with. -/
def fileName? (text : String) : Option String :=
  ((parts text).filter fun part => part != "." && part != "/").getLast?.filter (· != "..")

/-- The directory that holds a file or directory; above the working directory it is named by dots. -/
def parent : Path → Path
  | [] => [".."]
  | ["/"] => ["/"]
  | path => if path.getLast? == some ".." then path ++ [".."] else path.dropLast

/-- What follows the last dot of a file name, unless the name starts with that dot. -/
def extension? (text : String) : Option String :=
  (fileName? text).bind fun name =>
    let reversed := name.toList.reverse
    match reversed.dropWhile (· != '.') with
    | [] | ['.'] => none
    | _ => some (String.ofList (reversed.takeWhile (· != '.')).reverse)

/-- Whether a written path has this extension, in upper or lower case. -/
def hasExtension (expected text : String) : Bool :=
  (extension? text).any fun found => found.map Char.toLower == expected

end Path

/-- What stands at a path. -/
inductive Node where
  | directory
  | file (content : Bytes)
deriving DecidableEq, Repr

/-- Files and directories; of several entries for one path the first counts. -/
structure FileSystem where
  nodes : List (Path × Node)
deriving DecidableEq, Repr

namespace FileSystem

def empty : FileSystem := ⟨[]⟩

/-- What stands at a path.  The working directory, all directories above it and the root always
exist. -/
def node? (files : FileSystem) (path : Path) : Option Node :=
  if path = ["/"] ∨ path.all (· == "..") then some .directory
  else files.nodes.lookup path

def isDirectory (files : FileSystem) (path : Path) : Bool :=
  files.node? path == some .directory

/-- The path that a written path leads to.  All parts but the last one have to be directories. -/
def resolve? (files : FileSystem) (text : String) : Option Path :=
  if Path.isUsable text then (Path.parts text).foldlM step [] else none
where
  step (here : Path) (part : String) : Option Path :=
    if !files.isDirectory here then none
    else if part == "." then some here
    else if part == ".." then some (Path.parent here)
    else if Path.isName part then some (here ++ [part])
    else none

/-- What stands at a written path. -/
def lookup (files : FileSystem) (text : String) : Option Node :=
  (files.resolve? text).bind files.node?

/-- The contents of the file at a written path. -/
def content? (files : FileSystem) (text : String) : Option Bytes :=
  match files.lookup text with
  | some (.file content) => some content
  | _ => none

/-- Puts something at a path. -/
def set (files : FileSystem) (path : Path) (node : Node) : FileSystem :=
  ⟨(path, node) :: files.nodes.filter (·.1 != path)⟩

/-- Removes what stands at a path. -/
def erase (files : FileSystem) (path : Path) : FileSystem :=
  ⟨files.nodes.filter (·.1 != path)⟩

theorem lookup_filter_of_ne {nodes : List (Path × Node)} {path other : Path} (h : other ≠ path) :
    (nodes.filter (·.1 != path)).lookup other = nodes.lookup other := by
  induction nodes with
  | nil => rfl
  | cons entry rest ih =>
      obtain ⟨place, node⟩ := entry
      by_cases hplace : place = path
      · subst hplace
        have hbeq : (other == place) = false := by simpa using h
        simp [List.lookup_cons, hbeq, ih]
      · cases hbeq : other == place <;> simp [List.lookup_cons, hplace, hbeq, ih]

/-- What is put at one path changes nothing at another. -/
theorem node?_set_of_ne (files : FileSystem) {path other : Path} (node : Node) (h : other ≠ path) :
    (files.set path node).node? other = files.node? other := by
  unfold node?
  split
  · rfl
  · have hbeq : (other == path) = false := by simpa using h
    simp [set, List.lookup_cons, hbeq, lookup_filter_of_ne h]

/-- What is removed at one path changes nothing at another. -/
theorem node?_erase_of_ne (files : FileSystem) {path other : Path} (h : other ≠ path) :
    (files.erase path).node? other = files.node? other := by
  unfold node?
  split
  · rfl
  · simp [erase, lookup_filter_of_ne h]

/-- Creates a file, in place of an older one.  Its directory has to exist, and it cannot replace a
directory. -/
def create? (files : FileSystem) (text : String) (content : Bytes) : Option FileSystem := do
  let path ← files.resolve? text
  if files.isDirectory path then none else some (files.set path (.file content))

/-- Removes a file; a directory cannot be removed. -/
def remove? (files : FileSystem) (text : String) : Option FileSystem := do
  let path ← files.resolve? text
  match files.node? path with
  | some (.file _) => some (files.erase path)
  | _ => none

/-- Makes the directory at a path and all directories on the way to it. -/
def addDirectories (files : FileSystem) (path : Path) : FileSystem :=
  (List.range path.length).foldl
    (fun files depth => files.set (path.take (depth + 1)) .directory) files

end FileSystem

end Unscramble

/-
Reading a program from a file: the class in a class file, or all classes in an archive.
-/
import Unscramble.Archive.Directory
import Unscramble.Class.Pool
import Unscramble.ClassFile.Decode
import Unscramble.FileSystem
import Unscramble.Log

namespace Unscramble

/-- Why a program cannot be read. -/
inductive SourceFault where
  | noFile (path : String)
  | unreadable (path : String)
  | badClass (path : String) (reason : ClassFile.DecodeFault)
  | duplicate (name : String)
  | unsupported (path : String)
deriving DecidableEq, Repr

def SourceFault.message : SourceFault → String
  | noFile path => s!"failed to open {path}"
  | unreadable path => s!"failed to read {path}"
  | badClass path reason => s!"failed to parse {path}: {reason.message}"
  | duplicate name => s!"duplicate class {name}"
  | unsupported path => s!"unsupported input file: {path}"

namespace Source

/-- Whether an entry of an archive is a class of the program; module descriptions and classes for other
versions of the machine are not. -/
def isClassEntry (name : String) : Bool :=
  name.endsWith ".class" && !name.endsWith "module-info.class" &&
    !name.startsWith "META-INF/versions/"

/-- Adds a class whose name is not yet taken. -/
def add (pool : ClassPool) (c : ClassDecl) : Except SourceFault ClassPool :=
  if pool.contains c.name then .error (.duplicate c.name) else .ok (pool.insert c)

/-- The class in some bytes that stand at a path. -/
def classFrom (path : String) (data : Bytes) : Except SourceFault ClassDecl :=
  (ClassFile.decodeClass data).mapError (.badClass path)

/-- Adds the class in the entry of an archive with a name. -/
def addEntry (path : String) (entries : List Zip.Entry) (pool : ClassPool) (name : String) :
    Except SourceFault ClassPool := do
  let place := path ++ ":" ++ name
  match (Zip.find? entries name).bind Zip.Entry.content? with
  | some content => add pool (← classFrom place content)
  | none => throw (.unreadable place)

/-- The classes in an archive, read in the order of entry names. -/
def ofArchive (path : String) (entries : List Zip.Entry) : Except SourceFault ClassPool :=
  let names := (entries.map Zip.Entry.name).filter isClassEntry
  (names.mergeSort (· ≤ ·)).foldlM (addEntry path entries) ClassPool.empty

/-- The program at a written path, whose extension tells what it is. -/
def read (files : FileSystem) (path : String) : Except SourceFault ClassPool :=
  if Path.hasExtension "jar" path then
    match files.lookup path with
    | none => .error (.noFile path)
    | some .directory => .error (.unreadable path)
    | some (.file content) =>
        match Zip.decode? content with
        | some entries => ofArchive path entries
        | none => .error (.unreadable path)
  else if Path.hasExtension "class" path then
    match files.content? path with
    | some content => do add ClassPool.empty (← classFrom path content)
    | none => .error (.unreadable path)
  else .error (.unsupported path)

end Source

/-- Reads the program at a written path. -/
def FileSystem.readProgram (files : FileSystem) (path : String) : Logged SourceFault ClassPool := do
  let pool ← Logged.ofExcept id (Source.read files path)
  Logged.debug s!"Loaded {pool.size} classes from {path}"
  pure pool

end Unscramble

/-
Reading archives.  The entries of an archive are those that its directory lists, each with the place of
its contents.  The end record that leads to the directory is looked for from the end of the file
backwards; one whose directory cannot be read is passed over.
-/
import Unscramble.Archive.EndRecord
import Unscramble.Archive.EntryText
import Unscramble.Archive.Extra
import Unscramble.Archive.Inflate

namespace Unscramble.Zip

/-- An entry of an archive, with its name as it is written and its contents as they are packed. -/
structure Entry where
  writtenName : Bytes
  name : String
  method : Nat
  checksum : Nat
  packed : Array UInt8
deriving DecidableEq, Repr

/-- The contents of an entry, unless they are damaged or packed in a way that cannot be undone. -/
def Entry.content? (e : Entry) : Option Bytes := do
  let content ← match e.method with
    | 0 => some e.packed
    | 8 => Inflate.inflate? e.packed
    | _ => none
  guard ((Checksum.ofBytes content.toList).toNat = e.checksum)
  some content.toList

/-- The entry of a name.  Names are compared as they are written, so that an entry whose name is not
written in UTF-8 is found under no name. -/
def find? (entries : List Entry) (name : String) : Option Entry :=
  let written := name.toUTF8.toList
  entries.find? (·.writtenName == written)

/-- A line of the directory: an entry with the place of its own header. -/
structure Line where
  writtenName : Bytes
  name : String
  comment : String
  encrypted : Bool
  method : Nat
  checksum : Nat
  packedSize : Nat
  size : Nat
  place : Nat
deriving DecidableEq, Repr

namespace Line

/-- A line with the numbers of a record of wide numbers. -/
def widen? (line : Line) (content : Bytes) : Option Line := do
  let all := decide (24 ≤ content.length)
  let (size, rest) ← ExtraRecord.widen? all line.size content
  let (packedSize, rest) ← ExtraRecord.widen? all line.packedSize rest
  let (place, _) ← ExtraRecord.widen? all line.place rest
  some { line with size, packedSize, place }

/-- A line with what a record of additional data says about its entry, unless the record is not as it
should be. -/
def extend? (line : Line) (record : ExtraRecord) : Option Line :=
  let keepIf (condition : Bool) : Option Line := if condition then some line else none
  if record.kind = ExtraRecord.wideNumbers then line.widen? record.content
  else if record.kind = ExtraRecord.fineTimes then keepIf (ExtraRecord.areFineTimes record.content)
  else if record.kind = ExtraRecord.times then keepIf (ExtraRecord.areTimes record.content)
  else if record.kind = ExtraRecord.utf8Comment then do
    let written ← ExtraRecord.substitute? record.content line.comment.toUTF8.toList
    let comment ← String.fromUTF8? ⟨written.toArray⟩
    some { line with comment }
  else if record.kind = ExtraRecord.utf8Name then do
    let writtenName ← ExtraRecord.substitute? record.content line.writtenName
    let name ← String.fromUTF8? ⟨writtenName.toArray⟩
    some { line with writtenName, name }
  else if record.kind = ExtraRecord.encryption then
    if ExtraRecord.isEncryption record.content then some { line with encrypted := true } else none
  else some line

/-- The number that stands for encryption in place of a way of packing. -/
def encryptionMethod : Nat := 99

/-- The line of the directory at an offset, and where the next one stands. -/
def read? (data : Array UInt8) (shift offset : Nat) : Option (Line × Nat) := do
  guard ((← numberAt? data 4 offset) = directorySignature)
  let flags ← numberAt? data 2 (offset + 8)
  let method ← numberAt? data 2 (offset + 10)
  let checksum ← numberAt? data 4 (offset + 16)
  let packedSize ← numberAt? data 4 (offset + 20)
  let size ← numberAt? data 4 (offset + 24)
  let nameLength ← numberAt? data 2 (offset + 28)
  let extraLength ← numberAt? data 2 (offset + 30)
  let commentLength ← numberAt? data 2 (offset + 32)
  let place ← numberAt? data 4 (offset + 42)
  let writtenName := (← slice? data (offset + 46) nameLength).toList
  let extra ← slice? data (offset + 46 + nameLength) extraLength
  let comment ← slice? data (offset + 46 + nameLength + extraLength) commentLength
  let isUtf8 := flags.testBit 11
  let records ← extraRecords? extra.toList
  guard (method ≠ encryptionMethod ∨ records.any (·.kind == ExtraRecord.encryption))
  let line ← records.foldlM extend?
    { writtenName, name := entryText isUtf8 writtenName, comment := entryText isUtf8 comment.toList,
      encrypted := flags.testBit 0, method, checksum, packedSize, size, place }
  some ({ line with place := line.place + shift },
    offset + 46 + nameLength + extraLength + commentLength)

/-- The ways of packing that an archive may use: none at all, deflation, and others that are known
only by their numbers. -/
def methods : List Nat := [0, 8, 9, 12, 14, 93, 95, 98]

/-- The entry of a line.  Its own header has to stand in its place; of contents that reach beyond the
end of the file there is only what the file holds. -/
def entry? (data : Array UInt8) (line : Line) : Option Entry := do
  guard (!line.encrypted && methods.contains line.method)
  guard ((← numberAt? data 4 line.place) = localSignature)
  let nameLength ← numberAt? data 2 (line.place + 26)
  let extraLength ← numberAt? data 2 (line.place + 28)
  let start := line.place + 30 + nameLength + extraLength
  some ⟨line.writtenName, line.name, line.method, line.checksum,
    data.extract start (start + line.packedSize)⟩

end Line

/-- So many lines of the directory from an offset on. -/
def lines? (data : Array UInt8) (shift : Nat) : (count offset : Nat) → Option (List Line)
  | 0, _ => some []
  | count + 1, offset => do
      let (line, next) ← Line.read? data shift offset
      let later ← lines? data shift count next
      some (line :: later)

/-- The lines of the directory to which the end record at a place belongs. -/
def directoryAt? (data : Array UInt8) (place : Nat) : Option (List Line) := do
  let record ← EndRecord.read? data place
  let directory ← record.directory? data
  lines? data directory.shift directory.lines directory.start

/-- Of several lines for one name the last one counts. -/
def currentLines : List Line → List Line
  | [] => []
  | line :: rest =>
      if rest.any (·.writtenName == line.writtenName) then currentLines rest
      else line :: currentLines rest

/-- The entries of an archive in the order of its directory, or nothing if it is none. -/
def decode? (bytes : Bytes) : Option (List Entry) := do
  let data := bytes.toArray
  let lines ← findLast? (directoryAt? data) data.size
  (currentLines lines).mapM (Line.entry? data)

end Unscramble.Zip

/-
The record at the end of an archive.  It says where the directory stands and how many entries that lists.
A comment may follow the record and anything may stand before the archive, so the directory is looked for
from the place that the record names onwards.  As far as the directory is off its place, all other places
are off too.  Where the numbers are too great for the record, there is a wide one with longer fields
before it, and between them the locator, which names its place.
-/
import Unscramble.Archive.Offset
import Unscramble.Archive.Zip

namespace Unscramble.Zip

/-- Where the lines of a directory start, how many there are, and how far all places are off. -/
structure DirectoryPlace where
  start : Nat
  lines : Nat
  shift : Nat
deriving DecidableEq, Repr

/-- The record at the end of an archive: the parts into which the archive and its directory are split,
the number of entries in this part and in all, and the size and place of the directory. -/
structure EndRecord where
  place : Nat
  part : Nat
  directoryPart : Nat
  listed : Nat
  entries : Nat
  size : Nat
  directory : Nat
deriving DecidableEq, Repr

/-- The record that stands right before an end record and names the place of the wide one. -/
structure Locator where
  place : Nat
  directoryPart : Nat
  wideRecord : Nat
  parts : Nat
deriving DecidableEq, Repr

/-- The wide form of an end record, which also has the version that wrote the archive and the one that is
needed to read it. -/
structure WideRecord where
  place : Nat
  writer : Nat
  reader : Nat
  part : Nat
  directoryPart : Nat
  listed : Nat
  entries : Nat
  directory : Nat
deriving DecidableEq, Repr

def locatorSignature : Nat := 0x07064b50

def wideSignature : Nat := 0x06064b50

namespace Locator

/-- The locator at a place. -/
def read? (data : Array UInt8) (place : Nat) : Option Locator := do
  guard ((← numberAt? data 4 place) = locatorSignature)
  let directoryPart ← numberAt? data 4 (place + 4)
  let wideRecord ← numberAt? data 8 (place + 8)
  let parts ← numberAt? data 4 (place + 16)
  some { place, directoryPart, wideRecord, parts }

end Locator

namespace WideRecord

/-- The wide record at a place, if it reaches up to the locator, agrees with it, and has room for all its
entries before it. -/
def read? (data : Array UInt8) (locator : Locator) (place : Nat) : Option WideRecord := do
  guard ((← numberAt? data 4 place) = wideSignature)
  let length ← numberAt? data 8 (place + 4)
  let writer ← numberAt? data 2 (place + 12)
  let reader ← numberAt? data 2 (place + 14)
  let part ← numberAt? data 4 (place + 16)
  let directoryPart ← numberAt? data 4 (place + 20)
  let listed ← numberAt? data 8 (place + 24)
  let entries ← numberAt? data 8 (place + 32)
  let directory ← numberAt? data 8 (place + 48)
  guard (44 ≤ length ∧ place + 12 + length = locator.place)
  guard (directoryPart = locator.directoryPart)
  guard (directory + 46 * entries ≤ place)
  some { place, writer, reader, part, directoryPart, listed, entries, directory }

/-- The directory of a wide record that is as far off its place as the record is. -/
def directory? (w : WideRecord) (locator : Locator) : Option DirectoryPlace := do
  guard (w.listed ≤ w.entries ∧ w.reader ≤ w.writer ∧ w.part = w.directoryPart)
  let shift := w.place - locator.wideRecord
  some ⟨w.directory + shift, w.entries, shift⟩

end WideRecord

namespace Locator

/-- The directory of an archive in a single part that has a locator. -/
def directory? (data : Array UInt8) (locator : Locator) : Option DirectoryPlace := do
  guard (locator.parts ≤ 1)
  let wide ← findFirst? (WideRecord.read? data locator) (locator.place - locator.wideRecord)
    locator.wideRecord
  wide.directory? locator

end Locator

namespace EndRecord

/-- The end record at a place; its comment has to fit into the file. -/
def read? (data : Array UInt8) (place : Nat) : Option EndRecord := do
  guard ((← numberAt? data 4 place) = endSignature)
  let part ← numberAt? data 2 (place + 4)
  let directoryPart ← numberAt? data 2 (place + 6)
  let listed ← numberAt? data 2 (place + 8)
  let entries ← numberAt? data 2 (place + 10)
  let size ← numberAt? data 4 (place + 12)
  let directory ← numberAt? data 4 (place + 16)
  let commentLength ← numberAt? data 2 (place + 20)
  guard (place + 22 + commentLength ≤ data.size)
  some { place, part, directoryPart, listed, entries, size, directory }

/-- Whether a number may be too great for its field. -/
def isFull (e : EndRecord) : Bool :=
  e.entries == 0xffff || e.size == 0xffffffff || e.directory == 0xffffffff

/-- The locator before an end record that may need one. -/
def locator? (data : Array UInt8) (e : EndRecord) : Option Locator :=
  if e.isFull && 20 ≤ e.place then Locator.read? data (e.place - 20) else none

/-- How far the places in an archive without a wide record are off.  The directory starts with the first
line that stands between the place that the record names and the record itself; where no entry is listed,
it ends at the record. -/
def shift? (data : Array UInt8) (e : EndRecord) : Option Nat :=
  let isLine (place : Nat) : Option Nat :=
    if numberAt? data 4 place = some directorySignature then some (place - e.directory) else none
  if e.entries = 0 then some (e.place - e.directory)
  else findFirst? isLine (e.place - e.directory) e.directory

/-- The directory to which an end record belongs. -/
def directory? (data : Array UInt8) (e : EndRecord) : Option DirectoryPlace :=
  match e.locator? data with
  | some locator => locator.directory? data
  | none => do
      let shift ← e.shift? data
      guard (e.part = e.directoryPart)
      some ⟨e.directory + shift, e.listed, shift⟩

end EndRecord

end Unscramble.Zip

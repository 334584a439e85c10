/-
Archives: files that hold named entries.  An archive ends with a directory of its entries, each line of
which names the place where the contents of the entry stand.  Archives are written without compression.
-/
import Unscramble.Archive.Checksum

namespace Unscramble.Zip

/-- A number in so many bytes, the least significant one first. -/
def littleEndian : (width n : Nat) → Bytes
  | 0, _ => []
  | width + 1, n => n.toUInt8 :: littleEndian width (n / 256)

def localSignature : Nat := 0x04034b50

def directorySignature : Nat := 0x02014b50

def endSignature : Nat := 0x06054b50

/-- What the local header of an entry and its line in the directory have in common: version, flags for
names in UTF-8, no compression, a fixed date, checksum, sizes and the length of the name. -/
def commonHeader (name content : Bytes) : Bytes :=
  littleEndian 2 20 ++ littleEndian 2 0x0800 ++ littleEndian 2 0 ++ littleEndian 2 0 ++
    littleEndian 2 0x21 ++ littleEndian 4 (Checksum.ofBytes content).toNat ++
    littleEndian 4 content.length ++ littleEndian 4 content.length ++
    littleEndian 2 name.length ++ littleEndian 2 0

/-- An entry with its local header. -/
def localRecord (name content : Bytes) : Bytes :=
  littleEndian 4 localSignature ++ commonHeader name content ++ name ++ content

/-- The line of the directory for an entry that stands at an offset. -/
def directoryRecord (offset : Nat) (name content : Bytes) : Bytes :=
  littleEndian 4 directorySignature ++ littleEndian 2 20 ++ commonHeader name content ++
    littleEndian 2 0 ++ littleEndian 2 0 ++ littleEndian 2 0 ++ littleEndian 4 0 ++
    littleEndian 4 offset ++ name

/-- The records of entries and the lines of the directory for them, from an offset on. -/
def records : (entries : List (String × Bytes)) → (offset : Nat) → Bytes × Bytes
  | [], _ => ([], [])
  | (name, content) :: rest, offset =>
      let nameBytes := name.toUTF8.toList
      let record := localRecord nameBytes content
      let (later, directory) := records rest (offset + record.length)
      (record ++ later, directoryRecord offset nameBytes content ++ directory)

/-- The archive of some entries. -/
def encode (entries : List (String × Bytes)) : Bytes :=
  let (contents, directory) := records entries 0
  contents ++ directory ++ littleEndian 4 endSignature ++ littleEndian 2 0 ++ littleEndian 2 0 ++
    littleEndian 2 entries.length ++ littleEndian 2 entries.length ++
    littleEndian 4 directory.length ++ littleEndian 4 contents.length ++ littleEndian 2 0

end Unscramble.Zip

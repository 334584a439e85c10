/-
Unpacking compressed data.  They are a sequence of blocks; a block is stored as it is or written in two
prefix codes, one for bytes and lengths, one for distances to a repetition.
-/
import Unscramble.ClassFile.Bytes

namespace Unscramble.Inflate

/-- Why unpacking stops before the last block is complete. -/
inductive Stop where
  /-- There are no more data. -/
  | ended
  /-- The data are not what they should be. -/
  | damaged
deriving DecidableEq, Repr

/-- How far unpacking has come. -/
structure Progress where
  /-- The number of bits read, the lowest bit of each byte first. -/
  position : Nat
  out : Array UInt8
deriving DecidableEq, Repr

/-- A step of unpacking.  What is unpacked before it stops is kept. -/
abbrev Unpacker := EStateM Stop Progress

/-- Reads one bit. -/
def bit (data : Array UInt8) : Unpacker Nat := do
  let position := (← get).position
  match data[position / 8]? with
  | some byte =>
      modify fun s => { s with position := position + 1 }
      pure ((byte.toNat >>> (position % 8)) % 2)
  | none => throw .ended

/-- Reads a number of so many bits, the lowest one first. -/
def number (data : Array UInt8) : (bits : Nat) → Unpacker Nat
  | 0 => pure 0
  | bits + 1 => do
      let low ← bit data
      let high ← number data bits
      pure (low + 2 * high)

/-- A prefix code: how many codes there are of each length from one to the greatest, and the symbols in
the order of their codes. -/
structure Code where
  counts : List Nat
  symbols : Array Nat

namespace Code

/-- The code in which each symbol has the given length; those of length zero do not occur.  Shorter codes
come before longer ones, and codes of the same length are in the order of symbols. -/
def ofLengths (lengths : List Nat) : Code :=
  let ofLength (length : Nat) : List Nat :=
    lengths.zipIdx.filterMap fun (l, symbol) => if l = length then some symbol else none
  let all := (List.range (lengths.foldl max 1)).map fun k => ofLength (k + 1)
  ⟨all.map List.length, all.flatten.toArray⟩

/-- How many codes are still free after those of each length are given away, if there are so many; `free`
is the number before. -/
def free? : (counts : List Nat) → (free : Nat) → Option Nat
  | [], free => some free
  | count :: rest, free => if 2 * free < count then none else free? rest (2 * free - count)

/-- Whether every sequence of bits can be read. -/
def isComplete (c : Code) : Bool :=
  free? c.counts 1 == some 0

/-- Whether the code is complete, or has one symbol, of one bit, or none. -/
def isUsable (c : Code) : Bool :=
  c.isComplete || c.counts == [0] || c.counts == [1]

/-- Reads a symbol: `code` are the bits read so far, `first` the first code of the current length and
`index` the position of its symbol. -/
def readFrom (c : Code) (data : Array UInt8) :
    (counts : List Nat) → (code first index : Nat) → Unpacker Nat
  | [], _, _, _ => throw .damaged
  | count :: rest, code, first, index => do
      let code := code + (← bit data)
      if code < first + count then
        match c.symbols[index + (code - first)]? with
        | some symbol => pure symbol
        | none => throw .damaged
      else c.readFrom data rest (2 * code) (2 * (first + count)) (index + count)

def read (c : Code) (data : Array UInt8) : Unpacker Nat :=
  c.readFrom data c.counts 0 0 0

end Code

/-- The shortest length that each length symbol stands for, with the number of bits to be added. -/
def lengths : Array (Nat × Nat) :=
  #[ (3, 0), (4, 0), (5, 0), (6, 0), (7, 0), (8, 0), (9, 0), (10, 0), (11, 1), (13, 1), (15, 1),
     (17, 1), (19, 2), (23, 2), (27, 2), (31, 2), (35, 3), (43, 3), (51, 3), (59, 3), (67, 4),
     (83, 4), (99, 4), (115, 4), (131, 5), (163, 5), (195, 5), (227, 5), (258, 0) ]

/-- The shortest distance that each distance symbol stands for, with the number of bits to be added. -/
def distances : Array (Nat × Nat) :=
  #[ (1, 0), (2, 0), (3, 0), (4, 0), (5, 1), (7, 1), (9, 2), (13, 2), (17, 3), (25, 3), (33, 4),
     (49, 4), (65, 5), (97, 5), (129, 6), (193, 6), (257, 7), (385, 7), (513, 8), (769, 8),
     (1025, 9), (1537, 9), (2049, 10), (3073, 10), (4097, 11), (6145, 11), (8193, 12),
     (12289, 12), (16385, 13), (24577, 13) ]

/-- Reads the bits that a symbol of a table asks for. -/
def extended (data : Array UInt8) (table : Array (Nat × Nat)) (symbol : Nat) : Unpacker Nat := do
  match table[symbol]? with
  | some (base, bits) => pure (base + (← number data bits))
  | none => throw .damaged

/-- Appends so many bytes, each equal to the one at a distance before it. -/
def repeatFrom (distance : Nat) : (count : Nat) → (out : Array UInt8) → Array UInt8
  | 0, out => out
  | count + 1, out =>
      repeatFrom distance count (out.push ((out[out.size - distance]?).getD 0))

/-- The symbol that ends a block. -/
def endOfBlock : Nat := 256

/-- Reads the symbols of a block up to its end, at most so many. -/
def symbols (data : Array UInt8) (literals dists : Code) : (limit : Nat) → Unpacker Unit
  | 0 => throw .ended
  | limit + 1 => do
      let symbol ← literals.read data
      if symbol < endOfBlock then
        modify fun s => { s with out := s.out.push symbol.toUInt8 }
        symbols data literals dists limit
      else if symbol = endOfBlock then pure ()
      else
        let length ← extended data lengths (symbol - endOfBlock - 1)
        let distance ← extended data distances (← dists.read data)
        if (← get).out.size < distance then throw .damaged
        modify fun s => { s with out := repeatFrom distance length s.out }
        symbols data literals dists limit

/-- Reads a block that is stored as it is.  It starts at the next whole byte. -/
def stored (data : Array UInt8) : Unpacker Unit := do
  modify fun s => { s with position := (s.position + 7) / 8 * 8 }
  let length ← number data 16
  let complement ← number data 16
  if length + complement ≠ 0xffff then throw .damaged
  let start := (← get).position / 8
  let bytes := data.extract start (start + length)
  modify fun s => { position := (start + bytes.size) * 8, out := s.out ++ bytes }
  if bytes.size < length then throw .ended

/-- The codes of a block that does not bring its own. -/
def fixedCodes : Code × Code :=
  (Code.ofLengths (List.replicate 144 8 ++ List.replicate 112 9 ++ List.replicate 24 7 ++
      List.replicate 8 8),
    Code.ofLengths (List.replicate 30 5))

/-- The order in which the lengths of the codes for code lengths are written. -/
def lengthOrder : List Nat :=
  [16, 17, 18, 0, 8, 7, 9, 6, 10, 5, 11, 4, 12, 3, 13, 2, 14, 1, 15]

/-- Reads code lengths until there are `needed`, in at most so many steps. -/
def codeLengths (data : Array UInt8) (code : Code) (needed : Nat) :
    (limit : Nat) → (done : Array Nat) → Unpacker (Array Nat)
  | 0, done => if done.size = needed then pure done else throw .damaged
  | limit + 1, done => do
      if needed ≤ done.size then
        if done.size = needed then pure done else throw .damaged
      else
        let symbol ← code.read data
        if symbol < 16 then codeLengths data code needed limit (done.push symbol)
        else if symbol = 16 then
          let count := 3 + (← number data 2)
          match done.back? with
          | some last => codeLengths data code needed limit (done ++ Array.replicate count last)
          | none => throw .damaged
        else
          let count ← if symbol = 17 then (3 + ·) <$> number data 3 else (11 + ·) <$> number data 7
          codeLengths data code needed limit (done ++ Array.replicate count 0)

/-- Fails unless something holds of the data. -/
def require (condition : Bool) : Unpacker Unit :=
  if condition then pure () else throw .damaged

/-- Reads the codes that a block brings.  The code for code lengths has to be complete and the others
have to be usable; a block cannot do without a symbol that ends it. -/
def ownCodes (data : Array UInt8) : Unpacker (Code × Code) := do
  let literals := 257 + (← number data 5)
  let dists := 1 + (← number data 5)
  let count := 4 + (← number data 4)
  require (literals ≤ lengths.size + 257 && dists ≤ distances.size)
  let order := lengthOrder.take count
  let read ← order.mapM fun _ => number data 3
  let code := Code.ofLengths ((List.range 19).map fun symbol =>
    ((order.zip read).lookup symbol).getD 0)
  require code.isComplete
  let all ← codeLengths data code (literals + dists) (literals + dists) #[]
  let literalCode := Code.ofLengths (all.extract 0 literals).toList
  let distanceCode := Code.ofLengths (all.extract literals all.size).toList
  require (0 < all.getD endOfBlock 0)
  require literalCode.isUsable
  require distanceCode.isUsable
  pure (literalCode, distanceCode)

/-- Reads blocks up to the last one, at most so many. -/
def blocks (data : Array UInt8) : (limit : Nat) → Unpacker Unit
  | 0 => throw .ended
  | limit + 1 => do
      let last ← number data 1
      let kind ← number data 2
      let limitOfSymbols := 8 * data.size
      match kind with
      | 0 => stored data
      | 1 => symbols data fixedCodes.1 fixedCodes.2 limitOfSymbols
      | 2 =>
          let (literals, dists) ← ownCodes data
          symbols data literals dists limitOfSymbols
      | _ => throw .damaged
      if last = 1 then pure () else blocks data limit

/-- Unpacks compressed data, unless they are damaged; of data that end too early there is what can be
unpacked.  Every block and every symbol takes at least one bit, so there are no more of them than
bits. -/
def inflate? (data : Array UInt8) : Option (Array UInt8) :=
  match (blocks data (8 * data.size)).run ⟨0, #[]⟩ with
  | .ok _ s => some s.out
  | .error .ended s => some s.out
  | .error .damaged _ => none

end Unscramble.Inflate

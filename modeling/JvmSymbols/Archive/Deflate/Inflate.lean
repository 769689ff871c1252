import JvmSymbols.Archive.Deflate.Code
import JvmSymbols.Bytes.Repeat

/-!
# Unpacking a deflate stream

A copy that reaches back before the first byte finds zeros there, as in a window that starts out
blank. Bytes behind the last block are not looked at.
-/

namespace JvmSymbols.Deflate

abbrev Output := Array UInt8

/-- The least length of each length symbol from 257 on, and the extra bits that add to it. -/
def lengthTable : Array (Nat × Nat) :=
  #[(3, 0), (4, 0), (5, 0), (6, 0), (7, 0), (8, 0), (9, 0), (10, 0), (11, 1), (13, 1), (15, 1),
    (17, 1), (19, 2), (23, 2), (27, 2), (31, 2), (35, 3), (43, 3), (51, 3), (59, 3), (67, 4),
    (83, 4), (99, 4), (115, 4), (131, 5), (163, 5), (195, 5), (227, 5), (258, 0)]

/-- The least distance of each distance symbol, and the extra bits that add to it. -/
def distanceTable : Array (Nat × Nat) :=
  #[(1, 0), (2, 0), (3, 0), (4, 0), (5, 1), (7, 1), (9, 2), (13, 2), (17, 3), (25, 3), (33, 4),
    (49, 4), (65, 5), (97, 5), (129, 6), (193, 6), (257, 7), (385, 7), (513, 8), (769, 8),
    (1025, 9), (1537, 9), (2049, 10), (3073, 10), (4097, 11), (6145, 11), (8193, 12), (12289, 12),
    (16385, 13), (24577, 13)]

/-- The value of a symbol that has extra bits. -/
def extended (table : Array (Nat × Nat)) (symbol : Nat) : Reader Nat :=
  match table[symbol]? with
  | some (least, extra) => do return least + (← Reader.number extra)
  | none => throw .corrupt

/-- Appends `length` bytes, each a copy of the one `distance` places before it. -/
def copyBack (distance : Nat) : (length : Nat) → Output → Output
  | 0, out => out
  | length + 1, out =>
    let b := if distance ≤ out.size then out.getD (out.size - distance) 0 else 0
    copyBack distance length (out.push b)

/-- The symbols of a block up to its end. Each takes at least one bit, so `steps` is enough if it
is more than the number of bits. -/
def compressed (literals distances : Code) : (steps : Nat) → Output → Reader Output
  | 0, _ => throw .incomplete
  | steps + 1, out => do
    let symbol ← literals.symbol
    if symbol < 256 then
      compressed literals distances steps (out.push (UInt8.ofNat symbol))
    else if symbol = 256 then
      return out
    else
      let length ← extended lengthTable (symbol - 257)
      let distance ← extended distanceTable (← distances.symbol)
      compressed literals distances steps (copyBack distance length out)

def stored (out : Output) : Reader Output := do
  Reader.alignToByte
  let length ← Reader.number 16
  let check ← Reader.number 16
  if length + check ≠ 0xFFFF then throw .corrupt
  return out ++ (← runTimes Reader.byte length)

def fixedLiterals : Code :=
  .ofLengths (List.replicate 144 8 ++ List.replicate 112 9 ++ List.replicate 24 7 ++
    List.replicate 8 8)

def fixedDistances : Code := .ofLengths (List.replicate 32 5)

/-- The places of the code lengths that describe the other code lengths. -/
def lengthOrder : List Nat := [16, 17, 18, 0, 8, 7, 9, 6, 10, 5, 11, 4, 12, 3, 13, 2, 14, 1, 15]

/-- Puts each length at the place that `lengthOrder` gives it. -/
def arrange (lengths : List Nat) : List Nat :=
  (List.range lengthOrder.length).map fun place =>
    ((lengthOrder.zip lengths).lookup place).getD 0

/-- Code lengths until there are `wanted` of them; `done` holds the last one first. -/
def codeLengths (code : Code) (wanted : Nat) :
    (steps : Nat) → (done : List Nat) → Reader (List Nat)
  | 0, done => return done.reverse
  | steps + 1, done => do
    if done.length = wanted then return done.reverse
    if wanted < done.length then throw .corrupt
    match ← code.symbol with
    | 16 =>
      match done with
      | [] => throw .corrupt
      | last :: _ =>
        let n := 3 + (← Reader.number 2)
        codeLengths code wanted steps (List.replicate n last ++ done)
    | 17 =>
      let n := 3 + (← Reader.number 3)
      codeLengths code wanted steps (List.replicate n 0 ++ done)
    | 18 =>
      let n := 11 + (← Reader.number 7)
      codeLengths code wanted steps (List.replicate n 0 ++ done)
    | length => codeLengths code wanted steps (length :: done)

/-- The two codes of a block that brings its own. -/
def dynamicCodes : Reader (Code × Code) := do
  let literals := 257 + (← Reader.number 5)
  let distances := 1 + (← Reader.number 5)
  let described := 4 + (← Reader.number 4)
  if 286 < literals ∨ 30 < distances then throw .corrupt
  let code := Code.ofLengths (arrange (← runTimes (Reader.number 3) described))
  unless code.isComplete do throw .corrupt
  let wanted := literals + distances
  let lengths ← codeLengths code wanted (wanted + 1) []
  let literalCode := Code.ofLengths (lengths.take literals)
  let distanceCode := Code.ofLengths (lengths.drop literals)
  unless literalCode.isComplete || literalCode.isSparse do throw .corrupt
  unless distanceCode.isComplete || distanceCode.isSparse do throw .corrupt
  return (literalCode, distanceCode)

/-- The blocks up to the one that says it is the last. Each takes at least one bit, and so does each
symbol, so `limit` is enough if it is more than the number of bits. -/
def blocks (limit : Nat) : (steps : Nat) → Output → Reader Output
  | 0, _ => throw .incomplete
  | steps + 1, out => do
    let last ← Reader.bit
    let out ← match ← Reader.number 2 with
      | 0 => stored out
      | 1 => compressed fixedLiterals fixedDistances limit out
      | 2 => do
        let (literals, distances) ← dynamicCodes
        compressed literals distances limit out
      | _ => throw .corrupt
    if last then return out else blocks limit steps out

/-- The bytes that a deflate stream stands for. -/
def inflate (bytes : Bytes) : Except Fault Bytes := do
  let limit := 8 * bytes.length + 1
  let (out, _) ← (blocks limit limit #[]).run (Bits.ofBytes bytes)
  return out.toList

end JvmSymbols.Deflate

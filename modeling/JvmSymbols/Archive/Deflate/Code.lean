import JvmSymbols.Archive.Deflate.Bits

/-!
# Huffman codes given by their lengths

Codes of one length are consecutive numbers in symbol order, and shorter codes come first.
-/

namespace JvmSymbols.Deflate

def longestCode : Nat := 15

structure Code where
  /-- How many symbols have a code of one bit, of two bits and so on. -/
  counts : List Nat
  /-- The symbols that have a code, in the order of their codes. -/
  symbols : Array Nat
  deriving DecidableEq, Repr

namespace Code

/-- The symbols, numbered from 0, by the length of their code; length 0 means no code. -/
def ofLengths (lengths : List Nat) : Code :=
  let sizes := (List.range longestCode).map (· + 1)
  { counts := sizes.map fun size => lengths.count size
    symbols := (sizes.flatMap fun size => lengths.zipIdx.filterMap fun (length, symbol) =>
      if length = size then some symbol else none).toArray }

/-- At most one symbol has a code, which is one bit long, so a set bit means nothing. -/
def isSparse (code : Code) : Bool := code.symbols.size ≤ 1 && (code.counts.drop 1).all (· == 0)

/-- The number of words of `longestCode` bits that begin with a code, each counted once for each
code that it begins with. -/
def covered (code : Code) : Nat :=
  (code.counts.zipIdx.map fun (count, i) => count <<< (longestCode - 1 - i)).foldl (· + ·) 0

/-- The codes use up all words and none twice. -/
def isComplete (code : Code) : Bool := code.covered == 1 <<< longestCode

/-- Reads bits until they are a code. The codes of the length that is read next begin with the
number `2 * first`, and they stand for the symbols from `index` on. -/
def symbolFrom (code : Code) : (counts : List Nat) → (value first index : Nat) → Reader Nat
  | [], _, _, _ => throw .corrupt
  | count :: counts, value, first, index => do
    let b ← Reader.bit
    if code.isSparse && (b || code.symbols.isEmpty) then throw .corrupt
    let value := 2 * value + b.toNat
    let first := 2 * first
    if value < first + count then
      match code.symbols[index + (value - first)]? with
      | some symbol => return symbol
      | none => throw .corrupt
    else
      symbolFrom code counts value (first + count) (index + count)

/-- The symbol whose code comes next. -/
def symbol (code : Code) : Reader Nat := code.symbolFrom code.counts 0 0 0

end Code

end JvmSymbols.Deflate

import JvmSymbols.Bytes.Basic

/-!
# Hexadecimal digits
-/

namespace JvmSymbols.Hex

def lowerDigits : List Char := "0123456789abcdef".toList

def upperDigits : List Char := "0123456789ABCDEF".toList

/-- The last `width` base-16 digits of `n`, most significant first. -/
def ofNat (digits : List Char) : (width n : Nat) → List Char
  | 0, _ => []
  | width + 1, n => ofNat digits width (n / 16) ++ [digits.getD (n % 16) '0']

/-- Two lower-case digits for each byte. -/
def ofBytes (bytes : Bytes) : String :=
  String.ofList (bytes.flatMap fun b => ofNat lowerDigits 2 b.toNat)

end JvmSymbols.Hex

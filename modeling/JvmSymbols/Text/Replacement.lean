/-!
# The replacement character
-/

namespace JvmSymbols

/-- Stands in a text for whatever cannot be read. -/
def replacementChar : Char := '\ufffd'

end JvmSymbols

/-!
# Reading the same thing several times
-/

namespace JvmSymbols

/-- Runs an action `n` times and keeps what it gives, in order. -/
def runTimes {m : Type → Type} [Monad m] {α : Type} (action : m α) : (n : Nat) → m (List α)
  | 0 => pure []
  | n + 1 => do
    let a ← action
    return a :: (← runTimes action n)

end JvmSymbols

import Std.Data.TreeMap

/-!
# Listings

A listing maps the keys of what was found to what they stand for, in the order of the keys. If a key
is found twice, the first finding counts.
-/

namespace JvmSymbols

abbrev Listing (α : Type) := Std.TreeMap String α

namespace Listing

def ofPairs {α : Type} (pairs : List (String × α)) : Listing α :=
  pairs.foldl (fun listing (key, a) => listing.insertIfNew key a) ∅

end Listing

end JvmSymbols

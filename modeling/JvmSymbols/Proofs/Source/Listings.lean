import JvmSymbols.Source.Listing
import Mathlib.Data.List.Basic

/-!
# What is listed

A listing has just the keys that were found (`mem_keys_ofPairs`), and what it has for a key was
found with it. Its keys depend on nothing else, such as the order of the findings
(`keys_ofPairs_congr`), and come in the order of strings (`pairwise_keys`).
-/

namespace JvmSymbols.Listing

variable {α β : Type}

theorem getElem?_foldl (listing : Listing α) (pairs : List (String × α)) (key : String) :
    (pairs.foldl (fun listing (key, a) => listing.insertIfNew key a) listing)[key]? =
      (listing[key]?).or ((pairs.find? (·.1 == key)).map (·.2)) := by
  induction pairs generalizing listing with
  | nil => simp
  | cons pair pairs ih =>
    rw [List.foldl_cons, ih, Std.TreeMap.getElem?_insertIfNew, List.find?_cons]
    by_cases hkey : pair.1 = key
    · subst hkey
      rcases hold : listing[pair.1]? with _ | a
      · simp [Std.TreeMap.mem_iff_isSome_getElem?, hold]
      · simp [Std.TreeMap.mem_iff_isSome_getElem?, hold]
    · have hother : (pair.1 == key) = false := beq_eq_false_iff_ne.mpr hkey
      simp [hkey, hother]

/-- The first finding of a key counts. -/
theorem getElem?_ofPairs (pairs : List (String × α)) (key : String) :
    (ofPairs pairs)[key]? = (pairs.find? (·.1 == key)).map (·.2) := by
  rw [ofPairs, getElem?_foldl]
  simp

theorem mem_of_getElem?_ofPairs {pairs : List (String × α)} {key : String} {a : α}
    (h : (ofPairs pairs)[key]? = some a) : (key, a) ∈ pairs := by
  rw [getElem?_ofPairs] at h
  obtain ⟨⟨key', a'⟩, hfind, rfl⟩ := Option.map_eq_some_iff.mp h
  have hkey : key' = key := by simpa using List.find?_some hfind
  exact hkey ▸ List.mem_of_find?_eq_some hfind

theorem mem_keys_ofPairs {pairs : List (String × α)} {key : String} :
    key ∈ (ofPairs pairs).keys ↔ ∃ a, (key, a) ∈ pairs := by
  rw [Std.TreeMap.mem_keys, Std.TreeMap.mem_iff_isSome_getElem?, getElem?_ofPairs]
  simp

theorem exists_of_mem_keys {listing : Listing α} {key : String} (h : key ∈ listing.keys) :
    ∃ a, listing[key]? = some a :=
  Option.isSome_iff_exists.mp (Std.TreeMap.mem_iff_isSome_getElem?.mp (Std.TreeMap.mem_keys.mp h))

/-- Listings of the same keys have them in the same order. -/
theorem keys_ofPairs_congr {xs : List (String × α)} {ys : List (String × β)}
    (h : ∀ key, (∃ a, (key, a) ∈ xs) ↔ ∃ b, (key, b) ∈ ys) :
    (ofPairs xs).keys = (ofPairs ys).keys := by
  have hmem (key : String) : key ∈ (ofPairs xs).keys ↔ key ∈ (ofPairs ys).keys := by
    rw [mem_keys_ofPairs, mem_keys_ofPairs, h key]
  refine ((List.perm_ext_iff_of_nodup Std.TreeMap.nodup_keys Std.TreeMap.nodup_keys).mpr hmem)
    |>.eq_of_pairwise (fun a b _ _ hab hba => ?_) Std.TreeMap.ordered_keys Std.TreeMap.ordered_keys
  exact nomatch hab.symm.trans (Std.OrientedCmp.gt_of_lt hba)

theorem pairwise_keys (listing : Listing α) : listing.keys.Pairwise (· < ·) := by
  have hlt (a b : String) (h : compare a b = .lt) : a < b := compareOfLessAndEq_eq_lt.mp h
  exact Std.TreeMap.ordered_keys.imp (hlt _ _)

end JvmSymbols.Listing

import JvmSymbols.Proofs.Source.SameKeys

/-!
# The listing of an archive

Whatever was listed and read before, the listing has a key for each stored name of a file that the
filter accepts and nothing else, and a key that was listed is read from an entry that it stands for
(`listing_exact`). In which order the names are handed out matters only for keys that two of them
share.
-/

namespace JvmSymbols

open Archive (Abort)
open Dump (Failure)

/-- The stored name is that of a file which the filter accepts under `key`. -/
structure Archive.Offers (archive : Archive) (filter : Filter) (key stored : String) : Prop where
  mem : stored ∈ archive.names
  file : ArchiveSource.isDirectoryName stored = false
  normal : EntryName.normalize stored = key
  accepted : filter.accepts key = true

/-- A name under which something is stored is that of the entry that is found by it. -/
theorem Archive.exists_find? {archive : Archive} {stored : String} (h : stored ∈ archive.names) :
    ∃ entry ∈ archive.entries, entry.name = stored ∧ archive.find? entry.name = some entry := by
  obtain ⟨other, hother, hname⟩ := List.mem_map.mp h
  have hsome : (archive.entries.reverse.find? (·.name == stored)).isSome = true :=
    List.find?_isSome.mpr ⟨other, List.mem_reverse.mpr hother, beq_iff_eq.mpr hname⟩
  obtain ⟨entry, hfind⟩ := Option.isSome_iff_exists.mp hsome
  have hentry : entry.name = stored := by simpa using List.find?_some hfind
  exact ⟨entry, List.mem_reverse.mp (List.mem_of_find?_eq_some hfind), hentry, hentry ▸ hfind⟩

namespace ArchiveSource

/-! ## Calls -/

/-- What can be asked of a source. The names of the archive are handed out in `order`. -/
inductive Call
  | list (order : Archive → List String) (filter : Filter)
  | read (key : String)

/-- The source behind a call. -/
def call (source : ArchiveSource) : Call → ArchiveSource
  | .list order filter => (source.listIn order filter).2
  | .read _ => source

def after (source : ArchiveSource) (calls : List Call) : ArchiveSource := calls.foldl call source

/-- The two sources read the same archive. -/
structure Alike (source source' : ArchiveSource) : Prop where
  path : source'.path = source.path
  archive : source'.archive = source.archive

theorem alike_call (source : ArchiveSource) (call : Call) : Alike source (source.call call) := by
  cases call <;> exact ⟨rfl, rfl⟩

theorem alike_after (source : ArchiveSource) (calls : List Call) :
    Alike source (source.after calls) := by
  induction calls generalizing source with
  | nil => exact ⟨rfl, rfl⟩
  | cons call calls ih =>
    obtain ⟨hpath, harchive⟩ := ih (source.call call)
    obtain ⟨hpath', harchive'⟩ := alike_call source call
    exact ⟨hpath.trans hpath', harchive.trans harchive'⟩

/-- What was listed before does not matter. -/
theorem Alike.listIn {source source' : ArchiveSource} (h : Alike source source')
    (order : Archive → List String) (filter : Filter) :
    source'.listIn order filter = source.listIn order filter := by
  rw [ArchiveSource.listIn, ArchiveSource.listIn, h.path, h.archive]

/-- Reading does not change what is listed. -/
theorem after_reads (source : ArchiveSource) (keys : List String) :
    source.after (keys.map .read) = source := by
  induction keys with
  | nil => rfl
  | cons key keys ih => exact ih

/-! ## Reading -/

section
variable {m : Type → Type} [Monad m] [MonadExceptOf Abort m]

/-- Reads the entry with a stored name; a failure is told of `key`. -/
def readAs (source : ArchiveSource) (key stored : String) : ExceptT Failure m Bytes :=
  ExceptT.mk <|
    match source.archive.read stored with
    | .ok bytes => pure (.ok bytes)
    | .error (.unopenable fault) =>
      pure (.error (.unopenable (source.path.join (.ofString key)) fault))
    | .error (.unreadable fault) => pure (.error (.unreadable key (.content fault)))
    | .error (.abort abort) => throwThe Abort abort

theorem read_eq (source : ArchiveSource) (key : String) :
    (source.read key : ExceptT Failure m Bytes) = source.readAs key (source.nameOf key) := by
  rw [read, readAs, outcome]
  congr 1
  rcases source.archive.read (source.nameOf key) with (_ | _ | _) | _ <;> rfl

end

/-! ## Listing -/

/-- What a listing of the source comes to: the keys, and the source that reads them. -/
structure Listed (m : Type → Type) [Monad m] [MonadExceptOf Abort m] (source : ArchiveSource)
    (filter : Filter) (keys : List String) (reader : ArchiveSource) : Prop where
  ascending : keys.Pairwise (· < ·)
  exact {key : String} : key ∈ keys ↔ ∃ stored, source.archive.Offers filter key stored
  /-- A key is read from an entry that it stands for. -/
  reads {key : String} : key ∈ keys → ∃ entry ∈ source.archive.entries,
    source.archive.find? entry.name = some entry ∧ source.archive.Offers filter key entry.name ∧
    (reader.read key : ExceptT Failure m Bytes) = source.readAs key entry.name
  /-- A stored name is lost only if another one has the same key. -/
  sole {key stored : String} : source.archive.Offers filter key stored →
    (∀ other, source.archive.Offers filter key other → other = stored) →
    (reader.read key : ExceptT Failure m Bytes) = source.readAs key stored

section
variable {source : ArchiveSource} {order order' : Archive → List String} {filter : Filter}
  {key stored : String}

theorem mem_keyed_iff (horder : Archive.NamesAll order) :
    (key, stored) ∈ (order source.archive).filterMap (keyed? filter) ↔
      source.archive.Offers filter key stored := by
  rw [List.mem_filterMap]
  constructor
  · rintro ⟨other, hother, hpair⟩
    obtain ⟨hfile, hnormal, haccepted, rfl⟩ := keyed?_eq_some.mp hpair
    exact ⟨(horder _ _).mp hother, hfile, hnormal, haccepted⟩
  · rintro ⟨hmem, hfile, hnormal, haccepted⟩
    exact ⟨stored, (horder _ _).mpr hmem, keyed?_eq_some.mpr ⟨hfile, hnormal, haccepted, rfl⟩⟩

theorem mem_keys_listIn (horder : Archive.NamesAll order) :
    key ∈ (source.listIn order filter).1 ↔ ∃ stored, source.archive.Offers filter key stored :=
  Listing.mem_keys_ofPairs.trans (exists_congr fun _ => mem_keyed_iff horder)

/-- A listed key leads to a stored name that it stands for. -/
theorem offers_nameOf (horder : Archive.NamesAll order)
    (hkey : key ∈ (source.listIn order filter).1) :
    source.archive.Offers filter key ((source.listIn order filter).2.nameOf key) := by
  obtain ⟨stored, hstored⟩ := Listing.exists_of_mem_keys hkey
  have hname : (source.listIn order filter).2.nameOf key = stored := by
    rw [nameOf, listIn, hstored, Option.getD_some]
  rw [hname]
  exact (mem_keyed_iff horder).mp (Listing.mem_of_getElem?_ofPairs hstored)

/-- A key that was not listed is taken for a stored name. -/
theorem nameOf_of_not_mem (hkey : key ∉ (source.listIn order filter).1) :
    (source.listIn order filter).2.nameOf key = key := by
  have hnone : (Listing.ofPairs ((order source.archive).filterMap (keyed? filter)))[key]? = none :=
    Std.TreeMap.getElem?_eq_none (mt Std.TreeMap.mem_keys.mpr hkey)
  rw [nameOf, listIn, hnone, Option.getD_none]

theorem listed_listIn {m : Type → Type} [Monad m] [MonadExceptOf Abort m]
    (horder : Archive.NamesAll order) :
    Listed m source filter (source.listIn order filter).1 (source.listIn order filter).2 where
  ascending := Listing.pairwise_keys _
  exact := mem_keys_listIn horder
  reads {key} hkey := by
    have hoffers := offers_nameOf horder hkey
    obtain ⟨entry, hentry, hname, hfind⟩ := Archive.exists_find? hoffers.mem
    refine ⟨entry, hentry, hfind, hname ▸ hoffers, ?_⟩
    rw [read_eq, hname]
    rfl
  sole {key stored} hoffers honly := by
    have hkey := (mem_keys_listIn horder).mpr ⟨stored, hoffers⟩
    rw [read_eq, honly _ (offers_nameOf horder hkey)]
    rfl

theorem keys_listIn_congr (horder : Archive.NamesAll order) (horder' : Archive.NamesAll order') :
    (source.listIn order' filter).1 = (source.listIn order filter).1 :=
  Listing.keys_ofPairs_congr fun _ => exists_congr fun _ =>
    (mem_keyed_iff horder').trans (mem_keyed_iff horder).symm

/-- The order of the names does not matter for a key that only one of them has. -/
theorem nameOf_listIn_congr (horder : Archive.NamesAll order) (horder' : Archive.NamesAll order')
    (hone : ∀ stored stored', source.archive.Offers filter key stored →
      source.archive.Offers filter key stored' → stored = stored') :
    (source.listIn order' filter).2.nameOf key = (source.listIn order filter).2.nameOf key := by
  have hkeys : (source.listIn order' filter).1 = (source.listIn order filter).1 :=
    keys_listIn_congr horder horder'
  by_cases hkey : key ∈ (source.listIn order filter).1
  · exact hone _ _ (offers_nameOf horder' (hkeys ▸ hkey)) (offers_nameOf horder hkey)
  · rw [nameOf_of_not_mem hkey, nameOf_of_not_mem (hkeys ▸ hkey)]

end

/-- Whatever was listed and read before, and whatever is read in between, a listing is exact and its
keys are read from the entries that they stand for. -/
theorem listing_exact {m : Type → Type} [Monad m] [MonadExceptOf Abort m]
    {order order' : Archive → List String} (horder : Archive.NamesAll order)
    (horder' : Archive.NamesAll order') (source : ArchiveSource) (filter : Filter)
    (before before' : List Call) (between between' : List String) :
    let listed := (source.after before).listIn order filter
    let reader := listed.2.after (between.map .read)
    let listed' := (source.after before').listIn order' filter
    let reader' := listed'.2.after (between'.map .read)
    Listed m source filter listed.1 reader ∧ listed'.1 = listed.1 ∧
      ∀ key, (∀ stored stored', source.archive.Offers filter key stored →
          source.archive.Offers filter key stored' → stored = stored') →
        (reader'.read key : ExceptT Failure m Bytes) = reader.read key := by
  intro listed reader listed' reader'
  have hlisted : listed = source.listIn order filter := (alike_after source before).listIn _ _
  have hlisted' : listed' = source.listIn order' filter := (alike_after source before').listIn _ _
  have hreader : reader = (source.listIn order filter).2 := by
    rw [← hlisted]
    exact after_reads _ _
  have hreader' : reader' = (source.listIn order' filter).2 := by
    rw [← hlisted']
    exact after_reads _ _
  rw [hlisted, hlisted', hreader, hreader']
  refine ⟨listed_listIn horder, keys_listIn_congr horder horder', fun key hone => ?_⟩
  rw [read_eq, read_eq, nameOf_listIn_congr horder horder' hone]
  rfl

/-- Two spellings of one name, a directory, and an entry that is packed in an unknown way. -/
def spelledSource : ArchiveSource where
  path := .ofString "x.jar"
  archive := {
    bytes := [0x50, 0x4B, 3, 4] ++ List.replicate 26 0 ++ [0xCA]
    entries := [
      ⟨"./p\\b.class", 0, false, false, 0xA9B3C423, 1, 1, 0⟩,
      ⟨"p\\", 0, false, false, 0, 0, 0, 0⟩,
      ⟨"/p/b.class", 0, false, false, 0, 1, 1, 0⟩,
      ⟨"a.class", 99, false, false, 0xA9B3C423, 1, 1, 0⟩] }
  listed := ∅

theorem listing_spelledSource :
    let listed := spelledSource.list .all
    let turned := spelledSource.listIn (·.names.reverse) .all
    Archive.NamesAll Archive.names ∧ Archive.NamesAll (·.names.reverse) ∧
      listed.1 = ["a.class", "p/b.class"] ∧ turned.1 = listed.1 ∧
      listed.2.outcome "p/b.class" = .ok (.ok [0xCA]) ∧
      turned.2.outcome "p/b.class" =
        .ok (.error (.unreadable "p/b.class" (.content .badChecksum))) ∧
      (listed.2.read "a.class" : ExceptT Failure (Except Abort) Bytes) =
        spelledSource.readAs "a.class" "a.class" ∧
      (turned.2.read "a.class" : ExceptT Failure (Except Abort) Bytes) =
        listed.2.read "a.class" := by
  intro listed turned
  have hnames : Archive.NamesAll Archive.names := fun _ _ => Iff.rfl
  have hturned : Archive.NamesAll (·.names.reverse) := fun _ _ => List.mem_reverse
  obtain ⟨hlisted, hkeys, hsame⟩ := listing_exact (m := Except Abort) hnames hturned
    spelledSource .all [] [] [] []
  have honly (other : String) (h : spelledSource.archive.Offers .all "a.class" other) :
      other = "a.class" := by
    have hall : ∀ stored ∈ spelledSource.archive.names,
        EntryName.normalize stored = "a.class" → stored = "a.class" := by decide
    exact hall other h.mem h.normal
  refine ⟨hnames, hturned, by decide, hkeys, by decide, by decide,
    hlisted.sole ⟨by decide, by decide, by decide, by decide⟩ honly, ?_⟩
  exact hsame "a.class" fun _ _ h h' => (honly _ h).trans (honly _ h').symm

end ArchiveSource

end JvmSymbols

import JvmSymbols.Proofs.FileSystem.WalkedRuns
import JvmSymbols.Proofs.FileTree.Below
import JvmSymbols.Proofs.Source.SameKeys

/-!
# The listing of a directory

If the walk finds what lies below the root, the listing has a key for each file and link there that
the filter accepts and nothing else, and a key that was listed is read from an entry that it stands
for (`listing_reads_back`). Names need not be text: two of them may have one key, and the key of a
name that is no text does not give it back.
-/

namespace JvmSymbols

open Dump (Failure)
open FileSystem (Found)

/-! ## Entries below a directory -/

namespace FileTree

variable {tree : FileTree} {root path : Path} {here : Location} {names : List Name} {node : Node}

/-- The names lead from `here` down to `node`, through directories only. -/
structure LiesBelow (tree : FileTree) (here : Location) (names : List Name) (node : Node) :
    Prop where
  ne_nil : names ≠ []
  node : tree.get? (here ++ names) = some node
  way : ∀ n, 0 < n → n < names.length → tree.get? (here ++ names.take n) = some .directory

/-- What stands at the path counts as a file: it is one, or a link that leads to no directory. -/
def IsFileLike (tree : FileTree) (path : Path) : Node → Prop
  | .file _ => True
  | .link _ => ∀ place, tree.node path ≠ .ok (place, .directory)
  | .directory | .device _ => False

theorem kindOf_eq_directory {node : Node} : kindOf node = .directory ↔ node = .directory := by
  cases node <;> simp [kindOf]

theorem kind_eq_directory :
    tree.kind path = .ok .directory ↔ ∃ place, tree.node path = .ok (place, .directory) := by
  rw [kind_eq_ok]
  constructor
  · rintro ⟨place, node, hnode, hkind⟩
    exact ⟨place, kindOf_eq_directory.mp hkind ▸ hnode⟩
  · rintro ⟨place, hnode⟩
    exact ⟨place, _, hnode, rfl⟩

/-- A walk tells what counts as a file. -/
theorem isFileLike_iff : tree.IsFileLike path node ↔
    ∃ f, tree.found? path node = some f ∧ DirectorySource.isFile f = true := by
  cases node with
  | file bytes => exact ⟨fun _ => ⟨.file, rfl, rfl⟩, fun _ => trivial⟩
  | link target =>
    have hlink : DirectorySource.isFile (.link (tree.kind path).toOption) = true ↔
        tree.kind path ≠ .ok .directory := by
      rcases tree.kind path with fault | kind <;>
        simp [DirectorySource.isFile, Except.toOption]
    rw [IsFileLike, ← not_exists, ← kind_eq_directory, ← ne_eq, ← hlink]
    constructor
    · exact fun h => ⟨_, rfl, h⟩
    · rintro ⟨f, hf, hfile⟩
      cases hf
      exact hfile
  | directory => exact ⟨False.elim, nofun⟩
  | device device => exact ⟨False.elim, nofun⟩

/-- What has a name has directories above it, so it lies below each of them. -/
theorem Closed.liesBelow (hclosed : tree.Closed) (hne : names ≠ [])
    (hnode : tree.get? (here ++ names) = some node) : tree.LiesBelow here names node where
  ne_nil := hne
  node := hnode
  way n _ hn := by
    have hrest : names.drop n ≠ [] := List.ne_nil_of_length_pos (by rw [List.length_drop]; omega)
    have hsplit : tree.get? ((here ++ names.take n) ++ names.drop n) = some node := by
      rwa [List.append_assoc, List.take_append_drop]
    exact hclosed.above_append hrest hsplit

/-- The names in the tree can stand in paths. -/
def HasProperNames (tree : FileTree) : Prop :=
  ∀ place node, tree.get? place = some node → ∀ name ∈ place, Path.IsProper name

theorem hasProperNames_of_forall (h : ∀ p ∈ tree.nodes.toList, ∀ name ∈ p.1, Path.IsProper name) :
    tree.HasProperNames := fun _ _ hnode =>
  h _ (Std.TreeMap.mem_toList_iff_getElem?_eq_some.mpr hnode)

theorem LiesBelow.isProper (h : tree.LiesBelow here names node) (hproper : tree.HasProperNames) :
    ∀ name ∈ names, Path.IsProper name := fun name hname =>
  hproper _ _ h.node name (List.mem_append_right here hname)

/-- A file is read by the path that goes down to it, unless that or one of its names is too long. -/
theorem LiesBelow.read {bytes : Bytes} (h : tree.LiesBelow here names (.file bytes))
    (hproper : tree.HasProperNames) (hroot : tree.node root = .ok (here, .directory))
    (hcheck : checkPath (root.descend names) = .ok ())
    (hlength : ∀ name ∈ names, name.length ≤ longestName) :
    tree.read (root.descend names) = .ok bytes :=
  read_of_node (node_descend hroot h.ne_nil
    (fun name hname => ⟨h.isProper hproper name hname, hlength name hname⟩) h.way h.node nofun
    hcheck)

end FileTree

/-- The walk finds each file and link below the directory, by the path that goes down to it, and no
link is followed but the root. (The root `-` is not walked but taken for standard input.) -/
structure Walk.Yields (walk : Walk) (tree : FileTree) (root : Path) (here : Location) : Prop where
  walked : DirectorySource.isStandardInput root = false
  found : ∃ found, walk tree root = .ok found ∧ ∀ path f, (path, f) ∈ found ↔
    ∃ names node, tree.LiesBelow here names node ∧ path = root.descend names ∧
      tree.found? path node = some f

/-- Walks that find what there is do so unless there is a directory that cannot be listed. -/
theorem Walk.FindsAll.yields {walk : Walk} {tree : FileTree} {root : Path} {here : Location}
    (h : walk.FindsAll) (hclosed : tree.Closed) (hroot : tree.node root = .ok (here, .directory))
    (hwalked : DirectorySource.isStandardInput root = false)
    (hdeep : ∀ rest, rest ≠ [] → tree.get? (here ++ rest) = some .directory →
      (root.descend rest).bytes.length ≤ FileTree.longestPath) : walk.Yields tree root here where
  walked := hwalked
  found := by
    obtain ⟨found, hfound, hsame⟩ := h tree root _ ((FileTree.walk_eq_ok hroot).mpr ⟨hdeep, rfl⟩)
    refine ⟨found, hfound, fun path f => ?_⟩
    rw [hsame, List.mem_filterMap]
    constructor
    · rintro ⟨⟨path', node⟩, hmem, hpair⟩
      obtain ⟨names, hne, hnode, rfl⟩ := FileTree.mem_reached.mp hmem
      obtain ⟨f', hf', hpair⟩ := Option.bind_eq_some_iff.mp hpair
      cases hpair
      exact ⟨names, node, hclosed.liesBelow hne hnode, rfl, hf'⟩
    · rintro ⟨names, node, hbelow, rfl, hf⟩
      refine ⟨(root.descend names, node),
        FileTree.mem_reached.mpr ⟨names, hbelow.ne_nil, hbelow.node, rfl⟩, ?_⟩
      exact Option.bind_eq_some_iff.mpr ⟨f, hf, rfl⟩

/-! ## Keys -/

theorem Utf8.encode_keyOf {texts : List String} (hne : texts ≠ []) :
    encode (keyOf texts) = Path.unsplit (texts.map encode) := by
  induction texts with
  | nil => exact absurd rfl hne
  | cons text texts ih =>
    by_cases hlast : texts = []
    · subst hlast
      rw [encode, EntryName.toList_keyOf_singleton]
      simp [Path.unsplit, encode]
    · rw [encode, EntryName.toList_keyOf_cons hlast, List.flatMap_append, List.flatMap_cons,
        List.map_cons, Path.unsplit_cons _ (by simpa using hlast), ← ih hlast]
      rfl

/-- The parts of a path that is text are text. -/
theorem Path.exists_text_of_mem_split (text : List Char) :
    ∀ part ∈ split (text.flatMap String.utf8EncodeChar), ∃ name, part = Utf8.encode name := by
  induction text using List.reverseRecOn with
  | nil =>
    intro part hpart
    exact ⟨"", List.mem_singleton.mp hpart⟩
  | append_singleton text c ih =>
    rw [List.flatMap_append, List.flatMap_singleton]
    by_cases hc : c = '/'
    · subst hc
      have hslash : String.utf8EncodeChar '/' = [slash] := rfl
      rw [hslash, split_append_slash]
      intro part hpart
      rcases List.mem_append.mp hpart with hpart | hpart
      · exact ih part hpart
      · exact ⟨"", List.mem_singleton.mp hpart⟩
    · obtain ⟨front, last, hsplit⟩ := exists_split (text.flatMap String.utf8EncodeChar)
      rw [hsplit] at ih
      obtain ⟨name, rfl⟩ := ih last (List.mem_append_right front List.mem_cons_self)
      have hnone : slash ∉ String.utf8EncodeChar c := by
        refine List.count_eq_zero.mp ((Utf8.count_utf8EncodeChar (d := '/') (by decide) c).trans ?_)
        exact List.count_eq_zero.mpr fun h => hc (List.mem_singleton.mp h).symm
      rw [split_append hsplit hnone]
      intro part hpart
      rcases List.mem_append.mp hpart with hpart | hpart
      · exact ih part (List.mem_append_left _ hpart)
      · refine ⟨String.ofList (name.toList ++ [c]), ?_⟩
        rw [List.mem_singleton.mp hpart, Utf8.encode, Utf8.encode, String.toList_ofList,
          List.flatMap_append, List.flatMap_singleton]

/-- Names that make up a path which is text are told by their key. -/
theorem Path.split_encode_keyOf {names : List Name} (hne : names ≠ [])
    (hproper : ∀ name ∈ names, IsProper name)
    (htext : ∃ text, unsplit names = Utf8.encode text) :
    split (Utf8.encode (keyOf (names.map Utf8.decodeLossy))) = names := by
  have hsplit : split (unsplit names) = names :=
    split_unsplit (fun name hname => (hproper name hname).slash) hne
  have hsame : (names.map Utf8.decodeLossy).map Utf8.encode = names := by
    rw [List.map_map, List.map_congr_left (g := id), List.map_id]
    intro name hname
    obtain ⟨text, htext⟩ := htext
    rw [← hsplit, htext] at hname
    obtain ⟨text', rfl⟩ := exists_text_of_mem_split text.toList name hname
    rw [Function.comp_apply, Utf8.decodeLossy_encode, id]
  rw [Utf8.encode_keyOf (by simpa using hne), hsame, hsplit]

/-! ## Listing -/

namespace DirectorySource

/-- The names lead to an entry below the root which the filter accepts under `key`. -/
structure Offers (tree : FileTree) (root : Path) (here : Location) (filter : Filter) (key : String)
    (names : List Name) : Prop where
  entry : ∃ node, tree.LiesBelow here names node ∧ tree.IsFileLike (root.descend names) node
  spelled : keyOf (names.map Utf8.decodeLossy) = key
  accepted : filter.accepts key = true

/-- Reading the key gives the bytes of what the path leads to, or the fault of reading it. -/
def Reads (walk : Walk) (tree : FileTree) (source : DirectorySource) (key : String)
    (path : Path) : Prop :=
  EndsWith (source.read key : ExceptT Failure (WalkedBy walk) Bytes).run ((), tree)
    ((tree.read path).mapError fun fault => .unreadable key (.file fault)) ((), tree)

/-- What a listing of the root comes to: the keys, and the source that reads them. -/
structure Lists (walk : Walk) (tree : FileTree) (root : Path) (here : Location) (filter : Filter)
    (keys : List String) (reader : DirectorySource) : Prop where
  ascending : keys.Pairwise (· < ·)
  exact {key : String} : key ∈ keys ↔ ∃ names, Offers tree root here filter key names
  /-- A key is read from an entry that it stands for. -/
  reads {key : String} : key ∈ keys → ∃ names, Offers tree root here filter key names ∧
    Reads walk tree reader key (root.descend names)
  /-- An entry is lost only if another one has the same key. -/
  sole {key : String} {names : List Name} : Offers tree root here filter key names →
    (∀ other, Offers tree root here filter key other → other = names) →
    Reads walk tree reader key (root.descend names)
  /-- If the path below the root is text, a source that listed nothing reads the same entry. -/
  fresh {key : String} {names : List Name} : Offers tree root here filter key names →
    (∃ text, Path.unsplit names = Utf8.encode text) →
    Reads walk tree (.ofRoot root) key (root.descend names)
  /-- What is read of a file that can be opened by its path is what it holds. -/
  content {names : List Name} {bytes : Bytes} : tree.LiesBelow here names (.file bytes) →
    FileTree.checkPath (root.descend names) = .ok () →
    (∀ name ∈ names, name.length ≤ FileTree.longestName) →
    tree.read (root.descend names) = .ok bytes

section
variable {walk : Walk} {tree : FileTree} {root : Path} {here : Location} {filter : Filter}
  {key : String} {names : List Name} {found : List (Path × Found)}

theorem Offers.isProper (h : Offers tree root here filter key names)
    (hproper : tree.HasProperNames) : ∀ name ∈ names, Path.IsProper name := by
  obtain ⟨node, hbelow, -⟩ := h.entry
  exact hbelow.isProper hproper

theorem Offers.ne_nil (h : Offers tree root here filter key names) : names ≠ [] := by
  obtain ⟨node, hbelow, -⟩ := h.entry
  exact hbelow.ne_nil

theorem mem_keyed_iff (hroot : root.bytes ≠ []) (hproper : tree.HasProperNames)
    (hfound : ∀ path f, (path, f) ∈ found ↔ ∃ names node, tree.LiesBelow here names node ∧
      path = root.descend names ∧ tree.found? path node = some f) {path : Path} :
    (key, path) ∈ found.filterMap (fun (path, f) => keyed? root filter path f) ↔
      ∃ names, Offers tree root here filter key names ∧ path = root.descend names := by
  rw [List.mem_filterMap]
  constructor
  · rintro ⟨⟨other, f⟩, hmem, hpair⟩
    obtain ⟨hfile, hkey, haccepted, rfl⟩ := keyed?_eq_some.mp hpair
    obtain ⟨names, node, hbelow, rfl, hf⟩ := (hfound _ _).mp hmem
    rw [relativeKey_descend_names hroot (hbelow.isProper hproper) hbelow.ne_nil] at hkey
    exact ⟨names, ⟨⟨node, hbelow, FileTree.isFileLike_iff.mpr ⟨f, hf, hfile⟩⟩,
      Option.some.inj hkey, haccepted⟩, rfl⟩
  · rintro ⟨names, hoffers, rfl⟩
    obtain ⟨node, hbelow, hlike⟩ := hoffers.entry
    obtain ⟨f, hf, hfile⟩ := FileTree.isFileLike_iff.mp hlike
    refine ⟨(root.descend names, f), (hfound _ _).mpr ⟨names, node, hbelow, rfl, hf⟩, ?_⟩
    refine keyed?_eq_some.mpr ⟨hfile, ?_, hoffers.accepted, rfl⟩
    rw [relativeKey_descend_names hroot (hbelow.isProper hproper) hbelow.ne_nil, hoffers.spelled]

/-- A key spells the path that is read for it if nothing was listed. -/
theorem pathOf_ofRoot (root : Path) (key : String) :
    (ofRoot root).pathOf key = root.descend (Path.split (Utf8.encode key)) := by
  have hnone : (ofRoot root).listed[key]? = none := Std.TreeMap.getElem?_emptyc
  rw [pathOf, hnone]
  rfl

end

/-- Whatever was listed before, a listing is exact, and its keys are read from the entries that they
stand for. -/
theorem listing_reads_back {walk : Walk} {tree : FileTree} {root : Path} {here : Location}
    (hroot : tree.node root = .ok (here, .directory)) (hproper : tree.HasProperNames)
    (hwalk : walk.Yields tree root here) (source : DirectorySource) (hsource : source.root = root)
    (filter : Filter) :
    ∃ keys reader, EndsWith (source.list filter : WalkedBy walk _) ((), tree) (.ok keys, reader)
      ((), tree) ∧ Lists walk tree root here filter keys reader := by
  subst hsource
  obtain ⟨found, hwalked, hfound⟩ := hwalk.found
  have hne := FileTree.ne_nil_of_node hroot
  have hkeyed {key : String} {path : Path} :
      (key, path) ∈ found.filterMap (fun (path, f) => keyed? source.root filter path f) ↔
        ∃ names, Offers tree source.root here filter key names ∧
          path = source.root.descend names := mem_keyed_iff hne hproper hfound
  refine ⟨_, _, WalkedBy.endsWith_list filter hwalk.walked hwalked, ?_⟩
  -- a listed key leads to the path of an entry that it stands for
  have hlisted {key : String} (hkey : key ∈ (source.select filter found).listed.keys) :
      ∃ names, Offers tree source.root here filter key names ∧
        (source.select filter found).pathOf key = source.root.descend names := by
    obtain ⟨path, hpath⟩ := Listing.exists_of_mem_keys hkey
    obtain ⟨names, hoffers, rfl⟩ := hkeyed.mp (Listing.mem_of_getElem?_ofPairs hpath)
    exact ⟨names, hoffers, by rw [pathOf, hpath]⟩
  have hexact {key : String} : key ∈ (source.select filter found).listed.keys ↔
      ∃ names, Offers tree source.root here filter key names := by
    refine Listing.mem_keys_ofPairs.trans ⟨?_, ?_⟩
    · rintro ⟨path, hpair⟩
      obtain ⟨names, hoffers, -⟩ := hkeyed.mp hpair
      exact ⟨names, hoffers⟩
    · rintro ⟨names, hoffers⟩
      exact ⟨_, hkeyed.mpr ⟨names, hoffers, rfl⟩⟩
  have hreads (reader : DirectorySource) (key : String) :
      Reads walk tree reader key (reader.pathOf key) := WalkedBy.endsWith_read walk tree reader key
  refine ⟨Listing.pairwise_keys _, hexact, fun {key} hkey => ?_, fun {key names} hoffers honly => ?_,
    fun {key names} hoffers htext => ?_, fun hbelow => hbelow.read hproper hroot⟩
  · obtain ⟨names, hoffers, hpath⟩ := hlisted hkey
    exact ⟨names, hoffers, hpath ▸ hreads _ key⟩
  · obtain ⟨other, hother, hpath⟩ := hlisted (hexact.mpr ⟨names, hoffers⟩)
    rw [← honly other hother, ← hpath]
    exact hreads _ key
  · have hpath : (ofRoot source.root).pathOf key = source.root.descend names := by
      rw [pathOf_ofRoot, ← hoffers.spelled,
        Path.split_encode_keyOf hoffers.ne_nil (hoffers.isProper hproper) htext]
    exact hpath ▸ hreads _ key

/-- A file whose name is no text in a hidden directory, and links to a file, to the root, to
themselves and to nothing. -/
def linkedTree : FileTree :=
  [(["root"], Node.directory), (["root", ".h"], .directory), (["root", "a.class"], .file [1]),
    (["root", "l.class"], .link (.ofString "a.class")), (["root", "r.class"], .link (.ofString ".")),
    (["root", "s.class"], .link (.ofString "s.class")),
    (["root", "n.class"], .link (.ofString "none"))].foldl
      (fun tree (names, node) => tree.set (("work" :: names).map FileTree.name) node)
      (FileTree.initial.set [FileTree.name "work", FileTree.name "root", FileTree.name ".h",
        0xE9 :: FileTree.name ".class"] (.file [2]))

theorem listing_linkedTree :
    let root : Path := .ofString "root"
    let here : Location := [FileTree.name "work", FileTree.name "root"]
    let latin : List Name := [FileTree.name ".h", 0xE9 :: FileTree.name ".class"]
    linkedTree.node root = .ok (here, .directory) ∧ linkedTree.HasProperNames ∧
      Walk.Yields FileTree.walk linkedTree root here ∧
      linkedTree.read (root.descend latin) = .ok [2] ∧
      ∃ keys reader, EndsWith ((ofRoot root).list .all : WalkedBy FileTree.walk _) ((), linkedTree)
          (.ok keys, reader) ((), linkedTree) ∧
        keys = [".h/\uFFFD.class", "a.class", "l.class", "n.class", "s.class"] ∧
        Lists FileTree.walk linkedTree root here .all keys reader := by
  intro root here latin
  have hroot : linkedTree.node root = .ok (here, .directory) := by decide
  have hproper : linkedTree.HasProperNames :=
    FileTree.hasProperNames_of_forall (by decide)
  have hclosed : linkedTree.Closed :=
    FileTree.closed_of_forall (by decide) (by decide) (by decide)
  have hdeep : ∀ names, names ≠ [] → linkedTree.get? (here ++ names) = some .directory →
      (root.descend names).bytes.length ≤ FileTree.longestPath :=
    FileTree.find?_reached.mp (by decide)
  have hwalk : Walk.Yields FileTree.walk linkedTree root here :=
    Walk.FindsAll.yields (fun _ _ found hfound => ⟨found, hfound, fun _ => Iff.rfl⟩) hclosed hroot
      (by decide) hdeep
  obtain ⟨keys, reader, hends, hlists⟩ := listing_reads_back hroot hproper hwalk (ofRoot root) rfl .all
  have hlatin : linkedTree.read (root.descend latin) = .ok [2] := by
    refine hlists.content (hclosed.liesBelow (by decide) (by decide)) ?_ ?_ <;> decide
  refine ⟨hroot, hproper, hwalk, hlatin, keys, reader, hends, ?_, hlists⟩
  have hkeys : (linkedTree.walk root).map (fun found =>
      ((ofRoot root).select .all found).listed.keys) =
      .ok [".h/\uFFFD.class", "a.class", "l.class", "n.class", "s.class"] := by decide
  obtain ⟨found, hfound, -⟩ := hwalk.found
  rw [hfound] at hkeys
  have hsame := (hends.unique (WalkedBy.endsWith_list .all hwalk.walked hfound)).1
  exact (Except.ok.inj (congrArg Prod.fst hsame)).trans (Except.ok.inj hkeys)

end DirectorySource

end JvmSymbols

import JvmSymbols.Proofs.FileTree.Below
import JvmSymbols.Proofs.FileTree.Opening

/-!
# Trees without links

Where no link stands, a path leads to the place that its parts say (`Reaches.location_eq`). A file
below a directory is read alike in every tree that holds the same there and has the same ways
(`read_descend`).
-/

namespace JvmSymbols.FileTree

open JvmSymbols.Path (IsProper namesOf)

variable {tree tree' parents opened after : FileTree} {aim : Aim} {links : Nat}
  {start here place : Location} {path root : Path} {front names : List Name} {last : Name}
  {node : Node} {end' : Place} {held : Bytes}

/-! ## Places that paths name -/

def Linkless (tree : FileTree) : Prop := ∀ place target, tree.get? place ≠ some (.link target)

/-- Where a part leads from `here` if no link stands there. -/
def stepTo (here : Location) (part : Name) : Location :=
  if Path.isIdle part then here else if part = Path.dotDot then here.dropLast else here ++ [part]

/-- The place that a path names if no link is on the way. -/
def placeOf (tree : FileTree) (path : Path) : Location :=
  (Path.split path.bytes).foldl stepTo (startOf path tree.working)

/-- What has a name stands in a directory, the names can stand in paths, and there are no links. -/
structure Regular (tree : FileTree) : Prop extends Closed tree where
  linkless : tree.Linkless
  isProper {place : Location} {node : Node} : tree.get? place = some node →
    ∀ name ∈ place, IsProper name

def isLink : Node → Bool
  | .link _ => true
  | _ => false

theorem regular_of_forall (hclosed : tree.Closed)
    (hlinks : ∀ p ∈ tree.nodes.toList, isLink p.2 = false)
    (hnames : ∀ p ∈ tree.nodes.toList, ∀ name ∈ p.1, IsProper name) : tree.Regular where
  toClosed := hclosed
  linkless place target hnode := by
    have hmem : (place, Node.link target) ∈ tree.nodes.toList :=
      Std.TreeMap.mem_toList_iff_getElem?_eq_some.mpr hnode
    exact nomatch hlinks _ hmem
  isProper {place node} hnode name hname := by
    have hmem : (place, node) ∈ tree.nodes.toList :=
      Std.TreeMap.mem_toList_iff_getElem?_eq_some.mpr hnode
    exact hnames _ hmem name hname

def Place.location : Place → Location
  | .found place _ => place
  | .vacant place => place

theorem stepTo_plain (h : IsPlain last) : stepTo here last = here ++ [last] := by
  rw [stepTo, if_neg (by simp [h.not_isIdle]), if_neg h.ne_dotDot]

theorem Reaches.location_eq (hlinkless : tree.Linkless)
    (h : Reaches tree aim links here front end') : end'.location = front.foldl stepTo here := by
  induction h with
  | nil => rfl
  | idle hidle _ ih => rw [ih, List.foldl_cons, stepTo, if_pos hidle]
  | dotDot _ ih => rw [ih, List.foldl_cons, stepTo, if_neg (by decide), if_pos rfl]
  | directory hpart _ _ ih => rw [ih, List.foldl_cons, stepTo_plain hpart.plain]
  | link _ hnode _ _ _ _ => exact absurd hnode (hlinkless _ _)
  | itself _ hnode _ => exact absurd hnode (hlinkless _ _)
  | leaf hpart _ _ _ =>
    rw [List.foldl_cons, stepTo_plain hpart.plain, List.foldl_nil, Place.location]
  | vacant hpart _ => rw [List.foldl_cons, stepTo_plain hpart.plain, List.foldl_nil, Place.location]

theorem Leads.eq_foldl (h : Leads tree start front here) (hlinkless : tree.Linkless) :
    here = front.foldl stepTo start := by
  have hslash := (follow_eq_ok.mp h).location_eq hlinkless
  rwa [List.foldl_append] at hslash

theorem placeOf_congr (h : tree'.working = tree.working) (path : Path) :
    tree'.placeOf path = tree.placeOf path := by
  rw [placeOf, placeOf, h]

theorem placeOf_of_leads (hlinkless : tree.Linkless)
    (hsplit : Path.split path.bytes = front ++ [last]) (hplain : IsPlain last)
    (hleads : Leads tree (startOf path tree.working) front here) :
    tree.placeOf path = here ++ [last] := by
  rw [placeOf, hsplit, List.foldl_concat, ← hleads.eq_foldl hlinkless, stepTo_plain hplain]

/-- Without links a file is opened where its path says. -/
theorem placeOf_of_create (hlinkless : tree.Linkless) (h : tree.create path = .ok (here, opened)) :
    tree.placeOf path = here := by
  rw [create] at h
  rcases hresolve : tree.resolve .file path with fault | end' <;> rw [hresolve] at h
  · cases h
  have hend : tree.placeOf path = end'.location :=
    ((resolve_eq_ok.mp hresolve).2.location_eq hlinkless).symm
  rw [hend]
  rcases end' with ⟨place, _ | bytes | target | device⟩ | place <;> cases h <;> rfl

theorem Linkless.object?_ne (h : tree.Linkless) (path target : Path) :
    tree.object? path ≠ some (.link target) := by
  intro hobject
  rw [object?] at hobject
  rcases hresolve : tree.resolve .itself path with fault | ⟨place, node⟩ | place <;>
    rw [hresolve] at hobject
  · cases hobject
  · cases hobject
    exact h place target ((resolve_eq_ok.mp hresolve).2.stands.resolve_left (by rintro ⟨⟩))
  · cases hobject

/-! ## What is made -/

variable {paths : List Path}

theorem Made.linkless (h : Made paths tree tree') (hlinkless : tree.Linkless) : tree'.Linkless := by
  induction h with
  | refl => exact hlinkless
  | tail _ hstep ih =>
    obtain ⟨made, -, hmade⟩ := hstep
    obtain ⟨-, directory, last, hmakes⟩ := exists_makes hmade
    intro place target
    rw [hmakes.get?]
    split
    · exact nofun
    · exact ih place target

/-- While a file is written, everything stays but this file. -/
structure StaysBut (path : Path) (tree after : FileTree) : Prop where
  ways : Ways tree after
  working : after.working = tree.working
  elsewhere {place : Location} : place ≠ tree.placeOf path → tree.get? place ≠ none →
    after.get? place = tree.get? place

theorem staysBut_of_create (hlinkless : tree.Linkless) (hmade : Made paths tree parents)
    (hcreate : parents.create path = .ok (here, opened)) (hheld : Appended here held opened after) :
    StaysBut path tree after := by
  have hsame : SameBut here parents after := (opened_of_create hcreate).appended hheld
  obtain ⟨hways, hworking⟩ := hmade.ways
  refine ⟨hways.trans hsame.ways, hsame.working.trans hworking, fun {place} hplace hne => ?_⟩
  rw [hsame.elsewhere, hmade.get?_eq hne]
  rintro rfl
  apply hplace
  rw [← placeOf_of_create (hmade.linkless hlinkless) hcreate, placeOf_congr hworking]

/-! ## Reading again -/

/-- Names are followed alike where the same stands at their end. -/
theorem follow_names (hclosed : tree.Closed) (hways : Ways tree tree')
    (hnames : ∀ name ∈ names, IsPlain name) (hnode : tree.get? (here ++ names) = some node)
    (hlink : ∀ target, node ≠ .link target) (hsame : tree'.get? (here ++ names) = some node) :
    follow tree' .target links here names = follow tree .target links here names := by
  induction names generalizing here with
  | nil => rw [follow_eq, follow_eq, followParts, followParts]
  | cons name names ih =>
    obtain ⟨hname, hnames⟩ := List.forall_mem_cons.mp hnames
    rw [List.append_cons] at hnode hsame
    have hnext := ih hnames hnode hsame
    rw [follow_eq, follow_eq] at hnext ⊢
    have hrest : names = [] ∨ Rests .target names :=
      (eq_or_ne names []).imp_right rests_target
    by_cases hlong : longestName < name.length
    · rw [followParts_long hname hrest hlong, followParts_long hname hrest hlong]
    have hlength := Nat.le_of_not_lt hlong
    rcases hrest with rfl | hrest
    · rw [List.append_nil] at hnode hsame
      rw [followParts_last hname hlength, followParts_last hname hlength, hnode, hsame]
      cases node with
      | link target => exact absurd rfl (hlink target)
      | directory | file | device => rfl
    · have hdirectory := hclosed.above_append hrest.1 hnode
      rw [followParts_on hname hrest hlength, followParts_on hname hrest hlength, hdirectory,
        hways.directory hdirectory]
      exact hnext

/-- However it comes out, reading a file below a directory comes out the same for as long as the
file and the ways stay. -/
theorem read_descend (hclosed : tree.Closed) (hways : Ways tree tree')
    (hworking : tree'.working = tree.working) (hroot : tree.node root = .ok (here, .directory))
    (hne : names ≠ []) (hnames : ∀ name ∈ names, IsProper name)
    (hnode : tree.get? (here ++ names) = some node) (hlink : ∀ target, node ≠ .link target)
    (hsame : tree'.get? (here ++ names) = some node) :
    tree'.read (root.descend names) = tree.read (root.descend names) := by
  have hpath := ne_nil_of_node hroot
  obtain ⟨front, hfront, hsplit⟩ := Path.exists_split_descend hpath hne hnames
  have habsolute : (root.descend names).isAbsolute = root.isAbsolute :=
    Path.isAbsolute_descend hpath hnames
  have hleads : Leads tree (startOf (root.descend names) tree.working) front here := by
    rw [startOf_eq habsolute, ← Leads.namesOf_iff, ← hfront, Leads.namesOf_iff]
    exact leads_of_node hroot
  obtain ⟨left, -, hleft⟩ := hleads.exists_left
  have hrests : Rests .target names := rests_target hne
  have hplain : ∀ name ∈ names, IsPlain name := fun name hname =>
    ⟨(hnames name hname).not_isIdle, (hnames name hname).ne_dotDot⟩
  have hresolve : tree'.resolve .target (root.descend names) =
      tree.resolve .target (root.descend names) := by
    rw [resolve, resolve, hworking, hsplit, hleft tree' hways .target names hrests,
      hleft tree (.refl tree) .target names hrests,
      follow_names hclosed hways hplain hnode hlink hsame]
  rw [read, read, FileTree.node, FileTree.node, hresolve]

end JvmSymbols.FileTree

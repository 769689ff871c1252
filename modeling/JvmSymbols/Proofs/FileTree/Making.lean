import JvmSymbols.Proofs.FileTree.Standing
import Mathlib.Logic.Relation

/-!
# Making directories

Directories that are made on the way to a path leave what stands at it as it was
(`Made.object?_eq`), unless the path goes on with `..` behind a part that was missing.
-/

namespace JvmSymbols.FileTree

open JvmSymbols.Path (namesOf namesOf_append namesOf_namesOf)

variable {tree tree' : FileTree} {path made : Path}

/-- Behind the part of the path that is there, no `..` follows. -/
def Approachable (tree : FileTree) (path : Path) : Prop :=
  ∃ front back directory, Path.split path.bytes = front ++ back ∧ Path.dotDot ∉ back ∧
    Leads tree (startOf path tree.working) front directory

/-- If something stands at the path, no part of it is missing. -/
theorem approachable_of_object? {node : Node} (h : tree.object? path = some node) :
    tree.Approachable path := by
  obtain ⟨front, last, hsplit⟩ := Path.exists_split path.bytes
  rcases hcheck : checkPath path with fault | _
  · rw [object?_of_checkPath hcheck] at h
    cases h
  obtain ⟨directory, hleads⟩ :
      ∃ directory, Leads tree (startOf path tree.working) front directory := by
    by_contra hnone
    rw [object?_of_not_leads hcheck hsplit (not_exists.mp hnone)] at h
    cases h
  by_cases hdots : last = Path.dotDot
  · exact ⟨front ++ [last], [], directory.dropLast, by rw [hsplit, List.append_nil], by simp,
      hdots ▸ hleads.dotDot⟩
  · exact ⟨front, [last], directory, hsplit, by simpa using Ne.symm hdots, hleads⟩

theorem approachable_of_new (h : tree.object? path = none → tree.Approachable path) :
    tree.Approachable path := by
  rcases hnode : tree.object? path with _ | node
  · exact h hnode
  · exact approachable_of_object? hnode

/-- The way to the path begins with the names of the other one and goes on behind it. -/
def Under (made path : Path) : Prop :=
  made.isAbsolute = path.isAbsolute ∧
    ∃ name names, namesOf (Path.split path.bytes) = namesOf (Path.split made.bytes) ++ name :: names

theorem startOf_eq {p q : Path} (h : p.isAbsolute = q.isAbsolute) (here : Location) :
    startOf p here = startOf q here := by
  rw [startOf, startOf, h]

/-! ## One directory -/

/-- A directory that is made was missing in the directory that its path leads to. -/
structure Makes (tree tree' : FileTree) (made : Path) (directory : Location)
    (last : Name) : Prop where
  plain : IsPlain last
  leads : ∃ front, Leads tree (startOf made tree.working) front directory ∧
    namesOf (Path.split made.bytes) = namesOf (front ++ [last])
  length : last.length ≤ longestName
  missing : tree.get? (directory ++ [last]) = none
  eq : tree' = tree.set (directory ++ [last]) .directory

theorem exists_makes (h : tree.makeDirectory made = .ok tree') :
    made.bytes ≠ [] ∧ ∃ directory last, Makes tree tree' made directory last := by
  rcases hentry : tree.entry made with fault | _ | ⟨place, slash⟩
  · rw [makeDirectory, hentry] at h
    cases h
  · obtain ⟨front, last, count, directory, hcheck, hsplit, hplain, hlength, hleads, rfl, -⟩ :=
      entry_eq_named hentry
    have hmissing : tree.get? (directory ++ [last]) = none ∧
        tree' = tree.set (directory ++ [last]) .directory := by
      rw [makeDirectory, hentry] at h
      simp only [bind, Except.bind] at h
      split at h
      · cases h
      · rename_i hnone
        cases h
        exact ⟨hnone, rfl⟩
    refine ⟨fun hnil => ?_, directory, last, hplain, ⟨front, hleads, ?_⟩, hlength,
      hmissing.1, hmissing.2⟩
    · rw [checkPath, hnil] at hcheck
      cases hcheck
    · have hslashes : namesOf (List.replicate count []) = [] := by
        simp [namesOf, Path.isIdle]
      rw [hsplit, List.append_cons, namesOf_append, hslashes, List.append_nil]
  · rw [makeDirectory, hentry] at h
    cases h

/-- A directory that is there already is not made. -/
theorem makeDirectory_of_leads {place : Location} (hcheck : checkPath made = .ok ())
    (h : Leads tree (startOf made tree.working) (Path.split made.bytes) place) :
    tree.makeDirectory made = .error .entryExists := by
  rcases hreverse : (Path.split made.bytes).reverse.dropWhile List.isEmpty with _ | ⟨last, reversed⟩
  · rw [makeDirectory, entry, hcheck, hreverse]
    rfl
  obtain ⟨hlast, count, hsplit⟩ := exists_split_replicate hreverse
  rw [hsplit, List.append_cons] at h
  obtain ⟨_, hname⟩ := h.of_append
  obtain ⟨directory, hleads⟩ := hname.of_append
  by_cases hdots : last = Path.dot ∨ last = Path.dotDot
  · rw [makeDirectory, entry, hcheck, hreverse]
    rw [Leads] at hleads
    simp only [hleads, bind, Except.bind, if_pos hdots]
    rfl
  · have hplain : IsPlain last :=
      ⟨by simp [Path.isIdle, hlast, (not_or.mp hdots).1], (not_or.mp hdots).2⟩
    have hentry := entry_of_leads hcheck hsplit hplain (hname.length_le hplain) hleads
    obtain ⟨node, hnode⟩ := Option.ne_none_iff_exists'.mp (hleads.get?_ne_none hplain hname)
    rw [makeDirectory, hentry]
    simp only [bind, Except.bind, hnode]
    rfl

namespace Makes

variable {directory : Location} {last : Name} (h : Makes tree tree' made directory last)
include h

theorem get? (here : Location) :
    tree'.get? here = if directory ++ [last] = here then some .directory else tree.get? here := by
  rw [h.eq, get?_set]

theorem working : tree'.working = tree.working := by
  rw [h.eq]
  rfl

theorem ways : Ways tree tree' := by
  intro here hhere
  rw [h.get?, if_neg]
  rintro rfl
  rw [h.missing] at hhere
  rcases hhere with hhere | ⟨target, hhere⟩ <;> cases hhere

theorem closed (hclosed : tree.Closed) : tree'.Closed where
  root := h.ways.directory hclosed.root
  working := by
    rw [h.working]
    exact h.ways.directory hclosed.working
  above {here name node} hnode := by
    rw [h.get?] at hnode
    split at hnode
    · rename_i hplace
      cases (List.append_inj' hplace rfl).1
      obtain ⟨front, hleads, -⟩ := h.leads
      obtain ⟨-, hdirectory, -⟩ := hleads.exists_left
      exact h.ways.directory (hdirectory hclosed (hclosed.startOf hclosed.working made))
    · exact h.ways.directory (hclosed.above hnode)

/-- The new directory is reached by its path. -/
theorem leads_made :
    Leads tree' (startOf made tree.working) (namesOf (Path.split made.bytes))
      (directory ++ [last]) := by
  obtain ⟨front, hleads, hnames⟩ := h.leads
  rw [hnames, Leads.namesOf_iff]
  refine (hleads.ways h.ways).concat h.plain h.length ?_
  rw [h.get?, if_pos rfl]

/-- Before it was made, its path led nowhere. -/
theorem not_leads (place : Location) :
    ¬Leads tree (startOf made tree.working) (namesOf (Path.split made.bytes)) place := by
  obtain ⟨front, hleads, hnames⟩ := h.leads
  rw [hnames, Leads.namesOf_iff]
  exact fun hplace => hleads.get?_ne_none h.plain hplace h.missing

/-- There is nothing in it. -/
theorem get?_child (hclosed : tree.Closed) (name : Name) :
    tree'.get? (directory ++ [last] ++ [name]) = none := by
  rw [h.get?, if_neg (by simp)]
  by_contra hne
  obtain ⟨node, hnode⟩ := Option.ne_none_iff_exists'.mp hne
  exact nomatch h.missing.symm.trans (hclosed.above hnode)

/-- The part of the path that was there ends above the new directory. -/
theorem ne_dotDot (habsolute : made.isAbsolute = path.isAbsolute) {name : Name} {names : List Name}
    (hnames : namesOf (Path.split path.bytes) = namesOf (Path.split made.bytes) ++ name :: names)
    (happroach : tree.Approachable path) : name ≠ Path.dotDot := by
  obtain ⟨front, back, place, hsplit, hback, hleads⟩ := happroach
  rw [hsplit, namesOf_append] at hnames
  rcases List.append_eq_append_iff.mp hnames with ⟨middle, -, hmiddle⟩ | ⟨middle, hmiddle, -⟩
  · rintro rfl
    have hmem : Path.dotDot ∈ namesOf back :=
      hmiddle ▸ List.mem_append_right middle List.mem_cons_self
    exact hback (List.mem_filter.mp hmem).1
  · rw [← Leads.namesOf_iff, hmiddle] at hleads
    obtain ⟨place', hplace⟩ := hleads.of_append
    rw [← startOf_eq habsolute] at hplace
    exact absurd hplace (h.not_leads place')

/-- Nothing stands at a path through a missing directory, nor does it once the directory is there. -/
theorem object?_eq_none (hclosed : tree.Closed) (happroach : tree.Approachable path)
    (hunder : Under made path) : tree.object? path = none ∧ tree'.object? path = none := by
  obtain ⟨habsolute, name, names, hnames⟩ := hunder
  have hdots := h.ne_dotDot habsolute hnames happroach
  obtain ⟨front, back, hsplit, hfront, hidle⟩ := Path.exists_of_namesOf_eq_append hnames
  have hstart := startOf_eq habsolute tree.working
  have hrests : Rests .itself (name :: back) := ⟨by simp, nofun⟩
  rcases hcheck : checkPath path with fault | _
  · exact ⟨object?_of_checkPath hcheck, object?_of_checkPath hcheck⟩
  have hresolve (tree : FileTree) : tree.resolve .itself path =
      follow tree .itself linkLimit (startOf path tree.working) (front ++ name :: back) := by
    rw [resolve, hcheck, hsplit]
    rfl
  constructor
  · rcases leads_or_fails tree (startOf path tree.working) front
      with ⟨place, -, hplace, -⟩ | ⟨-, fault, hfault⟩
    · rw [← Leads.namesOf_iff, hfront, ← hstart] at hplace
      exact absurd hplace (h.not_leads place)
    · rw [object?, hresolve, hfault .itself _ hrests]
  · have hleads : Leads tree' (startOf path tree'.working) front (directory ++ [last]) := by
      rw [← Leads.namesOf_iff, hfront, ← startOf_eq habsolute, h.working]
      exact h.leads_made
    obtain ⟨left, -, hleft⟩ := hleads.exists_left
    have hplain : IsPlain name := ⟨hidle, hdots⟩
    rw [object?, hresolve, hleft tree' (.refl tree') .itself _ hrests, follow_eq]
    have hchild := h.get?_child hclosed name
    have hback : back = [] ∨ Rests .itself back := by
      by_cases hnil : back = []
      · exact .inl hnil
      · exact .inr ⟨hnil, nofun⟩
    by_cases hlong : longestName < name.length
    · rw [followParts_long hplain hback hlong]
    have hlength := Nat.le_of_not_lt hlong
    rcases hback with rfl | hback
    · rw [followParts_last hplain hlength, hchild]
    · rw [followParts_on hplain hback hlength, hchild]

theorem approachable (happroach : tree.Approachable path) : tree'.Approachable path := by
  obtain ⟨front, back, place, hsplit, hback, hleads⟩ := happroach
  exact ⟨front, back, place, hsplit, hback, h.working.symm ▸ hleads.ways h.ways⟩

end Makes

/-! ## Several directories -/

/-- Some of the directories are made, one after another. -/
def Made (paths : List Path) : FileTree → FileTree → Prop :=
  Relation.ReflTransGen fun tree tree' => ∃ made ∈ paths, tree.makeDirectory made = .ok tree'

namespace Made

variable {paths : List Path} (h : Made paths tree tree')
include h

theorem ways : Ways tree tree' ∧ tree'.working = tree.working := by
  induction h with
  | refl => exact ⟨.refl tree, rfl⟩
  | tail _ hstep ih =>
    obtain ⟨made, -, hmade⟩ := hstep
    obtain ⟨-, directory, last, hmakes⟩ := exists_makes hmade
    exact ⟨ih.1.trans hmakes.ways, hmakes.working.trans ih.2⟩

theorem closed (hclosed : tree.Closed) : tree'.Closed := by
  induction h with
  | refl => exact hclosed
  | tail _ hstep ih =>
    obtain ⟨made, -, hmade⟩ := hstep
    obtain ⟨-, directory, last, hmakes⟩ := exists_makes hmade
    exact hmakes.closed ih

theorem approachable (happroach : tree.Approachable path) : tree'.Approachable path := by
  induction h with
  | refl => exact happroach
  | tail _ hstep ih =>
    obtain ⟨made, -, hmade⟩ := hstep
    obtain ⟨-, directory, last, hmakes⟩ := exists_makes hmade
    exact hmakes.approachable ih

/-- Making the directories above a path changes nothing at the path. -/
theorem object?_eq (hclosed : tree.Closed) (happroach : tree.Approachable path)
    (hunder : ∀ made ∈ paths, made.bytes ≠ [] → Under made path) :
    tree'.object? path = tree.object? path := by
  induction h with
  | refl => rfl
  | tail hfront hstep ih =>
    obtain ⟨made, hmem, hmade⟩ := hstep
    obtain ⟨hne, directory, last, hmakes⟩ := exists_makes hmade
    obtain ⟨hbefore, hafter⟩ := hmakes.object?_eq_none (closed hfront hclosed)
      (approachable hfront happroach) (hunder made hmem hne)
    rw [hafter, ← ih, hbefore]

end Made

end JvmSymbols.FileTree

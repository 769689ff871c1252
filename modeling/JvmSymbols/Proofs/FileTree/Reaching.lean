import JvmSymbols.Proofs.FileTree.Standing

/-!
# How a path is followed

`Reaches` has one case for each part of a path that can be followed, and a path can be followed just
as it says (`follow_eq_ok`). What stands at the end is then found by induction (`Reaches.stands`),
and so is what another tree has there (`Reaches.kept`).
-/

namespace JvmSymbols.FileTree

open FileSystem (Fault)

variable {tree tree' : FileTree} {aim : Aim} {links : Nat} {here place : Location} {path : Path}
  {part : Name} {parts : List Name} {end' : Place} {bytes : Bytes}

/-! ## The parts of a path -/

/-- The part is looked up as the name of an entry; `parts` are those behind it. -/
structure IsLookedUp (aim : Aim) (part : Name) (parts : List Name) : Prop where
  plain : IsPlain part
  length : part.length ≤ longestName
  rests : parts = [] ∨ Rests aim parts

/-- Following at most `links` links, the parts lead from `here` to `end'`. -/
inductive Reaches (tree : FileTree) (aim : Aim) : Nat → Location → List Name → Place → Prop
  | nil {links : Nat} {here : Location} : Reaches tree aim links here [] (.found here .directory)
  | idle {links : Nat} {here : Location} {part : Name} {parts : List Name} {end' : Place} :
    Path.isIdle part = true → Reaches tree aim links here parts end' →
      Reaches tree aim links here (part :: parts) end'
  | dotDot {links : Nat} {here : Location} {parts : List Name} {end' : Place} :
    Reaches tree aim links here.dropLast parts end' →
      Reaches tree aim links here (Path.dotDot :: parts) end'
  | directory {links : Nat} {here : Location} {part : Name} {parts : List Name} {end' : Place} :
    IsLookedUp aim part parts → tree.get? (here ++ [part]) = some .directory →
      Reaches tree aim links (here ++ [part]) parts end' →
      Reaches tree aim links here (part :: parts) end'
  | link {links : Nat} {here : Location} {part : Name} {parts : List Name} {end' : Place}
    {target : Path} :
    IsLookedUp aim part parts → tree.get? (here ++ [part]) = some (.link target) →
      ¬(parts = [] ∧ aim = .itself) → target.bytes ≠ [] →
      Reaches tree aim links (startOf target here) (Path.split target.bytes ++ parts) end' →
      Reaches tree aim (links + 1) here (part :: parts) end'
  | itself {links : Nat} {here : Location} {part : Name} {target : Path} :
    IsLookedUp aim part [] → tree.get? (here ++ [part]) = some (.link target) → aim = .itself →
      Reaches tree aim links here [part] (.found (here ++ [part]) (.link target))
  | leaf {links : Nat} {here : Location} {part : Name} {node : Node} :
    IsLookedUp aim part [] → tree.get? (here ++ [part]) = some node → node ≠ .directory →
      (∀ target, node ≠ .link target) →
      Reaches tree aim links here [part] (.found (here ++ [part]) node)
  | vacant {links : Nat} {here : Location} {part : Name} :
    IsLookedUp aim part [] → tree.get? (here ++ [part]) = none →
      Reaches tree aim links here [part] (.vacant (here ++ [part]))

theorem isLookedUp_target (hplain : IsPlain part) (hlength : part.length ≤ longestName) :
    IsLookedUp .target part parts where
  plain := hplain
  length := hlength
  rests := (eq_or_ne parts []).imp_right rests_target

theorem rests_of_asksNoDirectory
    (h : ¬(aim = .file && !parts.isEmpty && parts.all List.isEmpty) = true) :
    parts = [] ∨ Rests aim parts := by
  refine (eq_or_ne parts []).imp_right fun hne => ⟨hne, fun hfile => ?_⟩
  by_contra hnone
  refine h ?_
  simp only [Bool.and_eq_true, decide_eq_true_eq, List.all_eq_true, List.isEmpty_iff]
  refine ⟨⟨hfile, by simpa using hne⟩, fun part hpart => ?_⟩
  by_contra hpartNe
  exact hnone ⟨part, hpart, hpartNe⟩

theorem reaches_followParts
    (hexpand : ∀ here parts, expandWithin tree aim links here parts = .ok end' →
      ∃ fewer, links = fewer + 1 ∧ Reaches tree aim fewer here parts end')
    (h : follow tree aim links here parts = .ok end') : Reaches tree aim links here parts end' := by
  rw [follow_eq] at h
  induction parts generalizing here with
  | nil =>
    cases h
    exact .nil
  | cons part parts ih =>
    unfold followParts at h
    split at h
    · exact .idle ‹_› (ih h)
    rename_i hidle
    split at h
    · rename_i hdots
      exact hdots ▸ .dotDot (ih h)
    rename_i hdots
    split at h
    · cases h
    rename_i hslash
    split at h
    · cases h
    rename_i hlong
    have hpart : IsLookedUp aim part parts :=
      ⟨⟨by simpa using hidle, hdots⟩, Nat.le_of_not_lt hlong, rests_of_asksNoDirectory hslash⟩
    rcases hnode : tree.get? (here ++ [part]) with _ | _ | old | target | device <;>
      rw [hnode] at h <;> dsimp only at h
    · split at h <;> cases h
      rename_i hlast
      obtain rfl := List.isEmpty_iff.mp hlast
      exact .vacant hpart hnode
    · exact .directory hpart hnode (ih h)
    · split at h <;> cases h
      rename_i hlast
      obtain rfl := List.isEmpty_iff.mp hlast
      exact .leaf hpart hnode (by rintro ⟨⟩) (by rintro _ ⟨⟩)
    · split at h
      · rename_i hitself
        cases h
        simp only [Bool.and_eq_true, List.isEmpty_iff, decide_eq_true_eq] at hitself
        obtain ⟨rfl, haim⟩ := hitself
        exact .itself hpart hnode haim
      rename_i hitself
      split at h
      · cases h
      rename_i htarget
      obtain ⟨fewer, rfl, hreaches⟩ := hexpand _ _ h
      refine .link hpart hnode ?_ (by simpa using htarget) hreaches
      simpa using hitself
    · split at h <;> cases h
      rename_i hlast
      obtain rfl := List.isEmpty_iff.mp hlast
      exact .leaf hpart hnode (by rintro ⟨⟩) (by rintro _ ⟨⟩)

/-- What is followed is what the cases say. -/
theorem follow_eq_ok :
    follow tree aim links here parts = .ok end' ↔ Reaches tree aim links here parts end' := by
  constructor
  · intro h
    induction links generalizing here parts with
    | zero => exact reaches_followParts (fun _ _ => nofun) h
    | succ links ih => exact reaches_followParts (fun _ _ h => ⟨links, rfl, ih h⟩) h
  · intro h
    induction h with
    | nil => rw [follow_eq, followParts]
    | idle hidle _ ih => rw [follow_eq, followParts_idle hidle, ← follow_eq, ih]
    | dotDot _ ih => rw [follow_eq, followParts_dotDot, ← follow_eq, ih]
    | @directory links here part parts end' hpart hnode _ ih =>
      rw [follow_eq] at ih ⊢
      by_cases hlast : parts = []
      · subst hlast
        rw [followParts_last hpart.plain hpart.length, hnode]
        exact ih
      · rw [followParts_on hpart.plain (hpart.rests.resolve_left hlast) hpart.length, hnode]
        exact ih
    | @link links here part parts end' target hpart hnode hitself htarget _ ih =>
      have hempty : target.bytes.isEmpty = false := List.isEmpty_eq_false_iff.mpr htarget
      rw [follow]
      by_cases hlast : parts = []
      · subst hlast
        rw [followParts_last hpart.plain hpart.length, hnode]
        simp only [hempty, if_neg (not_and.mp hitself rfl)]
        exact ih
      · rw [followParts_on hpart.plain (hpart.rests.resolve_left hlast) hpart.length, hnode]
        simp only [hempty]
        exact ih
    | itself hpart hnode haim =>
      rw [follow_eq, followParts_last hpart.plain hpart.length, hnode]
      exact if_pos haim
    | @leaf links here part node hpart hnode hdirectory hlink =>
      rw [follow_eq, followParts_last hpart.plain hpart.length, hnode]
      cases node with
      | directory => exact absurd rfl hdirectory
      | link target => exact absurd rfl (hlink target)
      | file | device => rfl
    | vacant hpart hnode => rw [follow_eq, followParts_last hpart.plain hpart.length, hnode]

/-! ## What is reached -/

/-- What is said of the end of a path is so. The way back from a directory is not looked at. -/
def Stands (tree : FileTree) : Place → Prop
  | .found place node => node = .directory ∨ tree.get? place = some node
  | .vacant place => tree.get? place = none

theorem Reaches.stands (h : Reaches tree aim links here parts end') : Stands tree end' := by
  induction h with
  | nil => exact .inl rfl
  | idle _ _ ih | dotDot _ ih | directory _ _ _ ih | link _ _ _ _ _ ih => exact ih
  | itself _ hnode _ => exact .inr hnode
  | leaf _ hnode _ _ => exact .inr hnode
  | vacant _ hnode => exact hnode

/-- A file is reached in every tree that has it and the directories and links. -/
theorem Reaches.kept (h : Reaches tree aim links here parts (.found place (.file bytes)))
    (hways : Ways tree tree') (hplace : tree'.get? place = some (.file bytes)) :
    Reaches tree' aim links here parts (.found place (.file bytes)) := by
  generalize hend : Place.found place (.file bytes) = end' at h
  induction h with
  | nil => cases hend
  | idle hidle _ ih => exact .idle hidle (ih hend)
  | dotDot _ ih => exact .dotDot (ih hend)
  | directory hpart hnode _ ih => exact .directory hpart (hways.directory hnode) (ih hend)
  | link hpart hnode hitself htarget _ ih =>
    exact .link hpart (hways.link hnode) hitself htarget (ih hend)
  | itself => cases hend
  | leaf hpart _ hdirectory hlink =>
    cases hend
    exact .leaf hpart hplace hdirectory hlink
  | vacant => cases hend

/-- A directory is also reached with a slash behind the path. -/
theorem Reaches.slash (h : Reaches tree .target links here parts (.found place .directory)) :
    Reaches tree .target links here (parts ++ [[]]) (.found place .directory) := by
  generalize hend : Place.found place .directory = end' at h
  induction h with
  | nil =>
    cases hend
    exact .idle rfl .nil
  | idle hidle _ ih => exact .idle hidle (ih hend)
  | dotDot _ ih => exact .dotDot (ih hend)
  | directory hpart hnode _ ih =>
    exact .directory (isLookedUp_target hpart.plain hpart.length) hnode (ih hend)
  | link hpart hnode _ htarget _ ih =>
    refine .link (isLookedUp_target hpart.plain hpart.length) hnode (by simp) htarget ?_
    have hreaches := ih hend
    rwa [List.append_assoc] at hreaches
  | itself => cases hend
  | leaf _ _ hdirectory _ =>
    cases hend
    exact absurd rfl hdirectory
  | vacant => cases hend

/-- A path with a slash behind it leads to no directory to which it does not lead without one. -/
theorem Reaches.of_slash (h : Reaches tree .target links here (parts ++ [[]]) (.found place .directory)) :
    Reaches tree .target links here parts (.found place .directory) := by
  generalize hparts : parts ++ [[]] = slashed at h
  generalize hend : Place.found place .directory = end' at h
  -- the empty part is never looked up
  have hlast {aim : Aim} {part : Name} {rest : List Name} (hpart : IsLookedUp aim part rest)
      {front : List Name} (hfront : front ++ [[]] = part :: rest) :
      ∃ back, front = part :: back ∧ back ++ [[]] = rest := by
    cases front with
    | nil =>
      cases hfront
      exact absurd rfl hpart.plain.ne_nil
    | cons first back =>
      cases hfront
      exact ⟨back, rfl, rfl⟩
  induction h generalizing parts with
  | nil => exact absurd hparts (by simp)
  | idle hidle hrest ih =>
    cases parts with
    | nil =>
      cases hparts
      cases hrest
      cases hend
      exact .nil
    | cons first parts =>
      cases hparts
      exact .idle hidle (ih rfl hend)
  | dotDot _ ih =>
    cases parts with
    | nil => exact absurd (List.cons.inj hparts).1 (by decide)
    | cons first parts =>
      cases hparts
      exact .dotDot (ih rfl hend)
  | directory hpart hnode _ ih =>
    obtain ⟨back, rfl, hback⟩ := hlast hpart hparts
    exact .directory (isLookedUp_target hpart.plain hpart.length) hnode (ih hback hend)
  | link hpart hnode _ htarget _ ih =>
    obtain ⟨back, rfl, hback⟩ := hlast hpart hparts
    refine .link (isLookedUp_target hpart.plain hpart.length) hnode (by simp) htarget (ih ?_ hend)
    rw [← hback, List.append_assoc]
  | itself =>
    cases hend
  | leaf _ _ hdirectory _ =>
    cases hend
    exact absurd rfl hdirectory
  | vacant => cases hend

theorem reaches_slashes (count : Nat) :
    Reaches tree aim links here (List.replicate count []) (.found here .directory) := by
  induction count with
  | zero => exact .nil
  | succ count ih => exact .idle rfl ih

/-! ## What a path leads to -/

theorem resolve_eq_ok :
    tree.resolve aim path = .ok end' ↔ checkPath path = .ok () ∧
      Reaches tree aim linkLimit (startOf path tree.working) (Path.split path.bytes) end' := by
  rw [← follow_eq_ok, resolve]
  rcases checkPath path with fault | _
  · constructor
    · rintro ⟨⟩
    · rintro ⟨⟨⟩, -⟩
  · exact ⟨fun h => ⟨rfl, h⟩, And.right⟩

theorem node_eq_ok {node : Node} :
    tree.node path = .ok (place, node) ↔ checkPath path = .ok () ∧
      Reaches tree .target linkLimit (startOf path tree.working) (Path.split path.bytes)
        (.found place node) := by
  rw [← resolve_eq_ok, FileTree.node]
  rcases tree.resolve .target path with fault | ⟨place', node⟩ | place'
  · exact ⟨nofun, nofun⟩
  · constructor <;> intro h <;> cases h <;> rfl
  · exact ⟨nofun, nofun⟩

theorem kind_of_node {node : Node} (h : tree.node path = .ok (place, node)) :
    tree.kind path = .ok (kindOf node) := by
  rw [kind, h]
  rfl

theorem kind_eq_ok {found : FileSystem.Kind} :
    tree.kind path = .ok found ↔
      ∃ place node, tree.node path = .ok (place, node) ∧ kindOf node = found := by
  constructor
  · intro h
    rcases hnode : tree.node path with fault | ⟨place, node⟩ <;> rw [kind, hnode] at h <;> cases h
    exact ⟨place, node, rfl, rfl⟩
  · rintro ⟨place, node, hnode, rfl⟩
    exact kind_of_node hnode

theorem map_of_node (h : tree.node path = .ok (place, .file bytes)) :
    tree.map path = .ok bytes := by
  rw [map, h]
  rfl

theorem read_of_node (h : tree.node path = .ok (place, .file bytes)) :
    tree.read path = .ok bytes := by
  rw [read, h]
  rfl

theorem get?_of_node (h : tree.node path = .ok (place, .file bytes)) :
    tree.get? place = some (.file bytes) :=
  (node_eq_ok.mp h).2.stands.resolve_left nofun

/-- A path that leads to a directory leads on from it. -/
theorem leads_of_node (h : tree.node path = .ok (place, .directory)) :
    Leads tree (startOf path tree.working) (Path.split path.bytes) place :=
  follow_eq_ok.mpr (node_eq_ok.mp h).2.slash

theorem Leads.node_directory (h : Leads tree (startOf path tree.working) (Path.split path.bytes) place)
    (hcheck : checkPath path = .ok ()) : tree.node path = .ok (place, .directory) :=
  node_eq_ok.mpr ⟨hcheck, (follow_eq_ok.mp h).of_slash⟩

/-- What is no link is what the path to it leads to. -/
theorem Leads.node {front : List Name} {node : Node}
    (h : Leads tree (startOf path tree.working) front here) (hcheck : checkPath path = .ok ())
    (hsplit : Path.split path.bytes = front ++ [part]) (hplain : IsPlain part)
    (hlength : part.length ≤ longestName) (hnode : tree.get? (here ++ [part]) = some node)
    (hlink : ∀ target, node ≠ .link target) : tree.node path = .ok (here ++ [part], node) := by
  obtain ⟨left, -, hleft⟩ := h.exists_left
  rw [node_eq_ok, ← follow_eq_ok, hsplit,
    hleft tree (.refl tree) .target [part] (rests_target (List.cons_ne_nil _ _)), follow_eq_ok]
  refine ⟨hcheck, ?_⟩
  have hpart : IsLookedUp .target part [] := isLookedUp_target hplain hlength
  by_cases hdirectory : node = .directory
  · subst hdirectory
    exact .directory hpart hnode .nil
  · exact .leaf hpart hnode hdirectory hlink

end JvmSymbols.FileTree

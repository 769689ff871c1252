import JvmSymbols.FileTree.Operations
import JvmSymbols.Proofs.FileSystem.PathNames

/-!
# Following paths

A path can be followed in two steps (`parts_follow`): its front leads to a directory, and the rest
is followed from there. The way there is the same in every tree that has the directories and links
of the first one (`Ways`).
-/

namespace JvmSymbols.FileTree

open FileSystem (Fault)
open JvmSymbols.Path (namesOf namesOf_append namesOf_cons namesOf_cons_idle namesOf_namesOf)

variable {tree tree' : FileTree} {aim : Aim} {links : Nat} {here : Location}

/-- What following goes on with once `links` more links may be followed. -/
def expandWithin (tree : FileTree) (aim : Aim) :
    (links : Nat) → Location → List Name → Except Fault Place
  | 0 => fun _ _ => .error .tooManyLinks
  | links + 1 => follow tree aim links

theorem follow_eq (tree : FileTree) (aim : Aim) (links : Nat) :
    follow tree aim links = followParts tree aim (expandWithin tree aim links) := by
  cases links <;> rfl

/-! ## One part -/

/-- A part that a directory is searched for. -/
structure IsPlain (part : Name) : Prop where
  not_isIdle : Path.isIdle part = false
  ne_dotDot : part ≠ Path.dotDot

theorem IsPlain.ne_nil {part : Name} (h : IsPlain part) : part ≠ [] := by
  rintro rfl
  exact absurd h.not_isIdle (by decide)

theorem IsPlain.ne_dot {part : Name} (h : IsPlain part) : part ≠ Path.dot := by
  rintro rfl
  exact absurd h.not_isIdle (by decide)

/-- Parts that can end a path which is followed for `aim`: a file's name has to be among them. -/
def Rests (aim : Aim) (rest : List Name) : Prop :=
  rest ≠ [] ∧ (aim = .file → ∃ part ∈ rest, part ≠ [])

theorem Rests.append {rest : List Name} (h : Rests aim rest) (front : List Name) :
    Rests aim (front ++ rest) := by
  refine ⟨fun hnil => h.1 (List.append_eq_nil_iff.mp hnil).2, fun hfile => ?_⟩
  obtain ⟨part, hpart, hne⟩ := h.2 hfile
  exact ⟨part, List.mem_append_right front hpart, hne⟩

section
variable {expand : Location → List Name → Except Fault Place} {part : Name} {parts : List Name}

theorem followParts_idle (h : Path.isIdle part = true) :
    followParts tree aim expand here (part :: parts) = followParts tree aim expand here parts := by
  rw [followParts, if_pos h]

theorem followParts_dotDot :
    followParts tree aim expand here (Path.dotDot :: parts) =
      followParts tree aim expand here.dropLast parts := by
  rw [followParts, if_neg (by decide), if_pos rfl]

theorem asksNoDirectory (h : parts = [] ∨ Rests aim parts) :
    ¬(aim = .file && !parts.isEmpty && parts.all List.isEmpty) = true := by
  rcases h with rfl | ⟨-, hfile⟩
  · simp
  · intro hcheck
    simp only [Bool.and_eq_true, decide_eq_true_eq, List.all_eq_true, List.isEmpty_iff] at hcheck
    obtain ⟨part', hpart', hne⟩ := hfile hcheck.1.1
    exact hne (hcheck.2 part' hpart')

theorem followParts_long (h : IsPlain part) (hparts : parts = [] ∨ Rests aim parts)
    (hlength : longestName < part.length) :
    followParts tree aim expand here (part :: parts) = .error .nameTooLong := by
  rw [followParts, if_neg (by simp [h.not_isIdle]), if_neg h.ne_dotDot,
    if_neg (asksNoDirectory hparts),
    if_pos hlength]

/-- A part that is not the last one has to be a directory or to lead on to one. -/
theorem followParts_on (h : IsPlain part) (hparts : Rests aim parts)
    (hlength : part.length ≤ longestName) :
    followParts tree aim expand here (part :: parts) =
      match tree.get? (here ++ [part]) with
      | none => .error .noEntry
      | some .directory => followParts tree aim expand (here ++ [part]) parts
      | some (.link target) =>
        if target.bytes.isEmpty then .error .noEntry
        else expand (startOf target here) (Path.split target.bytes ++ parts)
      | some _ => .error .notDirectory := by
  have hempty : parts.isEmpty = false := by
    simpa using hparts.1
  rw [followParts, if_neg (by simp [h.not_isIdle]), if_neg h.ne_dotDot,
    if_neg (asksNoDirectory (.inr hparts)), if_neg (Nat.not_lt.mpr hlength), hempty]
  rcases tree.get? (here ++ [part]) with _ | _ | bytes | target | device <;> rfl

theorem followParts_last (h : IsPlain part) (hlength : part.length ≤ longestName) :
    followParts tree aim expand here [part] =
      match tree.get? (here ++ [part]) with
      | none => .ok (.vacant (here ++ [part]))
      | some (.link target) =>
        if aim = .itself then .ok (.found (here ++ [part]) (.link target))
        else if target.bytes.isEmpty then .error .noEntry
        else expand (startOf target here) (Path.split target.bytes ++ [])
      | some node => .ok (.found (here ++ [part]) node) := by
  rw [followParts, if_neg (by simp [h.not_isIdle]), if_neg h.ne_dotDot,
    if_neg (asksNoDirectory (.inl rfl)), if_neg (Nat.not_lt.mpr hlength)]
  rcases tree.get? (here ++ [part]) with _ | _ | bytes | target | device <;>
    simp [followParts]

end

/-! ## Two steps -/

/-- What has a name stands in a directory. -/
structure Closed (tree : FileTree) : Prop where
  root : tree.get? [] = some .directory
  working : tree.get? tree.working = some .directory
  above {here : Location} {name : Name} {node : Node} :
    tree.get? (here ++ [name]) = some node → tree.get? here = some .directory

theorem closed_of_forall (hroot : tree.get? [] = some .directory)
    (hworking : tree.get? tree.working = some .directory)
    (h : ∀ p ∈ tree.nodes.toList, p.1 = [] ∨ tree.get? p.1.dropLast = some .directory) :
    tree.Closed where
  root := hroot
  working := hworking
  above {here name node} hnode := by
    have hmem : (here ++ [name], node) ∈ tree.nodes.toList :=
      Std.TreeMap.mem_toList_iff_getElem?_eq_some.mpr hnode
    rcases h _ hmem with hnil | habove
    · exact absurd hnil (by simp)
    · rwa [List.dropLast_concat] at habove

theorem closed_initial : initial.Closed := closed_of_forall rfl rfl (by decide)

theorem Closed.dropLast (h : tree.Closed) (hhere : tree.get? here = some .directory) :
    tree.get? here.dropLast = some .directory := by
  rcases List.eq_nil_or_concat here with rfl | ⟨front, name, rfl⟩
  · exact hhere
  · rw [List.concat_eq_append] at hhere ⊢
    rw [List.dropLast_concat]
    exact h.above hhere

theorem Closed.startOf (h : tree.Closed) (hhere : tree.get? here = some .directory) (path : Path) :
    tree.get? (startOf path here) = some .directory := by
  unfold FileTree.startOf
  split
  · exact h.root
  · exact hhere

/-- The directories and links of `tree` are in `tree'` as well. -/
def Ways (tree tree' : FileTree) : Prop :=
  ∀ here, tree.get? here = some .directory ∨ (∃ target, tree.get? here = some (.link target)) →
    tree'.get? here = tree.get? here

theorem Ways.refl (tree : FileTree) : Ways tree tree := fun _ _ => rfl

theorem Ways.trans {tree'' : FileTree} (h : Ways tree tree') (h' : Ways tree' tree'') :
    Ways tree tree'' := by
  intro here hhere
  rw [h' here (h here hhere ▸ hhere), h here hhere]

theorem Ways.directory (h : Ways tree tree') (hhere : tree.get? here = some .directory) :
    tree'.get? here = some .directory := hhere ▸ h here (.inl hhere)

theorem Ways.link (h : Ways tree tree') {target : Path}
    (hhere : tree.get? here = some (.link target)) :
    tree'.get? here = some (.link target) := hhere ▸ h here (.inr ⟨target, hhere⟩)

/-- What comes of `front` for whatever may follow it: it leads to a directory, or it fails. -/
def Parts (tree : FileTree) (walk : FileTree → Aim → Location → List Name → Except Fault Place)
    (here : Location) (front : List Name) : Prop :=
  (∃ directory left, (tree.Closed → tree.get? here = some .directory →
      tree.get? directory = some .directory) ∧
    ∀ tree', Ways tree tree' → ∀ aim rest, Rests aim rest →
      walk tree' aim here (front ++ rest) = follow tree' aim left directory rest) ∨
  ∃ fault, ∀ aim rest, Rests aim rest → walk tree aim here (front ++ rest) = .error fault

theorem Parts.of_eq {walk walk' : FileTree → Aim → Location → List Name → Except Fault Place}
    {here' : Location} {front front' : List Name} (h : Parts tree walk' here' front')
    (hhere : tree.Closed → tree.get? here = some .directory → tree.get? here' = some .directory)
    (heq : ∀ tree', Ways tree tree' → ∀ aim rest, Rests aim rest →
      walk tree' aim here (front ++ rest) = walk' tree' aim here' (front' ++ rest)) :
    Parts tree walk here front := by
  rcases h with ⟨directory, left, hdirectory, h⟩ | ⟨fault, h⟩
  · exact .inl ⟨directory, left, fun hclosed h => hdirectory hclosed (hhere hclosed h),
      fun tree' hways aim rest hrest =>
      (heq tree' hways aim rest hrest).trans (h tree' hways aim rest hrest)⟩
  · exact .inr ⟨fault, fun aim rest hrest =>
      (heq tree (.refl tree) aim rest hrest).trans (h aim rest hrest)⟩

theorem parts_followParts {links : Nat}
    (hexpand : ∀ here front, Parts tree (expandWithin · · links) here front) (here : Location)
    (front : List Name) : Parts tree (follow · · links) here front := by
  simp only [follow_eq]
  induction front generalizing here with
  | nil => exact .inl ⟨here, links, fun _ => id,
      fun tree' _ aim rest _ => by rw [follow_eq, List.nil_append]⟩
  | cons part front ih =>
    by_cases hidle : Path.isIdle part = true
    · exact (ih here).of_eq (fun _ => id) fun _ _ _ _ _ => followParts_idle hidle
    by_cases hdots : part = Path.dotDot
    · subst hdots
      exact (ih here.dropLast).of_eq (fun hclosed => hclosed.dropLast)
        fun _ _ _ _ _ => followParts_dotDot
    have hplain : IsPlain part := ⟨by simpa using hidle, hdots⟩
    by_cases hlong : longestName < part.length
    · exact .inr ⟨.nameTooLong, fun aim rest hrest =>
        followParts_long hplain (.inr (hrest.append front)) hlong⟩
    have hlength := Nat.le_of_not_lt hlong
    have hon {aim : Aim} {rest : List Name} (hrest : Rests aim rest) (tree' : FileTree) :=
      @followParts_on tree' aim here (expandWithin tree' aim links) part _ hplain (hrest.append front)
        hlength
    rcases hnode : tree.get? (here ++ [part]) with _ | _ | bytes | target | device
    · exact .inr ⟨.noEntry, fun aim rest hrest => (hon hrest tree).trans (by rw [hnode])⟩
    · refine (ih (here ++ [part])).of_eq (fun _ _ => hnode) fun tree' hways aim rest hrest => ?_
      exact (hon hrest tree').trans (by rw [hways.directory hnode])
    · exact .inr ⟨.notDirectory, fun aim rest hrest => (hon hrest tree).trans (by rw [hnode])⟩
    · by_cases htarget : target.bytes.isEmpty = true
      · exact .inr ⟨.noEntry, fun aim rest hrest => (hon hrest tree).trans (by simp [hnode, htarget])⟩
      · refine (hexpand (startOf target here) (Path.split target.bytes ++ front)).of_eq
          (fun hclosed hhere => hclosed.startOf hhere target) fun tree' hways aim rest hrest => ?_
        rw [List.append_assoc]
        exact (hon hrest tree').trans
          (by simp [hways.link hnode, htarget])
    · exact .inr ⟨.notDirectory, fun aim rest hrest => (hon hrest tree).trans (by rw [hnode])⟩

theorem parts_follow (tree : FileTree) (links : Nat) (here : Location) (front : List Name) :
    Parts tree (follow · · links) here front := by
  induction links generalizing here front with
  | zero => exact parts_followParts (fun _ _ => .inr ⟨.tooManyLinks, fun _ _ _ => rfl⟩) here front
  | succ links ih => exact parts_followParts ih here front

/-! ## Parts that do not count -/

theorem rests_target {rest : List Name} (h : rest ≠ []) : Rests .target rest :=
  ⟨h, by rintro ⟨⟩⟩

theorem rests_slash (front : List Name) : Rests .target (front ++ [[]]) :=
  rests_target (by simp)

theorem followParts_namesOf
    (hexpand : ∀ here front, expandWithin tree .target links here (front ++ [[]]) =
      expandWithin tree .target links here (namesOf front ++ [[]]))
    (here : Location) (front : List Name) :
    follow tree .target links here (front ++ [[]]) =
      follow tree .target links here (namesOf front ++ [[]]) := by
  simp only [follow_eq]
  induction front generalizing here with
  | nil => rfl
  | cons part front ih =>
    by_cases hidle : Path.isIdle part = true
    · rw [List.cons_append, followParts_idle hidle, namesOf_cons_idle hidle, ih]
    rw [namesOf_cons (by simpa using hidle), List.cons_append, List.cons_append]
    by_cases hdots : part = Path.dotDot
    · rw [hdots, followParts_dotDot, followParts_dotDot, ih]
    have hplain : IsPlain part := ⟨by simpa using hidle, hdots⟩
    by_cases hlong : longestName < part.length
    · rw [followParts_long hplain (.inr (rests_slash _)) hlong,
        followParts_long hplain (.inr (rests_slash _)) hlong]
    have hlength := Nat.le_of_not_lt hlong
    have hlink (target : Path) : expandWithin tree .target links (startOf target here)
          (Path.split target.bytes ++ (front ++ [[]])) =
        expandWithin tree .target links (startOf target here)
          (Path.split target.bytes ++ (namesOf front ++ [[]])) := by
      rw [← List.append_assoc, ← List.append_assoc, hexpand, hexpand _ (_ ++ namesOf front),
        namesOf_append, namesOf_append, namesOf_namesOf]
    rw [followParts_on hplain (rests_slash _) hlength, followParts_on hplain (rests_slash _) hlength]
    rcases tree.get? (here ++ [part]) with _ | _ | bytes | target | device
    · rfl
    · exact ih _
    · rfl
    · exact congrArg (if target.bytes.isEmpty then .error .noEntry else ·) (hlink target)
    · rfl

/-- A directory is reached by the same names however they are written. -/
theorem follow_namesOf (tree : FileTree) (links : Nat) (here : Location) (front : List Name) :
    follow tree .target links here (front ++ [[]]) =
      follow tree .target links here (namesOf front ++ [[]]) := by
  induction links generalizing here front with
  | zero => exact followParts_namesOf (fun _ _ => rfl) here front
  | succ links ih =>
    have hexpand (here : Location) (front : List Name) :
        expandWithin tree .target (links + 1) here (front ++ [[]]) =
          expandWithin tree .target (links + 1) here (namesOf front ++ [[]]) := ih here front
    exact followParts_namesOf hexpand here front

end JvmSymbols.FileTree

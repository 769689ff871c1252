import JvmSymbols.FileSystem.Basic
import Mathlib.Data.List.Basic

/-!
# The names in a path

The paths above a path name fewer directories: the names in them are the first ones of the path's
own (`exists_namesOf_of_mem_above`).
-/

namespace JvmSymbols.Path

/-! ## Parts -/

theorem exists_split (bytes : Bytes) : ∃ front last, split bytes = front ++ [last] := by
  rcases List.eq_nil_or_concat (split bytes) with h | ⟨front, last, h⟩
  · exact absurd h (List.splitOn_ne_nil slash bytes)
  · exact ⟨front, last, h.trans List.concat_eq_append⟩

theorem split_slash_cons (bytes : Bytes) : split (slash :: bytes) = [] :: split bytes := by
  rw [split, List.splitOn_cons_eq_if_modifyHead, if_pos (BEq.refl slash)]
  rfl

theorem slash_notMem_of_mem_split {bytes : Bytes} {part : Name} (h : part ∈ split bytes) :
    slash ∉ part := by
  induction bytes generalizing part with
  | nil =>
    cases List.mem_singleton.mp h
    exact List.not_mem_nil
  | cons b bytes ih =>
    rw [split, List.splitOn_cons_eq_if_modifyHead] at h
    obtain ⟨first, parts, hparts⟩ := List.exists_cons_of_ne_nil (List.splitOn_ne_nil slash bytes)
    rw [split, hparts] at ih
    rw [hparts] at h
    split at h
    · rcases List.mem_cons.mp h with rfl | h
      · exact List.not_mem_nil
      · exact ih h
    · rename_i hb
      rcases List.mem_cons.mp h with rfl | h
      · intro hmem
        rcases List.mem_cons.mp hmem with hslash | hmem
        · exact hb (beq_iff_eq.mpr hslash.symm)
        · exact ih List.mem_cons_self hmem
      · exact ih (List.mem_cons_of_mem first h)

theorem unsplit_split (bytes : Bytes) : unsplit (split bytes) = bytes :=
  List.intercalate_splitOn slash

theorem split_unsplit {parts : List Name} (h : ∀ part ∈ parts, slash ∉ part) (hne : parts ≠ []) :
    split (unsplit parts) = parts := List.splitOn_intercalate slash h hne

theorem unsplit_cons (part : Name) {parts : List Name} (h : parts ≠ []) :
    unsplit (part :: parts) = part ++ slash :: unsplit parts := by
  rw [unsplit, List.intercalate_cons_of_ne_nil h, List.append_assoc]
  rfl

theorem unsplit_append {xs ys : List Name} (hxs : xs ≠ []) (hys : ys ≠ []) :
    unsplit (xs ++ ys) = unsplit xs ++ slash :: unsplit ys := by
  induction xs with
  | nil => exact absurd rfl hxs
  | cons x xs ih =>
    by_cases hnil : xs = []
    · subst hnil
      rw [List.singleton_append, unsplit_cons x hys]
      simp [unsplit]
    · rw [List.cons_append, unsplit_cons x (by simp [hnil]), unsplit_cons x hnil, ih hnil,
        List.append_assoc, List.cons_append]

theorem unsplit_isPrefix {xs ys : List Name} (h : xs <+: ys) : unsplit xs <+: unsplit ys := by
  obtain ⟨zs, rfl⟩ := h
  by_cases hxs : xs = []
  · rw [hxs]
    exact List.nil_prefix
  by_cases hzs : zs = []
  · simp [hzs]
  · rw [unsplit_append hxs hzs]
    exact List.prefix_append _ _

theorem unsplit_concat_append (front : List Name) (last suffix : Name) :
    unsplit (front ++ [last ++ suffix]) = unsplit (front ++ [last]) ++ suffix := by
  induction front with
  | nil => simp [unsplit]
  | cons part front ih =>
    rw [List.cons_append, List.cons_append, unsplit_cons part (by simp), unsplit_cons part (by simp),
      ih]
    simp

/-- What is written behind a path without a slash belongs to its last part. -/
theorem split_append {bytes suffix : Bytes} {front : List Name} {last : Name}
    (hsplit : split bytes = front ++ [last]) (hsuffix : slash ∉ suffix) :
    split (bytes ++ suffix) = front ++ [last ++ suffix] := by
  have hparts : ∀ part ∈ front ++ [last ++ suffix], slash ∉ part := by
    intro part hpart
    rcases List.mem_append.mp hpart with hpart | hpart
    · exact slash_notMem_of_mem_split (hsplit ▸ List.mem_append_left [last] hpart)
    · have hlast : slash ∉ last :=
        slash_notMem_of_mem_split (hsplit ▸ List.mem_append_right front List.mem_cons_self)
      rw [List.mem_singleton.mp hpart, List.mem_append, not_or]
      exact ⟨hlast, hsuffix⟩
  rw [← unsplit_split bytes, hsplit, ← unsplit_concat_append, split_unsplit hparts (by simp)]

/-- An empty part at the end stands behind a slash. -/
theorem unsplit_slash {front : List Name} (hne : front ≠ []) :
    unsplit (front ++ [[]]) = unsplit front ++ [slash] :=
  unsplit_append hne (List.cons_ne_nil _ _)

theorem split_append_slash (a b : Bytes) : split (a ++ slash :: b) = split a ++ split b := by
  have hne (bytes : Bytes) : split bytes ≠ [] := List.splitOn_ne_nil slash bytes
  have hparts : ∀ part ∈ split a ++ split b, slash ∉ part := fun part hpart =>
    (List.mem_append.mp hpart).elim slash_notMem_of_mem_split slash_notMem_of_mem_split
  rw [← split_unsplit hparts (List.append_ne_nil_of_left_ne_nil (hne a) _),
    unsplit_append (hne a) (hne b), unsplit_split, unsplit_split]

/-- A path that ends in a name does not end in a slash. -/
theorem getLast?_of_split {p : Path} {front : List Name} {name : Name}
    (hsplit : split p.bytes = front ++ [name]) (hname : name ≠ []) :
    p.bytes.getLast? ≠ some slash := by
  intro hlast
  obtain ⟨bytes, hbytes⟩ := List.getLast?_eq_some_iff.mp hlast
  have hslash : split p.bytes = split bytes ++ [[]] := by
    rw [hbytes, split_append_slash]
    rfl
  rw [hsplit] at hslash
  exact hname (List.append_inj' hslash rfl |>.2 |> List.cons.inj).1

/-! ## Names -/

/-- The parts that count. -/
def namesOf (parts : List Name) : List Name := parts.filter (!isIdle ·)

theorem namesOf_append (xs ys : List Name) : namesOf (xs ++ ys) = namesOf xs ++ namesOf ys :=
  List.filter_append xs ys

theorem namesOf_cons_idle {part : Name} (h : isIdle part = true) (parts : List Name) :
    namesOf (part :: parts) = namesOf parts := by
  simp [namesOf, h]

theorem namesOf_cons {part : Name} (h : isIdle part = false) (parts : List Name) :
    namesOf (part :: parts) = part :: namesOf parts := by
  simp [namesOf, h]

theorem namesOf_namesOf (parts : List Name) : namesOf (namesOf parts) = namesOf parts := by
  simp [namesOf]

/-- Parts are cut in two where their names are. -/
theorem exists_of_namesOf_eq_append {parts front' : List Name} {name : Name} {names : List Name}
    (h : namesOf parts = front' ++ name :: names) :
    ∃ front back, parts = front ++ name :: back ∧ namesOf front = front' ∧ isIdle name = false := by
  obtain ⟨front, rest, hparts, hfront, hrest⟩ := List.filter_eq_append_iff.mp h
  obtain ⟨idle, back, rfl, hidle, hname, -⟩ := List.filter_eq_cons_iff.mp hrest
  refine ⟨front ++ idle, back, by rw [hparts, List.append_assoc], ?_, by simpa using hname⟩
  have hnone : namesOf idle = [] := List.filter_eq_nil_iff.mpr hidle
  rw [namesOf_append, hnone, List.append_nil]
  exact hfront

theorem trimEnd_isPrefix (parts : List Name) : trimEnd parts <+: parts := by
  rw [trimEnd, ← List.reverse_suffix, List.reverse_reverse]
  exact List.dropWhile_suffix isIdle

theorem isIdle_of_getLast?_trimEnd {parts : List Name} {part : Name}
    (h : (trimEnd parts).getLast? = some part) : isIdle part = false := by
  rw [trimEnd, List.getLast?_reverse] at h
  have hhead := List.head?_dropWhile_not isIdle parts.reverse
  rwa [h] at hhead

theorem namesOf_trimEnd (parts : List Name) : namesOf (trimEnd parts) = namesOf parts := by
  have hreverse (reversed : List Name) :
      (reversed.dropWhile isIdle).filter (!isIdle ·) = reversed.filter (!isIdle ·) := by
    induction reversed with
    | nil => rfl
    | cons part reversed ih =>
      by_cases h : isIdle part = true
      · simp [h, ih]
      · simp [h]
  rw [namesOf, trimEnd, List.filter_reverse, hreverse, List.filter_reverse, List.reverse_reverse]
  rfl

/-! ## The paths above a path -/

/-- A path that is put together from `parts` behind a lead has their names and starts there. -/
def Renders (p : Path) (parts : List Name) : Prop :=
  namesOf (split (p.lead ++ unsplit parts)) = namesOf parts ∧
    (⟨p.lead ++ unsplit parts⟩ : Path).isAbsolute = p.isAbsolute

theorem slash_notMem_bodyParts {p : Path} {parts : List Name} (h : parts <+: p.bodyParts) :
    ∀ part ∈ parts, slash ∉ part :=
  fun _ hpart => slash_notMem_of_mem_split (h.subset hpart)

section
variable {p : Path} {parts : List Name}

theorem names_of_isAbsolute (hp : p.isAbsolute = true) :
    namesOf (split p.bytes) = namesOf p.bodyParts ∧
      ∀ parts, parts <+: p.bodyParts → p.Renders parts := by
  have hlead : p.lead = [slash] := if_pos hp
  obtain ⟨rest, hrest⟩ : ∃ rest, p.bytes = slash :: rest :=
    List.head?_eq_some_iff.mp (beq_iff_eq.mp hp)
  refine ⟨?_, fun parts hparts => ⟨?_, ?_⟩⟩
  · rw [bodyParts, hlead, hrest, split_slash_cons]
    exact namesOf_cons_idle rfl _
  · rw [hlead, List.singleton_append, split_slash_cons, namesOf_cons_idle rfl]
    by_cases hne : parts = []
    · subst hne
      rfl
    · rw [split_unsplit (slash_notMem_bodyParts hparts) hne]
  · rw [hlead, hp]
    exact beq_self_eq_true _

theorem names_of_lead_dot (hp : p.isAbsolute = false) (hdot : (split p.bytes).head? = some dot) :
    namesOf (split p.bytes) = namesOf p.bodyParts ∧
      ∀ parts, parts <+: p.bodyParts → parts.getLast? ≠ some [] → p.Renders parts := by
  have hlead : p.lead = dot := by
    rw [lead, if_neg (by simp [hp]), if_pos (beq_iff_eq.mpr hdot)]
  obtain ⟨tail, htail⟩ := List.head?_eq_some_iff.mp hdot
  have hdotless : slash ∉ dot := by decide
  have htailless : ∀ part ∈ tail, slash ∉ part := fun part hpart =>
    slash_notMem_of_mem_split (htail ▸ List.mem_cons_of_mem dot hpart)
  have hbytes : p.bytes = unsplit (dot :: tail) := by
    rw [← htail, unsplit_split]
  have hbody : p.bodyParts = [] :: tail := by
    rw [bodyParts, hlead, hbytes]
    by_cases hne : tail = []
    · subst hne
      rfl
    · rw [unsplit_cons dot hne]
      exact (split_slash_cons (unsplit tail)).trans (by rw [split_unsplit htailless hne])
  have hrelative (bytes : Bytes) : (⟨dot ++ bytes⟩ : Path).isAbsolute = p.isAbsolute := by
    rw [hp]
    rfl
  refine ⟨?_, fun parts hparts hlast => ⟨?_, ?_⟩⟩
  · rw [htail, hbody, namesOf_cons_idle (by decide), namesOf_cons_idle rfl]
  · rw [hbody] at hparts
    rw [hlead]
    rcases List.prefix_cons_iff.mp hparts with rfl | ⟨rest, rfl, hrest⟩
    · decide
    · have hne : rest ≠ [] := fun h => hlast (by rw [h]; rfl)
      have hrestless : ∀ part ∈ rest, slash ∉ part := fun part hpart =>
        htailless part (hrest.subset hpart)
      have hsplit : split (dot ++ slash :: unsplit rest) = dot :: split (unsplit rest) :=
        List.splitOn_append_cons_self_of_not_mem hdotless (unsplit rest)
      rw [unsplit_cons [] hne, List.nil_append, hsplit, split_unsplit hrestless hne,
        namesOf_cons_idle (by decide), namesOf_cons_idle rfl]
  · rw [hlead, hrelative]

theorem names_of_lead_nil (hp : p.isAbsolute = false) (hdot : (split p.bytes).head? ≠ some dot) :
    namesOf (split p.bytes) = namesOf p.bodyParts ∧
      ∀ parts, parts <+: p.bodyParts → parts ≠ [] → parts.getLast? ≠ some [] → p.Renders parts := by
  have hlead : p.lead = [] := by
    rw [lead, if_neg (by simp [hp]), if_neg (by simpa using hdot)]
  have hbody : p.bodyParts = split p.bytes := by
    rw [bodyParts, hlead]
    rfl
  refine ⟨by rw [hbody], fun parts hparts hne hlast => ⟨?_, ?_⟩⟩
  · rw [hlead, List.nil_append, split_unsplit (slash_notMem_bodyParts hparts) hne]
  · rw [hlead, List.nil_append, hp]
    obtain ⟨first, rest, rfl⟩ := List.exists_cons_of_ne_nil hne
    obtain ⟨back, hback⟩ := hparts
    have hbytes : p.bytes = unsplit (first :: (rest ++ back)) := by
      rw [← List.cons_append, hback, hbody, unsplit_split]
    have hfirst : first ≠ [] := by
      rintro rfl
      by_cases hmore : rest ++ back = []
      · cases (List.append_eq_nil_iff.mp hmore).1
        exact hlast rfl
      · rw [unsplit_cons [] hmore] at hbytes
        rw [isAbsolute, hbytes] at hp
        exact absurd hp (by simp)
    obtain ⟨b, bs, rfl⟩ := List.exists_cons_of_ne_nil hfirst
    have hb : b ≠ slash := fun h =>
      slash_notMem_bodyParts ⟨back, hback⟩ (b :: bs) List.mem_cons_self (h ▸ List.mem_cons_self)
    have hhead : (unsplit ((b :: bs) :: rest)).head? = some b := by
      by_cases hrest : rest = []
      · rw [hrest]
        rfl
      · rw [unsplit_cons _ hrest]
        rfl
    rw [isAbsolute, hhead]
    simpa using hb

theorem names_of_lead (p : Path) :
    namesOf (split p.bytes) = namesOf p.bodyParts ∧
      ∀ parts, parts <+: p.bodyParts → parts.getLast? ≠ some [] → p.lead ++ unsplit parts ≠ [] →
        p.Renders parts := by
  by_cases hp : p.isAbsolute = true
  · obtain ⟨hall, hrenders⟩ := names_of_isAbsolute hp
    exact ⟨hall, fun parts hparts _ _ => hrenders parts hparts⟩
  have hp : p.isAbsolute = false := by simpa using hp
  by_cases hdot : (split p.bytes).head? = some dot
  · obtain ⟨hall, hrenders⟩ := names_of_lead_dot hp hdot
    exact ⟨hall, fun parts hparts hlast _ => hrenders parts hparts hlast⟩
  · obtain ⟨hall, hrenders⟩ := names_of_lead_nil hp hdot
    refine ⟨hall, fun parts hparts hlast hne => hrenders parts hparts ?_ hlast⟩
    rintro rfl
    rw [lead, if_neg (by simp [hp]), if_neg (by simpa using hdot)] at hne
    exact hne rfl

/-- The parent is the lead with the parts before the last one that counts. -/
theorem exists_parts_of_parent? {q : Path} (h : p.parent? = some q) (hq : q.bytes ≠ []) :
    ∃ parts last, q = ⟨p.lead ++ unsplit parts⟩ ∧ parts <+: p.bodyParts ∧
      parts.getLast? ≠ some [] ∧ namesOf p.bodyParts = namesOf parts ++ [last] := by
  rw [parent?] at h
  split at h
  · rename_i last front hfront
    cases h
    have hbody : trimEnd p.bodyParts = front.reverse ++ [last] := by
      rw [← List.reverse_reverse (trimEnd p.bodyParts), hfront, List.reverse_cons]
    have hidle : isIdle last = false :=
      isIdle_of_getLast?_trimEnd (hbody ▸ List.getLast?_concat)
    refine ⟨trimEnd front.reverse, last, rfl, ?_, fun h => ?_, ?_⟩
    · exact (trimEnd_isPrefix _).trans
        ((List.prefix_append _ [last]).trans (hbody ▸ trimEnd_isPrefix p.bodyParts))
    · exact absurd (isIdle_of_getLast?_trimEnd h) (by decide)
    · rw [← namesOf_trimEnd, hbody, namesOf_append, namesOf_trimEnd, namesOf_cons hidle]
      rfl
  · split at h
    · cases h
      exact absurd rfl hq
    · cases h

/-- The parent has all names but the last one. -/
theorem namesOf_of_parent? {q : Path} (h : p.parent? = some q) (hq : q.bytes ≠ []) :
    q.isAbsolute = p.isAbsolute ∧
      ∃ last, namesOf (split p.bytes) = namesOf (split q.bytes) ++ [last] := by
  obtain ⟨parts, last, rfl, hparts, hlast, hnames⟩ := exists_parts_of_parent? h hq
  obtain ⟨hall, hrenders⟩ := names_of_lead p
  obtain ⟨hfront, habsolute⟩ := hrenders _ hparts hlast hq
  exact ⟨habsolute, last, by rw [hall, hnames, hfront]⟩

theorem lead_append (p : Path) : p.lead ++ unsplit p.bodyParts = p.bytes := by
  have hlead : p.lead <+: p.bytes := by
    rw [lead]
    split_ifs with habsolute hdot
    · obtain ⟨rest, hrest⟩ := List.head?_eq_some_iff.mp (beq_iff_eq.mp habsolute)
      exact hrest ▸ List.prefix_append [slash] rest
    · obtain ⟨tail, htail⟩ := List.head?_eq_some_iff.mp (beq_iff_eq.mp hdot)
      have hparts : unsplit [dot] <+: unsplit (split p.bytes) :=
        unsplit_isPrefix (htail ▸ List.prefix_append [dot] tail)
      rwa [unsplit_split] at hparts
    · exact List.nil_prefix
  rw [bodyParts, unsplit_split]
  exact (List.prefix_iff_eq_append.mp hlead)

/-- The parent is written as the path begins. -/
theorem bytes_of_parent? {q : Path} (h : p.parent? = some q) : q.bytes <+: p.bytes := by
  by_cases hq : q.bytes = []
  · exact hq ▸ List.nil_prefix
  · obtain ⟨parts, -, rfl, hparts, -⟩ := exists_parts_of_parent? h hq
    have hunsplit := (List.prefix_append_right_inj p.lead).mpr (unsplit_isPrefix hparts)
    rwa [lead_append] at hunsplit

theorem bytes_eq_nil_of_mem_ancestorsWithin {p q : Path} (hp : p.bytes = []) {steps : Nat}
    (h : q ∈ FileSystem.ancestorsWithin steps p) : q.bytes = [] := by
  cases steps with
  | zero => cases h
  | succ steps =>
    have hparent : p.parent? = none := by
      obtain ⟨_⟩ := p
      cases hp
      rfl
    rcases List.mem_cons.mp h with rfl | h
    · exact hp
    · rw [hparent] at h
      cases h

/-- The names of a path above `p` are the first ones of `p`. -/
theorem exists_namesOf_of_mem_ancestorsWithin {steps : Nat} {q : Path}
    (h : q ∈ FileSystem.ancestorsWithin steps p) (hq : q.bytes ≠ []) :
    q.isAbsolute = p.isAbsolute ∧
      ∃ names, namesOf (split p.bytes) = namesOf (split q.bytes) ++ names := by
  induction steps generalizing p with
  | zero => cases h
  | succ steps ih =>
    rcases List.mem_cons.mp h with rfl | h
    · exact ⟨rfl, [], (List.append_nil _).symm⟩
    · split at h
      · rename_i parent hparent
        obtain ⟨habsolute, names, hnames⟩ := ih h
        have hparent' : parent.bytes ≠ [] := fun hnil =>
          hq (bytes_eq_nil_of_mem_ancestorsWithin hnil h)
        obtain ⟨habsolute', last, hlast⟩ := namesOf_of_parent? hparent hparent'
        exact ⟨habsolute.trans habsolute', names ++ [last], by rw [hlast, hnames, List.append_assoc]⟩
      · cases h

end

/-- The paths at which directories are made for a file that is to be at `p`. -/
def above (p : Path) : List Path :=
  match p.parent? with
  | some parent => FileSystem.ancestors parent
  | none => []

/-- Each of them names a directory on the way to `p`. -/
theorem exists_namesOf_of_mem_above {p q : Path} (h : q ∈ p.above) (hq : q.bytes ≠ []) :
    q.isAbsolute = p.isAbsolute ∧
      ∃ name names, namesOf (split p.bytes) = namesOf (split q.bytes) ++ name :: names := by
  rw [above] at h
  split at h
  · rename_i parent hparent
    obtain ⟨habsolute, names, hnames⟩ := exists_namesOf_of_mem_ancestorsWithin h hq
    have hparent' : parent.bytes ≠ [] := fun hnil =>
      hq (bytes_eq_nil_of_mem_ancestorsWithin hnil h)
    obtain ⟨habsolute', last, hlast⟩ := namesOf_of_parent? hparent hparent'
    refine ⟨habsolute.trans habsolute', ?_⟩
    rw [hlast, hnames, List.append_assoc]
    cases names with
    | nil => exact ⟨last, [], rfl⟩
    | cons name names => exact ⟨name, names ++ [last], rfl⟩
  · cases h

end JvmSymbols.Path

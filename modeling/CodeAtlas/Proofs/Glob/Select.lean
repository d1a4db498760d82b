import CodeAtlas.Glob.Select
import CodeAtlas.Proofs.Disk.Below
import CodeAtlas.Proofs.Glob.Across

/-!
# What a search below a directory finds

A search for a name at any depth finds what has a name that matches, and a search for everything inside directories of a
name finds these directories and those below them.  A search fails only where a path is too long.

## Main definitions

* `Disk.Roomy` — the paths of the directories below a directory have room for a name

## Main results

* `Glob.mem_selectAnywhere`, `Glob.mem_selectInside` — how the paths end that are found
* `Glob.selectAnywhere_entry`, `Glob.selectInside_entry` — entries of the directory itself are found
* `Glob.failure?_selectAnywhere`, `Glob.failure?_selectInside` — nothing fails where there is room
* `Glob.nameTooLong_of_selectSteps`, `Glob.stepsOf_eq_error` — why a search fails, and why there is none
-/

namespace CodeAtlas

open CodeAtlas.Path (Pure IsName descend)

/-- The paths of the directories at and below a directory have room for a name behind them. -/
def Disk.Roomy (root : String) (t : Tree) : Prop :=
  ∀ names es, t.get? names = some (.directory es) → (descend root names).utf8ByteSize + 1 + Disk.maxName ≤ Disk.maxPath

theorem Disk.roomy_iff {root : String} {t : Tree} (h : t.WellNamed) :
    Disk.Roomy root t ↔ ∀ e ∈ t.walk (fun _ _ => true) root, e.1.utf8ByteSize + 1 + Disk.maxName ≤ Disk.maxPath := by
  constructor
  · rintro hroom ⟨path, u⟩ he
    obtain ⟨names, hget, hdirectory, rfl⟩ := (Tree.mem_walk_iff h root).1 he
    obtain ⟨es, rfl⟩ := Tree.isDirectory_iff.1 hdirectory
    exact hroom names es hget
  · intro hwalk names es hget
    exact hwalk (descend root names, .directory es) ((Tree.mem_walk_iff h root).2 ⟨names, hget, rfl, rfl⟩)

namespace Glob

namespace Search

variable {α : Type} {s t : Search} {path : Pure} {search : α → Search} {items : List α} {e : Error}

theorem mem_followedBy (h : path ∈ (s.followedBy t).found) : path ∈ s.found ∨ path ∈ t.found := by
  rw [followedBy] at h
  split at h
  · exact Or.inl h
  · exact List.mem_append.1 h

theorem mem_followedBy_of_left (h : path ∈ s.found) (t : Search) : path ∈ (s.followedBy t).found := by
  rw [followedBy]
  split
  · exact h
  · exact List.mem_append_left _ h

theorem mem_followedBy_of_right (hs : s.failure? = none) (h : path ∈ t.found) : path ∈ (s.followedBy t).found := by
  rw [followedBy, hs]
  exact List.mem_append_right _ h

theorem failure?_followedBy (hs : s.failure? = none) : (s.followedBy t).failure? = t.failure? := by
  rw [followedBy, hs]
  rfl

/-- What is found for some things is found for one of them. -/
theorem mem_each (h : path ∈ (each search items).found) : ∃ a ∈ items, path ∈ (search a).found := by
  induction items with
  | nil => cases h
  | cons a rest ih =>
    rcases mem_followedBy h with hfirst | hrest
    · exact ⟨a, List.mem_cons_self, hfirst⟩
    · obtain ⟨b, hb, hfound⟩ := ih hrest
      exact ⟨b, List.mem_cons_of_mem _ hb, hfound⟩

theorem failure?_each (h : ∀ a ∈ items, (search a).failure? = none) : (each search items).failure? = none := by
  induction items with
  | nil => rfl
  | cons a rest ih =>
    rw [each, failure?_followedBy (h a List.mem_cons_self)]
    exact ih fun b hb => h b (List.mem_cons_of_mem _ hb)

/-- Where nothing fails, everything is found that is found for one of the things. -/
theorem mem_each_of_mem (h : ∀ a ∈ items, (search a).failure? = none) {a : α} (ha : a ∈ items)
    (hfound : path ∈ (search a).found) : path ∈ (each search items).found := by
  induction items with
  | nil => cases ha
  | cons b rest ih =>
    rcases List.mem_cons.1 ha with rfl | hrest
    · exact mem_followedBy_of_left hfound _
    · exact mem_followedBy_of_right (h b List.mem_cons_self)
        (ih (fun c hc => h c (List.mem_cons_of_mem _ hc)) hrest)

theorem finds_of_mem (h : path ∈ s.found) : s.finds path = .ok true := by
  rw [finds, if_pos (List.contains_iff_mem.2 h)]

theorem mem_of_finds (h : s.finds path = .ok true) : path ∈ s.found := by
  rw [finds] at h
  split at h
  · next hmem => exact List.contains_iff_mem.1 hmem
  · split at h <;> cases h

theorem exists_finds (h : s.failure? = none) (path : Pure) : ∃ b, s.finds path = .ok b := by
  rw [finds, h]
  split
  · exact ⟨true, rfl⟩
  · exact ⟨false, rfl⟩

theorem failure?_followedBy_eq_some (h : (s.followedBy t).failure? = some e) :
    s.failure? = some e ∨ t.failure? = some e := by
  rw [followedBy] at h
  split at h
  · exact Or.inl h
  · exact Or.inr h

theorem failure?_each_eq_some (h : (each search items).failure? = some e) :
    ∃ a ∈ items, (search a).failure? = some e := by
  induction items with
  | nil => cases h
  | cons a rest ih =>
    rcases failure?_followedBy_eq_some h with hfirst | hrest
    · exact ⟨a, List.mem_cons_self, hfirst⟩
    · obtain ⟨b, hb, hfailure⟩ := ih hrest
      exact ⟨b, List.mem_cons_of_mem _ hb, hfailure⟩

theorem failure?_of_finds (h : s.finds path = .error e) : s.failure? = some e := by
  rw [finds] at h
  split at h
  · cases h
  · split at h
    · next hfailure =>
      cases h
      exact hfailure
    · cases h

end Search

/-! ### Looking at the disk -/

variable {d : Disk} {root : String} {q names : List String} {es : List (String × Tree)} {path : Pure} {t u : Tree}
  {e : Error}

theorem look_of_probe (h : probe d path = .ok (some u)) : ∃ q', d.look path.toString = .ok (q', u) := by
  rw [probe] at h
  split at h
  · next heq =>
    cases h
    exact ⟨_, heq⟩
  · cases h
  · cases h

theorem probe_of_locate {q' : List String} (h : d.locate path.toString = .ok (.found q' u)) :
    probe d path = .ok (some u) := by
  rw [probe, Disk.look_eq_ok.2 h]

theorem failure?_opening (h : path.toString.utf8ByteSize ≤ Disk.maxPath) : (opening path).failure? = none := by
  rw [opening, if_neg (Nat.not_lt.2 h)]

theorem not_mem_opening (path path' : Pure) : path' ∉ (opening path).found := by
  rw [opening]
  split <;> exact List.not_mem_nil

/-- The directories at and below a tree are those that names lead to. -/
theorem mem_directoriesFrom (h : t.WellNamed) {p : Pure} :
    (p, u) ∈ directoriesFrom path t ↔ ∃ names, t.get? names = some u ∧ u.isDirectory = true ∧ p = path.below names := by
  have hcomponents : ∀ {names : List String} {u : Tree}, t.get? names = some u →
      Path.components (descend "" names) = names := by
    intro names u hget
    rw [Path.components_descend "" (h.names_of_get? hget)]
    rfl
  rw [directoriesFrom, List.mem_map]
  constructor
  · rintro ⟨⟨text, v⟩, hwalk, heq⟩
    obtain ⟨names, hget, hdirectory, rfl⟩ := (Tree.mem_walk_iff h "").1 hwalk
    cases heq
    exact ⟨names, hget, hdirectory, by rw [hcomponents hget]; rfl⟩
  · rintro ⟨names, hget, hdirectory, rfl⟩
    refine ⟨(descend "" names, u), (Tree.mem_walk_iff h "").2 ⟨names, hget, hdirectory, rfl⟩, ?_⟩
    simp only [hcomponents hget]
    rfl

/-- The directory itself comes first. -/
theorem directoriesFrom_directory (path : Pure) (es : List (String × Tree)) :
    ∃ rest, directoriesFrom path (.directory es) = (path, .directory es) :: rest := by
  rw [directoriesFrom, Tree.walk, List.map_cons]
  refine ⟨_, congrArg (· :: _) ?_⟩
  have hnone : Path.components "" = [] := by decide
  simp only [hnone, List.append_nil]

/-! ### Steps -/

/-- A component of a pattern that can stand for names, with no two stars in it. -/
structure IsPart (part : String) : Prop where
  isName : IsName part
  no_slash : '/' ∉ part.toList
  no_null : '\x00' ∉ part.toList
  no_two_stars : Text.contains part "**" = false
  size_le : hasWildcard part = false → part.utf8ByteSize ≤ Disk.maxName

instance (part : String) : Decidable (IsPart part) :=
  decidable_of_iff ((part ≠ "" ∧ part ≠ "." ∧ part ≠ "..") ∧ '/' ∉ part.toList ∧ '\x00' ∉ part.toList ∧
      Text.contains part "**" = false ∧ (hasWildcard part = false → part.utf8ByteSize ≤ Disk.maxName))
    ⟨fun h => ⟨h.1, h.2.1, h.2.2.1, h.2.2.2.1, h.2.2.2.2⟩, fun h => ⟨h.1, h.2, h.3, h.4, h.5⟩⟩

/-- The step that a component of a pattern stands for. -/
def stepOf (part : String) : Step := if hasWildcard part then .wild part else .name part

theorem IsPart.ofText_eq {part : String} (h : IsPart part) : Step.ofText part = .ok (stepOf part) := by
  have hempty : ¬part.isEmpty = true := by simpa using h.isName.1
  have hstars : ¬(part == "**") = true := by
    intro heq
    have hcontains := h.no_two_stars
    rw [beq_iff_eq.1 heq] at hcontains
    exact absurd hcontains (by decide)
  rw [Step.ofText, if_neg hempty, if_neg hstars, h.no_two_stars, if_neg Bool.false_ne_true, stepOf]
  split <;> rfl

theorem selectSteps_wild (text : String) (path : Pure) (t : Tree) :
    selectSteps d [.wild text] path t = (opening path).followedBy
      (Search.each (fun e => if accepts text e.1 = true then .one (path.below [e.1]) else {}) t.entries) := by
  simp only [selectSteps, List.isEmpty_nil, Bool.true_or, Bool.and_true]
  rfl

theorem selectSteps_name (text : String) (rest : List Step) (path : Pure) (t : Tree) :
    selectSteps d (.name text :: rest) path t =
      match probe d (path.below [text]) with
      | .ok (some u) => if rest.isEmpty || u.isDirectory then selectSteps d rest (path.below [text]) u else {}
      | .ok none => {}
      | .error e => .fail e := by
  rw [selectSteps]
  rfl

theorem mem_selectSteps_name {text : String} {rest : List Step} {path p : Pure} {t : Tree}
    (h : p ∈ (selectSteps d (.name text :: rest) path t).found) :
    ∃ u, probe d (path.below [text]) = .ok (some u) ∧ (rest.isEmpty || u.isDirectory) = true ∧
      p ∈ (selectSteps d rest (path.below [text]) u).found := by
  rw [selectSteps_name] at h
  split at h
  · next u hprobe =>
    split at h
    · next hpass => exact ⟨u, hprobe, hpass, h⟩
    · cases h
  · cases h
  · cases h

/-- What any depth and other steps find is found by these from a directory below. -/
theorem mem_selectSteps_anyDepth {rest : List Step} {path p : Pure} {t : Tree} (ht : t.WellNamed)
    (h : p ∈ (selectSteps d (.anyDepth :: rest) path t).found) :
    ∃ names u, t.get? names = some u ∧ u.isDirectory = true ∧ p ∈ (selectSteps d rest (path.below names) u).found := by
  obtain ⟨⟨path', u⟩, hpath, hfound⟩ := Search.mem_each h
  obtain ⟨names, hget, hdirectory, rfl⟩ := (mem_directoriesFrom ht).1 hpath
  rcases Search.mem_followedBy hfound with hrest | hopening
  · exact ⟨names, u, hget, hdirectory, hrest⟩
  · exact absurd hopening (not_mem_opening _ _)

/-- What steps find from a directory is found first if they may begin at any depth. -/
theorem mem_selectSteps_anyDepth_of_mem {rest : List Step} {path p : Pure}
    (h : p ∈ (selectSteps d rest path (.directory es)).found) :
    p ∈ (selectSteps d (.anyDepth :: rest) path (.directory es)).found := by
  obtain ⟨later, hlater⟩ := directoriesFrom_directory path es
  rw [selectSteps, hlater]
  apply Search.mem_followedBy_of_left
  apply Search.mem_followedBy_of_left
  exact h

/-- What one component of a pattern finds has a name that matches. -/
theorem mem_selectSteps_stepOf {part : String} {path p : Pure} {t : Tree}
    (h : p ∈ (selectSteps d [stepOf part] path t).found) : ∃ n, accepts part n = true ∧ p = path.below [n] := by
  rw [stepOf] at h
  split at h
  · rw [selectSteps_wild] at h
    rcases Search.mem_followedBy h with hopening | heach
    · exact absurd hopening (not_mem_opening path p)
    · obtain ⟨e, -, he⟩ := Search.mem_each heach
      by_cases haccepts : accepts part e.1 = true
      · rw [if_pos haccepts] at he
        exact ⟨e.1, haccepts, List.mem_singleton.1 he⟩
      · rw [if_neg haccepts] at he
        cases he
  · next hplain =>
    obtain ⟨u, -, -, hone⟩ := mem_selectSteps_name h
    exact ⟨part, (accepts_literal (by simpa using hplain)).2 rfl, List.mem_singleton.1 hone⟩

/-- A component of a path that is not skipped when the path is read. -/
def IsPlain (c : String) : Prop := c ≠ "" ∧ c ≠ "." ∧ '/' ∉ c.toList

theorem IsPart.isPlain {part : String} (h : IsPart part) : IsPlain part := ⟨h.isName.1, h.isName.2.1, h.no_slash⟩

section Joined

variable {parts : List String} (hne : parts ≠ []) (hparts : ∀ c ∈ parts, IsPlain c)

include hparts in
theorem spelled_of_isPlain : Path.Pure.Spelled ⟨"", parts⟩ :=
  ⟨Or.inl rfl, fun c hc => ⟨(hparts c hc).1, (hparts c hc).2.2⟩⟩

include hne hparts

theorem toString_of_isPlain : Pure.toString ⟨"", parts⟩ = Text.joined "/" parts := by
  rw [Path.Pure.toString_of_parts (spelled_of_isPlain hparts) hne, String.empty_append]

/-- A pattern that is joined of components has these components. -/
theorem ofString_joined : Pure.ofString (Text.joined "/" parts) = ⟨"", parts⟩ := by
  have hspelled := spelled_of_isPlain hparts
  have hroot : Path.rootOf (Text.joined "/" parts) = "" := by
    by_contra habsolute
    rw [← toString_of_isPlain hne hparts] at habsolute
    exact (Path.Pure.isAbsolute_toString hspelled).1 (Path.rootOf_ne_empty_iff.1 habsolute) rfl
  have hplain : Pure.plainComponents (Text.joined "/" parts) = parts := by
    rw [Path.plainComponents_eq, ← toString_of_isPlain hne hparts, Path.Pure.components_toString hspelled hne,
      List.filter_eq_self]
    intro c hc
    simpa using (hparts c hc).2.1
  rw [Pure.ofString, hroot, hplain]

theorem stepsOf_joined : stepsOf (Text.joined "/" parts) = parts.mapM Step.ofText := by
  have hslash : ¬((Text.joined "/" parts).toList.getLast? == some '/') = true := by
    rw [← toString_of_isPlain hne hparts]
    simpa using Path.Pure.getLast?_toString (spelled_of_isPlain hparts) hne
  have hempty : ¬(Text.joined "/" parts).isEmpty = true := by
    intro hempty
    have hcomponents := ofString_joined hne hparts
    rw [show Text.joined "/" parts = "" by simpa using hempty] at hcomponents
    exact hne (congrArg Pure.parts hcomponents).symm
  rw [stepsOf, if_neg hempty, ofString_joined hne hparts, if_neg (by simp), if_neg hslash]
  exact congrArg (List.mapM Step.ofText) (List.append_nil parts)

end Joined

/-- A pattern for a name at any depth. -/
def anywhere (part : String) : String := "**/" ++ part

/-- A pattern for everything inside directories of a name. -/
def inside (name : String) : String := "**/" ++ (name ++ "/**")

theorem anywhere_eq (part : String) : anywhere part = Text.joined "/" ["**", part] := by
  simp [anywhere, Text.joined, String.intercalate_cons_cons]

theorem inside_eq (name : String) : inside name = Text.joined "/" ["**", name, "**"] := by
  have hend : name ++ "/" ++ "**" = name ++ "/**" := String.append_assoc
  rw [inside, Text.joined, String.intercalate_cons_cons, String.intercalate_cons_cons, String.intercalate_singleton,
    hend]
  rfl

theorem isPlain_two_stars : IsPlain "**" := ⟨by decide, by decide, by decide⟩

theorem ofString_anywhere {part : String} (h : IsPart part) : Pure.ofString (anywhere part) = ⟨"", ["**", part]⟩ := by
  rw [anywhere_eq]
  exact ofString_joined (by simp) (by simp [isPlain_two_stars, h.isPlain])

theorem ofString_inside {name : String} (h : IsPart name) : Pure.ofString (inside name) = ⟨"", ["**", name, "**"]⟩ := by
  rw [inside_eq]
  exact ofString_joined (by simp) (by simp [isPlain_two_stars, h.isPlain])

theorem stepsOf_anywhere {part : String} (h : IsPart part) :
    stepsOf (anywhere part) = .ok [.anyDepth, stepOf part] := by
  rw [anywhere_eq, stepsOf_joined (by simp) (by simp [isPlain_two_stars, h.isPlain]), List.mapM_cons, List.mapM_cons,
    List.mapM_nil, h.ofText_eq]
  rfl

theorem stepsOf_inside {name : String} (h : IsPart name) (hplain : hasWildcard name = false) :
    stepsOf (inside name) = .ok [.anyDepth, .name name, .anyDepth] := by
  rw [inside_eq, stepsOf_joined (by simp) (by simp [isPlain_two_stars, h.isPlain]), List.mapM_cons, List.mapM_cons,
    List.mapM_cons, List.mapM_nil, h.ofText_eq, stepOf, hplain]
  rfl

/-! ### Failures -/

theorem nameTooLong_of_probe (h : probe d path = .error e) : ∃ p, e = .disk .nameTooLong p := by
  rw [probe] at h
  split at h
  · cases h
  · cases h
    exact ⟨_, rfl⟩
  · cases h

theorem nameTooLong_of_opening (h : (opening path).failure? = some e) : ∃ p, e = .disk .nameTooLong p := by
  rw [opening] at h
  split at h
  · cases h
    exact ⟨_, rfl⟩
  · cases h

/-- A search fails only at what is too long. -/
theorem nameTooLong_of_selectSteps {steps : List Step} (h : (selectSteps d steps path t).failure? = some e) :
    ∃ p, e = .disk .nameTooLong p := by
  -- a step looks one path up or opens directories, and leaves the rest to the steps after it
  induction steps generalizing path t with
  | nil => cases h
  | cons step rest ih =>
    cases step with
    | stop => cases h
    | name text =>
      rw [selectSteps_name] at h
      split at h
      · split at h
        · exact ih h
        · cases h
      · cases h
      · next hprobe =>
        cases h
        exact nameTooLong_of_probe hprobe
    | wild text =>
      rcases Search.failure?_followedBy_eq_some h with hopening | heach
      · exact nameTooLong_of_opening hopening
      · obtain ⟨entry, -, hentry⟩ := Search.failure?_each_eq_some heach
        split at hentry
        split at hentry
        · exact ih hentry
        · cases hentry
    | anyDepth =>
      obtain ⟨directory, -, hdirectory⟩ := Search.failure?_each_eq_some h
      rcases Search.failure?_followedBy_eq_some hdirectory with hrest | hopening
      · exact ih hrest
      · exact nameTooLong_of_opening hopening

theorem mixedDoubleStar_of_ofText {text : String} (h : Step.ofText text = .error e) : e = .mixedDoubleStar := by
  rw [Step.ofText] at h
  repeat' split at h
  all_goals cases h
  rfl

theorem exists_of_mapM_eq_error {α β : Type} {f : α → Except Error β} {as : List α} (h : as.mapM f = .error e) :
    ∃ a ∈ as, f a = .error e := by
  induction as with
  | nil => cases h
  | cons a as ih =>
    rw [List.mapM_cons] at h
    cases ha : f a with
    | error e' =>
      rw [ha] at h
      cases h
      exact ⟨a, List.mem_cons_self, ha⟩
    | ok b =>
      cases hrest : as.mapM f with
      | error e' =>
        rw [ha, hrest] at h
        cases h
        obtain ⟨c, hc, hfails⟩ := ih hrest
        exact ⟨c, List.mem_cons_of_mem _ hc, hfails⟩
      | ok bs =>
        rw [ha, hrest] at h
        cases h

/-- Why a pattern leads to no search. -/
theorem stepsOf_eq_error {pattern : String} (h : stepsOf pattern = .error e) :
    e = .unacceptablePathPattern pattern ∨ e = .mixedDoubleStar ∨ e = .rootedPathPattern ∧
      Path.isAbsolute pattern = true := by
  rw [stepsOf] at h
  split at h
  · cases h
    exact Or.inl rfl
  · dsimp only at h
    split at h
    · next hrooted =>
      cases h
      refine Or.inr (Or.inr ⟨rfl, Path.rootOf_ne_empty_iff.1 ?_⟩)
      simpa [Pure.ofString] using hrooted
    · obtain ⟨part, -, hpart⟩ := exists_of_mapM_eq_error h
      exact Or.inr (Or.inl (mixedDoubleStar_of_ofText hpart))

theorem select_eq_error {pattern : String} (h : select d path pattern = .error e) :
    stepsOf pattern = .error e ∨ ∃ p, e = .disk .nameTooLong p := by
  rw [select] at h
  cases hsteps : stepsOf pattern with
  | error e' =>
    rw [hsteps] at h
    cases h
    exact Or.inl rfl
  | ok steps =>
    rw [hsteps] at h
    cases hprobe : probe d path with
    | error e' =>
      rw [hprobe] at h
      cases h
      exact Or.inr (nameTooLong_of_probe hprobe)
    | ok found =>
      rw [hprobe] at h
      cases found <;> cases h

theorem nameTooLong_of_select {pattern : String} {s : Search} (h : select d path pattern = .ok s)
    (hfailure : s.failure? = some e) :
    ∃ p, e = .disk .nameTooLong p := by
  rw [select] at h
  obtain ⟨steps, -, h⟩ := Disk.exists_of_bind_eq_ok h
  obtain ⟨found, -, h⟩ := Disk.exists_of_bind_eq_ok h
  cases found with
  | none =>
    cases h
    cases hfailure
  | some u =>
    cases h
    split at hfailure
    · exact nameTooLong_of_selectSteps hfailure
    · cases hfailure

/-! ### Below a directory -/

section Below

variable (hroot : d.locate root = .ok (.found q (.directory es))) (hnamed : (Tree.directory es).WellNamed)

include hroot

theorem root_ne_empty : root ≠ "" := by
  obtain ⟨start, hstart, -⟩ := Disk.locate_eq_ok.1 hroot
  exact (Disk.start?_eq_some.1 hstart).1.1

theorem get?_root : d.root.get? q = some (.directory es) := by
  obtain ⟨start, -, hleads⟩ := Disk.locate_eq_ok.1 hroot
  exact hleads.get?_found

theorem size_below_le (hnames : ∀ c ∈ names, IsName c ∧ '/' ∉ c.toList) :
    ((Pure.ofString root).below names).toString.utf8ByteSize ≤ (descend root names).utf8ByteSize := by
  rw [← Path.ofString_descend root hnames]
  exact Path.Pure.size_toString_ofString_le (Path.descend_ne_empty (root_ne_empty hroot) names)

theorem size_root_le : (Pure.ofString root).toString.utf8ByteSize ≤ Disk.maxPath := by
  obtain ⟨start, hstart, -⟩ := Disk.locate_eq_ok.1 hroot
  exact (Path.Pure.size_toString_ofString_le (root_ne_empty hroot)).trans (Disk.start?_eq_some.1 hstart).1.2.2

theorem probe_root : probe d (Pure.ofString root) = .ok (some (.directory es)) := by
  have hself := Path.Pure.below_nil (Pure.ofString root)
  have hsize : ((Pure.ofString root).below []).toString.utf8ByteSize ≤ Disk.maxPath := hself.symm ▸ size_root_le hroot
  have hfollow : Disk.follow d.root q [] = .ok (.found q (.directory es)) := by rw [Disk.follow, get?_root hroot]
  rw [← hself]
  exact probe_of_locate (Disk.locate_below hroot (List.forall_mem_nil _) (List.forall_mem_nil _) hsize hfollow)

/-- The search below a directory for what steps lead to. -/
theorem select_eq {pattern : String} {steps : List Step} (hsteps : stepsOf pattern = .ok steps) :
    select d (Pure.ofString root) pattern = .ok (selectSteps d steps (Pure.ofString root) (.directory es)) := by
  rw [select, hsteps, probe_root hroot]
  rfl

include hnamed

theorem probe_below (hget : (Tree.directory es).get? names = some u)
    (hsize : ((Pure.ofString root).below names).toString.utf8ByteSize ≤ Disk.maxPath) :
    probe d ((Pure.ofString root).below names) = .ok (some u) := by
  have hnames := (hnamed.of_get? hget).2
  exact probe_of_locate (Disk.locate_below hroot (fun c hc => ⟨(hnames c hc).isName.1, (hnames c hc).no_slash⟩)
    (fun c hc => (hnames c hc).no_null) hsize (Disk.follow_names (get?_root hroot) hnames hget))

theorem size_of_roomy {es' : List (String × Tree)} (hroom : Disk.Roomy root (.directory es))
    (hget : (Tree.directory es).get? names = some (.directory es')) :
    ((Pure.ofString root).below names).toString.utf8ByteSize ≤ Disk.maxPath := by
  have hbelow := size_below_le hroot (hnamed.names_of_get? hget)
  have hdirectory := hroom names es' hget
  omega

omit hroot in
theorem names_concat {name : String} (hget : (Tree.directory es).get? names = some t) (hname : IsPart name) :
    ∀ c ∈ names ++ [name], (IsName c ∧ '/' ∉ c.toList) ∧ '\x00' ∉ c.toList := by
  intro c hc
  rcases List.mem_append.1 hc with hc | hc
  · have hentry := (hnamed.of_get? hget).2 c hc
    exact ⟨⟨hentry.isName, hentry.no_slash⟩, hentry.no_null⟩
  · rw [List.mem_singleton.1 hc]
    exact ⟨⟨hname.isName, hname.no_slash⟩, hname.no_null⟩

theorem get?_of_probe {name : String} (hget : (Tree.directory es).get? names = some t) (hname : IsPart name)
    (h : probe d ((Pure.ofString root).below (names ++ [name])) = .ok (some u)) :
    (Tree.directory es).get? (names ++ [name]) = some u := by
  obtain ⟨q', hlook⟩ := look_of_probe h
  exact Disk.get?_of_look_below hroot (fun c hc => (names_concat hnamed hget hname c hc).1) hlook

/-- Where there is room one more name is no reason to fail. -/
theorem exists_probe_concat {es' : List (String × Tree)} {name : String} (hroom : Disk.Roomy root (.directory es))
    (hget : (Tree.directory es).get? names = some (.directory es')) (hname : IsPart name)
    (hplain : hasWildcard name = false) :
    ∃ found, probe d ((Pure.ofString root).below (names ++ [name])) = .ok found := by
  have hnames := names_concat hnamed hget hname
  have hsize : ((Pure.ofString root).below (names ++ [name])).toString.utf8ByteSize ≤ Disk.maxPath := by
    have hbelow := size_below_le hroot fun c hc => (hnames c hc).1
    have hjoin := Path.size_join_le (descend root names) name
    have hdirectory := hroom names es' hget
    have hpart := hname.size_le hplain
    rw [Path.descend_concat] at hbelow
    omega
  obtain ⟨place, hplace⟩ :=
    Disk.exists_follow_concat (get?_root hroot) (hnamed.of_get? hget).2 hget hname.isName (hname.size_le hplain)
  have hlocate := Disk.locate_below hroot (fun c hc => ⟨(hnames c hc).1.1.1, (hnames c hc).1.2⟩) (fun c hc =>
    (hnames c hc).2)
    hsize hplace
  rw [probe, Disk.look, hlocate]
  cases place with
  | found => exact ⟨_, rfl⟩
  | absent => exact ⟨_, rfl⟩

/-! ### What is found -/

theorem failure?_selectSteps_stepOf {es' : List (String × Tree)} {part : String}
    (hroom : Disk.Roomy root (.directory es))
    (hget : (Tree.directory es).get? names = some (.directory es')) (hpart : IsPart part) :
    (selectSteps d [stepOf part] ((Pure.ofString root).below names) (.directory es')).failure? = none := by
  rw [stepOf]
  split
  · rw [selectSteps_wild, Search.failure?_followedBy (failure?_opening (size_of_roomy hroot hnamed hroom hget))]
    apply Search.failure?_each
    intro e _
    split <;> rfl
  · next hplain =>
    obtain ⟨found, hfound⟩ := exists_probe_concat hroot hnamed hroom hget hpart (by simpa using hplain)
    rw [selectSteps_name, Path.Pure.below_below, hfound]
    cases found <;> rfl

theorem mem_selectSteps_entry {part n : String} (hpart : accepts part n = true) (hentry : (n, u) ∈ es)
    (hsize : ((Pure.ofString root).below [n]).toString.utf8ByteSize ≤ Disk.maxPath) :
    (Pure.ofString root).below [n] ∈ (selectSteps d [stepOf part] (Pure.ofString root) (.directory es)).found := by
  rw [stepOf]
  split
  · rw [selectSteps_wild]
    apply Search.mem_followedBy_of_right
    · exact failure?_opening (size_root_le hroot)
    · refine Search.mem_each_of_mem (fun e _ => by split <;> rfl) hentry ?_
      rw [if_pos hpart]
      exact List.mem_singleton_self _
  · next hplain =>
    have hname : n = part := (accepts_literal (by simpa using hplain)).1 hpart
    subst hname
    have hget : (Tree.directory es).get? [n] = some u :=
      (Tree.get?_cons_of_mem hnamed.nodup hentry []).trans (Tree.get?_nil u)
    rw [selectSteps_name, probe_below hroot hnamed hget hsize]
    exact List.mem_singleton_self _

/-- Any depth is no reason to fail where there is room. -/
theorem failure?_anyDepth {rest : List Step} (hroom : Disk.Roomy root (.directory es))
    (hget : (Tree.directory es).get? names = some t)
    (hrest : ∀ more es', (Tree.directory es).get? (names ++ more) = some (.directory es') →
      (selectSteps d rest ((Pure.ofString root).below (names ++ more)) (.directory es')).failure? = none) :
    (selectSteps d (.anyDepth :: rest) ((Pure.ofString root).below names) t).failure? = none := by
  rw [selectSteps]
  apply Search.failure?_each
  rintro ⟨path, v⟩ hpath
  obtain ⟨more, hmore, hdirectory, rfl⟩ := (mem_directoriesFrom (hnamed.of_get? hget).1).1 hpath
  obtain ⟨es', rfl⟩ := Tree.isDirectory_iff.1 hdirectory
  have hbelow : (Tree.directory es).get? (names ++ more) = some (.directory es') := by
    rw [Tree.get?_append, hget, Option.bind_some, hmore]
  rw [Path.Pure.below_below]
  refine (Search.failure?_followedBy ?_).trans ?_
  · exact hrest more es' hbelow
  · exact failure?_opening (size_of_roomy hroot hnamed hroom hbelow)

/-! ### A name at any depth -/

omit hroot in
theorem mem_selectAnywhere {part : String} {p : Pure}
    (h : p ∈ (selectSteps d [.anyDepth, stepOf part] (Pure.ofString root) (.directory es)).found) :
    ∃ names n, accepts part n = true ∧ p = (Pure.ofString root).below (names ++ [n]) := by
  obtain ⟨names, u, -, -, hstep⟩ := mem_selectSteps_anyDepth hnamed h
  obtain ⟨n, hn, rfl⟩ := mem_selectSteps_stepOf hstep
  exact ⟨names, n, hn, Path.Pure.below_below _ _ _⟩

theorem failure?_selectAnywhere {part : String} (hroom : Disk.Roomy root (.directory es)) (hpart : IsPart part) :
    (selectSteps d [.anyDepth, stepOf part] (Pure.ofString root) (.directory es)).failure? = none := by
  rw [← Path.Pure.below_nil (Pure.ofString root)]
  apply failure?_anyDepth hroot hnamed hroom (Tree.get?_nil _)
  intro more es' hget
  exact failure?_selectSteps_stepOf hroot hnamed hroom hget hpart

theorem selectAnywhere_entry {part n : String} (hpart : accepts part n = true) (hentry : (n, u) ∈ es)
    (hsize : ((Pure.ofString root).below [n]).toString.utf8ByteSize ≤ Disk.maxPath) :
    (Pure.ofString root).below [n] ∈
      (selectSteps d [.anyDepth, stepOf part] (Pure.ofString root) (.directory es)).found :=
  mem_selectSteps_anyDepth_of_mem (mem_selectSteps_entry hroot hnamed hpart hentry hsize)

/-! ### Everything inside a directory -/

theorem mem_selectInside {name : String} {p : Pure} (hname : IsPart name)
    (h : p ∈ (selectSteps d [.anyDepth, .name name, .anyDepth] (Pure.ofString root) (.directory es)).found) :
    ∃ names rest u, (Tree.directory es).get? (names ++ [name]) = some u ∧ u.isDirectory = true ∧
      p = (Pure.ofString root).below (names ++ name :: rest) := by
  obtain ⟨names, v, hget, -, hstep⟩ := mem_selectSteps_anyDepth hnamed h
  obtain ⟨u, hprobe, hdirectory, hbelow⟩ := mem_selectSteps_name hstep
  rw [Path.Pure.below_below] at hprobe hbelow
  have hnext := get?_of_probe hroot hnamed hget hname hprobe
  obtain ⟨rest, w, -, -, hself⟩ := mem_selectSteps_anyDepth (hnamed.of_get? hnext).1 hbelow
  refine ⟨names, rest, u, hnext, hdirectory, ?_⟩
  rw [List.mem_singleton.1 hself, Path.Pure.below_below, List.append_assoc, List.singleton_append]

theorem failure?_selectInside {name : String} (hroom : Disk.Roomy root (.directory es)) (hname : IsPart name)
    (hplain : hasWildcard name = false) :
    (selectSteps d [.anyDepth, .name name, .anyDepth] (Pure.ofString root) (.directory es)).failure? = none := by
  rw [← Path.Pure.below_nil (Pure.ofString root)]
  apply failure?_anyDepth hroot hnamed hroom (Tree.get?_nil _)
  intro names es' hget
  rw [List.nil_append] at hget ⊢
  obtain ⟨found, hfound⟩ := exists_probe_concat hroot hnamed hroom hget hname hplain
  rw [selectSteps_name, Path.Pure.below_below, hfound]
  cases found with
  | none => rfl
  | some u =>
    have hnext := get?_of_probe hroot hnamed hget hname hfound
    show (if u.isDirectory = true then selectSteps d [.anyDepth] _ u else {}).failure? = none
    split
    · exact failure?_anyDepth hroot hnamed hroom hnext fun _ _ _ => rfl
    · rfl

theorem selectInside_entry {name : String} {es' : List (String × Tree)} (hentry : (name, .directory es') ∈ es)
    (hsize : ((Pure.ofString root).below [name]).toString.utf8ByteSize ≤ Disk.maxPath) :
    (Pure.ofString root).below [name] ∈
      (selectSteps d [.anyDepth, .name name, .anyDepth] (Pure.ofString root) (.directory es)).found := by
  have hget : (Tree.directory es).get? [name] = some (.directory es') :=
    (Tree.get?_cons_of_mem hnamed.nodup hentry []).trans (Tree.get?_nil _)
  apply mem_selectSteps_anyDepth_of_mem
  rw [selectSteps_name, probe_below hroot hnamed hget hsize]
  show _ ∈ (selectSteps d [.anyDepth] _ _).found
  apply mem_selectSteps_anyDepth_of_mem
  exact List.mem_singleton_self _

end Below

end Glob

end CodeAtlas

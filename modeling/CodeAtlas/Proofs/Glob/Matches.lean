import CodeAtlas.Glob.Expand
import CodeAtlas.Proofs.Disk.Opened
import CodeAtlas.Proofs.Path.Normal

/-!
# What patterns match on a disk

A pattern that is read in depth is matched one component after another, from what it has before its first wildcard on.
The search goes the other way, looks for directories only where more is to come, and is bounded; it finds what is
matched.

## Main definitions

* `Glob.Advances` — what one component of a pattern leads to
* `Glob.Matches` — what a pattern leads to
* `Glob.Found` — what a pattern matches

## Main results

* `Glob.mem_expand_iff` — the search finds exactly what is matched
* `Glob.Found.exists_get?` — what is matched is there
-/

namespace CodeAtlas.Glob

open CodeAtlas.Path (descend IsName)
open Disk (IsEntryName)

variable {d : Disk} {c n p path pattern x : String} {names : List String} {es : List (String × Tree)} {t u : Tree}
  {directoriesOnly : Bool}

/-- A directory has an entry. -/
def HasEntry (d : Disk) (p n : String) : Prop := ∃ es u, d.opened p = some (.directory es) ∧ (n, u) ∈ es

/-- Visible names lead down a tree, and all directories on the way can be opened if the tree has a given path. -/
structure Shows (p : String) (t : Tree) (names : List String) (u : Tree) : Prop where
  ne_nil : names ≠ []
  visible : ∀ n ∈ names, isHidden n = false
  size_le : (descend p names.dropLast).utf8ByteSize ≤ Disk.maxPath
  get?_eq : t.get? names = some u

/-- Visible names lead from a directory to something below it. -/
def Below (d : Disk) (p : String) (names : List String) : Prop :=
  ∃ es u, d.opened p = some (.directory es) ∧ Shows p (.directory es) names u

/-- What one component of a pattern leads to from a path. -/
inductive Advances (d : Disk) : (component p path : String) → Prop
  /-- A name leads to what has this name. -/
  | name {c p : String} (hplain : hasWildcard c = false) (hc : c ≠ "") (hthere : d.exists? (Path.join p c) = true) :
      Advances d c p (Path.join p c)
  /-- Behind a slash at the end there is nothing, but what is before it is a directory. -/
  | slash {p : String} (hp : d.isDirectory p = true) : Advances d "" p (Path.join p "")
  /-- Wildcards lead to the entries that they accept. -/
  | wildcard {c p n : String} (hwild : hasWildcard c = true) (hc : c ≠ "**") (hentry : HasEntry d p n)
      (hvisible : (isHidden c || !isHidden n) = true) (haccepts : accepts c n = true) : Advances d c p (Path.join p n)
  /-- Two stars stand for no name at all, -/
  | here {p : String} (hp : p = "" ∨ d.isDirectory p = true) : Advances d "**" p (Path.join p "")
  /-- or for any number of visible names. -/
  | below {p : String} {names : List String} (hbelow : Below d p names) : Advances d "**" p (descend p names)

/-- What a pattern leads to.  What it has before its first wildcard is taken as it is. -/
inductive Matches (d : Disk) : (pattern path : String) → Prop
  | stem {pattern : String} (hplain : hasWildcard pattern = false) : Matches d pattern pattern
  | step {pattern p path : String} (hwild : hasWildcard pattern = true)
      (hdirectory : Matches d (Path.directory pattern) p)
      (hstep : Advances d (Path.baseName pattern) p path) : Matches d pattern path

/-- What a path without wildcards leads to is there. -/
def Stands (d : Disk) (path : String) : Prop :=
  if Path.baseName path = "" then d.isDirectory (Path.directory path) = true else d.exists? path = true

/-- What a pattern matches: what it leads to, or the pattern itself if it has no wildcards and leads somewhere. -/
def Found (d : Disk) (pattern path : String) : Prop :=
  path ≠ "" ∧ Matches d pattern path ∧ (hasWildcard pattern = false → Stands d pattern)

/-! ### Spelling -/

theorem join_empty_left (c : String) : Path.join "" c = c := by
  rw [Path.join]
  split
  · rfl
  · rw [if_pos (by decide), String.empty_append]

theorem joinLoose_eq (p : String) (hc : c ≠ "") : joinLoose p c = Path.join p c := by
  have hempty : c.isEmpty = false := by simpa using hc
  rw [joinLoose, hempty, Bool.or_false]
  split
  · next hp =>
    obtain rfl : p = "" := by simpa using hp
    rw [join_empty_left, String.empty_append]
  · rfl

theorem joined_cons (hnames : names ≠ []) : Text.joined "/" (n :: names) = n ++ "/" ++ Text.joined "/" names := by
  rw [Text.joined, String.intercalate_cons_of_ne_nil hnames]
  rfl

theorem joined_ne_empty (hne : names ≠ []) (hnames : ∀ n ∈ names, n ≠ "") : Text.joined "/" names ≠ "" := by
  obtain ⟨n, names, rfl⟩ := List.exists_cons_of_ne_nil hne
  have hn := hnames n List.mem_cons_self
  by_cases hnil : names = []
  · subst hnil
    simpa [Text.joined] using hn
  · rw [joined_cons hnil]
    simp [hn]

theorem not_isAbsolute_joined (hne : names ≠ []) (hnames : ∀ n ∈ names, n ≠ "" ∧ '/' ∉ n.toList) :
    ¬Path.isAbsolute (Text.joined "/" names) = true := by
  obtain ⟨n, names, rfl⟩ := List.exists_cons_of_ne_nil hne
  obtain ⟨hn, hslash⟩ := hnames n List.mem_cons_self
  have hrel := Path.not_isAbsolute_of_not_mem hslash
  by_cases hnil : names = []
  · subst hnil
    simpa [Text.joined] using hrel
  · have hhead : n.toList ≠ [] := by simpa using hn
    rwa [joined_cons hnil, Path.isAbsolute, String.append_assoc, String.toList_append,
      List.head?_append_of_ne_nil _ hhead]

/-- Names one after another lead where all of them together lead. -/
theorem join_joined (p : String) (hne : names ≠ []) (hnames : ∀ n ∈ names, n ≠ "" ∧ '/' ∉ n.toList) :
    Path.join p (Text.joined "/" names) = descend p names := by
  induction names generalizing p with
  | nil => exact absurd rfl hne
  | cons n names ih =>
    obtain ⟨hn, hslash⟩ := hnames n List.mem_cons_self
    by_cases hnil : names = []
    · subst hnil
      simp [Text.joined, descend]
    · have hlater : ∀ n ∈ names, n ≠ "" ∧ '/' ∉ n.toList := fun m hm => hnames m (List.mem_cons_of_mem _ hm)
      have hrel := not_isAbsolute_joined hnil hlater
      have hfirst := Path.not_isAbsolute_of_not_mem hslash
      have hall := not_isAbsolute_joined hne hnames
      rw [joined_cons hnil] at hall
      rw [Path.descend_cons, ← ih _ hnil hlater, joined_cons hnil,
        Path.join_eq hrel (Disk.join_ne_empty hn hslash) (Disk.getLast?_join hn hslash), Path.join, Path.join,
        if_neg hall, if_neg hfirst]
      split <;> simp only [String.append_assoc]

theorem joinLoose_joined (hn : n ≠ "") (hslash : '/' ∉ n.toList) (hne : names ≠ [])
    (hnames : ∀ n ∈ names, n ≠ "" ∧ '/' ∉ n.toList) :
    joinLoose n (Text.joined "/" names) = Text.joined "/" (n :: names) := by
  have hlast : n.toList.getLast? ≠ some '/' := fun hmem => hslash (List.mem_of_getLast? hmem)
  rw [joinLoose_eq n (joined_ne_empty hne fun m hm => (hnames m hm).1),
    Path.join_eq (not_isAbsolute_joined hne hnames) hn hlast,
    joined_cons hne]

theorem size_le_descend (p : String) (hnames : ∀ n ∈ names, '/' ∉ n.toList) :
    p.utf8ByteSize ≤ (descend p names).utf8ByteSize := by
  induction names generalizing p with
  | nil => exact le_rfl
  | cons n names ih =>
    rw [Path.descend_cons]
    exact (Disk.size_le_join p (hnames n List.mem_cons_self)).trans (ih _ fun m hm =>
      hnames m (List.mem_cons_of_mem _ hm))

/-! ### Everything visible below a directory -/

theorem names_of_get? (ht : t.WellNamed) (hget : t.get? names = some u) : ∀ n ∈ names, n ≠ "" ∧ '/' ∉ n.toList := by
  intro n hn
  have hname := ht.names_of_get? hget n hn
  exact ⟨hname.1.1, hname.2⟩

theorem mem_visibleBelow_go : x ∈ visibleBelow.go directoriesOnly p es ↔
    ∃ e ∈ es, isHidden e.1 = false ∧ (directoriesOnly = true → e.2.isDirectory = true) ∧
      (x = e.1 ∨ ∃ y ∈ visibleBelow directoriesOnly (joinLoose p e.1) e.2, x = joinLoose e.1 y) := by
  induction es with
  | nil => simp [visibleBelow.go]
  | cons e es ih =>
    obtain ⟨name, v⟩ := e
    rw [visibleBelow.go, List.mem_append, ih]
    simp only [List.mem_cons, exists_eq_or_imp]
    refine or_congr ?_ Iff.rfl
    have hshown : (isHidden name || directoriesOnly && !v.isDirectory) = false ↔
        isHidden name = false ∧ (directoriesOnly = true → v.isDirectory = true) := by
      cases directoriesOnly <;> simp
    rw [← and_assoc, ← hshown]
    cases isHidden name || directoriesOnly && !v.isDirectory <;> simp [eq_comm]

theorem mem_visibleBelow_iff (ht : t.WellNamed) : x ∈ visibleBelow directoriesOnly p t ↔
    ∃ names u, Shows p t names u ∧ (directoriesOnly = true → u.isDirectory = true) ∧ x = Text.joined "/" names := by
  have hwell := ht
  induction ht generalizing p x with
  | file c m =>
    refine iff_of_false (by simp [visibleBelow]) ?_
    rintro ⟨names, u, hshows, -⟩
    obtain ⟨es, hes⟩ := Tree.exists_eq_directory hshows.get?_eq hshows.ne_nil
    cases hes
  | @directory es hnodup hentries hbelow ih =>
    rw [visibleBelow]
    split
    · next hlong =>
      refine iff_of_false (by simp) ?_
      rintro ⟨names, u, hshows, -⟩
      have hslash : ∀ n ∈ names.dropLast, '/' ∉ n.toList := fun n hn =>
        (hwell.names_of_get? hshows.get?_eq n ((List.dropLast_sublist names).mem hn)).2
      have := size_le_descend p hslash
      have := hshows.size_le
      omega
    · next hshort =>
      rw [mem_visibleBelow_go]
      constructor
      · rintro ⟨⟨name, v⟩, he, hvisible, hkind, rfl | ⟨y, hy, rfl⟩⟩
        · refine ⟨[x], v, ⟨by simp, by simpa using hvisible, ?_, ?_⟩, hkind, by simp [Text.joined]⟩
          · simpa using Nat.le_of_not_lt hshort
          · rw [Tree.get?_cons_of_mem hnodup he, Tree.get?_nil]
        · obtain ⟨names, u, ⟨hne, hvisibles, hsize, hget⟩, hdirectory, rfl⟩ := (ih _ he (hbelow _ he)).1 hy
          have hname := hentries _ he
          refine ⟨name :: names, u, ⟨by simp, List.forall_mem_cons.2 ⟨hvisible, hvisibles⟩, ?_, ?_⟩, hdirectory, ?_⟩
          · rwa [List.dropLast_cons_of_ne_nil hne, Path.descend_cons, ← joinLoose_eq p hname.isName.1]
          · rw [Tree.get?_cons_of_mem hnodup he, hget]
          · exact joinLoose_joined hname.isName.1 hname.no_slash hne (names_of_get? (hbelow _ he) hget)
      · rintro ⟨names, u, ⟨hne, hvisibles, hsize, hget⟩, hdirectory, rfl⟩
        obtain ⟨name, names, rfl⟩ := List.exists_cons_of_ne_nil hne
        obtain ⟨v, hv, hrest⟩ := Tree.get?_cons_eq_some hget
        obtain ⟨hvisible, hvisibles⟩ := List.forall_mem_cons.1 hvisibles
        have hname := hentries _ hv
        by_cases hnil : names = []
        · subst hnil
          rw [Tree.get?_nil] at hrest
          cases hrest
          exact ⟨_, hv, hvisible, hdirectory, Or.inl (by simp [Text.joined])⟩
        · rw [List.dropLast_cons_of_ne_nil hnil, Path.descend_cons, ← joinLoose_eq p hname.isName.1] at hsize
          obtain ⟨es', rfl⟩ := Tree.exists_eq_directory hrest hnil
          have hlater := (ih _ hv (hbelow _ hv)).2 ⟨names, u, ⟨hnil, hvisibles, hsize, hrest⟩, hdirectory, rfl⟩
          refine ⟨_, hv, hvisible, fun _ => rfl, Or.inr ⟨_, hlater, ?_⟩⟩
          exact (joinLoose_joined hname.isName.1 hname.no_slash hnil (names_of_get? (hbelow _ hv) hrest)).symm

/-- What names lead to below a directory is found under their path. -/
theorem get?_descend (hd : d.root.WellNamed) (hopen : d.opened p = some (.directory es)) (hne : names ≠ [])
    (hget : (Tree.directory es).get? names = some u) (hsize : (descend p names).utf8ByteSize ≤ Disk.maxPath) :
    d.get? (descend p names) = some u := by
  induction names generalizing p es with
  | nil => exact absurd rfl hne
  | cons n names ih =>
    obtain ⟨v, hv, hrest⟩ := Tree.get?_cons_eq_some hget
    rw [Path.descend_cons] at hsize ⊢
    by_cases hnil : names = []
    · subst hnil
      rw [Tree.get?_nil] at hrest
      cases hrest
      exact Disk.get?_join_of_mem hd hopen hv hsize
    · have hslash := fun m hm =>
        ((Disk.wellNamed_of_opened hd hopen).names_of_get? hget m (List.mem_cons_of_mem _ hm)).2
      have hfirst := Disk.get?_join_of_mem hd hopen hv ((size_le_descend _ hslash).trans hsize)
      obtain ⟨es', rfl⟩ := Tree.exists_eq_directory hrest hnil
      exact ih (Disk.opened_of_get? hfirst) hnil hrest hsize

/-! ### One component -/

/-- A path from which a pattern can go on. -/
def Enterable (d : Disk) (p : String) : Prop := p = "" ∨ ∃ es, d.opened p = some (.directory es)

theorem exists_get?_of_isDirectory (h : d.isDirectory p = true) : ∃ es, d.get? p = some (.directory es) := by
  obtain ⟨q, es, hlocate⟩ := Disk.isDirectory_iff_locate.1 h
  exact ⟨es, Disk.get?_eq_some.2 ⟨q, hlocate⟩⟩

theorem enterable_of_isDirectory (h : d.isDirectory p = true) : Enterable d p := by
  obtain ⟨es, hes⟩ := exists_get?_of_isDirectory h
  exact Or.inr ⟨es, Disk.opened_of_get? hes⟩

/-- Every step starts at a directory. -/
theorem Advances.enterable (hslash : '/' ∉ c.toList) (h : Advances d c p path) : Enterable d p := by
  cases h with
  | name _ hc hthere =>
    obtain ⟨u, hu⟩ := Option.isSome_iff_exists.1 hthere
    exact Or.inr (Disk.exists_opened_of_get?_join hc hslash hu)
  | slash hp => exact enterable_of_isDirectory hp
  | wildcard _ _ hentry =>
    obtain ⟨es, -, hopen, -⟩ := hentry
    exact Or.inr ⟨es, hopen⟩
  | here hp =>
    rcases hp with hp | hp
    · exact Or.inl hp
    · exact enterable_of_isDirectory hp
  | below hbelow =>
    obtain ⟨es, -, hopen, -⟩ := hbelow
    exact Or.inr ⟨es, hopen⟩

theorem opened_eq (d : Disk) (p : String) : d.get? (if p.isEmpty then "." else p) = d.opened p := rfl

theorem mem_namesIn_stars (hd : d.root.WellNamed) : n ∈ namesIn d true p "**" directoriesOnly ↔
    (n = "" ∧ (p = "" ∨ d.isDirectory p = true)) ∨
      ∃ names es u, d.opened p = some (.directory es) ∧ Shows p (.directory es) names u ∧
        (directoriesOnly = true → u.isDirectory = true) ∧ n = Text.joined "/" names := by
  rw [namesIn, if_pos (by decide), List.mem_append, opened_eq]
  refine or_congr ?_ ?_
  · by_cases hp : p = "" ∨ d.isDirectory p = true
    · rw [if_pos (by simpa using hp)]
      simp [hp]
    · rw [if_neg (by simpa using hp)]
      simp [hp]
  · cases hopen : d.opened p with
    | none => simp
    | some t =>
      cases t with
      | file => simp [visibleBelow]
      | directory es =>
        simp only [mem_visibleBelow_iff (Disk.wellNamed_of_opened hd hopen), Option.some.injEq, Tree.directory.injEq]
        constructor
        · rintro ⟨names, u, hshows, hdirectory, rfl⟩
          exact ⟨names, es, u, rfl, hshows, hdirectory, rfl⟩
        · rintro ⟨names, es, u, rfl, hshows, hdirectory, rfl⟩
          exact ⟨names, u, hshows, hdirectory, rfl⟩

theorem mem_namesIn_wildcard (hwild : hasWildcard c = true) (hc : c ≠ "**") : n ∈ namesIn d true p c directoriesOnly ↔
    ∃ es u, d.opened p = some (.directory es) ∧ (n, u) ∈ es ∧ (directoriesOnly = true → u.isDirectory = true) ∧
      (isHidden c || !isHidden n) = true ∧ accepts c n = true := by
  rw [namesIn, if_neg (by simpa using hc), if_pos hwild, listing, opened_eq]
  cases hopen : d.opened p with
  | none => simp
  | some t =>
    cases t with
    | file => simp [Tree.entries]
    | directory es =>
      have hkind : ∀ u : Tree, (!directoriesOnly || u.isDirectory) = true ↔
          (directoriesOnly = true → u.isDirectory = true) := by
        cases directoriesOnly <;> simp
      simp only [Tree.entries, List.mem_map, List.mem_filter, Prod.exists, Bool.and_eq_true, hkind, Option.some.injEq,
        Tree.directory.injEq, exists_and_left, exists_eq_left', and_assoc]
      constructor
      · rintro ⟨n, u, hentry, hdirectory, hvisible, haccepts, rfl⟩
        exact ⟨u, hentry, hdirectory, hvisible, haccepts⟩
      · rintro ⟨u, hentry, hdirectory, hvisible, haccepts⟩
        exact ⟨n, u, hentry, hdirectory, hvisible, haccepts, rfl⟩

theorem mem_namesIn_empty : n ∈ namesIn d true p "" directoriesOnly ↔ n = "" ∧ d.isDirectory p = true := by
  rw [namesIn, if_neg (by decide), if_neg (by decide), if_pos (by decide)]
  split <;> simp [*]

theorem mem_namesIn_name (hplain : hasWildcard c = false) (hc : c ≠ "") :
    n ∈ namesIn d true p c directoriesOnly ↔ n = c ∧ d.exists? (Path.join p c) = true := by
  have hstars : ¬(true && c == "**") = true := by
    rintro heq
    obtain rfl : c = "**" := by simpa using heq
    cases hplain
  rw [namesIn, if_neg hstars, hplain, if_neg (by decide), if_neg (by simpa using hc), joinLoose_eq p hc]
  split <;> simp [*]

theorem names_of_opened (hd : d.root.WellNamed) (hopen : d.opened p = some (.directory es))
    (hget : (Tree.directory es).get? names = some u) : ∀ n ∈ names, n ≠ "" ∧ '/' ∉ n.toList :=
  names_of_get? (Disk.wellNamed_of_opened hd hopen) hget

theorem descend_ne_empty (p : String) (hne : names ≠ []) (hnames : ∀ n ∈ names, n ≠ "" ∧ '/' ∉ n.toList) :
    descend p names ≠ "" := by
  obtain ⟨front, last, rfl⟩ := List.eq_nil_or_concat names |>.resolve_left hne
  rw [List.concat_eq_append, Path.descend_concat]
  obtain ⟨hlast, hslash⟩ := hnames last (by simp)
  exact Disk.join_ne_empty hlast hslash

/-- If one can go on from what names lead to, it is a directory. -/
theorem isDirectory_of_enterable (hd : d.root.WellNamed) (hopen : d.opened p = some (.directory es)) (hne : names ≠ [])
    (hget : (Tree.directory es).get? names = some u) (henter : Enterable d (descend p names)) :
    u.isDirectory = true := by
  rcases henter with hempty | ⟨es', hes'⟩
  · exact absurd hempty (descend_ne_empty p hne (names_of_opened hd hopen hget))
  · have hthere := get?_descend hd hopen hne hget (Disk.opened_eq_directory.1 hes').1.size_le
    cases (Disk.opened_of_get? hthere).symm.trans hes'
    rfl

/-- The names that the search finds in a directory are steps from it. -/
theorem advances_of_mem_namesIn (hd : d.root.WellNamed) (h : n ∈ namesIn d true p c directoriesOnly) :
    Advances d c p (Path.join p n) := by
  by_cases hstars : c = "**"
  · subst hstars
    rcases (mem_namesIn_stars hd).1 h with ⟨rfl, hp⟩ | ⟨names, es, u, hopen, hshows, -, rfl⟩
    · exact .here hp
    · rw [join_joined p hshows.ne_nil (names_of_opened hd hopen hshows.get?_eq)]
      exact .below ⟨es, u, hopen, hshows⟩
  by_cases hwild : hasWildcard c = true
  · obtain ⟨es, u, hopen, hentry, -, hvisible, haccepts⟩ := (mem_namesIn_wildcard hwild hstars).1 h
    exact .wildcard hwild hstars ⟨es, u, hopen, hentry⟩ hvisible haccepts
  by_cases hempty : c = ""
  · subst hempty
    obtain ⟨rfl, hp⟩ := mem_namesIn_empty.1 h
    exact .slash hp
  · obtain ⟨rfl, hthere⟩ := (mem_namesIn_name (by simpa using hwild) hempty).1 h
    exact .name (by simpa using hwild) hempty hthere

/-- The search finds every step; if it looks for directories only, then those from which one can go on. -/
theorem exists_mem_namesIn (hd : d.root.WellNamed) (h : Advances d c p path)
    (henter : directoriesOnly = true → Enterable d path) :
    ∃ n ∈ namesIn d true p c directoriesOnly, path = Path.join p n := by
  cases h with
  | name hplain hc hthere => exact ⟨c, (mem_namesIn_name hplain hc).2 ⟨rfl, hthere⟩, rfl⟩
  | slash hp => exact ⟨"", mem_namesIn_empty.2 ⟨rfl, hp⟩, rfl⟩
  | here hp => exact ⟨"", (mem_namesIn_stars hd).2 (Or.inl ⟨rfl, hp⟩), rfl⟩
  | @wildcard _ _ n hwild hc hentry hvisible haccepts =>
    obtain ⟨es, u, hopen, hentry⟩ := hentry
    have hget : (Tree.directory es).get? [n] = some u := by
      rw [Tree.get?_cons_of_mem (Disk.wellNamed_of_opened hd hopen).nodup hentry, Tree.get?_nil]
    refine ⟨n, (mem_namesIn_wildcard hwild hc).2 ⟨es, u, hopen, hentry, fun hdirectory => ?_, hvisible, haccepts⟩, rfl⟩
    exact isDirectory_of_enterable hd hopen (by simp) hget (henter hdirectory)
  | @below _ names hbelow =>
    obtain ⟨es, u, hopen, hshows⟩ := hbelow
    have hnames := names_of_opened hd hopen hshows.get?_eq
    refine ⟨_, (mem_namesIn_stars hd).2 (Or.inr ⟨names, es, u, hopen, hshows, fun hdirectory => ?_, rfl⟩),
      (join_joined p hshows.ne_nil hnames).symm⟩
    exact isDirectory_of_enterable hd hopen hshows.ne_nil hshows.get?_eq (henter hdirectory)

/-! ### The search -/

theorem Matches.eq_of_plain (h : Matches d pattern path) (hplain : hasWildcard pattern = false) : path = pattern := by
  cases h with
  | stem => rfl
  | step hwild => simp [hplain] at hwild

theorem length_directory_lt (h : hasWildcard pattern = true) : (Path.directory pattern).length < pattern.length := by
  obtain ⟨k, hlist, hends⟩ := Path.exists_eq_directory_append pattern
  have hlength : pattern.toList.length =
      (Path.directory pattern).toList.length + k + (Path.baseName pattern).toList.length := by
    conv_lhs => rw [hlist]
    simp only [List.length_append, List.length_replicate]
  rw [← String.length_toList, ← String.length_toList]
  rcases hends with ⟨rfl, hall⟩ | ⟨hk, -⟩
  · -- a path of slashes has no wildcards
    have hbase : (Path.baseName pattern).toList.length ≠ 0 := by
      intro hzero
      rw [List.length_eq_zero_iff.1 hzero] at hlist
      obtain ⟨c, hc, hwild⟩ := List.any_eq_true.1 h
      rw [hlist] at hc
      have hslash := hall c (by simpa using hc)
      subst hslash
      cases hwild
    omega
  · omega

theorem stands_iff : Stands d pattern ↔
    (if (Path.baseName pattern).isEmpty then d.isDirectory (Path.directory pattern) else d.exists? pattern) = true := by
  rw [Stands]
  by_cases hbase : Path.baseName pattern = ""
  · rw [if_pos hbase, if_pos (by simpa using hbase)]
  · rw [if_neg hbase, if_neg (by simpa using hbase)]

theorem mem_expandFrom_plain (hplain : hasWildcard pattern = false) {depth : Nat} :
    path ∈ expandFrom d true (depth + 1) pattern directoriesOnly ↔ path = pattern ∧ Stands d pattern := by
  rw [expandFrom, hplain, if_pos (by decide), stands_iff]
  split <;> simp [*, and_comm]

/-- One round of the search: the last component is looked for in what the pattern before it leads to. -/
theorem expandFrom_wildcard (hwild : hasWildcard pattern = true) (depth : Nat) :
    expandFrom d true (depth + 1) pattern directoriesOnly =
      (if hasWildcard (Path.directory pattern) then expandFrom d true depth (Path.directory pattern) true
        else [Path.directory pattern]).flatMap fun p =>
          (namesIn d true p (Path.baseName pattern) directoriesOnly).map (Path.join p) := by
  have hshorter : (Path.directory pattern != pattern) = true := by
    rw [bne_iff_ne]
    intro heq
    have := length_directory_lt hwild
    rw [heq] at this
    omega
  rw [expandFrom, hwild, if_neg (by decide)]
  dsimp only
  rw [hshorter, Bool.true_and]
  split
  · next hempty =>
    have hdirectory : Path.directory pattern = "" := by simpa using hempty
    have hplain : hasWildcard "" = false := by decide
    have hjoin : Path.join "" = id := funext join_empty_left
    simp [hdirectory, hplain, hjoin]
  · rfl

theorem mem_expandFrom_wildcard (hwild : hasWildcard pattern = true) {depth : Nat} :
    path ∈ expandFrom d true (depth + 1) pattern directoriesOnly ↔
      ∃ p, (if hasWildcard (Path.directory pattern) then p ∈ expandFrom d true depth (Path.directory pattern) true
          else p = Path.directory pattern) ∧
        ∃ n ∈ namesIn d true p (Path.baseName pattern) directoriesOnly, path = Path.join p n := by
  rw [expandFrom_wildcard hwild]
  simp only [List.mem_flatMap, List.mem_map, eq_comm (b := path)]
  refine exists_congr fun p => and_congr ?_ Iff.rfl
  split <;> simp

/-- The search finds only what a pattern leads to. -/
theorem matches_of_mem_expandFrom (hd : d.root.WellNamed) {depth : Nat}
    (h : path ∈ expandFrom d true depth pattern directoriesOnly) :
    Matches d pattern path ∧ (hasWildcard pattern = false → Stands d pattern) := by
  induction depth generalizing pattern path directoriesOnly with
  | zero => cases h
  | succ depth ih =>
    cases hwild : hasWildcard pattern with
    | false =>
      obtain ⟨rfl, hstands⟩ := (mem_expandFrom_plain hwild).1 h
      exact ⟨.stem hwild, fun _ => hstands⟩
    | true =>
      obtain ⟨p, hp, n, hn, rfl⟩ := (mem_expandFrom_wildcard hwild).1 h
      refine ⟨.step hwild ?_ (advances_of_mem_namesIn hd hn), nofun⟩
      split at hp
      · exact (ih hp).1
      · next hplain =>
        subst hp
        exact .stem (by simpa using hplain)

/-- The search finds all that a pattern leads to; if it looks for directories only, then that from which one can go
on. -/
theorem mem_expandFrom_of_matches (hd : d.root.WellNamed) (h : Matches d pattern path) {depth : Nat}
    (hdepth : pattern.length < depth)
    (hstands : hasWildcard pattern = false → Stands d pattern) (henter : directoriesOnly = true → Enterable d path) :
    path ∈ expandFrom d true depth pattern directoriesOnly := by
  induction h generalizing depth directoriesOnly with
  | stem hplain =>
    obtain ⟨depth, rfl⟩ := Nat.exists_eq_add_one.2 (show 0 < depth by omega)
    exact (mem_expandFrom_plain hplain).2 ⟨rfl, hstands hplain⟩
  | @step pattern p path hwild hdirectory hstep ih =>
    obtain ⟨depth, rfl⟩ := Nat.exists_eq_add_one.2 (show 0 < depth by omega)
    refine (mem_expandFrom_wildcard hwild).2 ⟨p, ?_, exists_mem_namesIn hd hstep henter⟩
    have hshorter := length_directory_lt hwild
    split
    · next hmore =>
      refine ih (by omega) (fun hplain => ?_) fun _ => hstep.enterable (Path.not_mem_baseName pattern)
      rw [hmore] at hplain
      cases hplain
    · next hplain => exact hdirectory.eq_of_plain (by simpa using hplain)

/-! ### No path at all -/

theorem eq_empty_of_join (h : Path.join p n = "") : p = "" ∧ n = "" := by
  rw [Path.join] at h
  split at h
  · next habs =>
    subst h
    cases habs
  · split at h
    · simpa using h
    · simp at h

theorem not_mem_tail_namesIn (hd : d.root.WellNamed) : "" ∉ (namesIn d true p c directoriesOnly).tail := by
  intro hmem
  rw [namesIn, Bool.true_and, opened_eq] at hmem
  split at hmem
  · cases hopen : d.opened p with
    | none =>
      rw [hopen] at hmem
      split at hmem <;> cases hmem
    | some t =>
      have hbelow : "" ∈ visibleBelow directoriesOnly p t := by
        rw [hopen] at hmem
        split at hmem
        · exact hmem
        · exact List.mem_of_mem_tail hmem
      cases t with
      | file => simp [visibleBelow] at hbelow
      | directory es =>
        obtain ⟨names, u, hshows, -, heq⟩ := (mem_visibleBelow_iff (Disk.wellNamed_of_opened hd hopen)).1 hbelow
        exact joined_ne_empty hshows.ne_nil (fun n hn => (names_of_opened hd hopen hshows.get?_eq n hn).1) heq.symm
  · next hstars =>
    split at hmem
    · next hwild =>
      have hname : "" ∈ namesIn d true p c directoriesOnly := by
        rw [namesIn, Bool.true_and, if_neg hstars, if_pos hwild]
        exact List.mem_of_mem_tail hmem
      obtain ⟨es, u, hopen, hentry, -⟩ := (mem_namesIn_wildcard hwild (by simpa using hstars)).1 hname
      exact (Disk.isEntryName_of_mem (Disk.wellNamed_of_opened hd hopen) hentry).isName.1 rfl
    · -- at most one name is left
      split at hmem <;> split at hmem <;> cases hmem

theorem not_mem_tail_flatMap {f : String → List String} {ps : List String} (hps : "" ∉ ps.tail)
    (hf : ∀ p, "" ∈ f p → p = "") (htail : ∀ p, "" ∉ (f p).tail) : "" ∉ (ps.flatMap f).tail := by
  cases ps with
  | nil => simp
  | cons p ps =>
    have hlater : "" ∉ ps.flatMap f := by
      intro hmem
      obtain ⟨q, hq, hmem⟩ := List.mem_flatMap.1 hmem
      obtain rfl := hf q hmem
      exact hps hq
    rw [List.flatMap_cons]
    cases hfirst : f p with
    | nil => exact fun hmem => hlater (List.mem_of_mem_tail hmem)
    | cons x xs =>
      have hxs := htail p
      rw [hfirst] at hxs
      simpa using ⟨hxs, by simpa using hlater⟩

/-- Only the first path that the search finds can be empty. -/
theorem not_mem_tail_expandFrom (hd : d.root.WellNamed) (depth : Nat) (pattern : String) (directoriesOnly : Bool) :
    "" ∉ (expandFrom d true depth pattern directoriesOnly).tail := by
  induction depth generalizing pattern directoriesOnly with
  | zero => simp [expandFrom]
  | succ depth ih =>
    cases hwild : hasWildcard pattern with
    | false =>
      rw [expandFrom, hwild, if_pos (by decide)]
      split <;> split <;> simp
    | true =>
      rw [expandFrom_wildcard hwild]
      refine not_mem_tail_flatMap ?_ (fun p hmem => ?_) fun p hmem => ?_
      · split
        · exact ih _ true
        · simp
      · obtain ⟨n, -, hn⟩ := List.mem_map.1 hmem
        exact (eq_empty_of_join hn).1
      · rw [← List.map_tail] at hmem
        obtain ⟨n, hn, heq⟩ := List.mem_map.1 hmem
        rw [(eq_empty_of_join heq).2] at hn
        exact not_mem_tail_namesIn hd hn

theorem Advances.stars_of_empty (h : Advances d c p path) (hd : d.root.WellNamed) (hpath : path = "") :
    p = "" ∧ c = "**" := by
  cases h with
  | name _ hc => exact absurd (eq_empty_of_join hpath).2 hc
  | slash hp =>
    obtain rfl := (eq_empty_of_join hpath).1
    cases hp
  | wildcard _ _ hentry =>
    obtain ⟨es, u, hopen, hentry⟩ := hentry
    have hname := (Disk.isEntryName_of_mem (Disk.wellNamed_of_opened hd hopen) hentry).isName.1
    exact absurd (eq_empty_of_join hpath).2 hname
  | here => exact ⟨(eq_empty_of_join hpath).1, rfl⟩
  | below hbelow =>
    obtain ⟨es, u, hopen, hshows⟩ := hbelow
    exact absurd hpath (descend_ne_empty p hshows.ne_nil (names_of_opened hd hopen hshows.get?_eq))

/-- What leads to no path at all starts with two stars. -/
theorem Matches.take_two (h : Matches d pattern path) (hd : d.root.WellNamed) (hpath : path = "")
    (hstands : hasWildcard pattern = false → Stands d pattern) : pattern.toList.take 2 = ['*', '*'] := by
  induction h with
  | stem hplain =>
    subst hpath
    have hthere := hstands hplain
    rw [stands_iff] at hthere
    cases hthere
  | @step pattern p path hwild hdirectory hstep ih =>
    obtain ⟨rfl, hbase⟩ := hstep.stars_of_empty hd hpath
    obtain ⟨k, hlist, hends⟩ := Path.exists_eq_directory_append pattern
    cases hmore : hasWildcard (Path.directory pattern) with
    | true =>
      have htwo := ih rfl (by simp [hmore])
      have hlength : 2 ≤ (Path.directory pattern).toList.length := by
        have := congrArg List.length htwo
        simp only [List.length_take, List.length_cons, List.length_nil] at this
        omega
      rw [hlist, List.append_assoc, List.take_append_of_le_length hlength, htwo]
    | false =>
      -- there is nothing before the two stars
      have hempty : Path.directory pattern = "" := (hdirectory.eq_of_plain hmore).symm
      obtain rfl : k = 0 := by
        rcases hends with ⟨hk, -⟩ | ⟨-, hne, -⟩
        · exact hk
        · exact absurd hempty hne
      rw [hlist, hempty, hbase]
      decide

/-- The search finds exactly what is matched. -/
theorem mem_expand_iff (hd : d.root.WellNamed) : path ∈ expand d true pattern ↔ Found d pattern path := by
  have hfrom : ∀ path, path ∈ expandFrom d true (pattern.length + 1) pattern false ↔
      Matches d pattern path ∧ (hasWildcard pattern = false → Stands d pattern) := fun path =>
    ⟨matches_of_mem_expandFrom hd, fun h => mem_expandFrom_of_matches hd h.1 (Nat.lt_succ_self _) h.2 nofun⟩
  have htail := not_mem_tail_expandFrom hd (pattern.length + 1) pattern false
  have hstars : "" ∈ expandFrom d true (pattern.length + 1) pattern false → pattern.toList.take 2 = ['*', '*'] := by
    intro hmem
    obtain ⟨hmatches, hstands⟩ := (hfrom "").1 hmem
    exact hmatches.take_two hd rfl hstands
  rw [Found, ← hfrom, expand]
  generalize expandFrom d true (pattern.length + 1) pattern false = found at htail hstars ⊢
  -- what is left out is the empty path, which is nowhere but at the front
  have hcount : ∀ {paths : List String}, "" ∉ paths → (path ∈ paths ↔ path ≠ "" ∧ path ∈ paths) := by
    intro paths hempty
    refine ⟨fun hmem => ⟨?_, hmem⟩, fun h => h.2⟩
    rintro rfl
    exact hempty hmem
  split
  · split
    · next rest =>
      rw [hcount (by simpa using htail)]
      refine and_congr_right fun hne => ?_
      simp [hne]
    · next hfirst =>
      refine hcount fun hmem => ?_
      cases found with
      | nil => cases hmem
      | cons first rest =>
        rcases List.mem_cons.1 hmem with heq | hlater
        · exact hfirst rest (by rw [heq])
        · exact htail hlater
  · next hplain =>
    refine hcount fun hmem => hplain ?_
    simp [hstars hmem]

/-! ### What is found is there -/

theorem exists_get?_join_empty (hp : d.isDirectory p = true) (hsize : (Path.join p "").utf8ByteSize ≤ Disk.maxPath) :
    ∃ t, d.get? (Path.join p "") = some t := by
  obtain ⟨es, hes⟩ := exists_get?_of_isDirectory hp
  have hne := Disk.ne_empty_of_get? hes
  have hopen := Disk.opened_join_empty hne (Disk.opened_of_get? hes) hsize
  rw [Disk.opened_of_ne_empty d fun hempty => hne (eq_empty_of_join hempty).1] at hopen
  exact ⟨_, hopen⟩

theorem Advances.exists_get? (h : Advances d c p path) (hd : d.root.WellNamed) (hpath : path ≠ "")
    (hsize : path.utf8ByteSize ≤ Disk.maxPath) :
    ∃ t, d.get? path = some t := by
  cases h with
  | name _ _ hthere => exact Option.isSome_iff_exists.1 hthere
  | slash hp => exact exists_get?_join_empty hp hsize
  | wildcard _ _ hentry =>
    obtain ⟨es, u, hopen, hentry⟩ := hentry
    exact ⟨u, Disk.get?_join_of_mem hd hopen hentry hsize⟩
  | here hp =>
    rcases hp with rfl | hp
    · exact absurd (join_empty_left "") hpath
    · exact exists_get?_join_empty hp hsize
  | below hbelow =>
    obtain ⟨es, u, hopen, hshows⟩ := hbelow
    exact ⟨u, get?_descend hd hopen hshows.ne_nil hshows.get?_eq hsize⟩

theorem Stands.exists_get? (h : Stands d path) (hsize : path.utf8ByteSize ≤ Disk.maxPath) :
    ∃ t, d.get? path = some t := by
  rw [Stands] at h
  split at h
  · next hbase =>
    obtain ⟨es, hes⟩ := exists_get?_of_isDirectory h
    have hdirectory := Disk.opened_of_get? hes
    obtain ⟨k, hlist, -⟩ := Path.exists_eq_directory_append path
    have hne : path ≠ "" := by
      rintro rfl
      exact Disk.ne_empty_of_get? hes (by decide)
    have hnull : '\x00' ∉ path.toList := by
      rw [hlist, hbase]
      simpa using (Disk.opened_eq_directory.1 hdirectory).1.no_null
    have hsame : d.origin path = d.origin (Path.directory path) := by
      have habs : Path.isAbsolute path = true ↔ Path.isAbsolute (Path.directory path) = true := by
        rw [← Path.rootOf_ne_empty_iff, ← Path.rootOf_ne_empty_iff, Path.rootOf_directory]
      rw [Disk.origin, Disk.origin]
      simp only [habs]
    have hcomponents : Path.components path = Path.components (Path.directory path) := by
      have hnone : Path.components "" = [] := by decide
      rw [Path.components_eq_directory, hbase, hnone, List.append_nil]
    have hopen := Disk.opened_congr hsame hcomponents ⟨hnull, hsize⟩ hdirectory
    rw [Disk.opened_of_ne_empty d hne] at hopen
    exact ⟨_, hopen⟩
  · exact Option.isSome_iff_exists.1 h

/-- What a pattern matches is there, unless its path is too long. -/
theorem Found.exists_get? (h : Found d pattern path) (hd : d.root.WellNamed)
    (hsize : path.utf8ByteSize ≤ Disk.maxPath) :
    ∃ t, d.get? path = some t := by
  obtain ⟨hpath, hmatches, hstands⟩ := h
  cases hmatches with
  | stem hplain => exact (hstands hplain).exists_get? hsize
  | step _ _ hstep => exact hstep.exists_get? hd hpath hsize

end CodeAtlas.Glob

import CodeAtlas.Proofs.Files.Walk
import CodeAtlas.Proofs.Glob.Select

/-!
# The source files are those that no pattern matches

The source files below a root are found by a walk that does not enter a directory that matches a pattern.  That is the
same as to take all files below the root and to leave out those that match a pattern themselves or are below a
directory that does, as long as every pattern can be asked.

## Main definitions

* `Files.Matches` — a name below a root matches one of some patterns
* `Files.Spared` — neither a file nor a directory on the way to it matches
* `Files.Filtered` — what the source files are to be

## Main results

* `Files.matchesPattern_eq_error` — why a pattern cannot be asked
* `Files.mem_sources_iff` — which files are source files
* `Files.sources_filtered_iff` — when the source files are those that are spared
-/

namespace CodeAtlas

open CodeAtlas.Path (descend)

namespace Files

/-! ### Patterns that cannot be asked -/

section Errors

variable {d : Disk} {path name pattern root : String} {e : Error}

theorem saysUnusable_of_matchesPath {p : Path.Pure} (h : Glob.matchesPath p pattern = .error e) :
    saysUnusable e = true := by
  rw [Glob.matchesPath] at h
  repeat' split at h
  all_goals cases h
  rfl

theorem saysUnusable_or_of_stepsOf (h : Glob.stepsOf pattern = .error e) :
    saysUnusable e = true ∨ e = .rootedPathPattern ∧ Path.isAbsolute pattern = true := by
  rcases Glob.stepsOf_eq_error h with rfl | rfl | hrooted
  · exact Or.inl rfl
  · exact Or.inl rfl
  · exact Or.inr hrooted

/-- A pattern with two stars fails because it is rooted, or because something is too long. -/
theorem matchesDeep_eq_error (h : matchesDeep d path pattern root = .error e) :
    (e = .rootedPathPattern ∧ Path.isAbsolute pattern = true) ∨ ∃ p, e = .disk .nameTooLong p := by
  rw [matchesDeep] at h
  split at h
  · cases h
  · next e' houtcome =>
    have hfails : ¬saysUnusable e' = true ∧ e' = e := by
      split at h
      · cases h
      · next husable =>
        cases h
        exact ⟨husable, rfl⟩
    obtain ⟨husable, rfl⟩ := hfails
    cases hm : Glob.matchesPath (Path.Pure.ofString path) pattern with
    | error e'' =>
      rw [hm] at houtcome
      cases houtcome
      exact absurd (saysUnusable_of_matchesPath hm) husable
    | ok b =>
      rw [hm] at houtcome
      cases b with
      | true => cases houtcome
      | false =>
        cases hs : Glob.select d (Path.Pure.ofString root) pattern with
        | error e'' =>
          replace houtcome : (Glob.select d (Path.Pure.ofString root) pattern >>= _) = _ := houtcome
          rw [hs] at houtcome
          cases houtcome
          rcases Glob.select_eq_error hs with hsteps | hlong
          · exact Or.inl ((saysUnusable_or_of_stepsOf hsteps).resolve_left husable)
          · exact Or.inr hlong
        | ok s =>
          replace houtcome : (Glob.select d (Path.Pure.ofString root) pattern >>= _) = _ := houtcome
          rw [hs] at houtcome
          exact Or.inr (Glob.nameTooLong_of_select hs (Glob.Search.failure?_of_finds houtcome))

theorem matchesPattern_eq_error {rel : String} (hrel : d.relative root path = .ok rel)
    (h : matchesPattern d path name pattern root = .error e) : Text.contains pattern "**" = true ∧
      ((e = .rootedPathPattern ∧ Path.isAbsolute pattern = true) ∨ ∃ p, e = .disk .nameTooLong p) := by
  rw [matchesPattern, hrel] at h
  replace h : (if Glob.accepts pattern name || Glob.accepts pattern rel then (pure true : Except Error Bool)
      else if Text.contains pattern "**" then matchesDeep d path pattern root else pure false) = .error e := h
  split at h
  · cases h
  · split at h
    · next hstars => exact ⟨hstars, matchesDeep_eq_error h⟩
    · cases h

end Errors

end Files

/-- Names that lead from a root to something below it. -/
def Disk.Under (d : Disk) (root : String) (names : List String) (u : Tree) : Prop :=
  names ≠ [] ∧ ∃ t, d.get? root = some t ∧ t.get? names = some u

theorem Disk.locate_of_get? {d : Disk} {root : String} {t : Tree} (h : d.get? root = some t) :
    ∃ q, d.locate root = .ok (.found q t) := by
  rw [get?] at h
  cases hlook : d.look root with
  | error e =>
    rw [hlook] at h
    cases h
  | ok found =>
    obtain ⟨q, u⟩ := found
    rw [hlook] at h
    cases h
    exact ⟨q, look_eq_ok.1 hlook⟩

theorem Disk.wellNamed_of_get? {d : Disk} {root : String} {t : Tree} (hnamed : d.root.WellNamed)
    (h : d.get? root = some t) :
    t.WellNamed := by
  obtain ⟨q, hlocate⟩ := locate_of_get? h
  obtain ⟨start, -, hleads⟩ := locate_eq_ok.1 hlocate
  exact (hnamed.of_get? hleads.get?_found).1

namespace Files

/-- Options that are all asked for by others. -/
def Skip.Among (options all : Skip) : Prop :=
  (options.tests → all.tests) ∧ (options.documentation → all.documentation) ∧
    (options.versionControl → all.versionControl)

theorem Skip.Among.patterns_subset {options all : Skip} (h : options.Among all) : options.patterns ⊆ all.patterns := by
  obtain ⟨htests, hdocumentation, hversion⟩ := h
  obtain ⟨tests, documentation, versionControl⟩ := options
  obtain ⟨tests', documentation', versionControl'⟩ := all
  intro pattern hpattern
  simp only [Skip.patterns, List.mem_append, List.mem_ite_nil_right] at hpattern ⊢
  exact hpattern.imp (Or.imp (And.imp_left htests) (And.imp_left hdocumentation)) (And.imp_left hversion)

variable (d : Disk) (patterns : List String) (root : String)

/-- A name below a root matches one of some patterns. -/
def Matches (above : List String) (name : String) : Prop :=
  ∃ pattern ∈ patterns, matchesPattern d (descend root (above ++ [name])) name pattern root = .ok true

/-- Neither what names lead to nor a directory on the way matches one of some patterns. -/
def Spared (names : List String) : Prop := ∀ above name, above ++ [name] <+: names → ¬Matches d patterns root above name

/-- The directories on the way have paths that are not too long. -/
def Opened (names : List String) : Prop :=
  ∀ above name, above ++ [name] <+: names → (descend root above).utf8ByteSize ≤ Disk.maxPath

variable {d patterns root} {skip : Skip} {ignored : List String} {t u : Tree} {names : List String} {n : String}

theorem concat_prefix_concat {above : List String} {name : String} :
    above ++ [name] <+: names ++ [n] ↔ (above = names ∧ name = n) ∨ above ++ [name] <+: names := by
  rw [List.prefix_concat_iff]
  refine or_congr_left ⟨fun heq => ?_, ?_⟩
  · obtain ⟨habove, hname⟩ := List.append_inj' heq rfl
    exact ⟨habove, List.singleton_inj.1 hname⟩
  · rintro ⟨rfl, rfl⟩
    rfl

/-- What holds on the way holds up to the last name and for the last name. -/
theorem forall_concat_prefix_concat {P : List String → String → Prop} :
    (∀ above name, above ++ [name] <+: names ++ [n] → P above name) ↔
      (∀ above name, above ++ [name] <+: names → P above name) ∧ P names n := by
  simp only [concat_prefix_concat]
  constructor
  · intro h
    exact ⟨fun above name hpre => h above name (Or.inr hpre), h names n (Or.inl ⟨rfl, rfl⟩)⟩
  · rintro ⟨hbefore, hlast⟩ above name (⟨rfl, rfl⟩ | hpre)
    · exact hlast
    · exact hbefore above name hpre

theorem spared_concat :
    Spared d patterns root (names ++ [n]) ↔ Spared d patterns root names ∧ ¬Matches d patterns root names n :=
  forall_concat_prefix_concat

theorem opened_nil (root : String) : Opened root [] := by simp [Opened]

theorem opened_concat :
    Opened root (names ++ [n]) ↔ Opened root names ∧ (descend root names).utf8ByteSize ≤ Disk.maxPath :=
  forall_concat_prefix_concat

theorem matchesAny_eq_false_iff (h : ∃ b, matchesAny d patterns root (descend root (names ++ [n])) n = .ok b) :
    matchesAny d patterns root (descend root (names ++ [n])) n = .ok false ↔ ¬Matches d patterns root names n := by
  constructor
  · rintro hfalse ⟨pattern, hpattern, hmatch⟩
    rw [anyM_eq_false.1 hfalse pattern hpattern] at hmatch
    cases hmatch
  · intro hnone
    obtain ⟨b, hb⟩ := h
    cases b with
    | false => exact hb
    | true => exact absurd (exists_of_anyM hb) hnone

theorem spared_of_kept (h : kept (matchesAny d patterns root) root names = true) :
    Spared d patterns root names ∧ Opened root names := by
  induction names using List.reverseRecOn with
  | nil => simp [Spared, Opened]
  | append_singleton names n ih =>
    obtain ⟨hkept, hsize, hfalse⟩ := kept_concat.1 h
    obtain ⟨hspared, hopened⟩ := ih hkept
    exact ⟨spared_concat.2 ⟨hspared, (matchesAny_eq_false_iff ⟨_, hfalse⟩).1 hfalse⟩, opened_concat.2 ⟨hopened, hsize⟩⟩

theorem kept_of_spared (hdecided : Decided (matchesAny d patterns root) root t) (hget : t.get? names = some u)
    (hspared : Spared d patterns root names) (hopened : Opened root names) :
    kept (matchesAny d patterns root) root names = true := by
  -- the last name is split off: that it can be asked about is known only if the walk comes to all the names before
  induction names using List.reverseRecOn generalizing u with
  | nil => rfl
  | append_singleton names n ih =>
    obtain ⟨v, hv⟩ := Tree.exists_get?_of_start hget (List.prefix_append _ _)
    obtain ⟨hspared, hnone⟩ := spared_concat.1 hspared
    obtain ⟨hopened, hsize⟩ := opened_concat.1 hopened
    have hkept := ih hv hspared hopened
    exact kept_concat.2 ⟨hkept, hsize, (matchesAny_eq_false_iff (hdecided names n u hget hkept hsize)).2 hnone⟩

theorem decided_iff : Decided (matchesAny d patterns root) root t ↔
    ∀ names n u, t.get? (names ++ [n]) = some u → Spared d patterns root names → Opened root (names ++ [n]) →
      ∃ b, matchesAny d patterns root (descend root (names ++ [n])) n = .ok b := by
  constructor
  · intro hdecided names n u hget hspared hopened
    obtain ⟨v, hv⟩ := Tree.exists_get?_of_start hget (List.prefix_append _ _)
    obtain ⟨hopened, hsize⟩ := opened_concat.1 hopened
    exact hdecided names n u hget (kept_of_spared hdecided hv hspared hopened) hsize
  · intro h names n u hget hkept hsize
    obtain ⟨hspared, hopened⟩ := spared_of_kept hkept
    exact h names n u hget hspared (opened_concat.2 ⟨hopened, hsize⟩)

/-! ### The source files below a root -/

theorem sources_of_get? (hget : d.get? root = some t) : sources d root skip ignored =
    filesBelow (matchesAny d (ignored ++ skip.patterns) root) root t := by
  obtain ⟨q, hlocate⟩ := Disk.locate_of_get? hget
  obtain ⟨start, hstart, -⟩ := Disk.locate_eq_ok.1 hlocate
  have hnull := (Disk.start?_eq_some.1 hstart).1.2.1
  rw [sources, if_neg (by simpa using hnull), hget]

theorem sources_of_get?_eq_none (hnull : '\x00' ∉ root.toList) (hget : d.get? root = none) :
    sources d root skip ignored = .ok [] := by
  rw [sources, if_neg (by simpa using hnull), hget]

theorem not_mem_of_sources {files : List String} (h : sources d root skip ignored = .ok files) :
    '\x00' ∉ root.toList := by
  intro hnull
  rw [sources, if_pos (by simpa using hnull)] at h
  cases h

theorem sources_eq_ok_iff (hnamed : d.root.WellNamed) (hget : d.get? root = some t) {files : List String} :
    sources d root skip ignored = .ok files ↔ Decided (matchesAny d (ignored ++ skip.patterns) root) root t ∧
      files = (t.fileNames.filter (kept (matchesAny d (ignored ++ skip.patterns) root) root)).map (descend root) := by
  rw [sources_of_get? hget]
  exact filesBelow_eq_ok_iff (Disk.wellNamed_of_get? hnamed hget)

/-- What the source files below a root are to be: each file that is spared once, and no others. -/
structure Filtered (d : Disk) (root : String) (skip : Skip) (ignored files : List String) : Prop where
  once : ∀ names u, d.Under root names u → u.isDirectory = false →
    Spared d (ignored ++ skip.patterns) root names → files.count (descend root names) = 1
  absent : ∀ names u, d.Under root names u → u.isDirectory = false →
    ¬Spared d (ignored ++ skip.patterns) root names → descend root names ∉ files
  under : ∀ file ∈ files, ∃ names u, d.Under root names u ∧ u.isDirectory = false ∧ file = descend root names
  removes : ∀ more, skip.Among more → ∀ fewer, sources d root more ignored = .ok fewer → fewer.Sublist files

theorem mem_sources_iff (hnamed : d.root.WellNamed) (hget : d.get? root = some t) {files : List String}
    (hfiles : sources d root skip ignored = .ok files) {names : List String} (hu : t.get? names = some u) :
    descend root names ∈ files ↔ names ≠ [] ∧ u.isDirectory = false ∧ Spared d (ignored ++ skip.patterns) root names ∧
      Opened root names := by
  have ht := Disk.wellNamed_of_get? hnamed hget
  obtain ⟨hdecided, rfl⟩ := (sources_eq_ok_iff hnamed hget).1 hfiles
  constructor
  · intro hmem
    obtain ⟨names', hnames', heq⟩ := List.mem_map.1 hmem
    obtain ⟨hfile, hkept⟩ := List.mem_filter.1 hnames'
    obtain ⟨hne, v, hv, hdirectory⟩ := (Tree.mem_fileNames_iff ht).1 hfile
    cases Path.descend_injective root (ht.names_of_get? hv) (ht.names_of_get? hu) heq
    rw [hu] at hv
    cases hv
    exact ⟨hne, hdirectory, spared_of_kept hkept⟩
  · rintro ⟨hne, hdirectory, hspared, hopened⟩
    refine List.mem_map.2 ⟨names, List.mem_filter.2 ⟨?_, kept_of_spared hdecided hu hspared hopened⟩, rfl⟩
    exact (Tree.mem_fileNames_iff ht).2 ⟨hne, u, hu, hdirectory⟩

theorem exists_of_mem_sources (hnamed : d.root.WellNamed) {files : List String}
    (hfiles : sources d root skip ignored = .ok files) {file : String} (hmem : file ∈ files) :
    ∃ names u, d.Under root names u ∧ u.isDirectory = false ∧ file = descend root names ∧
      Spared d (ignored ++ skip.patterns) root names := by
  cases hget : d.get? root with
  | none =>
    rw [sources_of_get?_eq_none (not_mem_of_sources hfiles) hget] at hfiles
    cases hfiles
    cases hmem
  | some t =>
    obtain ⟨-, rfl⟩ := (sources_eq_ok_iff hnamed hget).1 hfiles
    obtain ⟨names, hnames, rfl⟩ := List.mem_map.1 hmem
    obtain ⟨hnames, hkept⟩ := List.mem_filter.1 hnames
    obtain ⟨hne, u, hu, hfile⟩ := (Tree.mem_fileNames_iff (Disk.wellNamed_of_get? hnamed hget)).1 hnames
    exact ⟨names, u, ⟨hne, t, hget, hu⟩, hfile, rfl, (spared_of_kept hkept).1⟩

theorem nodup_sources (hnamed : d.root.WellNamed) (hget : d.get? root = some t) {files : List String}
    (hfiles : sources d root skip ignored = .ok files) : files.Nodup := by
  have ht := Disk.wellNamed_of_get? hnamed hget
  obtain ⟨-, rfl⟩ := (sources_eq_ok_iff hnamed hget).1 hfiles
  refine List.Nodup.map_on ?_ ((Tree.nodup_fileNames ht).filter _)
  intro names hnames names' hnames' heq
  obtain ⟨-, u, hu, -⟩ := (Tree.mem_fileNames_iff ht).1 (List.mem_of_mem_filter hnames)
  obtain ⟨-, v, hv, -⟩ := (Tree.mem_fileNames_iff ht).1 (List.mem_of_mem_filter hnames')
  exact Path.descend_injective root (ht.names_of_get? hu) (ht.names_of_get? hv) heq

/-- More patterns leave fewer files. -/
theorem sources_sublist (hnamed : d.root.WellNamed) (hget : d.get? root = some t) {more : Skip}
    (hmore : skip.Among more)
    {files fewer : List String} (hfiles : sources d root skip ignored = .ok files)
    (hfewer : sources d root more ignored = .ok fewer) : fewer.Sublist files := by
  obtain ⟨-, rfl⟩ := (sources_eq_ok_iff hnamed hget).1 hfiles
  obtain ⟨-, rfl⟩ := (sources_eq_ok_iff hnamed hget).1 hfewer
  -- both are filters of the same names
  refine (List.monotone_filter_right _ fun names hkept => ?_).map _
  have hfalse : ∀ path name, matchesAny d (ignored ++ more.patterns) root path name = .ok false →
      matchesAny d (ignored ++ skip.patterns) root path name = .ok false := by
    intro path name hnone
    refine anyM_eq_false.2 fun pattern hpattern => anyM_eq_false.1 hnone pattern ?_
    exact List.mem_append.2 ((List.mem_append.1 hpattern).imp_right fun hskip => hmore.patterns_subset hskip)
  exact kept_mono hfalse hkept

theorem filtered_of_opened (hnamed : d.root.WellNamed) {files : List String}
    (hfiles : sources d root skip ignored = .ok files)
    (hopened : ∀ names u, d.Under root names u → u.isDirectory = false →
      Spared d (ignored ++ skip.patterns) root names →
      Opened root names) : Filtered d root skip ignored files where
  once := by
    rintro names u hunder hfile hspared
    have hroom := hopened names u hunder hfile hspared
    obtain ⟨hne, t, hget, hu⟩ := hunder
    have hmem := (mem_sources_iff hnamed hget hfiles hu).2 ⟨hne, hfile, hspared, hroom⟩
    exact List.count_eq_one_of_mem (nodup_sources hnamed hget hfiles) hmem
  absent := by
    rintro names u ⟨-, t, hget, hu⟩ - hmatched hmem
    exact hmatched ((mem_sources_iff hnamed hget hfiles hu).1 hmem).2.2.1
  under := by
    intro file hmem
    obtain ⟨names, u, hunder, hfile, heq, -⟩ := exists_of_mem_sources hnamed hfiles hmem
    exact ⟨names, u, hunder, hfile, heq⟩
  removes := by
    intro more hmore fewer hfewer
    cases hget : d.get? root with
    | none =>
      rw [sources_of_get?_eq_none (not_mem_of_sources hfiles) hget] at hfewer
      cases hfewer
      exact List.nil_sublist _
    | some t => exact sources_sublist hnamed hget hmore hfiles hfewer

/-- When the source files below a root are those that are spared: exactly if all patterns can be asked about what the
walk comes to, and no file that is spared is in a directory whose path is too long.  A pattern cannot be asked only if
it has two stars and is rooted, or if a path or a name is too long. -/
theorem sources_filtered_iff (hnamed : d.root.WellNamed) (root : String) (skip : Skip) (ignored : List String) :
    ((∃ files, sources d root skip ignored = .ok files ∧ Filtered d root skip ignored files) ↔
      '\x00' ∉ root.toList ∧
      (∀ names n u, d.Under root (names ++ [n]) u → Spared d (ignored ++ skip.patterns) root names →
        Opened root (names ++ [n]) →
          ∃ b, matchesAny d (ignored ++ skip.patterns) root (descend root (names ++ [n])) n = .ok b) ∧
      ∀ names u, d.Under root names u → u.isDirectory = false → Spared d (ignored ++ skip.patterns) root names →
        Opened root names) ∧
    ∀ names n u e, d.Under root (names ++ [n]) u →
      matchesAny d (ignored ++ skip.patterns) root (descend root (names ++ [n])) n = .error e →
        (e = .rootedPathPattern ∧ ∃ pattern ∈ ignored ++ skip.patterns,
          Text.contains pattern "**" = true ∧ Path.isAbsolute pattern = true) ∨ ∃ p, e = .disk .nameTooLong p := by
  constructor
  · constructor
    · rintro ⟨files, hfiles, hfiltered⟩
      refine ⟨not_mem_of_sources hfiles, ?_, ?_⟩
      · rintro names n u ⟨-, t, hget, hu⟩
        exact decided_iff.1 ((sources_eq_ok_iff hnamed hget).1 hfiles).1 names n u hu
      · rintro names u hunder hfile hspared
        have hmem : descend root names ∈ files :=
          List.count_pos_iff.1 (by rw [hfiltered.once names u hunder hfile hspared]; exact Nat.one_pos)
        obtain ⟨-, t, hget, hu⟩ := hunder
        exact ((mem_sources_iff hnamed hget hfiles hu).1 hmem).2.2.2
    · rintro ⟨hnull, hanswers, hopened⟩
      have hok : ∃ files, sources d root skip ignored = .ok files := by
        cases hget : d.get? root with
        | none => exact ⟨[], sources_of_get?_eq_none hnull hget⟩
        | some t =>
          refine ⟨_, (sources_eq_ok_iff hnamed hget).2 ⟨decided_iff.2 fun names n u hu => ?_, rfl⟩⟩
          exact hanswers names n u ⟨by simp, t, hget, hu⟩
      obtain ⟨files, hfiles⟩ := hok
      exact ⟨files, hfiles, filtered_of_opened hnamed hfiles hopened⟩
  · rintro names n u e ⟨-, t, hget, hu⟩ herror
    obtain ⟨q, hlocate⟩ := Disk.locate_of_get? hget
    obtain ⟨pattern, hpattern, hfails⟩ := exists_of_anyM_eq_error herror
    have hrel := Disk.relative_descend hlocate ((Disk.wellNamed_of_get? hnamed hget).names_of_get? hu) (by simp)
    obtain ⟨hstars, ⟨rfl, hrooted⟩ | hlong⟩ := matchesPattern_eq_error hrel hfails
    · exact Or.inl ⟨rfl, pattern, hpattern, hstars, hrooted⟩
    · exact Or.inr hlong

/-- A disk with a package, which has a test beside it. -/
def packageDisk : Disk where
  root := .directory [("r", .directory
    [("pkg", .directory [("b.py", .file (.bytes []) 0)]), ("test_a.py", .file (.bytes []) 0)])]
  here := some []

theorem packageDisk_wellNamed : packageDisk.root.WellNamed := by
  refine .directory (by decide) (by decide) (List.forall_mem_singleton.2 ?_)
  refine .directory (by decide) (by decide) (List.forall_mem_cons.2 ⟨?_, List.forall_mem_singleton.2 (.file _ _)⟩)
  exact .directory (by decide) (by decide) (List.forall_mem_singleton.2 (.file _ _))

/-- Among the files of the package there is the one that is spared. -/
theorem sources_filtered_package : packageDisk.root.WellNamed ∧
    ∃ files, sources packageDisk "r" { tests := true } = .ok files ∧
      Filtered packageDisk "r" { tests := true } defaultIgnored files ∧ files = ["r/pkg/b.py"] := by
  have hfiles : sources packageDisk "r" { tests := true } = .ok ["r/pkg/b.py"] := by
    have hfound : (sources packageDisk "r" { tests := true }).toOption = some ["r/pkg/b.py"] := by decide +kernel
    cases hsources : sources packageDisk "r" { tests := true } with
    | error e =>
      rw [hsources] at hfound
      cases hfound
    | ok files =>
      rw [hsources] at hfound
      cases hfound
      rfl
  refine ⟨packageDisk_wellNamed, ["r/pkg/b.py"], hfiles, ?_, rfl⟩
  obtain ⟨files, hok, hfiltered⟩ :=
    (sources_filtered_iff packageDisk_wellNamed "r" { tests := true } defaultIgnored).1.2 (by
    refine ⟨by decide, ?_, ?_⟩
    · rintro names n u ⟨-, t, hget, hu⟩
      exact decided_iff.1 ((sources_eq_ok_iff packageDisk_wellNamed hget).1 hfiles).1 names n u hu
    · rintro names u ⟨hne, t, hget, hu⟩ hfile -
      have hnames : (packageDisk.get? "r").map Tree.fileNames = some [["test_a.py"], ["pkg", "b.py"]] := by
        decide +kernel
      have hmem := (Tree.mem_fileNames_iff (Disk.wellNamed_of_get? packageDisk_wellNamed hget)).2 ⟨hne, u, hu, hfile⟩
      rw [hget, Option.map_some, Option.some_inj] at hnames
      rw [hnames, List.mem_pair] at hmem
      rcases hmem with rfl | rfl
      · exact opened_concat.2 ⟨opened_nil "r", by decide⟩
      · exact opened_concat.2 ⟨opened_concat.2 ⟨opened_nil "r", by decide⟩, by decide⟩)
  rw [hfiles] at hok
  cases hok
  exact hfiltered

/-- A rooted pattern with two stars leaves no files at all. -/
theorem sources_rooted_pattern : ¬∃ files, sources packageDisk "r" {} ["/**"] = .ok files ∧
    Filtered packageDisk "r" {} ["/**"] files := by
  rintro ⟨files, hfiles, -⟩
  have hnone : (sources packageDisk "r" {} ["/**"]).toOption = none := by decide +kernel
  rw [hfiles] at hnone
  cases hnone

end Files

end CodeAtlas

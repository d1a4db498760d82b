import CodeAtlas.Proofs.Files.Forms

/-!
# What skip options leave out

The patterns of the skip options leave out what they are for at every depth, and something else too: a file may be
left out because a star stands for several names at once, or because the root itself has the name of a directory that
is skipped.

## Main definitions

* `Files.Formed` — a pattern that has a form
* `Files.Covered` — names that a pattern is for
* `Files.LeavesOutCovered` — only files that a pattern is for are left out

## Main results

* `Files.sources_reach_every_depth` — what patterns of the options are for is left out
* `Files.exists_sources_not_mem_iff` — which files are left out
* `Files.sources_leavesOutCovered_iff` — when only files are left out that a pattern is for
-/

namespace CodeAtlas

open CodeAtlas.Path (Pure descend)
open CodeAtlas.Glob (IsPart accepts hasWildcard)

namespace Files

variable {d : Disk} {root : String} {names : List String} {es : List (String × Tree)} {t u : Tree} {skip : Skip}
  {ignored patterns : List String} {pattern : String}

/-! ### The patterns of the options -/

/-- A pattern that has a form. -/
def Formed (pattern : String) : Prop := (Form.ofText pattern).Valid ∧ (Form.ofText pattern).text = pattern

instance (pattern : String) : Decidable (Formed pattern) := inferInstanceAs (Decidable (_ ∧ _))

theorem formed_iff : Formed pattern ↔ ∃ form : Form, form.Valid ∧ form.text = pattern := by
  constructor
  · rintro ⟨hvalid, htext⟩
    exact ⟨_, hvalid, htext⟩
  · rintro ⟨form, hvalid, rfl⟩
    rw [Formed, Form.ofText_text hvalid]
    exact ⟨hvalid, rfl⟩

theorem patterns_subset_all (skip : Skip) : skip.patterns ⊆ Skip.patterns ⟨true, true, true⟩ :=
  Skip.Among.patterns_subset ⟨fun _ => rfl, fun _ => rfl, fun _ => rfl⟩

theorem formed_patterns (skip : Skip) : ∀ pattern ∈ skip.patterns, Formed pattern := by
  have hall : ∀ pattern ∈ Skip.patterns ⟨true, true, true⟩, Formed pattern := by decide +kernel
  exact fun pattern hpattern => hall pattern (patterns_subset_all skip hpattern)

theorem formed_append (hignored : ∀ pattern ∈ ignored, Formed pattern) (skip : Skip) :
    ∀ pattern ∈ ignored ++ skip.patterns, Formed pattern :=
  List.forall_mem_append.2 ⟨hignored, formed_patterns skip⟩

/-! ### Which files are left out -/

theorem opened_of_roomy (hroom : Disk.Roomy root t) (hget : t.get? names = some u) : Opened root names := by
  rintro above name ⟨rest, rfl⟩
  rw [List.append_assoc] at hget
  obtain ⟨es, hes⟩ := Tree.exists_directory_of_append hget (by simp)
  have hsize := hroom above es hes
  omega

theorem exists_sources (hnamed : d.root.WellNamed) (hroot : d.get? root = some (.directory es))
    (hroom : Disk.Roomy root (.directory es)) (hignored : ∀ pattern ∈ ignored, Formed pattern) (skip : Skip) :
    ∃ files, sources d root skip ignored = .ok files := by
  obtain ⟨q, hlocate⟩ := Disk.locate_of_get? hroot
  refine ⟨_, (sources_eq_ok_iff hnamed hroot).2 ⟨decided_iff.2 fun names n u hget _ _ => ?_, rfl⟩⟩
  refine exists_anyM fun pattern hpattern => ?_
  obtain ⟨form, hform, rfl⟩ := formed_iff.1 (formed_append hignored skip pattern hpattern)
  exact exists_matchesPattern_text hlocate (Disk.wellNamed_of_get? hnamed hroot) hroom hform hget

section Leaves

variable (hnamed : d.root.WellNamed) (hroot : d.get? root = some (.directory es))
  (hget : (Tree.directory es).get? names = some u) (hfile : u.isDirectory = false) (hne : names ≠ [])

include hnamed hroot hget hfile hne

theorem not_spared_of_form {form : Form} (hform : form.Valid) (hpattern : form.text ∈ patterns)
    (h : form.Covers names ∨ form.Strays root names) : ¬Spared d patterns root names := by
  obtain ⟨q, hlocate⟩ := Disk.locate_of_get? hroot
  have ht := Disk.wellNamed_of_get? hnamed hroot
  obtain ⟨above, n, hpre, hmatch⟩ := (exists_matches_iff hlocate ht hget hform hfile hne).2 h
  exact fun hspared => hspared above n hpre ⟨form.text, hpattern, hmatch⟩

theorem not_spared_iff (hpatterns : ∀ pattern ∈ patterns, Formed pattern) : ¬Spared d patterns root names ↔
    ∃ form : Form, form.Valid ∧ form.text ∈ patterns ∧ (form.Covers names ∨ form.Strays root names) := by
  obtain ⟨q, hlocate⟩ := Disk.locate_of_get? hroot
  have ht := Disk.wellNamed_of_get? hnamed hroot
  constructor
  · intro h
    simp only [Spared, Matches, not_forall, not_not] at h
    obtain ⟨above, n, hpre, pattern, hpattern, hmatch⟩ := h
    obtain ⟨form, hform, rfl⟩ := formed_iff.1 (hpatterns pattern hpattern)
    exact ⟨form, hform, hpattern, (exists_matches_iff hlocate ht hget hform hfile hne).1 ⟨above, n, hpre, hmatch⟩⟩
  · rintro ⟨form, hform, hpattern, hmatch⟩
    exact not_spared_of_form hnamed hroot hget hfile hne hform hpattern hmatch

end Leaves

/-! ### Every depth -/

/-- A directory with a program, tests, and something that is called after a test. -/
def testData : Tree :=
  .directory [("main.py", .file (.bytes []) 0), ("test_data", .directory [("foo.py", .file (.bytes []) 0)]),
    ("tests", .directory [("foo.py", .file (.bytes []) 0)])]

/-- A disk with such a directory. -/
def testsDisk : Disk where
  root := .directory [("x", testData)]
  here := some []

theorem testsDisk_wellNamed : testsDisk.root.WellNamed := by
  have hfile : Tree.WellNamed (.directory [("foo.py", .file (.bytes []) 0)]) :=
    .directory (by decide) (by decide) (List.forall_mem_singleton.2 (.file _ _))
  refine .directory (by decide) (by decide) (List.forall_mem_singleton.2 ?_)
  refine .directory (by decide) (by decide) (List.forall_mem_cons.2 ⟨.file _ _, ?_⟩)
  exact List.forall_mem_cons.2 ⟨hfile, List.forall_mem_singleton.2 hfile⟩

theorem formed_defaultIgnored : ∀ pattern ∈ defaultIgnored, Formed pattern := by decide +kernel

theorem valid_of_anywhere_mem {part : String} (h : Glob.anywhere part ∈ skip.patterns) :
    (Form.anywhere part).Valid ∨ ∃ name, part = name ++ "/**" ∧ (Form.inside name).Valid := by
  obtain ⟨form, hform, htext⟩ := formed_iff.1 (formed_patterns skip _ h)
  cases form with
  | plain pattern =>
    have hstars : Text.contains pattern "**" = true :=
      (congrArg (Text.contains · "**") htext).trans (Glob.contains_two_stars part)
    rw [show Text.contains pattern "**" = false from hform] at hstars
    cases hstars
  | anywhere part' =>
    cases (String.append_right_inj _).1 htext
    exact Or.inl hform
  | inside name => exact Or.inr ⟨name, ((String.append_right_inj _).1 htext).symm, hform⟩

theorem valid_of_inside_mem {name : String} (h : Glob.inside name ∈ skip.patterns) : (Form.inside name).Valid := by
  rcases valid_of_anywhere_mem (show Glob.anywhere (name ++ "/**") ∈ skip.patterns from h) with hpart | ⟨name', heq,
    hname⟩
  · exact absurd (by simp) hpart.no_slash
  · cases (String.append_left_inj _).1 heq
    exact hname

/-- The patterns of the skip options reach every depth: no source file has a name, or is below a directory with a
name, that a pattern for names is for, and none is inside a directory that is skipped.  If there is room for the paths
and the other patterns have forms, then there is a result. -/
theorem sources_reach_every_depth (hnamed : d.root.WellNamed) (hroot : d.get? root = some (.directory es)) (skip : Skip)
    (ignored : List String) :
    (∀ files, sources d root skip ignored = .ok files → ∀ file ∈ files, ∃ names u,
      d.Under root names u ∧ u.isDirectory = false ∧ file = descend root names ∧
      (∀ part, "**/" ++ part ∈ skip.patterns → ∀ n ∈ names, accepts part n = false) ∧
      ∀ name, "**/" ++ (name ++ "/**") ∈ skip.patterns → name ∉ names.dropLast) ∧
    (Disk.Roomy root (.directory es) → (∀ pattern ∈ ignored, Formed pattern) →
      ∃ files, sources d root skip ignored = .ok files) := by
  refine ⟨fun files hfiles file hmem => ?_, fun hroom hignored => exists_sources hnamed hroot hroom hignored skip⟩
  obtain ⟨names, u, hunder, hfile, rfl, hspared⟩ := exists_of_mem_sources hnamed hfiles hmem
  obtain ⟨hne, t, hget, hu⟩ := hunder
  cases hroot.symm.trans hget
  have hcovers : ∀ {form : Form}, form.Valid → form.text ∈ skip.patterns → ¬form.Covers names := by
    intro form hform hpattern hcovers
    exact not_spared_of_form hnamed hroot hu hfile hne hform (List.mem_append_right _ hpattern) (Or.inl hcovers) hspared
  refine ⟨names, u, ⟨hne, _, hroot, hu⟩, hfile, rfl, fun part hpart n hn => ?_, fun name hname => ?_⟩
  · rw [← Bool.not_eq_true]
    intro haccepts
    rcases valid_of_anywhere_mem hpart with hvalid | ⟨name, rfl, hvalid⟩
    · exact hcovers hvalid hpart ⟨n, hn, haccepts⟩
    · -- a name has no slash
      obtain ⟨back, rfl, hback⟩ := (Glob.accepts_literal_append hvalid.2 _ _).1 haccepts
      obtain ⟨rest, rfl, -⟩ := (Glob.accepts_literal_append (show hasWildcard "/" = false by decide) "**" _).1 hback
      exact absurd (by simp) ((Disk.wellNamed_of_get? hnamed hroot).names_of_get? hu _ hn).2
  · exact hcovers (valid_of_inside_mem hname) hname

/-- What is left of the tests on a disk. -/
theorem sources_reach_tests : testsDisk.root.WellNamed ∧ ∃ files, sources testsDisk "." { tests := true } = .ok files ∧
    ∀ file ∈ files, ∃ names, file = descend "." names ∧ "tests" ∉ names.dropLast ∧
      ∀ n ∈ names, accepts "test_*.py" n = false := by
  have hroot : testsDisk.get? "." = some testsDisk.root := rfl
  obtain ⟨hreach, hexists⟩ := sources_reach_every_depth testsDisk_wellNamed hroot { tests := true } defaultIgnored
  obtain ⟨files, hfiles⟩ := hexists ((Disk.roomy_iff testsDisk_wellNamed).2 (by decide +kernel)) formed_defaultIgnored
  refine ⟨testsDisk_wellNamed, files, hfiles, fun file hmem => ?_⟩
  obtain ⟨names, -, -, -, rfl, hnames, hdirectories⟩ := hreach files hfiles file hmem
  exact ⟨names, rfl, hdirectories "tests" (by decide), hnames "test_*.py" (by decide)⟩

/-! ### Nothing else -/

/-- A form whose pattern matches several names at once only if it matches one of them. -/
def Form.OneSided : Form → Prop
  | plain pattern => Glob.OneSided pattern
  | anywhere part => Glob.OneSided part
  | inside _ => False

instance (form : Form) : Decidable form.OneSided :=
  match form with
  | .plain pattern => inferInstanceAs (Decidable (Glob.OneSided pattern))
  | .anywhere part => inferInstanceAs (Decidable (Glob.OneSided part))
  | .inside _ => inferInstanceAs (Decidable False)

theorem Form.OneSided.covers {form : Form} (h : form.OneSided) (hnames : ∀ c ∈ names, '/' ∉ c.toList)
    (hstrays : form.Strays root names) : form.Covers names := by
  have hmem : ∀ {pattern : String} {xs : List String}, Glob.OneSided pattern → xs ⊆ names → 2 ≤ xs.length →
      accepts pattern (Text.joined "/" xs) = true → ∃ n ∈ names, accepts pattern n = true := by
    intro pattern xs hpattern hxs hlength haccepts
    have hne : xs ≠ [] := by
      rintro rfl
      cases hlength
    obtain ⟨n, hn, haccepts⟩ := hpattern.exists_mem hne (fun c hc => hnames c (hxs hc)) haccepts
    exact ⟨n, hxs hn, haccepts⟩
  cases form with
  | plain pattern =>
    obtain ⟨xs, hpre, hlength, haccepts⟩ := hstrays
    exact hmem h hpre.subset hlength haccepts
  | anywhere part =>
    obtain ⟨xs, hwithin, hlength, haccepts⟩ := hstrays
    exact hmem h (fun c hc => List.mem_of_mem_tail (hwithin.subset hc)) hlength haccepts
  | inside name => exact h.elim

/-- The patterns that may stray: one for tests, and those for the inside of directories. -/
def Form.MayStray : Form → Prop
  | plain _ => False
  | anywhere part => part = "test_*.py"
  | inside _ => True

instance (form : Form) : Decidable form.MayStray :=
  match form with
  | .plain _ => inferInstanceAs (Decidable False)
  | .anywhere part => inferInstanceAs (Decidable (part = _))
  | .inside _ => inferInstanceAs (Decidable True)

theorem oneSided_or_mayStray {form : Form} (hform : form.Valid)
    (hpattern : form.text ∈ defaultIgnored ++ skip.patterns) :
    form.OneSided ∨ form.MayStray := by
  have hall : ∀ pattern ∈ defaultIgnored ++ Skip.patterns ⟨true, true, true⟩,
      (Form.ofText pattern).OneSided ∨ (Form.ofText pattern).MayStray := by
    decide +kernel
  have hread := hall form.text (List.mem_append.2 ((List.mem_append.1 hpattern).imp_right fun hskip =>
    patterns_subset_all skip hskip))
  rwa [Form.ofText_text hform] at hread

/-- Names that a pattern is for. -/
def Covered (patterns names : List String) : Prop :=
  ∃ form : Form, form.Valid ∧ form.text ∈ patterns ∧ form.Covers names

/-- Only files that a pattern is for are left out of the source files. -/
def LeavesOutCovered (d : Disk) (root : String) (skip : Skip) (ignored : List String) : Prop :=
  ∃ files, sources d root skip ignored = .ok files ∧ ∀ names u, d.Under root names u → u.isDirectory = false →
    descend root names ∉ files → Covered (ignored ++ skip.patterns) names

theorem exists_sources_not_mem_iff (hnamed : d.root.WellNamed) (hroot : d.get? root = some (.directory es))
    (hroom : Disk.Roomy root (.directory es)) (hignored : ∀ pattern ∈ ignored, Formed pattern) (skip : Skip) :
    ∃ files, sources d root skip ignored = .ok files ∧ ∀ names u, d.Under root names u → u.isDirectory = false →
      (descend root names ∉ files ↔ ∃ form : Form, form.Valid ∧ form.text ∈ ignored ++ skip.patterns ∧
        (form.Covers names ∨ form.Strays root names)) := by
  obtain ⟨files, hfiles⟩ := exists_sources hnamed hroot hroom hignored skip
  refine ⟨files, hfiles, ?_⟩
  rintro names u ⟨hne, t, hget, hu⟩ hfile
  cases hroot.symm.trans hget
  rw [← not_spared_iff hnamed hroot hu hfile hne (formed_append hignored skip), mem_sources_iff hnamed hroot hfiles hu]
  constructor
  · intro hout hspared
    exact hout ⟨hne, hfile, hspared, opened_of_roomy hroom hu⟩
  · intro hmatched hkept
    exact hmatched hkept.2.2.1

/-- Where only files that a pattern is for are left out, those that a pattern strays to are left out by another one
too. -/
theorem LeavesOutCovered.covered (h : LeavesOutCovered d root skip ignored) (hnamed : d.root.WellNamed)
    (hroot : d.get? root = some (.directory es)) (hroom : Disk.Roomy root (.directory es))
    (hignored : ∀ pattern ∈ ignored, Formed pattern) (hunder : d.Under root names u) (hfile : u.isDirectory = false)
    {form : Form} (hform : form.Valid) (hpattern : form.text ∈ ignored ++ skip.patterns)
    (hstrays : form.Strays root names) :
    Covered (ignored ++ skip.patterns) names := by
  obtain ⟨files, hfiles, hcovered⟩ := h
  obtain ⟨files', hfiles', hout⟩ := exists_sources_not_mem_iff hnamed hroot hroom hignored skip
  cases hfiles.symm.trans hfiles'
  exact hcovered names u hunder hfile ((hout names u hunder hfile).2 ⟨form, hform, hpattern, Or.inr hstrays⟩)

/-- When only files that a pattern is for are left out: exactly if all files that a pattern strays to are left out by
another one anyway.  A pattern strays to a file if it matches several names on the way to it at once, or if it is one
for the inside of directories and the root has their name.  Of the patterns that there are by default and those of the
options one for tests and those for the inside of directories may stray, and no others. -/
theorem sources_leavesOutCovered_iff (hnamed : d.root.WellNamed) (hroot : d.get? root = some (.directory es))
    (hroom : Disk.Roomy root (.directory es)) (hignored : ∀ pattern ∈ ignored, Formed pattern) (skip : Skip) :
    (LeavesOutCovered d root skip ignored ↔ ∀ names u, d.Under root names u → u.isDirectory = false → ∀ form : Form,
      form.Valid → form.text ∈ ignored ++ skip.patterns → form.Strays root names →
        Covered (ignored ++ skip.patterns) names) ∧
    (∃ files, sources d root skip ignored = .ok files ∧ ∀ names u, d.Under root names u → u.isDirectory = false →
      (descend root names ∉ files ↔ ∃ form : Form, form.Valid ∧ form.text ∈ ignored ++ skip.patterns ∧
        (form.Covers names ∨ form.Strays root names))) ∧
    ∀ names u, d.Under root names u → ∀ form : Form, form.Valid → form.text ∈ defaultIgnored ++ skip.patterns →
      form.Strays root names → form.Covers names ∨ form.MayStray := by
  have hleft := exists_sources_not_mem_iff hnamed hroot hroom hignored skip
  refine ⟨⟨fun h names u hunder hfile form => h.covered hnamed hroot hroom hignored hunder hfile,
    fun hstrays => ?_⟩, hleft, ?_⟩
  · obtain ⟨files, hfiles, hout⟩ := hleft
    refine ⟨files, hfiles, fun names u hunder hfile hnot => ?_⟩
    obtain ⟨form, hform, hpattern, hcovers | hstray⟩ := (hout names u hunder hfile).1 hnot
    · exact ⟨form, hform, hpattern, hcovers⟩
    · exact hstrays names u hunder hfile form hform hpattern hstray
  · rintro names u ⟨-, t, hget, hu⟩ form hform hpattern hstrays
    have hslashes : ∀ c ∈ names, '/' ∉ c.toList := fun c hc =>
      ((Disk.wellNamed_of_get? hnamed hget).names_of_get? hu c hc).2
    exact (oneSided_or_mayStray hform hpattern).imp_left fun honeSided => honeSided.covers hslashes hstrays

/-- The data of a test are not left out as long as they are directly below the root. -/
theorem sources_leavesOutCovered_testData : testsDisk.root.WellNamed ∧
    LeavesOutCovered testsDisk "x" { tests := true } defaultIgnored := by
  have hroot : testsDisk.get? "x" = some testData := rfl
  have ht : testData.WellNamed := Disk.wellNamed_of_get? testsDisk_wellNamed hroot
  obtain ⟨hiff, -, hmay⟩ := sources_leavesOutCovered_iff testsDisk_wellNamed hroot
    ((Disk.roomy_iff ht).2 (by decide +kernel)) formed_defaultIgnored { tests := true }
  refine ⟨testsDisk_wellNamed, hiff.2 ?_⟩
  rintro names u hunder hfile form hform hpattern hstrays
  rcases hmay names u hunder form hform hpattern hstrays with hcovers | hmay
  · exact ⟨form, hform, hpattern, hcovers⟩
  · cases form with
    | plain => exact hmay.elim
    | anywhere part =>
      obtain ⟨hne, t, hget, hu⟩ := hunder
      cases hget
      have hnames : names ∈ testData.fileNames := (Tree.mem_fileNames_iff ht).2 ⟨hne, u, hu, hfile⟩
      have hshort : ∀ names ∈ testData.fileNames, names.tail.length < 2 := by decide
      obtain ⟨xs, hwithin, hlength, -⟩ := hstrays
      exact absurd (hwithin.length_le.trans_lt (hshort names hnames)) (Nat.not_lt.2 hlength)
    | inside name =>
      obtain ⟨front, w, hparts⟩ := hstrays
      have hlength := congrArg List.length hparts
      rw [List.length_append, show (Pure.ofString "x").allParts.length = 1 by decide] at hlength
      exact absurd hlength (by simp)

/-- A file below a root that is called tests is left out for the name of the root, and one among the data of a test
because a star stands for two names at once. -/
theorem sources_leave_out_others : ¬LeavesOutCovered testsDisk "x/tests" { tests := true } defaultIgnored ∧
    ¬LeavesOutCovered testsDisk "." { tests := true } defaultIgnored := by
  have hnone : ∀ names ∈ [["foo.py"], ["x", "test_data", "foo.py"]],
      ¬Covered (defaultIgnored ++ Skip.patterns { tests := true }) names := by
    rintro names hnames ⟨form, hform, hpattern, hcovers⟩
    have hall : ∀ names ∈ [["foo.py"], ["x", "test_data", "foo.py"]],
        ∀ pattern ∈ defaultIgnored ++ Skip.patterns { tests := true }, ¬(Form.ofText pattern).Covers names := by
      decide +kernel
    rw [← Form.ofText_text hform] at hcovers
    exact hall names hnames form.text hpattern hcovers
  constructor
  · intro h
    have hroot : testsDisk.get? "x/tests" = some (.directory [("foo.py", .file (.bytes []) 0)]) := rfl
    have hroom : Disk.Roomy "x/tests" _ :=
      (Disk.roomy_iff (Disk.wellNamed_of_get? testsDisk_wellNamed hroot)).2 (by decide)
    have hstrays : (Form.inside "tests").Strays "x/tests" ["foo.py"] := ⟨[], "x", by decide⟩
    exact hnone ["foo.py"] (by simp) (h.covered testsDisk_wellNamed hroot hroom formed_defaultIgnored
      ⟨by simp, _, hroot, rfl⟩ rfl (by decide) (by decide) hstrays)
  · intro h
    have hroot : testsDisk.get? "." = some testsDisk.root := rfl
    have hroom : Disk.Roomy "." _ := (Disk.roomy_iff testsDisk_wellNamed).2 (by decide)
    have hstrays : (Form.anywhere "test_*.py").Strays "." ["x", "test_data", "foo.py"] :=
      ⟨["test_data", "foo.py"], List.suffix_rfl.isInfix, by simp, by decide⟩
    exact hnone ["x", "test_data", "foo.py"] (by simp) (h.covered testsDisk_wellNamed hroot hroom formed_defaultIgnored
      ⟨by simp, _, hroot, rfl⟩ rfl (by decide) (by decide) hstrays)

end Files

end CodeAtlas

import CodeAtlas.Files.Root
import CodeAtlas.Proofs.Disk.Place
import CodeAtlas.Proofs.Listing

/-!
# The deepest common root

Paths as seen from the root are lists of components, and what is a start of all of them is a start of their common
start.  So the common start is the deepest path that is above all the given ones or is one of them.
-/

namespace CodeAtlas

open CodeAtlas.Path (Pure IsName descend)

namespace Files

variable {d : Disk} {paths : List String}

/-! ### The common start -/

theorem prefix_commonStart_iff {xs as bs : List String} : xs <+: commonStart as bs ↔ xs <+: as ∧ xs <+: bs := by
  induction as generalizing xs bs with
  | nil =>
    rw [commonStart]
    · simp +contextual [List.prefix_nil]
    · simp
  | cons a as ih =>
    cases bs with
    | nil =>
      rw [commonStart]
      · simp +contextual [List.prefix_nil]
      · simp
    | cons b bs =>
      rw [commonStart]
      cases xs with
      | nil => simp
      | cons x xs =>
        split
        · next hab =>
          rw [List.cons_prefix_cons, List.cons_prefix_cons, List.cons_prefix_cons, ih, beq_iff_eq.1 hab]
          tauto
        · next hab =>
          refine iff_of_false (by simp) ?_
          rintro ⟨ha, hb⟩
          rw [List.cons_prefix_cons] at ha hb
          exact hab (beq_iff_eq.2 (ha.1.symm.trans hb.1))

/-- What is a start of all lists is a start of their common start. -/
theorem prefix_commonStartOf_iff {xs : List String} {lists : List (List String)} (hne : lists ≠ []) :
    xs <+: commonStartOf lists ↔ ∀ l ∈ lists, xs <+: l := by
  obtain ⟨first, rest, rfl⟩ := List.exists_cons_of_ne_nil hne
  rw [commonStartOf, List.forall_mem_cons]
  clear hne
  induction rest generalizing first with
  | nil => simp
  | cons l rest ih => rw [List.foldl_cons, ih, prefix_commonStart_iff, List.forall_mem_cons, and_assoc]

/-- A path is another one or above it. -/
def AtOrAbove (r a : String) : Prop := (Pure.ofString r).allParts <+: (Pure.ofString a).allParts

section Names

variable {names : String → List String} (hne : paths ≠ [])
  (hnames : ∀ p ∈ paths, ∀ c ∈ names p, IsName c ∧ '/' ∉ c.toList)
  (habsolute : ∀ p ∈ paths, d.absolute p = .ok (descend "/" (names p)))

theorem commonStartOf_eq_of_mem {lists lists' : List (List String)} (hne : lists ≠ [])
    (hsame : ∀ l, l ∈ lists' ↔ l ∈ lists) :
    commonStartOf lists' = commonStartOf lists := by
  have hne' : lists' ≠ [] := by
    obtain ⟨l, hl⟩ := List.exists_mem_of_ne_nil _ hne
    exact List.ne_nil_of_mem ((hsame l).2 hl)
  have hpre : commonStartOf lists' <+: commonStartOf lists :=
    (prefix_commonStartOf_iff hne).2 fun l hl => (prefix_commonStartOf_iff hne').1 List.prefix_rfl l ((hsame l).2 hl)
  have hpre' : commonStartOf lists <+: commonStartOf lists' :=
    (prefix_commonStartOf_iff hne').2 fun l hl => (prefix_commonStartOf_iff hne).1 List.prefix_rfl l ((hsame l).1 hl)
  exact hpre.eq_of_length_le hpre'.length_le

include hne in
theorem exists_commonStartOf_cons (names : String → List String) :
    ∃ rest, commonStartOf (paths.map fun p => "/" :: names p) = "/" :: rest ∧
    ∀ p ∈ paths, rest <+: names p := by
  have hlists : paths.map (fun p => "/" :: names p) ≠ [] := by simpa using hne
  have hslash : ["/"] <+: commonStartOf (paths.map fun p => "/" :: names p) := by
    refine (prefix_commonStartOf_iff hlists).2 fun l hl => ?_
    obtain ⟨p, -, rfl⟩ := List.mem_map.1 hl
    exact ⟨names p, rfl⟩
  obtain ⟨rest, hrest⟩ := hslash
  refine ⟨rest, hrest.symm, fun p hp => ?_⟩
  have hpre := (prefix_commonStartOf_iff hlists).1 List.prefix_rfl _ (List.mem_map.2 ⟨p, hp, rfl⟩)
  rw [← hrest] at hpre
  exact (List.cons_prefix_cons.1 hpre).2

include hnames habsolute in
theorem commonRoot_eq (hne : paths ≠ []) {rest : List String}
    (hrest : commonStartOf (paths.map fun p => "/" :: names p) = "/" :: rest) : commonRoot d paths =
      .ok (if d.isFile (descend "/" rest) = true then Path.directory (descend "/" rest) else descend "/" rest) := by
  have hfull : paths.mapM d.absolute = .ok (paths.map fun p => descend "/" (names p)) := by
    rw [Listing.mapM_eq_ok, List.forall₂_map_right_iff, List.forall₂_same]
    exact habsolute
  have hparts : (paths.map fun p => descend "/" (names p)).map (fun p => (Pure.ofString p).allParts) =
      paths.map fun p => "/" :: names p := by
    rw [List.map_map]
    exact List.map_congr_left fun p hp => Path.allParts_descend_slash (hnames p hp)
  rw [commonRoot, if_neg (by simpa using hne), hfull]
  dsimp only [bind, Except.bind]
  rw [hparts, hrest]
  rfl

end Names

/-- What is left of the common start: all of it, unless it is a file. -/
theorem exists_names_of_root {rest : List String} (hvalid : ∀ c ∈ rest, IsName c ∧ '/' ∉ c.toList) :
    ∃ xs, xs <+: rest ∧ (xs = rest ∨ rest.length = xs.length + 1 ∧ d.isFile (descend "/" rest) = true) ∧
      (if d.isFile (descend "/" rest) = true then Path.directory (descend "/" rest) else descend "/" rest) =
        descend "/" xs := by
  by_cases hfile : d.isFile (descend "/" rest) = true
  · rw [if_pos hfile]
    rcases List.eq_nil_or_concat rest with rfl | ⟨xs, n, rfl⟩
    · exact ⟨[], List.prefix_rfl, Or.inl rfl, by decide⟩
    · rw [List.concat_eq_append] at hvalid hfile ⊢
      refine ⟨xs, List.prefix_append _ _, Or.inr ⟨by simp, hfile⟩, ?_⟩
      exact Path.directory_descend_slash (fun c hc => hvalid c (List.mem_append_left _ hc)) (hvalid n (by simp))
  · exact ⟨rest, List.prefix_rfl, Or.inl rfl, if_neg hfile⟩

/-- The common root of paths is the deepest path that all of them are or are below, or the directory of a file that is
that path.  It depends on which paths there are, but neither on their order nor on how often there is each. -/
theorem commonRoot_deepest (hd : d.NamedHere) (hne : paths ≠ [])
    (hpaths : ∀ p ∈ paths, Path.rootOf p ≠ "//" ∧ (Path.isAbsolute p = true ∨ d.here.isSome = true)) :
    ∃ r, commonRoot d paths = .ok r ∧ (∀ p ∈ paths, ∃ a, d.absolute p = .ok a ∧ AtOrAbove r a) ∧
      (∀ q, Path.normalize q = q → (∀ p ∈ paths, ∀ a, d.absolute p = .ok a → AtOrAbove q a) →
        (Pure.ofString r).allParts.length < (Pure.ofString q).allParts.length → d.isFile q = true) ∧
      ∀ paths', (∀ p, p ∈ paths' ↔ p ∈ paths) → commonRoot d paths' = .ok r := by
  choose! names hnames habsolute using fun p hp => Disk.exists_absolute hd (hpaths p hp).1 (hpaths p hp).2
  obtain ⟨rest, hrest, hstart⟩ := exists_commonStartOf_cons hne names
  have hvalid : ∀ c ∈ rest, IsName c ∧ '/' ∉ c.toList := by
    obtain ⟨p, hp⟩ := List.exists_mem_of_ne_nil _ hne
    exact fun c hc => hnames p hp c ((hstart p hp).subset hc)
  obtain ⟨xs, hxs, hdepth, hroot⟩ := exists_names_of_root (d := d) hvalid
  have hparts : (Pure.ofString (descend "/" xs)).allParts = "/" :: xs :=
    Path.allParts_descend_slash fun c hc => hvalid c (hxs.subset hc)
  refine ⟨_, commonRoot_eq hnames habsolute hne hrest, ?_, ?_, ?_⟩
  · intro p hp
    refine ⟨_, habsolute p hp, ?_⟩
    rw [hroot, AtOrAbove, hparts, Path.allParts_descend_slash (hnames p hp)]
    exact List.cons_prefix_cons.2 ⟨rfl, hxs.trans (hstart p hp)⟩
  · -- a path above all of them is a start of the common start
    intro q hnormal hq hdeeper
    have hcommon : (Pure.ofString q).allParts <+: "/" :: rest := by
      rw [← hrest, prefix_commonStartOf_iff (by simpa using hne)]
      intro l hl
      obtain ⟨p, hp, rfl⟩ := List.mem_map.1 hl
      have hat := hq p hp _ (habsolute p hp)
      rwa [AtOrAbove, Path.allParts_descend_slash (hnames p hp)] at hat
    have hlength := hcommon.length_le
    rw [hroot, hparts] at hdeeper
    rcases hdepth with rfl | ⟨hrestLength, hfile⟩
    · exact absurd hlength (Nat.not_le.2 hdeeper)
    · -- one component more is the whole common start
      have hwhole : (Pure.ofString q).allParts = "/" :: rest := by
        apply hcommon.eq_of_length_le
        rw [List.length_cons] at hdeeper ⊢
        omega
      rw [← Path.eq_descend_of_allParts hnormal hwhole] at hfile
      exact hfile
  · intro paths' hsame
    have hne' : paths' ≠ [] := by
      obtain ⟨p, hp⟩ := List.exists_mem_of_ne_nil _ hne
      exact List.ne_nil_of_mem ((hsame p).2 hp)
    refine commonRoot_eq (fun p hp => hnames p ((hsame p).1 hp)) (fun p hp => habsolute p ((hsame p).1 hp)) hne' ?_
    rw [← hrest]
    refine commonStartOf_eq_of_mem (by simpa using hne) fun l => ?_
    simp only [List.mem_map, hsame]

/-- A disk with one file, and paths that lead to it. -/
def fileDisk : Disk where
  root := .directory [("a", .directory [("b", .directory [("c.txt", .file (.bytes []) 0)])])]
  here := some ["a"]

/-- The common root of paths to one file is the directory that it is in. -/
theorem commonRoot_deepest_file : fileDisk.NamedHere ∧ ∃ r, commonRoot fileDisk ["b/c.txt", "/a//b/./c.txt"] = .ok r ∧
    (commonRoot fileDisk ["b/c.txt", "/a//b/./c.txt"]).toOption = some "/a/b" ∧
      (∀ q, Path.normalize q = q →
        (∀ p ∈ ["b/c.txt", "/a//b/./c.txt"], ∀ a, fileDisk.absolute p = .ok a → AtOrAbove q a) →
        (Pure.ofString r).allParts.length < (Pure.ofString q).allParts.length → fileDisk.isFile q = true) ∧
      commonRoot fileDisk ["/a//b/./c.txt", "b/c.txt", "b/c.txt"] = .ok r := by
  have hnamed : fileDisk.NamedHere := by
    intro here hhere
    cases hhere
    simp [IsName]
  obtain ⟨r, hr, -, hdeepest, hsame⟩ := commonRoot_deepest hnamed
    (show ["b/c.txt", "/a//b/./c.txt"] ≠ [] by simp) (by decide)
  exact ⟨hnamed, r, hr, by decide +kernel, hdeepest, hsame _ (by simp [or_comm])⟩

end Files

end CodeAtlas

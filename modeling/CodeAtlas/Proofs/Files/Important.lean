import CodeAtlas.Files.Important
import CodeAtlas.Proofs.Path.Normal

/-!
# Important files under other spellings

A path of an important file is recognized however it is spelled.  A workflow is recognized only if the path ends
with its name: where a slash, a dot or two dots come last, the name is not looked for in the right place.
-/

namespace CodeAtlas.Path

variable {p : String} {cs : List String}

/-- A name at the end of a path is the last component of its normal form, behind the normal form of the directory. -/
theorem normalParts_of_isName (h : IsName (baseName p)) :
    normalParts p = (normalParts (directory p)).below [baseName p] := by
  have hlast : components (baseName p) = [baseName p] := components_of_not_mem h.1 (not_mem_baseName p)
  rw [normalParts, normalParts, Pure.below, rootOf_directory, ← normalComponents_components _ p,
    components_eq_directory p,
    hlast, normalComponents_concat h, normalComponents_components]

theorem normalize_directory_eq_iff (h : IsName (baseName p)) (hcs : cs ≠ [])
    (hnames : ∀ c ∈ cs, IsName c ∧ '/' ∉ c.toList) :
    normalize (directory p) = Text.joined "/" cs ↔ normalize p = Text.joined "/" (cs ++ [baseName p]) := by
  have hall : ∀ c ∈ cs ++ [baseName p], IsName c ∧ '/' ∉ c.toList := by
    intro c hc
    rcases List.mem_append.1 hc with hc | hc
    · exact hnames c hc
    · rw [List.mem_singleton.1 hc]
      exact ⟨h, not_mem_baseName p⟩
  rw [normalize_eq_joined_iff hcs hnames, normalize_eq_joined_iff (by simp) hall, normalParts_of_isName h]
  obtain ⟨root, parts⟩ := normalParts (directory p)
  simp [Pure.below]

end CodeAtlas.Path

namespace CodeAtlas.Files

open CodeAtlas.Path

variable {p path : String}

/-- The path of a workflow, spelled in the shortest way. -/
def IsWorkflow (path : String) : Prop :=
  ∃ name, '/' ∉ name.toList ∧ Text.endsWith name ".yml" = true ∧ path = workflowDirectory ++ "/" ++ name

theorem isName_of_endsWith {name : String} (h : Text.endsWith name ".yml" = true) : IsName name := by
  refine ⟨?_, ?_, ?_⟩ <;> rintro rfl <;> revert h <;> decide

theorem joined_workflow (name : String) :
    Text.joined "/" ([".github", "workflows"] ++ [name]) = workflowDirectory ++ "/" ++ name := by
  simp [Text.joined, workflowDirectory, String.intercalate_cons_cons, ← String.append_assoc]

/-- The directory of workflows is found behind the normal form of a path that ends with a name. -/
theorem normalize_directory_eq_workflowDirectory (h : IsName (baseName p)) :
    normalize (directory p) = workflowDirectory ↔ normalize p = workflowDirectory ++ "/" ++ baseName p := by
  have hnames : ∀ c ∈ [".github", "workflows"], IsName c ∧ '/' ∉ c.toList := by simp [IsName]
  have hdirectory : workflowDirectory = Text.joined "/" [".github", "workflows"] := by decide
  rw [← joined_workflow, ← normalize_directory_eq_iff h (by simp) hnames, hdirectory]

/-- A path is important if its normal form is one of those listed, or that of a workflow whose name comes last in the
path. -/
theorem isImportant_iff (p : String) : isImportant p = true ↔
    normalize p ∈ importantFiles ∨ IsWorkflow (normalize p) ∧ IsName (baseName p) := by
  have hworkflow : (normalize (directory p) = workflowDirectory ∧ Text.endsWith (baseName p) ".yml" = true) ↔
      IsWorkflow (normalize p) ∧ IsName (baseName p) := by
    constructor
    · rintro ⟨hdirectory, hends⟩
      have hname := isName_of_endsWith hends
      exact ⟨⟨baseName p, not_mem_baseName p, hends, (normalize_directory_eq_workflowDirectory hname).1 hdirectory⟩,
        hname⟩
    · rintro ⟨⟨name, hslash, hends, hpath⟩, hbase⟩
      -- a name that comes last is the last component of the normal form
      have hlast : name = baseName p := by
        have hnames : ∀ c ∈ [".github", "workflows"] ++ [name], IsName c ∧ '/' ∉ c.toList := by
          simpa [IsName, hslash] using isName_of_endsWith hends
        rw [← joined_workflow, normalize_eq_joined_iff (by simp) hnames, normalParts_of_isName hbase] at hpath
        exact ((List.append_inj' (congrArg Pure.parts hpath) rfl).2 |> List.cons.inj |>.1).symm
      rw [normalize_directory_eq_workflowDirectory hbase, ← hlast]
      exact ⟨hpath, hends⟩
  rw [isImportant, Bool.or_eq_true_iff, Bool.and_eq_true_iff, beq_iff_eq, hworkflow, List.contains_iff_mem, or_comm]

theorem IsWorkflow.isName_baseName (h : IsWorkflow path) : IsName (baseName path) := by
  obtain ⟨name, hslash, hends, rfl⟩ := h
  have hbase : baseName (workflowDirectory ++ "/" ++ name) = name := by
    rw [baseName_append _ hslash]
    show "" ++ name = name
    exact String.empty_append
  rw [hbase]
  exact isName_of_endsWith hends

theorem IsWorkflow.not_mem_importantFiles (h : IsWorkflow path) : path ∉ importantFiles := by
  obtain ⟨name, -, -, rfl⟩ := h
  have hothers : (importantFiles.all fun file => !Text.startsWith file (workflowDirectory ++ "/")) = true := by
    decide +kernel
  intro hmem
  have hstart := List.all_eq_true.1 hothers _ hmem
  have hprefixed : Text.startsWith (workflowDirectory ++ "/" ++ name) (workflowDirectory ++ "/") = true := by
    rw [Text.startsWith, List.isPrefixOf_iff_prefix, @String.toList_append (workflowDirectory ++ "/")]
    exact List.prefix_append _ _
  simp [hprefixed] at hstart

/-- A path is as important as its normal form, unless that is the path of a workflow and the last component of the path
is empty, a dot or two dots. -/
theorem isImportant_normalize_iff (p : String) :
    isImportant (normalize p) = isImportant p ↔ (IsWorkflow (normalize p) → IsName (baseName p)) := by
  have hnormal : isImportant (normalize p) = true ↔ normalize p ∈ importantFiles ∨ IsWorkflow (normalize p) := by
    rw [isImportant_iff, normalize_normalize]
    exact or_congr_right (and_iff_left_of_imp IsWorkflow.isName_baseName)
  rw [Bool.eq_iff_iff, hnormal, isImportant_iff]
  constructor
  · intro h hworkflow
    exact (h.1 (Or.inr hworkflow)).resolve_left hworkflow.not_mem_importantFiles |>.2
  · intro h
    exact or_congr_right (iff_self_and.2 h)

/-- With a slash at its end the path of a workflow is no longer important. -/
theorem isImportant_workflow_slash : isImportant (normalize ".github/workflows/ci.yml/") = true ∧
    isImportant ".github/workflows/ci.yml/" = false := by
  decide

end CodeAtlas.Files

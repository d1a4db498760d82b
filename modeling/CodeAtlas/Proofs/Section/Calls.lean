import CodeAtlas.Proofs.Section.Ends
import CodeAtlas.Proofs.Section.Levels

/-!
# Cutting calls itself on smaller texts

A run cuts a section and calls itself on the parts that are cut again, with no bound on how deep such calls
may nest.  Every call is on a text with fewer lines, so there is exactly one run for each section.

Calls nest at most two deep.  A part that is cut again is within the limit without its last line, line by line.
So the pass over it ends at most one part in front of the last, all lines of that part fit, and the pass over
that part ends none.
-/

namespace CodeAtlas.Section

open Text (unlines)

section Definitions

variable (p : Policy) (count : Counter) (extension : String)

/-- A run on a section gives the section itself, if it fits.  Else the closing pass asks for the pieces of some
parts; the run calls itself on these, with the limit that it has read, and takes what the calls give. -/
inductive Run : (limit : Int) → (content : String) → (calls out : List String) → Prop
  | whole {limit : Int} {content : String} (h : count content ≤ p.limit limit) : Run limit content [] [content]
  | cut {limit : Int} {content : String} (again called : String → List String) (h : p.limit limit < count content)
      (hcalls : ∀ part ∈ cutParts (visits count (p.limit limit) again
        (firstParts p count (p.limit limit) extension content)), Run (p.limit limit) part (called part) (again part)) :
      Run limit content
        (cutParts (visits count (p.limit limit) again (firstParts p count (p.limit limit) extension content)))
        (resplit count (p.limit limit) again (firstParts p count (p.limit limit) extension content))

/-- The parts of a section that are cut again, if it is cut at all. -/
def callsOn (limit : Int) (content : String) : List String :=
  if count content ≤ limit then [] else cutAgain p count limit extension content

end Definitions

variable {p : Policy} {count : Counter} {limit : Int} {extension content part : String}
variable {again : String → List String}

/-- The closing pass depends on the pieces of those parts only that are cut again. -/
theorem visitsFrom_congr (again' : String → List String) {now rest : List String} {i : Nat}
    (h : ∀ part ∈ cutParts (visitsFrom count limit again now i rest), again part = again' part) :
    visitsFrom count limit again now i rest = visitsFrom count limit again' now i rest ∧
      resplitFrom count limit again now i rest = resplitFrom count limit again' now i rest := by
  induction rest generalizing now i with
  | nil => exact ⟨rfl, rfl⟩
  | cons part rest ih =>
    have hrecut : recut count limit again now part i = recut count limit again' now part i := by
      rcases recut_cases count limit again now part i with ⟨hlarge, hlt, -⟩ | ⟨hlast, heq⟩
      · rw [(parts_of_cut hlarge hlt).1] at h
        rw [recut, recut, h part List.mem_cons_self]
      · rcases recut_cases count limit again' now part i with ⟨hlarge, hlt, -⟩ | ⟨-, heq'⟩
        · have := hlast hlarge
          omega
        · rw [heq, heq']
    have hrest : ∀ q ∈ cutParts (visitsFrom count limit again (recut count limit again now part i) (i + 1) rest),
        again q = again' q := by
      intro q hq
      refine h q ?_
      rcases recut_cases count limit again now part i with ⟨hlarge, hlt, -⟩ | ⟨hlast, -⟩
      · rw [(parts_of_cut hlarge hlt).1]
        exact List.mem_cons_of_mem part hq
      · rwa [(parts_of_keep hlast).1]
    obtain ⟨hvisits, hout⟩ := ih hrest
    rw [visitsFrom, visitsFrom, resplitFrom_cons, resplitFrom_cons, hvisits, hout, hrecut]
    exact ⟨rfl, rfl⟩

/-- There is at most one run: it calls itself on what is cut again, and gives the parts. -/
theorem Run.eq (hmeant : ∀ l, p.limit (p.limit l) = p.limit l) {calls out : List String}
    (h : Run p count extension limit content calls out) :
    calls = callsOn p count extension (p.limit limit) content ∧
      out = partsOf p count (p.limit limit) extension content := by
  induction h with
  | whole hfit => exact ⟨(if_pos hfit).symm, (partsOf_of_fits hfit).symm⟩
  | @cut limit content again called hover _ ih =>
    have hagain := fun part hpart => hmeant limit ▸ (ih part hpart).2
    have hsame := visitsFrom_congr (partsOf p count (p.limit limit) extension) hagain
    rw [callsOn, if_neg (Int.not_le.2 hover), partsOf_of_cut hover]
    exact ⟨congrArg cutParts hsame.1, hsame.2⟩

/-- For a limit as it is meant there is a run, by induction over what is cut again. -/
theorem run_of_meant (hlimit : p.limit limit = limit) (content : String) :
    Run p count extension limit content (callsOn p count extension limit content)
      (partsOf p count limit extension content) := by
  induction content using section_induction p count limit extension with
  | fits content hfit =>
    rw [callsOn, if_pos hfit, partsOf_of_fits hfit]
    exact .whole (hlimit.symm ▸ hfit)
  | cut content hcut ih =>
    have hrun := @Run.cut p count extension limit content (partsOf p count limit extension)
      (callsOn p count extension limit)
    rw [hlimit] at hrun
    rw [callsOn, if_neg (Int.not_le.2 hcut), partsOf_of_cut hcut]
    exact hrun hcut ih

theorem run_split (hmeant : p.limit (p.limit limit) = p.limit limit) (content : String) :
    Run p count extension limit content (callsOn p count extension (p.limit limit) content)
      (split p count limit extension content) := by
  have hsplit : split p count limit extension content = partsOf p count (p.limit limit) extension content := rfl
  rw [hsplit, callsOn]
  split
  case isTrue hfit =>
    rw [partsOf_of_fits hfit]
    exact .whole hfit
  case isFalse hfit =>
    rw [partsOf_of_cut (Int.not_le.1 hfit)]
    exact .cut (partsOf p count (p.limit limit) extension) (callsOn p count extension (p.limit limit))
      (Int.not_le.1 hfit) fun part _ => run_of_meant hmeant part

/-! ### How deep calls nest -/

theorem length_firstParts_le_one (p : Policy) (extension : String)
    (h : tokensOf count (Text.lines content) ≤ limit) : (firstParts p count limit extension content).length ≤ 1 := by
  rw [firstParts_eq_map, List.length_map,
    Pass.ranges_of_all_fit (p := passOf p count limit extension content) h]
  exact Pass.length_lastRange_le _

theorem resplit_of_length_le_one {parts : List String} (h : parts.length ≤ 1) :
    resplit count limit again parts = parts := by
  match parts with
  | [] => rfl
  | [single] => simp [resplit, recut]
  | _ :: _ :: _ => simp at h

/-- A section of which all lines fit has one part at most. -/
theorem length_partsOf_le_one (p : Policy) (extension : String) (h : tokensOf count (Text.lines content) ≤ limit) :
    (partsOf p count limit extension content).length ≤ 1 := by
  rw [partsOf_eq]
  split
  · simp
  · rw [resplit_of_length_le_one (length_firstParts_le_one p extension h)]
    exact length_firstParts_le_one p extension h

theorem cutAgain_eq_nil (p : Policy) (extension : String) (h : tokensOf count (Text.lines content) ≤ limit) :
    cutAgain p count limit extension content = [] := by
  refine List.eq_nil_iff_forall_not_mem.2 fun part hpart => ?_
  have htwo := two_le_length_of_mem_cutParts hpart
  have hone := length_firstParts_le_one p extension h
  omega

/-- A part that is cut again is within the limit without its last line. -/
theorem tokensOf_dropLast_le (h : part ∈ cutAgain p count limit extension content) :
    tokensOf count (Text.lines part).dropLast ≤ limit := by
  obtain ⟨hpart, hlarge, -⟩ := cutAgain_spec h
  rw [firstParts_eq_map] at hpart
  obtain ⟨r, hr, rfl⟩ := List.mem_map.1 hpart
  rw [tooLarge, Bool.and_eq_true] at hlarge
  exact Pass.tokensOf_dropLast_lines_le (isLine_lines content) hr (of_decide_eq_true hlarge.2)

/-- Of two parts only the first can be cut again, if that makes one piece of it at most. -/
theorem eq_of_mem_cutParts_pair {first second : String} (hagain : (again first).length ≤ 1)
    (h : part ∈ cutParts (visits count limit again [first, second])) : part = first := by
  obtain ⟨v, hv, hcuts, rfl⟩ := mem_cutParts.1 h
  rcases mem_visitsFrom_cons.1 hv with ⟨-, rfl⟩ | hv
  · rfl
  · rcases mem_visitsFrom_cons.1 hv with ⟨-, rfl⟩ | hv
    · -- when the second part is visited, the list has no third entry
      have hlength : (recut count limit again [first, second] first 0).length ≤ 2 := by
        rcases recut_cases count limit again [first, second] first 0 with ⟨-, -, heq⟩ | ⟨-, heq⟩
        · rw [heq]
          simp only [List.take_zero, List.nil_append, List.length_append, List.drop_succ_cons, List.drop_zero,
            List.length_singleton]
          omega
        · rw [heq]
          simp
      have hlt : 1 + 1 < (recut count limit again [first, second] first 0).length := hcuts
      omega
    · simp [visitsFrom] at hv

/-- What is cut again in a part that is cut again is not cut again itself. -/
theorem calls_of_calls (hpart : part ∈ cutAgain p count limit extension content) {piece : String}
    (hpiece : piece ∈ cutAgain p count limit extension part) : cutAgain p count limit extension piece = [] := by
  obtain ⟨front, back, hparts, hfront, hback, hfits⟩ := Pass.parts_of_fit
    (p := passOf p count limit extension part) (isLine_lines part) (tokensOf_dropLast_le hpart)
  rw [← firstParts_eq_map] at hparts
  have htwo := two_le_length_of_mem_cutParts hpiece
  rw [hparts, List.length_append] at htwo
  obtain ⟨first, rfl⟩ := List.length_eq_one_iff.1 (show front.length = 1 by omega)
  obtain ⟨second, rfl⟩ := List.length_eq_one_iff.1 (show back.length = 1 by omega)
  have hfirst := hfits first (by simp)
  rw [cutAgain, levelVisits, hparts] at hpiece
  obtain rfl := eq_of_mem_cutParts_pair (length_partsOf_le_one p extension hfirst) hpiece
  exact cutAgain_eq_nil p extension hfirst

theorem limit_limit (hp : p = .guided ∨ p = .plain) (limit : Int) : p.limit (p.limit limit) = p.limit limit := by
  rcases hp with rfl | rfl
  · rfl
  · exact Int.max_eq_right (Int.le_max_left leastLimit limit)

theorem mem_callsOn (h : part ∈ callsOn p count extension limit content) :
    part ∈ cutAgain p count limit extension content := by
  rw [callsOn] at h
  split at h
  · simp at h
  · exact h

theorem callsOn_eq_nil (h : cutAgain p count limit extension content = []) :
    callsOn p count extension limit content = [] := by
  rw [callsOn, h, ite_self]

/-- **Termination.**  For each section and each limit there is one run, and it gives the parts of the section.
Every call is on a text with fewer lines.  What is called by a call makes no further calls. -/
theorem split_terminates (hp : p = .guided ∨ p = .plain) (count : Counter) (limit : Int)
    (extension content : String) :
    ∃ calls, Run p count extension limit content calls (split p count limit extension content) ∧
      (∀ calls' out, Run p count extension limit content calls' out →
        calls' = calls ∧ out = split p count limit extension content) ∧
      ∀ part ∈ calls, (Text.lines part).length < (Text.lines content).length ∧
        ∃ inner, Run p count extension (p.limit limit) part inner (split p count limit extension part) ∧
          ∀ piece ∈ inner, (Text.lines piece).length < (Text.lines part).length ∧
            Run p count extension (p.limit limit) piece [] (split p count limit extension piece) := by
  have hmeant := limit_limit hp
  have hrun : ∀ text, Run p count extension (p.limit limit) text (callsOn p count extension (p.limit limit) text)
      (split p count limit extension text) := run_of_meant (hmeant limit)
  refine ⟨_, run_split (hmeant limit) content, fun calls' out h => h.eq hmeant, ?_⟩
  intro part hpart
  have hpart := mem_callsOn hpart
  refine ⟨(cutAgain_spec hpart).2.2, _, hrun part, ?_⟩
  intro piece hpiece
  have hpiece := mem_callsOn hpiece
  refine ⟨(cutAgain_spec hpiece).2.2, ?_⟩
  rw [← callsOn_eq_nil (calls_of_calls hpart hpiece)]
  exact hrun piece

/-- A call within a call, for a counter by which two lines count more than each of them does. -/
theorem split_terminates_nested_calls :
    cutAgain .guided (fun s => s.length * s.length) 16 ".txt" "x\n⋮\nb\nb\ncc\nd" = ["⋮\nb\nb\ncc"] ∧
    cutAgain .guided (fun s => s.length * s.length) 16 ".txt" "⋮\nb\nb\ncc" = ["⋮\nb\nb"] ∧
    ∃ calls, Run .guided (fun s => s.length * s.length) ".txt" 16 "x\n⋮\nb\nb\ncc\nd" calls
        ["x", "⋮\nb\nb", "cc", "d"] ∧
      ∀ part ∈ calls, (Text.lines part).length < 6 := by
  have hparts : split .guided (fun s => s.length * s.length) 16 ".txt" "x\n⋮\nb\nb\ncc\nd" =
      ["x", "⋮\nb\nb", "cc", "d"] := by decide +kernel
  have hlines : (Text.lines "x\n⋮\nb\nb\ncc\nd").length = 6 := by decide +kernel
  obtain ⟨calls, hrun, -, hcalls⟩ := split_terminates (Or.inl rfl) (fun s => s.length * s.length) 16 ".txt"
    "x\n⋮\nb\nb\ncc\nd"
  rw [hparts] at hrun
  rw [hlines] at hcalls
  exact ⟨by decide +kernel, by decide +kernel, calls, hrun, fun part hpart => (hcalls part hpart).1⟩

end CodeAtlas.Section

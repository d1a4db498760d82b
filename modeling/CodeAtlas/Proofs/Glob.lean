import CodeAtlas.Glob.Expand
import CodeAtlas.Proofs.Disk.Names

/-!
# What patterns match

A text that a pattern accepts starts with what the pattern has before its first wildcard.  The paths that a pattern
expands to end in names that its last component accepts.
-/

namespace CodeAtlas.Glob

/-! ### Single texts -/

theorem hasWildcard_append (a b : String) : hasWildcard (a ++ b) = (hasWildcard a || hasWildcard b) := by
  simp [hasWildcard]

theorem parseChars_append {literal : List Char}
    (h : ∀ c ∈ literal, (c == '*' || c == '?' || c == '[') = false) (fuel : Nat) (rest : List Char) :
    parseChars (literal.length + fuel) (literal ++ rest) = literal.map .char ++ parseChars fuel rest := by
  induction literal with
  | nil => simp
  | cons c literal ih =>
    have hfuel : (c :: literal).length + fuel = literal.length + fuel + 1 := by
      rw [List.length_cons]
      omega
    have hplain := h c List.mem_cons_self
    simp only [Bool.or_eq_false_iff, beq_eq_false_iff_ne] at hplain
    rw [hfuel, List.cons_append, parseChars, ih fun c' hc' => h c' (List.mem_cons_of_mem c hc')]
    · rfl
    · exact hplain.1.1
    · exact hplain.1.2
    · exact hplain.2

theorem prefix_of_matchesItems {literal text : List Char} {items : List Item}
    (h : matchesItems (literal.map .char ++ items) text = true) : literal <+: text := by
  induction literal generalizing text with
  | nil => exact List.nil_prefix
  | cons c literal ih =>
    cases text with
    | nil => cases h
    | cons c' text =>
      rw [List.map_cons, List.cons_append, matchesItems, Bool.and_eq_true] at h
      · obtain ⟨hfirst, hrest⟩ := h
        have heq : c' = c := by simpa [Item.accepts] using hfirst
        rw [heq, List.cons_prefix_cons]
        exact ⟨rfl, ih hrest⟩
      · simp

/-- A text that a pattern accepts starts with what the pattern has before its first wildcard. -/
theorem prefix_of_accepts {literal rest text : String} (hplain : hasWildcard literal = false)
    (h : accepts (literal ++ rest) text = true) : literal.toList <+: text.toList := by
  rw [hasWildcard, List.any_eq_false] at hplain
  rw [accepts, parse, String.length_append, String.toList_append, ← String.length_toList, parseChars_append] at h
  · exact prefix_of_matchesItems h
  · intro c hc
    exact Bool.not_eq_true _ ▸ hplain c hc

/-! ### Paths -/

variable {d : Disk}

theorem hasWildcard_of_baseName {pattern : String} (h : hasWildcard (Path.baseName pattern) = true) :
    hasWildcard pattern = true := by
  rw [hasWildcard, List.any_eq_true] at h ⊢
  obtain ⟨c, hc, hwild⟩ := h
  rw [Path.baseName, String.toList_ofList, Path.splitLast, List.mem_reverse] at hc
  exact ⟨c, List.mem_reverse.1 (List.takeWhile_sublist _ |>.mem hc), hwild⟩

/-- The names in a directory that a pattern stands for are accepted by it. -/
theorem accepts_of_mem_namesIn (hd : d.Named) {directory pattern name : String} {directoriesOnly : Bool}
    (hwild : hasWildcard pattern = true) (h : name ∈ namesIn d false directory pattern directoriesOnly) :
    accepts pattern name = true ∧ '/' ∉ name.toList := by
  rw [namesIn, Bool.false_and, if_neg Bool.false_ne_true, if_pos hwild] at h
  obtain ⟨⟨n, t⟩, hentry, rfl⟩ := List.mem_map.1 h
  obtain ⟨hlisted, haccepted⟩ := List.mem_filter.1 hentry
  refine ⟨(Bool.and_eq_true _ _ ▸ haccepted).2, ?_⟩
  rw [listing] at hlisted
  split at hlisted
  · next u hget =>
    obtain ⟨q, hlocate⟩ := Disk.get?_eq_some.1 hget
    obtain ⟨start, -, hleads⟩ := Disk.locate_eq_ok.1 hlocate
    have hmem : (n, t) ∈ u.entries := List.mem_of_mem_filter hlisted
    cases u with
    | file c m => cases hmem
    | directory es =>
      -- the entry that is looked up under the name need not be this one, but there is one
      have hfound : (es.lookup n).isSome := List.lookup_isSome_iff.2 ⟨(n, t), hmem, by simp⟩
      obtain ⟨t', ht'⟩ := Option.isSome_iff_exists.1 hfound
      exact hd q n t' ((Disk.get?_concat hleads.get?_found n).trans ht')
  · cases hlisted

/-- The paths that a pattern stands for end in names that its last component accepts. -/
theorem accepts_of_mem_expandFrom (hd : d.Named) {depth : Nat} {pattern path : String} {directoriesOnly : Bool}
    (hwild : hasWildcard (Path.baseName pattern) = true) (h : path ∈ expandFrom d false depth pattern directoriesOnly) :
    accepts (Path.baseName pattern) (Path.baseName path) = true := by
  have hname : ∀ {directory name : String}, name ∈ namesIn d false directory (Path.baseName pattern) directoriesOnly →
      accepts (Path.baseName pattern) (Path.baseName name) = true := by
    intro directory name hmem
    obtain ⟨haccepted, hslash⟩ := accepts_of_mem_namesIn hd hwild hmem
    rwa [Path.baseName_of_not_mem hslash]
  cases depth with
  | zero => cases h
  | succ depth =>
    rw [expandFrom, hasWildcard_of_baseName hwild, if_neg (by decide)] at h
    split at h
    · exact hname h
    · obtain ⟨directory, -, hpath⟩ := List.mem_flatMap.1 h
      obtain ⟨name, hmem, rfl⟩ := List.mem_map.1 hpath
      rw [Path.baseName_join]
      exact hname hmem

theorem accepts_of_mem_expand (hd : d.Named) {pattern path : String}
    (hwild : hasWildcard (Path.baseName pattern) = true) (h : path ∈ expand d false pattern) :
    accepts (Path.baseName pattern) (Path.baseName path) = true := by
  have hfound : path ∈ expandFrom d false (pattern.length + 1) pattern false := by
    rw [expand] at h
    split at h
    · split at h
      · next rest heq =>
        rw [heq]
        exact List.mem_cons_of_mem _ h
      · exact h
    · exact h
  exact accepts_of_mem_expandFrom hd hwild hfound

end CodeAtlas.Glob

import CodeAtlas.Proofs.Files.Sources

/-!
# Forms of patterns

A pattern is one for names, one for a name at any depth, or one for everything inside the directories of a name.  It
is compared with a name, with the path from the root and with the end of the whole path, and it is looked up from the
root.  Together these reach every depth, and some of them reach too far: a star matches several names at once, and the
end of a path may be that of the root.

## Main definitions

* `Files.Form` — the forms of patterns
* `Files.Form.Covers` — the names that a form is for
* `Files.Form.Strays` — the names that a form is not for, and that its pattern matches all the same

## Main results

* `Files.matchesPattern_plain`, `Files.matchesPattern_anywhere`, `Files.matchesPattern_inside` — what a pattern matches
* `Files.exists_matchesPattern_text` — when a pattern can be asked
* `Files.exists_matches_iff` — a file is matched by the patterns that are for it or stray to it
-/

namespace CodeAtlas

open CodeAtlas.Path (Pure descend)
open CodeAtlas.Glob (IsPart accepts hasWildcard)

namespace Glob

variable {part name : String} {p : Pure}

theorem contains_two_stars (rest : String) : Text.contains ("**/" ++ rest) "**" = true := by
  rw [Text.contains, String.toList_append]
  rfl

/-- A name is not matched by a pattern with a slash. -/
theorem not_accepts_of_not_mem {n : String} (hslash : '/' ∉ n.toList) (pattern : String) :
    accepts ("**/" ++ pattern) n = false := by
  rw [← Bool.not_eq_true]
  intro h
  have hjoined : accepts ("**/" ++ pattern) (Text.joined "/" [n]) = true := by simpa [Text.joined] using h
  obtain ⟨xs, ys, hxs, hys, heq, -⟩ := (accepts_anywhere_iff (by simp) (by simpa using hslash) pattern).1 hjoined
  have hlength := congrArg List.length heq
  rw [List.length_append, List.length_singleton] at hlength
  have hxs := List.length_pos_iff.2 hxs
  have hys := List.length_pos_iff.2 hys
  omega

/-! ### The end of a path -/

theorem matchesParts_anywhere (part : String) (front : List String) (x y : String) :
    matchesParts ["**", part] (front ++ [x, y]) = accepts part y := by
  simp [matchesParts, accepts_two_stars]

theorem matchesParts_inside (name : String) (front : List String) (w x y : String) :
    matchesParts ["**", name, "**"] (front ++ [w, x, y]) = accepts name x := by
  simp [matchesParts, accepts_two_stars]

theorem exists_concat_two {parts : List String} (h : 2 ≤ parts.length) : ∃ front x y, parts = front ++ [x, y] := by
  obtain ⟨init, y, rfl⟩ := List.eq_nil_or_concat parts |>.resolve_left (by rintro rfl; simp at h)
  obtain ⟨front, x, rfl⟩ := List.eq_nil_or_concat init |>.resolve_left (by rintro rfl; simp at h)
  exact ⟨front, x, y, by simp⟩

theorem exists_concat_three {parts : List String} (h : 3 ≤ parts.length) :
    ∃ front w x y, parts = front ++ [w, x, y] := by
  obtain ⟨init, y, rfl⟩ := List.eq_nil_or_concat parts |>.resolve_left (by rintro rfl; simp at h)
  obtain ⟨front, w, x, rfl⟩ := exists_concat_two (show 2 ≤ init.length by simpa using h)
  exact ⟨front, w, x, y, by simp⟩

theorem matchesPath_anywhere (h : IsPart part) (p : Pure) : ∃ b, matchesPath p (anywhere part) = .ok b ∧
    (b = true ↔ ∃ front x y, p.allParts = front ++ [x, y] ∧ accepts part y = true) := by
  refine ⟨_, by rw [matchesPath, ofString_anywhere h]; rfl, ?_⟩
  rw [Bool.and_eq_true, decide_eq_true_iff]
  constructor
  · rintro ⟨hlength, hparts⟩
    obtain ⟨front, x, y, heq⟩ := exists_concat_two hlength
    rw [heq, matchesParts_anywhere] at hparts
    exact ⟨front, x, y, heq, hparts⟩
  · rintro ⟨front, x, y, heq, hparts⟩
    rw [heq, matchesParts_anywhere]
    exact ⟨by simp, hparts⟩

theorem matchesPath_inside (h : IsPart name) (hplain : hasWildcard name = false) (p : Pure) :
    ∃ b, matchesPath p (inside name) = .ok b ∧ (b = true ↔ ∃ front w y, p.allParts = front ++ [w, name, y]) := by
  refine ⟨_, by rw [matchesPath, ofString_inside h]; rfl, ?_⟩
  rw [Bool.and_eq_true, decide_eq_true_iff]
  constructor
  · rintro ⟨hlength, hparts⟩
    obtain ⟨front, w, x, y, heq⟩ := exists_concat_three hlength
    rw [heq, matchesParts_inside, accepts_literal hplain] at hparts
    exact ⟨front, w, y, hparts ▸ heq⟩
  · rintro ⟨front, w, y, heq⟩
    rw [heq, matchesParts_inside]
    exact ⟨by simp, (accepts_literal hplain).2 rfl⟩

end Glob

namespace Files

variable {d : Disk} {root : String} {q above names : List String} {es : List (String × Tree)} {u : Tree}
  {part name pattern path n : String}

theorem matchesDeep_eq {b : Bool} {s : Glob.Search} (hpath : Glob.matchesPath (Pure.ofString path) pattern = .ok b)
    (hselect : Glob.select d (Pure.ofString root) pattern = .ok s) :
    matchesDeep d path pattern root =
      if b = true then .ok true
      else
        match s.finds (Pure.ofString path) with
        | .ok found => .ok found
        | .error e => if saysUnusable e then .ok false else .error e := by
  rw [matchesDeep, hpath, hselect]
  cases b <;> rfl

theorem matchesDeep_eq_true_iff {b : Bool} {s : Glob.Search}
    (hpath : Glob.matchesPath (Pure.ofString path) pattern = .ok b)
    (hselect : Glob.select d (Pure.ofString root) pattern = .ok s) :
    matchesDeep d path pattern root = .ok true ↔ b = true ∨ Pure.ofString path ∈ s.found := by
  rw [matchesDeep_eq hpath hselect]
  split
  · next hb => exact iff_of_true rfl (Or.inl hb)
  · next hb =>
    rw [or_iff_right hb]
    constructor
    · intro h
      split at h
      · next hfinds =>
        cases h
        exact Glob.Search.mem_of_finds hfinds
      · split at h <;> cases h
    · intro h
      rw [Glob.Search.finds_of_mem h]

theorem exists_matchesDeep {b : Bool} {s : Glob.Search} (hpath : Glob.matchesPath (Pure.ofString path) pattern = .ok b)
    (hselect : Glob.select d (Pure.ofString root) pattern = .ok s) (hs : s.failure? = none) :
    ∃ b, matchesDeep d path pattern root = .ok b := by
  obtain ⟨found, hfound⟩ := Glob.Search.exists_finds hs (Pure.ofString path)
  rw [matchesDeep_eq hpath hselect, hfound]
  split
  · exact ⟨true, rfl⟩
  · exact ⟨found, rfl⟩

/-! ### One name below a root -/

/-- A root has a name of its own, behind something else. -/
def RootNamed (root name : String) : Prop := ∃ front w, (Pure.ofString root).allParts = front ++ [w, name]

/-- A path without components has room for a name. -/
theorem size_entry_le (hparts : (Pure.ofString root).allParts = []) (hn : Disk.IsEntryName n) :
    ((Pure.ofString root).below [n]).toString.utf8ByteSize ≤ Disk.maxPath := by
  have hempty : (Pure.ofString root).root = "" ∧ (Pure.ofString root).parts = [] := by
    rw [Pure.allParts] at hparts
    split at hparts
    · next hroot => exact ⟨by simpa using hroot, hparts⟩
    · cases hparts
  have htext : ((Pure.ofString root).below [n]).toString = n := by
    rw [Path.Pure.toString_of_parts
      ((Path.Pure.spelled_ofString root).below (by simpa using ⟨hn.isName.1, hn.no_slash⟩))
      (by simp [Path.Pure.below]), Path.Pure.below, hempty.1, hempty.2]
    simp [Text.joined]
  rw [htext]
  exact hn.size_le.trans (by decide)

section Root

variable (hroot : d.locate root = .ok (.found q (.directory es))) (hnamed : (Tree.directory es).WellNamed)
  (hget : (Tree.directory es).get? (above ++ [n]) = some u)

include hroot hnamed hget

theorem matchesPattern_eq (pattern : String) : matchesPattern d (descend root (above ++ [n])) n pattern root =
    if (accepts pattern n || accepts pattern (Text.joined "/" (above ++ [n]))) = true then .ok true
    else if Text.contains pattern "**" = true then matchesDeep d (descend root (above ++ [n])) pattern root
    else .ok false := by
  rw [matchesPattern, Disk.relative_descend hroot (hnamed.names_of_get? hget) (by simp)]
  rfl

theorem matchesPattern_plain (hpattern : Text.contains pattern "**" = false) :
    matchesPattern d (descend root (above ++ [n])) n pattern root =
      .ok (accepts pattern n || accepts pattern (Text.joined "/" (above ++ [n]))) := by
  rw [matchesPattern_eq hroot hnamed hget, hpattern]
  cases accepts pattern n || accepts pattern (Text.joined "/" (above ++ [n])) <;> rfl

theorem matchesPattern_deep (hpattern : Text.contains pattern "**" = true) (hname : accepts pattern n = false) :
    matchesPattern d (descend root (above ++ [n])) n pattern root = .ok true ↔
      accepts pattern (Text.joined "/" (above ++ [n])) = true ∨
        matchesDeep d (descend root (above ++ [n])) pattern root = .ok true := by
  rw [matchesPattern_eq hroot hnamed hget, hname, Bool.false_or, hpattern, if_pos rfl]
  by_cases hrel : accepts pattern (Text.joined "/" (above ++ [n])) = true
  · rw [if_pos hrel]
    exact iff_of_true rfl (Or.inl hrel)
  · rw [if_neg hrel, or_iff_right hrel]

theorem matchesPattern_anywhere (hpart : IsPart part) :
    matchesPattern d (descend root (above ++ [n])) n (Glob.anywhere part) root = .ok true ↔
      accepts part n = true ∨ ∃ xs ys, xs ≠ [] ∧ ys ≠ [] ∧ above ++ [n] = xs ++ ys ∧
        accepts part (Text.joined "/" ys) = true := by
  have hnames := hnamed.names_of_get? hget
  have hslashes : ∀ c ∈ above ++ [n], '/' ∉ c.toList := fun c hc => (hnames c hc).2
  have hstars : Text.contains (Glob.anywhere part) "**" = true := Glob.contains_two_stars part
  have hname : accepts (Glob.anywhere part) n = false := Glob.not_accepts_of_not_mem (hslashes n (by simp)) part
  have hrel := Glob.accepts_anywhere_iff (by simp) hslashes part
  obtain ⟨b, hpath, hb⟩ := Glob.matchesPath_anywhere hpart (Pure.ofString (descend root (above ++ [n])))
  rw [matchesPattern_deep hroot hnamed hget hstars hname, Glob.anywhere, hrel, ← Glob.anywhere,
    matchesDeep_eq_true_iff hpath (Glob.select_eq hroot (Glob.stepsOf_anywhere hpart)), hb,
      Path.ofString_descend root hnames,
    Path.Pure.allParts_below]
  constructor
  · rintro (hrel | ⟨front, x, y, heq, hlast⟩ | hfound)
    · exact Or.inr hrel
    · have hy : n = y := by simpa using congrArg List.getLast? heq
      exact Or.inl (hy ▸ hlast)
    · obtain ⟨names, m, hm, heq⟩ := Glob.mem_selectAnywhere hnamed hfound
      have hsame : n = m := by simpa using congrArg List.getLast? (Path.Pure.below_injective _ heq)
      exact Or.inl (hsame ▸ hm)
  · rintro (hlast | hrel)
    · cases above with
      | nil =>
        -- the path from the root has no slash, so its end or the search has to match
        by_cases hparts : (Pure.ofString root).allParts = []
        · obtain ⟨v, hv, -⟩ := Tree.get?_cons_eq_some hget
          have hsize := size_entry_le hparts ((hnamed.of_get? hget).2 n (by simp))
          exact Or.inr (Or.inr (Glob.selectAnywhere_entry hroot hnamed hlast hv hsize))
        · -- the path has a component before the name
          obtain ⟨front, x, hx⟩ := List.eq_nil_or_concat _ |>.resolve_left hparts
          exact Or.inr (Or.inl ⟨front, x, n, by simp [hx], hlast⟩)
      | cons m above => exact Or.inl ⟨m :: above, [n], by simp, by simp, rfl, by simpa [Text.joined] using hlast⟩
    · exact Or.inl hrel

theorem matchesPattern_inside (hname : IsPart name) (hplain : hasWildcard name = false) :
    matchesPattern d (descend root (above ++ [n])) n (Glob.inside name) root = .ok true ↔
      (∃ xs ys, xs ≠ [] ∧ ys ≠ [] ∧ above ++ [n] = xs ++ name :: ys) ∨
        (∃ front w y, (Pure.ofString root).allParts ++ (above ++ [n]) = front ++ [w, name, y]) ∨
          (Pure.ofString root).below (above ++ [n]) ∈ (Glob.selectSteps d [.anyDepth, .name name, .anyDepth]
            (Pure.ofString root) (.directory es)).found := by
  have hnames := hnamed.names_of_get? hget
  have hslashes : ∀ c ∈ above ++ [n], '/' ∉ c.toList := fun c hc => (hnames c hc).2
  have hstars : Text.contains (Glob.inside name) "**" = true := Glob.contains_two_stars (name ++ "/**")
  have hnone : accepts (Glob.inside name) n = false :=
    Glob.not_accepts_of_not_mem (hslashes n (by simp)) (name ++ "/**")
  have hrel := Glob.accepts_inside_iff (by simp) hslashes hplain hname.no_slash
  obtain ⟨b, hpath, hb⟩ := Glob.matchesPath_inside hname hplain (Pure.ofString (descend root (above ++ [n])))
  rw [matchesPattern_deep hroot hnamed hget hstars hnone, Glob.inside, hrel, ← Glob.inside,
    matchesDeep_eq_true_iff hpath (Glob.select_eq hroot (Glob.stepsOf_inside hname hplain)), hb,
    Path.ofString_descend root hnames, Path.Pure.allParts_below]

/-- What matches a pattern for the inside of a directory: what is below it, the directory itself, or what is
directly below a root of that name. -/
theorem mem_of_matchesPattern_inside (hname : IsPart name) (hplain : hasWildcard name = false)
    (h : matchesPattern d (descend root (above ++ [n])) n (Glob.inside name) root = .ok true) :
    name ∈ above ∨ (n = name ∧ u.isDirectory = true) ∨ (above = [] ∧ RootNamed root name) := by
  have hbefore : ∀ {xs ys : List String}, ys ≠ [] → above ++ [n] = xs ++ name :: ys → name ∈ above := by
    intro xs ys hys heq
    obtain ⟨rest, y, rfl⟩ := List.eq_nil_or_concat ys |>.resolve_left hys
    have hsplit : above ++ [n] = (xs ++ name :: rest) ++ [y] := by simpa using heq
    rw [(List.append_inj' hsplit rfl).1]
    simp
  rcases (matchesPattern_inside hroot hnamed hget hname hplain).1 h with ⟨xs, ys, -, hys, heq⟩ | ⟨front, w, y,
    heq⟩ | hfound
  · exact Or.inl (hbefore hys heq)
  · have hsplit : (Pure.ofString root).allParts ++ above ++ [n] = (front ++ [w, name]) ++ [y] := by simpa using heq
    have hparts := (List.append_inj' hsplit rfl).1
    rcases List.eq_nil_or_concat above with rfl | ⟨before, m, rfl⟩
    · exact Or.inr (Or.inr ⟨rfl, front, w, by simpa using hparts⟩)
    · have hm : m = name := by simpa using congrArg List.getLast? hparts
      exact Or.inl (by simp [hm])
  · obtain ⟨xs, rest, v, hv, hdirectory, heq⟩ := Glob.mem_selectInside hroot hnamed hname hfound
    have hsame := Path.Pure.below_injective _ heq
    by_cases hrest : rest = []
    · subst hrest
      rw [← hsame, hget] at hv
      cases hv
      exact Or.inr (Or.inl ⟨by simpa using congrArg List.getLast? hsame, hdirectory⟩)
    · exact Or.inl (hbefore hrest hsame)

theorem matchesPattern_of_rootNamed (hname : IsPart name) (hplain : hasWildcard name = false) (habove : above = [])
    (h : RootNamed root name) :
    matchesPattern d (descend root (above ++ [n])) n (Glob.inside name) root = .ok true := by
  obtain ⟨front, w, hparts⟩ := h
  refine (matchesPattern_inside hroot hnamed hget hname hplain).2 (Or.inr (Or.inl ⟨front, w, n, ?_⟩))
  rw [habove, hparts]
  simp

theorem exists_matchesPattern {s : Glob.Search}
    (hpath : ∃ b, Glob.matchesPath (Pure.ofString (descend root (above ++ [n]))) pattern = .ok b)
    (hselect : Glob.select d (Pure.ofString root) pattern = .ok s) (hs : s.failure? = none) :
    ∃ b, matchesPattern d (descend root (above ++ [n])) n pattern root = .ok b := by
  obtain ⟨b, hpath⟩ := hpath
  rw [matchesPattern_eq hroot hnamed hget]
  split
  · exact ⟨true, rfl⟩
  · split
    · exact exists_matchesDeep hpath hselect hs
    · exact ⟨false, rfl⟩

omit hget in
/-- On the way to what is below a directory there is something that matches the pattern for its inside. -/
theorem exists_matchesPattern_inside (hname : IsPart name) (hplain : hasWildcard name = false) {xs ys : List String}
    {y : String}
    (hget : (Tree.directory es).get? (xs ++ name :: y :: ys) = some u) :
    ∃ above n, above ++ [n] <+: xs ++ name :: y :: ys ∧
      matchesPattern d (descend root (above ++ [n])) n (Glob.inside name) root = .ok true := by
  have hbelow : xs ++ [name] ++ [y] <+: xs ++ name :: y :: ys := ⟨ys, by simp⟩
  obtain ⟨v, hv⟩ := Tree.exists_get?_of_start hget hbelow
  -- the path from the root matches below the directory, unless the directory is at the root
  by_cases hxs : xs = []
  · subst hxs
    by_cases hparts : (Pure.ofString root).allParts = []
    · -- the directory itself is found
      have hself : [] ++ [name] <+: [] ++ name :: y :: ys := ⟨y :: ys, rfl⟩
      obtain ⟨w, hw⟩ := Tree.exists_get?_of_start hget hself
      obtain ⟨v, hentry, hrest⟩ := Tree.get?_cons_eq_some hget
      cases v with
      | file c m =>
        rw [Tree.get?_file_of_ne_nil c m (by simp)] at hrest
        cases hrest
      | directory es' =>
        have hsize := size_entry_le hparts ((hnamed.of_get? hget).2 name (by simp))
        have hfound := Glob.selectInside_entry hroot hnamed hentry hsize
        refine ⟨[], name, hself, ?_⟩
        exact (matchesPattern_inside hroot hnamed hw hname hplain).2 (Or.inr (Or.inr hfound))
    · obtain ⟨front, w, hw⟩ := List.eq_nil_or_concat _ |>.resolve_left hparts
      refine ⟨[name], y, hbelow,
        (matchesPattern_inside hroot hnamed hv hname hplain).2 (Or.inr (Or.inl ⟨front, w, y, ?_⟩))⟩
      rw [hw]
      simp
  · refine ⟨xs ++ [name], y, hbelow,
      (matchesPattern_inside hroot hnamed hv hname hplain).2 (Or.inl ⟨xs, [y], hxs, ?_, ?_⟩)⟩
    · simp
    · simp

end Root

/-! ### Forms of patterns -/

/-- The forms of patterns. -/
inductive Form
  /-- A pattern without two stars. -/
  | plain (pattern : String)
  /-- A name at any depth. -/
  | anywhere (part : String)
  /-- Everything inside the directories of a name. -/
  | inside (name : String)
  deriving DecidableEq

namespace Form

/-- The pattern of a form. -/
def text : Form → String
  | plain pattern => pattern
  | anywhere part => Glob.anywhere part
  | inside name => Glob.inside name

/-- The parts of a form are as they have to be. -/
def Valid : Form → Prop
  | plain pattern => Text.contains pattern "**" = false
  | anywhere part => IsPart part
  | inside name => IsPart name ∧ hasWildcard name = false

instance (form : Form) : Decidable form.Valid :=
  match form with
  | plain _ => inferInstanceAs (Decidable (_ = false))
  | anywhere part => inferInstanceAs (Decidable (IsPart part))
  | inside name => inferInstanceAs (Decidable (IsPart name ∧ _))

/-- The form of a pattern. -/
def ofText (pattern : String) : Form :=
  if Text.contains pattern "**" then
    let rest := pattern.toList.drop 3
    if "/**".toList.isSuffixOf rest then inside (String.ofList (rest.take (rest.length - 3)))
      else anywhere (String.ofList rest)
  else plain pattern

theorem ofText_text {form : Form} (h : form.Valid) : ofText form.text = form := by
  have hdrop : ∀ rest : String, ("**/" ++ rest).toList.drop 3 = rest.toList := by
    intro rest
    rw [String.toList_append]
    rfl
  cases form with
  | plain pattern => rw [text, ofText, show Text.contains pattern "**" = false from h, if_neg Bool.false_ne_true]
  | anywhere part =>
    have hend : ¬"/**".toList.isSuffixOf part.toList = true := by
      intro hsuffix
      exact h.no_slash ((List.isSuffixOf_iff_suffix.1 hsuffix).subset (by simp))
    rw [text, ofText, Glob.anywhere, Glob.contains_two_stars, if_pos rfl, hdrop, if_neg hend, String.ofList_toList]
  | inside name =>
    have hend : "/**".toList.isSuffixOf (name ++ "/**").toList = true := by
      rw [List.isSuffixOf_iff_suffix, String.toList_append]
      exact List.suffix_append _ _
    have hlength : (name ++ "/**").toList.length - 3 = name.toList.length := by simp
    rw [text, ofText, Glob.inside, Glob.contains_two_stars, if_pos rfl, hdrop, if_pos hend, hlength,
      String.toList_append,
      List.take_left, String.ofList_toList]

/-- Names that a form is for. -/
def Covers : Form → List String → Prop
  | plain pattern, names => ∃ n ∈ names, accepts pattern n = true
  | anywhere part, names => ∃ n ∈ names, accepts part n = true
  | inside name, names => name ∈ names.dropLast

instance (form : Form) (names : List String) : Decidable (form.Covers names) :=
  match form with
  | plain _ => inferInstanceAs (Decidable (∃ n ∈ names, _ = true))
  | anywhere _ => inferInstanceAs (Decidable (∃ n ∈ names, _ = true))
  | inside name => inferInstanceAs (Decidable (name ∈ names.dropLast))

/-- Names that a form is not for, and that its pattern matches all the same: by several names at once, or by
the name of the root. -/
def Strays (root : String) : Form → List String → Prop
  | plain pattern, names => ∃ xs, xs <+: names ∧ 2 ≤ xs.length ∧ accepts pattern (Text.joined "/" xs) = true
  | anywhere part, names => ∃ xs, xs <:+: names.tail ∧ 2 ≤ xs.length ∧ accepts part (Text.joined "/" xs) = true
  | inside name, _ => RootNamed root name

end Form

theorem mem_dropLast_iff {c : String} : c ∈ names.dropLast ↔ ∃ xs y ys, names = xs ++ c :: y :: ys := by
  constructor
  · intro h
    obtain ⟨front, y, rfl⟩ := List.eq_nil_or_concat names |>.resolve_left (by rintro rfl; cases h)
    rw [List.concat_eq_append, List.dropLast_concat] at h
    obtain ⟨xs, ys, rfl⟩ := List.append_of_mem h
    cases ys with
    | nil => exact ⟨xs, y, [], by simp⟩
    | cons z ys => exact ⟨xs, z, ys ++ [y], by simp⟩
  · rintro ⟨xs, y, ys, rfl⟩
    simp [List.dropLast_append_of_ne_nil]

section Root

variable (hroot : d.locate root = .ok (.found q (.directory es))) (hnamed : (Tree.directory es).WellNamed)
  (hget : (Tree.directory es).get? names = some u)

include hroot hnamed hget

theorem exists_matches_plain_iff (hpattern : Text.contains pattern "**" = false) :
    (∃ above n, above ++ [n] <+: names ∧ matchesPattern d (descend root (above ++ [n])) n pattern root = .ok true) ↔
      (Form.plain pattern).Covers names ∨ (Form.plain pattern).Strays root names := by
  constructor
  · rintro ⟨above, n, hpre, hmatch⟩
    obtain ⟨v, hv⟩ := Tree.exists_get?_of_start hget hpre
    rw [matchesPattern_plain hroot hnamed hv hpattern, Except.ok.injEq, Bool.or_eq_true] at hmatch
    cases above with
    | nil => exact Or.inl ⟨n, hpre.subset (by simp), by simpa [Text.joined] using hmatch⟩
    | cons m above =>
      rcases hmatch with hname | hrel
      · exact Or.inl ⟨n, hpre.subset (by simp), hname⟩
      · exact Or.inr ⟨_, hpre, by simp, hrel⟩
  · rintro (⟨n, hn, hname⟩ | ⟨xs, hpre, hlength, hrel⟩)
    · obtain ⟨above, rest, rfl⟩ := List.append_of_mem hn
      have hpre : above ++ [n] <+: above ++ n :: rest := ⟨rest, by simp⟩
      obtain ⟨v, hv⟩ := Tree.exists_get?_of_start hget hpre
      refine ⟨above, n, hpre, ?_⟩
      rw [matchesPattern_plain hroot hnamed hv hpattern, hname, Bool.true_or]
    · obtain ⟨above, n, rfl⟩ := List.eq_nil_or_concat xs |>.resolve_left (by rintro rfl; simp at hlength)
      rw [List.concat_eq_append] at hpre hrel
      obtain ⟨v, hv⟩ := Tree.exists_get?_of_start hget hpre
      refine ⟨above, n, hpre, ?_⟩
      rw [matchesPattern_plain hroot hnamed hv hpattern, hrel, Bool.or_true]

theorem exists_matches_anywhere_iff (hpart : IsPart part) :
    (∃ above n, above ++ [n] <+: names ∧
      matchesPattern d (descend root (above ++ [n])) n (Glob.anywhere part) root = .ok true) ↔
      (Form.anywhere part).Covers names ∨ (Form.anywhere part).Strays root names := by
  constructor
  · rintro ⟨above, n, hpre, hmatch⟩
    obtain ⟨v, hv⟩ := Tree.exists_get?_of_start hget hpre
    rcases (matchesPattern_anywhere hroot hnamed hv hpart).1 hmatch with hname | ⟨xs, ys, hxs, hys, heq, hrel⟩
    · exact Or.inl ⟨n, hpre.subset (by simp), hname⟩
    · obtain ⟨rest, rfl⟩ := hpre
      rw [heq]
      obtain ⟨x, xs, rfl⟩ := List.exists_cons_of_ne_nil hxs
      -- one name that matches is covered, several are strayed to
      cases ys with
      | nil => exact absurd rfl hys
      | cons y ys =>
        cases ys with
        | nil => exact Or.inl ⟨y, by simp, by simpa [Text.joined] using hrel⟩
        | cons z ys => exact Or.inr ⟨y :: z :: ys, ⟨xs, rest, by simp⟩, by simp, hrel⟩
  · rintro (⟨n, hn, hname⟩ | ⟨ys, ⟨xs, rest, hwithin⟩, hlength, hrel⟩)
    · obtain ⟨above, rest, rfl⟩ := List.append_of_mem hn
      have hpre : above ++ [n] <+: above ++ n :: rest := ⟨rest, by simp⟩
      obtain ⟨v, hv⟩ := Tree.exists_get?_of_start hget hpre
      exact ⟨above, n, hpre, (matchesPattern_anywhere hroot hnamed hv hpart).2 (Or.inl hname)⟩
    · have hys : ys ≠ [] := by rintro rfl; simp at hlength
      obtain ⟨before, n, hlast⟩ := List.eq_nil_or_concat ys |>.resolve_left hys
      rw [List.concat_eq_append] at hlast
      cases names with
      | nil => simp [hlast] at hwithin
      | cons x names =>
        have hpre : x :: xs ++ before ++ [n] <+: x :: names := ⟨rest, by simpa [hlast] using hwithin⟩
        obtain ⟨v, hv⟩ := Tree.exists_get?_of_start hget hpre
        refine ⟨_, n, hpre, (matchesPattern_anywhere hroot hnamed hv hpart).2 (Or.inr ⟨x :: xs, ys, by simp, hys,
          ?_, hrel⟩)⟩
        simp [hlast]

theorem exists_matches_inside_iff (hname : IsPart name) (hplain : hasWildcard name = false)
    (hfile : u.isDirectory = false)
    (hne : names ≠ []) :
    (∃ above n, above ++ [n] <+: names ∧
      matchesPattern d (descend root (above ++ [n])) n (Glob.inside name) root = .ok true) ↔
      (Form.inside name).Covers names ∨ (Form.inside name).Strays root names := by
  constructor
  · rintro ⟨above, n, hpre, hmatch⟩
    obtain ⟨v, hv⟩ := Tree.exists_get?_of_start hget hpre
    obtain ⟨rest, rfl⟩ := hpre
    rcases mem_of_matchesPattern_inside hroot hnamed hv hname hplain hmatch with hmem | ⟨rfl, hdirectory⟩ | ⟨-,
      hrootNamed⟩
    · obtain ⟨xs, ys, rfl⟩ := List.append_of_mem hmem
      refine Or.inl (mem_dropLast_iff.2 ?_)
      cases ys with
      | nil => exact ⟨xs, n, rest, by simp⟩
      | cons y ys => exact ⟨xs, y, ys ++ n :: rest, by simp⟩
    · -- the directory itself matches, and the file is below it
      cases rest with
      | nil =>
        rw [List.append_nil, hv] at hget
        cases hget
        rw [hdirectory] at hfile
        cases hfile
      | cons y rest => exact Or.inl (mem_dropLast_iff.2 ⟨above, y, rest, by simp⟩)
    · exact Or.inr hrootNamed
  · rintro (hmem | hrootNamed)
    · obtain ⟨xs, y, ys, rfl⟩ := mem_dropLast_iff.1 hmem
      exact exists_matchesPattern_inside hroot hnamed hname hplain hget
    · obtain ⟨n, rest, rfl⟩ := List.exists_cons_of_ne_nil hne
      have hpre : [] ++ [n] <+: n :: rest := ⟨rest, rfl⟩
      obtain ⟨v, hv⟩ := Tree.exists_get?_of_start hget hpre
      exact ⟨[], n, hpre, matchesPattern_of_rootNamed hroot hnamed hv hname hplain rfl hrootNamed⟩

omit hget in
/-- Where there is room a pattern that has a form can be asked. -/
theorem exists_matchesPattern_text {above : List String} {n : String} {v : Tree}
    (hroom : Disk.Roomy root (.directory es)) {form : Form} (hform : form.Valid)
    (hget : (Tree.directory es).get? (above ++ [n]) = some v) :
    ∃ b, matchesPattern d (descend root (above ++ [n])) n form.text root = .ok b := by
  cases form with
  | plain pattern => exact ⟨_, matchesPattern_plain hroot hnamed hget hform⟩
  | anywhere part =>
    obtain ⟨b, hpath, -⟩ := Glob.matchesPath_anywhere hform (Pure.ofString (descend root (above ++ [n])))
    exact exists_matchesPattern hroot hnamed hget ⟨b, hpath⟩ (Glob.select_eq hroot (Glob.stepsOf_anywhere hform))
      (Glob.failure?_selectAnywhere hroot hnamed hroom hform)
  | inside name =>
    obtain ⟨b, hpath, -⟩ := Glob.matchesPath_inside hform.1 hform.2 (Pure.ofString (descend root (above ++ [n])))
    exact exists_matchesPattern hroot hnamed hget ⟨b, hpath⟩
      (Glob.select_eq hroot (Glob.stepsOf_inside hform.1 hform.2))
      (Glob.failure?_selectInside hroot hnamed hroom hform.1 hform.2)

/-- A file is matched on the way to it exactly by the patterns that are for it or stray to it. -/
theorem exists_matches_iff {form : Form} (hform : form.Valid) (hfile : u.isDirectory = false) (hne : names ≠ []) :
    (∃ above n, above ++ [n] <+: names ∧ matchesPattern d (descend root (above ++ [n])) n form.text root = .ok true) ↔
      form.Covers names ∨ form.Strays root names := by
  cases form with
  | plain pattern => exact exists_matches_plain_iff hroot hnamed hget hform
  | anywhere part => exact exists_matches_anywhere_iff hroot hnamed hget hform
  | inside name => exact exists_matches_inside_iff hroot hnamed hget hform.1 hform.2 hfile hne

end Root

end Files

end CodeAtlas

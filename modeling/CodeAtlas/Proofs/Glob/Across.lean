import CodeAtlas.Proofs.Glob

/-!
# Patterns and joined names

A star stands for any text, with slashes or without.  So a pattern that is compared with joined names may match them
together though it matches none of them.  A pattern with a star at one end only cannot.
-/

namespace CodeAtlas.Glob

variable {literal pattern text : String} {names : List String}

/-! ### From the start on -/

theorem someSuffix_iff (test : List Char → Bool) (cs : List Char) :
    someSuffix test cs = true ↔ ∃ front back, cs = front ++ back ∧ test back = true := by
  induction cs with
  | nil => simp [someSuffix]
  | cons c cs ih =>
    rw [someSuffix, Bool.or_eq_true, ih]
    constructor
    · rintro (h | ⟨front, back, rfl, h⟩)
      · exact ⟨[], c :: cs, rfl, h⟩
      · exact ⟨c :: front, back, rfl, h⟩
    · rintro ⟨front, back, heq, h⟩
      cases front with
      | nil =>
        cases heq
        exact Or.inl h
      | cons a front =>
        cases heq
        exact Or.inr ⟨front, back, rfl, h⟩

/-- A star stands for any text. -/
theorem accepts_star_append (pattern text : String) :
    accepts ("*" ++ pattern) text = true ↔ ∃ front back, text = front ++ back ∧ accepts pattern back = true := by
  have hparse : parse ("*" ++ pattern) = .star :: parse pattern := by
    rw [parse, parse, String.length_append, String.toList_append, show "*".length = 1 from rfl, Nat.add_comm]
    rfl
  rw [accepts, hparse, matchesItems, someSuffix_iff]
  constructor
  · rintro ⟨front, back, heq, h⟩
    refine ⟨String.ofList front, String.ofList back, ?_, by simpa [accepts] using h⟩
    rw [← String.toList_inj]
    simpa using heq
  · rintro ⟨front, back, rfl, h⟩
    exact ⟨front.toList, back.toList, by simp, h⟩

theorem parse_literal_append (hplain : hasWildcard literal = false) (pattern : String) :
    parse (literal ++ pattern) = literal.toList.map .char ++ parse pattern := by
  rw [hasWildcard, List.any_eq_false] at hplain
  rw [parse, String.length_append, String.toList_append, ← String.length_toList, parseChars_append, parse]
  intro c hc
  exact Bool.not_eq_true _ ▸ hplain c hc

theorem matchesItems_chars (literal cs : List Char) (items : List Item) :
    matchesItems (literal.map .char ++ items) cs = true ↔ ∃ rest, cs = literal ++ rest ∧
      matchesItems items rest = true := by
  constructor
  · intro h
    obtain ⟨rest, rfl⟩ := prefix_of_matchesItems h
    refine ⟨rest, rfl, ?_⟩
    induction literal with
    | nil => exact h
    | cons c literal ih =>
      rw [List.map_cons, List.cons_append, List.cons_append, matchesItems, Bool.and_eq_true] at h
      · exact ih h.2
      · simp
  · rintro ⟨rest, rfl, h⟩
    induction literal with
    | nil => exact h
    | cons c literal ih =>
      rw [List.map_cons, List.cons_append, List.cons_append, matchesItems, Bool.and_eq_true]
      · exact ⟨by simp [Item.accepts], ih⟩
      · simp

/-- Characters that are no wildcards stand for themselves. -/
theorem accepts_literal_append (hplain : hasWildcard literal = false) (pattern text : String) :
    accepts (literal ++ pattern) text = true ↔ ∃ back, text = literal ++ back ∧ accepts pattern back = true := by
  rw [accepts, parse_literal_append hplain, matchesItems_chars]
  constructor
  · rintro ⟨rest, heq, h⟩
    refine ⟨String.ofList rest, ?_, by simpa [accepts] using h⟩
    rw [← String.toList_inj]
    simpa using heq
  · rintro ⟨back, rfl, h⟩
    exact ⟨back.toList, by simp, h⟩

theorem accepts_empty : accepts "" text = true ↔ text = "" := by
  rw [accepts, show parse "" = [] from rfl, matchesItems, List.isEmpty_iff]
  simp

/-- A pattern without wildcards stands for itself. -/
theorem accepts_literal (hplain : hasWildcard literal = false) : accepts literal text = true ↔ text = literal := by
  have h := accepts_literal_append hplain "" text
  simpa [accepts_empty] using h

theorem accepts_star (text : String) : accepts "*" text = true :=
  (accepts_star_append "" text).2 ⟨text, "", by simp, accepts_empty.2 rfl⟩

theorem accepts_two_stars (text : String) : accepts "**" text = true :=
  (accepts_star_append "*" text).2 ⟨"", text, by simp, accepts_star text⟩

/-! ### Joined names -/

theorem fields_joined_names (hne : names ≠ []) (hnames : ∀ c ∈ names, '/' ∉ c.toList) :
    Text.fields '/' (Text.joined "/" names) = names := by
  rw [show "/" = '/'.toString by decide, Text.fields_joined hne,
    List.flatMap_congr fun c hc => Text.fields_of_not_mem (hnames c hc)]
  simp

theorem joined_append {xs ys : List String} (hxs : xs ≠ []) (hys : ys ≠ []) :
    Text.joined "/" (xs ++ ys) = Text.joined "/" xs ++ "/" ++ Text.joined "/" ys :=
  String.intercalate_append_of_ne_nil hxs hys

/-- The slashes of joined names are those between them. -/
theorem joined_eq_iff (hne : names ≠ []) (hnames : ∀ c ∈ names, '/' ∉ c.toList) {front back : String} :
    Text.joined "/" names = front ++ "/" ++ back ↔
      ∃ xs ys, xs ≠ [] ∧ ys ≠ [] ∧ names = xs ++ ys ∧ front = Text.joined "/" xs ∧ back = Text.joined "/" ys := by
  have hslash : "/" = '/'.toString := by decide
  constructor
  · intro h
    have hfields := fields_joined_names hne hnames
    rw [h, hslash, Text.fields_append_separator] at hfields
    have hsome : ∀ s : String, Text.fields '/' s ≠ [] := fun s => by
      simpa [Text.fields] using Text.fieldsOf_ne_nil '/' s.toList
    refine ⟨_, _, hsome front, hsome back, hfields.symm, ?_, ?_⟩ <;> rw [hslash, Text.joined_fields]
  · rintro ⟨xs, ys, hxs, hys, rfl, rfl, rfl⟩
    exact joined_append hxs hys

/-- Two stars and a slash in front of a pattern: it matches the last of the joined names, but not all of them. -/
theorem accepts_anywhere_iff (hne : names ≠ []) (hnames : ∀ c ∈ names, '/' ∉ c.toList) (pattern : String) :
    accepts ("**/" ++ pattern) (Text.joined "/" names) = true ↔
      ∃ xs ys, xs ≠ [] ∧ ys ≠ [] ∧ names = xs ++ ys ∧ accepts pattern (Text.joined "/" ys) = true := by
  have hstars : "**/" ++ pattern = "*" ++ ("*" ++ ("/" ++ pattern)) := by
    rw [← String.append_assoc, ← String.append_assoc]
    rfl
  have hslash : hasWildcard "/" = false := by decide
  simp only [hstars, accepts_star_append, accepts_literal_append hslash]
  constructor
  · rintro ⟨front, _, heq, front', _, rfl, back, rfl, h⟩
    rw [← String.append_assoc, ← String.append_assoc] at heq
    obtain ⟨xs, ys, hxs, hys, hsplit, -, rfl⟩ := (joined_eq_iff hne hnames).1 heq
    exact ⟨xs, ys, hxs, hys, hsplit, h⟩
  · rintro ⟨xs, ys, hxs, hys, rfl, h⟩
    refine ⟨Text.joined "/" xs, _, ?_, "", _, (String.empty_append).symm, Text.joined "/" ys, rfl, h⟩
    rw [joined_append hxs hys, String.append_assoc]

/-- Two stars at both ends of a name: it is one of the joined names, but neither the first nor the last one. -/
theorem accepts_inside_iff (hne : names ≠ []) (hnames : ∀ c ∈ names, '/' ∉ c.toList)
    (hplain : hasWildcard literal = false)
    (hslash : '/' ∉ literal.toList) : accepts ("**/" ++ (literal ++ "/**")) (Text.joined "/" names) = true ↔
      ∃ xs ys, xs ≠ [] ∧ ys ≠ [] ∧ names = xs ++ literal :: ys := by
  have hend : hasWildcard "/" = false := by decide
  rw [accepts_anywhere_iff hne hnames]
  constructor
  · rintro ⟨xs, ys, hxs, hys, rfl, h⟩
    obtain ⟨back, hjoined, hback⟩ := (accepts_literal_append hplain _ _).1 h
    obtain ⟨rest, rfl, -⟩ := (accepts_literal_append hend "**" _).1 hback
    rw [← String.append_assoc] at hjoined
    have hys' : ∀ c ∈ ys, '/' ∉ c.toList := fun c hc => hnames c (List.mem_append_right _ hc)
    obtain ⟨zs, rest, hzs, hrest, rfl, hliteral, -⟩ := (joined_eq_iff hys hys').1 hjoined
    -- the name has no slash, so that it is one of the joined ones
    have hone : zs = [literal] := by
      rw [← fields_joined_names hzs fun c hc => hys' c (List.mem_append_left _ hc), ← hliteral,
        Text.fields_of_not_mem hslash]
    exact ⟨xs, rest, hxs, hrest, by simp [hone]⟩
  · rintro ⟨xs, ys, hxs, hys, rfl⟩
    refine ⟨xs, literal :: ys, hxs, by simp, rfl,
      (accepts_literal_append hplain _ _).2 ⟨"/" ++ Text.joined "/" ys, ?_, ?_⟩⟩
    · rw [← String.append_assoc]
      exact String.intercalate_cons_of_ne_nil hys
    · exact (accepts_literal_append hend "**" _).2 ⟨_, rfl, accepts_two_stars _⟩

/-! ### Stars at one end -/

/-- A pattern with no wildcards but a star at one of its ends. -/
def OneSided (pattern : String) : Prop :=
  ∃ literal, hasWildcard literal = false ∧ '/' ∉ literal.toList ∧
    (pattern = literal ∨ pattern = literal ++ "*" ∨ pattern = "*" ++ literal)

theorem oneSided_iff : OneSided pattern ↔
    ∃ literal ∈ [pattern, String.ofList pattern.toList.dropLast, String.ofList pattern.toList.tail],
      hasWildcard literal = false ∧ '/' ∉ literal.toList ∧
        (pattern = literal ∨ pattern = literal ++ "*" ∨ pattern = "*" ++ literal) := by
  constructor
  · rintro ⟨literal, hplain, hslash, hform⟩
    refine ⟨literal, ?_, hplain, hslash, hform⟩
    rcases hform with rfl | rfl | rfl <;> simp
  · rintro ⟨literal, -, h⟩
    exact ⟨literal, h⟩

instance (pattern : String) : Decidable (OneSided pattern) := decidable_of_iff _ oneSided_iff.symm

theorem accepts_literal_star (hplain : hasWildcard literal = false) :
    accepts (literal ++ "*") text = true ↔ ∃ back, text = literal ++ back := by
  simp [accepts_literal_append hplain, accepts_star]

theorem accepts_star_literal (hplain : hasWildcard literal = false) :
    accepts ("*" ++ literal) text = true ↔ ∃ front, text = front ++ literal := by
  simp [accepts_star_append, accepts_literal hplain]

/-- What has no slash and stands at the start of joined names stands at the start of the first one. -/
theorem exists_append_of_joined_cons {first back : String} (hslash : '/' ∉ literal.toList)
    (h : Text.joined "/" (first :: names) = literal ++ back) : ∃ rest, first = literal ++ rest := by
  by_cases hnames : names = []
  · subst hnames
    exact ⟨back, by simpa [Text.joined] using h⟩
  · rw [Text.joined, String.intercalate_cons_of_ne_nil hnames, ← Text.joined, ← String.toList_inj] at h
    simp only [String.toList_append, List.append_assoc] at h
    rcases List.append_eq_append_iff.1 h with ⟨more, hliteral, hmore⟩ | ⟨more, hfirst, -⟩
    · cases more with
      | nil =>
        refine ⟨"", ?_⟩
        rw [← String.toList_inj]
        simpa using hliteral.symm
      | cons c more =>
        have hc : '/' = c := by simpa using congrArg List.head? hmore
        exact absurd (by simp [hliteral, ← hc]) hslash
    · refine ⟨String.ofList more, ?_⟩
      rw [← String.toList_inj]
      simpa using hfirst

/-- What has no slash and stands at the end of joined names stands at the end of the last one. -/
theorem exists_append_of_joined_concat {last front : String} (hslash : '/' ∉ literal.toList)
    (h : Text.joined "/" (names ++ [last]) = front ++ literal) : ∃ rest, last = rest ++ literal := by
  by_cases hnames : names = []
  · subst hnames
    exact ⟨front, by simpa [Text.joined] using h⟩
  · rw [joined_append hnames (List.cons_ne_nil _ _), ← String.toList_inj, show Text.joined "/" [last] = last by
      simp [Text.joined]] at h
    simp only [String.toList_append] at h
    rcases List.append_eq_append_iff.1 h with ⟨more, -, hlast⟩ | ⟨more, hfront, hliteral⟩
    · refine ⟨String.ofList more, ?_⟩
      rw [← String.toList_inj]
      simpa using hlast
    · rcases List.eq_nil_or_concat more with rfl | ⟨before, c, rfl⟩
      · refine ⟨"", ?_⟩
        rw [← String.toList_inj]
        simpa using hliteral.symm
      · have hc : '/' = c := by simpa using congrArg List.getLast? hfront
        exact absurd (by simp [hliteral, ← hc]) hslash

/-- A pattern with a star at one end only that matches joined names matches one of them. -/
theorem OneSided.exists_mem (h : OneSided pattern) (hne : names ≠ []) (hnames : ∀ c ∈ names, '/' ∉ c.toList)
    (haccepts : accepts pattern (Text.joined "/" names) = true) : ∃ n ∈ names, accepts pattern n = true := by
  obtain ⟨literal, hplain, hslash, hform⟩ := h
  rcases hform with heq | heq | heq <;> rw [heq] at haccepts ⊢
  · -- there is no slash, and hence one name
    have hjoined := (accepts_literal hplain).1 haccepts
    have hone : names = [literal] := by rw [← fields_joined_names hne hnames, hjoined, Text.fields_of_not_mem hslash]
    exact ⟨literal, by simp [hone], (accepts_literal hplain).2 rfl⟩
  · obtain ⟨back, hjoined⟩ := (accepts_literal_star hplain).1 haccepts
    obtain ⟨first, rest, rfl⟩ := List.exists_cons_of_ne_nil hne
    exact ⟨first, List.mem_cons_self, (accepts_literal_star hplain).2 (exists_append_of_joined_cons hslash hjoined)⟩
  · obtain ⟨front, hjoined⟩ := (accepts_star_literal hplain).1 haccepts
    obtain ⟨rest, last, rfl⟩ := List.eq_nil_or_concat names |>.resolve_left hne
    rw [List.concat_eq_append] at hjoined ⊢
    exact ⟨last, by simp, (accepts_star_literal hplain).2 (exists_append_of_joined_concat hslash hjoined)⟩

end CodeAtlas.Glob

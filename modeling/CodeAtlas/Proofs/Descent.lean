import CodeAtlas.Proofs.Path
import Mathlib.Data.List.Induction
import Mathlib.Data.List.TakeWhile

/-!
# Paths below a path

The path of what is below a directory is the path of the directory with the names on the way joined to it.  Whatever
the spelling of the directory, the components are those of the directory and then the names, and as seen from the
directory there are the names alone.

## Main definitions

* `Path.descend` — the path of what names lead to below a directory
* `Path.Pure.below` — the same for a path that is given by its components

## Main results

* `Path.components_join` — the components of a path that is joined to another one
* `Path.ofString_descend` — a path below a directory, read
* `Path.descend_injective` — different names lead to different paths
* `Path.exists_descend_of_normalize` — a normal path from the root is made of names
* `Path.directory_descend_slash` — the directory that a name is in
* `Path.relativeTo_of_components` — a path below a directory as seen from it
-/

namespace CodeAtlas.Path

variable {root n : String} {names : List String}

/-! ### Joining -/

theorem not_isAbsolute_of_not_mem {c : String} (h : '/' ∉ c.toList) : ¬isAbsolute c = true := by
  intro habs
  have hhead : c.toList.head? = some '/' := by simpa [isAbsolute] using habs
  exact h (List.mem_of_mem_head? hhead)

/-- The components of a path that is joined to another one. -/
theorem components_join (a : String) {b : String} (hb : ¬isAbsolute b = true) :
    components (join a b) = components a ++ components b := by
  have hsep : "/" = '/'.toString := by decide
  rw [join, if_neg hb]
  split
  · next h =>
    rcases Bool.or_eq_true_iff.1 h with hempty | hslash
    · have ha : a = "" := by simpa using hempty
      subst ha
      have hnone : components "" = [] := by decide
      rw [String.empty_append, hnone, List.nil_append]
    · obtain ⟨front, hfront⟩ := List.getLast?_eq_some_iff.1 (beq_iff_eq.1 hslash)
      -- the slash at the end adds an empty field, which is no component
      have ha : a = String.ofList front ++ '/'.toString ++ "" := by
        rw [← String.toList_inj]
        simp [hfront]
      have hab : a ++ b = String.ofList front ++ '/'.toString ++ b := by
        rw [ha, String.append_empty]
      have hnone : Text.fields '/' "" = [""] := by decide
      rw [hab, components, components, ha, Text.fields_append_separator, Text.fields_append_separator, hnone,
        components]
      simp
  · rw [components, hsep, Text.fields_append_separator, List.filter_append]
    rfl

theorem components_of_not_mem (hname : n ≠ "") (hslash : '/' ∉ n.toList) : components n = [n] := by
  rw [components, Text.fields_of_not_mem hslash]
  simpa using hname

theorem plainComponents_eq (p : String) : Pure.plainComponents p = (components p).filter (· != ".") := by
  rw [Pure.plainComponents, components, List.filter_filter]
  refine List.filter_congr fun c _ => ?_
  rw [Bool.eq_iff_iff]
  simp [and_comm]

/-- What is appended to a path does not change with how many slashes it starts, if it has anything but slashes. -/
theorem rootOf_append {a : String} (h : ¬∀ c ∈ a.toList, (c == '/') = true) (b : String) :
    rootOf (a ++ b) = rootOf a := by
  have hsame : (a ++ b).toList.takeWhile (· == '/') = a.toList.takeWhile (· == '/') := by
    rw [String.toList_append, List.takeWhile_append, if_neg]
    intro hlength
    exact h (List.takeWhile_eq_self_iff.1 (List.takeWhile_sublist _ |>.eq_of_length hlength))
  rw [rootOf, rootOf, hsame]

/-- A name that is joined to a path does not change with how many slashes it starts. -/
theorem rootOf_join (a : String) (hname : n ≠ "") (hslash : '/' ∉ n.toList) : rootOf (join a n) = rootOf a := by
  obtain ⟨c, cs, hn⟩ := List.exists_cons_of_ne_nil (show n.toList ≠ [] by simpa using hname)
  have hc : (c == '/') = false := by
    have hne : c ≠ '/' := by
      rintro rfl
      exact hslash (by simp [hn])
    simpa using hne
  rw [join, if_neg (not_isAbsolute_of_not_mem hslash)]
  by_cases hall : ∀ x ∈ a.toList, (x == '/') = true
  · -- nothing but slashes
    have hjoined : (a.isEmpty || a.toList.getLast? == some '/') = true := by
      by_cases ha : a = ""
      · simp [ha]
      · obtain ⟨front, last, hlast⟩ := List.eq_nil_or_concat a.toList |>.resolve_left (by simpa using ha)
        have : last = '/' := by simpa using hall last (by simp [hlast])
        simp [hlast, this]
    have hsame : (a ++ n).toList.takeWhile (· == '/') = a.toList.takeWhile (· == '/') := by
      rw [String.toList_append, List.takeWhile_append_of_pos hall, hn, List.takeWhile_cons, if_neg (by simp [hc]),
        List.append_nil, List.takeWhile_eq_self_iff.2 hall]
    rw [if_pos hjoined, rootOf, rootOf, hsame]
  · split
    · exact rootOf_append hall n
    · rw [String.append_assoc, rootOf_append hall]

theorem size_join_le (a b : String) : (join a b).utf8ByteSize ≤ a.utf8ByteSize + 1 + b.utf8ByteSize := by
  rw [join]
  split
  · omega
  · split
    · rw [String.utf8ByteSize_append]
      omega
    · rw [String.utf8ByteSize_append, String.utf8ByteSize_append]
      exact le_rfl

/-! ### Names below a path -/

/-- The path of what names lead to below a directory. -/
def descend (root : String) (names : List String) : String := names.foldl join root

@[simp] theorem descend_nil (root : String) : descend root [] = root := rfl

theorem descend_cons (root n : String) (names : List String) :
    descend root (n :: names) = descend (join root n) names := rfl

theorem descend_append (root : String) (names rest : List String) :
    descend root (names ++ rest) = descend (descend root names) rest := List.foldl_append

theorem descend_concat (root n : String) (names : List String) :
    descend root (names ++ [n]) = join (descend root names) n := descend_append root names [n]

/-- The path of what names lead to below a directory that is given by its components. -/
def Pure.below (p : Pure) (names : List String) : Pure := ⟨p.root, p.parts ++ names⟩

theorem Pure.below_nil (p : Pure) : p.below [] = p := by simp [Pure.below]

theorem Pure.below_below (p : Pure) (names rest : List String) :
    (p.below names).below rest = p.below (names ++ rest) := by
  simp [Pure.below]

theorem Pure.allParts_below (p : Pure) (names : List String) : (p.below names).allParts = p.allParts ++ names := by
  rw [Pure.allParts, Pure.allParts, Pure.below]
  split <;> rfl

theorem Pure.below_injective (p : Pure) {rest : List String} (h : p.below names = p.below rest) : names = rest :=
  List.append_cancel_left (congrArg Pure.parts h)

theorem components_descend (root : String) (h : ∀ c ∈ names, IsName c ∧ '/' ∉ c.toList) :
    components (descend root names) = components root ++ names := by
  induction names generalizing root with
  | nil => simp
  | cons c names ih =>
    obtain ⟨hname, hslash⟩ := h c List.mem_cons_self
    rw [descend_cons, ih _ fun x hx => h x (List.mem_cons_of_mem _ hx),
      components_join root (not_isAbsolute_of_not_mem hslash), components_of_not_mem hname.1 hslash, List.append_assoc,
      List.singleton_append]

theorem rootOf_descend (root : String) (h : ∀ c ∈ names, IsName c ∧ '/' ∉ c.toList) :
    rootOf (descend root names) = rootOf root := by
  induction names generalizing root with
  | nil => rfl
  | cons c names ih =>
    obtain ⟨hname, hslash⟩ := h c List.mem_cons_self
    rw [descend_cons, ih _ fun x hx => h x (List.mem_cons_of_mem _ hx), rootOf_join root hname.1 hslash]

/-- A path below a directory has the components of the directory and then the names. -/
theorem ofString_descend (root : String) (h : ∀ c ∈ names, IsName c ∧ '/' ∉ c.toList) :
    Pure.ofString (descend root names) = (Pure.ofString root).below names := by
  have hnames : names.filter (· != ".") = names := by
    rw [List.filter_eq_self]
    intro c hc
    simpa using (h c hc).1.2.1
  rw [Pure.ofString, Pure.ofString, Pure.below, rootOf_descend root h, plainComponents_eq, components_descend root h,
    List.filter_append, hnames, plainComponents_eq]

/-- Different names lead to different paths. -/
theorem descend_injective (root : String) {rest : List String} (h : ∀ c ∈ names, IsName c ∧ '/' ∉ c.toList)
    (hrest : ∀ c ∈ rest, IsName c ∧ '/' ∉ c.toList) (heq : descend root names = descend root rest) : names = rest := by
  have hcomponents := congrArg components heq
  rw [components_descend root h, components_descend root hrest] at hcomponents
  exact List.append_cancel_left hcomponents

theorem descend_ne_empty (hroot : root ≠ "") (names : List String) : descend root names ≠ "" := by
  have hjoin : ∀ a b : String, a ≠ "" → join a b ≠ "" := by
    intro a b ha
    rw [join]
    split
    · next hb =>
      rintro rfl
      cases hb
    · split <;> simp [ha]
  induction names generalizing root with
  | nil => exact hroot
  | cons c names ih => exact ih (hjoin root c hroot)

/-! ### The text of a path -/

theorem rootOf_cases (p : String) : rootOf p = "" ∨ rootOf p = "/" ∨ rootOf p = "//" := by
  rw [rootOf]
  split <;> simp

theorem exists_eq_rootOf_append (p : String) : ∃ rest, p = rootOf p ++ rest := by
  have hsplit := List.takeWhile_append_dropWhile (p := (· == '/')) (l := p.toList)
  rw [rootOf]
  split
  · exact ⟨p, by simp⟩
  · next h =>
    refine ⟨String.ofList (p.toList.dropWhile (· == '/')), ?_⟩
    rw [h] at hsplit
    rw [← String.toList_inj]
    simpa using hsplit.symm
  · next hnil _ =>
    obtain ⟨c, cs, hcons⟩ := List.exists_cons_of_ne_nil hnil
    have hc : c = '/' := by
      have hmem : c ∈ p.toList.takeWhile (· == '/') := by simp [hcons]
      simpa using List.mem_takeWhile_imp hmem
    refine ⟨String.ofList (cs ++ p.toList.dropWhile (· == '/')), ?_⟩
    rw [hcons, hc] at hsplit
    rw [← String.toList_inj]
    simpa using hsplit.symm

theorem rootOf_ne_empty_iff {p : String} : rootOf p ≠ "" ↔ isAbsolute p = true := by
  refine ⟨fun h => ?_, fun h => ?_⟩
  · cases hlist : p.toList with
    | nil => simp [rootOf, hlist] at h
    | cons c cs =>
      by_cases hc : c = '/'
      · simp [isAbsolute, hlist, hc]
      · simp [rootOf, hlist, hc] at h
  · rcases rootOf_of_isAbsolute h with hroot | hroot <;> simp [hroot]

theorem mem_plainComponents {p c : String} (h : c ∈ Pure.plainComponents p) : c ≠ "" ∧ '/' ∉ c.toList := by
  obtain ⟨hfield, hplain⟩ := List.mem_filter.1 h
  exact ⟨by simpa using (Bool.and_eq_true_iff.1 hplain).1, Text.not_mem_of_mem_fields hfield⟩

namespace Pure

variable {p : Pure}

/-- The components of a path are texts between slashes, and it starts with slashes or not. -/
structure Spelled (p : Pure) : Prop where
  root : p.root = "" ∨ p.root = "/" ∨ p.root = "//"
  parts : ∀ c ∈ p.parts, c ≠ "" ∧ '/' ∉ c.toList

theorem spelled_ofString (s : String) : (ofString s).Spelled := ⟨rootOf_cases s, fun _ => mem_plainComponents⟩

theorem Spelled.below (h : p.Spelled) (hnames : ∀ c ∈ names, c ≠ "" ∧ '/' ∉ c.toList) : (p.below names).Spelled :=
  ⟨h.root, fun c hc => (List.mem_append.1 hc).elim (h.parts c) (hnames c)⟩

theorem toString_of_parts (h : p.Spelled) (hparts : p.parts ≠ []) : p.toString = p.root ++ Text.joined "/" p.parts := by
  rw [toString, if_neg]
  intro hempty
  obtain ⟨c, rest, hcons⟩ := List.exists_cons_of_ne_nil hparts
  have hc := h.parts c (by simp [hcons])
  have hjoined : Text.joined "/" p.parts = "" := by
    have hboth : p.root ++ Text.joined "/" p.parts = "" := by simpa using hempty
    exact (String.append_eq_empty_iff.1 hboth).2
  have hcomponents := components_joined h.parts
  rw [hjoined, hcons] at hcomponents
  cases hcomponents

theorem components_toString (h : p.Spelled) (hparts : p.parts ≠ []) : components p.toString = p.parts := by
  rw [toString_of_parts h hparts]
  rcases h.root with hroot | hroot | hroot
  · rw [hroot, String.empty_append, components_joined h.parts]
  · rw [hroot, components_slash_append, components_joined h.parts]
  · rw [hroot, show "//" = "/" ++ "/" from rfl, String.append_assoc, components_slash_append, components_slash_append,
      components_joined h.parts]

/-- A path that has components does not end with a slash. -/
theorem getLast?_toString (h : p.Spelled) (hparts : p.parts ≠ []) : p.toString.toList.getLast? ≠ some '/' := by
  obtain ⟨front, last, hlast⟩ := List.eq_nil_or_concat p.parts |>.resolve_left hparts
  rw [List.concat_eq_append] at hlast
  obtain ⟨hempty, hslash⟩ := h.parts last (by simp [hlast])
  have htext : ∃ before : String, p.toString = before ++ last := by
    rw [toString_of_parts h hparts, hlast, Text.joined]
    by_cases hfront : front = []
    · exact ⟨p.root, by simp [hfront]⟩
    · rw [String.intercalate_append_of_ne_nil hfront (List.cons_ne_nil _ _), String.intercalate_singleton,
        ← String.append_assoc]
      exact ⟨_, rfl⟩
  obtain ⟨before, hbefore⟩ := htext
  intro hend
  rw [hbefore, String.toList_append, List.getLast?_append_of_ne_nil _ (by simpa using hempty)] at hend
  exact hslash (List.mem_of_getLast? hend)

theorem isAbsolute_toString (h : p.Spelled) : isAbsolute p.toString = true ↔ p.root ≠ "" := by
  rcases h.root with hroot | hroot | hroot
  · refine iff_of_false ?_ (by simp [hroot])
    cases hparts : p.parts with
    | nil => simp [toString, hroot, hparts, Text.joined, isAbsolute]
    | cons c rest =>
      have hc := h.parts c (by simp [hparts])
      obtain ⟨a, as, ha⟩ := List.exists_cons_of_ne_nil (show c.toList ≠ [] by simpa using hc.1)
      have hhead : p.toString.toList.head? = some a := by
        rw [toString_of_parts h (by simp [hparts]), hroot, hparts, String.empty_append, Text.joined]
        cases rest <;> simp [String.intercalate_cons_cons, ha]
      rw [isAbsolute, hhead]
      simpa using fun heq : a = '/' => hc.2 (by simp [ha, heq])
  · refine iff_of_true ?_ (by simp [hroot])
    rw [toString, hroot, if_neg (by simp)]
    simp [isAbsolute]
  · refine iff_of_true ?_ (by simp [hroot])
    rw [toString, hroot, if_neg (by simp)]
    simp [isAbsolute]

/-- The characters of a path are slashes, a dot that stands for no components, and those of its components. -/
theorem mem_toString (h : p.Spelled) {a : Char} (ha : a ∈ p.toString.toList) :
    a = '/' ∨ a = '.' ∨ ∃ c ∈ p.parts, a ∈ c.toList := by
  rw [toString] at ha
  split at ha
  · exact Or.inr (Or.inl (by simpa using ha))
  · rw [String.toList_append, List.mem_append] at ha
    rcases ha with hroot | hjoined
    · have hmem : a ∈ "//".toList := by rcases h.root with hr | hr | hr <;> simp_all
      exact Or.inl (by simpa using hmem)
    · rcases Text.mem_of_mem_joined hjoined with hslash | hpart
      · exact Or.inl (by simpa using hslash)
      · exact Or.inr (Or.inr hpart)

/-- A path that is read and written again takes no more room. -/
theorem size_toString_ofString_le {s : String} (hs : s ≠ "") : (ofString s).toString.utf8ByteSize ≤ s.utf8ByteSize := by
  obtain ⟨rest, hrest⟩ := exists_eq_rootOf_append s
  have hsize : s.utf8ByteSize = (rootOf s).utf8ByteSize + rest.utf8ByteSize := by
    rw [← String.utf8ByteSize_append, ← hrest]
  have hparts : plainComponents s = plainComponents rest := by
    have hcomponents : components s = components rest := by
      rcases rootOf_cases s with hroot | hroot | hroot <;> rw [hroot] at hrest
      · rw [hrest, String.empty_append]
      · rw [hrest, components_slash_append]
      · rw [hrest, show "//" = "/" ++ "/" from rfl, String.append_assoc, components_slash_append,
          components_slash_append]
    rw [plainComponents_eq, plainComponents_eq, hcomponents]
  by_cases hnil : plainComponents s = []
  · -- there is the root alone, or a dot in its place
    have hpos : 0 < s.utf8ByteSize := Nat.pos_of_ne_zero (by simpa using hs)
    rw [toString, ofString, hnil]
    split
    · exact hpos
    · rw [String.utf8ByteSize_append, hsize]
      exact Nat.add_le_add_left (Nat.zero_le _) _
  · rw [toString_of_parts (spelled_ofString s) hnil, ofString, String.utf8ByteSize_append, hsize, hparts]
    have hslash : '/'.toString = "/" := by decide
    have hjoined := Text.size_joined_le "/" List.filter_sublist (hparts ▸ hnil)
    rw [← hslash, Text.joined_fields, hslash] at hjoined
    exact Nat.add_le_add_left hjoined _

end Pure

/-! ### Paths from the root -/

theorem join_eq {a b : String} (hb : ¬isAbsolute b = true) (ha : a ≠ "") (hslash : a.toList.getLast? ≠ some '/') :
    join a b = a ++ "/" ++ b := by
  rw [join, if_neg hb, if_neg (by simp [ha, hslash])]

theorem toString_slash (h : ∀ c ∈ names, IsName c ∧ '/' ∉ c.toList) :
    Pure.toString ⟨"/", names⟩ = descend "/" names := by
  induction names using List.reverseRecOn with
  | nil => rfl
  | append_singleton names n ih =>
    have hnames : ∀ c ∈ names, IsName c ∧ '/' ∉ c.toList := fun c hc => h c (List.mem_append_left _ hc)
    have hspelled : ∀ {cs : List String}, (∀ c ∈ cs, IsName c ∧ '/' ∉ c.toList) → Pure.Spelled ⟨"/", cs⟩ := fun hcs =>
      ⟨Or.inr (Or.inl rfl), fun c hc => ⟨(hcs c hc).1.1, (hcs c hc).2⟩⟩
    have hrel : ¬isAbsolute n = true := not_isAbsolute_of_not_mem (h n (by simp)).2
    rw [descend_concat, ← ih hnames, Pure.toString_of_parts (hspelled h) (by simp)]
    -- behind the root itself no slash is added
    by_cases hnil : names = []
    · subst hnil
      rw [join, if_neg hrel]
      rfl
    · have hlast := Pure.getLast?_toString (hspelled hnames) hnil
      rw [Pure.toString_of_parts (hspelled hnames) hnil] at hlast ⊢
      rw [join_eq hrel (by simp) hlast, Text.joined, String.intercalate_append_of_ne_nil hnil (by simp),
        String.intercalate_singleton]
      simp [Text.joined, String.append_assoc]

theorem getLast?_descend_slash (h : ∀ c ∈ names, IsName c ∧ '/' ∉ c.toList) (hne : names ≠ []) :
    (descend "/" names).toList.getLast? ≠ some '/' := by
  rw [← toString_slash h]
  exact Pure.getLast?_toString ⟨Or.inr (Or.inl rfl), fun c hc => ⟨(h c hc).1.1, (h c hc).2⟩⟩ hne

theorem ofString_descend_slash (h : ∀ c ∈ names, IsName c ∧ '/' ∉ c.toList) :
    Pure.ofString (descend "/" names) = ⟨"/", names⟩ := by
  have hroot : Pure.ofString "/" = ⟨"/", []⟩ := by decide
  rw [ofString_descend "/" h, hroot]
  rfl

theorem allParts_descend_slash (h : ∀ c ∈ names, IsName c ∧ '/' ∉ c.toList) :
    (Pure.ofString (descend "/" names)).allParts = "/" :: names := by
  rw [ofString_descend_slash h]
  rfl

/-- A normal path from the root is made of names. -/
theorem exists_descend_of_normalize {x : String} (h : rootOf x = "/") :
    ∃ names, (∀ c ∈ names, IsName c ∧ '/' ∉ c.toList) ∧ normalize x = descend "/" names := by
  have hnames : ∀ c ∈ normalComponents true (Text.fields '/' x), IsName c ∧ '/' ∉ c.toList := fun c hc =>
    ⟨(isName_of_mem_normalComponents hc).1, Text.not_mem_of_mem_fields (isName_of_mem_normalComponents hc).2⟩
  refine ⟨_, hnames, ?_⟩
  rw [← toString_slash hnames, normalize, Pure.toString]
  simp [h]

/-- A normal path from the root is known from its components. -/
theorem eq_descend_of_allParts {q : String} (hnormal : normalize q = q)
    (hparts : (Pure.ofString q).allParts = "/" :: names) :
    q = descend "/" names := by
  have hroot : rootOf q = "/" := by
    rw [Pure.allParts] at hparts
    split at hparts
    · have hslash : "/" ∈ Pure.plainComponents q := by
        rw [show Pure.plainComponents q = "/" :: names from hparts]
        exact List.mem_cons_self
      exact absurd (by decide) (mem_plainComponents hslash).2
    · exact (List.cons.inj hparts).1
  obtain ⟨cs, hcs, heq⟩ := exists_descend_of_normalize hroot
  rw [hnormal] at heq
  rw [heq, allParts_descend_slash hcs] at hparts
  rw [heq, (List.cons.inj hparts).2]

/-- The directory that a name is in. -/
theorem directory_descend_slash (h : ∀ c ∈ names, IsName c ∧ '/' ∉ c.toList) (hn : IsName n ∧ '/' ∉ n.toList) :
    directory (descend "/" (names ++ [n])) = descend "/" names := by
  have hrel : ¬isAbsolute n = true := not_isAbsolute_of_not_mem hn.2
  have hsplit : ∀ {p : String} {front : List Char}, p.toList = front ++ '/' :: n.toList →
      (splitLast p).1 = front ++ ['/'] := by
    intro p front hp
    have hname : ∀ c ∈ n.toList.reverse, (c != '/') = true := by
      intro c hc
      simpa using fun heq : c = '/' => hn.2 (heq ▸ List.mem_reverse.1 hc)
    rw [splitLast, hp, List.reverse_append, List.reverse_cons, List.append_assoc, List.dropWhile_append_of_pos hname]
    simp
  rw [descend_concat]
  by_cases hnil : names = []
  · subst hnil
    have hjoin : (join (descend "/" []) n).toList = [] ++ '/' :: n.toList := by simp [join, hrel]
    rw [directory, hsplit hjoin]
    rfl
  · have hlast := getLast?_descend_slash h hnil
    have hjoin : (join (descend "/" names) n).toList = (descend "/" names).toList ++ '/' :: n.toList := by
      rw [join_eq hrel (descend_ne_empty (by simp) names) hlast]
      simp
    obtain ⟨before, c, hc⟩ := List.eq_nil_or_concat (descend "/" names).toList |>.resolve_left
      (by simpa using descend_ne_empty (by simp) names)
    have hne : c ≠ '/' := by simpa [hc] using hlast
    rw [directory, hsplit hjoin, ← String.toList_inj, hc]
    simp [hne]

/-! ### As seen from the directory -/

theorem dropCommon_append (as bs : List String) : dropCommon as (as ++ bs) = ([], bs) := by
  induction as with
  | nil => cases bs <;> rfl
  | cons a as ih => rw [List.cons_append, dropCommon, if_pos (by simp), ih]

/-- A path below a directory as seen from it. -/
theorem relativeTo_of_components {start p : String} (h : components p = components start ++ names)
    (hnames : names ≠ []) :
    relativeTo start p = Text.joined "/" names := by
  simp [relativeTo, h, dropCommon_append, hnames]

end CodeAtlas.Path

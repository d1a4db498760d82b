import CodeAtlas.Proofs.Disk.Alike
import CodeAtlas.Proofs.Disk.Below

/-!
# Opening directories

One more name behind the path of a directory leads to the entry with this name, unless the path gets too long.
Whatever is found by walking is therefore found under its path.
-/

namespace CodeAtlas.Disk

variable {d : Disk} {p c n : String} {q cs rest : List String} {t u : Tree} {es : List (String × Tree)}

/-- What a path leads to; no path stands for the current directory. -/
def opened (d : Disk) (p : String) : Option Tree := d.get? (if p.isEmpty then "." else p)

/-! ### Steps one after another -/

/-- Where steps lead somewhere, the first of them lead to a directory. -/
theorem Leads.exists_directory {tree : Tree} {start : List String} (h : Leads tree start (cs ++ rest) (.found q t))
    (hrest : rest ≠ []) :
    ∃ q' es, Leads tree start cs (.found q' (.directory es)) ∧ Leads tree q' rest (.found q t) := by
  induction cs generalizing start with
  | nil =>
    obtain ⟨c, rest, rfl⟩ := List.exists_cons_of_ne_nil hrest
    obtain ⟨es, hes⟩ := exists_directory_of_follow_cons h.follow_eq
    exact ⟨start, es, .arrive hes, h⟩
  | cons c cs ih =>
    cases h with
    | stay hget hc hlater =>
      obtain ⟨q', es, hfirst, hlast⟩ := ih hlater
      exact ⟨q', es, .stay hget hc hfirst, hlast⟩
    | up hget hlater =>
      obtain ⟨q', es, hfirst, hlast⟩ := ih hlater
      exact ⟨q', es, .up hget hfirst, hlast⟩
    | down hget hc hsize hlater =>
      obtain ⟨q', es, hfirst, hlast⟩ := ih hlater
      exact ⟨q', es, .down hget hc hsize hfirst, hlast⟩

theorem follow_stay {tree : Tree} (hc : c = "" ∨ c = ".") (h : tree.get? q = some (.directory es)) :
    follow tree q [c] = .ok (.found q (.directory es)) := by
  rw [follow_cons h, if_pos hc, follow, h]

/-- A step that stays where it is leads from a directory to itself. -/
theorem leads_append_stay {tree : Tree} {start : List String} (hc : c = "" ∨ c = ".") :
    Leads tree start (cs ++ [c]) (.found q (.directory es)) ↔ Leads tree start cs (.found q (.directory es)) := by
  constructor
  · intro h
    obtain ⟨q', es', hfirst, hlast⟩ := h.exists_directory (by simp)
    cases (follow_stay hc hfirst.get?_found).symm.trans hlast.follow_eq
    exact hfirst
  · intro h
    apply leads_of_follow
    rw [h.follow_append, follow_stay hc h.get?_found]

/-! ### Paths -/

/-- A path that can be followed. -/
structure Clean (p : String) : Prop where
  no_null : '\x00' ∉ p.toList
  size_le : p.utf8ByteSize ≤ maxPath

/-- Where a path starts. -/
def origin (d : Disk) (p : String) : Option (List String) := if Path.isAbsolute p then some [] else d.here

theorem start?_iff {start : List String} (hp : p ≠ "") :
    d.start? p = some start ↔ Clean p ∧ d.origin p = some start := by
  rw [start?_eq_some]
  exact ⟨fun ⟨⟨_, hnull, hsize⟩, h⟩ => ⟨⟨hnull, hsize⟩, h⟩, fun ⟨hclean, h⟩ => ⟨⟨hp, hclean.1, hclean.2⟩, h⟩⟩

theorem get?_iff (hp : p ≠ "") : d.get? p = some t ↔
    Clean p ∧ ∃ start q, d.origin p = some start ∧ Leads d.root start (steps p) (.found q t) := by
  simp only [get?_eq_some, locate_eq_ok, start?_iff hp]
  constructor
  · rintro ⟨q, start, ⟨hclean, hstart⟩, hleads⟩
    exact ⟨hclean, start, q, hstart, hleads⟩
  · rintro ⟨hclean, start, q, hstart, hleads⟩
    exact ⟨q, start, ⟨hclean, hstart⟩, hleads⟩

/-- To a directory the steps of a path lead just like its components. -/
theorem leads_steps {start : List String} : Leads d.root start (steps p) (.found q (.directory es)) ↔
    Leads d.root start (Path.components p) (.found q (.directory es)) := by
  rw [steps]
  split
  · exact leads_append_stay (Or.inl rfl)
  · rfl

/-- What it takes to open a directory. -/
theorem opened_eq_directory : d.opened p = some (.directory es) ↔
    Clean p ∧ ∃ start q, d.origin p = some start ∧
      Leads d.root start (Path.components p) (.found q (.directory es)) := by
  rw [opened]
  split
  · next hempty =>
    obtain rfl : p = "" := by simpa using hempty
    have hdot : Path.components "." = [] ++ ["."] := by decide
    have hnone : Path.components "" = [] := by decide
    have hclean : Clean "." ∧ Clean "" := ⟨⟨by decide, by decide⟩, by decide, by decide⟩
    have hsame : d.origin "." = d.origin "" := rfl
    simp only [get?_iff (show "." ≠ "" by decide), leads_steps, hdot, hnone, leads_append_stay (Or.inr rfl), hclean,
      hsame]
  · next hempty =>
    have hp : p ≠ "" := by simpa using hempty
    simp only [get?_iff hp, leads_steps]

/-- Paths that start at the same place and have the same components open the same directory. -/
theorem opened_congr {p' : String} (horigin : d.origin p' = d.origin p)
    (hcomponents : Path.components p' = Path.components p)
    (hclean : Clean p') (h : d.opened p = some (.directory es)) : d.opened p' = some (.directory es) := by
  rw [opened_eq_directory, horigin, hcomponents]
  exact ⟨hclean, (opened_eq_directory.1 h).2⟩

/-! ### One more component -/

theorem join_eq_append (p : String) (hslash : '/' ∉ c.toList) :
    ∃ middle, Path.join p c = p ++ (middle ++ c) ∧ (middle = "" ∨ middle = "/") := by
  rw [Path.join, if_neg (Path.not_isAbsolute_of_not_mem hslash)]
  split
  · exact ⟨"", by simp, Or.inl rfl⟩
  · exact ⟨"/", by rw [String.append_assoc], Or.inr rfl⟩

/-- A path that can be followed together with one more component can be followed. -/
theorem Clean.of_join (hslash : '/' ∉ c.toList) (h : Clean (Path.join p c)) : Clean p := by
  obtain ⟨middle, heq, -⟩ := join_eq_append p hslash
  have hnull := h.no_null
  have hsize := h.size_le
  rw [heq, String.toList_append, List.mem_append, not_or] at hnull
  rw [heq, String.utf8ByteSize_append] at hsize
  exact ⟨hnull.1, by omega⟩

theorem Clean.join (h : Clean p) (hslash : '/' ∉ c.toList) (hnull : '\x00' ∉ c.toList)
    (hsize : (Path.join p c).utf8ByteSize ≤ maxPath) : Clean (Path.join p c) := by
  obtain ⟨middle, heq, hmiddle⟩ := join_eq_append p hslash
  refine ⟨?_, hsize⟩
  rw [heq, String.toList_append, String.toList_append, List.mem_append, List.mem_append]
  rintro (hmem | hmem | hmem)
  · exact h.no_null hmem
  · rcases hmiddle with rfl | rfl
    · cases hmem
    · exact absurd hmem (by decide)
  · exact hnull hmem

theorem size_le_join (p : String) (hslash : '/' ∉ c.toList) : p.utf8ByteSize ≤ (Path.join p c).utf8ByteSize := by
  obtain ⟨middle, heq, -⟩ := join_eq_append p hslash
  rw [heq, String.utf8ByteSize_append]
  omega

theorem join_ne_empty (hc : c ≠ "") (hslash : '/' ∉ c.toList) : Path.join p c ≠ "" := by
  obtain ⟨middle, heq, -⟩ := join_eq_append p hslash
  rw [heq]
  simp [hc]

theorem origin_join (hc : c ≠ "") (hslash : '/' ∉ c.toList) : d.origin (Path.join p c) = d.origin p := by
  have habs : Path.isAbsolute (Path.join p c) = true ↔ Path.isAbsolute p = true := by
    rw [← Path.rootOf_ne_empty_iff, Path.rootOf_join p hc hslash, Path.rootOf_ne_empty_iff]
  rw [origin, origin]
  simp only [habs]

theorem getLast?_join (hc : c ≠ "") (hslash : '/' ∉ c.toList) : (Path.join p c).toList.getLast? ≠ some '/' := by
  obtain ⟨middle, heq, -⟩ := join_eq_append p hslash
  have hne : c.toList ≠ [] := by simpa using hc
  rw [heq, String.toList_append, String.toList_append, ← List.append_assoc, List.getLast?_append_of_ne_nil _ hne]
  intro hmem
  exact hslash (List.mem_of_getLast? hmem)

theorem steps_join (hc : c ≠ "") (hslash : '/' ∉ c.toList) : steps (Path.join p c) = Path.components p ++ [c] := by
  rw [steps_of_not_slashed (getLast?_join hc hslash), Path.components_join p (Path.not_isAbsolute_of_not_mem hslash),
    Path.components_of_not_mem hc hslash]

/-- What it takes to find something behind one more component. -/
theorem get?_join_iff (hc : c ≠ "") (hslash : '/' ∉ c.toList) : d.get? (Path.join p c) = some u ↔
    Clean (Path.join p c) ∧ ∃ start q, d.origin p = some start ∧
      Leads d.root start (Path.components p ++ [c]) (.found q u) := by
  rw [get?_iff (join_ne_empty hc hslash), origin_join hc hslash, steps_join hc hslash]

/-- Where one more component leads to something there is a directory before it. -/
theorem exists_opened_of_get?_join (hc : c ≠ "") (hslash : '/' ∉ c.toList) (h : d.get? (Path.join p c) = some u) :
    ∃ es, d.opened p = some (.directory es) := by
  obtain ⟨hclean, start, q, hstart, hleads⟩ := (get?_join_iff hc hslash).1 h
  obtain ⟨q', es, hfirst, -⟩ := hleads.exists_directory (by simp)
  exact ⟨es, opened_eq_directory.2 ⟨hclean.of_join hslash, start, q', hstart, hfirst⟩⟩

theorem get?_singleton : (Tree.directory es).get? [n] = es.lookup n := by
  rw [Tree.get?_cons, Tree.child?, Tree.entries]
  cases es.lookup n <;> simp

theorem get?_join_of_lookup (h : d.opened p = some (.directory es)) (hn : IsEntryName n) (hu : es.lookup n = some u)
    (hsize : (Path.join p n).utf8ByteSize ≤ maxPath) : d.get? (Path.join p n) = some u := by
  obtain ⟨hclean, start, q, hstart, hleads⟩ := opened_eq_directory.1 h
  refine (get?_join_iff hn.isName.1 hn.no_slash).2 ⟨hclean.join hn.no_slash hn.no_null hsize, start, q ++ [n],
    hstart, ?_⟩
  apply leads_of_follow
  rw [hleads.follow_append]
  refine follow_names hleads.get?_found (by simpa using hn) ?_
  rw [get?_singleton, hu]

/-- A directory is found also behind a slash. -/
theorem opened_join_empty (hp : p ≠ "") (h : d.opened p = some (.directory es))
    (hsize : (Path.join p "").utf8ByteSize ≤ maxPath) :
    d.opened (Path.join p "") = some (.directory es) := by
  have hslash : '/' ∉ "".toList := by decide
  obtain ⟨middle, heq, -⟩ := join_eq_append p hslash
  have hsame : d.origin (Path.join p "") = d.origin p := by
    have hhead : (p ++ (middle ++ "")).toList.head? = p.toList.head? := by
      rw [String.toList_append, List.head?_append_of_ne_nil _ (by simpa using hp)]
    rw [heq, origin, origin, Path.isAbsolute, Path.isAbsolute, hhead]
  have hcomponents : Path.components (Path.join p "") = Path.components p := by
    have hnone : Path.components "" = [] := by decide
    rw [Path.components_join p (Path.not_isAbsolute_of_not_mem hslash), hnone, List.append_nil]
  exact opened_congr hsame hcomponents ((opened_eq_directory.1 h).1.join hslash (by decide) hsize) h

/-! ### Disks with well-formed names -/

theorem ne_empty_of_get? (h : d.get? p = some t) : p ≠ "" := by
  rintro rfl
  cases h

theorem opened_of_ne_empty (d : Disk) (hp : p ≠ "") : d.opened p = d.get? p := by
  have hempty : p.isEmpty = false := by simpa using hp
  rw [opened, hempty, if_neg (by decide)]

theorem opened_of_get? (h : d.get? p = some t) : d.opened p = some t := by
  rw [opened_of_ne_empty d (ne_empty_of_get? h), h]

/-- The entries of a directory have different names. -/
theorem wellNamed_of_opened (hd : d.root.WellNamed) (h : d.opened p = some (.directory es)) :
    (Tree.directory es).WellNamed := by
  obtain ⟨-, start, q, -, hleads⟩ := opened_eq_directory.1 h
  exact (hd.of_get? hleads.get?_found).1

theorem isEntryName_of_mem (h : (Tree.directory es).WellNamed) (hn : (n, u) ∈ es) : IsEntryName n := by
  cases h with
  | directory _ hnames _ => exact hnames _ hn

/-- A name leads from a directory to the entry with this name. -/
theorem get?_join_of_mem (hd : d.root.WellNamed) (h : d.opened p = some (.directory es)) (hn : (n, u) ∈ es)
    (hsize : (Path.join p n).utf8ByteSize ≤ maxPath) : d.get? (Path.join p n) = some u := by
  have hwell := wellNamed_of_opened hd h
  exact get?_join_of_lookup h (isEntryName_of_mem hwell hn) (Tree.lookup_of_mem hwell.nodup hn) hsize

/-- The directories of a walk are found under their paths. -/
theorem get?_of_mem_walk (hd : d.root.WellNamed) {path : String} (h : (path, t) ∈ d.walk withinReach p) :
    ∃ es, t = .directory es ∧ d.get? path = some t := by
  rw [walk] at h
  split at h
  · next u hu =>
    obtain ⟨q, hlocate⟩ := get?_eq_some.1 hu
    obtain ⟨start, -, hleads⟩ := locate_eq_ok.1 hlocate
    have hwell := (hd.of_get? hleads.get?_found).1
    clear hleads hlocate
    induction hwell generalizing p with
    | file => simp [Tree.walk] at h
    | @directory es hnodup hnames _ ih =>
      rw [Tree.walk, List.mem_cons, Tree.walk_below_eq, List.mem_flatMap] at h
      rcases h with heq | ⟨e, he, hmem⟩
      · cases heq
        exact ⟨es, rfl, hu⟩
      · split at hmem
        · next henter =>
          have hreach : (Path.join p e.1).utf8ByteSize ≤ maxPath := by
            simpa [withinReach] using (Bool.and_eq_true_iff.1 henter).2
          exact ih e he (get?_join_of_mem hd (opened_of_get? hu) he hreach) hmem
        · cases hmem
  · cases h

/-- The files of a directory are found under their paths. -/
theorem isFile_of_mem_filePaths (hd : d.root.WellNamed) (h : d.get? p = some (.directory es)) {path : String}
    (hpath : path ∈ filePaths p (.directory es)) (hsize : path.utf8ByteSize ≤ maxPath) : d.isFile path = true := by
  obtain ⟨⟨n, u⟩, hn, rfl⟩ := List.mem_map.1 hpath
  obtain ⟨hentry, hfile⟩ := List.mem_filter.1 hn
  have hu : u.isDirectory = false := by simpa using hfile
  rw [isFile, get?_join_of_mem hd (opened_of_get? h) hentry hsize]
  simp [hu]

end CodeAtlas.Disk

import CodeAtlas.Disk.Walk
import CodeAtlas.Proofs.Descent
import CodeAtlas.Proofs.Disk.Place

/-!
# What is below a directory

On a disk the entries of a directory have different names, and a name leads down.  So what is below a directory is
given by the names on the way, whether one walks through the tree or follows a path that is composed of the path of
the directory and the names.

## Main definitions

* `Disk.IsEntryName` — a name that an entry of a directory can have
* `Tree.WellNamed` — a tree as it can be on a disk

## Main results

* `Tree.mem_walk_iff` — the directories that a walk passes through
* `Disk.Leads.follow_below` — a path below a directory leads where the names lead from the directory
* `Disk.relative_descend` — a path below a directory as seen from it
-/

namespace CodeAtlas

open CodeAtlas.Path (IsName descend)

/-- A name that an entry of a directory can have. -/
structure Disk.IsEntryName (c : String) : Prop where
  isName : IsName c
  no_slash : '/' ∉ c.toList
  no_null : '\x00' ∉ c.toList
  size_le : c.utf8ByteSize ≤ maxName

instance (c : String) : Decidable (Disk.IsEntryName c) :=
  decidable_of_iff ((c ≠ "" ∧ c ≠ "." ∧ c ≠ "..") ∧ '/' ∉ c.toList ∧ '\x00' ∉ c.toList ∧ c.utf8ByteSize ≤ Disk.maxName)
    ⟨fun h => ⟨h.1, h.2.1, h.2.2.1, h.2.2.2⟩, fun h => ⟨h.1, h.2, h.3, h.4⟩⟩

namespace Tree

/-- A tree as it can be on a disk: the entries of a directory have different names. -/
inductive WellNamed : Tree → Prop
  | file (content : Content) (modified : Int) : WellNamed (.file content modified)
  | directory {es : List (String × Tree)} (hnodup : (es.map Prod.fst).Nodup)
      (hnames : ∀ e ∈ es, Disk.IsEntryName e.1) (hbelow : ∀ e ∈ es, WellNamed e.2) : WellNamed (.directory es)

variable {t u : Tree} {es : List (String × Tree)} {names : List String} {n : String}

theorem isDirectory_iff : t.isDirectory = true ↔ ∃ es, t = .directory es := by cases t <;> simp [isDirectory]

theorem mem_of_lookup (h : es.lookup n = some u) : (n, u) ∈ es := by
  obtain ⟨front, back, rfl, -⟩ := List.lookup_eq_some_iff.1 h
  simp

theorem lookup_of_mem (hnodup : (es.map Prod.fst).Nodup) (h : (n, u) ∈ es) : es.lookup n = some u := by
  induction es with
  | nil => cases h
  | cons e es ih =>
    obtain ⟨m, v⟩ := e
    rw [List.map_cons, List.nodup_cons] at hnodup
    rw [lookup_cons_eq]
    rcases List.mem_cons.1 h with heq | hrest
    · cases heq
      rw [if_pos rfl]
    · rw [if_neg, ih hnodup.2 hrest]
      rintro rfl
      exact hnodup.1 (List.mem_map.2 ⟨_, hrest, rfl⟩)

/-- The first of some names leads to an entry. -/
theorem get?_cons_eq_some (h : (directory es).get? (n :: names) = some u) :
    ∃ v, (n, v) ∈ es ∧ v.get? names = some u := by
  rw [get?_cons] at h
  obtain ⟨v, hv, hrest⟩ := Option.bind_eq_some_iff.1 h
  exact ⟨v, mem_of_lookup hv, hrest⟩

theorem get?_cons_of_mem (hnodup : (es.map Prod.fst).Nodup) (hv : (n, t) ∈ es) (names : List String) :
    (directory es).get? (n :: names) = t.get? names := by
  rw [get?_cons, child?, entries, lookup_of_mem hnodup hv, Option.bind_some]

theorem WellNamed.nodup (h : (Tree.directory es).WellNamed) : (es.map Prod.fst).Nodup := by
  cases h
  assumption

/-- Whatever is in a tree as it can be on a disk is such a tree too, and the names that lead to it are names of
entries. -/
theorem WellNamed.of_get? (h : t.WellNamed) (hget : t.get? names = some u) :
    u.WellNamed ∧ ∀ c ∈ names, Disk.IsEntryName c := by
  induction names generalizing t with
  | nil =>
    rw [get?_nil] at hget
    cases hget
    exact ⟨h, List.forall_mem_nil _⟩
  | cons n names ih =>
    cases h with
    | file => cases hget
    | directory hnodup hnames hbelow =>
      obtain ⟨v, hv, hrest⟩ := get?_cons_eq_some hget
      obtain ⟨hu, hrest⟩ := ih (hbelow _ hv) hrest
      exact ⟨hu, List.forall_mem_cons.2 ⟨hnames _ hv, hrest⟩⟩

theorem WellNamed.names_of_get? (h : t.WellNamed) (hget : t.get? names = some u) :
    ∀ c ∈ names, IsName c ∧ '/' ∉ c.toList :=
  fun c hc => ⟨((h.of_get? hget).2 c hc).isName, ((h.of_get? hget).2 c hc).no_slash⟩

/-! ### Walking -/

theorem walk_below_eq (enter : (directory name : String) → Bool) (p : String) (es : List (String × Tree)) :
    walk.below enter p es =
      es.flatMap fun e => if e.2.isDirectory && enter p e.1 then e.2.walk enter (Path.join p e.1) else [] := by
  induction es with
  | nil => simp [walk.below]
  | cons e es ih => simp [walk.below, ih]

/-- A walk passes through the directories that names lead to. -/
theorem mem_walk_iff (h : t.WellNamed) (p : String) {path : String} :
    (path, u) ∈ t.walk (fun _ _ => true) p ↔
      ∃ names, t.get? names = some u ∧ u.isDirectory = true ∧ path = descend p names := by
  induction h generalizing p with
  | file c m =>
    refine iff_of_false (by simp [walk]) ?_
    rintro ⟨names, hget, hdirectory, -⟩
    cases names with
    | nil =>
      cases hget
      cases hdirectory
    | cons => cases hget
  | @directory es hnodup _ _ ih =>
    rw [walk, List.mem_cons, walk_below_eq, List.mem_flatMap]
    constructor
    · rintro (heq | ⟨e, he, hmem⟩)
      · cases heq
        exact ⟨[], get?_nil _, rfl, rfl⟩
      · split at hmem
        · obtain ⟨names, hget, hdirectory, hpath⟩ := (ih e he _).1 hmem
          exact ⟨e.1 :: names, (get?_cons_of_mem hnodup he names).trans hget, hdirectory, hpath⟩
        · cases hmem
    · rintro ⟨names, hget, hdirectory, rfl⟩
      cases names with
      | nil =>
        rw [get?_nil] at hget
        cases hget
        exact Or.inl rfl
      | cons n names =>
        obtain ⟨v, hv, hrest⟩ := get?_cons_eq_some hget
        refine Or.inr ⟨(n, v), hv, ?_⟩
        have hwalked : (descend p (n :: names), u) ∈ v.walk (fun _ _ => true) (Path.join p n) :=
          (ih _ hv _).2 ⟨names, hrest, hdirectory, rfl⟩
        cases v with
        | file => simp [walk] at hwalked
        | directory => exact hwalked

end Tree

namespace Disk

variable {d : Disk} {root : String} {q names : List String} {t u : Tree} {es : List (String × Tree)}

/-! ### Following -/

/-- Steps that lead to something can be followed by others. -/
theorem Leads.follow_append {tree : Tree} {start cs : List String} (h : Leads tree start cs (.found q t))
    (rest : List String) : follow tree start (cs ++ rest) = follow tree q rest := by
  generalize hplace : Place.found q t = place at h
  induction h with
  | arrive =>
    cases hplace
    rfl
  | stay h hc _ ih => rw [List.cons_append, follow_cons h, if_pos hc, ih hplace]
  | up h _ ih => rw [List.cons_append, follow_cons h, if_neg (by decide), if_pos rfl, ih hplace]
  | down h hc hsize hrest ih =>
    obtain ⟨v, hv⟩ := hrest.exists_get?
    rw [List.cons_append, follow_cons h, if_neg (not_or.2 ⟨hc.1, hc.2.1⟩), if_neg hc.2.2,
      if_neg (Nat.not_lt.2 hsize), hv]
    exact ih hplace
  | stop => cases hplace

/-- Steps that lead nowhere else can be left out. -/
theorem Leads.plain {tree : Tree} {start cs : List String} {place : Place} (h : Leads tree start cs place) :
    Leads tree start (cs.filter fun c => c != "" && c != ".") place := by
  induction h with
  | arrive h => exact .arrive h
  | stay h hc _ ih =>
    rw [List.filter_cons, if_neg (by rcases hc with rfl | rfl <;> simp)]
    exact ih
  | up h _ ih =>
    rw [List.filter_cons, if_pos (by decide)]
    exact .up h ih
  | down h hc hsize _ ih =>
    rw [List.filter_cons, if_pos (by simp [hc.1, hc.2.1])]
    exact .down h hc hsize ih
  | stop h hc hsize hnone hrest =>
    rw [List.filter_cons, if_pos (by simp [hc.1, hc.2.1])]
    exact .stop h hc hsize hnone fun x hx => hrest x (List.mem_of_mem_filter hx)

/-- Names lead from a directory to what they lead to in its tree. -/
theorem follow_names {tree : Tree} (hq : tree.get? q = some t) (hnames : ∀ c ∈ names, IsEntryName c)
    (hget : t.get? names = some u) : follow tree q names = .ok (.found (q ++ names) u) := by
  induction names generalizing q t with
  | nil =>
    rw [Tree.get?_nil] at hget
    cases hget
    rw [follow, hq, List.append_nil]
  | cons n names ih =>
    cases t with
    | file => cases hget
    | directory es =>
      have hn := hnames n List.mem_cons_self
      obtain ⟨v, hchild, hrest⟩ := Option.bind_eq_some_iff.1 ((Tree.get?_cons _ _ _).symm.trans hget)
      have hv : tree.get? (q ++ [n]) = some v := (get?_concat hq n).trans hchild
      rw [follow_cons hq, if_neg (not_or.2 ⟨hn.isName.1, hn.isName.2.1⟩), if_neg hn.isName.2.2,
        if_neg (Nat.not_lt.2 hn.size_le), hv]
      simpa using ih hv (fun c hc => hnames c (List.mem_cons_of_mem _ hc)) hrest

/-- Names that lead somewhere lead there in the tree too. -/
theorem get?_of_follow {tree : Tree} {q' : List String} (hq : tree.get? q = some t) (hnames : ∀ c ∈ names, IsName c)
    (h : follow tree q names = .ok (.found q' u)) : t.get? names = some u := by
  have hleads := leads_of_follow h
  have hplace : q' = q ++ names := hleads.names_eq.trans (resolve_of_isName hnames)
  have hget := hleads.get?_found
  rw [hplace, Tree.get?_append, hq] at hget
  exact hget

/-- Below a directory one more name leads to an entry or to none. -/
theorem exists_follow_concat {tree : Tree} {c : String} (hq : tree.get? q = some t)
    (hnames : ∀ c ∈ names, IsEntryName c)
    (hget : t.get? names = some (.directory es)) (hc : IsName c) (hsize : c.utf8ByteSize ≤ maxName) :
    ∃ place, follow tree q (names ++ [c]) = .ok place := by
  have hfound := follow_names hq hnames hget
  have hplace : tree.get? (q ++ names) = some (.directory es) := by rw [Tree.get?_append, hq, Option.bind_some, hget]
  rw [(leads_of_follow hfound).follow_append, follow_cons hplace, if_neg (not_or.2 ⟨hc.1, hc.2.1⟩), if_neg hc.2.2,
    if_neg (Nat.not_lt.2 hsize)]
  cases hlast : tree.get? (q ++ names ++ [c]) with
  | none => exact ⟨_, if_pos (List.forall_mem_nil _)⟩
  | some v =>
    refine ⟨.found (q ++ names ++ [c]) v, ?_⟩
    rw [follow, hlast]

/-! ### Paths below a directory -/

open CodeAtlas.Path (Pure)

theorem filter_steps (p : String) : (steps p).filter (fun c => c != "" && c != ".") = Pure.plainComponents p := by
  have hcomponents : (Path.components p).filter (fun c => c != "" && c != ".") = Pure.plainComponents p := by
    rw [Path.components, Pure.plainComponents, List.filter_filter]
    refine List.filter_congr fun c _ => ?_
    by_cases hc : c = "" <;> simp [hc]
  rw [steps]
  split
  · rw [List.filter_append, hcomponents]
    simp
  · exact hcomponents

theorem start?_eq_some {p : String} {start : List String} :
    d.start? p = some start ↔ (p ≠ "" ∧ '\x00' ∉ p.toList ∧ p.utf8ByteSize ≤ maxPath) ∧
      (if Path.isAbsolute p then some [] else d.here) = some start := by
  rw [start?]
  split
  · next h =>
    refine iff_of_false (by simp) ?_
    rintro ⟨⟨hempty, hnull, hsize⟩, -⟩
    simp only [Bool.or_eq_true, List.contains_iff_mem, String.isEmpty_iff, decide_eq_true_eq] at h
    rcases h with (h | h) | h
    · exact hnull h
    · exact hempty h
    · exact absurd hsize (Nat.not_le.2 h)
  · next h =>
    simp only [Bool.or_eq_true, List.contains_iff_mem, String.isEmpty_iff, decide_eq_true_eq, not_or, Nat.not_lt] at h
    exact ⟨fun hstart => ⟨⟨h.1.2, h.1.1, h.2⟩, hstart⟩, fun hstart => hstart.2⟩

theorem isAbsolute_below (root : String) (hnames : ∀ c ∈ names, c ≠ "" ∧ '/' ∉ c.toList) :
    Path.isAbsolute ((Pure.ofString root).below names).toString = true ↔ Path.isAbsolute root = true := by
  rw [Path.Pure.isAbsolute_toString ((Path.Pure.spelled_ofString root).below hnames)]
  exact Path.rootOf_ne_empty_iff

/-- The steps of a path below a directory lead where the names lead from the directory. -/
theorem Leads.follow_below {start : List String} (h : Leads d.root start (steps root) (.found q (.directory es)))
    (hnames : ∀ c ∈ names, c ≠ "" ∧ '/' ∉ c.toList) :
    follow d.root start (steps ((Pure.ofString root).below names).toString) = follow d.root q names := by
  have hspelled := (Path.Pure.spelled_ofString root).below hnames
  have hplain := h.plain
  rw [filter_steps] at hplain
  by_cases hnil : ((Pure.ofString root).below names).parts = []
  · -- without components there is one step, which stays where it is
    obtain ⟨hcomponents, hnone⟩ : Pure.plainComponents root = [] ∧ names = [] := List.append_eq_nil_iff.1 hnil
    rw [hcomponents] at hplain
    cases hplain with
    | arrive hget =>
      have hstep : ∃ c, steps ((Pure.ofString root).below names).toString = [c] ∧ (c = "" ∨ c = ".") := by
        rcases hspelled.root with hr | hr | hr <;> rw [Pure.toString, hr, hnil]
        · exact ⟨".", by decide, by simp⟩
        · exact ⟨"", by decide, by simp⟩
        · exact ⟨"", by decide, by simp⟩
      obtain ⟨c, hc, hstay⟩ := hstep
      rw [hc, follow_cons hget, if_pos hstay, hnone]
  · rw [steps_of_not_slashed (Path.Pure.getLast?_toString hspelled hnil), Path.Pure.components_toString hspelled hnil]
    exact hplain.follow_append names

/-- What a path below a directory leads to is what the names lead to. -/
theorem get?_of_look_below (hroot : d.locate root = .ok (.found q (.directory es)))
    (hnames : ∀ c ∈ names, IsName c ∧ '/' ∉ c.toList) {q' : List String}
    (h : d.look ((Pure.ofString root).below names).toString = .ok (q', u)) :
    (Tree.directory es).get? names = some u := by
  have hslashes : ∀ c ∈ names, c ≠ "" ∧ '/' ∉ c.toList := fun c hc => ⟨(hnames c hc).1.1, (hnames c hc).2⟩
  obtain ⟨start, hstart, hleads⟩ := locate_eq_ok.1 hroot
  obtain ⟨start', hstart', hleads'⟩ := locate_eq_ok.1 (look_eq_ok.1 h)
  have hsame : start' = start := by
    have hplace := (start?_eq_some.1 hstart').2
    simp only [isAbsolute_below root hslashes, (start?_eq_some.1 hstart).2] at hplace
    exact (Option.some.inj hplace).symm
  subst hsame
  have hfollow := hleads'.follow_eq
  rw [hleads.follow_below hslashes] at hfollow
  exact get?_of_follow hleads.get?_found (fun c hc => (hnames c hc).1) hfollow

/-- A path below a directory can be followed unless it is too long. -/
theorem locate_below {place : Place} (hroot : d.locate root = .ok (.found q (.directory es)))
    (hnames : ∀ c ∈ names, c ≠ "" ∧ '/' ∉ c.toList) (hnull : ∀ c ∈ names, '\x00' ∉ c.toList)
    (hsize : ((Pure.ofString root).below names).toString.utf8ByteSize ≤ maxPath)
    (h : follow d.root q names = .ok place) : d.locate ((Pure.ofString root).below names).toString = .ok place := by
  have hspelled := (Path.Pure.spelled_ofString root).below hnames
  obtain ⟨start, hstart, hleads⟩ := locate_eq_ok.1 hroot
  obtain ⟨⟨-, hclean, -⟩, hplace⟩ := start?_eq_some.1 hstart
  refine locate_eq_ok.2 ⟨start, start?_eq_some.2 ⟨⟨?_, ?_, hsize⟩, ?_⟩, leads_of_follow ?_⟩
  · rw [Pure.toString]
    split
    · simp
    · next hempty => simpa using hempty
  · intro hmem
    rcases Path.Pure.mem_toString hspelled hmem with heq | heq | ⟨c, hc, hmem⟩
    · exact absurd heq (by decide)
    · exact absurd heq (by decide)
    · rcases List.mem_append.1 hc with hpart | hname
      · exact hclean (Text.mem_of_mem_fields (List.mem_of_mem_filter hpart) hmem)
      · exact hnull c hname hmem
  · simp only [isAbsolute_below root hnames]
    exact hplace
  · rw [hleads.follow_below hnames]
    exact h

/-! ### As seen from the directory -/

theorem components_normalize {p : String} (h : Path.isAbsolute p = true) :
    Path.components (Path.normalize p) = resolve [] (Path.components p) := by
  rw [Path.components_normalize h, ← resolve_nil_eq, resolve_components]

theorem absolute_join {p a n : String} (h : d.absolute p = .ok a) (hname : IsName n) (hslash : '/' ∉ n.toList) :
    ∃ b, d.absolute (Path.join p n) = .ok b ∧ Path.components b = Path.components a ++ [n] := by
  have habs : Path.isAbsolute (Path.join p n) = true ↔ Path.isAbsolute p = true := by
    rw [← Path.rootOf_ne_empty_iff, Path.rootOf_join p hname.1 hslash, Path.rootOf_ne_empty_iff]
  have hcomponents : Path.components (Path.join p n) = Path.components p ++ [n] := by
    rw [Path.components_join p (Path.not_isAbsolute_of_not_mem hslash), Path.components_of_not_mem hname.1 hslash]
  have hlast : ∀ cs : List String, resolve [] (cs ++ [n]) = resolve [] cs ++ [n] := fun cs =>
    (resolve_append [] cs [n]).trans (resolve_of_isName (by simpa using hname))
  rw [absolute] at h ⊢
  by_cases hp : Path.isAbsolute p = true
  · rw [if_pos hp] at h
    cases h
    rw [if_pos (habs.2 hp)]
    refine ⟨_, rfl, ?_⟩
    rw [components_normalize hp, components_normalize (habs.2 hp), hcomponents, hlast]
  · rw [if_neg hp] at h
    obtain ⟨here, hhere, hjoined⟩ := exists_of_bind_eq_ok h
    cases hjoined
    have hroot := isAbsolute_herePath hhere
    rw [if_neg (mt habs.1 hp), hhere]
    refine ⟨_, rfl, ?_⟩
    rw [Path.absolute, if_neg (mt habs.1 hp), Path.absolute, if_neg hp, components_normalize (isAbsolute_join hroot),
      components_normalize (isAbsolute_join hroot), Path.components_join here (mt habs.1 hp),
      Path.components_join here hp,
      hcomponents, ← List.append_assoc, hlast]

theorem absolute_descend {a : String} (h : d.absolute root = .ok a) (hnames : ∀ c ∈ names, IsName c ∧ '/' ∉ c.toList) :
    ∃ b, d.absolute (descend root names) = .ok b ∧ Path.components b = Path.components a ++ names := by
  induction names generalizing root a with
  | nil => exact ⟨a, h, by simp⟩
  | cons n names ih =>
    obtain ⟨hname, hslash⟩ := hnames n List.mem_cons_self
    obtain ⟨b, hb, hcomponents⟩ := absolute_join h hname hslash
    obtain ⟨b', hb', hcomponents'⟩ := ih hb fun c hc => hnames c (List.mem_cons_of_mem _ hc)
    refine ⟨b', hb', ?_⟩
    rw [hcomponents', hcomponents, List.append_assoc, List.singleton_append]

theorem exists_absolute_of_locate {p : String} {place : Place} (h : d.locate p = .ok place) :
    ∃ a, d.absolute p = .ok a := by
  obtain ⟨start, hstart, -⟩ := locate_eq_ok.1 h
  have hplace := (start?_eq_some.1 hstart).2
  rw [absolute]
  split at hplace
  · next habs => exact ⟨_, if_pos habs⟩
  · next habs =>
    rw [if_neg habs, herePath, hplace]
    cases start with
    | nil => exact ⟨_, rfl⟩
    | cons => exact ⟨_, rfl⟩

/-- A path below a directory as seen from it. -/
theorem relative_descend {place : Place} (hroot : d.locate root = .ok place)
    (hnames : ∀ c ∈ names, IsName c ∧ '/' ∉ c.toList)
    (hne : names ≠ []) : d.relative root (descend root names) = .ok (Text.joined "/" names) := by
  obtain ⟨start, hstart, -⟩ := locate_eq_ok.1 hroot
  obtain ⟨a, ha⟩ := exists_absolute_of_locate hroot
  obtain ⟨b, hb, hcomponents⟩ := absolute_descend ha hnames
  have hempty : ¬(descend root names).isEmpty = true := by
    simpa using Path.descend_ne_empty (start?_eq_some.1 hstart).1.1 names
  rw [relative, if_neg hempty, ha, hb]
  exact congrArg Except.ok (Path.relativeTo_of_components hcomponents hne)

end Disk

end CodeAtlas

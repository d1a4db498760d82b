import CodeAtlas.Files.Filter
import CodeAtlas.Proofs.Disk.Below
import CodeAtlas.Proofs.Disk.Change
import Mathlib.Data.List.Induction
import Mathlib.Data.List.Nodup

/-!
# The walk through a directory is a filter

A walk that turns back at what is ignored gives the files of the tree of which neither the name nor a name on the way
to it is ignored, in the order of the tree.

## Main definitions

* `Tree.fileNames` — the names that lead to the files of a tree
* `Files.kept` — whether a walk comes to what names lead to
* `Files.Decided` — whether all that a walk comes to is known to be ignored or not

## Main results

* `Files.filesBelow_eq_ok_iff` — what a walk gives, and when it gives anything
-/

namespace CodeAtlas

open CodeAtlas.Path (descend)

namespace Tree

/-- The names that lead to the files of a tree: in a directory first its own files, then those below. -/
def fileNames : Tree → List (List String)
  | .file _ _ => []
  | .directory es => ((es.filter fun e => !e.2.isDirectory).map fun e => [e.1]) ++ below es
where
  below : List (String × Tree) → List (List String)
    | [] => []
    | (n, t) :: rest => (fileNames t).map (n :: ·) ++ below rest

theorem fileNames_below_eq (es : List (String × Tree)) :
    fileNames.below es = es.flatMap fun e => e.2.fileNames.map (e.1 :: ·) := by
  induction es with
  | nil => simp [fileNames.below]
  | cons e es ih => simp [fileNames.below, ih]

theorem ne_nil_of_mem_fileNames {t : Tree} {names : List String} (h : names ∈ t.fileNames) : names ≠ [] := by
  cases t with
  | file => simp [fileNames] at h
  | directory es =>
    rintro rfl
    simp [fileNames, fileNames_below_eq] at h

theorem mem_fileNames_iff {t : Tree} (h : t.WellNamed) {names : List String} :
    names ∈ t.fileNames ↔ names ≠ [] ∧ ∃ u, t.get? names = some u ∧ u.isDirectory = false := by
  induction h generalizing names with
  | file c m =>
    refine iff_of_false (by simp [fileNames]) ?_
    rintro ⟨hne, u, hget, -⟩
    rw [get?_file_of_ne_nil c m hne] at hget
    cases hget
  | @directory es hnodup _ _ ih =>
    rw [fileNames, fileNames_below_eq, List.mem_append, List.mem_flatMap, List.mem_map]
    constructor
    · rintro (⟨e, he, rfl⟩ | ⟨e, he, hmem⟩)
      · obtain ⟨he, hfile⟩ := List.mem_filter.1 he
        refine ⟨by simp, e.2, ?_, by simpa using hfile⟩
        rw [get?_cons_of_mem hnodup he, get?_nil]
      · obtain ⟨rest, hrest, rfl⟩ := List.mem_map.1 hmem
        obtain ⟨-, u, hget, hfile⟩ := (ih e he).1 hrest
        exact ⟨by simp, u, (get?_cons_of_mem hnodup he rest).trans hget, hfile⟩
    · rintro ⟨hne, u, hget, hfile⟩
      obtain ⟨n, rest, rfl⟩ := List.exists_cons_of_ne_nil hne
      obtain ⟨v, hv, hrest⟩ := get?_cons_eq_some hget
      by_cases hnil : rest = []
      · subst hnil
        rw [get?_nil] at hrest
        cases hrest
        exact Or.inl ⟨(n, u), List.mem_filter.2 ⟨hv, by simpa using hfile⟩, rfl⟩
      · exact Or.inr ⟨(n, v), hv, List.mem_map.2 ⟨rest, (ih _ hv).2 ⟨hnil, u, hrest, hfile⟩, rfl⟩⟩

theorem nodup_fileNames {t : Tree} (h : t.WellNamed) : t.fileNames.Nodup := by
  induction h with
  | file => simp [fileNames]
  | @directory es hnodup _ _ ih =>
    rw [fileNames, fileNames_below_eq]
    refine List.nodup_append'.2 ⟨?_, ?_, ?_⟩
    · have hown : ((es.filter fun e => !e.2.isDirectory).map Prod.fst).Nodup :=
        hnodup.sublist (List.filter_sublist.map _)
      rw [show (fun e : String × Tree => [e.1]) = (fun n => [n]) ∘ Prod.fst from rfl, ← List.map_map]
      exact hown.map fun a b hab => by simpa using hab
    · refine List.nodup_flatMap.2 ⟨fun e he => (ih e he).map fun a b hab => by simpa using hab, ?_⟩
      refine (List.pairwise_map.1 hnodup).imp ?_
      intro e e' hne names hmem hmem'
      obtain ⟨rest, -, rfl⟩ := List.mem_map.1 hmem
      obtain ⟨rest', -, heq⟩ := List.mem_map.1 hmem'
      exact hne (by simpa using (List.cons.inj heq).1.symm)
    · intro names hmem hmem'
      obtain ⟨e, -, rfl⟩ := List.mem_map.1 hmem
      obtain ⟨e', -, hmem'⟩ := List.mem_flatMap.1 hmem'
      obtain ⟨rest, hrest, heq⟩ := List.mem_map.1 hmem'
      exact ne_nil_of_mem_fileNames hrest (List.cons.inj heq).2

end Tree

namespace Files

/-! ### Questions that may fail -/

section Except

variable {α : Type} {f : α → Except Error Bool} {as kept : List α}

theorem filterAuxM_eq_ok {acc out : List α} : as.filterAuxM f acc = .ok out ↔
    (∀ a ∈ as, ∃ b, f a = .ok b) ∧ out = (as.filter fun a => (f a).toOption == some true).reverse ++ acc := by
  induction as generalizing acc with
  | nil =>
    simp only [List.filterAuxM, List.filter_nil, List.reverse_nil, List.nil_append, List.not_mem_nil]
    exact ⟨fun h => ⟨nofun, (Except.ok.inj h).symm⟩, fun h => congrArg Except.ok h.2.symm⟩
  | cons a as ih =>
    rw [List.filterAuxM, List.forall_mem_cons]
    cases ha : f a with
    | error e => exact iff_of_false nofun fun h => nomatch h.1.1
    | ok b =>
      refine Iff.trans ih ?_
      cases b <;> simp [ha, Except.toOption]

theorem filterM_eq_ok : as.filterM f = .ok kept ↔
    (∀ a ∈ as, ∃ b, f a = .ok b) ∧ kept = as.filter fun a => (f a).toOption == some true := by
  rw [List.filterM]
  constructor
  · intro h
    obtain ⟨out, hout, hkept⟩ := Disk.exists_of_bind_eq_ok h
    obtain ⟨hall, rfl⟩ := filterAuxM_eq_ok.1 hout
    refine ⟨hall, ?_⟩
    cases hkept
    simp
  · rintro ⟨hall, rfl⟩
    rw [filterAuxM_eq_ok.2 ⟨hall, rfl⟩]
    simp [bind, Except.bind, pure, Except.pure]

theorem anyM_eq_false : as.anyM f = .ok false ↔ ∀ a ∈ as, f a = .ok false := by
  induction as with
  | nil => exact iff_of_true rfl (List.forall_mem_nil _)
  | cons a as ih =>
    rw [List.anyM_cons, List.forall_mem_cons, ← ih]
    cases ha : f a with
    | error e => exact iff_of_false nofun fun h => nomatch h.1
    | ok b => cases b <;> simp [bind, Except.bind, pure, Except.pure]

theorem exists_of_anyM (h : as.anyM f = .ok true) : ∃ a ∈ as, f a = .ok true := by
  induction as with
  | nil => cases h
  | cons a as ih =>
    rw [List.anyM_cons] at h
    obtain ⟨b, hb, hrest⟩ := Disk.exists_of_bind_eq_ok h
    cases b with
    | true => exact ⟨a, List.mem_cons_self, hb⟩
    | false =>
      obtain ⟨c, hc, hfound⟩ := ih hrest
      exact ⟨c, List.mem_cons_of_mem _ hc, hfound⟩

theorem exists_anyM (h : ∀ a ∈ as, ∃ b, f a = .ok b) : ∃ b, as.anyM f = .ok b := by
  induction as with
  | nil => exact ⟨false, rfl⟩
  | cons a as ih =>
    obtain ⟨⟨b, hb⟩, hrest⟩ := List.forall_mem_cons.1 h
    rw [List.anyM_cons, hb]
    cases b with
    | true => exact ⟨true, rfl⟩
    | false => exact ih hrest

theorem exists_of_anyM_eq_error {e : Error} (h : as.anyM f = .error e) : ∃ a ∈ as, f a = .error e := by
  induction as with
  | nil => cases h
  | cons a as ih =>
    rw [List.anyM_cons] at h
    cases ha : f a with
    | error e' =>
      rw [ha] at h
      cases h
      exact ⟨a, List.mem_cons_self, ha⟩
    | ok b =>
      rw [ha] at h
      cases b with
      | true => cases h
      | false =>
        obtain ⟨c, hc, hfound⟩ := ih h
        exact ⟨c, List.mem_cons_of_mem _ hc, hfound⟩

end Except

/-! ### A walk -/

variable {ignored : (path name : String) → Except Error Bool} {path : String} {t : Tree} {es : List (String × Tree)}
  {names : List String} {n : String}

/-- Whether a walk comes to what names lead to, and does not ignore it. -/
def kept (ignored : (path name : String) → Except Error Bool) (path : String) : List String → Bool
  | [] => true
  | n :: rest =>
    decide (path.utf8ByteSize ≤ Disk.maxPath) && (ignored (Path.join path n) n).toOption == some false &&
      kept ignored (Path.join path n) rest

/-- All that a walk comes to is known to be ignored or not. -/
def Decided (ignored : (path name : String) → Except Error Bool) (path : String) (t : Tree) : Prop :=
  ∀ names n u, t.get? (names ++ [n]) = some u → kept ignored path names = true →
    (descend path names).utf8ByteSize ≤ Disk.maxPath → ∃ b, ignored (descend path (names ++ [n])) n = .ok b

theorem toOption_eq_some {x : Except Error Bool} {b : Bool} : (x.toOption == some b) = true ↔ x = .ok b := by
  cases x <;> simp [Except.toOption]

theorem kept_cons : kept ignored path (n :: names) = true ↔ path.utf8ByteSize ≤ Disk.maxPath ∧
    ignored (Path.join path n) n = .ok false ∧ kept ignored (Path.join path n) names = true := by
  rw [kept, Bool.and_eq_true, Bool.and_eq_true, decide_eq_true_iff, toOption_eq_some, and_assoc]

/-- A walk goes one step on. -/
theorem kept_concat : kept ignored path (names ++ [n]) = true ↔ kept ignored path names = true ∧
    (descend path names).utf8ByteSize ≤ Disk.maxPath ∧ ignored (descend path (names ++ [n])) n = .ok false := by
  induction names generalizing path with
  | nil =>
    rw [List.nil_append, kept_cons]
    simp [kept, Path.descend_cons]
  | cons m names ih => rw [List.cons_append, kept_cons, kept_cons, ih, and_assoc, and_assoc, Path.descend_cons,
      Path.descend_cons]

/-- A walk that ignores less comes further. -/
theorem kept_mono {ignored' : (path name : String) → Except Error Bool}
    (h : ∀ path name, ignored' path name = .ok false → ignored path name = .ok false)
    (hkept : kept ignored' path names = true) : kept ignored path names = true := by
  induction names generalizing path with
  | nil => rfl
  | cons n names ih =>
    obtain ⟨hsize, hpass, hrest⟩ := kept_cons.1 hkept
    exact kept_cons.2 ⟨hsize, h _ _ hpass, ih hrest⟩

theorem decided_directory (hnodup : (es.map Prod.fst).Nodup) (hsize : path.utf8ByteSize ≤ Disk.maxPath) :
    Decided ignored path (.directory es) ↔ ∀ e ∈ es, (∃ b, ignored (Path.join path e.1) e.1 = .ok b) ∧
      (ignored (Path.join path e.1) e.1 = .ok false → Decided ignored (Path.join path e.1) e.2) := by
  constructor
  · intro h e he
    refine ⟨h [] e.1 e.2 ((Tree.get?_cons_of_mem hnodup he []).trans (Tree.get?_nil _)) rfl hsize, ?_⟩
    intro hpass names n u hget hkept hroom
    exact h (e.1 :: names) n u ((Tree.get?_cons_of_mem hnodup he _).trans hget) (kept_cons.2 ⟨hsize, hpass, hkept⟩)
      hroom
  · intro h names n u hget hkept hroom
    cases names with
    | nil =>
      obtain ⟨v, hv, -⟩ := Tree.get?_cons_eq_some hget
      exact (h _ hv).1
    | cons m names =>
      obtain ⟨v, hv, hrest⟩ := Tree.get?_cons_eq_some hget
      obtain ⟨-, hpass, hkept⟩ := kept_cons.1 hkept
      exact (h _ hv).2 hpass names n u hrest hkept hroom

theorem filesBelow_below_eq_ok {names : List String} {decided : String × Tree → Prop}
    {found : String × Tree → List String}
    (h : ∀ e ∈ es, ∀ part, filesBelow ignored (Path.join path e.1) e.2 = .ok part ↔ decided e ∧ part = found e)
    {inner : List String} : filesBelow.below ignored path names es = .ok inner ↔
      (∀ e ∈ es, names.contains e.1 = true → decided e) ∧
        inner = es.flatMap fun e => if names.contains e.1 = true then found e else [] := by
  induction es generalizing inner with
  | nil =>
    rw [filesBelow.below]
    simp [eq_comm]
  | cons e es ih =>
    obtain ⟨n, u⟩ := e
    rw [List.forall_mem_cons] at h
    rw [filesBelow.below, List.forall_mem_cons, List.flatMap_cons]
    have hrest := @ih h.2
    by_cases hn : names.contains n = true
    · simp only [hn, if_true, true_implies]
      constructor
      · intro hok
        obtain ⟨part, hpart, hok⟩ := Disk.exists_of_bind_eq_ok hok
        obtain ⟨more, hmore, hok⟩ := Disk.exists_of_bind_eq_ok hok
        obtain ⟨hdecided, rfl⟩ := (h.1 part).1 hpart
        obtain ⟨hall, rfl⟩ := hrest.1 hmore
        cases hok
        exact ⟨⟨hdecided, hall⟩, rfl⟩
      · rintro ⟨⟨hdecided, hall⟩, rfl⟩
        rw [(h.1 _).2 ⟨hdecided, rfl⟩, hrest.2 ⟨hall, rfl⟩]
        rfl
    · simp only [hn, if_false, Bool.false_eq_true, false_implies, true_and, List.nil_append]
      rw [← hrest]
      constructor
      · intro hok
        obtain ⟨none, hnone, hok⟩ := Disk.exists_of_bind_eq_ok hok
        obtain ⟨more, hmore, hok⟩ := Disk.exists_of_bind_eq_ok hok
        cases hnone
        cases hok
        exact hmore
      · intro hok
        rw [hok]
        rfl

/-- The entries of a directory that are not ignored. -/
def passed (ignored : (path name : String) → Except Error Bool) (path : String) (es : List (String × Tree)) :
    List (String × Tree) :=
  es.filter fun e => (ignored (Path.join path e.1) e.1).toOption == some false

theorem filesBelow_directory (hsize : path.utf8ByteSize ≤ Disk.maxPath) {files : List String} :
    filesBelow ignored path (.directory es) = .ok files ↔
      (∀ e ∈ es, ∃ b, ignored (Path.join path e.1) e.1 = .ok b) ∧
        ∃ inner, filesBelow.below ignored path ((passed ignored path es).map Prod.fst) es = .ok inner ∧
          files = (((passed ignored path es).filter fun e => !e.2.isDirectory).map fun e => Path.join path e.1) ++
            inner := by
  have hall : (∀ e ∈ es, ∃ b, (!·) <$> ignored (Path.join path e.1) e.1 = .ok b) ↔
      ∀ e ∈ es, ∃ b, ignored (Path.join path e.1) e.1 = .ok b := by
    refine forall₂_congr fun e _ => ?_
    cases ignored (Path.join path e.1) e.1 <;> simp [Functor.map, Except.map]
  have hpassed : (es.filter fun e => ((!·) <$> ignored (Path.join path e.1) e.1).toOption == some true) =
      passed ignored path es := by
    refine List.filter_congr fun e _ => ?_
    cases ignored (Path.join path e.1) e.1 <;> simp [Functor.map, Except.map, Except.toOption]
  rw [filesBelow, if_neg (Nat.not_lt.2 hsize)]
  constructor
  · intro h
    obtain ⟨some, hsome, h⟩ := Disk.exists_of_bind_eq_ok h
    obtain ⟨inner, hinner, h⟩ := Disk.exists_of_bind_eq_ok h
    obtain ⟨hdecided, rfl⟩ := filterM_eq_ok.1 hsome
    cases h
    rw [← hpassed]
    exact ⟨hall.1 hdecided, inner, hinner, rfl⟩
  · rintro ⟨hdecided, inner, hinner, rfl⟩
    have hfilter := filterM_eq_ok.2 ⟨hall.2 hdecided, hpassed.symm⟩
    refine (congrArg (· >>= _) hfilter).trans ?_
    show (filesBelow.below ignored path _ es >>= _) = _
    rw [hinner]
    rfl

theorem contains_passed {e : String × Tree} (he : e ∈ es) :
    ((passed ignored path es).map Prod.fst).contains e.1 = true ↔ ignored (Path.join path e.1) e.1 = .ok false := by
  rw [List.contains_iff_mem, List.mem_map]
  constructor
  · rintro ⟨e', he', hname⟩
    rw [← hname]
    exact toOption_eq_some.1 (List.mem_filter.1 he').2
  · intro hpass
    exact ⟨e, List.mem_filter.2 ⟨he, toOption_eq_some.2 hpass⟩, rfl⟩

theorem filter_fileNames (hsize : path.utf8ByteSize ≤ Disk.maxPath) :
    ((Tree.directory es).fileNames.filter (kept ignored path)).map (descend path) =
      (((passed ignored path es).filter fun e => !e.2.isDirectory).map fun e => Path.join path e.1) ++
        es.flatMap fun e => if ((passed ignored path es).map Prod.fst).contains e.1 = true then
          (e.2.fileNames.filter (kept ignored (Path.join path e.1))).map (descend (Path.join path e.1)) else [] := by
  have hsingle : ∀ e : String × Tree, kept ignored path [e.1] =
      ((ignored (Path.join path e.1) e.1).toOption == some false) := by
    intro e
    simp [kept, hsize]
  rw [Tree.fileNames, Tree.fileNames_below_eq, List.filter_append, List.map_append]
  congr 1
  · rw [List.filter_map, List.map_map, passed, List.filter_filter, List.filter_filter]
    congr 1
    refine List.filter_congr fun e _ => ?_
    rw [Bool.and_comm]
    simp [hsingle]
  · rw [List.filter_flatMap, List.map_flatMap]
    refine List.flatMap_congr fun e he => ?_
    rw [List.filter_map, List.map_map]
    by_cases hpass : ignored (Path.join path e.1) e.1 = .ok false
    · rw [if_pos ((contains_passed he).2 hpass)]
      congr 1
      refine List.filter_congr fun names _ => ?_
      simp [kept, hsize, hpass, Except.toOption]
    · rw [if_neg (mt (contains_passed he).1 hpass), List.filter_eq_nil_iff.2, List.map_nil]
      intro names _ hkept
      exact hpass (kept_cons.1 hkept).2.1

/-- A walk is a filter: it gives the files that it comes to, if all that it comes to is known to be ignored or not. -/
theorem filesBelow_eq_ok_iff (h : t.WellNamed) {files : List String} : filesBelow ignored path t = .ok files ↔
    Decided ignored path t ∧ files = (t.fileNames.filter (kept ignored path)).map (descend path) := by
  induction h generalizing path files with
  | file c m =>
    rw [filesBelow, Tree.fileNames]
    refine ⟨fun hok => ⟨?_, (Except.ok.inj hok).symm⟩, fun hok => congrArg Except.ok hok.2.symm⟩
    intro names n u hget
    rw [Tree.get?_file_of_ne_nil c m (by simp)] at hget
    cases hget
  | @directory es hnodup _ _ ih =>
    by_cases hsize : path.utf8ByteSize ≤ Disk.maxPath
    · rw [filesBelow_directory hsize, decided_directory hnodup hsize, forall₂_and, and_assoc]
      refine and_congr_right fun _ => ?_
      -- below each entry the walk is a filter already, and only entries that pass are entered
      simp only [filesBelow_below_eq_ok fun e he part => ih e he, exists_eq_left, and_assoc, exists_and_left]
      refine and_congr (forall₂_congr fun e he => by rw [contains_passed he]) ?_
      rw [filter_fileNames hsize]
    · -- nothing can be in a directory that cannot be opened
      have hkept : ∀ names ∈ (Tree.directory es).fileNames, ¬kept ignored path names = true := by
        intro names hmem hkept
        obtain ⟨n, rest, rfl⟩ := List.exists_cons_of_ne_nil (Tree.ne_nil_of_mem_fileNames hmem)
        exact hsize (kept_cons.1 hkept).1
      rw [filesBelow, if_pos (Nat.not_le.1 hsize), List.filter_eq_nil_iff.2 hkept]
      refine ⟨fun hok => ⟨?_, (Except.ok.inj hok).symm⟩, fun hok => congrArg Except.ok hok.2.symm⟩
      intro names n u _ hkept hroom
      cases names with
      | nil => exact absurd hroom hsize
      | cons m names => exact absurd (kept_cons.1 hkept).1 hsize

end Files

end CodeAtlas

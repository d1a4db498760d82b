import CodeAtlas.Disk.Tree
import Mathlib.Data.List.Basic

/-!
# What is put into a tree

A tree that is put where names lead to is found there with all that is below it.  What is above it is a
directory afterwards, and everything else is as it was.
-/

namespace CodeAtlas.Tree

variable {t u : Tree} {names q rest : List String}

theorem lookup_cons_eq (m n : String) (v : Tree) (es : List (String × Tree)) :
    ((m, v) :: es).lookup n = if n = m then some v else es.lookup n := by
  by_cases h : n = m
  · simp [h]
  · have hb : (n == m) = false := by simpa using h
    simp [List.lookup_cons, hb, h]

theorem lookup_putEntry (name n : String) (t : Tree) (es : List (String × Tree)) :
    (putEntry name t es).lookup n = if n = name then some t else es.lookup n := by
  induction es with
  | nil => exact lookup_cons_eq name n t []
  | cons e es ih =>
    obtain ⟨m, v⟩ := e
    rw [putEntry]
    split
    · next hm =>
      have hm : m = name := by simpa using hm
      subst hm
      by_cases h : n = m <;> simp [lookup_cons_eq, h]
    · next hm =>
      have hm : m ≠ name := by simpa using hm
      by_cases h : n = m
      · subst h
        simp [hm]
      · simp [lookup_cons_eq, h, ih]

@[simp] theorem get?_nil (t : Tree) : t.get? [] = some t := by
  cases t <;> rfl

theorem get?_cons (t : Tree) (name : String) (rest : List String) :
    t.get? (name :: rest) = (t.child? name).bind (·.get? rest) := by
  cases t <;> rfl

theorem get?_file_of_ne_nil (c : Content) (m : Int) (h : rest ≠ []) : (file c m).get? rest = none := by
  obtain ⟨name, more, rfl⟩ := List.exists_cons_of_ne_nil h
  rfl

theorem get?_empty_of_ne_nil (h : rest ≠ []) : empty.get? rest = none := by
  obtain ⟨name, more, rfl⟩ := List.exists_cons_of_ne_nil h
  rfl

theorem get?_append (t : Tree) (names rest : List String) :
    t.get? (names ++ rest) = (t.get? names).bind (·.get? rest) := by
  induction names generalizing t with
  | nil => simp
  | cons name names ih =>
    rw [List.cons_append, get?_cons, get?_cons, Option.bind_assoc]
    exact Option.bind_congr fun child _ => ih child

theorem exists_get?_of_start {t u : Tree} {names xs : List String} (h : t.get? names = some u) (hpre : xs <+: names) :
    ∃ v, t.get? xs = some v := by
  obtain ⟨ys, rfl⟩ := hpre
  rw [get?_append] at h
  obtain ⟨v, hv, -⟩ := Option.bind_eq_some_iff.1 h
  exact ⟨v, hv⟩

/-- There is something below directories only. -/
theorem exists_eq_directory (h : u.get? rest = some t) (hrest : rest ≠ []) : ∃ es, u = directory es := by
  obtain ⟨name, more, rfl⟩ := List.exists_cons_of_ne_nil hrest
  cases u with
  | directory es => exact ⟨es, rfl⟩
  | file c m =>
    rw [get?_cons] at h
    simp [child?, entries] at h

theorem exists_directory_of_append (h : u.get? (names ++ rest) = some t) (hrest : rest ≠ []) :
    ∃ es, u.get? names = some (directory es) := by
  rw [get?_append] at h
  obtain ⟨v, hv, hbelow⟩ := Option.bind_eq_some_iff.1 h
  obtain ⟨es, rfl⟩ := exists_eq_directory hbelow hrest
  exact ⟨es, hv⟩

theorem child?_put (name n : String) (t u : Tree) :
    (put (name :: rest) t u).child? n =
      if n = name then some (put rest t ((u.child? name).getD empty)) else u.child? n := by
  exact lookup_putEntry name n _ u.entries

/-- What was put is found with all that is below it. -/
theorem get?_put_append (t u : Tree) (names rest : List String) :
    (put names t u).get? (names ++ rest) = t.get? rest := by
  induction names generalizing u with
  | nil => rfl
  | cons name names ih => rw [List.cons_append, get?_cons, child?_put, if_pos rfl, Option.bind_some, ih]

/-- Above what was put there are directories. -/
theorem get?_put_above (t u : Tree) (names : List String) (hrest : rest ≠ []) :
    ∃ es, (put (names ++ rest) t u).get? names = some (directory es) := by
  obtain ⟨last, hlast⟩ : ∃ v, (put (names ++ rest) t u).get? (names ++ rest) = some v :=
    ⟨t, by simpa using get?_put_append t u (names ++ rest) []⟩
  exact exists_directory_of_append hlast hrest

/-- What is neither above nor below what was put is as it was. -/
theorem get?_put_elsewhere (t u : Tree) (hbelow : ¬names <+: q) (habove : ¬q <+: names) :
    (put names t u).get? q = u.get? q := by
  induction names generalizing u q with
  | nil => exact absurd List.nil_prefix hbelow
  | cons name names ih =>
    cases q with
    | nil => exact absurd List.nil_prefix habove
    | cons n q =>
      rw [get?_cons, get?_cons, child?_put]
      split
      · next hn =>
        subst hn
        rw [List.cons_prefix_cons] at hbelow habove
        rw [Option.bind_some, ih _ (fun h => hbelow ⟨rfl, h⟩) (fun h => habove ⟨rfl, h⟩)]
        cases hchild : u.child? n with
        | some v => rfl
        | none =>
          -- there was nothing, so that a directory without entries was there for the rest
          have hq : q ≠ [] := fun h => habove ⟨rfl, h ▸ List.nil_prefix⟩
          obtain ⟨m, q, rfl⟩ := List.exists_cons_of_ne_nil hq
          rfl
      · rfl

/-- Names that lead to no directory, with no file on the way. -/
structure Vacant (u : Tree) (names : List String) : Prop where
  not_directory : ∀ es, u.get? names ≠ some (directory es)
  no_file_above : ∀ above rest, names = above ++ rest → rest ≠ [] → ∀ c m, u.get? above ≠ some (file c m)

/-- Directories are there still, and at the given places so are files, and there are no others. -/
structure Kept (places : List String → Prop) (u u' : Tree) : Prop where
  directory : ∀ q es, u.get? q = some (directory es) → ∃ es', u'.get? q = some (.directory es')
  file : ∀ q, places q → ∀ c m, u'.get? q = some (file c m) ↔ u.get? q = some (.file c m)

theorem Kept.refl (places : List String → Prop) (u : Tree) : Kept places u u :=
  ⟨fun _ es h => ⟨es, h⟩, fun _ _ _ _ => Iff.rfl⟩

theorem Kept.trans {places : List String → Prop} {u₁ u₂ u₃ : Tree} (h₁ : Kept places u₁ u₂)
    (h₂ : Kept places u₂ u₃) : Kept places u₁ u₃ where
  directory q es h := by
    obtain ⟨es', h'⟩ := h₁.directory q es h
    exact h₂.directory q es' h'
  file q hq c m := (h₂.file q hq c m).trans (h₁.file q hq c m)

theorem Kept.mono {places places' : List String → Prop} {u u' : Tree} (h : Kept places u u')
    (hplaces : ∀ q, places' q → places q) : Kept places' u u' :=
  ⟨h.directory, fun q hq => h.file q (hplaces q hq)⟩

/-- What is put at a vacant place and has nothing below it leaves the rest as it was. -/
theorem Vacant.kept_put (h : u.Vacant names) (hbelow : ∀ rest, rest ≠ [] → t.get? rest = none) :
    Kept (· ≠ names) u (put names t u) := by
  -- below the place there was and is nothing, above it there are directories, and the rest is the same
  have hcases : ∀ q, q ≠ names →
      (put names t u).get? q = u.get? q ∨ (∃ es, (put names t u).get? q = some (.directory es) ∧
        ∀ c m, u.get? q ≠ some (.file c m)) := by
    intro q hq
    by_cases hnames : names <+: q
    · obtain ⟨rest, rfl⟩ := hnames
      have hrest : rest ≠ [] := fun hnil => hq (by simp [hnil])
      left
      rw [get?_put_append, hbelow rest hrest, eq_comm, Option.eq_none_iff_forall_ne_some]
      intro v hv
      obtain ⟨es, hes⟩ := exists_directory_of_append hv hrest
      exact h.not_directory es hes
    · by_cases habove : q <+: names
      · obtain ⟨rest, rfl⟩ := habove
        have hrest : rest ≠ [] := fun hnil => hq (by simp [hnil])
        obtain ⟨es, hes⟩ := get?_put_above t u q hrest
        exact Or.inr ⟨es, hes, h.no_file_above q rest rfl hrest⟩
      · exact Or.inl (get?_put_elsewhere t u hnames habove)
  constructor
  · intro q es hq
    rcases hcases q (fun heq => h.not_directory es (heq ▸ hq)) with hsame | ⟨es', hes', -⟩
    · exact ⟨es, hsame.trans hq⟩
    · exact ⟨es', hes'⟩
  · intro q hq c m
    rcases hcases q hq with hsame | ⟨es, hes, hnone⟩
    · rw [hsame]
    · simp [hes, hnone c m]

end CodeAtlas.Tree

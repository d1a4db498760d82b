import CodeAtlas.Sorting
import Mathlib.Data.List.Perm.Basic
import Mathlib.Data.String.Basic

/-!
# Sorting

A sorted list has the elements of the list, in the order of their keys.  Elements of one key keep their order.
-/

namespace CodeAtlas

theorem insertBy_perm {α : Type} (before : α → α → Bool) (x : α) (ys : List α) :
    (insertBy before x ys).Perm (x :: ys) := by
  induction ys with
  | nil => exact List.Perm.refl _
  | cons y ys ih =>
    rw [insertBy]
    split
    · exact (ih.cons y).trans (List.Perm.swap x y ys)
    · exact List.Perm.refl _

theorem sortBy_perm {α : Type} (before : α → α → Bool) (xs : List α) : (sortBy before xs).Perm xs := by
  induction xs with
  | nil => exact List.Perm.refl _
  | cons x xs ih => exact (insertBy_perm before x _).trans (ih.cons x)

theorem sortTexts_perm (xs : List String) : (sortTexts xs).Perm xs := sortBy_perm textBefore xs

section Stable

variable {α κ : Type} [LinearOrder κ] {key : α → κ} {before : α → α → Bool}

/-- A list in the order of keys.  Elements of one key stand in it as they do in another list. -/
structure StablySorted (key : α → κ) (xs ys : List α) : Prop where
  pairwise : ys.Pairwise fun a b => key a ≤ key b
  filter_eq : ∀ k, ys.filter (fun a => key a = k) = xs.filter (fun a => key a = k)

theorem pairwise_insertBy (hkey : ∀ a b, before a b = true ↔ key a < key b) {x : α} {ys : List α}
    (h : ys.Pairwise fun a b => key a ≤ key b) :
    (insertBy before x ys).Pairwise fun a b => key a ≤ key b := by
  induction ys with
  | nil => simp [insertBy]
  | cons y ys ih =>
    obtain ⟨hy, hys⟩ := List.pairwise_cons.1 h
    rw [insertBy]
    split
    · next hbefore =>
      refine List.pairwise_cons.2 ⟨fun z hz => ?_, ih hys⟩
      obtain rfl | hrest := List.mem_cons.1 ((insertBy_perm before x ys).mem_iff.1 hz)
      · exact ((hkey y z).1 hbefore).le
      · exact hy z hrest
    · next hafter =>
      have hxy : key x ≤ key y := not_lt.1 fun hlt => hafter ((hkey y x).2 hlt)
      refine List.pairwise_cons.2 ⟨fun z hz => ?_, h⟩
      obtain rfl | hrest := List.mem_cons.1 hz
      · exact hxy
      · exact hxy.trans (hy z hrest)

-- Whatever the new element is put behind has another key.
theorem filter_insertBy (hkey : ∀ a b, before a b = true ↔ key a < key b) (x : α) (ys : List α) (k : κ) :
    (insertBy before x ys).filter (fun a => key a = k) = (x :: ys).filter (fun a => key a = k) := by
  induction ys with
  | nil => rfl
  | cons y ys ih =>
    rw [insertBy]
    split
    · next hbefore =>
      have hne : key y ≠ key x := ((hkey y x).1 hbefore).ne
      rw [List.filter_cons, ih]
      by_cases hy : key y = k
      · have hx : key x ≠ k := fun hx => hne (hy.trans hx.symm)
        simp [hx, hy]
      · simp [List.filter_cons, hy]
    · rfl

theorem sortBy_stablySorted (hkey : ∀ a b, before a b = true ↔ key a < key b) (xs : List α) :
    StablySorted key xs (sortBy before xs) := by
  induction xs with
  | nil => exact ⟨.nil, fun _ => rfl⟩
  | cons x xs ih =>
    refine ⟨pairwise_insertBy hkey ih.pairwise, fun k => ?_⟩
    rw [sortBy, filter_insertBy hkey, List.filter_cons, List.filter_cons, ih.filter_eq]

/-- Elements of one key keep the order that they have before. -/
theorem StablySorted.pairwise_or {xs ys : List α} (h : StablySorted key xs ys) {R : α → α → Prop} (hR : xs.Pairwise R) :
    ys.Pairwise fun a b => key a < key b ∨ key a = key b ∧ R a b := by
  rw [List.pairwise_iff_forall_sublist]
  intro a b hab
  obtain hlt | heq := (List.pairwise_iff_forall_sublist.1 h.pairwise hab).lt_or_eq
  · exact .inl hlt
  · refine .inr ⟨heq, List.pairwise_iff_forall_sublist.1 hR ?_⟩
    have hsame := hab.filter fun c => key c = key b
    rw [h.filter_eq, List.filter_eq_self.2 (by simp [heq])] at hsame
    exact hsame.trans List.filter_sublist

end Stable

/-- What is sorted by something that is told of its elements can be told of after sorting. -/
theorem map_sortBy {α β : Type} (f : α → β) (before : β → β → Bool) (xs : List α) :
    (sortBy (fun a b => before (f a) (f b)) xs).map f = sortBy before (xs.map f) := by
  have hinsert : ∀ (x : α) (ys : List α),
      (insertBy (fun a b => before (f a) (f b)) x ys).map f = insertBy before (f x) (ys.map f) := by
    intro x ys
    induction ys with
    | nil => rfl
    | cons y ys ih =>
      rw [insertBy, List.map_cons, insertBy]
      split
      · rw [List.map_cons, ih]
      · rfl
  induction xs with
  | nil => rfl
  | cons x xs ih => rw [sortBy, hinsert, ih, List.map_cons, sortBy]

theorem textBefore_iff (a b : String) : textBefore a b = true ↔ id a < id b := decide_eq_true_iff

theorem sortTexts_pairwise (xs : List String) : (sortTexts xs).Pairwise (· ≤ ·) :=
  (sortBy_stablySorted textBefore_iff xs).pairwise

/-- Sorted texts do not depend on their order before. -/
theorem sortTexts_congr {xs ys : List String} (h : xs.Perm ys) : sortTexts xs = sortTexts ys := by
  refine List.Perm.eq_of_pairwise (fun _ _ _ _ => String.le_antisymm) (sortTexts_pairwise xs) (sortTexts_pairwise ys) ?_
  exact (sortTexts_perm xs).trans (h.trans (sortTexts_perm ys).symm)

section Distinct

variable {α : Type} [BEq α] [LawfulBEq α]

/-- One more element, unless it was seen. -/
theorem mem_ite_contains (seen : List α) (x y : α) :
    y ∈ (if seen.contains x then seen else x :: seen) ↔ y ∈ seen ∨ y = x := by
  split
  · rename_i h
    have hx : x ∈ seen := by simpa using h
    constructor
    · exact Or.inl
    · rintro (hy | rfl)
      · exact hy
      · exact hx
  · rw [List.mem_cons, or_comm]

/-- What has been seen is what was seen before and what is in the list, each once. -/
theorem foldl_seen (xs seen : List α) (h : seen.Nodup) :
    (∀ y, y ∈ xs.foldl (fun seen x => if seen.contains x then seen else x :: seen) seen ↔ y ∈ seen ∨ y ∈ xs) ∧
      (xs.foldl (fun seen x => if seen.contains x then seen else x :: seen) seen).Nodup := by
  induction xs generalizing seen with
  | nil => exact ⟨by simp, h⟩
  | cons x xs ih =>
    have hnext : (if seen.contains x then seen else x :: seen).Nodup := by
      split
      · exact h
      · rename_i hx
        exact List.nodup_cons.2 ⟨by simpa using hx, h⟩
    obtain ⟨hmem, hnodup⟩ := ih _ hnext
    refine ⟨fun y => ?_, hnodup⟩
    rw [List.foldl_cons, hmem, mem_ite_contains, List.mem_cons, or_assoc]

theorem mem_distinct {xs : List α} {x : α} : x ∈ distinct xs ↔ x ∈ xs := by
  rw [distinct, List.mem_reverse, (foldl_seen xs [] List.nodup_nil).1]
  simp

theorem nodup_distinct (xs : List α) : (distinct xs).Nodup := by
  rw [distinct, (List.reverse_perm _).nodup_iff]
  exact (foldl_seen xs [] List.nodup_nil).2

theorem distinct_perm {xs ys : List α} (h : xs.Perm ys) : (distinct xs).Perm (distinct ys) := by
  rw [List.perm_ext_iff_of_nodup (nodup_distinct xs) (nodup_distinct ys)]
  intro x
  rw [mem_distinct, mem_distinct, h.mem_iff]

/-- Elements grouped by their keys are the same elements, if every key has a group of its own. -/
theorem flatMap_filter_perm {β : Type} {key : β → α} {ks : List α} (hks : ks.Nodup) {xs : List β}
    (hkey : ∀ x ∈ xs, key x ∈ ks) : (ks.flatMap fun k => xs.filter (key · == k)).Perm xs := by
  induction ks generalizing xs with
  | nil =>
    obtain rfl : xs = [] := List.eq_nil_iff_forall_not_mem.2 fun x hx => List.not_mem_nil (hkey x hx)
    exact List.Perm.refl _
  | cons k ks ih =>
    obtain ⟨hk, hks⟩ := List.nodup_cons.1 hks
    -- the other groups are those of the elements that are not in the first one
    have hothers : (ks.flatMap fun k' => xs.filter (key · == k')) =
        ks.flatMap fun k' => (xs.filter fun x => !(key x == k)).filter (key · == k') := by
      refine List.flatMap_congr fun k' hk' => ?_
      rw [List.filter_filter]
      refine List.filter_congr fun x _ => ?_
      by_cases hx : key x = k'
      · have hne : k' ≠ k := fun heq => hk (heq ▸ hk')
        simp [hx, hne]
      · simp [hx]
    have hrest : ∀ x ∈ xs.filter (fun x => !(key x == k)), key x ∈ ks := by
      intro x hx
      obtain ⟨hmem, hne⟩ := List.mem_filter.1 hx
      exact (List.mem_cons.1 (hkey x hmem)).resolve_left (by simpa using hne)
    rw [List.flatMap_cons, hothers]
    exact ((ih hks hrest).append_left _).trans (List.filter_append_perm _ xs)

end Distinct

end CodeAtlas

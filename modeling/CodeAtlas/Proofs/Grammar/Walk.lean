import CodeAtlas.Grammar.Tree
import Mathlib.Data.List.Basic

/-!
# The nodes of a statement tree

A walk goes through a tree level by level.  It comes to the given nodes and to what is below them, however deep, and to
nothing else.
-/

namespace CodeAtlas.Grammar.Node

variable {m n : Node} {xs ys nodes : List Node} {P : Node → Prop}

theorem mem_joinLevels {xs ys : List (List Node)} :
    n ∈ (joinLevels xs ys).flatten ↔ n ∈ xs.flatten ∨ n ∈ ys.flatten := by
  fun_induction joinLevels xs ys with
  | case1 ys => simp
  | case2 xs => simp
  | case3 x xs y ys ih =>
    simp only [List.flatten_cons, List.mem_append, ih]
    exact or_or_or_comm

theorem levels_eq (n : Node) : n.levels = [n] :: levels.levelsOfAll n.children := by
  cases n <;> simp only [levels, children, levels.levelsOfAll]

/-- What is found at and below some nodes, member by member. -/
theorem mem_walk_cons : n ∈ walk (m :: xs) ↔ n = m ∨ n ∈ walk m.children ∨ n ∈ walk xs := by
  simp only [walk, levels.levelsOfAll, mem_joinLevels, levels_eq m, List.flatten_cons, List.mem_append,
    List.mem_singleton, or_assoc]

theorem sizeOf_children_le (n : Node) : sizeOf n.children ≤ sizeOf n := by
  cases n <;> simp [children] <;> omega

/-- What holds of no nodes, and of some nodes if it holds of what is below the first and of the others, holds of all
nodes. -/
theorem nodes_induction {motive : List Node → Prop} (nil : motive [])
    (cons : ∀ n xs, motive n.children → motive xs → motive (n :: xs)) : ∀ nodes, motive nodes
  | [] => nil
  | n :: xs => cons n xs (nodes_induction nil cons n.children) (nodes_induction nil cons xs)
termination_by nodes => sizeOf nodes
decreasing_by
  all_goals
    have := sizeOf_children_le n
    simp only [List.cons.sizeOf_spec]
    omega

/-! ### Properties of all nodes -/

/-- All nodes at and below some nodes have a property. -/
def Everywhere (P : Node → Prop) (nodes : List Node) : Prop := ∀ n ∈ walk nodes, P n

@[simp]
theorem everywhere_nil : Everywhere P [] := nofun

@[simp]
theorem everywhere_cons : Everywhere P (m :: xs) ↔ P m ∧ Everywhere P m.children ∧ Everywhere P xs := by
  simp only [Everywhere, mem_walk_cons, or_imp, forall_and, forall_eq]

@[simp]
theorem everywhere_append : Everywhere P (xs ++ ys) ↔ Everywhere P xs ∧ Everywhere P ys := by
  induction xs with
  | nil => simp
  | cons x xs ih => simp only [List.cons_append, everywhere_cons, ih, and_assoc]

theorem everywhere_flatten {parts : List (List Node)} (h : ∀ part ∈ parts, Everywhere P part) :
    Everywhere P parts.flatten := by
  induction parts with
  | nil => exact everywhere_nil
  | cons part parts ih =>
    obtain ⟨hpart, hparts⟩ := List.forall_mem_cons.1 h
    exact everywhere_append.2 ⟨hpart, ih hparts⟩

theorem everywhere_of_mem (h : ∀ m ∈ xs, Everywhere P [m]) : Everywhere P xs := by
  induction xs with
  | nil => exact everywhere_nil
  | cons x xs ih =>
    obtain ⟨hx, hxs⟩ := List.forall_mem_cons.1 h
    exact everywhere_append.2 ⟨hx, ih hxs⟩

/-! ### The nodes of a walk -/

/-- A node at or below some nodes. -/
inductive Within (nodes : List Node) : Node → Prop
  | here {n : Node} (h : n ∈ nodes) : Within nodes n
  | child {m n : Node} (hm : Within nodes m) (h : n ∈ m.children) : Within nodes n

theorem Within.mono (h : Within xs n) (hsubset : ∀ m ∈ xs, Within nodes m) : Within nodes n := by
  induction h with
  | here hmem => exact hsubset _ hmem
  | child _ hchild ih => exact .child ih hchild

theorem mem_walk_of_mem (h : n ∈ nodes) : n ∈ walk nodes := by
  induction nodes with
  | nil => cases h
  | cons m xs ih =>
    rcases List.mem_cons.1 h with rfl | hxs
    · exact mem_walk_cons.2 (.inl rfl)
    · exact mem_walk_cons.2 (.inr (.inr (ih hxs)))

/-- A walk that comes to a node comes to those directly below it. -/
theorem mem_walk_of_children (hm : m ∈ walk nodes) (hn : n ∈ m.children) : n ∈ walk nodes := by
  induction nodes using nodes_induction with
  | nil => cases hm
  | cons x xs ihchildren ihxs =>
    rcases mem_walk_cons.1 hm with rfl | hbelow | hxs
    · exact mem_walk_cons.2 (.inr (.inl (mem_walk_of_mem hn)))
    · exact mem_walk_cons.2 (.inr (.inl (ihchildren hbelow)))
    · exact mem_walk_cons.2 (.inr (.inr (ihxs hxs)))

theorem within_of_mem_walk (h : n ∈ walk nodes) : Within nodes n := by
  induction nodes using nodes_induction with
  | nil => cases h
  | cons x xs ihchildren ihxs =>
    rcases mem_walk_cons.1 h with rfl | hbelow | hxs
    · exact .here List.mem_cons_self
    · exact (ihchildren hbelow).mono fun m hm => .child (.here List.mem_cons_self) hm
    · exact (ihxs hxs).mono fun m hm => .here (List.mem_cons_of_mem x hm)

/-- A walk comes to the nodes at and below the given ones, at any depth. -/
theorem mem_walk_iff : n ∈ walk nodes ↔ Within nodes n := by
  refine ⟨within_of_mem_walk, fun h => ?_⟩
  induction h with
  | here hmem => exact mem_walk_of_mem hmem
  | child _ hchild ih => exact mem_walk_of_children ih hchild

end CodeAtlas.Grammar.Node

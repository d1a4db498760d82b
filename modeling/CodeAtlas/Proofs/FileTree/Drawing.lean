import CodeAtlas.Proofs.FileTree.Nodes
import CodeAtlas.Proofs.Sorting
import CodeAtlas.Proofs.Text.Fields
import Mathlib.Data.Prod.Lex

/-!
# The rows of a drawn tree

A drawing has one row for each node down to a level.  The rows of what is below a node follow the row of the node, and
siblings come in the order of their kinds and names.

## Main definitions

* `FileTree.Row`, `FileTree.rows` — the rows of a drawing
* `FileTree.InBlocks` — whatever lies below a node follows it directly
* `FileTree.Row.SiblingOrder` — the order of rows of one node's children

## Main results

* `FileTree.draw_eq_join` — a drawing is its rows, one after another
* `FileTree.rows_perm` — the rows are those of the nodes down to a level, each once
* `FileTree.inBlocks_rows`, `FileTree.pairwise_rows` — their order
-/

namespace CodeAtlas.FileTree

variable {t c : FileTree} {n : Nat} {indent : String} {last : Bool}

/-! ### Children in the order of the drawing -/

/-- What decides the order of siblings: directories come first, then names count without regard to case. -/
def siblingKey (isDirectory : Bool) (name : String) : Bool ×ₗ String := toLex (!isDirectory, Text.lower name)

def childBefore (a b : FileTree) : Bool :=
  (a.isDirectory && !b.isDirectory) ||
    (a.isDirectory == b.isDirectory && textBefore (Text.lower a.name) (Text.lower b.name))

theorem childBefore_iff (a b : FileTree) :
    childBefore a b = true ↔ siblingKey a.isDirectory a.name < siblingKey b.isDirectory b.name := by
  rw [siblingKey, siblingKey, Prod.Lex.toLex_lt_toLex, childBefore, textBefore]
  cases a.isDirectory <;> cases b.isDirectory <;> simp

/-- The children of a node in the order of the drawing. -/
def drawn (t : FileTree) : List FileTree := sortBy childBefore t.children

theorem drawn_perm (t : FileTree) : t.drawn.Perm t.children := sortBy_perm childBefore t.children

theorem pairwise_drawn (t : FileTree) :
    t.drawn.Pairwise fun a b => siblingKey a.isDirectory a.name ≤ siblingKey b.isDirectory b.name :=
  (sortBy_stablySorted childBefore_iff t.children).pairwise

/-! ### Rows -/

def connector (last : Bool) : String := if last then "└── " else "├── "

def spacer (last : Bool) : String := if last then "    " else "│   "

/-- The elements of a list, of which the last one is marked. -/
def flagged {α : Type} : List α → List (α × Bool)
  | [] => []
  | [x] => [(x, true)]
  | x :: y :: xs => (x, false) :: flagged (y :: xs)

theorem map_fst_flagged {α : Type} (xs : List α) : (flagged xs).map Prod.fst = xs := by
  fun_induction flagged xs with
  | case1 => rfl
  | case2 => rfl
  | case3 x y xs ih => rw [List.map_cons, ih]

/-- A row of a drawing: what stands in front of the name, and the node. -/
structure Row where
  marks : String
  path : List String
  isDirectory : Bool

namespace Row

/-- The text of a row in the drawing of a tree of some name. -/
def line (rootName : String) (r : Row) : String :=
  r.marks ++ r.path.getLast?.getD rootName ++ (if r.isDirectory then "/" else "")

/-- A row of a child as one of its parent. -/
def under (name : String) (r : Row) : Row := { r with path := name :: r.path }

theorem line_under (name rootName : String) (r : Row) : (r.under name).line rootName = r.line name := by
  rw [line, line, under, List.getLast?_cons, Option.getD_some]

end Row

/-- The rows of a tree down to a level. -/
def rows : Nat → FileTree → String → Bool → List Row
  | 0, t, indent, last => [⟨indent ++ connector last, [], t.isDirectory⟩]
  | n + 1, t, indent, last =>
    ⟨indent ++ connector last, [], t.isDirectory⟩ ::
      (flagged t.drawn).flatMap fun e => (rows n e.1 (indent ++ spacer last) e.2).map (Row.under e.1.name)

theorem drawAll_eq_join (indent : String) (levels : Int) (ds : List Drawing) :
    drawAll indent levels ds = String.join ((flagged ds).map fun e => e.1 indent e.2 levels) := by
  fun_induction flagged ds with
  | case1 => rfl
  | case2 d => simp [drawAll]
  | case3 d e ds ih => rw [drawAll, ih, List.map_cons, String.join_cons]; simp

theorem flagged_map {α β : Type} (f : α → β) (xs : List α) : flagged (xs.map f) = (flagged xs).map (Prod.map f id) := by
  fun_induction flagged xs with
  | case1 => rfl
  | case2 => rfl
  | case3 x y xs ih => rw [List.map_cons, List.map_cons, flagged, ← List.map_cons, ih, List.map_cons]; rfl

theorem draw_of_neg {levels : Int} (h : levels < 0) (t : FileTree) (indent : String) (last : Bool) :
    t.draw indent last levels = "" := by
  cases t with
  | node name isDirectory cs => rw [draw, if_pos h]

theorem draw_of_nonneg {levels : Int} (h : 0 ≤ levels) (t : FileTree) (indent : String) (last : Bool) :
    t.draw indent last levels = indent ++ connector last ++ t.name ++ (if t.isDirectory then "/" else "") ++ "\n" ++
      String.join ((flagged t.drawn).map fun e => e.1.draw (indent ++ spacer last) e.2 (levels - 1)) := by
  have hdrawings : ∀ cs, draw.drawings cs = cs.map fun c => (c.isDirectory, Text.lower c.name, c.draw) := by
    intro cs
    induction cs with
    | nil => rfl
    | cons c cs ih => rw [draw.drawings, ih, List.map_cons]
  cases t with
  | node name isDirectory cs =>
    have hsorted := map_sortBy (fun c : FileTree => (c.isDirectory, Text.lower c.name, c.draw)) drawnBefore cs
    rw [draw, if_neg (by omega)]
    dsimp only
    rw [hdrawings, ← hsorted, List.map_map, drawAll_eq_join, flagged_map, List.map_map]
    rfl

/-- A drawing is its rows, one after another. -/
theorem draw_eq_join (n : Nat) (t : FileTree) (indent : String) (last : Bool) :
    t.draw indent last n = String.join ((rows n t indent last).map fun r => r.line t.name ++ "\n") := by
  induction n generalizing t indent last with
  | zero =>
    have hbelow : ∀ es : List (FileTree × Bool),
        String.join (es.map fun e => e.1.draw (indent ++ spacer last) e.2 (0 - 1)) = "" := by
      intro es
      induction es with
      | nil => rfl
      | cons e es ih => rw [List.map_cons, String.join_cons, ih, draw_of_neg (by omega), String.append_empty]
    rw [Int.ofNat_zero, draw_of_nonneg (by omega), hbelow]
    simp [rows, Row.line, String.append_assoc]
  | succ n ih =>
    rw [draw_of_nonneg (by omega), rows, List.map_cons, String.join_cons, List.map_flatMap]
    have hbelow : ∀ es : List (FileTree × Bool),
        String.join (es.map fun e => e.1.draw (indent ++ spacer last) e.2 (((n + 1 : Nat) : Int) - 1)) =
          String.join (es.flatMap fun e =>
            ((rows n e.1 (indent ++ spacer last) e.2).map (Row.under e.1.name)).map fun r =>
              r.line t.name ++ "\n") := by
      intro es
      induction es with
      | nil => rfl
      | cons e es ihes =>
        have hlevels : ((n + 1 : Nat) : Int) - 1 = n := by omega
        rw [List.map_cons, String.join_cons, ihes, List.flatMap_cons, String.join_append, hlevels, ih, List.map_map]
        simp only [Function.comp_def, Row.line_under]
    rw [hbelow]
    simp [Row.line, String.append_assoc]

/-! ### Which nodes have rows -/

theorem flatMap_fst_flagged {α β : Type} (f : α → List β) (xs : List α) :
    (flagged xs).flatMap (fun e => f e.1) = xs.flatMap f := by
  rw [← List.flatMap_map, map_fst_flagged]

/-- There is one row for each node down to a level. -/
theorem rows_perm (n : Nat) (t : FileTree) (indent : String) (last : Bool) :
    ((rows n t indent last).map fun r => (r.path, r.isDirectory)).Perm (t.places.filter fun e => e.1.length ≤ n) := by
  induction n generalizing t indent last with
  | zero =>
    have hbelow : (t.children.flatMap fun c => c.places.map (Prod.map (c.name :: ·) id)).filter
        (fun e => e.1.length ≤ 0) = [] := by
      rw [List.filter_eq_nil_iff]
      intro e he
      obtain ⟨c, -, he⟩ := List.mem_flatMap.1 he
      obtain ⟨e, -, rfl⟩ := List.mem_map.1 he
      simp
    rw [places_eq, List.filter_cons, hbelow]
    exact List.Perm.refl _
  | succ n ih =>
    have hchild : ∀ c : FileTree, (c.places.map (Prod.map (c.name :: ·) id)).filter (fun e => e.1.length ≤ n + 1) =
        (c.places.filter fun e => e.1.length ≤ n).map (Prod.map (c.name :: ·) id) := by
      intro c
      simp [List.filter_map, Function.comp_def]
    have hrows : ∀ e : FileTree × Bool, (((rows n e.1 (indent ++ spacer last) e.2).map (Row.under e.1.name)).map
        fun r => (r.path, r.isDirectory)).Perm
          ((e.1.places.filter fun e => e.1.length ≤ n).map (Prod.map (e.1.name :: ·) id)) := by
      intro e
      have hunder := (ih e.1 (indent ++ spacer last) e.2).map (Prod.map (e.1.name :: ·) id)
      rwa [List.map_map] at hunder ⊢
    rw [places_eq, rows, List.map_cons, List.filter_cons, if_pos (by simp), List.map_flatMap, List.filter_flatMap]
    refine List.Perm.cons _ ?_
    simp only [hchild]
    refine (List.Perm.flatMap_left _ fun e _ => hrows e).trans ?_
    rw [flatMap_fst_flagged fun c : FileTree =>
      (c.places.filter fun e => e.1.length ≤ n).map (Prod.map (c.name :: ·) id)]
    exact t.drawn_perm.flatMap_right _

/-! ### Blocks -/

/-- Whatever lies below a path follows it directly. -/
def InBlocks (paths : List (List String)) : Prop :=
  ∀ front p back, paths = front ++ p :: back → ∃ block rest, back = block ++ rest ∧
    (∀ q ∈ block, p <+: q ∧ p ≠ q) ∧ ∀ q ∈ front ++ rest, ¬p <+: q

section Blocks

variable {ps qs : List (List String)}

theorem inBlocks_nil : InBlocks [] := by
  intro front p back h
  simp at h

theorem InBlocks.nil_cons (h : InBlocks ps) (hps : [] ∉ ps) : InBlocks ([] :: ps) := by
  intro front p back heq
  cases front with
  | nil =>
    obtain ⟨rfl, rfl⟩ := List.cons.inj heq
    exact ⟨ps, [], by simp, fun q hq => ⟨List.nil_prefix, fun hnil => hps (hnil ▸ hq)⟩, by simp⟩
  | cons first front =>
    obtain ⟨rfl, rfl⟩ := List.cons.inj heq
    obtain ⟨block, rest, hback, hblock, hothers⟩ := h front p back rfl
    have hp : p ≠ [] := fun hnil => hps (by simp [hnil])
    exact ⟨block, rest, hback, hblock, List.forall_mem_cons.2 ⟨by simpa using hp, hothers⟩⟩

theorem InBlocks.map_cons (h : InBlocks ps) (name : String) : InBlocks (ps.map (name :: ·)) := by
  intro front p back heq
  obtain ⟨front, back, rfl, rfl, hback⟩ := List.map_eq_append_iff.1 heq
  obtain ⟨p, back, rfl, rfl, rfl⟩ := List.map_eq_cons_iff.1 hback
  obtain ⟨block, rest, rfl, hblock, hothers⟩ := h front p back rfl
  refine ⟨block.map (name :: ·), rest.map (name :: ·), by rw [List.map_append], ?_, ?_⟩
  · intro q hq
    obtain ⟨q', hq', rfl⟩ := List.mem_map.1 hq
    simpa using hblock q' hq'
  · intro q hq
    rw [← List.map_append] at hq
    obtain ⟨q', hq', rfl⟩ := List.mem_map.1 hq
    simpa using hothers q' hq'

theorem InBlocks.append (hps : InBlocks ps) (hqs : InBlocks qs) (hapart : ∀ p ∈ ps, ∀ q ∈ qs, ¬p <+: q ∧ ¬q <+: p) :
    InBlocks (ps ++ qs) := by
  intro front p back heq
  rcases List.append_eq_append_iff.1 heq with ⟨middle, rfl, hqs'⟩ | ⟨middle, rfl, hback⟩
  · -- the path is in the second part
    obtain ⟨block, rest, rfl, hblock, hothers⟩ := hqs middle p back hqs'
    have hp : p ∈ qs := by simp [hqs']
    refine ⟨block, rest, rfl, hblock, fun q hq => ?_⟩
    rw [List.append_assoc] at hq
    rcases List.mem_append.1 hq with hfirst | hsecond
    · exact (hapart q hfirst p hp).2
    · exact hothers q hsecond
  · cases middle with
    | nil =>
      obtain ⟨block, rest, rfl, hblock, hothers⟩ := hqs [] p back (by simpa using hback.symm)
      have hp : p ∈ qs := by simp [← show p :: (block ++ rest) = qs by simpa using hback]
      refine ⟨block, rest, rfl, hblock, fun q hq => ?_⟩
      rcases List.mem_append.1 hq with hfirst | hsecond
      · exact (hapart q (by simpa using hfirst) p hp).2
      · exact hothers q (by simpa using hsecond)
    | cons p' middle =>
      obtain ⟨rfl, rfl⟩ := List.cons.inj hback
      obtain ⟨block, rest, rfl, hblock, hothers⟩ := hps front p middle rfl
      refine ⟨block, rest ++ qs, List.append_assoc _ _ _, hblock, fun q hq => ?_⟩
      rw [← List.append_assoc] at hq
      rcases List.mem_append.1 hq with hfirst | hsecond
      · exact hothers q hfirst
      · exact (hapart p (by simp) q hsecond).1

end Blocks

theorem inBlocks_flatMap {es : List (FileTree × Bool)} (f : FileTree × Bool → List (List String))
    (hnames : (es.map fun e => e.1.name).Nodup) (hf : ∀ e ∈ es, InBlocks (f e)) :
    InBlocks (es.flatMap fun e => (f e).map (e.1.name :: ·)) := by
  induction es with
  | nil => exact inBlocks_nil
  | cons e es ih =>
    obtain ⟨he, hes⟩ := List.nodup_cons.1 (List.map_cons ▸ hnames)
    obtain ⟨hfe, hfes⟩ := List.forall_mem_cons.1 hf
    refine (hfe.map_cons e.1.name).append (ih hes hfes) fun p hp q hq => ?_
    obtain ⟨p, -, rfl⟩ := List.mem_map.1 hp
    obtain ⟨e', he', hq⟩ := List.mem_flatMap.1 hq
    obtain ⟨q, -, rfl⟩ := List.mem_map.1 hq
    have hne : e.1.name ≠ e'.1.name := fun heq => he (heq ▸ List.mem_map_of_mem he')
    simp [hne, hne.symm]

theorem nodup_name_flagged_drawn (h : t.Distinct) : ((flagged t.drawn).map fun e => e.1.name).Nodup := by
  have hmap : ((flagged t.drawn).map fun e => e.1.name) = t.drawn.map FileTree.name := by
    conv_rhs => rw [← map_fst_flagged t.drawn, List.map_map]
    rfl
  rw [hmap, (t.drawn_perm.map FileTree.name).nodup_iff]
  exact h.nodup_names

theorem Distinct.of_mem_flagged {e : FileTree × Bool} (h : t.Distinct) (he : e ∈ flagged t.drawn) : e.1.Distinct := by
  have hmem : e.1 ∈ t.children := t.drawn_perm.mem_iff.1 (map_fst_flagged t.drawn ▸ List.mem_map_of_mem he)
  exact h.of_mem_children hmem

/-- The rows below a node follow the row of the node. -/
theorem inBlocks_rows (h : t.Distinct) (n : Nat) (indent : String) (last : Bool) :
    InBlocks ((rows n t indent last).map Row.path) := by
  induction n generalizing t indent last with
  | zero => exact inBlocks_nil.nil_cons List.not_mem_nil
  | succ n ih =>
    have hpaths : (rows (n + 1) t indent last).map Row.path = [] :: (flagged t.drawn).flatMap fun e =>
        ((rows n e.1 (indent ++ spacer last) e.2).map Row.path).map (e.1.name :: ·) := by
      simp [rows, List.map_flatMap, Function.comp_def, Row.under]
    rw [hpaths]
    refine InBlocks.nil_cons ?_ (by simp)
    exact inBlocks_flatMap _ (nodup_name_flagged_drawn h) fun e he => ih (h.of_mem_flagged he) _ _

/-! ### Siblings -/

/-- Of rows of siblings, directories come first, and then names count without regard to case. -/
def Row.SiblingOrder (r s : Row) : Prop :=
  r.path ≠ [] → r.path.dropLast = s.path.dropLast → (s.isDirectory = true → r.isDirectory = true) ∧
    (r.isDirectory = s.isDirectory → Text.lower (r.path.getLast?.getD "") ≤ Text.lower (s.path.getLast?.getD ""))

theorem order_of_siblingKey_le {d d' : Bool} {name name' : String} (h : siblingKey d name ≤ siblingKey d' name') :
    (d' = true → d = true) ∧ (d = d' → Text.lower name ≤ Text.lower name') := by
  rw [siblingKey, siblingKey, Prod.Lex.toLex_le_toLex] at h
  revert h
  cases d <;> cases d' <;> simp

theorem isDirectory_of_mem_rows {r : Row} (hr : r ∈ rows n t indent last) (hroot : r.path = []) :
    r.isDirectory = t.isDirectory := by
  cases n with
  | zero => rw [List.mem_singleton.1 hr]
  | succ n =>
    rcases List.mem_cons.1 hr with rfl | hbelow
    · rfl
    · obtain ⟨e, -, hbelow⟩ := List.mem_flatMap.1 hbelow
      obtain ⟨r, -, rfl⟩ := List.mem_map.1 hbelow
      exact absurd hroot (List.cons_ne_nil _ _)

theorem getD_getLast?_cons {path : List String} (h : path ≠ []) (name : String) :
    (name :: path).getLast?.getD "" = path.getLast?.getD "" := by
  rw [List.getLast?_cons, List.getLast?_eq_some_getLast h]
  rfl

/-- Siblings come in the order of their kinds and names. -/
theorem pairwise_rows (h : t.Distinct) (n : Nat) (indent : String) (last : Bool) :
    (rows n t indent last).Pairwise fun r s => s.path ≠ [] ∧ r.SiblingOrder s := by
  induction n generalizing t indent last with
  | zero => exact List.pairwise_singleton _ _
  | succ n ih =>
    rw [rows, List.pairwise_cons]
    refine ⟨fun s hs => ?_, List.pairwise_flatMap.2 ⟨fun e he => ?_, ?_⟩⟩
    · obtain ⟨e, -, hs⟩ := List.mem_flatMap.1 hs
      obtain ⟨s, -, rfl⟩ := List.mem_map.1 hs
      exact ⟨List.cons_ne_nil _ _, fun hnil => absurd rfl hnil⟩
    · -- two rows of one child
      rw [List.pairwise_map]
      refine (ih (h.of_mem_flagged he) _ _).imp fun {r s} ⟨hs, horder⟩ => ⟨List.cons_ne_nil _ _, fun _ heq => ?_⟩
      by_cases hr : r.path = []
      · simp [Row.under, hr, List.dropLast_cons_of_ne_nil hs] at heq
      · have hdrop : r.path.dropLast = s.path.dropLast := by
          simpa [Row.under, List.dropLast_cons_of_ne_nil hs, List.dropLast_cons_of_ne_nil hr] using heq
        have := horder hr hdrop
        simpa only [Row.under, getD_getLast?_cons hr, getD_getLast?_cons hs] using this
    · -- rows of two children, of which only the first ones are siblings
      have hkeys : (flagged t.drawn).Pairwise fun a b =>
          siblingKey a.1.isDirectory a.1.name ≤ siblingKey b.1.isDirectory b.1.name := by
        rw [← List.pairwise_map (f := Prod.fst)
          (R := fun a b : FileTree => siblingKey a.isDirectory a.name ≤ siblingKey b.isDirectory b.name),
          map_fst_flagged]
        exact t.pairwise_drawn
      have hnames := List.pairwise_map.1 (nodup_name_flagged_drawn h)
      refine (hkeys.and hnames).imp fun {a b} ⟨hkey, hne⟩ x hx y hy => ?_
      obtain ⟨r, hr, rfl⟩ := List.mem_map.1 hx
      obtain ⟨s, hs, rfl⟩ := List.mem_map.1 hy
      refine ⟨List.cons_ne_nil _ _, fun _ heq => ?_⟩
      by_cases hrnil : r.path = []
      · by_cases hsnil : s.path = []
        · have := order_of_siblingKey_le hkey
          simpa [Row.under, hrnil, hsnil, isDirectory_of_mem_rows hr hrnil, isDirectory_of_mem_rows hs hsnil] using this
        · simp [Row.under, hrnil, List.dropLast_cons_of_ne_nil hsnil] at heq
      · by_cases hsnil : s.path = []
        · simp [Row.under, hsnil, List.dropLast_cons_of_ne_nil hrnil] at heq
        · simp [Row.under, List.dropLast_cons_of_ne_nil hrnil, List.dropLast_cons_of_ne_nil hsnil, hne] at heq

/-! ### What stands in front of names -/

/-- A row is indented by four characters for each level. -/
theorem exists_cells_of_mem_rows {r : Row} (h : r ∈ rows n t indent last) : ∃ (cells : List Bool) (own : Bool),
    cells.length = r.path.length ∧ r.marks = indent ++ String.join (cells.map spacer) ++ connector own := by
  induction n generalizing t indent last r with
  | zero =>
    rw [List.mem_singleton.1 h]
    exact ⟨[], last, rfl, by simp⟩
  | succ n ih =>
    rcases List.mem_cons.1 h with rfl | hbelow
    · exact ⟨[], last, rfl, by simp⟩
    · obtain ⟨e, -, hbelow⟩ := List.mem_flatMap.1 hbelow
      obtain ⟨s, hs, rfl⟩ := List.mem_map.1 hbelow
      obtain ⟨cells, own, hlength, hmarks⟩ := ih hs
      exact ⟨last :: cells, own, by simp [Row.under, hlength], by simp [Row.under, hmarks, String.append_assoc]⟩

end CodeAtlas.FileTree

import CodeAtlas.Proofs.FileTree.Files
import CodeAtlas.Proofs.Text.Case

/-!
# The order of files and the drawing

Nodes keep the order in which they came, and sorting leaves those in it whose kind and name in lower case are the
same.  The drawing of the tree of files is independent of the order of the files exactly if there are no such
siblings, and if no file is on the way to another one.

## Main definitions

* `FileTree.Tied` — two siblings that sorting does not tell apart
* `FileTree.Contested` — a node that one way ends at and another one goes through
* `FileTree.Swapped` — trees that differ in the order of two siblings which sorting does not tell apart

## Main results

* `FileTree.rows_congr` — the rows of trees with the same nodes
* `FileTree.Swapped.diverge` — trees with swapped siblings are drawn differently
* `FileTree.renderFiles_perm_iff` — when the drawing does not depend on the order of the files
-/

namespace CodeAtlas.FileTree

open Disk

variable {t t' u v : FileTree} {n k : Nat} {indent : String} {last : Bool} {levels : Int} {ways : List (List String)}

/-- Two siblings down to a level are of one kind, and their names differ in case only. -/
def Tied (ways : List (List String)) (levels : Int) : Prop :=
  ∃ p a b x y, p ++ a :: x ∈ ways ∧ p ++ b :: y ∈ ways ∧ a ≠ b ∧ Text.lower a = Text.lower b ∧ (x = [] ↔ y = []) ∧
    (p.length : Int) + 1 ≤ levels

/-- One way ends at a node down to a level, and another one goes through it. -/
def Contested (ways : List (List String)) (levels : Int) : Prop :=
  ∃ w ∈ ways, ∃ v ∈ ways, w <+: v ∧ w ≠ v ∧ (w.length : Int) ≤ levels

/-! ### The same nodes without ties -/

/-- Siblings down to a level differ in kind, or in their names without regard to case. -/
def Untied (n : Nat) (t : FileTree) : Prop :=
  ∀ p a b k, p.length + 1 ≤ n → t.kind? (p ++ [a]) = some k → t.kind? (p ++ [b]) = some k →
    Text.lower a = Text.lower b → a = b

theorem flatMap_flagged_congr {α β γ : Type} (g : α → β) {F : α × Bool → List γ} {xs ys : List α}
    (hmap : xs.map g = ys.map g)
    (hF : ∀ x ∈ xs, ∀ y ∈ ys, g x = g y → ∀ b, F (x, b) = F (y, b)) :
    (flagged xs).flatMap F = (flagged ys).flatMap F := by
  induction xs generalizing ys with
  | nil =>
    obtain rfl := List.map_eq_nil_iff.1 hmap.symm
    rfl
  | cons x xs ih =>
    obtain ⟨y, ys, rfl, hxy, hrest⟩ := List.map_eq_cons_iff.1 hmap.symm
    have htail := ih hrest.symm fun x' hx' y' hy' => hF x' (List.mem_cons_of_mem _ hx') y' (List.mem_cons_of_mem _ hy')
    have hhead := hF x List.mem_cons_self y List.mem_cons_self hxy.symm
    cases xs with
    | nil =>
      obtain rfl := List.map_eq_nil_iff.1 hrest
      simp [flagged, hhead]
    | cons x' xs =>
      obtain ⟨y', ys, rfl, -, -⟩ := List.map_eq_cons_iff.1 hrest
      rw [flagged, flagged, List.flatMap_cons, List.flatMap_cons, htail, hhead]

theorem kind?_of_mem_children (h : t.Distinct) {c : FileTree} (hc : c ∈ t.children) (p : List String) :
    t.kind? (c.name :: p) = c.kind? p := by
  rw [kind?_cons, child?, (find?_eq_some_of_nodup h.nodup_names).2 ⟨hc, rfl⟩, Option.bind_some]

theorem mem_map_children (h : t.Distinct) {b : Bool} {name : String} :
    (b, name) ∈ t.children.map (fun c => (c.isDirectory, c.name)) ↔ t.kind? [name] = some b := by
  constructor
  · intro hmem
    obtain ⟨c, hc, heq⟩ := List.mem_map.1 hmem
    cases heq
    rw [kind?_of_mem_children h hc, kind?_nil]
  · intro hkind
    rw [kind?_cons] at hkind
    obtain ⟨c, hc, hkind⟩ := Option.bind_eq_some_iff.1 hkind
    rw [kind?_nil, Option.some.injEq] at hkind
    have hname : c.name = name := by simpa using List.find?_some hc
    exact List.mem_map.2 ⟨c, List.mem_of_find?_eq_some hc, by rw [hkind, hname]⟩

theorem nodup_map_children (h : t.Distinct) : (t.children.map fun c => (c.isDirectory, c.name)).Nodup := by
  refine List.Nodup.of_map Prod.snd ?_
  rw [List.map_map]
  exact h.nodup_names

/-- Without ties the children of a node come in one order only. -/
theorem map_drawn_congr (h : t.Distinct) (h' : t'.Distinct) (hkind : ∀ name, t.kind? [name] = t'.kind? [name])
    (huntied : ∀ a b k, t.kind? [a] = some k → t.kind? [b] = some k → Text.lower a = Text.lower b → a = b) :
    t.drawn.map (fun c => (c.isDirectory, c.name)) = t'.drawn.map (fun c => (c.isDirectory, c.name)) := by
  have hsorted : ∀ t : FileTree, (t.drawn.map fun c => (c.isDirectory, c.name)).Pairwise
      fun a b => siblingKey a.1 a.2 ≤ siblingKey b.1 b.2 := fun t => List.pairwise_map.2 t.pairwise_drawn
  have hmem : ∀ {t : FileTree}, t.Distinct → ∀ {e : Bool × String}, e ∈ t.drawn.map (fun c => (c.isDirectory, c.name)) →
      t.kind? [e.2] = some e.1 := fun {t} h e he => (mem_map_children h).1 ((t.drawn_perm.map _).mem_iff.1 he)
  refine List.Perm.eq_of_pairwise ?_ (hsorted t) (hsorted t') ?_
  · rintro ⟨k, a⟩ ⟨k', b⟩ ha hb hle hge
    have hkey := le_antisymm hle hge
    rw [siblingKey, siblingKey, EmbeddingLike.apply_eq_iff_eq, Prod.mk.injEq, Bool.not_inj_iff] at hkey
    obtain ⟨rfl, hlower⟩ := hkey
    have hb := hmem h' hb
    rw [← hkind] at hb
    rw [huntied a b k (hmem h ha) hb hlower]
  · refine (t.drawn_perm.map _).trans (List.Perm.trans ?_ (t'.drawn_perm.map _).symm)
    refine (List.perm_ext_iff_of_nodup (nodup_map_children h) (nodup_map_children h')).2 ?_
    rintro ⟨b, name⟩
    rw [mem_map_children h, mem_map_children h', hkind]

/-- Trees with the same nodes have the same rows, if there are no ties. -/
theorem rows_congr (h : t.Distinct) (h' : t'.Distinct) (hkind : ∀ p, p.length ≤ n → t.kind? p = t'.kind? p)
    (huntied : Untied n t)
    (indent : String) (last : Bool) : rows n t indent last = rows n t' indent last := by
  induction n generalizing t t' indent last with
  | zero =>
    have hroot := hkind [] (Nat.zero_le _)
    rw [kind?_nil, kind?_nil, Option.some.injEq] at hroot
    rw [rows, rows, hroot]
  | succ n ih =>
    have hroot := hkind [] (Nat.zero_le _)
    rw [kind?_nil, kind?_nil, Option.some.injEq] at hroot
    have hdrawn := map_drawn_congr h h' (fun name => hkind [name] (by simp))
      fun a b k => huntied [] a b k (by simp)
    rw [rows, rows, hroot]
    refine congrArg (List.cons _) (flatMap_flagged_congr _ hdrawn fun c hc c' hc' heq b => ?_)
    obtain ⟨-, hname⟩ := Prod.mk.inj heq
    have hc := t.drawn_perm.mem_iff.1 hc
    have hc' := t'.drawn_perm.mem_iff.1 hc'
    have hbelow : ∀ p, p.length ≤ n → c.kind? p = c'.kind? p := by
      intro p hp
      rw [← kind?_of_mem_children h hc, ← kind?_of_mem_children h' hc', hname]
      exact hkind _ (by simpa using hp)
    have huntied' : Untied n c := by
      intro p a b k hp ha hb
      rw [← kind?_of_mem_children h hc] at ha hb
      exact huntied (c.name :: p) a b k (by simpa using hp) ha hb
    rw [ih (h.of_mem_children hc) (h'.of_mem_children hc') hbelow huntied', hname]

/-! ### Ties -/

/-- Texts that differ at a position that both have. -/
def Diverge (xs ys : List Char) : Prop :=
  ∃ common c d xs' ys', c ≠ d ∧ xs = common ++ c :: xs' ∧ ys = common ++ d :: ys'

theorem Diverge.ne {xs ys : List Char} (h : Diverge xs ys) : xs ≠ ys := by
  obtain ⟨common, c, d, xs', ys', hne, rfl, rfl⟩ := h
  intro heq
  exact hne (List.cons.inj (List.append_cancel_left heq)).1

theorem Diverge.append {xs ys : List Char} (h : Diverge xs ys) (front back back' : List Char) :
    Diverge (front ++ (xs ++ back)) (front ++ (ys ++ back')) := by
  obtain ⟨common, c, d, xs', ys', hne, rfl, rfl⟩ := h
  exact ⟨front ++ common, c, d, xs' ++ back, ys' ++ back', hne, by simp, by simp⟩

theorem diverge_of_not_isPrefix {xs ys : List Char} (h : ¬xs <+: ys) (h' : ¬ys <+: xs) : Diverge xs ys := by
  induction xs generalizing ys with
  | nil => exact absurd List.nil_prefix h
  | cons x xs ih =>
    cases ys with
    | nil => exact absurd List.nil_prefix h'
    | cons y ys =>
      by_cases hxy : x = y
      · subst hxy
        obtain ⟨common, c, d, xs', ys', hne, rfl, rfl⟩ := ih (by simpa using h) (by simpa using h')
        exact ⟨x :: common, c, d, xs', ys', hne, rfl, rfl⟩
      · exact ⟨[], x, y, xs, ys, hxy, rfl, rfl⟩

theorem diverge_of_lower_eq {a b : String} (hne : a ≠ b) (h : Text.lower a = Text.lower b) :
    Diverge a.toList b.toList := by
  apply diverge_of_not_isPrefix
  · exact fun hpre => hne (Text.eq_of_isPrefix_of_lower_eq h hpre)
  · exact fun hpre => hne (Text.eq_of_isPrefix_of_lower_eq h.symm hpre).symm

/-- Trees that differ in the order of two siblings at a depth which sorting does not tell apart. -/
inductive Swapped : Nat → FileTree → FileTree → Prop
  | here {name : String} {isDirectory : Bool} {u v : FileTree} {rest : List FileTree} (hne : u.name ≠ v.name)
      (hkey : siblingKey u.isDirectory u.name = siblingKey v.isDirectory v.name) :
      Swapped 0 (node name isDirectory (u :: v :: rest)) (node name isDirectory (v :: u :: rest))
  | inside {k : Nat} {name : String} {isDirectory : Bool} {u v : FileTree} {rest : List FileTree} (h : Swapped k u v) :
      Swapped (k + 1) (node name isDirectory (u :: rest)) (node name isDirectory (v :: rest))

theorem Swapped.name_eq (h : Swapped k t t') : t.name = t'.name := by
  cases h <;> rfl

theorem Swapped.isDirectory_eq (h : Swapped k t t') : t.isDirectory = t'.isDirectory := by
  cases h <;> rfl

theorem Swapped.insert (h : Swapped k t t') (way : List String) : Swapped k (t.insert way) (t'.insert way) := by
  induction h generalizing way with
  | @here name isDirectory u v rest hne hkey =>
    cases way with
    | nil => exact .here hne hkey
    | cons first way =>
      rw [insert_cons, insert_cons]
      by_cases hu : u.name = first
      · have hv : ¬v.name = first := fun heq => hne (hu.trans heq.symm)
        simp only [children, upsert, hu, hv, beq_iff_eq, if_true, if_false]
        exact .here (by simpa using hne) (by simpa using hkey)
      · by_cases hv : v.name = first
        · simp only [children, upsert, hu, hv, beq_iff_eq, if_true, if_false]
          exact .here (by simpa using hne) (by simpa using hkey)
        · simp only [children, upsert, hu, hv, beq_iff_eq, if_false]
          exact .here hne hkey
  | @inside k name isDirectory u v rest h ih =>
    cases way with
    | nil => exact .inside h
    | cons first way =>
      rw [insert_cons, insert_cons]
      have hname := h.name_eq
      by_cases hu : u.name = first
      · simp only [children, upsert, ← hname, hu, beq_self_eq_true, if_true]
        exact .inside (ih way)
      · simp only [children, upsert, ← hname, hu, beq_iff_eq, if_false]
        exact .inside h

theorem Swapped.foldl_insert (h : Swapped k t t') (ways : List (List String)) :
    Swapped k (ways.foldl (fun t way => t.insert way) t) (ways.foldl (fun t way => t.insert way) t') := by
  induction ways generalizing t t' with
  | nil => exact h
  | cons way ways ih => exact ih (h.insert way)

/-- Two ways that part at a tie, in both orders. -/
theorem swapped_insert_insert {a b : String} {x y : List String} (hne : a ≠ b) (hlower : Text.lower a = Text.lower b)
    (hkind : x = [] ↔ y = []) (p : List String) (name : String) (isDirectory : Bool) :
    Swapped p.length (((leaf name isDirectory).insert (p ++ a :: x)).insert (p ++ b :: y))
      (((leaf name isDirectory).insert (p ++ b :: y)).insert (p ++ a :: x)) := by
  induction p generalizing name isDirectory with
  | nil =>
    have hkey : siblingKey (decide (x ≠ [])) a = siblingKey (decide (y ≠ [])) b := by
      rw [siblingKey, siblingKey, hlower]
      simp only [ne_eq, hkind]
    have hleaf : ∀ (c : String) (z : List String), (leaf name isDirectory).insert (c :: z) =
        node name isDirectory [(leaf c (decide (z ≠ []))).insert z] := fun c z => insert_cons c z _
    rw [List.nil_append, List.nil_append, hleaf, hleaf, insert_cons, insert_cons]
    simp only [children, upsert, name_insert, name_leaf, beq_iff_eq, hne, hne.symm, if_false]
    exact .here (by simpa using hne) (by simpa using hkey)
  | cons first p ih =>
    have hleaf : ∀ z : List String, z ≠ [] → (leaf name isDirectory).insert (first :: z) =
        node name isDirectory [(leaf first true).insert z] := by
      intro z hz
      rw [insert_cons, decide_eq_true hz]
      rfl
    rw [List.cons_append, List.cons_append, hleaf _ (by simp), hleaf _ (by simp), insert_cons, insert_cons]
    simp only [children, upsert, name_insert, name_leaf, beq_self_eq_true, if_true]
    exact .inside (ih first true)

theorem flagged_append_cons {α : Type} (xs : List α) (y : α) (zs : List α) :
    flagged (xs ++ y :: zs) = xs.map (·, false) ++ (y, zs.isEmpty) :: flagged zs := by
  induction xs with
  | nil => cases zs <;> rfl
  | cons x xs ih =>
    have hcons : ∀ ws : List α, ws ≠ [] → flagged (x :: ws) = (x, false) :: flagged ws := by
      intro ws hws
      obtain ⟨w, ws, rfl⟩ := List.exists_cons_of_ne_nil hws
      rfl
    rw [List.cons_append, hcons _ (by simp), ih, List.map_cons, List.cons_append]

theorem childBefore_congr (h : siblingKey u.isDirectory u.name = siblingKey v.isDirectory v.name) (c : FileTree) :
    childBefore c u = childBefore c v := by
  rw [Bool.eq_iff_iff, childBefore_iff, childBefore_iff, h]

theorem not_childBefore (h : siblingKey u.isDirectory u.name = siblingKey v.isDirectory v.name) :
    ¬childBefore u v = true := by
  rw [childBefore_iff, h]
  exact lt_irrefl _

-- Both are put in front of the same element, and the one that is put there later stands first.
theorem exists_insertBy_tie (h : siblingKey u.isDirectory u.name = siblingKey v.isDirectory v.name)
    (cs : List FileTree) :
    ∃ front back, insertBy childBefore u cs = front ++ u :: back ∧ insertBy childBefore v cs = front ++ v :: back ∧
      insertBy childBefore u (insertBy childBefore v cs) = front ++ u :: v :: back ∧
      insertBy childBefore v (insertBy childBefore u cs) = front ++ v :: u :: back := by
  have huv := not_childBefore h
  have hvu := not_childBefore h.symm
  induction cs with
  | nil => exact ⟨[], [], rfl, rfl, by simp [insertBy, hvu], by simp [insertBy, huv]⟩
  | cons c cs ih =>
    have hc := childBefore_congr h c
    by_cases hbefore : childBefore c u = true
    · obtain ⟨front, back, hu, hv, hboth, hboth'⟩ := ih
      have hbefore' := hc ▸ hbefore
      exact ⟨c :: front, back, by simp [insertBy, hbefore, hu], by simp [insertBy, hbefore', hv],
        by simp [insertBy, hbefore, hbefore', hboth], by simp [insertBy, hbefore, hbefore', hboth']⟩
    · have hbefore' := hc ▸ hbefore
      exact ⟨[], c :: cs, by simp [insertBy, hbefore], by simp [insertBy, hbefore'],
        by simp [insertBy, hbefore', hvu], by simp [insertBy, hbefore, huv]⟩

/-- What a node and its first children up to one of them give of a drawing. -/
theorem draw_of_drawn_eq {front back : List FileTree} (hn : 0 ≤ levels) (h : t.drawn = front ++ u :: back)
    (indent : String)
    (last : Bool) : (t.draw indent last levels).toList =
      (indent ++ connector last ++ t.name ++ (if t.isDirectory then "/" else "") ++ "\n" ++
        String.join (front.map fun c => c.draw (indent ++ spacer last) false (levels - 1))).toList ++
      ((u.draw (indent ++ spacer last) back.isEmpty (levels - 1)).toList ++
        (String.join ((flagged back).map fun e => e.1.draw (indent ++ spacer last) e.2 (levels - 1))).toList) := by
  rw [draw_of_nonneg hn, h, flagged_append_cons, List.map_append, String.join_append, List.map_cons,
    String.join_cons, List.map_map]
  simp only [String.toList_append, List.append_assoc]
  rfl

theorem exists_draw_eq (hn : 0 ≤ levels) (t : FileTree) (indent : String) (last : Bool) :
    ∃ tail, (t.draw indent last levels).toList = (indent ++ connector last).toList ++ (t.name.toList ++ tail) := by
  rw [draw_of_nonneg hn]
  simp only [String.toList_append, List.append_assoc]
  exact ⟨_, rfl⟩

/-- Trees with swapped siblings are drawn differently. -/
theorem Swapped.diverge (h : Swapped k t t') (hk : (k : Int) + 1 ≤ levels) (indent : String) (last : Bool) :
    Diverge (t.draw indent last levels).toList (t'.draw indent last levels).toList := by
  induction h generalizing levels indent last with
  | @here name isDirectory u v rest hne hkey =>
    obtain ⟨front, back, -, -, huv, hvu⟩ := exists_insertBy_tie hkey (sortBy childBefore rest)
    have hdrawn : (node name isDirectory (u :: v :: rest)).drawn = front ++ u :: v :: back := huv
    have hdrawn' : (node name isDirectory (v :: u :: rest)).drawn = front ++ v :: u :: back := hvu
    rw [draw_of_drawn_eq (by omega) hdrawn, draw_of_drawn_eq (by omega) hdrawn']
    refine Diverge.append ?_ _ _ _
    have hlower : Text.lower u.name = Text.lower v.name := by
      rw [siblingKey, siblingKey, EmbeddingLike.apply_eq_iff_eq, Prod.mk.injEq] at hkey
      exact hkey.2
    obtain ⟨tail, htail⟩ := u.exists_draw_eq (show 0 ≤ levels - 1 by omega) (indent ++ spacer last) false
    obtain ⟨tail', htail'⟩ := v.exists_draw_eq (show 0 ≤ levels - 1 by omega) (indent ++ spacer last) false
    rw [List.isEmpty_cons, List.isEmpty_cons, htail, htail']
    exact (diverge_of_lower_eq hne hlower).append _ _ _
  | @inside k name isDirectory u v rest h ih =>
    have hkey : siblingKey u.isDirectory u.name = siblingKey v.isDirectory v.name := by rw [h.name_eq, h.isDirectory_eq]
    obtain ⟨front, back, hu, hv, -, -⟩ := exists_insertBy_tie hkey (sortBy childBefore rest)
    have hdrawn : (node name isDirectory (u :: rest)).drawn = front ++ u :: back := hu
    have hdrawn' : (node name isDirectory (v :: rest)).drawn = front ++ v :: back := hv
    rw [draw_of_drawn_eq (by omega) hdrawn, draw_of_drawn_eq (by omega) hdrawn']
    exact (ih (by omega) _ _).append _ _ _

/-! ### Contested nodes -/

theorem count_slash_line {r : Row} (hmarks : '/' ∉ r.marks.toList) (hpath : ∀ name ∈ r.path, '/' ∉ name.toList) :
    (r.line "Repository Root" ++ "\n").toList.count '/' = if r.isDirectory then 1 else 0 := by
  have hname : '/' ∉ (r.path.getLast?.getD "Repository Root").toList := by
    cases hlast : r.path.getLast? with
    | none => decide
    | some name => exact hpath name (List.mem_of_getLast? hlast)
  rw [Row.line]
  simp only [String.toList_append, List.count_append, List.count_eq_zero.2 hmarks, List.count_eq_zero.2 hname]
  cases r.isDirectory <;> rfl

/-- The slashes of a drawing are those behind its directories. -/
theorem count_slash_textOf {rs : List Row} (h : DrawnRows t n rs)
    (hnames : ∀ e ∈ t.places, ∀ name ∈ e.1, '/' ∉ name.toList) :
    (textOf rs).toList.count '/' = (t.places.filter fun e => e.1.length ≤ n).countP Prod.snd := by
  have hlines : ∀ r ∈ rs, (r.line "Repository Root" ++ "\n").toList.count '/' = if r.isDirectory then 1 else 0 := by
    intro r hr
    have hmem := (List.mem_filter.1 (h.perm.mem_iff.1 (List.mem_map_of_mem hr))).1
    exact count_slash_line (not_mem_marks (Or.inr rfl) (h.marks r hr)) (hnames _ hmem)
  have hjoin : (String.join (rs.map fun r => r.line "Repository Root" ++ "\n")).toList.count '/' =
      rs.countP Row.isDirectory := by
    clear h
    induction rs with
    | nil => rfl
    | cons r rs ih =>
      obtain ⟨hr, hrs⟩ := List.forall_mem_cons.1 hlines
      rw [List.map_cons, String.join_cons, String.toList_append, List.count_append, hr, ih hrs, List.countP_cons,
        Nat.add_comm]
  have hperm := h.perm.countP_eq Prod.snd
  rw [List.countP_map] at hperm
  rw [textOf_eq, String.toList_append, List.count_append, hjoin, ← hperm]
  simp [Function.comp_def]

-- Elsewhere than at its end the shorter way says nothing that the longer one does not say.
theorem findSome?_said?_swap {p w v : List String} (hpre : w <+: v) (hp : p ≠ w) (rest : List (List String)) :
    (v :: w :: rest).findSome? (said? p) = (w :: v :: rest).findSome? (said? p) := by
  by_cases hpw : p <+: w
  · have hpv : p ≠ v := fun heq => hp (hpw.eq_of_length_le (heq ▸ hpre.length_le))
    have hw : said? p w = some true := by rw [said?, if_pos hpw, decide_eq_true hp]
    have hv : said? p v = some true := by rw [said?, if_pos (hpw.trans hpre), decide_eq_true hpv]
    simp only [List.findSome?_cons, hw, hv]
  · have hw : said? p w = none := by rw [said?, if_neg hpw]
    simp only [List.findSome?_cons, hw]

/-- A node that is a directory or not, by the first of two ways, and the other nodes. -/
theorem exists_places_perm {w v : List String} (hw : w ≠ []) (hpre : w <+: v) (hne : w ≠ v)
    (rest : List (List String)) :
    ∃ others, (ofWays (w :: v :: rest)).places.Perm ((w, false) :: others) ∧
      (ofWays (v :: w :: rest)).places.Perm ((w, true) :: others) := by
  have hsaid_w : said? w w = some false := by simp [said?]
  have hsaid_v : said? w v = some true := by rw [said?, if_pos hpre, decide_eq_true hne]
  have hkind : (ofWays (w :: v :: rest)).kind? w = some false := by
    rw [kind?_ofWays, if_neg hw, List.findSome?_cons, hsaid_w]
  have hkind' : (ofWays (v :: w :: rest)).kind? w = some true := by
    rw [kind?_ofWays, if_neg hw, List.findSome?_cons, hsaid_v]
  have hothers : ∀ p, p ≠ w → (ofWays (v :: w :: rest)).kind? p = (ofWays (w :: v :: rest)).kind? p := by
    intro p hp
    rw [kind?_ofWays, kind?_ofWays, findSome?_said?_swap hpre hp]
  have hdistinct := distinct_ofWays (w :: v :: rest)
  have hdistinct' := distinct_ofWays (v :: w :: rest)
  have hnodup : ∀ {t : FileTree}, t.Distinct → t.places.Nodup := fun h => (nodup_places h).of_map
  refine ⟨(ofWays (w :: v :: rest)).places.filter fun e => e.1 ≠ w, ?_, ?_⟩
  · refine (List.perm_ext_iff_of_nodup (hnodup hdistinct) ?_).2 ?_
    · exact List.nodup_cons.2 ⟨by simp, (hnodup hdistinct).filter _⟩
    · rintro ⟨p, b⟩
      by_cases hp : p = w
      · simp [hp, mem_places hdistinct, hkind, eq_comm]
      · simp [hp]
  · refine (List.perm_ext_iff_of_nodup (hnodup hdistinct') ?_).2 ?_
    · exact List.nodup_cons.2 ⟨by simp, (hnodup hdistinct).filter _⟩
    · rintro ⟨p, b⟩
      by_cases hp : p = w
      · simp [hp, mem_places hdistinct', hkind', eq_comm]
      · simp [hp, mem_places hdistinct, mem_places hdistinct', hothers p hp]

/-! ### Ways in another order -/

theorem isPrefix_of_mem_places {e : List String × Bool} (he : e ∈ (ofWays ways).places) (hne : e.1 ≠ []) :
    ∃ w ∈ ways, e.1 <+: w := by
  obtain ⟨p, b⟩ := e
  rw [mem_places (distinct_ofWays ways), kind?_ofWays, if_neg hne] at he
  obtain ⟨w, hw, hsaid⟩ := List.exists_of_findSome?_eq_some he
  exact ⟨w, hw, isPrefix_of_said? hsaid⟩

/-- A contested node makes the drawing depend on which of two ways comes first. -/
theorem render_ne_of_isPrefix {w v : List String} {rest : List (List String)} (hw : w ≠ []) (hpre : w <+: v)
    (hne : w ≠ v)
    (hn : (w.length : Int) ≤ levels) (hslash : ∀ x ∈ w :: v :: rest, ∀ name ∈ x, '/' ∉ name.toList) :
    (ofWays (w :: v :: rest)).render levels ≠ (ofWays (v :: w :: rest)).render levels := by
  obtain ⟨n, rfl⟩ := Int.eq_ofNat_of_zero_le (show 0 ≤ levels by omega)
  have hcount : ∀ {ways : List (List String)}, (∀ x ∈ ways, ∀ name ∈ x, '/' ∉ name.toList) →
      ((ofWays ways).render n).toList.count '/' =
        ((ofWays ways).places.filter fun e => e.1.length ≤ n).countP Prod.snd := by
    intro ways hways
    rw [render_ofWays]
    refine count_slash_textOf (drawnRows_rows (distinct_ofWays ways) n) fun e he name hname => ?_
    obtain ⟨x, hx, hpre⟩ := isPrefix_of_mem_places he (List.ne_nil_of_mem hname)
    exact hways x hx name (hpre.subset hname)
  have hslash' : ∀ x ∈ v :: w :: rest, ∀ name ∈ x, '/' ∉ name.toList :=
    fun x hx => hslash x (by simpa [or_left_comm] using hx)
  obtain ⟨others, hfile, hdirectory⟩ := exists_places_perm hw hpre hne rest
  intro heq
  have hsame := hcount hslash
  rw [heq, hcount hslash', (hdirectory.filter _).countP_eq, (hfile.filter _).countP_eq] at hsame
  have hle : w.length ≤ n := by omega
  simp [hle] at hsame

/-- A tie makes the drawing depend on which of two ways comes first. -/
theorem render_ne_of_tie {p x y : List String} {a b : String} (hne : a ≠ b) (hlower : Text.lower a = Text.lower b)
    (hkind : x = [] ↔ y = []) (hn : (p.length : Int) + 1 ≤ levels) (rest : List (List String)) :
    (ofWays ((p ++ a :: x) :: (p ++ b :: y) :: rest)).render levels ≠
      (ofWays ((p ++ b :: y) :: (p ++ a :: x) :: rest)).render levels := by
  have hswapped := (swapped_insert_insert hne hlower hkind p "Repository Root" true).foldl_insert rest
  have hdiverge := (hswapped.diverge hn "" true).append "Repository Tree:\n".toList [] []
  intro heq
  refine hdiverge.ne ?_
  have htext := congrArg String.toList heq
  simpa [render_eq, ofWays] using htext

/-- Without ties and contested nodes the drawing is the same for all orders. -/
theorem render_congr {ways' : List (List String)} (hperm : ways'.Perm ways) (htied : ¬Tied ways levels)
    (hcontested : ¬Contested ways levels) : (ofWays ways').render levels = (ofWays ways).render levels := by
  by_cases hneg : levels < 0
  · rw [render_eq, render_eq, draw_of_neg hneg, draw_of_neg hneg]
  obtain ⟨n, rfl⟩ := Int.eq_ofNat_of_zero_le (Int.not_lt.1 hneg)
  -- what is said of a node down to the level does not depend on which way says it
  have hagree : ∀ {p : List String}, p.length ≤ n → ∀ w ∈ ways, p <+: w → p ∈ ways → p = w := by
    intro p hp w hw hpre hmem
    by_contra hne
    exact hcontested ⟨p, hmem, w, hw, hpre, hne, by omega⟩
  have hsaid : ∀ {p : List String} {b : Bool}, p ≠ [] → p.length ≤ n → ((ofWays ways).kind? p = some b ↔
      (∃ w ∈ ways, p <+: w) ∧ (b = true ↔ ∃ w ∈ ways, p <+: w ∧ p ≠ w)) := by
    intro p b hne hp
    rw [kind?_ofWays, if_neg hne, findSome?_said? (hagree hp)]
  have hkind : ∀ p, p.length ≤ n → (ofWays ways').kind? p = (ofWays ways).kind? p := by
    intro p hp
    by_cases hne : p = []
    · rw [kind?_ofWays, kind?_ofWays, if_pos hne, if_pos hne]
    · have hagree' : ∀ w ∈ ways', p <+: w → p ∈ ways' → p = w := by
        intro w hw hpre hmem
        exact hagree hp w (hperm.mem_iff.1 hw) hpre (hperm.mem_iff.1 hmem)
      refine Option.ext fun b => ?_
      rw [hsaid hne hp, kind?_ofWays, if_neg hne, findSome?_said? hagree']
      simp only [hperm.mem_iff]
  have huntied : Untied n (ofWays ways') := by
    intro p a b k hp ha hb hlower
    rw [hkind _ (by simpa using hp), hsaid (by simp) (by simpa using hp)] at ha hb
    by_contra hne
    -- a way through a node of that kind
    have hway : ∀ {c : String}, ((∃ w ∈ ways, p ++ [c] <+: w) ∧
        (k = true ↔ ∃ w ∈ ways, p ++ [c] <+: w ∧ p ++ [c] ≠ w)) →
        ∃ x, p ++ c :: x ∈ ways ∧ (x = [] ↔ k = false) := by
      rintro c ⟨⟨w, hw, z, rfl⟩, hk⟩
      cases k with
      | false =>
        have hz : z = [] := by
          by_contra hz
          exact absurd (hk.2 ⟨_, hw, List.prefix_append _ _, by simpa using hz⟩) Bool.false_ne_true
        exact ⟨z, by simpa using hw, by simpa using hz⟩
      | true =>
        obtain ⟨v, hv, ⟨z', rfl⟩, hne⟩ := hk.1 rfl
        exact ⟨z', by simpa using hv, by simpa using hne⟩
    obtain ⟨x, hx, hxk⟩ := hway ha
    obtain ⟨y, hy, hyk⟩ := hway hb
    exact htied ⟨p, a, b, x, y, hx, hy, hne, hlower, hxk.trans hyk.symm, by omega⟩
  rw [render_ofWays, render_ofWays, rows_congr (distinct_ofWays ways') (distinct_ofWays ways) hkind huntied]

/-! ### Files in another order -/

theorem renderFiles_eq {d : Disk} {root : String} {files : List String} (hne : files ≠ [])
    (hfiles : ∀ f ∈ files, d.isFile f = true) :
    renderFiles d root files levels = (ofWays (files.filterMap (wayTo? d root))).render levels := by
  rw [renderFiles, ofFiles?_eq_ofWays hne hfiles]

/-- Two files whose ways clash can come first in both orders, and are then drawn differently. -/
theorem exists_perm_renderFiles_ne {d : Disk} {root : String} {files : List String} {w v : List String}
    (hfiles : ∀ f ∈ files, d.isFile f = true) (hw : w ∈ files.filterMap (wayTo? d root))
    (hv : v ∈ files.filterMap (wayTo? d root))
    (hne : w ≠ v) (hclash : ∀ rest, (∀ x ∈ w :: v :: rest, ∀ name ∈ x, '/' ∉ name.toList) →
      (ofWays (w :: v :: rest)).render levels ≠ (ofWays (v :: w :: rest)).render levels) :
    ∃ files' files'', files'.Perm files ∧ files''.Perm files ∧
      renderFiles d root files' levels ≠ renderFiles d root files'' levels := by
  obtain ⟨f, hf, hwayf⟩ := List.mem_filterMap.1 hw
  obtain ⟨g, hg, hwayg⟩ := List.mem_filterMap.1 hv
  have hfg : g ≠ f := by
    rintro rfl
    exact hne (Option.some.inj (hwayf.symm.trans hwayg))
  have hperm : (f :: g :: (files.erase f).erase g).Perm files :=
    ((List.perm_cons_erase ((List.mem_erase_of_ne hfg).2 hg)).cons f).symm.trans (List.perm_cons_erase hf).symm
  have hperm' := (List.Perm.swap f g _).trans hperm
  have hways : (f :: g :: (files.erase f).erase g).filterMap (wayTo? d root) =
      w :: v :: ((files.erase f).erase g).filterMap (wayTo? d root) := by
    simp only [List.filterMap_cons, hwayf, hwayg]
  have hways' : (g :: f :: (files.erase f).erase g).filterMap (wayTo? d root) =
      v :: w :: ((files.erase f).erase g).filterMap (wayTo? d root) := by
    simp only [List.filterMap_cons, hwayf, hwayg]
  refine ⟨_, _, hperm, hperm', ?_⟩
  rw [renderFiles_eq (by simp) fun f hf => hfiles f (hperm.mem_iff.1 hf), hways,
    renderFiles_eq (by simp) fun f hf => hfiles f (hperm'.mem_iff.1 hf), hways']
  refine hclash _ fun x hx name hname => ?_
  rw [← hways] at hx
  obtain ⟨file, -, hway⟩ := List.mem_filterMap.1 hx
  obtain ⟨rel, -, rfl⟩ := wayTo?_eq_some.1 hway
  exact Text.not_mem_of_mem_fields hname

/-- The drawing of the tree of files is the same for all orders of the files exactly if there are no ties and no
contested nodes. -/
theorem renderFiles_perm_iff (d : Disk) (root : String) (files : List String) (levels : Int)
    (hfiles : ∀ f ∈ files, d.isFile f = true) :
    (∀ files', files'.Perm files → renderFiles d root files' levels = renderFiles d root files levels) ↔
      ¬Tied (files.filterMap (wayTo? d root)) levels ∧ ¬Contested (files.filterMap (wayTo? d root)) levels := by
  constructor
  · intro hsame
    have hdiffer : ¬∃ files' files'', files'.Perm files ∧ files''.Perm files ∧
        renderFiles d root files' levels ≠ renderFiles d root files'' levels := by
      rintro ⟨files', files'', hperm, hperm', hne⟩
      exact hne ((hsame _ hperm).trans (hsame _ hperm').symm)
    constructor
    · rintro ⟨p, a, b, x, y, hx, hy, hne, hlower, hkind, hn⟩
      exact hdiffer (exists_perm_renderFiles_ne hfiles hx hy (by simp [hne]) fun rest _ =>
        render_ne_of_tie hne hlower hkind hn rest)
    · rintro ⟨w, hw, v, hv, hpre, hne, hn⟩
      have hw_ne : w ≠ [] := by
        obtain ⟨f, -, hway⟩ := List.mem_filterMap.1 hw
        obtain ⟨rel, -, rfl⟩ := wayTo?_eq_some.1 hway
        simp [Text.fields, Text.fieldsOf_ne_nil]
      exact hdiffer (exists_perm_renderFiles_ne hfiles hw hv hne fun rest hslash =>
        render_ne_of_isPrefix hw_ne hpre hne hn hslash)
  · rintro ⟨htied, hcontested⟩ files' hperm
    by_cases hempty : files = []
    · subst hempty
      rw [List.perm_nil.1 hperm]
    · have hne : files' ≠ [] := fun heq => hempty (List.nil_perm.1 (heq ▸ hperm))
      rw [renderFiles_eq hne fun f hf => hfiles f (hperm.mem_iff.1 hf), renderFiles_eq hempty hfiles]
      exact render_congr (hperm.filterMap _) htied hcontested

/-- Two files whose names differ in case only, and others. -/
def caseDisk : Disk where
  root := .directory [("A", .file (.bytes []) 0), ("a", .file (.bytes []) 0),
    ("src", .directory [("b", .file (.bytes []) 0), ("C", .file (.bytes []) 0)])]

/-- Files without ties are drawn the same in every order. -/
theorem renderFiles_perm_iff_caseDisk :
    (∀ f ∈ ["src/C", "a", "src/b"], caseDisk.isFile f = true) ∧
    ∀ files', files'.Perm ["src/C", "a", "src/b"] → renderFiles caseDisk "." files' 5 =
      "Repository Tree:\n└── Repository Root/\n    ├── src/\n    │   ├── b\n    │   └── C\n    └── a\n" := by
  have hfiles : ∀ f ∈ ["src/C", "a", "src/b"], caseDisk.isFile f = true := List.all_eq_true.1 (by decide +kernel)
  have hways : ["src/C", "a", "src/b"].filterMap (wayTo? caseDisk ".") = [["src", "C"], ["a"], ["src", "b"]] := by
    decide +kernel
  have htied : ¬Tied [["src", "C"], ["a"], ["src", "b"]] 5 := by
    rintro ⟨p, a, b, x, y, hx, hy, hne, hlower, hkind, -⟩
    have hCb : ¬Text.lower "C" = Text.lower "b" := by decide +kernel
    cases p with
    | nil =>
      simp only [List.nil_append, List.mem_cons, List.cons.injEq, List.not_mem_nil, or_false] at hx hy
      rcases hx with ⟨rfl, rfl⟩ | ⟨rfl, rfl⟩ | ⟨rfl, rfl⟩ <;> rcases hy with ⟨rfl, rfl⟩ | ⟨rfl, rfl⟩ | ⟨rfl, rfl⟩ <;>
        simp at hne hkind
    | cons first p =>
      cases p with
      | nil =>
        simp only [List.cons_append, List.nil_append, List.mem_cons, List.cons.injEq, List.not_mem_nil,
          or_false] at hx hy
        grind
      | cons second p =>
        simp at hx
  have hcontested : ¬Contested [["src", "C"], ["a"], ["src", "b"]] 5 := by
    rintro ⟨w, hw, v, hv, hpre, hne, -⟩
    simp only [List.mem_cons, List.not_mem_nil, or_false] at hw hv
    rcases hw with rfl | rfl | rfl <;> rcases hv with rfl | rfl | rfl <;> simp at hpre hne
  refine ⟨hfiles, fun files' hperm => ?_⟩
  rw [(renderFiles_perm_iff caseDisk "." _ 5 hfiles).2 (by rw [hways]; exact ⟨htied, hcontested⟩) files' hperm]
  decide +kernel

/-- Two files whose names differ in case only are drawn in the order in which they are given. -/
theorem renderFiles_tie :
    caseDisk.isFile "A" = true ∧ caseDisk.isFile "a" = true ∧
    renderFiles caseDisk "." ["A", "a"] 5 = "Repository Tree:\n└── Repository Root/\n    ├── A\n    └── a\n" ∧
    renderFiles caseDisk "." ["a", "A"] 5 = "Repository Tree:\n└── Repository Root/\n    ├── a\n    └── A\n" := by
  refine ⟨?_, ?_, ?_, ?_⟩ <;> decide +kernel

end CodeAtlas.FileTree

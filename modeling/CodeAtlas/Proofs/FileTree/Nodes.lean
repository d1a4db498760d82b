import CodeAtlas.FileTree
import Mathlib.Data.List.Nodup

/-!
# The nodes of a tree of files

Siblings in a tree that is built by insertions have different names, so that a list of names leads to one node at
most.  An insertion adds the nodes on its way that are missing, and changes none.
-/

namespace CodeAtlas.FileTree

variable {t c : FileTree} {name n : String} {cs : List FileTree} {b : Bool} {p : List String}

theorem forall_of_children {motive : FileTree → Prop}
    (h : ∀ name isDirectory cs, (∀ c ∈ cs, motive c) → motive (node name isDirectory cs)) : ∀ t, motive t
  | node name isDirectory cs => h name isDirectory cs fun c _ => forall_of_children h c

@[simp] theorem name_leaf (name : String) (isDirectory : Bool) : (leaf name isDirectory).name = name := rfl

@[simp] theorem isDirectory_leaf (name : String) (isDirectory : Bool) :
    (leaf name isDirectory).isDirectory = isDirectory := rfl

/-! ### One insertion -/

theorem insert_cons (name : String) (rest : List String) (t : FileTree) : t.insert (name :: rest) =
    node t.name t.isDirectory (upsert name (leaf name (decide (rest ≠ []))) (insert rest) t.children) := by
  cases t with
  | node n d cs =>
    cases rest with
    | nil =>
      have hid : insert [] = id := by
        funext t
        rw [insert, id]
      rw [hid]
      rfl
    | cons second rest => rfl

@[simp] theorem name_insert (way : List String) (t : FileTree) : (t.insert way).name = t.name := by
  cases way with
  | nil => rw [insert]
  | cons name rest => rw [insert_cons, FileTree.name]

@[simp] theorem isDirectory_insert (way : List String) (t : FileTree) : (t.insert way).isDirectory = t.isDirectory := by
  cases way with
  | nil => rw [insert]
  | cons name rest => rw [insert_cons, isDirectory]

section Upsert

variable {new : FileTree} {f : FileTree → FileTree}

theorem find?_upsert (hnew : new.name = name) (hf : ∀ t, (f t).name = t.name) (cs : List FileTree) (n : String) :
    (upsert name new f cs).find? (·.name == n) =
      if n = name then some (f ((cs.find? (·.name == name)).getD new)) else cs.find? (·.name == n) := by
  induction cs with
  | nil =>
    by_cases hn : n = name
    · simp [upsert, hf, hnew, hn]
    · simp [upsert, hf, hnew, hn, Ne.symm hn]
  | cons c cs ih =>
    rw [upsert]
    by_cases hc : c.name = name
    · by_cases hn : n = name
      · simp [hc, hf, hn]
      · have hne : ¬name = n := Ne.symm hn
        simp [hc, hf, hn, hne]
    · rw [if_neg (by simpa using hc)]
      by_cases hcn : c.name = n
      · have hn : ¬n = name := hcn ▸ hc
        simp [hcn, hn]
      · simp [hcn, ih, hc]

theorem map_name_upsert (hnew : new.name = name) (hf : ∀ t, (f t).name = t.name) (cs : List FileTree) :
    (upsert name new f cs).map FileTree.name =
      if name ∈ cs.map FileTree.name then cs.map FileTree.name else cs.map FileTree.name ++ [name] := by
  induction cs with
  | nil => simp [upsert, hf, hnew]
  | cons c cs ih =>
    rw [upsert]
    by_cases hc : c.name = name
    · simp [hc, hf]
    · have hne : ¬name = c.name := Ne.symm hc
      rw [if_neg (by simpa using hc), List.map_cons, ih]
      by_cases hmem : name ∈ cs.map FileTree.name
      · simp [hmem]
      · simp [hmem, hne]

theorem forall_mem_upsert {P : FileTree → Prop} (hcs : ∀ c ∈ cs, P c) (hf : ∀ c, P c → P (f c)) (hnew : P new) :
    ∀ c ∈ upsert name new f cs, P c := by
  induction cs with
  | nil => simpa [upsert] using hf new hnew
  | cons c cs ih =>
    obtain ⟨hc, hcs⟩ := List.forall_mem_cons.1 hcs
    rw [upsert]
    split
    · exact List.forall_mem_cons.2 ⟨hf c hc, hcs⟩
    · exact List.forall_mem_cons.2 ⟨hc, ih hcs⟩

end Upsert

/-! ### Different names -/

/-- Siblings have different names. -/
inductive Distinct : FileTree → Prop
  | node {name : String} {isDirectory : Bool} {cs : List FileTree} (hnames : (cs.map FileTree.name).Nodup)
      (hcs : ∀ c ∈ cs, Distinct c) : Distinct (node name isDirectory cs)

theorem Distinct.nodup_names (h : t.Distinct) : (t.children.map FileTree.name).Nodup := by
  obtain ⟨hnames, -⟩ := h
  exact hnames

theorem Distinct.of_mem_children (h : t.Distinct) (hc : c ∈ t.children) : c.Distinct := by
  obtain ⟨-, hcs⟩ := h
  exact hcs c hc

theorem distinct_leaf (name : String) (isDirectory : Bool) :
    Distinct (leaf name isDirectory) := ⟨List.nodup_nil, by simp⟩

theorem Distinct.insert (h : t.Distinct) (way : List String) : (t.insert way).Distinct := by
  induction way generalizing t with
  | nil => rwa [FileTree.insert]
  | cons name rest ih =>
    obtain ⟨hnames, hcs⟩ := h
    rw [insert_cons]
    refine ⟨?_, forall_mem_upsert hcs (fun _ => ih) (distinct_leaf _ _)⟩
    rw [map_name_upsert (name_leaf name _) (name_insert rest)]
    split
    · exact hnames
    · next hnew =>
      refine List.nodup_append.2 ⟨hnames, List.nodup_singleton _, fun a ha b hb heq => hnew ?_⟩
      rwa [← List.mem_singleton.1 hb, ← heq]

theorem Distinct.foldl_insert (h : t.Distinct) (ways : List (List String)) :
    (ways.foldl (fun t way => t.insert way) t).Distinct := by
  induction ways generalizing t with
  | nil => exact h
  | cons way ways ih => exact ih (h.insert way)

theorem find?_eq_some_of_nodup (h : (cs.map FileTree.name).Nodup) :
    cs.find? (·.name == n) = some c ↔ c ∈ cs ∧ c.name = n := by
  constructor
  · intro hfind
    exact ⟨List.mem_of_find?_eq_some hfind, by simpa using List.find?_some hfind⟩
  · rintro ⟨hc, rfl⟩
    induction cs with
    | nil => cases hc
    | cons d cs ih =>
      obtain ⟨hd, hcs⟩ := List.nodup_cons.1 (List.map_cons ▸ h)
      rcases List.mem_cons.1 hc with rfl | hlater
      · simp
      · have hne : ¬d.name = c.name := fun heq => hd (heq ▸ List.mem_map_of_mem hlater)
        simp [hne, ih hcs hlater]

/-! ### What a list of names leads to -/

/-- Whether a list of names leads to a node, and whether it is a directory. -/
def kind? (t : FileTree) (path : List String) : Option Bool := (t.get? path).map isDirectory

@[simp] theorem kind?_nil (t : FileTree) : t.kind? [] = some t.isDirectory := by rw [kind?, get?, Option.map_some]

theorem kind?_cons (t : FileTree) (name : String) (rest : List String) :
    t.kind? (name :: rest) = (t.child? name).bind (·.kind? rest) := by
  rw [kind?, get?]
  cases t.child? name <;> rfl

theorem kind?_leaf (name : String) (isDirectory : Bool) (p : List String) :
    (leaf name isDirectory).kind? p = if p = [] then some isDirectory else none := by
  cases p with
  | nil => rw [kind?_nil, if_pos rfl, isDirectory_leaf]
  | cons n rest => rw [kind?_cons, child?, leaf, children, List.find?_nil, Option.bind_none,
      if_neg (List.cons_ne_nil _ _)]

/-- What a way through a list of names says of the node there. -/
def said? (path way : List String) : Option Bool := if path <+: way then some (decide (path ≠ way)) else none

theorem isPrefix_of_said? {path way : List String} (h : said? path way = some b) : path <+: way := by
  by_contra hnot
  rw [said?, if_neg hnot] at h
  cases h

-- Nodes that are there stay as they are, and the others become what the way says.
theorem kind?_insert (way : List String) (t : FileTree) (p : List String) :
    (t.insert way).kind? p = (t.kind? p).or (said? p way) := by
  induction way generalizing t p with
  | nil =>
    rw [insert, said?]
    cases p with
    | nil => rw [kind?_nil, Option.some_or]
    | cons n p => simp
  | cons name rest ih =>
    cases p with
    | nil => rw [kind?_nil, kind?_nil, isDirectory_insert, Option.some_or]
    | cons n p =>
      have hchild : (t.insert (name :: rest)).child? n =
          if n = name then some (insert rest ((t.child? name).getD (leaf name (decide (rest ≠ [])))))
            else t.child? n := by
        rw [insert_cons]
        exact find?_upsert (name_leaf name _) (name_insert rest) t.children n
      rw [kind?_cons, kind?_cons, hchild]
      by_cases hn : n = name
      · subst hn
        rw [if_pos rfl, Option.bind_some, ih]
        have hsaid : said? (n :: p) (n :: rest) = said? p rest := by simp [said?]
        rw [hsaid]
        cases hc : t.child? n with
        | some c => rfl
        | none =>
          rw [Option.getD_none, kind?_leaf, Option.bind_none, Option.none_or]
          cases p with
          | nil => simp [said?, eq_comm]
          | cons m p => rw [if_neg (List.cons_ne_nil _ _), Option.none_or]
      · have hsaid : said? (n :: p) (name :: rest) = none := by simp [said?, hn]
        rw [if_neg hn, hsaid, Option.or_none]

/-- The first way through a node decides what it is. -/
theorem kind?_foldl_insert (ways : List (List String)) (t : FileTree) (p : List String) :
    (ways.foldl (fun t way => t.insert way) t).kind? p = (t.kind? p).or (ways.findSome? (said? p)) := by
  induction ways generalizing t with
  | nil => rw [List.foldl_nil, List.findSome?_nil, Option.or_none]
  | cons way ways ih =>
    rw [List.foldl_cons, ih, kind?_insert, Option.or_assoc, List.findSome?_cons]
    cases said? p way <;> rfl

/-! ### All nodes -/

/-- All nodes with the names that lead to them, and whether they are directories. -/
def places : FileTree → List (List String × Bool)
  | node _ isDirectory cs => ([], isDirectory) :: below cs
where
  /-- The places below a node, from the nodes there. -/
  below : List FileTree → List (List String × Bool)
    | [] => []
    | c :: cs => c.places.map (Prod.map (c.name :: ·) id) ++ below cs

theorem places_eq (t : FileTree) :
    t.places = ([], t.isDirectory) :: t.children.flatMap fun c => c.places.map (Prod.map (c.name :: ·) id) := by
  have hbelow : ∀ cs, places.below cs = cs.flatMap fun c => c.places.map (Prod.map (c.name :: ·) id) := by
    intro cs
    induction cs with
    | nil => rfl
    | cons c cs ih => rw [places.below, ih, List.flatMap_cons]
  cases t with
  | node n d cs => rw [places, hbelow, isDirectory, children]

theorem mem_places (h : t.Distinct) : (p, b) ∈ t.places ↔ t.kind? p = some b := by
  induction t using forall_of_children generalizing p b with
  | h name isDirectory cs ih =>
    obtain ⟨hnames, hcs⟩ := h
    rw [places_eq]
    cases p with
    | nil =>
      rw [kind?_nil, Option.some.injEq, FileTree.isDirectory]
      simp [eq_comm (a := b)]
    | cons n rest =>
      have hchild : ∀ c, (node name isDirectory cs).child? n = some c ↔ c ∈ cs ∧ c.name = n :=
        fun c => find?_eq_some_of_nodup hnames
      simp only [kind?_cons, Option.bind_eq_some_iff, hchild, children, List.mem_cons, List.mem_flatMap, List.mem_map,
        Prod.exists, Prod.map_apply, Prod.mk.injEq, id_eq, List.cons_ne_nil, List.cons.injEq, false_and, false_or]
      constructor
      · rintro ⟨c, hc, q, b, hmem, ⟨hname, rfl⟩, rfl⟩
        exact ⟨c, ⟨hc, hname⟩, (ih c hc (hcs c hc)).1 hmem⟩
      · rintro ⟨c, ⟨hc, hname⟩, hkind⟩
        exact ⟨c, hc, rest, b, (ih c hc (hcs c hc)).2 hkind, ⟨hname, rfl⟩, rfl⟩

theorem nodup_places (h : t.Distinct) : (t.places.map Prod.fst).Nodup := by
  induction t using forall_of_children with
  | h name isDirectory cs ih =>
    obtain ⟨hnames, hcs⟩ := h
    have hpaths : (node name isDirectory cs).places.map Prod.fst =
        [] :: cs.flatMap fun c => (c.places.map Prod.fst).map (c.name :: ·) := by
      rw [places_eq, List.map_cons, List.map_flatMap]
      simp [children, Function.comp_def]
    rw [hpaths, List.nodup_cons, List.nodup_flatMap]
    refine ⟨by simp, fun c hc => (ih c hc (hcs c hc)).map (List.cons_injective), ?_⟩
    rw [List.Nodup, List.pairwise_map] at hnames
    refine hnames.imp fun {c d} hne => ?_
    intro q hq hq'
    obtain ⟨x, -, rfl⟩ := List.mem_map.1 hq
    obtain ⟨y, -, heq⟩ := List.mem_map.1 hq'
    exact hne (List.cons.inj heq).1.symm

end CodeAtlas.FileTree

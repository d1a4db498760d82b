import CodeAtlas.Proofs.Descent

/-!
# Normal paths

Normalization works on a stack of components.  Whatever is pushed, the stack holds names with two dots at its bottom
at most, and the components of such a stack are pushed back as they are.  A path is normal after one normalization, and
its last component stays the last one if it is a name.

## Main definitions

* `Path.Settled` — a stack of components that normalization leaves alone

## Main results

* `Path.normalize_normalize` — a path is normal after one normalization
* `Path.components_eq_directory` — the components of a path are those of its directory, and the last one
* `Path.normalize_eq_joined_iff` — which paths have a given normal form
-/

namespace CodeAtlas.Path

/-! ### The stack of components -/

/-- A stack that normalization leaves alone: names, and below them two dots any number of times if there is no root. -/
inductive Settled (rooted : Bool) : List String → Prop
  | nil : Settled rooted []
  | up {stack : List String} (hrooted : rooted = false) (h : Settled rooted stack) (hall : ∀ c ∈ stack, c = "..") :
      Settled rooted (".." :: stack)
  | name {stack : List String} {c : String} (hc : IsName c) (h : Settled rooted stack) : Settled rooted (c :: stack)

variable {rooted : Bool} {stack cs : List String} {p : String}

theorem pushComponent_plain {c : String} (h : c = "" ∨ c = ".") : pushComponent rooted stack c = stack := by
  unfold pushComponent
  rw [if_pos (by simpa using h)]

theorem pushComponent_up_nil : pushComponent rooted [] ".." = if rooted then [] else [".."] := by
  cases rooted <;> decide

theorem pushComponent_up_cons (top : String) :
    pushComponent rooted (top :: stack) ".." = if top = ".." then ".." :: top :: stack else stack := by
  simp [pushComponent]

theorem Settled.push (h : Settled rooted stack) (c : String) : Settled rooted (pushComponent rooted stack c) := by
  by_cases hplain : c = "" ∨ c = "."
  · rw [pushComponent_plain hplain]
    exact h
  by_cases hup : c = ".."
  · subst hup
    cases h with
    | nil =>
      rw [pushComponent_up_nil]
      cases rooted with
      | false => exact .up rfl .nil (by simp)
      | true => exact .nil
    | up hrooted h hall =>
      rw [pushComponent_up_cons, if_pos rfl]
      exact .up hrooted (.up hrooted h hall) (by simpa using hall)
    | name hc h =>
      rw [pushComponent_up_cons, if_neg hc.2.2]
      exact h
  · have hname : IsName c := ⟨fun h => hplain (Or.inl h), fun h => hplain (Or.inr h), hup⟩
    rw [pushComponent_of_isName hname]
    exact .name hname h

theorem Settled.foldl (h : Settled rooted stack) (cs : List String) :
    Settled rooted (cs.foldl (pushComponent rooted) stack) := by
  induction cs generalizing stack with
  | nil => exact h
  | cons c cs ih => exact ih (h.push c)

/-- What is settled is pushed back as it is. -/
theorem Settled.foldl_reverse (h : Settled rooted stack) : stack.reverse.foldl (pushComponent rooted) [] = stack := by
  induction h with
  | nil => rfl
  | @up stack hrooted h hall ih =>
    rw [List.reverse_cons, List.foldl_append, ih]
    show pushComponent rooted stack ".." = ".." :: stack
    cases stack with
    | nil => rw [pushComponent_up_nil, hrooted, if_neg (by decide)]
    | cons top rest => rw [pushComponent_up_cons, if_pos (hall top List.mem_cons_self)]
  | @name stack c hc h ih =>
    rw [List.reverse_cons, List.foldl_append, ih]
    exact pushComponent_of_isName hc rooted stack

theorem normalComponents_normalComponents (rooted : Bool) (cs : List String) :
    normalComponents rooted (normalComponents rooted cs) = normalComponents rooted cs := by
  have hsettled : Settled rooted (cs.foldl (pushComponent rooted) []) := Settled.nil.foldl cs
  rw [normalComponents, normalComponents, hsettled.foldl_reverse]

/-- Names are normal. -/
theorem normalComponents_of_names (rooted : Bool) (h : ∀ c ∈ cs, IsName c) : normalComponents rooted cs = cs := by
  have hsettled : ∀ stack : List String, (∀ c ∈ stack, IsName c) → Settled rooted stack := by
    intro stack hstack
    induction stack with
    | nil => exact .nil
    | cons c stack ih =>
      obtain ⟨hc, hlater⟩ := List.forall_mem_cons.1 hstack
      exact .name hc (ih hlater)
  have hkept := (hsettled cs.reverse (by simpa using h)).foldl_reverse
  rw [List.reverse_reverse] at hkept
  rw [normalComponents, hkept, List.reverse_reverse]

theorem mem_pushComponent {x c : String} (h : x ∈ pushComponent rooted stack c) : x ∈ stack ∨ x = c ∧ c ≠ "" := by
  by_cases hplain : c = "" ∨ c = "."
  · rw [pushComponent_plain hplain] at h
    exact Or.inl h
  have hne : c ≠ "" := fun hc => hplain (Or.inl hc)
  by_cases hup : c = ".."
  · subst hup
    cases stack with
    | nil =>
      rw [pushComponent_up_nil] at h
      cases rooted <;> simp_all
    | cons top rest =>
      rw [pushComponent_up_cons] at h
      split at h
      · exact (List.mem_cons.1 h).elim (fun hx => Or.inr ⟨hx, hne⟩) Or.inl
      · exact Or.inl (List.mem_cons_of_mem _ h)
  · rw [pushComponent_of_isName ⟨hne, fun hc => hplain (Or.inr hc), hup⟩] at h
    exact (List.mem_cons.1 h).elim (fun hx => Or.inr ⟨hx, hne⟩) Or.inl

theorem mem_normalComponents {x : String} (h : x ∈ normalComponents rooted cs) : x ≠ "" ∧ x ∈ cs := by
  have hrun : ∀ stack, x ∈ cs.foldl (pushComponent rooted) stack → x ∈ stack ∨ x ≠ "" ∧ x ∈ cs := by
    clear h
    induction cs with
    | nil => exact fun stack hx => Or.inl hx
    | cons c cs ih =>
      intro stack hx
      rcases ih _ hx with hpushed | ⟨hne, hlater⟩
      · rcases mem_pushComponent hpushed with hold | ⟨rfl, hne⟩
        · exact Or.inl hold
        · exact Or.inr ⟨hne, List.mem_cons_self⟩
      · exact Or.inr ⟨hne, List.mem_cons_of_mem _ hlater⟩
  exact (hrun [] (List.mem_reverse.1 h)).resolve_left List.not_mem_nil

/-- Empty components do not count. -/
theorem normalComponents_components (rooted : Bool) (p : String) :
    normalComponents rooted (components p) = normalComponents rooted (Text.fields '/' p) := by
  have hrun : ∀ (cs stack : List String), (cs.filter fun c => !c.isEmpty).foldl (pushComponent rooted) stack =
      cs.foldl (pushComponent rooted) stack := by
    intro cs
    induction cs with
    | nil => exact fun _ => rfl
    | cons c cs ih =>
      intro stack
      by_cases hc : c = ""
      · subst hc
        exact ih stack
      · rw [List.filter_cons_of_pos (by simpa using hc)]
        exact ih _
  rw [normalComponents, components, hrun, normalComponents]

/-! ### The parts of a normal path -/

/-- The root and the components of a path after normalization. -/
def normalParts (p : String) : Pure := ⟨rootOf p, normalComponents (rootOf p != "") (Text.fields '/' p)⟩

theorem normalize_eq_toString (p : String) : normalize p = (normalParts p).toString := rfl

theorem spelled_normalParts (p : String) : (normalParts p).Spelled :=
  ⟨rootOf_cases p, fun _ hc => ⟨(mem_normalComponents hc).1, Text.not_mem_of_mem_fields (mem_normalComponents hc).2⟩⟩

/-- A path that is written starts with the slashes of its root. -/
theorem Pure.rootOf_toString {p : Pure} (h : p.Spelled) : rootOf p.toString = p.root := by
  have hjoined : (Text.joined "/" p.parts).toList.takeWhile (· == '/') = [] := by
    cases hparts : p.parts with
    | nil => rfl
    | cons c rest =>
      have hc := h.parts c (by simp [hparts])
      obtain ⟨a, as, ha⟩ := List.exists_cons_of_ne_nil (show c.toList ≠ [] by simpa using hc.1)
      have hslash : a ≠ '/' := fun heq => hc.2 (by simp [ha, heq])
      rw [Text.joined]
      cases rest <;> simp [String.intercalate_cons_cons, ha, hslash]
  rw [toString]
  rcases h.root with hroot | hroot | hroot <;> rw [hroot]
  · split
    · decide
    · rw [rootOf, String.empty_append, hjoined]
  all_goals
    rw [if_neg (by simp), rootOf, String.toList_append, List.takeWhile_append_of_pos (by simp), hjoined]
    rfl

/-- A written path has the components that it was written with; without components it is a dot or the root. -/
theorem Pure.fields_toString {p : Pure} (h : p.Spelled) (rooted : Bool) :
    normalComponents rooted (Text.fields '/' p.toString) = normalComponents rooted p.parts := by
  by_cases hparts : p.parts = []
  · have htext : p.toString = "." ∨ p.toString = "/" ∨ p.toString = "//" := by
      rw [toString, hparts]
      rcases h.root with hroot | hroot | hroot <;> rw [hroot] <;> decide
    rw [hparts]
    rcases htext with htext | htext | htext <;> rw [htext] <;> cases rooted <;> decide
  · rw [← normalComponents_components, components_toString h hparts]

theorem normalParts_toString {q : Pure} (h : q.Spelled) :
    normalParts q.toString = ⟨q.root, normalComponents (q.root != "") q.parts⟩ := by
  rw [normalParts, Pure.rootOf_toString h, Pure.fields_toString h]

/-- A path is normal after one normalization. -/
theorem normalize_normalize (p : String) : normalize (normalize p) = normalize p := by
  have hparts : normalParts (normalize p) = normalParts p := by
    rw [normalize_eq_toString p, normalParts_toString (spelled_normalParts p), normalParts,
      normalComponents_normalComponents]
  rw [normalize_eq_toString (normalize p), hparts, normalize_eq_toString p]

/-- The paths with a given normal form that has components but no root. -/
theorem normalize_eq_joined_iff (hcs : cs ≠ []) (hnames : ∀ c ∈ cs, IsName c ∧ '/' ∉ c.toList) :
    normalize p = Text.joined "/" cs ↔ normalParts p = ⟨"", cs⟩ := by
  have hspelled : Pure.Spelled ⟨"", cs⟩ := ⟨Or.inl rfl, fun c hc => ⟨(hnames c hc).1.1, (hnames c hc).2⟩⟩
  have htext : Pure.toString ⟨"", cs⟩ = Text.joined "/" cs := by
    rw [Pure.toString_of_parts hspelled hcs, String.empty_append]
  refine ⟨fun h => ?_, fun h => by rw [normalize_eq_toString, h, htext]⟩
  -- both sides are read again, which changes neither
  have hread : normalParts (normalize p) = normalParts (Pure.toString ⟨"", cs⟩) := by rw [h, htext]
  rw [normalize_eq_toString, normalParts_toString (spelled_normalParts p), normalParts_toString hspelled] at hread
  rw [normalParts] at hread ⊢
  rw [normalComponents_normalComponents] at hread
  rw [hread]
  exact congrArg _ (normalComponents_of_names false fun c hc => (hnames c hc).1)

/-! ### The directory of a path -/

/-- A path is its directory, some slashes, and its last component.  There are none in between only if the directory
has nothing but slashes; otherwise it does not end with one. -/
theorem exists_eq_directory_append (p : String) :
    ∃ k, p.toList = (directory p).toList ++ List.replicate k '/' ++ (baseName p).toList ∧
      (k = 0 ∧ (∀ c ∈ (directory p).toList, c = '/') ∨
        0 < k ∧ directory p ≠ "" ∧ (directory p).toList.getLast? ≠ some '/') := by
  have hsplit : p.toList = (splitLast p).1 ++ (splitLast p).2 := by
    have hboth := List.takeWhile_append_dropWhile (p := (· != '/')) (l := p.toList.reverse)
    have hreverse := congrArg List.reverse hboth
    rw [List.reverse_append, List.reverse_reverse] at hreverse
    exact hreverse.symm
  rw [baseName, String.toList_ofList, directory]
  by_cases hall : (splitLast p).1.all (· == '/') = true
  · rw [if_pos hall, String.toList_ofList]
    refine ⟨0, by simpa using hsplit, Or.inl ⟨rfl, ?_⟩⟩
    simpa using hall
  · -- the slashes at the end of the first part are left out
    have hends : (splitLast p).1 = ((splitLast p).1.reverse.dropWhile (· == '/')).reverse ++
        ((splitLast p).1.reverse.takeWhile (· == '/')).reverse := by
      rw [← List.reverse_append, List.takeWhile_append_dropWhile, List.reverse_reverse]
    have hslashes : ((splitLast p).1.reverse.takeWhile (· == '/')).reverse =
        List.replicate ((splitLast p).1.reverse.takeWhile (· == '/')).length '/' := by
      rw [List.eq_replicate_iff, List.length_reverse]
      refine ⟨rfl, fun c hc => ?_⟩
      simpa using List.mem_takeWhile_imp (List.mem_reverse.1 hc)
    rw [if_neg hall]
    refine ⟨((splitLast p).1.reverse.takeWhile (· == '/')).length, ?_, Or.inr ⟨?_, ?_, ?_⟩⟩
    · rw [String.toList_ofList, ← hslashes, ← hends]
      exact hsplit
    · -- the first part ends with the slash at which the path is cut
      have hne : (splitLast p).1 ≠ [] := by
        rintro hnil
        simp [hnil] at hall
      have hhead : (splitLast p).1.reverse.head? = some '/' := by
        have hrest : (splitLast p).1.reverse = p.toList.reverse.dropWhile (· != '/') := by simp [splitLast]
        obtain ⟨c, rest, hcons⟩ := List.exists_cons_of_ne_nil (show (splitLast p).1.reverse ≠ [] by simpa using hne)
        have hc := List.head?_dropWhile_not (· != '/') p.toList.reverse
        rw [← hrest, hcons] at hc
        rw [hcons]
        simpa using hc
      obtain ⟨rest, hcons⟩ := List.head?_eq_some_iff.1 hhead
      simp [hcons]
    · intro hempty
      have hnil : (splitLast p).1.reverse.dropWhile (· == '/') = [] := by simpa using hempty
      exact hall (by simpa using List.dropWhile_eq_nil_iff.1 hnil)
    · rw [String.toList_ofList, List.getLast?_reverse]
      intro hhead
      have hnot := List.head?_dropWhile_not (· == '/') (splitLast p).1.reverse
      rw [hhead] at hnot
      simp at hnot

theorem eq_directory_append {k : Nat}
    (h : p.toList = (directory p).toList ++ List.replicate k '/' ++ (baseName p).toList) :
    p = directory p ++ (String.ofList (List.replicate k '/') ++ baseName p) := by
  rw [← String.toList_inj, h]
  simp

theorem components_replicate_slash (k : Nat) (s : String) :
    components (String.ofList (List.replicate k '/') ++ s) = components s := by
  induction k with
  | zero => simp
  | succ k ih =>
    have hcons : String.ofList (List.replicate (k + 1) '/') = "/" ++ String.ofList (List.replicate k '/') := by
      rw [← String.toList_inj]
      simp [List.replicate_succ]
    rw [hcons, String.append_assoc, components_slash_append, ih]

/-- The components of a path are those of its directory, and the last one unless it is empty. -/
theorem components_eq_directory (p : String) : components p = components (directory p) ++ components (baseName p) := by
  obtain ⟨k, hlist, hends⟩ := exists_eq_directory_append p
  rcases hends with ⟨-, hall⟩ | ⟨hk, -⟩
  · -- there are slashes only before the last component
    have hdirectory : directory p = String.ofList (List.replicate (directory p).toList.length '/') ++ "" := by
      rw [← String.toList_inj, String.append_empty, String.toList_ofList]
      exact List.eq_replicate_iff.2 ⟨rfl, hall⟩
    have hnone : components (directory p) = [] := by
      rw [hdirectory, components_replicate_slash]
      decide
    rw [hnone, List.nil_append]
    conv_lhs => rw [eq_directory_append hlist, hdirectory, String.append_empty, components_replicate_slash,
      components_replicate_slash]
  · obtain ⟨j, rfl⟩ := Nat.exists_eq_add_one.2 hk
    have hcut : p = directory p ++ '/'.toString ++ (String.ofList (List.replicate j '/') ++ baseName p) := by
      rw [← String.toList_inj, hlist]
      simp [List.replicate_succ]
    conv_lhs => rw [hcut, components, Text.fields_append_separator, List.filter_append, ← components, ← components,
      components_replicate_slash]

/-- A path starts with as many slashes as its directory. -/
theorem rootOf_directory (p : String) : rootOf (directory p) = rootOf p := by
  obtain ⟨k, hlist, hends⟩ := exists_eq_directory_append p
  rcases hends with ⟨rfl, hall⟩ | ⟨-, hne, hlast⟩
  · have hbase : (baseName p).toList.takeWhile (· == '/') = [] := by
      cases hname : (baseName p).toList with
      | nil => rfl
      | cons c rest =>
        have hc : c ≠ '/' := fun heq => not_mem_baseName p (by simp [hname, heq])
        simp [hc]
    have hsame : p.toList.takeWhile (· == '/') = (directory p).toList.takeWhile (· == '/') := by
      have hslashes : ∀ c ∈ (directory p).toList, (c == '/') = true := fun c hc => by simp [hall c hc]
      rw [hlist, List.replicate_zero, List.append_nil, List.takeWhile_append_of_pos hslashes, hbase, List.append_nil,
        List.takeWhile_eq_self_iff.2 hslashes]
    rw [rootOf, rootOf, hsame]
  · have hmore : ¬∀ c ∈ (directory p).toList, (c == '/') = true := by
      intro hall
      obtain ⟨front, last, hend⟩ := List.eq_nil_or_concat (directory p).toList |>.resolve_left (by simpa using hne)
      have : last = '/' := by simpa using hall last (by simp [hend])
      exact hlast (by simp [hend, this])
    conv_rhs => rw [eq_directory_append hlist, rootOf_append hmore]

end CodeAtlas.Path

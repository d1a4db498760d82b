import CodeAtlas.Proofs.Disk.Outside

/-!
# Names on a disk

The names on a disk have no slashes, and no change brings one in: a new name is a component of the path by which it
was made.
-/

namespace CodeAtlas

namespace Tree

/-- All names at and below the entries of a tree. -/
def names : Tree → List String
  | file _ _ => []
  | directory es => below es
where
  /-- The names of entries and those below them. -/
  below : List (String × Tree) → List String
    | [] => []
    | (name, t) :: rest => name :: (t.names ++ below rest)

theorem names_of_lookup {es : List (String × Tree)} {name : String} {t : Tree} (h : es.lookup name = some t) :
    name ∈ names.below es ∧ ∀ n ∈ t.names, n ∈ names.below es := by
  induction es with
  | nil => cases h
  | cons e es ih =>
    obtain ⟨m, v⟩ := e
    rw [lookup_cons_eq] at h
    by_cases heq : name = m
    · rw [if_pos heq] at h
      cases h
      exact ⟨by simp [names.below, heq], fun n hn => by simp [names.below, hn]⟩
    · rw [if_neg heq] at h
      exact ⟨by simp [names.below, (ih h).1], fun n hn => by simp [names.below, (ih h).2 n hn]⟩

theorem mem_names_of_get? {q : List String} {u t : Tree} (h : u.get? q = some t) : ∀ name ∈ q, name ∈ u.names := by
  induction q generalizing u with
  | nil => simp
  | cons first rest ih =>
    rw [get?_cons] at h
    obtain ⟨v, hchild, hrest⟩ := Option.bind_eq_some_iff.1 h
    cases u with
    | file c m => cases hchild
    | directory es =>
      obtain ⟨hfirst, hbelow⟩ := names_of_lookup hchild
      intro name hname
      rcases List.mem_cons.1 hname with rfl | hname
      · exact hfirst
      · exact hbelow name (ih hrest name hname)

end Tree

namespace Disk

variable {d d' : Disk} {p : String}

/-- No name on a disk has a slash. -/
def Named (d : Disk) : Prop := ∀ front name t, d.root.get? (front ++ [name]) = some t → '/' ∉ name.toList

theorem named_of_names (h : ∀ name ∈ d.root.names, '/' ∉ name.toList) : d.Named := by
  intro front name t hget
  exact h name (Tree.mem_names_of_get? hget name (by simp))

/-- The name that is missing where steps end is one of the steps. -/
theorem Leads.mem_of_absent {root : Tree} {path cs parent : List String} {name : String}
    (h : Leads root path cs (.absent parent name)) : name ∈ cs := by
  generalize hplace : Place.absent parent name = place at h
  induction h with
  | arrive => cases hplace
  | stay _ _ _ ih => exact List.mem_cons_of_mem _ (ih hplace)
  | up _ _ ih => exact List.mem_cons_of_mem _ (ih hplace)
  | down _ _ _ _ ih => exact List.mem_cons_of_mem _ (ih hplace)
  | stop =>
    cases hplace
    exact List.mem_cons_self

theorem not_mem_of_mem_steps {name : String} (h : name ∈ steps p) : '/' ∉ name.toList := by
  have hcomponent : ∀ c ∈ Path.components p, '/' ∉ c.toList := fun c hc =>
    Text.not_mem_of_mem_fields (List.mem_of_mem_filter hc)
  rw [steps] at h
  split at h
  · rcases List.mem_append.1 h with h | h
    · exact hcomponent name h
    · rw [List.mem_singleton.1 h]
      decide
  · exact hcomponent name h

namespace Named

/-- Whatever is new has a name without a slash. -/
theorem of_new (h : d.Named) (hnew : ∀ front name t, d'.root.get? (front ++ [name]) = some t →
    (d.root.get? (front ++ [name])).isSome ∨ '/' ∉ name.toList) : d'.Named := by
  intro front name t hget
  rcases hnew front name t hget with hold | hname
  · obtain ⟨t', ht'⟩ := Option.isSome_iff_exists.1 hold
    exact h front name t' ht'
  · exact hname

/-- Changes at places where files are now. -/
theorem of_alikeOutside {places : List String → Prop} (h : d.Named) (halike : AlikeOutside places d d')
    (hfile : ∀ q, places q → ∃ p content time, d'.locate p = .ok (.found q (.file content time))) : d'.Named := by
  refine h.of_new fun front name t hget => ?_
  by_cases hplace : places (front ++ [name])
  · right
    obtain ⟨p, content, time, hlocate⟩ := hfile _ hplace
    obtain ⟨front', hq⟩ := (baseName_of_locate hlocate).2
    rw [(List.cons.inj (List.append_inj' hq rfl).2).1]
    exact Path.not_mem_baseName p
  · left
    rw [← (halike.like front name hplace).isSome_eq, hget]
    rfl

theorem writeContent (h : d.Named) {content : Content} {time : Int} (hwrite : d.writeContent p content time = .ok d') :
    d'.Named := by
  obtain ⟨-, q, hlocate, -⟩ := writeContent_kept hwrite
  refine h.of_alikeOutside (.of_write hwrite) fun q' hq' => ?_
  obtain ⟨t, ht⟩ := hq'
  cases hlocate.symm.trans ht
  exact ⟨p, content, time, hlocate⟩

theorem makeDirectory (h : d.Named) (hmake : d.makeDirectory p = .ok d') : d'.Named := by
  rw [Disk.makeDirectory] at hmake
  obtain ⟨place, hlocate, hplace⟩ := exists_of_bind_eq_ok hmake
  cases place with
  | found => cases hplace
  | absent parent new =>
    cases hplace
    obtain ⟨start, -, hleads⟩ := locate_eq_ok.1 hlocate
    refine h.of_new fun front name t hget => ?_
    rw [putAt] at hget
    by_cases hbelow : parent ++ [new] <+: front ++ [name]
    · -- the new directory is empty, so that it is the place itself
      obtain ⟨rest, hrest⟩ := hbelow
      rw [← hrest, Tree.get?_put_append] at hget
      have hnil : rest = [] := by
        by_contra hne
        rw [Tree.get?_empty_of_ne_nil hne] at hget
        cases hget
      rw [hnil, List.append_nil] at hrest
      rw [← (List.cons.inj (List.append_inj' hrest rfl).2).1]
      exact Or.inr (not_mem_of_mem_steps hleads.mem_of_absent)
    · left
      by_cases habove : front ++ [name] <+: parent ++ [new]
      · obtain ⟨rest, hrest⟩ := habove
        have hne : rest ≠ [] := by
          rintro rfl
          rw [List.append_nil] at hrest
          exact hbelow (hrest ▸ List.prefix_rfl)
        obtain ⟨es, hes⟩ := hleads.directory_above _ rest hrest.symm hne
        rw [hes]
        rfl
      · rw [Tree.get?_put_elsewhere _ _ hbelow habove] at hget
        rw [hget]
        rfl

theorem withDirectories (h : d.Named) (p : String) : (d.withDirectories p).1.Named :=
  withDirectories_induction (R := fun d d' => d.Named → d'.Named) (fun _ hd => hd) (fun h₁ h₂ hd => h₂ (h₁ hd))
    (fun hmake hd => hd.makeDirectory hmake) d p h

end Named

end Disk

end CodeAtlas

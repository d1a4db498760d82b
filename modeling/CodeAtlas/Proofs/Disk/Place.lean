import CodeAtlas.Proofs.Descent
import CodeAtlas.Proofs.Disk.Change
import CodeAtlas.Proofs.Listing

/-!
# Paths that lead to the same place

Where a path leads can be read off its spelling as seen from the root: on a disk without links, following a path and
normalizing it are the same.  So paths that look the same from a directory lead to the same place.
-/

namespace CodeAtlas.Disk

open CodeAtlas.Path (IsName descend)

variable {d : Disk} {p : String} {place : Place}

/-! ### Following and normalizing -/

/-- A stack of names from the root on is the place that was reached, the last name on top. -/
theorem reverse_pushComponent {stack : List String} (hstack : ∀ c ∈ stack, IsName c) (c : String) :
    (Path.pushComponent true stack c).reverse = resolveStep stack.reverse c := by
  unfold Path.pushComponent
  rw [resolveStep]
  by_cases hstay : c = "" ∨ c = "."
  · simp [hstay]
  · by_cases hup : c = ".."
    · subst hup
      cases stack with
      | nil => simp
      | cons top rest =>
        have htop : top ≠ ".." := (hstack top List.mem_cons_self).2.2
        simp [htop]
    · simp [hstay, hup]

theorem reverse_foldl_pushComponent (cs : List String) {stack : List String} (hstack : ∀ c ∈ stack, IsName c) :
    (cs.foldl (Path.pushComponent true) stack).reverse = resolve stack.reverse cs := by
  induction cs generalizing stack with
  | nil => rfl
  | cons c cs ih =>
    have hnext : ∀ x ∈ Path.pushComponent true stack c, IsName x := fun x hx =>
      (Path.isName_of_mem_pushComponent hstack c x hx).1
    rw [List.foldl_cons, ih hnext, reverse_pushComponent hstack]
    rfl

/-- Following steps from the root is normalizing them. -/
theorem resolve_nil_eq (cs : List String) : resolve [] cs = Path.normalComponents true cs :=
  (reverse_foldl_pushComponent cs (List.forall_mem_nil IsName)).symm

theorem resolve_append (path cs cs' : List String) : resolve path (cs ++ cs') = resolve (resolve path cs) cs' :=
  List.foldl_append

theorem resolve_of_isName {path cs : List String} (h : ∀ c ∈ cs, IsName c) : resolve path cs = path ++ cs := by
  induction cs generalizing path with
  | nil => simp [resolve]
  | cons c cs ih =>
    have hc := h c List.mem_cons_self
    have hstep : resolveStep path c = path ++ [c] := by
      rw [resolveStep, if_neg (not_or.2 ⟨hc.1, hc.2.1⟩), if_neg hc.2.2]
    show resolve (resolveStep path c) cs = _
    rw [hstep, ih fun x hx => h x (List.mem_cons_of_mem _ hx), List.append_assoc, List.singleton_append]

/-- Empty components lead nowhere. -/
theorem resolve_filter (path cs : List String) : resolve path (cs.filter (!·.isEmpty)) = resolve path cs := by
  induction cs generalizing path with
  | nil => rfl
  | cons c cs ih =>
    rw [List.filter_cons]
    by_cases hc : c = ""
    · subst hc
      exact ih path
    · rw [if_pos (by simpa using hc)]
      exact ih _

theorem resolve_components (path : List String) (p : String) :
    resolve path (Path.components p) = resolve path (Text.fields '/' p) := resolve_filter path _

/-- The current directory, if there is one, is given by names. -/
def NamedHere (d : Disk) : Prop := ∀ here, d.here = some here → ∀ name ∈ here, IsName name ∧ '/' ∉ name.toList

theorem isAbsolute_join {a b : String} (ha : Path.isAbsolute a = true) : Path.isAbsolute (Path.join a b) = true := by
  rw [Path.join]
  split
  · assumption
  · split
    · exact isAbsolute_append ha b
    · exact isAbsolute_append (isAbsolute_append ha "/") b

theorem herePath_eq {here : List String} (hd : d.NamedHere) (hhere : d.here = some here) :
    d.herePath = .ok (descend "/" here) := by
  have hfold : ∀ {names : List String} {s : String}, (∀ c ∈ names, IsName c ∧ '/' ∉ c.toList) → s ≠ "" →
      s.toList.getLast? ≠ some '/' → names.foldl (· ++ "/" ++ ·) s = descend s names := by
    intro names
    induction names with
    | nil => exact fun _ _ _ => rfl
    | cons n names ih =>
      intro s hnames hs hlast
      obtain ⟨hname, hslash⟩ := hnames n List.mem_cons_self
      have hjoin := Path.join_eq (Path.not_isAbsolute_of_not_mem hslash) hs hlast
      rw [List.foldl_cons, Path.descend_cons, hjoin]
      refine ih (fun c hc => hnames c (List.mem_cons_of_mem _ hc)) (by simp [hs]) fun hend => ?_
      rw [String.toList_append, List.getLast?_append_of_ne_nil _ (by simpa using hname.1)] at hend
      exact hslash (List.mem_of_getLast? hend)
  have hnames := hd here hhere
  rw [herePath, hhere]
  cases here with
  | nil => rfl
  | cons n names =>
    obtain ⟨hname, hslash⟩ := hnames n List.mem_cons_self
    have hjoin : Path.join "/" n = "/" ++ n := by
      rw [Path.join, if_neg (Path.not_isAbsolute_of_not_mem hslash)]
      rfl
    rw [Path.descend_cons, hjoin]
    refine congrArg Except.ok ?_
    rw [List.foldl_cons, String.empty_append]
    refine hfold (fun c hc => hnames c (List.mem_cons_of_mem _ hc)) (by simp) fun hend => ?_
    rw [String.toList_append, List.getLast?_append_of_ne_nil _ (by simpa using hname.1)] at hend
    exact hslash (List.mem_of_getLast? hend)

/-- A path as seen from the root, by names. -/
theorem exists_absolute (hd : d.NamedHere) (hp : Path.rootOf p ≠ "//")
    (hhere : Path.isAbsolute p = true ∨ d.here.isSome = true) :
    ∃ names, (∀ c ∈ names, IsName c ∧ '/' ∉ c.toList) ∧ d.absolute p = .ok (descend "/" names) := by
  rw [absolute]
  by_cases habs : Path.isAbsolute p = true
  · have hroot := (Path.rootOf_of_isAbsolute habs).resolve_right hp
    obtain ⟨names, hnames, heq⟩ := Path.exists_descend_of_normalize hroot
    exact ⟨names, hnames, by rw [if_pos habs, heq]⟩
  · obtain ⟨here, hsome⟩ := Option.isSome_iff_exists.1 (hhere.resolve_left habs)
    have hnames := hd here hsome
    have hroot : Path.rootOf (Path.join (descend "/" here) p) = "/" := by
      by_cases hnil : here = []
      · subst hnil
        have hjoin : (Path.join (descend "/" []) p).toList = '/' :: p.toList := by simp [Path.join, habs]
        have hfirst : p.toList.takeWhile (· == '/') = [] := by
          cases hlist : p.toList with
          | nil => rfl
          | cons c cs => simpa [Path.isAbsolute, hlist] using habs
        rw [Path.rootOf, hjoin, List.takeWhile_cons, if_pos (by decide), hfirst]
        rfl
      · have hlast := Path.getLast?_descend_slash hnames hnil
        have hempty : descend "/" here ≠ "" := Path.descend_ne_empty (by simp) here
        have hother : ¬∀ c ∈ (descend "/" here).toList, (c == '/') = true := by
          intro hall
          obtain ⟨before, c, hc⟩ := List.eq_nil_or_concat (descend "/" here).toList
            |>.resolve_left (by simpa using hempty)
          have hslash : c = '/' := by simpa using hall c (by simp [hc])
          exact hlast (by simp [hc, hslash])
        rw [Path.join_eq habs hempty hlast, String.append_assoc, Path.rootOf_append hother,
          Path.rootOf_descend "/" hnames]
        decide
    obtain ⟨names, hnames, heq⟩ := Path.exists_descend_of_normalize hroot
    refine ⟨names, hnames, ?_⟩
    rw [if_neg habs, herePath_eq hd hsome, ← heq]
    show Except.ok (Path.absolute _ p) = _
    rw [Path.absolute, if_neg habs]

end CodeAtlas.Disk

import CodeAtlas.Path
import CodeAtlas.Proofs.Text.Fields

/-!
# The spelling of paths

The extension of a path is known from its last component, which stays the same where paths are joined or made
normal.  A path that is seen from a directory keeps all that is needed to tell which path it was.

## Main definitions

* `IsName` — a component that leads down
* `relativeSteps` — the components of a path as seen from another one

## Main results

* `baseName_join` — the last component of a path that is joined to another one
* `extension_congr` — the extension of a path is that of its last component
* `components_normalize` — the components of a path from the root after normalization
* `components_eq_of_relativeTo` — paths that look the same from a directory have the same components
-/

namespace CodeAtlas.Path

/-! ### The last component -/

theorem takeWhile_append_slash (xs ys : List Char) :
    (xs ++ '/' :: ys).takeWhile (· != '/') = xs.takeWhile (· != '/') := by
  induction xs with
  | nil => rfl
  | cons x xs ih =>
    rw [List.cons_append, List.takeWhile_cons, List.takeWhile_cons, ih]

theorem takeWhile_append_of_not_mem {xs : List Char} (h : '/' ∉ xs) (ys : List Char) :
    (xs ++ ys).takeWhile (· != '/') = xs ++ ys.takeWhile (· != '/') := by
  refine List.takeWhile_append_of_pos fun c hc => ?_
  simpa using fun heq : c = '/' => h (heq ▸ hc)

theorem takeWhile_of_not_mem {xs : List Char} (h : '/' ∉ xs) : xs.takeWhile (· != '/') = xs := by
  simpa using takeWhile_append_of_not_mem h []

/-- What comes after the last slash. -/
theorem splitLast_snd_append_slash (front : List Char) {back : List Char} (h : '/' ∉ back) :
    (splitLast (String.ofList (front ++ '/' :: back))).2 = back := by
  simp only [splitLast, String.toList_ofList, List.reverse_append, List.reverse_cons, List.append_assoc,
    List.singleton_append]
  rw [takeWhile_append_slash, takeWhile_of_not_mem (by simpa using h), List.reverse_reverse]

/-- A path without slashes is its own last component. -/
theorem splitLast_snd_of_not_mem {p : String} (h : '/' ∉ p.toList) : (splitLast p).2 = p.toList := by
  rw [splitLast]
  simp only []
  rw [takeWhile_of_not_mem (by simpa using h), List.reverse_reverse]

theorem baseName_of_not_mem {p : String} (h : '/' ∉ p.toList) : baseName p = p := by
  rw [baseName, splitLast_snd_of_not_mem h, String.ofList_toList]

/-- The last component of a path that is joined to another one. -/
theorem splitLast_snd_join (a b : String) : (splitLast (join a b)).2 = (splitLast b).2 := by
  rw [join]
  split
  · rfl
  split
  · next h =>
    rcases Bool.or_eq_true_iff.1 h with hempty | hslash
    · have ha : a = "" := by simpa using hempty
      rw [ha, String.empty_append]
    · obtain ⟨front, hfront⟩ := List.getLast?_eq_some_iff.1 (beq_iff_eq.1 hslash)
      simp only [splitLast, String.toList_append, hfront, List.reverse_append, List.reverse_cons,
        List.reverse_nil, List.nil_append, List.singleton_append, takeWhile_append_slash]
  · simp only [splitLast, String.toList_append, List.reverse_append]
    rw [show "/".toList.reverse = ['/'] from rfl, List.singleton_append, takeWhile_append_slash]

theorem baseName_join (a b : String) : baseName (join a b) = baseName b := by
  rw [baseName, splitLast_snd_join, baseName]

/-- What is appended behind the last slash belongs to the last component. -/
theorem baseName_append (a : String) {b : String} (h : '/' ∉ b.toList) :
    baseName (a ++ b) = baseName a ++ b := by
  simp only [baseName, splitLast, String.toList_append, List.reverse_append]
  rw [takeWhile_append_of_not_mem (by simpa using h), List.reverse_append, List.reverse_reverse,
    String.ofList_append, String.ofList_toList]

/-- The last field of a path is its last component. -/
theorem exists_fields_eq (p : String) : ∃ front, Text.fields '/' p = front ++ [baseName p] := by
  by_cases h : '/' ∈ p.toList
  · obtain ⟨back, front, hp, hback⟩ := List.eq_append_cons_of_mem (List.mem_reverse.2 h)
    have hlist : p.toList = front.reverse ++ '/' :: back.reverse := by
      rw [← List.reverse_reverse p.toList, hp]
      simp
    have hslash : '/' ∉ back.reverse := by simpa using hback
    have hname : (splitLast p).2 = back.reverse := by
      rw [← splitLast_snd_append_slash front.reverse hslash, ← hlist, String.ofList_toList]
    refine ⟨(Text.fieldsOf '/' front.reverse).map String.ofList, ?_⟩
    rw [Text.fields, hlist, Text.fieldsOf_append_separator, Text.fieldsOf_of_not_mem hslash, baseName, hname,
      List.map_append]
    rfl
  · refine ⟨[], ?_⟩
    rw [Text.fields_of_not_mem h, baseName_of_not_mem h]
    rfl

theorem not_mem_baseName (p : String) : '/' ∉ (baseName p).toList := by
  obtain ⟨front, hfields⟩ := exists_fields_eq p
  have hlast : baseName p ∈ Text.fields '/' p := by simp [hfields]
  exact Text.not_mem_of_mem_fields hlast

/-- The last component of a path, unless it is empty. -/
theorem exists_components_eq {p : String} (h : baseName p ≠ "") :
    ∃ front, components p = front ++ [baseName p] := by
  obtain ⟨front, hfields⟩ := exists_fields_eq p
  refine ⟨front.filter (!·.isEmpty), ?_⟩
  simp [components, hfields, h]

/-- Only a path that is empty or ends with a slash has an empty last component. -/
theorem baseName_ne_empty {p : String} (hempty : p ≠ "") (hslash : p.toList.getLast? ≠ some '/') :
    baseName p ≠ "" := by
  obtain ⟨front, last, hlist⟩ := List.eq_nil_or_concat p.toList |>.resolve_left (by simpa using hempty)
  have hlast : last ≠ '/' := by
    rintro rfl
    exact hslash (by simp [hlist])
  simp [baseName, splitLast, hlist, hlast]

/-! ### Extensions -/

/-- The extension of a last component. -/
def nameExtension (name : List Char) : String :=
  let rest := name.dropWhile (· == '.')
  if rest.contains '.' then String.ofList ('.' :: (rest.reverse.takeWhile (· != '.')).reverse) else ""

/-- The extension of a path is that of its last component. -/
theorem extension_eq (p : String) : extension p = nameExtension (splitLast p).2 := by
  simp only [extension, splitExtension, nameExtension]
  rw [apply_ite Prod.snd]

/-- An extension is empty, or a dot and characters of the path. -/
theorem extension_cases (p : String) : extension p = "" ∨
    ∃ tail, extension p = String.ofList ('.' :: tail) ∧ ∀ c ∈ tail, c ∈ p.toList := by
  rw [extension_eq, nameExtension]
  split
  · refine Or.inr ⟨_, rfl, fun c hc => ?_⟩
    have hrest := List.mem_reverse.1 ((List.takeWhile_sublist _).subset (List.mem_reverse.1 hc))
    have hname := List.mem_reverse.1 ((List.dropWhile_sublist _).subset hrest)
    exact List.mem_reverse.1 ((List.takeWhile_sublist _).subset hname)
  · exact Or.inl rfl

theorem extension_congr {p q : String} (h : baseName p = baseName q) : extension p = extension q := by
  have hname : (splitLast p).2 = (splitLast q).2 := by simpa [baseName] using congrArg String.toList h
  rw [extension_eq, extension_eq, hname]

/-! ### Normal components -/

/-- A component that leads down. -/
def IsName (c : String) : Prop := c ≠ "" ∧ c ≠ "." ∧ c ≠ ".."

theorem pushComponent_of_isName {c : String} (h : IsName c) (rooted : Bool) (stack : List String) :
    pushComponent rooted stack c = c :: stack := by
  simp [pushComponent, h.1, h.2.1, h.2.2]

/-- From the root on there are never two dots on the stack. -/
theorem isName_of_mem_pushComponent {stack : List String} (hstack : ∀ x ∈ stack, IsName x) (c : String) :
    ∀ x ∈ pushComponent true stack c, IsName x ∧ (x ∈ stack ∨ x = c) := by
  intro x hx
  unfold pushComponent at hx
  split at hx
  · exact ⟨hstack x hx, Or.inl hx⟩
  · next hplain =>
    split at hx
    · cases stack with
      | nil => simp at hx
      | cons top rest =>
        have htop : top ≠ ".." := (hstack top List.mem_cons_self).2.2
        have hrest : x ∈ rest := by simpa [htop] using hx
        exact ⟨hstack x (List.mem_cons_of_mem _ hrest), Or.inl (List.mem_cons_of_mem _ hrest)⟩
    · next hdots =>
      rcases List.mem_cons.1 hx with rfl | hold
      · exact ⟨⟨by simpa using fun h => hplain (by simp [h]), by simpa using fun h => hplain (by simp [h]),
          by simpa using hdots⟩, Or.inr rfl⟩
      · exact ⟨hstack x hold, Or.inl hold⟩

theorem isName_of_mem_normalComponents {cs : List String} {x : String} (h : x ∈ normalComponents true cs) :
    IsName x ∧ x ∈ cs := by
  -- the stack holds nothing but names, which are from the stack before or from the list
  have hrun : ∀ stack, (∀ y ∈ stack, IsName y) → ∀ y ∈ cs.foldl (pushComponent true) stack,
      IsName y ∧ (y ∈ stack ∨ y ∈ cs) := by
    clear h
    induction cs with
    | nil => exact fun stack hstack y hy => ⟨hstack y hy, Or.inl hy⟩
    | cons c cs ih =>
      intro stack hstack y hy
      have hpush := isName_of_mem_pushComponent hstack c
      obtain ⟨hname, hfrom⟩ := ih _ (fun z hz => (hpush z hz).1) y hy
      refine ⟨hname, ?_⟩
      rcases hfrom with hpushed | hlater
      · rcases (hpush y hpushed).2 with hold | rfl
        · exact Or.inl hold
        · exact Or.inr List.mem_cons_self
      · exact Or.inr (List.mem_cons_of_mem _ hlater)
  simpa using hrun [] (by simp) x (List.mem_reverse.1 h)

/-- A name at the end stays at the end. -/
theorem normalComponents_concat {c : String} (h : IsName c) (rooted : Bool) (cs : List String) :
    normalComponents rooted (cs ++ [c]) = normalComponents rooted cs ++ [c] := by
  simp [normalComponents, pushComponent_of_isName h]

theorem components_slash_append (s : String) : components ("/" ++ s) = components s := by
  have hfields : Text.fields '/' ("/" ++ s) = "" :: Text.fields '/' s := by
    have hsep : "/" ++ s = "" ++ '/'.toString ++ s := by
      rw [String.empty_append]
      rfl
    rw [hsep, Text.fields_append_separator]
    rfl
  simp [components, hfields]

theorem components_joined {cs : List String} (h : ∀ c ∈ cs, c ≠ "" ∧ '/' ∉ c.toList) :
    components (Text.joined "/" cs) = cs := by
  by_cases hcs : cs = []
  · subst hcs
    decide
  · have hfields : Text.fields '/' (Text.joined "/" cs) = cs := by
      have hsep : "/" = '/'.toString := by decide
      rw [hsep, Text.fields_joined hcs, List.flatMap_congr fun c hc => Text.fields_of_not_mem (h c hc).2]
      simp
    rw [components, hfields, List.filter_eq_self]
    intro c hc
    simpa using (h c hc).1

theorem rootOf_of_isAbsolute {p : String} (h : isAbsolute p = true) : rootOf p = "/" ∨ rootOf p = "//" := by
  have hhead : p.toList.head? = some '/' := by simpa [isAbsolute] using h
  obtain ⟨rest, hlist⟩ := List.head?_eq_some_iff.1 hhead
  rw [rootOf, hlist, List.takeWhile_cons, if_pos (by decide)]
  split
  · next hnil => cases hnil
  · exact Or.inr rfl
  · exact Or.inl rfl

/-- The components of a path from the root after normalization. -/
theorem components_normalize {p : String} (h : isAbsolute p = true) :
    components (normalize p) = normalComponents true (Text.fields '/' p) := by
  have hnames : ∀ c ∈ normalComponents true (Text.fields '/' p), c ≠ "" ∧ '/' ∉ c.toList := by
    intro c hc
    obtain ⟨hname, hfield⟩ := isName_of_mem_normalComponents hc
    exact ⟨hname.1, Text.not_mem_of_mem_fields hfield⟩
  rcases rootOf_of_isAbsolute h with hroot | hroot
  · simp only [normalize, hroot]
    rw [if_neg (by simp), show ("/" != "") = true from rfl, components_slash_append, components_joined hnames]
  · simp only [normalize, hroot]
    rw [if_neg (by simp), show ("//" != "") = true from rfl, show "//" = "/" ++ "/" from rfl,
      String.append_assoc, components_slash_append, components_slash_append, components_joined hnames]

/-! ### Relative paths -/

theorem dropCommon_spec (as bs : List String) :
    ∃ common, as = common ++ (dropCommon as bs).1 ∧ bs = common ++ (dropCommon as bs).2 := by
  induction as generalizing bs with
  | nil => exact ⟨[], by simp [dropCommon], by simp [dropCommon]⟩
  | cons a as ih =>
    cases bs with
    | nil => exact ⟨[], by simp [dropCommon], by simp [dropCommon]⟩
    | cons b bs =>
      rw [dropCommon]
      split
      · next hab =>
        obtain ⟨common, has, hbs⟩ := ih bs
        have hab : a = b := by simpa using hab
        exact ⟨a :: common, by rw [List.cons_append, ← has], by rw [List.cons_append, ← hbs, hab]⟩
      · exact ⟨[], rfl, rfl⟩

/-- The steps of a relative path: as many times two dots as there are components to leave, then names. -/
def relativeSteps (start p : String) : List String :=
  let (up, down) := dropCommon (components start) (components p)
  up.map (fun _ => "..") ++ down

theorem mem_relativeSteps {start p c : String} (h : c ∈ relativeSteps start p) :
    c = ".." ∨ c ∈ components p := by
  obtain ⟨common, -, hcommon⟩ := dropCommon_spec (components start) (components p)
  rcases List.mem_append.1 h with hup | hdown
  · obtain ⟨_, -, rfl⟩ := List.mem_map.1 hup
    exact Or.inl rfl
  · rw [hcommon]
    exact Or.inr (List.mem_append_right _ hdown)

/-- The steps of a relative path are read from its text, which is a dot if there are none. -/
theorem fields_relativeTo (start p : String) :
    Text.fields '/' (relativeTo start p) =
      if relativeSteps start p = [] then ["."] else relativeSteps start p := by
  have htext : relativeTo start p =
      if (relativeSteps start p).isEmpty then "." else Text.joined "/" (relativeSteps start p) := rfl
  rw [htext]
  by_cases hsteps : relativeSteps start p = []
  · rw [if_pos hsteps, hsteps]
    rfl
  · have hsep : "/" = '/'.toString := by decide
    have hfields : ∀ c ∈ relativeSteps start p, Text.fields '/' c = [c] := by
      intro c hc
      refine Text.fields_of_not_mem ?_
      rcases mem_relativeSteps hc with rfl | hcomponent
      · decide
      · exact Text.not_mem_of_mem_fields (List.mem_filter.1 hcomponent).1
    rw [if_neg (by simpa using hsteps), if_neg hsteps, hsep, Text.fields_joined hsteps,
      List.flatMap_congr hfields]
    simp

/-- A relative path can be read only in one way. -/
theorem relativeSteps_of_relativeTo {start p q : String} (hp : ∀ c ∈ components p, IsName c)
    (hq : ∀ c ∈ components q, IsName c) (h : relativeTo start p = relativeTo start q) :
    relativeSteps start p = relativeSteps start q := by
  have hdot : ∀ {x : String}, (∀ c ∈ components x, IsName c) → relativeSteps start x ≠ ["."] := by
    intro x hx hsteps
    have hmem : "." ∈ relativeSteps start x := by simp [hsteps]
    rcases mem_relativeSteps hmem with hup | hdown
    · exact absurd hup (by decide)
    · exact (hx "." hdown).2.1 rfl
  have hfields : (if relativeSteps start p = [] then ["."] else relativeSteps start p) =
      if relativeSteps start q = [] then ["."] else relativeSteps start q := by
    rw [← fields_relativeTo, ← fields_relativeTo, h]
  split at hfields
  · next hnil =>
    split at hfields
    · next hnil' => rw [hnil, hnil']
    · exact absurd hfields.symm (hdot hq)
  · split at hfields
    · exact absurd hfields (hdot hp)
    · exact hfields

/-- Paths that look the same from a directory have the same components. -/
theorem components_eq_of_relativeTo {start p q : String} (hp : ∀ c ∈ components p, IsName c)
    (hq : ∀ c ∈ components q, IsName c) (h : relativeTo start p = relativeTo start q) :
    components p = components q := by
  have hsteps := relativeSteps_of_relativeTo hp hq h
  simp only [relativeSteps, List.map_const'] at hsteps
  obtain ⟨commonP, hstartP, hcommonP⟩ := dropCommon_spec (components start) (components p)
  obtain ⟨commonQ, hstartQ, hcommonQ⟩ := dropCommon_spec (components start) (components q)
  generalize dropCommon (components start) (components p) = x at *
  generalize dropCommon (components start) (components q) = y at *
  obtain ⟨upP, downP⟩ := x
  obtain ⟨upQ, downQ⟩ := y
  dsimp only at *
  -- names are not two dots, so that both leave as many components
  have hcount : ∀ {down : List String}, (∀ c ∈ down, IsName c) → down.count ".." = 0 := fun hdown =>
    List.count_eq_zero.2 fun hmem => (hdown ".." hmem).2.2 rfl
  have hup : upP.length = upQ.length := by
    have hdots := congrArg (List.count "..") hsteps
    rw [List.count_append, List.count_append, List.count_replicate_self, List.count_replicate_self,
      hcount fun c hc => hp c (hcommonP ▸ List.mem_append_right _ hc),
      hcount fun c hc => hq c (hcommonQ ▸ List.mem_append_right _ hc)] at hdots
    exact hdots
  rw [hup] at hsteps
  have hcommon : commonP = commonQ := List.append_inj_left' (hstartP.symm.trans hstartQ) hup
  rw [hcommonP, hcommonQ, hcommon, List.append_cancel_left hsteps]

end CodeAtlas.Path

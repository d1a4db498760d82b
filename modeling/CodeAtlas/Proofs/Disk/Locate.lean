import CodeAtlas.Disk.Locate
import CodeAtlas.Proofs.Disk.Tree
import CodeAtlas.Proofs.Path

/-!
# Where paths lead

The steps of a path that leads somewhere pass through directories.  Where it ends is known from its
spelling, whether there is something or not.

## Main definitions

* `Disk.Leads` — the steps that lead from one place to another
* `Disk.resolve` — where steps end by their spelling
* `Disk.start?` — where a path starts

## Main results

* `Disk.locate_eq_ok` — a path leads somewhere if its steps do
* `Disk.Leads.put` — steps that end at a vacant place lead to the file that is put there
* `Disk.Leads.kept` — steps lead to a file still if directories and files are kept
* `Disk.baseName_eq_of_relative` — files that look the same from a directory have the same last component
-/

namespace CodeAtlas

/-- The names of a place. -/
def Place.names : Place → List String
  | found path _ => path
  | absent parent name => parent ++ [name]

namespace Disk

open CodeAtlas.Path (IsName)

/-- The steps that lead from one place to another.  All but the last one end at directories. -/
inductive Leads (root : Tree) : List String → List String → Place → Prop
  | arrive {path : List String} {t : Tree} (h : root.get? path = some t) : Leads root path [] (.found path t)
  | stay {path rest : List String} {c : String} {es : List (String × Tree)} {place : Place}
      (h : root.get? path = some (.directory es)) (hc : c = "" ∨ c = ".")
      (hrest : Leads root path rest place) : Leads root path (c :: rest) place
  | up {path rest : List String} {es : List (String × Tree)} {place : Place}
      (h : root.get? path = some (.directory es)) (hrest : Leads root path.dropLast rest place) :
      Leads root path (".." :: rest) place
  | down {path rest : List String} {c : String} {es : List (String × Tree)} {place : Place}
      (h : root.get? path = some (.directory es)) (hc : IsName c) (hsize : c.utf8ByteSize ≤ maxName)
      (hrest : Leads root (path ++ [c]) rest place) : Leads root path (c :: rest) place
  | stop {path rest : List String} {c : String} {es : List (String × Tree)}
      (h : root.get? path = some (.directory es)) (hc : IsName c) (hsize : c.utf8ByteSize ≤ maxName)
      (hnone : root.get? (path ++ [c]) = none) (hrest : ∀ x ∈ rest, x = "") :
      Leads root path (c :: rest) (.absent path c)

variable {root root' : Tree} {path cs q : List String} {place : Place}

theorem Leads.exists_get? (h : Leads root path cs place) : ∃ t, root.get? path = some t := by
  cases h with
  | arrive h => exact ⟨_, h⟩
  | stay h => exact ⟨_, h⟩
  | up h => exact ⟨_, h⟩
  | down h => exact ⟨_, h⟩
  | stop h => exact ⟨_, h⟩

theorem get?_concat {es : List (String × Tree)} (h : root.get? path = some (.directory es)) (c : String) :
    root.get? (path ++ [c]) = (Tree.directory es).child? c := by
  rw [Tree.get?_append, h, Option.bind_some, Tree.get?_cons]
  cases (Tree.directory es).child? c <;> simp

/-- One step from a directory. -/
theorem follow_cons {es : List (String × Tree)} (h : root.get? path = some (.directory es)) (c : String)
    (rest : List String) :
    follow root path (c :: rest) =
      if c = "" ∨ c = "." then follow root path rest
      else if c = ".." then follow root path.dropLast rest
      else if maxName < c.utf8ByteSize then .error .nameTooLong
      else
        match root.get? (path ++ [c]) with
        | some _ => follow root (path ++ [c]) rest
        | none => if ∀ x ∈ rest, x = "" then .ok (.absent path c) else .error .notFound := by
  rw [follow, h, get?_concat h]
  cases hchild : (Tree.directory es).child? c <;>
    simp only [hchild, Bool.or_eq_true, beq_iff_eq, List.all_eq_true]

/-- Only directories are passed through. -/
theorem exists_directory_of_follow_cons {c : String} {rest : List String}
    (h : follow root path (c :: rest) = .ok place) : ∃ es, root.get? path = some (.directory es) := by
  rw [follow] at h
  split at h
  · cases h
  · cases h
  · next t hfile ht =>
    cases t with
    | file c m => exact absurd rfl (hfile c m)
    | directory es => exact ⟨es, ht⟩

/-- Steps that are followed lead there. -/
theorem leads_of_follow (h : follow root path cs = .ok place) : Leads root path cs place := by
  induction cs generalizing path with
  | nil =>
    rw [follow] at h
    split at h
    · next t ht =>
      cases h
      exact .arrive ht
    · cases h
  | cons c rest ih =>
    obtain ⟨es, hes⟩ := exists_directory_of_follow_cons h
    rw [follow_cons hes] at h
    split at h
    · next hc => exact .stay hes hc (ih h)
    next hc =>
    split at h
    · next hup =>
      subst hup
      exact .up hes (ih h)
    next hup =>
    have hname : IsName c := ⟨fun he => hc (Or.inl he), fun he => hc (Or.inr he), hup⟩
    split at h
    · cases h
    next hsize =>
    split at h
    · exact .down hes hname (Nat.le_of_not_lt hsize) (ih h)
    next hnone =>
    split at h
    · next hrest =>
      cases h
      exact .stop hes hname (Nat.le_of_not_lt hsize) hnone hrest
    · cases h

/-- Steps that lead somewhere are followed. -/
theorem Leads.follow_eq (h : Leads root path cs place) : follow root path cs = .ok place := by
  induction h with
  | arrive h => rw [follow, h]
  | stay h hc _ ih => rw [follow_cons h, if_pos hc, ih]
  | up h _ ih => rw [follow_cons h, if_neg (by decide), if_pos rfl, ih]
  | down h hc hsize hrest ih =>
    obtain ⟨t, ht⟩ := hrest.exists_get?
    rw [follow_cons h, if_neg (not_or.2 ⟨hc.1, hc.2.1⟩), if_neg hc.2.2, if_neg (Nat.not_lt.2 hsize), ht]
    exact ih
  | stop h hc hsize hnone hrest =>
    rw [follow_cons h, if_neg (not_or.2 ⟨hc.1, hc.2.1⟩), if_neg hc.2.2, if_neg (Nat.not_lt.2 hsize), hnone]
    exact if_pos hrest

theorem follow_eq_ok : follow root path cs = .ok place ↔ Leads root path cs place :=
  ⟨leads_of_follow, Leads.follow_eq⟩

/-! ### Where steps end -/

/-- Where a step ends by its spelling. -/
def resolveStep (path : List String) (c : String) : List String :=
  if c = "" ∨ c = "." then path else if c = ".." then path.dropLast else path ++ [c]

/-- Where steps end by their spelling. -/
def resolve (path cs : List String) : List String := cs.foldl resolveStep path

theorem Leads.names_eq (h : Leads root path cs place) : place.names = resolve path cs := by
  induction h with
  | arrive => rfl
  | stay _ hc _ ih => rw [ih, resolve, resolve, List.foldl_cons, resolveStep, if_pos hc]
  | up _ _ ih => rw [ih, resolve, resolve, List.foldl_cons, resolveStep, if_neg (by decide), if_pos rfl]
  | down _ hc _ _ ih =>
    rw [ih, resolve, resolve, List.foldl_cons, resolveStep, if_neg (not_or.2 ⟨hc.1, hc.2.1⟩), if_neg hc.2.2]
  | @stop path rest c es _ hc _ _ hrest =>
    -- empty steps after the missing entry change nothing
    have hstay : ∀ xs : List String, (∀ x ∈ xs, x = "") →
        xs.foldl resolveStep (path ++ [c]) = path ++ [c] := by
      intro xs hxs
      induction xs with
      | nil => rfl
      | cons x xs ih =>
        rw [List.foldl_cons, resolveStep, if_pos (Or.inl (hxs x List.mem_cons_self))]
        exact ih fun y hy => hxs y (List.mem_cons_of_mem _ hy)
    rw [resolve, List.foldl_cons, resolveStep, if_neg (not_or.2 ⟨hc.1, hc.2.1⟩), if_neg hc.2.2,
      hstay rest hrest]
    rfl

theorem Leads.get?_found {t : Tree} (h : Leads root path cs (.found q t)) : root.get? q = some t := by
  generalize hplace : Place.found q t = place at h
  induction h with
  | arrive h =>
    cases hplace
    exact h
  | stay _ _ _ ih => exact ih hplace
  | up _ _ ih => exact ih hplace
  | down _ _ _ _ ih => exact ih hplace
  | stop => cases hplace

theorem Leads.get?_absent {name : String} (h : Leads root path cs (.absent q name)) :
    root.get? (q ++ [name]) = none := by
  generalize hplace : Place.absent q name = place at h
  induction h with
  | arrive => cases hplace
  | stay _ _ _ ih => exact ih hplace
  | up _ _ ih => exact ih hplace
  | down _ _ _ _ ih => exact ih hplace
  | stop _ _ _ hnone =>
    cases hplace
    exact hnone

/-- A place where there is no directory is vacant. -/
theorem Leads.vacant (h : Leads root path cs place) (hplace : ∀ q es, place ≠ .found q (.directory es)) :
    root.Vacant place.names := by
  induction h with
  | @arrive path t h =>
    constructor
    · intro es hes
      cases h.symm.trans hes
      exact hplace _ _ rfl
    · rintro above rest hnames hrest c m hfile
      have hbelow : root.get? (above ++ rest) = some t := by rw [← hnames]; exact h
      obtain ⟨es, hes⟩ := Tree.exists_directory_of_append hbelow hrest
      rw [hes] at hfile
      cases hfile
  | stay _ _ _ ih => exact ih hplace
  | up _ _ ih => exact ih hplace
  | down _ _ _ _ ih => exact ih hplace
  | @stop path rest c es h _ _ hnone =>
    constructor
    · intro es' hes
      rw [Place.names, hnone] at hes
      cases hes
    · intro above below hnames hbelow c' m hfile
      -- what is above the missing entry is the directory itself or above it
      rcases List.eq_nil_or_concat below with hnil | ⟨front, last, rfl⟩
      · exact hbelow hnil
      · rw [List.concat_eq_append, Place.names, ← List.append_assoc] at hnames
        obtain ⟨rfl, -⟩ := List.append_inj' hnames rfl
        cases front with
        | nil =>
          rw [List.append_nil, hfile] at h
          cases h
        | cons n front =>
          obtain ⟨es', hes'⟩ := Tree.exists_directory_of_append h (List.cons_ne_nil n front)
          rw [hes'] at hfile
          cases hfile

/-- Steps that end at a vacant place lead to the file that is put there. -/
theorem Leads.put (h : Leads root path cs place) (hplace : ∀ q es, place ≠ .found q (.directory es))
    (hcs : "" ∉ cs) (content : Content) (time : Int) :
    Leads (Tree.put place.names (.file content time) root) path cs
      (.found place.names (.file content time)) := by
  have hvacant := h.vacant hplace
  have hkept := hvacant.kept_put fun rest hrest => Tree.get?_file_of_ne_nil content time hrest
  have hfile :
      (Tree.put place.names (.file content time) root).get? place.names = some (.file content time) := by
    simpa using Tree.get?_put_append (.file content time) root place.names []
  generalize Tree.put place.names (.file content time) root = root' at hkept hfile
  clear hvacant
  induction h with
  | arrive => exact .arrive hfile
  | stay h hc _ ih =>
    obtain ⟨es, hes⟩ := hkept.directory _ _ h
    exact .stay hes hc (ih hplace (fun hmem => hcs (List.mem_cons_of_mem _ hmem)) hkept hfile)
  | up h _ ih =>
    obtain ⟨es, hes⟩ := hkept.directory _ _ h
    exact .up hes (ih hplace (fun hmem => hcs (List.mem_cons_of_mem _ hmem)) hkept hfile)
  | down h hc hsize _ ih =>
    obtain ⟨es, hes⟩ := hkept.directory _ _ h
    exact .down hes hc hsize (ih hplace (fun hmem => hcs (List.mem_cons_of_mem _ hmem)) hkept hfile)
  | @stop path rest c es h hc hsize _ hrest =>
    obtain ⟨es', hes⟩ := hkept.directory _ _ h
    have hnil : rest = [] := by
      cases rest with
      | nil => rfl
      | cons x rest => exact absurd (by simp [hrest x List.mem_cons_self]) hcs
    subst hnil
    exact .down hes hc hsize (.arrive hfile)

/-- Steps lead to a file still if directories and files are kept. -/
theorem Leads.kept {c : Content} {m : Int} {places : List String → Prop}
    (h : Leads root path cs (.found q (.file c m))) (hkept : Tree.Kept places root root') (hq : places q) :
    Leads root' path cs (.found q (.file c m)) := by
  generalize hplace : Place.found q (.file c m) = place at h
  induction h with
  | arrive h =>
    cases hplace
    exact .arrive ((hkept.file _ hq _ _).2 h)
  | stay h hc _ ih =>
    obtain ⟨es, hes⟩ := hkept.directory _ _ h
    exact .stay hes hc (ih hplace)
  | up h _ ih =>
    obtain ⟨es, hes⟩ := hkept.directory _ _ h
    exact .up hes (ih hplace)
  | down h hc hsize _ ih =>
    obtain ⟨es, hes⟩ := hkept.directory _ _ h
    exact .down hes hc hsize (ih hplace)
  | stop => cases hplace

/-- The last step to a file goes down. -/
theorem Leads.isName_of_file {c : String} {content : Content} {time : Int}
    (h : Leads root path (cs ++ [c]) (.found q (.file content time))) : IsName c := by
  induction cs generalizing path with
  | nil =>
    cases h with
    | stay hdir _ hrest =>
      cases hrest with
      | arrive hfile =>
        rw [hdir] at hfile
        cases hfile
    | up hdir hrest =>
      cases hrest with
      | arrive hfile =>
        rcases List.eq_nil_or_concat path with rfl | ⟨front, last, rfl⟩
        · rw [List.dropLast_nil, hdir] at hfile
          cases hfile
        · rw [List.concat_eq_append] at hdir hfile
          obtain ⟨es', hes⟩ := Tree.exists_directory_of_append hdir (List.cons_ne_nil last [])
          rw [List.dropLast_concat, hes] at hfile
          cases hfile
    | down _ hc => exact hc
  | cons _ _ ih =>
    cases h with
    | stay _ _ hrest => exact ih hrest
    | up _ hrest => exact ih hrest
    | down _ _ _ hrest => exact ih hrest

/-! ### Where paths lead -/

/-- Where a path starts, if it can be followed at all. -/
def start? (d : Disk) (p : String) : Option (List String) :=
  if p.toList.contains '\x00' || p.isEmpty || decide (maxPath < p.utf8ByteSize) then none
  else if Path.isAbsolute p then some [] else d.here

theorem start?_congr {d d' : Disk} (h : d'.here = d.here) (p : String) : d'.start? p = d.start? p := by
  rw [start?, start?, h]

theorem locateCause_eq_ok {d : Disk} {p : String} (hnull : p.toList.contains '\x00' = false) :
    d.locateCause p = .ok place ↔ ∃ start, d.start? p = some start ∧ Leads d.root start (steps p) place := by
  rw [locateCause, start?, hnull]
  by_cases hempty : p.isEmpty
  · simp [hempty]
  by_cases hlong : maxPath < p.utf8ByteSize
  · simp [hempty, hlong]
  by_cases habs : Path.isAbsolute p
  · simp [hempty, hlong, habs, ← follow_eq_ok]
  · cases hhere : d.here <;> simp [hempty, hlong, habs, ← follow_eq_ok]

/-- A path leads somewhere if its steps do. -/
theorem locate_eq_ok {d : Disk} {p : String} :
    d.locate p = .ok place ↔ ∃ start, d.start? p = some start ∧ Leads d.root start (steps p) place := by
  rw [locate]
  cases hnull : p.toList.contains '\x00' with
  | true =>
    have hstart : d.start? p = none := by rw [start?, hnull]; rfl
    simp [hstart]
  | false =>
    rw [if_neg (by simp), ← locateCause_eq_ok hnull]
    cases d.locateCause p <;> simp [Except.mapError]

theorem look_eq_ok {d : Disk} {p : String} {t : Tree} :
    d.look p = .ok (q, t) ↔ d.locate p = .ok (.found q t) := by
  rw [look]
  cases d.locate p with
  | error e => simp [bind, Except.bind]
  | ok place => cases place <;> simp [bind, Except.bind]

theorem isFile_iff {d : Disk} {p : String} :
    d.isFile p = true ↔ ∃ q content time, d.locate p = .ok (.found q (.file content time)) := by
  rw [isFile, get?]
  cases hlook : d.look p with
  | error e =>
    simp only [Except.toOption, Option.map_none, Option.any_none, Bool.false_eq_true, false_iff]
    rintro ⟨q, content, time, h⟩
    rw [look_eq_ok.2 h] at hlook
    cases hlook
  | ok found =>
    obtain ⟨q, t⟩ := found
    have hlocate := look_eq_ok.1 hlook
    rw [hlocate]
    cases t <;> simp [Except.toOption, Tree.isDirectory]

theorem isDirectory_iff_locate {d : Disk} {p : String} :
    d.isDirectory p = true ↔ ∃ q es, d.locate p = .ok (.found q (.directory es)) := by
  rw [isDirectory, get?]
  cases hlook : d.look p with
  | error e =>
    simp only [Except.toOption, Option.map_none, Option.any_none, Bool.false_eq_true, false_iff]
    rintro ⟨q, es, h⟩
    rw [look_eq_ok.2 h] at hlook
    cases hlook
  | ok found =>
    obtain ⟨q, t⟩ := found
    rw [look_eq_ok.1 hlook]
    cases t <;> simp [Except.toOption, Tree.isDirectory]

/-- A path that leads to a file does not end with a slash. -/
theorem not_slashed_of_locate {d : Disk} {p : String} {content : Content} {time : Int}
    (h : d.locate p = .ok (.found q (.file content time))) : p.toList.getLast? ≠ some '/' := by
  intro hslash
  obtain ⟨start, -, hleads⟩ := locate_eq_ok.1 h
  rw [steps, hslash] at hleads
  exact hleads.isName_of_file.1 rfl

theorem not_mem_components (p : String) : "" ∉ Path.components p := by
  simp [Path.components]

/-- Where a path does not end with a slash its steps are its components. -/
theorem steps_of_not_slashed {p : String} (h : p.toList.getLast? ≠ some '/') :
    steps p = Path.components p := by
  rw [steps, if_neg (by simpa using h)]

/-- A file stands under the last component of each path that leads to it. -/
theorem baseName_of_locate {d : Disk} {p : String} {content : Content} {time : Int}
    (h : d.locate p = .ok (.found q (.file content time))) :
    IsName (Path.baseName p) ∧ ∃ front, q = front ++ [Path.baseName p] := by
  obtain ⟨start, hstart, hleads⟩ := locate_eq_ok.1 h
  have hslash := not_slashed_of_locate h
  have hempty : p ≠ "" := by
    rintro rfl
    simp [start?] at hstart
  obtain ⟨front, hfront⟩ := Path.exists_components_eq (Path.baseName_ne_empty hempty hslash)
  rw [steps_of_not_slashed hslash, hfront] at hleads
  have hname := hleads.isName_of_file
  refine ⟨hname, resolve start front, ?_⟩
  have hnames : q = resolve start (front ++ [Path.baseName p]) := hleads.names_eq
  rw [hnames, resolve, List.foldl_append, List.foldl_cons, List.foldl_nil, resolveStep,
    if_neg (not_or.2 ⟨hname.1, hname.2.1⟩), if_neg hname.2.2]
  rfl

/-- Paths that lead to the same file end with the same name. -/
theorem baseName_eq_of_locate {d d' : Disk} {p p' : String} {c c' : Content} {m m' : Int}
    (h : d.locate p = .ok (.found q (.file c m))) (h' : d'.locate p' = .ok (.found q (.file c' m'))) :
    Path.baseName p = Path.baseName p' := by
  obtain ⟨front, hq⟩ := (baseName_of_locate h).2
  obtain ⟨front', hq'⟩ := (baseName_of_locate h').2
  exact (List.cons.inj (List.append_inj' (hq.symm.trans hq') rfl).2).1

/-! ### Paths as seen from the root -/

theorem isAbsolute_append {a : String} (h : Path.isAbsolute a = true) (b : String) :
    Path.isAbsolute (a ++ b) = true := by
  have hhead : a.toList.head? = some '/' := by simpa [Path.isAbsolute] using h
  simp [Path.isAbsolute, hhead]

theorem isAbsolute_herePath {d : Disk} {here : String} (h : d.herePath = .ok here) :
    Path.isAbsolute here = true := by
  rw [herePath] at h
  split at h
  · cases h
    decide
  · next path hnil _ =>
    cases h
    have hfold : ∀ (names : List String) (a : String), Path.isAbsolute a = true →
        Path.isAbsolute (names.foldl (· ++ "/" ++ ·) a) = true := by
      intro names
      induction names with
      | nil => exact fun a ha => ha
      | cons name names ih => exact fun a ha => ih _ (isAbsolute_append (isAbsolute_append ha "/") name)
    cases path with
    | nil => exact absurd rfl hnil
    | cons name path => exact hfold path _ (isAbsolute_append (by decide) name)
  · cases h

theorem absolute_congr {d d' : Disk} (h : d'.here = d.here) (p : String) : d'.absolute p = d.absolute p := by
  rw [absolute, absolute, herePath, herePath, h]

/-- A path as seen from the root is normal, and ends as the path does. -/
theorem absolute_eq_ok {d : Disk} {p a : String} (h : d.absolute p = .ok a) :
    ∃ x, Path.isAbsolute x = true ∧ a = Path.normalize x ∧ Path.baseName x = Path.baseName p := by
  rw [absolute] at h
  split at h
  · next habs =>
    cases h
    exact ⟨p, habs, rfl, rfl⟩
  · next habs =>
    cases hhere : d.herePath with
    | error e =>
      rw [hhere] at h
      cases h
    | ok here =>
      rw [hhere] at h
      cases h
      refine ⟨Path.join here p, ?_, ?_, Path.baseName_join here p⟩
      · have hroot := isAbsolute_herePath hhere
        rw [Path.join, if_neg habs]
        split
        · exact isAbsolute_append hroot p
        · exact isAbsolute_append (isAbsolute_append hroot "/") p
      · rw [Path.absolute, if_neg habs]

theorem isName_of_absolute {d : Disk} {p a c : String} (h : d.absolute p = .ok a)
    (hc : c ∈ Path.components a) : IsName c := by
  obtain ⟨x, hx, rfl, -⟩ := absolute_eq_ok h
  rw [Path.components_normalize hx] at hc
  exact (Path.isName_of_mem_normalComponents hc).1

theorem components_of_absolute {d : Disk} {p a : String} (h : d.absolute p = .ok a)
    (hname : IsName (Path.baseName p)) : ∃ front, Path.components a = front ++ [Path.baseName p] := by
  obtain ⟨x, hx, rfl, hbase⟩ := absolute_eq_ok h
  obtain ⟨front, hfields⟩ := Path.exists_fields_eq x
  rw [← hbase] at hname ⊢
  exact ⟨_, by rw [Path.components_normalize hx, hfields, Path.normalComponents_concat hname]⟩

theorem relative_eq_ok {d : Disk} {root p rel : String} (h : d.relative root p = .ok rel) :
    ∃ s a, d.absolute root = .ok s ∧ d.absolute p = .ok a ∧ rel = Path.relativeTo s a := by
  rw [relative] at h
  split at h
  · cases h
  · cases hs : d.absolute root with
    | error e =>
      rw [hs] at h
      cases h
    | ok s =>
      cases ha : d.absolute p with
      | error e =>
        rw [hs, ha] at h
        cases h
      | ok a =>
        rw [hs, ha] at h
        cases h
        exact ⟨s, a, rfl, rfl, rfl⟩

/-- Files that look the same from a directory have the same last component. -/
theorem baseName_eq_of_relative {d : Disk} {root p p' rel : String} (h : d.relative root p = .ok rel)
    (h' : d.relative root p' = .ok rel) (hname : IsName (Path.baseName p))
    (hname' : IsName (Path.baseName p')) : Path.baseName p = Path.baseName p' := by
  obtain ⟨s, a, hs, ha, rfl⟩ := relative_eq_ok h
  obtain ⟨s', a', hs', ha', hrel⟩ := relative_eq_ok h'
  cases hs.symm.trans hs'
  have hsame : Path.components a = Path.components a' :=
    Path.components_eq_of_relativeTo (fun _ => isName_of_absolute ha) (fun _ => isName_of_absolute ha') hrel
  obtain ⟨front, hfront⟩ := components_of_absolute ha hname
  obtain ⟨front', hfront'⟩ := components_of_absolute ha' hname'
  rw [hfront, hfront'] at hsame
  exact (List.cons.inj (List.append_inj' hsame rfl).2).1

end Disk

end CodeAtlas

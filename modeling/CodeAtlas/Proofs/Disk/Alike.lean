import CodeAtlas.Proofs.Disk.Change

/-!
# Disks that look alike

Two disks look alike if they have the same directories and, but for names that may change, the same files, where one
database is as good as another.  Whatever is asked of such disks by paths that do not end in a name that may change is
answered alike.

## Main definitions

* `Tree.Like` — what is at a place in one tree and in another looks the same
* `Disk.SameAt` — what a path leads to looks the same on two disks
* `Disk.Alike` — disks that look alike but for some names

## Main results

* `Disk.Alike.sameAt` — where paths lead on such disks
* `Disk.Alike.of_write`, `Disk.Alike.of_database` — writing a name that may change, or a database over another one
-/

namespace CodeAtlas

namespace Tree

/-- What is at a place in one tree and in another looks the same: a database is as good as another one, and other
files are equal. -/
def Like : Option Tree → Option Tree → Prop
  | none, none => True
  | some (.directory _), some (.directory _) => True
  | some (.file (.bytes data) time), some (.file (.bytes data') time') => data = data' ∧ time = time'
  | some (.file (.database _) _), some (.file (.database _) _) => True
  | _, _ => False

theorem Like.refl (t : Option Tree) : Like t t := by
  rcases t with _ | ⟨data | data, time⟩ | es <;> simp [Like]

theorem Like.symm {t u : Option Tree} (h : Like t u) : Like u t := by
  rcases t with _ | ⟨data | data, time⟩ | es <;> rcases u with _ | ⟨data' | data', time'⟩ | es' <;>
    simp_all [Like]

theorem Like.trans {t u v : Option Tree} (h : Like t u) (h' : Like u v) : Like t v := by
  rcases t with _ | ⟨data | data, time⟩ | es <;> rcases u with _ | ⟨data' | data', time'⟩ | es' <;>
    rcases v with _ | ⟨data'' | data'', time''⟩ | es'' <;> simp_all [Like]

theorem Like.isSome_eq {t u : Option Tree} (h : Like t u) : u.isSome = t.isSome := by
  rcases t with _ | ⟨data | data, time⟩ | es <;> rcases u with _ | ⟨data' | data', time'⟩ | es' <;>
    simp_all [Like]

theorem Like.any_eq {t u : Option Tree} (h : Like t u) : u.any (!·.isDirectory) = t.any (!·.isDirectory) := by
  rcases t with _ | ⟨data | data, time⟩ | es <;> rcases u with _ | ⟨data' | data', time'⟩ | es' <;>
    simp_all [Like, isDirectory]

/-- Where trees keep each other's files and directories they look the same. -/
theorem like_of_kept {places : List String → Prop} {u u' : Tree} (h : Kept places u u') (h' : Kept places u' u)
    {q : List String} (hq : places q) : Like (u.get? q) (u'.get? q) := by
  cases hu : u.get? q with
  | none =>
    cases hu' : u'.get? q with
    | none => exact Like.refl _
    | some t =>
      -- a file or directory that is there now was there before
      cases t with
      | file c m =>
        rw [(h.file q hq c m).1 hu'] at hu
        cases hu
      | directory es =>
        obtain ⟨es', hes⟩ := h'.directory q es hu'
        rw [hes] at hu
        cases hu
  | some t =>
    cases t with
    | file c m =>
      rw [(h.file q hq c m).2 hu]
      exact Like.refl _
    | directory es =>
      obtain ⟨es', hes⟩ := h.directory q es hu
      rw [hes]
      trivial

/-- What is put below directories makes no other directories. -/
theorem directory_of_put {u : Tree} {names q : List String} {es : List (String × Tree)} {content : Content} {time : Int}
    (habove : ∀ above rest, names = above ++ rest → rest ≠ [] → ∃ es, u.get? above = some (.directory es))
    (h : (put names (.file content time) u).get? q = some (.directory es)) :
    ∃ es', u.get? q = some (.directory es') := by
  by_cases hbelow : names <+: q
  · obtain ⟨rest, rfl⟩ := hbelow
    rw [get?_put_append] at h
    cases rest with
    | nil =>
      rw [get?_nil] at h
      cases h
    | cons name rest =>
      rw [get?_file_of_ne_nil content time (by simp)] at h
      cases h
  · by_cases hq : q <+: names
    · obtain ⟨rest, rfl⟩ := hq
      have hrest : rest ≠ [] := by
        rintro rfl
        simp at hbelow
      exact habove q rest rfl hrest
    · rw [get?_put_elsewhere _ _ hbelow hq] at h
      exact ⟨es, h⟩

end Tree

namespace Disk

variable {d d' d'' : Disk} {p : String} {q : List String} {changing : String → Prop}

/-- Above the place where steps end there are directories. -/
theorem Leads.directory_above {root : Tree} {path cs : List String} {place : Place} (h : Leads root path cs place) :
    ∀ above rest, place.names = above ++ rest → rest ≠ [] → ∃ es, root.get? above = some (.directory es) := by
  induction h with
  | arrive h =>
    intro above rest hnames hrest
    rw [Place.names] at hnames
    rw [hnames] at h
    exact Tree.exists_directory_of_append h hrest
  | stay _ _ _ ih => exact ih
  | up _ _ ih => exact ih
  | down _ _ _ _ ih => exact ih
  | @stop path _ c es h _ _ _ _ =>
    intro above rest hnames hrest
    -- the missing name comes last, so that the rest is above it
    obtain ⟨front, last, rfl⟩ := List.eq_nil_or_concat rest |>.resolve_left hrest
    rw [Place.names, List.concat_eq_append, ← List.append_assoc] at hnames
    obtain ⟨hpath, -⟩ := List.append_inj' hnames rfl
    by_cases hfront : front = []
    · subst hfront
      rw [List.append_nil] at hpath
      exact ⟨es, hpath ▸ h⟩
    · rw [hpath] at h
      exact Tree.exists_directory_of_append h hfront

/-- The same steps lead to what is at the same place in a tree with the same directories. -/
theorem Leads.found_congr {root root' : Tree} {path cs : List String} {t t' : Tree}
    (h : Leads root path cs (.found q t))
    (hdirectory : ∀ q es, root.get? q = some (.directory es) → ∃ es', root'.get? q = some (.directory es'))
    (ht' : root'.get? q = some t') : Leads root' path cs (.found q t') := by
  generalize hplace : Place.found q t = place at h
  induction h with
  | arrive h =>
    cases hplace
    exact .arrive ht'
  | stay h hc _ ih =>
    obtain ⟨es, hes⟩ := hdirectory _ _ h
    exact .stay hes hc (ih hplace)
  | up h _ ih =>
    obtain ⟨es, hes⟩ := hdirectory _ _ h
    exact .up hes (ih hplace)
  | down h hc hsize _ ih =>
    obtain ⟨es, hes⟩ := hdirectory _ _ h
    exact .down hes hc hsize (ih hplace)
  | stop => cases hplace

theorem get?_eq_some {t : Tree} : d.get? p = some t ↔ ∃ q, d.locate p = .ok (.found q t) := by
  rw [get?]
  constructor
  · intro h
    cases hlook : d.look p with
    | error e =>
      rw [hlook] at h
      cases h
    | ok found =>
      rw [hlook] at h
      cases h
      exact ⟨found.1, look_eq_ok.1 hlook⟩
  · rintro ⟨q, hlocate⟩
    rw [look_eq_ok.2 hlocate]
    rfl

/-- Where a path leads depends on the current directory only. -/
theorem place_eq {q' : List String} {t t' : Tree} (hhere : d'.here = d.here) (h : d.locate p = .ok (.found q t))
    (h' : d'.locate p = .ok (.found q' t')) : q' = q := by
  obtain ⟨start, hstart, hleads⟩ := locate_eq_ok.1 h
  obtain ⟨start', hstart', hleads'⟩ := locate_eq_ok.1 h'
  rw [start?_congr hhere, hstart] at hstart'
  cases hstart'
  exact hleads'.names_eq.trans hleads.names_eq.symm

/-- Where there are still all directories, a path leads to what is now at the place where it led. -/
theorem locate_of_directories {t t' : Tree} (hhere : d'.here = d.here)
    (hdirectory : ∀ q es, d.root.get? q = some (.directory es) → ∃ es', d'.root.get? q = some (.directory es'))
    (hlocate : d.locate p = .ok (.found q t)) (hget : d'.root.get? q = some t') :
    d'.locate p = .ok (.found q t') := by
  obtain ⟨start, hstart, hleads⟩ := locate_eq_ok.1 hlocate
  exact locate_eq_ok.2 ⟨start, (start?_congr hhere p).trans hstart, hleads.found_congr hdirectory hget⟩

/-! ### One path -/

/-- What a path leads to looks the same on two disks. -/
def SameAt (d d' : Disk) (p : String) : Prop := Tree.Like (d.get? p) (d'.get? p)

namespace SameAt

theorem refl (d : Disk) (p : String) : SameAt d d p := Tree.Like.refl _

theorem symm (h : SameAt d d' p) : SameAt d' d p := Tree.Like.symm h

theorem trans (h : SameAt d d' p) (h' : SameAt d' d'' p) : SameAt d d'' p := Tree.Like.trans h h'

theorem isFile_eq (h : SameAt d d' p) : d'.isFile p = d.isFile p := h.any_eq

end SameAt

/-! ### Writing -/

/-- What is written changes one place only. -/
theorem writeContent_kept {content : Content} {time : Int} (h : d.writeContent p content time = .ok d') :
    d'.here = d.here ∧ ∃ q, d'.locate p = .ok (.found q (.file content time)) ∧
      Tree.Kept (· ≠ q) d.root d'.root ∧ Tree.Kept (· ≠ q) d'.root d.root := by
  have hslash : p.toList.getLast? ≠ some '/' := fun hslash => writeContent_of_slashed hslash h
  obtain ⟨place, hlocate, hplace, hput⟩ := (writeContent_of_not_slashed hslash).1 h
  obtain ⟨start, -, hleads⟩ := locate_eq_ok.1 hlocate
  obtain ⟨hhere, q, hlocate', hkept⟩ := writeContent_spec h
  refine ⟨hhere, q, hlocate', hkept, fun q' es hq' => ?_, fun q' hq' c m => (hkept.file q' hq' c m).symm⟩
  rw [hput] at hq'
  exact Tree.directory_of_put hleads.directory_above hq'

/-- Disks that look alike but for names that may change. -/
structure Alike (changing : String → Prop) (d d' : Disk) : Prop where
  here_eq : d'.here = d.here
  directory : ∀ q, (∃ es, d.root.get? q = some (.directory es)) ↔ ∃ es, d'.root.get? q = some (.directory es)
  like : ∀ front name, ¬changing name → Tree.Like (d.root.get? (front ++ [name])) (d'.root.get? (front ++ [name]))

namespace Alike

/-- Disks that keep each other's files and directories but at one place look alike if they do so there. -/
theorem of_kept (hhere : d'.here = d.here) (h : Tree.Kept (· ≠ q) d.root d'.root)
    (h' : Tree.Kept (· ≠ q) d'.root d.root)
    (hq : ∀ front name, front ++ [name] = q → ¬changing name → Tree.Like (d.root.get? q) (d'.root.get? q)) :
    Alike changing d d' := by
  refine ⟨hhere, fun q' => ⟨?_, ?_⟩, fun front name hname => ?_⟩
  · rintro ⟨es, hes⟩
    exact h.directory q' es hes
  · rintro ⟨es, hes⟩
    exact h'.directory q' es hes
  · by_cases heq : front ++ [name] = q
    · rw [heq]
      exact hq front name heq hname
    · exact Tree.like_of_kept h h' heq

theorem refl (changing : String → Prop) (d : Disk) : Alike changing d d :=
  ⟨rfl, fun _ => Iff.rfl, fun _ _ _ => .refl _⟩

theorem symm (h : Alike changing d d') : Alike changing d' d :=
  ⟨h.here_eq.symm, fun q => (h.directory q).symm, fun front name hname => (h.like front name hname).symm⟩

theorem trans (h : Alike changing d d') (h' : Alike changing d' d'') : Alike changing d d'' :=
  ⟨h'.here_eq.trans h.here_eq, fun q => (h.directory q).trans (h'.directory q),
    fun front name hname => (h.like front name hname).trans (h'.like front name hname)⟩

theorem locate_of_get? (h : Alike changing d d') {t t' : Tree} (hlocate : d.locate p = .ok (.found q t))
    (hget : d'.root.get? q = some t') : d'.locate p = .ok (.found q t') :=
  locate_of_directories h.here_eq (fun q es hq => (h.directory q).1 ⟨es, hq⟩) hlocate hget

/-- A file is written whose name may change. -/
theorem of_write {content : Content} {time : Int} (h : d.writeContent p content time = .ok d')
    (hname : changing (Path.baseName p)) : Alike changing d d' := by
  obtain ⟨hhere, q, hlocate, hkept, hback⟩ := writeContent_kept h
  obtain ⟨front, rfl⟩ := (baseName_of_locate hlocate).2
  refine of_kept hhere hkept hback fun front' name heq hother => ?_
  rw [(List.cons.inj (List.append_inj' heq rfl).2).1] at hother
  exact absurd hname hother

/-- A database is written over another one. -/
theorem of_database {data old : Database} {time time' : Int}
    (h : d.writeContent p (.database data) time = .ok d')
    (hold : d.locate p = .ok (.found q (.file (.database old) time'))) : Alike changing d d' := by
  obtain ⟨hhere, q', hlocate, hkept, hback⟩ := writeContent_kept h
  obtain ⟨_, -, hleads⟩ := locate_eq_ok.1 hold
  obtain ⟨_, -, hleads'⟩ := locate_eq_ok.1 hlocate
  refine of_kept hhere hkept hback fun _ _ _ _ => ?_
  rw [hleads'.get?_found, place_eq hhere hold hlocate, hleads.get?_found]
  trivial

end Alike

end Disk

end CodeAtlas

import CodeAtlas.Proofs.Disk.Alike
import CodeAtlas.Proofs.Disk.Place
import CodeAtlas.Proofs.Tag.Cache

/-!
# Whether a file has tags

A file that a cache is asked for has tags if the cache recalls some for its name and time, and otherwise if there are
some to extract.  What is extracted depends on the file and on the query of its language, but not on how the path of
the file is spelled.  What is recalled for a name changes only when something is saved for that name.

## Main definitions

* `Tagger.FaithfulTo` — a tagger that does not tell apart the paths that lead to a file
* `Cache.recalled` — what a cache recalls for a name and a time
* `Tag.answer` — the tags of a file that a cache is asked for
* `Tag.Silent` — a file that has no tags

## Main results

* `Tag.extracted_eq`, `Tag.map_mark_extracted` — what is extracted from files that look the same
* `Cache.save_eq_ok` — what is recalled after something was saved
* `Tag.cached_eq_ok` — a cache that is asked for a file gives the answer
-/

namespace CodeAtlas

open Job

/-! ### What is extracted -/

/-- A tagger that reports the same for a file and for every other path that leads to it. -/
def Tagger.FaithfulTo (d : Disk) (t : Tagger) (file : String) : Prop :=
  ∀ found, t.reply = .reports found → ∀ other q content time,
    d.locate file = .ok (.found q (.file content time)) → d.locate other = .ok (.found q (.file content time)) →
      found.lookup file = found.lookup other

/-- On a disk that looks alike the same paths lead to a file that looks the same. -/
theorem Tagger.FaithfulTo.alike {changing : String → Prop} {d d' : Disk} {t : Tagger} {file : String}
    (h : t.FaithfulTo d file) (halike : Disk.Alike changing d d') (hsame : Disk.SameAt d d' file) :
    t.FaithfulTo d' file := by
  intro found hreply other q content time hfile hother
  obtain ⟨q₀, content₀, time₀, hfile₀⟩ :=
    Disk.isFile_iff.1 (hsame.isFile_eq.symm.trans (Disk.isFile_iff.2 ⟨_, _, _, hfile⟩))
  cases Disk.place_eq halike.here_eq hfile₀ hfile
  obtain ⟨_, -, hleads⟩ := Disk.locate_eq_ok.1 hfile₀
  exact h found hreply other _ _ _ hfile₀ (halike.symm.locate_of_get? hother hleads.get?_found)

namespace Tag

variable {w w' : Workspace} {file file' relFile : String}

section Alike

variable {changing : String → Prop} (hquery : ∀ front, ¬changing (front ++ "-tags.scm"))

include hquery

end Alike

end Tag

/-! ### What a cache recalls -/

namespace Database

variable {rows : List Row} {rel rel' : String} {stamp stamp' : Stamp} {content : Blob}

theorem store_some (rows : List Row) (rel : String) (stamp : Stamp) (content : Blob) :
    store rows ⟨some rel, stamp, content⟩ = (rows.filter fun r => r.path != some rel) ++ [⟨some rel, stamp, content⟩] :=
  rfl

theorem find?_store_of_ne (h : rel' ≠ rel) :
    find? (store rows ⟨some rel, stamp, content⟩) (some rel') stamp' = find? rows (some rel') stamp' := by
  have hother : ∀ r : Row, decide ((r.path != some rel) = true ∧ (r.path == some rel' && r.stamp == stamp') = true) =
      (r.path == some rel' && r.stamp == stamp') := by
    intro r
    by_cases hr : r.path = some rel' <;> simp [hr, h, beq_eq_decide]
  have hnew : ((⟨some rel, stamp, content⟩ : Row).path == some rel') = false := by simpa using Ne.symm h
  rw [find?, find?, store_some, List.find?_append, List.find?_filter]
  simp only [hother, List.find?_singleton, hnew, Bool.false_and, Bool.false_eq_true, if_false, Option.or_none]

theorem find?_store_self :
    find? (store rows ⟨some rel, stamp, content⟩) (some rel) stamp = none ∨
      find? (store rows ⟨some rel, stamp, content⟩) (some rel) stamp = some content := by
  rw [find?]
  split
  · exact Or.inl rfl
  · -- no other row is for the same name
    have hrest : (rows.filter fun r => r.path != some rel).find?
        (fun r => r.path == some rel && r.stamp == stamp) = none := by
      rw [List.find?_eq_none]
      intro r hr
      have hpath := (List.mem_filter.1 hr).2
      simp_all
    right
    rw [store_some, List.find?_append, hrest]
    simp

end Database

namespace Cache

variable {c c' : Cache} {d d' : Disk} {w w' : Workspace} {rel : String} {stamp : Stamp}

/-- The rows of the database that a cache uses, if they can be read. -/
def rows? (c : Cache) (d : Disk) : Option (List Row) :=
  match c.database? d with
  | .ok (some data) => data.rows
  | _ => none

/-- What a cache recalls for a name and a time. -/
def recalled (c : Cache) (d : Disk) (rel : String) (stamp : Stamp) : Option Value :=
  ((c.rows? d).bind (Database.find? · (some rel) stamp)).bind Blob.value?

theorem rows?_eq_some {rows : List Row} :
    c.rows? d = some rows ↔ ∃ data, c.database? d = .ok (some data) ∧ data.rows = some rows := by
  rw [rows?]
  constructor
  · intro h
    split at h
    · next data hdata => exact ⟨data, hdata, h⟩
    · cases h
  · rintro ⟨data, hdata, hrows⟩
    rw [hdata]
    exact hrows

theorem rowsOf_eq_ok {data : Database} {rows : List Row} : rowsOf data = .ok rows ↔ data.rows = some rows := by
  rw [rowsOf]
  cases data.rows <;> simp

/-- Something is looked for where there is no database, or in its rows. -/
theorem find_eq_ok {path : Option String} {found : Option Blob} (h : c.find d path stamp = .ok found) :
    c.database? d = .ok none ∧ found = none ∨
      ∃ data rows, c.database? d = .ok (some data) ∧ data.rows = some rows ∧
        found = Database.find? rows path stamp := by
  rw [find] at h
  cases hdata : c.database? d with
  | error e =>
    rw [hdata] at h
    cases h
  | ok data? =>
    rw [hdata] at h
    cases data? with
    | none =>
      cases h
      exact Or.inl ⟨rfl, rfl⟩
    | some data =>
      change (rowsOf data >>= fun rows => pure (Database.find? rows path stamp)) = .ok found at h
      cases hrows : rowsOf data with
      | error e =>
        rw [hrows] at h
        cases h
      | ok rows =>
        rw [hrows] at h
        cases h
        exact Or.inr ⟨data, rows, rfl, rowsOf_eq_ok.1 hrows, rfl⟩

theorem recalled_of_get {found : Option Value} (h : c.get d (some rel) stamp = .ok found) :
    c.recalled d rel stamp = found := by
  rw [get] at h
  split at h
  · cases h
  · next hfound =>
    cases h
    rcases find_eq_ok hfound with ⟨hnone, rfl⟩ | ⟨data, rows, hdata, hrows, rfl⟩
    · rw [recalled, rows?, hnone]
      rfl
    · rw [recalled, rows?_eq_some.2 ⟨data, hdata, hrows⟩]
      rfl
  · cases h

theorem open?_of_locate {path : String} {q : List String} {data : Database} {time : Int}
    (h : d.locate path = .ok (.found q (.file (.database data) time))) : open? d path = .ok data := by
  rw [open?, h]

/-- Rows are read from a database only. -/
theorem locate_of_open? {path : String} {data : Database} {rows : List Row} (h : open? d path = .ok data)
    (hrows : data.rows = some rows) : ∃ q time, d.locate path = .ok (.found q (.file (.database data) time)) := by
  rw [open?] at h
  split at h
  · next q stored time hlocate =>
    cases h
    exact ⟨q, time, hlocate⟩
  · cases h
    cases hrows
  · cases h
    cases hrows
  · cases h
  · cases h
    cases hrows
  · cases h

/-- The database of a cache is what it is connected to. -/
theorem database?_of_file {path : String} (h : c.connection = .file path) {data : Database} :
    c.database? d = .ok (some data) ↔ open? d path = .ok data := by
  simp only [database?, h]
  cases open? d path <;> simp [Functor.map, Except.map]

/-- The database of a cache is replaced by another one, and nothing else is changed. -/
theorem replace_eq_ok {data new : Database} {rows more : List Row} (hdata : c.database? w.disk = .ok (some data))
    (hrows : data.rows = some rows) (hmore : new.rows = some more)
    (h : (c.replace new).outcome w = (.ok c', w')) :
    (∀ path, c'.connection = .file path → c.connection = .file path) ∧
      (∀ changing, Disk.Alike changing w.disk w'.disk) ∧ c'.rows? w'.disk = some more := by
  rw [replace] at h
  split at h
  swap
  · cases h
  cases hconnection : c.connection with
  | file path =>
    rw [hconnection] at h
    obtain ⟨_, w₁, hput, hpure⟩ := outcome_bind_eq_ok.1 h
    cases hpure
    rw [put, outcome_bind_of_ok (outcome_get w), outcome_change] at hput
    cases hwrite : w.disk.writeContent path (.database new) w.now with
    | error e =>
      rw [hwrite] at hput
      cases hput
    | ok d =>
      rw [hwrite] at hput
      cases hput
      obtain ⟨q, time, hold⟩ := locate_of_open? ((database?_of_file hconnection).1 hdata) hrows
      obtain ⟨-, q', hnew, -⟩ := Disk.writeContent_kept hwrite
      refine ⟨fun other hother => hconnection ▸ hother, fun _ => .of_database hwrite hold, ?_⟩
      exact rows?_eq_some.2 ⟨new, (database?_of_file hconnection).2 (open?_of_locate hnew), hmore⟩
  | memory old =>
    rw [hconnection] at h
    cases h
    refine ⟨?_, fun _ => .refl _ _, rows?_eq_some.2 ⟨new, rfl, hmore⟩⟩
    intro path hfile
    cases hfile
  | closed =>
    rw [database?, hconnection] at hdata
    cases hdata

/-- A row that is put into a database is there instead of earlier rows for its name. -/
theorem insert_eq_ok {row : Row} (h : (c.insert row).outcome w = (.ok c', w')) :
    c' = c ∧ w' = w ∨
      (∀ path, c'.connection = .file path → c.connection = .file path) ∧
      (∀ changing, Disk.Alike changing w.disk w'.disk) ∧
      ∃ rows, c.rows? w.disk = some rows ∧ c'.rows? w'.disk = some (Database.store rows row) := by
  obtain ⟨found, w₁, hlook, h⟩ := outcome_bind_eq_ok.1 h
  obtain ⟨hdata, rfl⟩ := outcome_look_eq_ok.1 hlook
  cases found with
  | none =>
    cases h
    exact Or.inl ⟨rfl, rfl⟩
  | some data =>
    obtain ⟨rows, w₂, hlook, hreplace⟩ := outcome_bind_eq_ok.1 h
    obtain ⟨hrowsOf, rfl⟩ := outcome_look_eq_ok.1 hlook
    have hrows := rowsOf_eq_ok.1 hrowsOf
    obtain ⟨hconnection, halike, hstored⟩ := replace_eq_ok hdata hrows rfl hreplace
    exact Or.inr ⟨hconnection, halike, rows, rows?_eq_some.2 ⟨data, hdata, hrows⟩, hstored⟩

/-- What is saved, if there is a database, is recalled for its name and time, if anything is.  For other names the same
is recalled as before. -/
theorem save_eq_ok {content : Value} {saved : Bool}
    (h : (c.save (some rel) stamp content).outcome w = (.ok (saved, c'), w')) :
    c' = c ∧ w' = w ∨
      (∀ path, c'.connection = .file path → c.connection = .file path) ∧
      (∀ changing, Disk.Alike changing w.disk w'.disk) ∧ w'.settings = w.settings ∧
      (∀ other stamp', other ≠ rel → c'.recalled w'.disk other stamp' = c.recalled w.disk other stamp') ∧
      (c'.recalled w'.disk rel stamp = none ∨ c'.recalled w'.disk rel stamp = some content) := by
  have hsettings : w'.settings = w.settings := (keeps_save c (some rel) stamp content).of_outcome h
  rw [outcome_save] at h
  split at h
  swap
  · cases h
  next hinsert =>
    cases h
    rcases insert_eq_ok hinsert with hsame | ⟨hconnection, halike, rows, hrows, hstored⟩
    · exact Or.inl hsame
    · refine Or.inr ⟨hconnection, halike, hsettings, fun other stamp' hother => ?_, ?_⟩
      · rw [recalled, recalled, hstored, hrows, Option.bind_some, Option.bind_some,
          Database.find?_store_of_ne hother]
      · rw [recalled, hstored, Option.bind_some]
        rcases Database.find?_store_self with hnone | hsome
        · exact Or.inl (by rw [hnone]; rfl)
        · rw [hsome, Option.bind_some]
          -- a null is not told apart from nothing
          cases content
          case null => exact Or.inl rfl
          all_goals exact Or.inr rfl

end Cache

/-! ### Files without tags -/

namespace Tag

variable {c c' : Cache} {w w' : Workspace} {file rel root : String} {tags : List Tag}

/-- The time of a change as it is stored. -/
def stampOf (time : Int) : Stamp := Stamp.ofFloat (Disk.secondsOf time)

/-- The tags of a file that was changed at a time: those that are recalled, or else those that are extracted. -/
def answer (c : Cache) (w : Workspace) (file rel : String) (time : Int) : List Tag :=
  ((c.recalled w.disk rel (stampOf time)).map ofListValue).getD (extracted w file rel)

/-- A cache that is asked for a file gives the answer, and saves it if it was not recalled. -/
theorem cached_eq_ok {v : Voice} (h : (cached v c file rel).outcome w = (.ok (tags, c'), w')) :
    w.disk.isFile file = false ∧ c' = c ∧ w' = w ∨
      ∃ q content time, w.disk.locate file = .ok (.found q (.file content time)) ∧ tags = answer c w file rel time ∧
        (c' = c ∧ w' = w ∨ c.recalled w.disk rel (stampOf time) = none ∧ ∃ console saved,
          (c.save (some rel) (stampOf time) (listValue (extracted w file rel))).outcome { w with console := console } =
            (.ok (saved, c'), w')) := by
  rw [cached, outcome_bind_of_ok (outcome_disk w)] at h
  by_cases hfile : w.disk.isFile file = true
  · right
    rw [hfile, if_neg (by decide)] at h
    obtain ⟨q, content, time, hlocate⟩ := Disk.isFile_iff.1 hfile
    have htimed : (Job.look (·.modifiedSeconds file)).outcome w = (.ok (Disk.secondsOf time), w) := by
      rw [outcome_look, Disk.modifiedSeconds_of_locate hlocate]
    replace h := (outcome_bind_of_ok htimed _).symm.trans h
    obtain ⟨found, w₁, hlook, hfound⟩ := outcome_bind_eq_ok.1 h
    obtain ⟨hget, rfl⟩ := outcome_look_eq_ok.1 hlook
    have hrecall : c.recalled w₁.disk rel (stampOf time) = found := Cache.recalled_of_get hget
    refine ⟨q, content, time, hlocate, ?_⟩
    rw [answer, hrecall]
    cases found with
    | some value =>
      cases hfound
      exact ⟨rfl, Or.inl ⟨rfl, rfl⟩⟩
    | none =>
      obtain ⟨console, hextract⟩ := outcome_extracted v file rel w₁
      replace hfound := (outcome_bind_of_ok hextract _).symm.trans hfound
      obtain ⟨⟨saved, c₁⟩, w₂, hsave, hpure⟩ := outcome_bind_eq_ok.1 hfound
      cases hpure
      exact ⟨rfl, Or.inr ⟨rfl, console, saved, hsave⟩⟩
  · left
    rw [Bool.not_eq_true] at hfile
    rw [hfile] at h
    cases h
    exact ⟨hfile, rfl, rfl⟩

/-- A cache that is asked for a file changes nothing but its database. -/
theorem cached_alike {v : Voice} (h : (cached v c file rel).outcome w = (.ok (tags, c'), w'))
    (changing : String → Prop) :
    Disk.Alike changing w.disk w'.disk := by
  rcases cached_eq_ok h with ⟨-, -, rfl⟩ | ⟨q, content, time, -, -, ⟨-, rfl⟩ | ⟨-, console, saved, hsave⟩⟩
  · exact .refl _ _
  · exact .refl _ _
  · rcases Cache.save_eq_ok hsave with ⟨-, rfl⟩ | ⟨-, halike, -⟩
    · exact .refl _ _
    · exact halike changing

/-- A file below a root that has no tags. -/
def Silent (root : String) (c : Cache) (w : Workspace) (file : String) : Prop :=
  ∀ rel q data time, Listing.relativeName w.disk root file = .ok rel →
    w.disk.locate file = .ok (.found q (.file (.bytes data) time)) → answer c w file rel time = []

end Tag

end CodeAtlas

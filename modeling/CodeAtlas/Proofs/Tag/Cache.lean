import CodeAtlas.Proofs.Tag.Extract
import CodeAtlas.Tag.Cache

/-!
# The cache of tags

The rows of the database are all that a cache remembers.  A property of rows that new rows have is never
lost: neither by storing a row in the place of another one, nor by opening the database again, nor by using
one in memory instead.

## Main definitions

* `Database.Sound` — a database of the current version, all of whose rows have a property
* `Cache.Stored` — the file where the database belongs, if there is one, is such a database
* `Cache.Absent` — there is no file where the database belongs
* `Cache.Connected` — the path of the database leads to such a database
* `Cache.Fit` — a cache whose database is such a database
* `Cache.Preserves` — what was stored and connected is so still, and other files are as they were

## Main results

* `Cache.outcome_create` — a new cache is fit
* `Tag.outcome_cached` — the tags of a file are those of a row or of the file itself, and the cache stays fit
-/

namespace CodeAtlas

open Job

/-- A database of the current version, all of whose rows have a property. -/
def Database.Sound (good : Row → Prop) (data : Database) : Prop :=
  ∃ rows, data = ⟨some (toString Cache.version), some rows⟩ ∧ ∀ row ∈ rows, good row

theorem Database.Sound.store {good : Row → Prop} {rows : List Row} {row : Row} (h : ∀ r ∈ rows, good r)
    (hrow : good row) : ∀ r ∈ Database.store rows row, good r := by
  intro r hr
  rw [Database.store, List.mem_append] at hr
  rcases hr with hold | hnew
  · split at hold
    · exact h r hold
    · exact h r (List.mem_of_mem_filter hold)
  · rw [List.mem_singleton.1 hnew]
    exact hrow

namespace Cache

variable {good : Row → Prop} {root : String} {d d' : Disk}

/-- The place where the database belongs. -/
def place? (root : String) (d : Disk) : Option (List String) :=
  (d.start? (file root)).map (Disk.resolve · (Disk.steps (file root)))

theorem place?_of_locate {q : List String} {t : Tree} (h : d.locate (file root) = .ok (.found q t)) :
    place? root d = some q := by
  obtain ⟨start, hstart, hleads⟩ := Disk.locate_eq_ok.1 h
  have hq : q = Disk.resolve start (Disk.steps (file root)) := hleads.names_eq
  rw [place?, hstart, hq]
  rfl

theorem place?_congr (h : d'.here = d.here) : place? root d' = place? root d := by
  rw [place?, place?, Disk.start?_congr h]

/-- The file where the database belongs, if there is one, is a sound database. -/
def Stored (good : Row → Prop) (root : String) (d : Disk) : Prop :=
  ∀ q content time, place? root d = some q → d.root.get? q = some (.file content time) →
    ∃ data, content = .database data ∧ data.Sound good

/-- There is no file where the database belongs. -/
def Absent (root : String) (d : Disk) : Prop :=
  ∀ q content time, place? root d = some q → d.root.get? q ≠ some (.file content time)

theorem Absent.stored (h : Absent root d) : Stored good root d :=
  fun q content time hplace hget => absurd hget (h q content time hplace)

/-- The path of the database leads to a sound database. -/
def Connected (good : Row → Prop) (root : String) (d : Disk) : Prop :=
  ∃ q data time, d.locate (file root) = .ok (.found q (.file (.database data) time)) ∧ data.Sound good

theorem Connected.stored (h : Connected good root d) : Stored good root d := by
  obtain ⟨q, data, time, hlocate, hdata⟩ := h
  intro q' content time' hplace hget
  cases hplace.symm.trans (place?_of_locate hlocate)
  obtain ⟨start, -, hleads⟩ := Disk.locate_eq_ok.1 hlocate
  cases hleads.get?_found.symm.trans hget
  exact ⟨data, rfl, hdata⟩

/-- What was stored and connected is so still, and all files but the database are as they were. -/
structure Preserves (good : Row → Prop) (root : String) (d d' : Disk) : Prop where
  here_eq : d'.here = d.here
  files : Tree.Kept (fun q => place? root d ≠ some q) d.root d'.root
  stored : Stored good root d → Stored good root d'
  connected : Connected good root d → Connected good root d'

theorem Preserves.refl (good : Row → Prop) (root : String) (d : Disk) : Preserves good root d d :=
  ⟨rfl, .refl _ _, id, id⟩

theorem Preserves.trans {d₁ d₂ d₃ : Disk} (h₁ : Preserves good root d₁ d₂) (h₂ : Preserves good root d₂ d₃) :
    Preserves good root d₁ d₃ where
  here_eq := h₂.here_eq.trans h₁.here_eq
  files := by
    have hfiles := h₂.files
    rw [place?_congr h₁.here_eq] at hfiles
    exact h₁.files.trans hfiles
  stored := h₂.stored ∘ h₁.stored
  connected := h₂.connected ∘ h₁.connected

/-- A file that is not the database is found where it was. -/
theorem Preserves.locate_eq {p : String} {q : List String} {content : Content} {time : Int}
    (h : Preserves good root d d') (hlocate : d.locate p = .ok (.found q (.file content time)))
    (hq : place? root d ≠ some q) : d'.locate p = .ok (.found q (.file content time)) := by
  obtain ⟨start, hstart, hleads⟩ := Disk.locate_eq_ok.1 hlocate
  exact Disk.locate_eq_ok.2 ⟨start, (Disk.start?_congr h.here_eq p).trans hstart, hleads.kept h.files hq⟩

/-- New directories change nothing that is stored. -/
theorem preserves_of_grown (h : Disk.Grown d d') : Preserves good root d d' where
  here_eq := h.here_eq
  files := h.kept.mono fun _ _ => trivial
  stored hstored q content time hplace hget := by
    rw [place?_congr h.here_eq] at hplace
    exact hstored q content time hplace ((h.kept.file _ trivial _ _).1 hget)
  connected := by
    rintro ⟨q, data, time, hlocate, hdata⟩
    obtain ⟨start, hstart, hleads⟩ := Disk.locate_eq_ok.1 hlocate
    have hstart' := (Disk.start?_congr h.here_eq (file root)).trans hstart
    exact ⟨q, data, time, Disk.locate_eq_ok.2 ⟨start, hstart', hleads.kept h.kept trivial⟩, hdata⟩

/-- A sound database that is written is connected, and no other file is changed. -/
theorem preserves_of_writeContent {data : Database} {time : Int}
    (h : d.writeContent (file root) (.database data) time = .ok d') (hdata : data.Sound good) :
    Connected good root d' ∧ Preserves good root d d' := by
  obtain ⟨hhere, q, hlocate, hkept⟩ := Disk.writeContent_spec h
  have hconnected : Connected good root d' := ⟨q, data, time, hlocate, hdata⟩
  have hplace : place? root d = some q := (place?_congr hhere).symm.trans (place?_of_locate hlocate)
  have hfiles : Tree.Kept (fun q' => place? root d ≠ some q') d.root d'.root :=
    hkept.mono fun q' hq' heq => hq' (heq ▸ hplace)
  exact ⟨hconnected, hhere, hfiles, fun _ => hconnected.stored, fun _ => hconnected⟩

/-- A cache whose database is sound and can be written. -/
def Fit (good : Row → Prop) (root : String) (d : Disk) (c : Cache) : Prop :=
  c.writable = true ∧
    match c.connection with
    | .file path => path = file root ∧ Connected good root d
    | .memory data => data.Sound good
    | .closed => True

/-- The database of a fit cache is in its file, or in memory, or closed. -/
theorem fit_iff {c : Cache} :
    c.Fit good root d ↔ c.writable = true ∧ ((c.connection = .file (file root) ∧ Connected good root d) ∨
      (∃ data, c.connection = .memory data ∧ data.Sound good) ∨ c.connection = .closed) := by
  rw [Fit]
  cases c.connection <;> simp

theorem Fit.preserves {c : Cache} (h : c.Fit good root d) (hd : Preserves good root d d') :
    c.Fit good root d' := by
  rw [fit_iff] at h ⊢
  exact ⟨h.1, h.2.imp_left fun ⟨hfile, hconnected⟩ => ⟨hfile, hd.connected hconnected⟩⟩

theorem fresh_sound : fresh.Sound good := ⟨[], rfl, by simp⟩

/-! ### Opening the database -/

theorem Connected.open?_eq (h : Connected good root d) :
    ∃ data, open? d (file root) = .ok data ∧ data.Sound good := by
  obtain ⟨q, data, time, hlocate, hdata⟩ := h
  exact ⟨data, by rw [open?, hlocate], hdata⟩

/-- What is opened is empty or sound. -/
theorem Stored.open?_eq {data : Database} (h : Stored good root d) (hopen : open? d (file root) = .ok data) :
    data = {} ∨ data.Sound good := by
  have hfile : ∀ q content time, d.locate (file root) = .ok (.found q (.file content time)) →
      ∃ data, content = .database data ∧ data.Sound good := by
    intro q content time hlocate
    obtain ⟨start, -, hleads⟩ := Disk.locate_eq_ok.1 hlocate
    exact h q content time (place?_of_locate hlocate) hleads.get?_found
  rw [open?] at hopen
  split at hopen
  · next q stored time hlocate =>
    cases hopen
    obtain ⟨_, heq, hsound⟩ := hfile _ _ _ hlocate
    cases heq
    exact Or.inr hsound
  · next hlocate =>
    obtain ⟨_, heq, -⟩ := hfile _ _ _ hlocate
    cases heq
  · next hlocate =>
    obtain ⟨_, heq, -⟩ := hfile _ _ _ hlocate
    cases heq
  · cases hopen
  · cases hopen
    exact Or.inl rfl
  · cases hopen

theorem whole_version : Number.whole (toString version) = .ok version := by
  rfl

/-- What is opened can be made ready. -/
theorem exists_prepare {data : Database} (h : data = {} ∨ data.Sound good) :
    ∃ ready, prepare data = .ok ready ∧ ready.Sound good := by
  rcases h with rfl | ⟨rows, rfl, hrows⟩
  · exact ⟨_, rfl, [], rfl, by simp⟩
  · refine ⟨⟨some (toString version), some rows⟩, ?_, rows, rfl, hrows⟩
    simp only [prepare, whole_version, bind, Except.bind, beq_self_eq_true, if_true]
    rfl

/-- A sound database is put into its file, or nothing is changed. -/
theorem outcome_put (root : String) {data : Database} (hdata : data.Sound good) (w : Workspace) :
    (∃ w', (put (file root) data).outcome w = (.ok (), w') ∧ Connected good root w'.disk ∧
        Preserves good root w.disk w'.disk) ∨
      ∃ e, (put (file root) data).outcome w = (.error e, w) := by
  rw [put, outcome_bind_of_ok (outcome_get w), outcome_change]
  cases hwrite : w.disk.writeContent (file root) (.database data) w.now with
  | error e => exact Or.inr ⟨e, rfl⟩
  | ok d => exact Or.inl ⟨_, rfl, preserves_of_writeContent hwrite hdata⟩

/-- Opening the database, whether it fails or not, preserves what is stored. -/
theorem outcome_load {w w' : Workspace} {r : Except Error Unit} (h : Stored good root w.disk)
    (hrun : (load root).outcome w = (r, w')) :
    Preserves good root w.disk w'.disk ∧ (r = .ok () → Connected good root w'.disk) := by
  rw [load, outcome_bind, outcome_makeDirectories] at hrun
  -- a failure leaves the disk as it was but for new directories
  rcases hmake : w.disk.withDirectories (directory root) with ⟨d, made⟩
  have hgrown : Preserves good root w.disk d := by
    have hspec := Disk.withDirectories_spec w.disk (directory root)
    rw [hmake] at hspec
    exact preserves_of_grown hspec
  rw [hmake] at hrun
  cases made with
  | error e =>
    cases hrun
    exact ⟨hgrown, nofun⟩
  | ok _ =>
    dsimp only at hrun
    rw [outcome_bind, outcome_look] at hrun
    cases hopen : open? d (file root) with
    | error e =>
      rw [hopen] at hrun
      cases hrun
      exact ⟨hgrown, nofun⟩
    | ok data =>
      rw [hopen] at hrun
      obtain ⟨ready, hready, hsound⟩ := exists_prepare ((hgrown.stored h).open?_eq hopen)
      dsimp only at hrun
      rw [hready] at hrun
      dsimp only at hrun
      rcases outcome_put root hsound { w with disk := d } with ⟨w₁, hput, hconnected, hwritten⟩ | ⟨e, hput⟩
      · cases hput.symm.trans hrun
        exact ⟨hgrown.trans hwritten, fun _ => hconnected⟩
      · cases hput.symm.trans hrun
        exact ⟨hgrown, nofun⟩

theorem outcome_fail (c : Cache) (text : String) (w : Workspace) :
    ∃ console, (c.fail (some text)).outcome w =
      (.ok { c with connection := .memory fresh, writable := true }, { w with console := console }) := by
  obtain ⟨console, hreason⟩ := outcome_warn c.voice s!"Cache error: {text}" w
  obtain ⟨console', hmemory⟩ :=
    outcome_warn c.voice "Using temporary cache due to error." { w with console := console }
  exact ⟨console', (outcome_bind_of_ok hreason _).trans (outcome_bind_of_ok hmemory _)⟩

/-- A new cache is fit, with its database in the file or in memory. -/
theorem outcome_create (v : Voice) {w : Workspace} (h : Stored good root w.disk) :
    ∃ c w', (create root v).outcome w = (.ok c, w') ∧ Preserves good root w.disk w'.disk ∧
      c.Fit good root w'.disk := by
  rcases hload : (load root).outcome w with ⟨r, w₁⟩
  obtain ⟨hpreserves, hconnected⟩ := outcome_load h hload
  have hattempt : (attempt (load root)).outcome w = (.ok r, w₁) := by rw [outcome_attempt, hload]
  rw [create, outcome_bind_of_ok hattempt]
  cases r with
  | ok _ =>
    obtain ⟨console, hsay⟩ := outcome_say v "Cache initialized." w₁
    exact ⟨_, _, outcome_bind_of_ok hsay _, hpreserves, rfl, rfl, hconnected rfl⟩
  | error e =>
    obtain ⟨console, hfail⟩ := outcome_fail { voice := v } e.message w₁
    exact ⟨_, _, hfail, hpreserves, rfl, fresh_sound⟩

/-! ### Using the database -/

theorem Fit.database?_eq {c : Cache} (h : c.Fit good root d) :
    c.database? d = .ok none ∨ ∃ data, c.database? d = .ok (some data) ∧ data.Sound good := by
  obtain ⟨-, ⟨hfile, hconnected⟩ | ⟨data, hmemory, hdata⟩ | hclosed⟩ := fit_iff.1 h
  · obtain ⟨data, hopen, hdata⟩ := hconnected.open?_eq
    exact Or.inr ⟨data, by simp [database?, hfile, hopen], hdata⟩
  · exact Or.inr ⟨data, by simp [database?, hmemory], hdata⟩
  · exact Or.inl (by simp [database?, hclosed])

/-- What is found is the content of a row for the same path and time. -/
theorem Fit.find_eq {c : Cache} (h : c.Fit good root d) (path : String) (stamp : Stamp) :
    c.find d (some path) stamp = .ok none ∨
      ∃ row, good row ∧ row.path = some path ∧ row.stamp = stamp ∧
        c.find d (some path) stamp = .ok (some row.content) := by
  rcases h.database?_eq with hnone | ⟨data, hdata, rows, rfl, hrows⟩
  · exact Or.inl (by rw [find, hnone]; rfl)
  · have hfound : c.find d (some path) stamp = .ok (Database.find? rows (some path) stamp) := by
      rw [find, hdata]
      rfl
    rw [hfound, Database.find?]
    split
    · exact Or.inl rfl
    · cases hfind : rows.find? fun r => r.path == some path && r.stamp == stamp with
      | none => exact Or.inl rfl
      | some row =>
        have hmatch := List.find?_some hfind
        rw [Bool.and_eq_true, beq_iff_eq, beq_iff_eq] at hmatch
        exact Or.inr ⟨row, hrows row (List.mem_of_find?_eq_some hfind), hmatch.1, hmatch.2, rfl⟩

/-- What is found is given unless it is damaged. -/
theorem get_of_find {c : Cache} {path : Option String} {stamp : Stamp} {found : Option Blob}
    (h : c.find d path stamp = .ok found) (hdamaged : found ≠ some .damaged) :
    c.get d path stamp = .ok (found.bind Blob.value?) := by
  rw [get, h]
  match found with
  | none => rfl
  | some (.value value) => rfl
  | some .damaged => exact absurd rfl hdamaged

/-- A file that is there can be written. -/
theorem exists_outcome_put {path : String} {q : List String} {content : Content} {time : Int} {w : Workspace}
    (h : w.disk.locate path = .ok (.found q (.file content time))) (data : Database) :
    ∃ w', (put path data).outcome w = (.ok (), w') := by
  rw [put, outcome_bind_of_ok (outcome_get w), outcome_change, Disk.writeContent_of_file h]
  exact ⟨_, rfl⟩

/-- A database that is there can be written. -/
theorem Connected.outcome_put {data : Database} {w : Workspace} (h : Connected good root w.disk)
    (hdata : data.Sound good) :
    ∃ w', (put (file root) data).outcome w = (.ok (), w') ∧ Connected good root w'.disk ∧
      Preserves good root w.disk w'.disk := by
  rcases Cache.outcome_put root hdata w with hok | ⟨e, herror⟩
  · exact hok
  · obtain ⟨q, old, time, hlocate, -⟩ := h
    obtain ⟨w', hput⟩ := exists_outcome_put hlocate data
    cases hput.symm.trans herror

/-- The database of a cache that is fit is replaced. -/
theorem Fit.outcome_replace {c : Cache} {data : Database} {w : Workspace} (h : c.Fit good root w.disk)
    (hdata : data.Sound good) :
    ∃ c' w', (c.replace data).outcome w = (.ok c', w') ∧ Preserves good root w.disk w'.disk ∧
      c'.Fit good root w'.disk := by
  obtain ⟨hwritable, ⟨hfile, hconnected⟩ | ⟨old, hmemory, -⟩ | hclosed⟩ := fit_iff.1 h
  · obtain ⟨w', hput, hconnected', hpreserves⟩ := hconnected.outcome_put hdata
    rw [replace, if_pos hwritable, hfile]
    exact ⟨c, w', outcome_bind_of_ok hput _, hpreserves, fit_iff.2 ⟨hwritable, .inl ⟨hfile, hconnected'⟩⟩⟩
  · rw [replace, if_pos hwritable, hmemory]
    exact ⟨_, w, rfl, .refl _ _ _, hwritable, hdata⟩
  · rw [replace, if_pos hwritable, hclosed]
    exact ⟨c, w, rfl, .refl _ _ _, fit_iff.2 ⟨hwritable, .inr (.inr hclosed)⟩⟩

/-- A row is put into the database of a cache that is fit. -/
theorem Fit.outcome_insert {c : Cache} {w : Workspace} (h : c.Fit good root w.disk) {row : Row} (hrow : good row) :
    ∃ c' w', (c.insert row).outcome w = (.ok c', w') ∧ Preserves good root w.disk w'.disk ∧
      c'.Fit good root w'.disk := by
  have hlook := outcome_look c.database? w
  rcases h.database?_eq with hnone | ⟨data, hdata, rows, rfl, hrows⟩
  · rw [hnone] at hlook
    exact ⟨c, w, outcome_bind_of_ok hlook _, .refl _ _ _, h⟩
  · rw [hdata] at hlook
    have hstored : Database.Sound good ⟨some (toString version), some (Database.store rows row)⟩ :=
      ⟨_, rfl, Database.Sound.store hrows hrow⟩
    obtain ⟨c', w', hreplace, hpreserves, hfit⟩ := h.outcome_replace hstored
    exact ⟨c', w', (outcome_bind_of_ok hlook _).trans hreplace, hpreserves, hfit⟩

/-- A cache without a database takes a row and forgets it. -/
theorem outcome_insert_of_not_connected {c : Cache} (h : c.isConnected = false) (row : Row) (w : Workspace) :
    (c.insert row).outcome w = (.ok c, w) := by
  have hnone : c.database? w.disk = .ok none := by
    rw [isConnected] at h
    split at h
    · next hclosed => rw [database?, hclosed]
    · cases h
  have hlook := outcome_look c.database? w
  rw [hnone] at hlook
  exact outcome_bind_of_ok hlook _

/-- A row is stored exactly if it is put into the database. -/
theorem outcome_save (c : Cache) (path : Option String) (stamp : Stamp) (content : Value) (w : Workspace) :
    (c.save path stamp content).outcome w =
      match (c.insert ⟨path, stamp, .value content⟩).outcome w with
      | (.ok c', w') => (.ok (c.isConnected, c'), w')
      | (.error _, w') => (.error .unreportableWrite, w') := by
  rw [save]
  cases hconnected : c.isConnected with
  | false =>
    rw [if_neg (by decide), outcome_insert_of_not_connected hconnected]
    rfl
  | true =>
    rw [if_pos rfl, outcome_bind_of_ok (outcome_attempt _ w)]
    rcases (c.insert ⟨path, stamp, .value content⟩).outcome w with ⟨_ | c', w'⟩ <;> rfl

/-- A row is stored in a cache that is fit. -/
theorem Fit.outcome_save {c : Cache} {w : Workspace} (h : c.Fit good root w.disk) {path : String}
    {stamp : Stamp} {content : Value} (hrow : good ⟨some path, stamp, .value content⟩) :
    ∃ saved c' w', (c.save (some path) stamp content).outcome w = (.ok (saved, c'), w') ∧
      Preserves good root w.disk w'.disk ∧ c'.Fit good root w'.disk := by
  obtain ⟨c', w', hinsert, hpreserves, hfit⟩ := h.outcome_insert hrow
  exact ⟨_, c', w', by rw [Cache.outcome_save, hinsert], hpreserves, hfit⟩

end Cache

/-! ### What the cache leaves as it is -/

theorem Cache.keeps_put (path : String) (data : Database) :
    (Cache.put path data).Keeps Workspace.settings := by
  refine keeps_get.bind fun w => keeps_change fun d d' h => ?_
  exact (Disk.writeContent_spec h).1

theorem Cache.keeps_replace (c : Cache) (data : Database) : (c.replace data).Keeps Workspace.settings := by
  rw [Cache.replace]
  split
  · split
    · exact (Cache.keeps_put _ _).bind fun _ => keeps_pure _
    · exact keeps_pure _
    · exact keeps_pure _
  · exact keeps_throw _

theorem Cache.keeps_insert (c : Cache) (row : Row) : (c.insert row).Keeps Workspace.settings := by
  refine (keeps_look _).bind fun found => ?_
  split
  · exact keeps_pure _
  · exact (keeps_look _).bind fun rows => Cache.keeps_replace _ _

theorem Cache.keeps_save (c : Cache) (path : Option String) (stamp : Stamp) (content : Value) :
    (c.save path stamp content).Keeps Workspace.settings := by
  rw [Cache.save]
  split
  · refine (Cache.keeps_insert _ _).attempt.bind fun r => ?_
    split
    · exact keeps_pure _
    · exact keeps_throw _
  · exact keeps_pure _

theorem keeps_makeDirectories (path : String) : (Job.makeDirectories path).Keeps Workspace.settings := by
  intro w
  rw [outcome_makeDirectories]
  simp only [Workspace.settings, (Disk.withDirectories_spec w.disk path).here_eq]

theorem Cache.keeps_load (root : String) : (Cache.load root).Keeps Workspace.settings := by
  refine (keeps_makeDirectories _).bind fun _ => (keeps_look _).bind fun data => ?_
  split
  · exact Cache.keeps_put _ _
  · exact (Cache.keeps_put _ _).bind fun _ => keeps_throw _

theorem Cache.keeps_create (root : String) (v : Voice) : (Cache.create root v).Keeps Workspace.settings := by
  refine (Cache.keeps_load root).attempt.bind fun r => ?_
  split
  · exact (keeps_say _ _).bind fun _ => keeps_pure _
  · exact (keeps_warn _ _).bind fun _ => (keeps_warn _ _).bind fun _ => keeps_pure _

namespace Tag

theorem keeps_cached (v : Voice) (c : Cache) (file relFile : String) :
    (cached v c file relFile).Keeps Workspace.settings := by
  refine keeps_disk.bind fun d => ?_
  split
  · exact keeps_pure _
  · refine (keeps_look _).bind fun time => (keeps_look _).bind fun found => ?_
    split
    · exact keeps_pure _
    · exact (keeps_extract _ _ _).bind fun tags => (Cache.keeps_save _ _ _ _).bind fun _ => keeps_pure _

theorem ofListValue_listValue (tags : List Tag) : ofListValue (listValue tags) = tags := by
  rw [listValue, ofListValue, List.filterMap_map]
  have hvalue : ofValue? ∘ toValue = some := rfl
  rw [hvalue, List.filterMap_some]

theorem value?_listValue (tags : List Tag) : (Blob.value (listValue tags)).value? = some (listValue tags) := rfl

/-- The tags of a file are those of a row for its name and time, or are extracted and stored. -/
theorem outcome_cached {good : Row → Prop} {root file relFile : String} {bytes : List UInt8} {time : Float}
    {c : Cache} {w : Workspace} (hgood : ∀ row, good row → ∃ tags, row.content = .value (listValue tags))
    (hfit : c.Fit good root w.disk) (htagger : w.tagger = none)
    (hfile : w.disk.isFile file = true) (htime : w.disk.modifiedSeconds file = .ok time)
    (hbytes : w.disk.readBytes file = .ok bytes)
    (hnew : good ⟨some relFile, Stamp.ofFloat time, .value (listValue (inBytes file relFile bytes))⟩) (v : Voice) :
    ∃ tags c' w', (cached v c file relFile).outcome w = (.ok (tags, c'), w') ∧
      (tags = inBytes file relFile bytes ∨
        ∃ row, good row ∧ row.path = some relFile ∧ row.stamp = Stamp.ofFloat time ∧
          row.content = .value (listValue tags)) ∧
      Cache.Preserves good root w.disk w'.disk ∧ c'.Fit good root w'.disk := by
  have htimed : (Job.look (·.modifiedSeconds file)).outcome w = (.ok time, w) := by rw [outcome_look, htime]
  have hlook := outcome_look (fun d => c.get d (some relFile) (Stamp.ofFloat time)) w
  rw [cached, outcome_bind_of_ok (outcome_disk w), hfile, if_neg (by decide), outcome_bind_of_ok htimed]
  rcases hfit.find_eq relFile (Stamp.ofFloat time) with hnone | ⟨row, hrow, hpath, hstamp, hsome⟩
  · rw [Cache.get_of_find hnone nofun] at hlook
    obtain ⟨console, hextract⟩ := outcome_extract htagger hfile hbytes v relFile
    have hfit' : c.Fit good root { w with console := console }.disk := hfit
    obtain ⟨saved, c', w', hsave, hpreserves, hfit'⟩ := hfit'.outcome_save hnew
    refine ⟨_, c', w', (outcome_bind_of_ok hlook _).trans ?_, Or.inl rfl, hpreserves, hfit'⟩
    exact (outcome_bind_of_ok hextract _).trans (outcome_bind_of_ok hsave _)
  · obtain ⟨tags, htags⟩ := hgood row hrow
    rw [htags] at hsome
    rw [Cache.get_of_find hsome nofun, Option.bind_some, value?_listValue] at hlook
    refine ⟨_, c, w, outcome_bind_of_ok hlook _, Or.inr ⟨row, hrow, hpath, hstamp, ?_⟩, .refl _ _ _, hfit⟩
    rw [htags, ofListValue_listValue]

end Tag

end CodeAtlas

import CodeAtlas.Proofs.Tag.Answer

/-!
# When the database of tags fails

A cache that is asked for the tags of a file first reads its database and, if it has nothing to read there, extracts the
tags and writes them.  Each of these may fail: the database cannot be read, what is read is damaged, or the database
cannot be written.  None of these failures is dealt with: the tags of the file are not given, although they could be
extracted.

## Main definitions

* `Cache.failure?`, `Tag.failure?` — what a cache fails with, if it fails
* `Tag.Reads` — a cache reads something for a file
* `Tag.Answers` — a cache gives what it reads for a file, and otherwise what is extracted

## Main results

* `Cache.insert_ok_iff` — after a read that did not fail, a row can be written unless the database is read-only
* `Tag.cached_answers_iff` — a cache answers exactly if it does not fail, and all that it fails with
-/

namespace CodeAtlas

open Job

/-- Something of value was found exactly if it is a value other than null. -/
theorem bind_value?_eq_some {found : Option Blob} {value : Value} :
    found.bind Blob.value? = some value ↔ found = some (.value value) ∧ value ≠ .null := by
  constructor
  · intro h
    match found with
    | some (.value stored) =>
      cases stored <;> cases h <;> exact ⟨rfl, nofun⟩
  · rintro ⟨rfl, hvalue⟩
    cases value
    case null => exact absurd rfl hvalue
    all_goals rfl

namespace Cache

variable {c : Cache} {d : Disk} {w : Workspace} {path : Option String} {stamp : Stamp} {found : Option Blob}

theorem isConnected_eq {data? : Option Database} (h : c.database? d = .ok data?) : c.isConnected = data?.isSome := by
  rw [database?] at h
  rw [isConnected]
  cases hconnection : c.connection with
  | closed =>
    rw [hconnection] at h
    cases h
    rfl
  | memory data =>
    rw [hconnection] at h
    cases h
    rfl
  | file path =>
    rw [hconnection] at h
    dsimp only at h
    cases hopen : open? d path with
    | error e =>
      rw [hopen] at h
      cases h
    | ok data =>
      rw [hopen] at h
      cases h
      rfl

/-- The database in which rows were found is replaced unless it is read-only. -/
theorem replace_ok_iff {data new : Database} {rows : List Row} (hdata : c.database? w.disk = .ok (some data))
    (hrows : data.rows = some rows) :
    (∃ c' w', (c.replace new).outcome w = (.ok c', w')) ↔ c.writable = true := by
  rw [replace]
  by_cases hwritable : c.writable = true
  · simp only [hwritable, if_true, iff_true]
    cases hconnection : c.connection with
    | closed => exact ⟨c, w, rfl⟩
    | memory old => exact ⟨_, w, rfl⟩
    | file path =>
      -- rows are read from a file that is there, and such a file can be written
      obtain ⟨q, time, hlocate⟩ := locate_of_open? ((database?_of_file hconnection).1 hdata) hrows
      obtain ⟨w', hput⟩ := exists_outcome_put hlocate new
      exact ⟨c, w', outcome_bind_of_ok hput _⟩
  · rw [if_neg hwritable, iff_false_right hwritable]
    rintro ⟨c', w', h⟩
    cases h

/-- After a read that did not fail, a row can be written unless the database is read-only. -/
theorem insert_ok_iff (h : c.find w.disk path stamp = .ok found) (row : Row) :
    (∃ c' w', (c.insert row).outcome w = (.ok c', w')) ↔ (c.isConnected = true → c.writable = true) := by
  rcases find_eq_ok h with ⟨hnone, -⟩ | ⟨data, rows, hdata, hrows, -⟩
  · have hclosed : c.isConnected = false := isConnected_eq hnone
    rw [hclosed]
    exact ⟨fun _ => nofun, fun _ => ⟨c, w, outcome_insert_of_not_connected hclosed row w⟩⟩
  · have hlook : (look c.database?).outcome w = (.ok (some data), w) := by rw [outcome_look, hdata]
    have hlookRows : (look fun _ => rowsOf data).outcome w = (.ok rows, w) := by
      rw [outcome_look, rowsOf_eq_ok.2 hrows]
    have hinsert : (c.insert row).outcome w =
        (c.replace { data with rows := some (Database.store rows row) }).outcome w :=
      (outcome_bind_of_ok hlook _).trans (outcome_bind_of_ok hlookRows _)
    rw [hinsert, replace_ok_iff hdata hrows, isConnected_eq hdata]
    exact ⟨fun hwritable _ => hwritable, fun h => h rfl⟩

/-- What a cache that is asked for a name and a time fails with, if it fails. -/
def failure? (c : Cache) (d : Disk) (rel : String) (stamp : Stamp) : Option Error :=
  match c.find d (some rel) stamp with
  | .error _ => some .unreportableRead
  | .ok (some .damaged) => some .unreportableContent
  | .ok found =>
    if (found.bind Blob.value?).isNone && c.isConnected && !c.writable then some .unreportableWrite else none

end Cache

namespace Tag

variable {v : Voice} {c : Cache} {w : Workspace} {file rel : String} {q : List String} {content : Content} {time : Int}

/-- A cache reads something for a file as it was last changed. -/
def Reads (c : Cache) (d : Disk) (file rel : String) (value : Value) : Prop :=
  value ≠ .null ∧ ∃ q content time, d.locate file = .ok (.found q (.file content time)) ∧
    c.find d (some rel) (stampOf time) = .ok (some (.value value))

/-- What a cache that is asked for a file fails with, if it fails. -/
def failure? (c : Cache) (d : Disk) (file rel : String) : Option Error :=
  match d.locate file with
  | .ok (.found _ (.file _ time)) => c.failure? d rel (stampOf time)
  | _ => none

/-- A cache that is asked for a file gives what it reads, and otherwise what is extracted. -/
def Answers (v : Voice) (c : Cache) (w : Workspace) (file rel : String) : Prop :=
  ∃ tags c' w', (cached v c file rel).outcome w = (.ok (tags, c'), w') ∧
    (∀ value, Reads c w.disk file rel value → tags = ofListValue value) ∧
    ((∀ value, ¬Reads c w.disk file rel value) → ∃ w'', (extract v file rel).outcome w = (.ok tags, w''))

theorem reads_iff (hlocate : w.disk.locate file = .ok (.found q (.file content time))) {found : Option Blob}
    (hfound : c.find w.disk (some rel) (stampOf time) = .ok found) {value : Value} :
    Reads c w.disk file rel value ↔ found.bind Blob.value? = some value := by
  rw [bind_value?_eq_some]
  constructor
  · rintro ⟨hvalue, q', content', time', hlocate', hread⟩
    cases hlocate.symm.trans hlocate'
    cases hfound.symm.trans hread
    exact ⟨rfl, hvalue⟩
  · rintro ⟨rfl, hvalue⟩
    exact ⟨hvalue, q, content, time, hlocate, hfound⟩

/-- Where there is no file there is nothing to read or extract. -/
theorem answers_of_not_file (hfile : w.disk.isFile file = false) (v : Voice) (c : Cache) (rel : String) :
    Answers v c w file rel := by
  have hcached : (cached v c file rel).outcome w = (.ok ([], c), w) := by
    rw [cached, outcome_bind_of_ok (outcome_disk w), hfile]
    rfl
  obtain ⟨console, hextract⟩ := outcome_extract_of_not_file hfile v rel
  refine ⟨[], c, w, hcached, ?_, fun _ => ⟨_, hextract⟩⟩
  rintro value ⟨-, q, content, time, hlocate, -⟩
  rw [Disk.isFile_iff.2 ⟨q, content, time, hlocate⟩] at hfile
  cases hfile

/-- A cache that is asked for a file looks for the time of its last change. -/
theorem outcome_cached_of_file (hlocate : w.disk.locate file = .ok (.found q (.file content time))) (v : Voice)
    (c : Cache) (rel : String) :
    (cached v c file rel).outcome w =
      match c.get w.disk (some rel) (stampOf time) with
      | .error e => (.error e, w)
      | .ok (some value) => (.ok (ofListValue value, c), w)
      | .ok none =>
        (do let tags ← extract v file rel
            let (_, c) ← c.save (some rel) (stampOf time) (listValue tags)
            return (tags, c) : Job (List Tag × Cache)).outcome w := by
  have hfile : w.disk.isFile file = true := Disk.isFile_iff.2 ⟨q, content, time, hlocate⟩
  have htimed : (Job.look (·.modifiedSeconds file)).outcome w = (.ok (Disk.secondsOf time), w) := by
    rw [outcome_look, Disk.modifiedSeconds_of_locate hlocate]
  rw [stampOf, cached, outcome_bind_of_ok (outcome_disk w), hfile, if_neg (by decide), outcome_bind_of_ok htimed,
    outcome_bind, outcome_look]
  rcases c.get w.disk (some rel) (Stamp.ofFloat (Disk.secondsOf time)) with e | _ | value <;> rfl

/-- What a cache has nothing to read for is extracted, and is given if it can be written. -/
theorem outcome_cached_of_none (hlocate : w.disk.locate file = .ok (.found q (.file content time)))
    (hget : c.get w.disk (some rel) (stampOf time) = .ok none) (v : Voice) :
    ∃ console, (extract v file rel).outcome w = (.ok (extracted w file rel), { w with console := console }) ∧
      (cached v c file rel).outcome w =
        match (c.insert ⟨some rel, stampOf time, .value (listValue (extracted w file rel))⟩).outcome
            { w with console := console } with
        | (.ok c', w') => (.ok (extracted w file rel, c'), w')
        | (.error _, w') => (.error .unreportableWrite, w') := by
  obtain ⟨console, hextract⟩ := outcome_extracted v file rel w
  refine ⟨console, hextract, ?_⟩
  rw [outcome_cached_of_file hlocate, hget]
  dsimp only
  rw [outcome_bind_of_ok hextract, outcome_bind, Cache.outcome_save]
  rcases (c.insert _).outcome _ with ⟨_ | c', w'⟩ <;> rfl

/-- A failure leaves the job that asked. -/
theorem outcome_cached_of_failure (hlocate : w.disk.locate file = .ok (.found q (.file content time))) {e : Error}
    (h : c.failure? w.disk rel (stampOf time) = some e) (v : Voice) :
    ∃ w', (cached v c file rel).outcome w = (.error e, w') := by
  rw [Cache.failure?] at h
  split at h
  · next cause hfind =>
    cases h
    have hget : c.get w.disk (some rel) (stampOf time) = .error .unreportableRead := by rw [Cache.get, hfind]
    exact ⟨w, by rw [outcome_cached_of_file hlocate, hget]⟩
  · next hfind =>
    cases h
    have hget : c.get w.disk (some rel) (stampOf time) = .error .unreportableContent := by rw [Cache.get, hfind]
    exact ⟨w, by rw [outcome_cached_of_file hlocate, hget]⟩
  · next found hdamaged hfind =>
    split at h
    · next hwrite =>
      cases h
      simp only [Bool.and_eq_true, Option.isNone_iff_eq_none, Bool.not_eq_true'] at hwrite
      obtain ⟨⟨hnothing, hconnected⟩, hreadOnly⟩ := hwrite
      have hget := Cache.get_of_find hfind hdamaged
      rw [hnothing] at hget
      obtain ⟨console, -, hcached⟩ := outcome_cached_of_none hlocate hget v
      rw [hcached]
      -- what was read tells that nothing can be written
      have hinsert := Cache.insert_ok_iff (w := { w with console := console }) hfind
        ⟨some rel, stampOf time, .value (listValue (extracted w file rel))⟩
      rcases hrun : (c.insert _).outcome { w with console := console } with ⟨e | c', w'⟩
      · exact ⟨w', rfl⟩
      · have hwritable := hinsert.1 ⟨c', w', hrun⟩ hconnected
        rw [hreadOnly] at hwritable
        cases hwritable
    · cases h

/-- Without a failure there is an answer: what was read, or what is extracted and can then be written. -/
theorem answers_of_no_failure (hlocate : w.disk.locate file = .ok (.found q (.file content time)))
    (h : c.failure? w.disk rel (stampOf time) = none) (v : Voice) : Answers v c w file rel := by
  rw [Cache.failure?] at h
  split at h
  · cases h
  · cases h
  · next found hdamaged hfind =>
    have hget := Cache.get_of_find hfind hdamaged
    have hreads : ∀ value, Reads c w.disk file rel value ↔ found.bind Blob.value? = some value :=
      fun value => reads_iff hlocate hfind
    cases hvalue : found.bind Blob.value? with
    | some value =>
      rw [hvalue] at hget
      refine ⟨ofListValue value, c, w, by rw [outcome_cached_of_file hlocate, hget], ?_, ?_⟩
      · intro value' hread
        rw [Option.some.inj (hvalue.symm.trans ((hreads value').1 hread))]
      · intro hnone
        exact absurd ((hreads value).2 hvalue) (hnone value)
    | none =>
      rw [hvalue] at hget h
      obtain ⟨console, hextract, hcached⟩ := outcome_cached_of_none hlocate hget v
      have hwritable : c.isConnected = true → c.writable = true := by
        intro hconnected
        by_contra hreadOnly
        simp [hconnected, hreadOnly] at h
      have hinsert := (Cache.insert_ok_iff (w := { w with console := console }) hfind
        ⟨some rel, stampOf time, .value (listValue (extracted w file rel))⟩).2 hwritable
      obtain ⟨c', w', hinsert⟩ := hinsert
      refine ⟨extracted w file rel, c', w', by rw [hcached, hinsert], ?_, fun _ => ⟨_, hextract⟩⟩
      intro value hread
      cases hvalue.symm.trans ((hreads value).1 hread)

theorem failure?_of_locate (hlocate : w.disk.locate file = .ok (.found q (.file content time))) (c : Cache)
    (rel : String) : failure? c w.disk file rel = c.failure? w.disk rel (stampOf time) := by
  rw [failure?, hlocate]

/-- A cache that is asked for a file answers exactly if its database is read without a failure, what is read is not
damaged and, where nothing is read, there is no database or one that can be written.  Otherwise it fails, and with
nothing else. -/
theorem cached_answers_iff (v : Voice) (c : Cache) (file rel : String) (w : Workspace) :
    (Answers v c w file rel ↔ failure? c w.disk file rel = none) ∧
      ∀ e, (∃ w', (cached v c file rel).outcome w = (.error e, w')) ↔ failure? c w.disk file rel = some e := by
  cases hfailure : failure? c w.disk file rel with
  | none =>
    have hanswers : Answers v c w file rel := by
      by_cases hfile : w.disk.isFile file = true
      · obtain ⟨q, content, time, hlocate⟩ := Disk.isFile_iff.1 hfile
        rw [failure?_of_locate hlocate] at hfailure
        exact answers_of_no_failure hlocate hfailure v
      · exact answers_of_not_file (by simpa using hfile) v c rel
    have ⟨tags, c', w', hcached, _⟩ := hanswers
    refine ⟨iff_of_true hanswers rfl, fun e => iff_of_false ?_ nofun⟩
    rintro ⟨w'', herror⟩
    cases hcached.symm.trans herror
  | some e =>
    -- nothing fails where there is no file
    have hlocated : ∃ q content time, w.disk.locate file = .ok (.found q (.file content time)) := by
      rw [failure?] at hfailure
      split at hfailure
      · next hlocate => exact ⟨_, _, _, hlocate⟩
      · cases hfailure
    obtain ⟨q, content, time, hlocate⟩ := hlocated
    rw [failure?_of_locate hlocate] at hfailure
    obtain ⟨w', hcached⟩ := outcome_cached_of_failure hlocate hfailure v
    refine ⟨iff_of_false ?_ nofun, fun e' => ⟨?_, ?_⟩⟩
    · rintro ⟨tags, c', w'', hok, -⟩
      cases hcached.symm.trans hok
    · rintro ⟨w'', herror⟩
      cases hcached.symm.trans herror
      rfl
    · intro heq
      cases heq
      exact ⟨w', hcached⟩

/-- A file, and something else in the place of the database. -/
def overwritten : Workspace where
  disk := { root := .directory [("a.py", .file (.bytes (Text.encode "def f(): pass\n")) 0),
    ("cache.db", .file (.bytes [0, 0]) 0)] }

/-- The tags of a file are there to extract, but are not given if the file of the database was overwritten. -/
theorem not_answers_overwritten :
    ¬Answers {} { connection := .file "/cache.db" } overwritten "/a.py" "a.py" ∧
      (extracted overwritten "/a.py" "a.py").map mark = [("a.py", 1, "f", "function")] := by
  have hlocate : overwritten.disk.locate "/a.py" =
      .ok (.found ["a.py"] (.file (.bytes (Text.encode "def f(): pass\n")) 0)) := by rfl
  have hopen : Cache.open? overwritten.disk "/cache.db" = .error .notADatabase := by rfl
  have hfind : ∀ stamp, Cache.find { connection := .file "/cache.db" } overwritten.disk (some "a.py") stamp =
      .error .notADatabase := by
    intro stamp
    simp only [Cache.find, Cache.database?, hopen]
    rfl
  constructor
  · rintro ⟨tags, c', w', hok, -⟩
    have hfailure : Cache.failure? { connection := .file "/cache.db" } overwritten.disk "a.py" (stampOf 0) =
        some .unreportableRead := by rw [Cache.failure?, hfind]
    obtain ⟨w'', herror⟩ := outcome_cached_of_failure hlocate hfailure {}
    cases herror.symm.trans hok
  · rw [extracted_of_bytes rfl (Disk.isFile_iff.2 ⟨_, _, _, hlocate⟩) (Disk.readBytes_of_locate hlocate)]
    decide +kernel

end Tag

end CodeAtlas

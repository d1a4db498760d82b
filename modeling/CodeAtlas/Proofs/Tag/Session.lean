import CodeAtlas.Proofs.Listing
import CodeAtlas.Proofs.Tag.Cache

/-!
# Sessions with caches

In a session caches are opened below a root, asked for the tags of files and closed again, while files are
edited and removed.  If what a file holds is known from its name and the time of its last change, a cache
answers as if the tags were extracted anew each time.

## Main definitions

* `Session`, `Session.step`, `Session.run` — caches and what happens to them
* `Session.Allowed` — what may happen: files hold what is known from their names and times, and nobody else
  writes the database
* `Session.Recorded` — a row holds the tags of the file that it is for, at the time that it is for
* `Session.Sound` — every row that is stored anywhere is such a row

## Main results

* `Session.Sound.step`, `Session.Sound.run` — sessions stay sound
* `Session.cached_marks` — a cache answers as if the tags were extracted anew
-/

namespace CodeAtlas

/-- A workspace, and the caches that were opened in it. -/
structure Session where
  workspace : Workspace
  caches : List Cache := []

namespace Session

open Job

/-- What happens in a session. -/
inductive Event
  /-- A cache is opened. -/
  | connect (voice : Voice)
  /-- A cache is asked for the tags of a file. -/
  | ask (number : Nat) (voice : Voice) (file : String)
  | close (number : Nat)
  /-- Files are edited and removed. -/
  | edit (workspace : Workspace)

/-- The tags of a file below a root. -/
def tagsOf (root : String) (v : Voice) (c : Cache) (file : String) : Job (List Tag × Cache) := do
  let relFile ← Job.look (Listing.relativeName · root file)
  Tag.cached v c file relFile

/-- Opens a cache. -/
def connect (root : String) (s : Session) (v : Voice) : Session :=
  match (Cache.create root v).outcome s.workspace with
  | (.ok c, w) => ⟨w, s.caches ++ [c]⟩
  | (.error _, w) => ⟨w, s.caches⟩

/-- Asks a cache for the tags of a file. -/
def ask (root : String) (s : Session) (number : Nat) (c : Cache) (v : Voice) (file : String) : Session :=
  match (tagsOf root v c file).outcome s.workspace with
  | (.ok (_, c), w) => ⟨w, s.caches.set number c⟩
  | (.error _, w) => ⟨w, s.caches⟩

/-- What an event makes of a session. -/
def step (root : String) (s : Session) : Event → Session
  | .connect v => s.connect root v
  | .ask number v file =>
    match s.caches[number]? with
    | some c => s.ask root number c v file
    | none => s
  | .close number => ⟨s.workspace, s.caches.modify number Cache.close⟩
  | .edit w => ⟨w, s.caches⟩

/-- What events make of a session, one after another. -/
def run (root : String) : Session → List Event → Session := List.foldl (step root)

/-! ### What may happen -/

/-- What a file holds is known from its name below the root and the time of its last change. -/
def Determined (content : String → Stamp → List UInt8) (root : String) (d : Disk) (file : String) : Prop :=
  ∀ relFile time bytes, Listing.relativeName d root file = .ok relFile → d.modifiedSeconds file = .ok time →
    d.readBytes file = .ok bytes → bytes = content relFile (Stamp.ofFloat time)

/-- A change of files that leaves the database alone: it may be removed while no cache uses it. -/
structure Spares (root : String) (s : Session) (w : Workspace) : Prop where
  tagger : w.tagger = none
  here_eq : w.disk.here = s.workspace.disk.here
  stored : ∀ q content time, Cache.place? root w.disk = some q →
    w.disk.root.get? q = some (.file content time) → s.workspace.disk.root.get? q = some (.file content time)
  connected : (∃ c ∈ s.caches, ∃ path, c.connection = .file path) →
    w.disk.locate (Cache.file root) = s.workspace.disk.locate (Cache.file root)

/-- What may happen in a session. -/
def Allowed (content : String → Stamp → List UInt8) (root : String) (s : Session) : Event → Prop
  | .connect _ => True
  | .ask _ _ file => Determined content root s.workspace.disk file
  | .close _ => True
  | .edit w => s.Spares root w

/-- What may happen in a session, one after another. -/
def AllowedRun (content : String → Stamp → List UInt8) (root : String) : Session → List Event → Prop
  | _, [] => True
  | s, e :: es => s.Allowed content root e ∧ AllowedRun content root (s.step root e) es

/-! ### What is recorded -/

/-- A row holds the tags of a file that it is for, at the time that it is for. -/
def Recorded (content : String → Stamp → List UInt8) (root : String) (here : Option (List String))
    (row : Row) : Prop :=
  ∃ file relFile, row.path = some relFile ∧ Listing.relativeName { here := here } root file = .ok relFile ∧
    Path.IsName (Path.baseName file) ∧
    row.content = .value (Tag.listValue (Tag.inBytes file relFile (content relFile row.stamp)))

/-- A session without a tagger in which every row that is stored anywhere is recorded. -/
structure Sound (content : String → Stamp → List UInt8) (root : String) (here : Option (List String))
    (s : Session) : Prop where
  tagger : s.workspace.tagger = none
  here_eq : s.workspace.disk.here = here
  stored : Cache.Stored (Recorded content root here) root s.workspace.disk
  fit : ∀ c ∈ s.caches, c.Fit (Recorded content root here) root s.workspace.disk

variable {content : String → Stamp → List UInt8} {root : String} {here : Option (List String)} {s : Session}

/-- Names that are the same belong to files with the same last component. -/
theorem baseName_eq_of_relativeName {d : Disk} {file file' relFile : String}
    (h : Listing.relativeName d root file = .ok relFile)
    (h' : Listing.relativeName d root file' = .ok relFile) (hname : Path.IsName (Path.baseName file))
    (hname' : Path.IsName (Path.baseName file')) :
    Path.baseName file = Path.baseName file' := by
  have hempty : ∀ {x : String}, Path.IsName (Path.baseName x) → ¬x.isEmpty = true := by
    intro x hx hnil
    rw [String.isEmpty_iff] at hnil
    subst hnil
    exact hx.1 rfl
  rw [Listing.relativeName, if_neg (hempty hname)] at h
  rw [Listing.relativeName, if_neg (hempty hname')] at h'
  exact Disk.baseName_eq_of_relative h h' hname hname'

/-- What a cache that is fit answers for a file. -/
theorem outcome_cached {c : Cache} {w : Workspace} (htagger : w.tagger = none) (hhere : w.disk.here = here)
    (hfit : c.Fit (Recorded content root here) root w.disk) {file relFile : String}
    (hrel : Listing.relativeName w.disk root file = .ok relFile)
    (hdetermined : Determined content root w.disk file) (v : Voice) :
    ∃ tags c' w' raw w'', (Tag.cached v c file relFile).outcome w = (.ok (tags, c'), w') ∧
      (Tag.extract v file relFile).outcome w = (.ok raw, w'') ∧ tags.map Tag.mark = raw.map Tag.mark ∧
      Cache.Preserves (Recorded content root here) root w.disk w'.disk ∧
      c'.Fit (Recorded content root here) root w'.disk := by
  cases hfile : w.disk.isFile file with
  | false =>
    obtain ⟨console, hextract⟩ := Tag.outcome_extract_of_not_file hfile v relFile
    have hcached : (Tag.cached v c file relFile).outcome w = (.ok ([], c), w) := by
      rw [Tag.cached, outcome_bind_of_ok (outcome_disk w), hfile]
      rfl
    exact ⟨[], c, w, [], _, hcached, hextract, rfl, .refl _ _ _, hfit⟩
  | true =>
    obtain ⟨q, stored, time, hlocate⟩ := Disk.isFile_iff.1 hfile
    have hname := (Disk.baseName_of_locate hlocate).1
    have hbytes := Disk.readBytes_of_locate hlocate
    have htime := Disk.modifiedSeconds_of_locate hlocate
    have hcontent := hdetermined relFile _ _ hrel htime hbytes
    have hrel' : Listing.relativeName { here := here } root file = .ok relFile :=
      (Listing.relativeName_congr hhere.symm root file).trans hrel
    have hnew : Recorded content root here ⟨some relFile, Stamp.ofFloat (Disk.secondsOf time),
        .value (Tag.listValue (Tag.inBytes file relFile stored.toBytes))⟩ :=
      ⟨file, relFile, rfl, hrel', hname, by rw [hcontent]⟩
    obtain ⟨console, hextract⟩ := Tag.outcome_extract htagger hfile hbytes v relFile
    have hlisted : ∀ row, Recorded content root here row → ∃ tags, row.content = .value (Tag.listValue tags) := by
      rintro row ⟨_, _, _, _, _, hrow⟩
      exact ⟨_, hrow⟩
    obtain ⟨tags, c', w', hcached, htags, hpreserves, hfit'⟩ :=
      Tag.outcome_cached hlisted hfit htagger hfile htime hbytes hnew v
    refine ⟨tags, c', w', _, _, hcached, hextract, ?_, hpreserves, hfit'⟩
    rcases htags with htags | ⟨row, ⟨file', relFile', hpath, hfile', hname', hrow⟩, hpath', hstamp, htags⟩
    · rw [htags]
    · -- the row was recorded for the same name at the same time, maybe under another path
      cases hpath.symm.trans hpath'
      have hbase := baseName_eq_of_relativeName hfile' hrel' hname' hname
      have hlists := Blob.value.inj (htags.symm.trans hrow)
      rw [← Tag.ofListValue_listValue tags, hlists, Tag.ofListValue_listValue, hstamp, ← hcontent]
      exact Tag.map_mark_inBytes hbase relFile _

/-! ### What a session keeps -/

/-- A session is continued: what is stored is preserved, and the caches are fit. -/
structure Continues (content : String → Stamp → List UInt8) (root : String) (here : Option (List String))
    (s s' : Session) : Prop where
  settings : s'.workspace.settings = s.workspace.settings
  preserves : Cache.Preserves (Recorded content root here) root s.workspace.disk s'.workspace.disk
  fit : ∀ c ∈ s'.caches, c.Fit (Recorded content root here) root s'.workspace.disk

theorem Sound.continues_self (h : s.Sound content root here) : Continues content root here s s :=
  ⟨rfl, .refl _ _ _, h.fit⟩

theorem Sound.of_continues {s' : Session} (h : s.Sound content root here)
    (hs : Continues content root here s s') : s'.Sound content root here where
  tagger := (congrArg Workspace.tagger hs.settings).trans h.tagger
  here_eq := (congrArg (·.disk.here) hs.settings).trans h.here_eq
  stored := hs.preserves.stored h.stored
  fit := hs.fit

theorem Sound.connect (h : s.Sound content root here) (v : Voice) :
    Continues content root here s (s.connect root v) := by
  obtain ⟨c, w, hcreate, hpreserves, hfit⟩ := Cache.outcome_create v h.stored
  unfold Session.connect
  rw [hcreate]
  refine ⟨(Cache.keeps_create root v).of_outcome hcreate, hpreserves, fun c' hc' => ?_⟩
  rcases List.mem_append.1 hc' with hold | hnew
  · exact (h.fit c' hold).preserves hpreserves
  · rw [List.mem_singleton.1 hnew]
    exact hfit

theorem Sound.ask (h : s.Sound content root here) {number : Nat} {c : Cache} (hc : c ∈ s.caches) (v : Voice)
    {file : String} (hdetermined : Determined content root s.workspace.disk file) :
    Continues content root here s (s.ask root number c v file) := by
  have hlook := outcome_look (Listing.relativeName · root file) s.workspace
  rw [Session.ask, tagsOf, outcome_bind, hlook]
  cases hrel : Listing.relativeName s.workspace.disk root file with
  | error e => exact h.continues_self
  | ok relFile =>
    obtain ⟨tags, c', w, _, _, hcached, -, -, hpreserves, hfit⟩ :=
      outcome_cached h.tagger h.here_eq (h.fit c hc) hrel hdetermined v
    dsimp only
    rw [hcached]
    refine ⟨(Tag.keeps_cached _ _ _ _).of_outcome hcached, hpreserves, fun other hother => ?_⟩
    rcases List.mem_or_eq_of_mem_set hother with hold | rfl
    · exact (h.fit other hold).preserves hpreserves
    · exact hfit

theorem Sound.close (h : s.Sound content root here) (number : Nat) :
    Continues content root here s ⟨s.workspace, s.caches.modify number Cache.close⟩ := by
  refine ⟨rfl, .refl _ _ _, fun c hc => ?_⟩
  obtain ⟨i, hi⟩ := List.mem_iff_getElem?.1 hc
  rw [List.getElem?_modify] at hi
  obtain ⟨old, hold, rfl⟩ := Option.map_eq_some_iff.1 hi
  have hfit := h.fit old (List.mem_of_getElem? hold)
  split
  · exact ⟨hfit.1, trivial⟩
  · exact hfit

theorem Sound.edit (h : s.Sound content root here) {w : Workspace} (hspares : s.Spares root w) :
    (⟨w, s.caches⟩ : Session).Sound content root here where
  tagger := hspares.tagger
  here_eq := hspares.here_eq.trans h.here_eq
  stored q c time hplace hget := by
    have hplace' : Cache.place? root s.workspace.disk = some q :=
      (Cache.place?_congr hspares.here_eq).symm.trans hplace
    exact h.stored q c time hplace' (hspares.stored q c time hplace hget)
  fit c hc := by
    refine Cache.fit_iff.2 ((Cache.fit_iff.1 (h.fit c hc)).imp_right (Or.imp_left ?_))
    rintro ⟨hfile, q, data, time, hlocate, hdata⟩
    exact ⟨hfile, q, data, time, (hspares.connected ⟨c, hc, _, hfile⟩).trans hlocate, hdata⟩

/-- What one event preserves. -/
theorem Sound.step (h : s.Sound content root here) {e : Event} (hallowed : s.Allowed content root e) :
    (s.step root e).Sound content root here := by
  cases e with
  | connect v => exact h.of_continues (h.connect v)
  | ask number v file =>
    rw [Session.step]
    split
    · next c hnumber => exact h.of_continues (h.ask (List.mem_of_getElem? hnumber) v hallowed)
    · exact h
  | close number => exact h.of_continues (h.close number)
  | edit w => exact h.edit hallowed

/-- What a whole session preserves. -/
theorem Sound.run {es : List Event} (h : s.Sound content root here)
    (hallowed : AllowedRun content root s es) : (s.run root es).Sound content root here := by
  induction es generalizing s with
  | nil => exact h
  | cons e es ih => exact ih (h.step hallowed.1) hallowed.2

theorem sound_start {w : Workspace} (htagger : w.tagger = none) (habsent : Cache.Absent root w.disk) :
    Sound content root w.disk.here ⟨w, []⟩ :=
  ⟨htagger, rfl, habsent.stored, by simp⟩

/-- A cache answers as if the tags were extracted anew: in a session that starts without a database,
whatever happens in it, and up to the paths under which files are given. -/
theorem cached_marks {w : Workspace} (htagger : w.tagger = none) (habsent : Cache.Absent root w.disk)
    {es : List Event} (hallowed : AllowedRun content root ⟨w, []⟩ es) {c : Cache}
    (hc : c ∈ (run root ⟨w, []⟩ es).caches) {file relFile : String}
    (hrel : Listing.relativeName (run root ⟨w, []⟩ es).workspace.disk root file = .ok relFile)
    (hdetermined : Determined content root (run root ⟨w, []⟩ es).workspace.disk file) (v : Voice) :
    ∃ tags c' w' raw w'',
      (Tag.cached v c file relFile).outcome (run root ⟨w, []⟩ es).workspace = (.ok (tags, c'), w') ∧
      (Tag.extract v file relFile).outcome (run root ⟨w, []⟩ es).workspace = (.ok raw, w'') ∧
      tags.map Tag.mark = raw.map Tag.mark := by
  have hsound := (sound_start htagger habsent).run hallowed
  obtain ⟨tags, c', w', raw, w'', hcached, hextract, hmarks, -, -⟩ :=
    outcome_cached hsound.tagger hsound.here_eq (hsound.fit c hc) hrel hdetermined v
  exact ⟨tags, c', w', raw, w'', hcached, hextract, hmarks⟩

/-- A workspace with one file. -/
def oneFile (text : String) (time : Int) : Workspace where
  disk := { root := .directory [("r", .directory [("a.py", .file (.bytes (Text.encode text)) time)])] }

theorem place?_eq {d : Disk} (h : d.here = some []) :
    Cache.place? "/r" d = some ["r", ".repomap.tags.cache.v4", "cache.db"] := by
  have hroot : Cache.place? "/r" {} = some ["r", ".repomap.tags.cache.v4", "cache.db"] := by decide +kernel
  rw [← hroot]
  exact Cache.place?_congr h

theorem absent_oneFile (text : String) (time : Int) : Cache.Absent "/r" (oneFile text time).disk := by
  intro q stored time' hplace
  rw [place?_eq rfl, Option.some.injEq] at hplace
  subst hplace
  exact nofun

/-- What the file holds after it was edited. -/
def edited : Content := .bytes (Text.encode "def f():\n")

/-- What is known of the file when it is asked for. -/
def known : String → Stamp → List UInt8 := fun _ _ => edited.toBytes

/-- The file with what it holds after it was edited. -/
def FileEdited (d : Disk) : Prop := d.locate "/r/a.py" = .ok (.found ["r", "a.py"] (.file edited 1))

theorem FileEdited.determined {d : Disk} (h : FileEdited d) : Determined known "/r" d "/r/a.py" := by
  intro relFile time bytes _ _ hbytes
  rw [Disk.readBytes_of_locate h] at hbytes
  cases hbytes
  rfl

theorem FileEdited.continues {s' : Session} (h : FileEdited s.workspace.disk)
    (hhere : s.workspace.disk.here = some []) (hs : Continues known "/r" (some []) s s') :
    FileEdited s'.workspace.disk := by
  refine hs.preserves.locate_eq h ?_
  rw [place?_eq hhere]
  decide

/-- The file is edited, and a cache is opened and asked for its tags. -/
def editAndAsk : List Event := [.edit (oneFile "def f():\n" 1), .connect {}, .ask 0 {} "/r/a.py"]

/-- The session after the cache was opened. -/
def opened : Session := connect "/r" ⟨oneFile "def f():\n" 1, []⟩ {}

/-- The session after the cache was asked. -/
def asked : Session := run "/r" ⟨oneFile "" 0, []⟩ editAndAsk

theorem opened_spec :
    Sound known "/r" (some []) opened ∧ FileEdited opened.workspace.disk ∧ ∃ c, opened.caches = [c] := by
  have hstart : Sound known "/r" (some []) ⟨oneFile "def f():\n" 1, []⟩ := sound_start rfl (absent_oneFile _ _)
  have hfile : FileEdited (oneFile "def f():\n" 1).disk := by rfl
  have hopened := hstart.connect {}
  have hone : opened.caches.length = 1 := by decide +kernel
  exact ⟨hstart.of_continues hopened, hfile.continues rfl hopened, List.length_eq_one_iff.1 hone⟩

theorem length_caches_ask (s : Session) (number : Nat) (c : Cache) (v : Voice) (file : String) :
    (s.ask root number c v file).caches.length = s.caches.length := by
  rw [Session.ask]
  split
  · exact List.length_set
  · rfl

theorem asked_spec :
    AllowedRun known "/r" ⟨oneFile "" 0, []⟩ editAndAsk ∧ Sound known "/r" (some []) asked ∧
      FileEdited asked.workspace.disk ∧ ∃ c, asked.caches = [c] := by
  obtain ⟨hopened, hfile, c, hcaches⟩ := opened_spec
  have hasked : asked = opened.ask "/r" 0 c {} "/r/a.py" := by
    have hrun : asked = opened.step "/r" (.ask 0 {} "/r/a.py") := by rfl
    simp only [hrun, step, hcaches, List.getElem?_cons_zero]
  have hcontinues : Continues known "/r" (some []) opened asked := by
    rw [hasked]
    exact hopened.ask (by simp [hcaches]) {} hfile.determined
  have hspares : Spares "/r" ⟨oneFile "" 0, []⟩ (oneFile "def f():\n" 1) := by
    refine ⟨rfl, rfl, fun q stored time hplace hget => ?_, by simp⟩
    exact absurd hget (absent_oneFile _ _ q stored time hplace)
  have hone : asked.caches.length = 1 := by rw [hasked, length_caches_ask, hcaches, List.length_singleton]
  exact ⟨⟨hspares, trivial, hfile.determined, trivial⟩, hopened.of_continues hcontinues,
    hfile.continues hopened.here_eq hcontinues, List.length_eq_one_iff.1 hone⟩

theorem FileEdited.extract {w : Workspace} (h : FileEdited w.disk) (htagger : w.tagger = none)
    {raw : List Tag} {w' : Workspace} (hraw : (Tag.extract {} "/r/a.py" "a.py").outcome w = (.ok raw, w')) :
    raw.map Tag.mark = [("a.py", 1, "f", "function")] := by
  obtain ⟨console, hextract⟩ :=
    Tag.outcome_extract htagger (Disk.isFile_iff.2 ⟨_, _, _, h⟩) (Disk.readBytes_of_locate h) {} "a.py"
  cases hextract.symm.trans hraw
  decide +kernel

/-- A file is edited, and a cache is asked for its tags twice. -/
theorem cached_marks_again :
    ∃ c, asked.caches = [c] ∧ ∃ tags c' w' raw w'',
      (Tag.cached {} c "/r/a.py" "a.py").outcome asked.workspace = (.ok (tags, c'), w') ∧
      (Tag.extract {} "/r/a.py" "a.py").outcome asked.workspace = (.ok raw, w'') ∧
      tags.map Tag.mark = raw.map Tag.mark ∧ raw.map Tag.mark = [("a.py", 1, "f", "function")] := by
  obtain ⟨hallowed, hsound, hfile, c, hc⟩ := asked_spec
  have hmem : c ∈ asked.caches := by simp [hc]
  have hrel : Listing.relativeName asked.workspace.disk "/r" "/r/a.py" = .ok "a.py" :=
    (Listing.relativeName_congr (d := {}) hsound.here_eq _ _).trans rfl
  obtain ⟨tags, c', w', raw, w'', hcached, hextract, hmarks⟩ :=
    cached_marks rfl (absent_oneFile _ _) hallowed hmem hrel hfile.determined {}
  exact ⟨c, hc, tags, c', w', raw, w'', hcached, hextract, hmarks, hfile.extract hsound.tagger hextract⟩

end Session

end CodeAtlas

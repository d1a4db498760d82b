import CodeAtlas.Files.Access
import CodeAtlas.Proofs.Disk.Alike
import CodeAtlas.Proofs.Job
import CodeAtlas.Proofs.Text.Physical
import CodeAtlas.Proofs.Text.Utf8

/-!
# What an access to files remembers, and what the files hold

An access answers from memory where it can.  What it remembers of a file that nobody has written is what
the file holds.  A file that was written holds what the last call has left there that opened it, under
whatever path: its whole text, or nothing if that text could not be stored.  So an answer from memory can
be out of date in three ways.  The file was written under another path.  The file was emptied by a call that
failed.  Or its text has carriage returns, which are folded by reading but not by remembering.

## Main definitions

* `Access.Call`, `Access.Call.make` — what is asked of an access
* `Access.Call.opens` — the file that a call opens, and the text that it leaves there
* `Access.Course` — calls one after another, with the texts that they have left
* `Access.Rereads` — a text is what a new access reads
* `Access.Sound` — what holds of the memory and of the files after any calls

## Main results

* `Access.Course.next_cases` — what one call can do
* `Access.Sound.after` — memory and files after any calls
* `Access.rereads_iff` — when an answer is what a new access reads
-/

namespace CodeAtlas

open Job

namespace Disk

variable {d d' : Disk} {p path : String} {q q' : List String} {c : Content} {m : Int} {text : String}

theorem readLossy_of_locate (h : d.locate p = .ok (.found q (.file c m))) :
    d.readLossy p = .ok (Text.foldNewlines (Text.decodeLossy c.toBytes)) := by
  rw [readLossy, readBytes_of_locate h]
  rfl

theorem exists_of_readLossy (h : d.readLossy p = .ok text) :
    ∃ q c m, d.locate p = .ok (.found q (.file c m)) := by
  rw [readLossy] at h
  cases hread : d.readBytes p with
  | error e =>
    rw [hread] at h
    cases h
  | ok bytes =>
    obtain ⟨q, c, m, hlocate, -⟩ := readBytes_eq_ok.1 hread
    exact ⟨q, c, m, hlocate⟩

theorem Grown.locate_file (h : Grown d d') (hlocate : d.locate p = .ok (.found q (.file c m))) :
    d'.locate p = .ok (.found q (.file c m)) := by
  obtain ⟨start, hstart, hleads⟩ := locate_eq_ok.1 hlocate
  exact locate_eq_ok.2 ⟨start, (start?_congr h.here_eq p).trans hstart, hleads.kept h.kept trivial⟩

/-- A text is in the file where a path leads to, and the other files are as they were. -/
structure Wrote (d d' : Disk) (path : String) (q : List String) (text : String) : Prop where
  here_eq : d'.here = d.here
  locate : ∃ time, d'.locate path = .ok (.found q (.file (.bytes (Text.encode text)) time))
  kept : Tree.Kept (· ≠ q) d.root d'.root

namespace Wrote

theorem get?_eq (h : Wrote d d' path q text) :
    ∃ time, d'.root.get? q = some (.file (.bytes (Text.encode text)) time) := by
  obtain ⟨time, hlocate⟩ := h.locate
  obtain ⟨start, -, hleads⟩ := locate_eq_ok.1 hlocate
  exact ⟨time, hleads.get?_found⟩

theorem locate_of_ne (h : Wrote d d' path q text) (hlocate : d.locate p = .ok (.found q' (.file c m)))
    (hq : q' ≠ q) : d'.locate p = .ok (.found q' (.file c m)) := by
  obtain ⟨start, hstart, hleads⟩ := locate_eq_ok.1 hlocate
  exact locate_eq_ok.2 ⟨start, (start?_congr h.here_eq p).trans hstart, hleads.kept h.kept hq⟩

theorem locate_self (h : Wrote d d' path q text) (hlocate : d.locate p = .ok (.found q (.file c m))) :
    ∃ time, d'.locate p = .ok (.found q (.file (.bytes (Text.encode text)) time)) := by
  obtain ⟨time, hget⟩ := h.get?_eq
  obtain ⟨start, hstart, hleads⟩ := locate_eq_ok.1 hlocate
  exact ⟨time, locate_eq_ok.2 ⟨start, (start?_congr h.here_eq p).trans hstart,
    hleads.found_congr h.kept.directory hget⟩⟩

end Wrote

theorem Grown.wrote {d₁ : Disk} (h : Grown d d₁) (hwrote : Wrote d₁ d' path q text) : Wrote d d' path q text where
  here_eq := hwrote.here_eq.trans h.here_eq
  locate := hwrote.locate
  kept := (h.kept.mono fun _ _ => trivial).trans hwrote.kept

theorem wrote_of_write {time : Int} (h : d.write path text time = .ok d') : ∃ q, Wrote d d' path q text := by
  obtain ⟨hhere, q, hlocate, hkept⟩ := writeContent_spec h
  exact ⟨q, hhere, ⟨time, hlocate⟩, hkept⟩

/-- A file that was just written can be written again. -/
theorem Wrote.write {d₁ : Disk} {other : String} (h : Wrote d d₁ path q other) (text : String) (time : Int) :
    ∃ d', d₁.write path text time = .ok d' ∧ Wrote d d' path q text := by
  obtain ⟨time', hlocate⟩ := h.locate
  have hwrite : d₁.write path text time = .ok (d₁.putAt q (.file (.bytes (Text.encode text)) time)) :=
    writeContent_of_file hlocate
  obtain ⟨hhere, q', hlocate', hkept⟩ := writeContent_spec hwrite
  have hq : q' = q := place_eq hhere hlocate hlocate'
  subst hq
  exact ⟨_, hwrite, hhere.trans h.here_eq, ⟨time, hlocate'⟩, h.kept.trans hkept⟩

end Disk

namespace Access

/-- What is asked of an access. -/
inductive Call
  | read (path : String)
  | write (path : String) (draft : Text.Draft)

namespace Call

/-- The path that a call names. -/
def path : Call → String
  | read path => path
  | write path _ => path

/-- Makes a call. -/
def make (a : Access) : Call → Job Access
  | read path => do
    let (_, a) ← a.read path
    return a
  | write path draft => do
    let (_, a) ← a.write path draft
    return a

/-- The text that a draft leaves in a file: nothing if it cannot be stored. -/
def leaves (draft : Text.Draft) : String := draft.text.toOption.getD ""

/-- The place of the file that a call opens for writing, and the text that it leaves there. -/
def opens (w : Workspace) : Call → Option (List String × String)
  | read _ => none
  | write path draft =>
    match (clear path).outcome w with
    | (.ok (), w') =>
      match w'.disk.locate path with
      | .ok place => some (place.names, leaves draft)
      | .error _ => none
    | (.error _, _) => none

end Call

/-- An access at work in a workspace, with the texts that its calls have left in files. -/
structure Course where
  access : Access
  workspace : Workspace
  left : List String → Option String := fun _ => none

namespace Course

/-- An access that remembers nothing. -/
def start (quiet : Bool) (w : Workspace) : Course where
  access := { quiet }
  workspace := w

/-- One call more. -/
def next (s : Course) (c : Call) : Course where
  access := ((c.make s.access).outcome s.workspace).1.toOption.getD s.access
  workspace := ((c.make s.access).outcome s.workspace).2
  left q :=
    match c.opens s.workspace with
    | some (place, text) => if q = place then some text else s.left q
    | none => s.left q

/-- Calls one after another. -/
def after (s : Course) (calls : List Call) : Course := calls.foldl next s

end Course

/-! ### What one call can do -/

variable {a : Access} {path text : String} {draft : Text.Draft} {w w' : Workspace}

theorem read_of_lookup (h : a.remembered.lookup path = some text) (w : Workspace) :
    (a.read path).outcome w = (.ok (some text, a), w) := by
  rw [read, h]
  rfl

theorem read_of_readLossy (h : a.remembered.lookup path = none) (hread : w.disk.readLossy path = .ok text) :
    (a.read path).outcome w = (.ok (some text, a.remember path text), w) := by
  rw [read, h]
  dsimp only
  rw [outcome_bind_of_ok (outcome_disk w), hread]
  rfl

theorem read_of_failure {e : Error} (h : a.remembered.lookup path = none)
    (hread : w.disk.readLossy path = .error e) :
    ∃ console, (a.read path).outcome w = (.ok (none, a), { w with console := console }) := by
  rw [read, h]
  dsimp only
  rw [outcome_bind_of_ok (outcome_disk w), hread]
  exact ⟨_, rfl⟩

/-- A file is opened, or at most directories were made. -/
theorem outcome_clear (path : String) (w : Workspace) :
    (∃ w' q, (clear path).outcome w = (.ok (), w') ∧ w.disk.Wrote w'.disk path q "") ∨
      ∃ e w', (clear path).outcome w = (.error e, w') ∧ w.disk.Grown w'.disk := by
  rw [clear, outcome_bind, outcome_look]
  cases w.disk.absolute path with
  | error e => exact Or.inr ⟨e, w, rfl, .refl _⟩
  | ok whole =>
    have hgrown := Disk.withDirectories_spec w.disk (Path.directory whole)
    dsimp only
    rw [outcome_bind, outcome_makeDirectories]
    rcases hmake : w.disk.withDirectories (Path.directory whole) with ⟨d, e | _⟩ <;> rw [hmake] at hgrown
    · exact Or.inr ⟨e, _, rfl, hgrown⟩
    · dsimp only
      rw [Job.write, outcome_bind_of_ok (outcome_get _), outcome_change]
      cases hwrite : d.write path "" w.now with
      | error e => exact Or.inr ⟨e, _, rfl, hgrown⟩
      | ok d' =>
        obtain ⟨q, hwrote⟩ := Disk.wrote_of_write hwrite
        exact Or.inl ⟨_, q, rfl, hgrown.wrote hwrote⟩

/-- What becomes of a text that is to be written. -/
theorem outcome_put (path : String) (draft : Text.Draft) (w : Workspace) :
    (∃ w' q, (put path draft).outcome w = (draft.text.mapError .notStorable, w') ∧
      (Call.write path draft).opens w = some (q, Call.leaves draft) ∧
      w.disk.Wrote w'.disk path q (Call.leaves draft)) ∨
    ∃ e w', (put path draft).outcome w = (.error e, w') ∧ (Call.write path draft).opens w = none ∧
      w.disk.Grown w'.disk := by
  rcases outcome_clear path w with ⟨w₁, q, hclear, hwrote⟩ | ⟨e, w₁, hclear, hgrown⟩
  · left
    obtain ⟨time, hlocate⟩ := hwrote.locate
    have hopens : (Call.write path draft).opens w = some (q, Call.leaves draft) := by
      simp only [Call.opens, hclear, hlocate, Place.names]
    rw [put, outcome_bind_of_ok hclear]
    cases hdraft : draft.text with
    | error fault =>
      have hleaves : Call.leaves draft = "" := by rw [Call.leaves, hdraft]; rfl
      exact ⟨w₁, q, rfl, hopens, hleaves ▸ hwrote⟩
    | ok text =>
      have hleaves : Call.leaves draft = text := by rw [Call.leaves, hdraft]; rfl
      obtain ⟨d', hwrite, hwrote'⟩ := hwrote.write text w₁.now
      have hjob : (Job.write path text).outcome w₁ = (.ok (), { w₁ with disk := d' }) := by
        rw [Job.write, outcome_bind_of_ok (outcome_get _), outcome_change, hwrite]
      refine ⟨{ w₁ with disk := d' }, q, ?_, hopens, hleaves ▸ hwrote'⟩
      dsimp only
      rw [outcome_bind_of_ok hjob]
      rfl
  · right
    have hopens : (Call.write path draft).opens w = none := by simp only [Call.opens, hclear]
    refine ⟨e, w₁, ?_, hopens, hgrown⟩
    rw [put, outcome_bind, hclear]

namespace Course

variable {s : Course} {c : Call}

/-- What one call can do: it opens no file, and changes the memory only by what it reads; or it writes a file, and
remembers the text if that can be stored. -/
theorem next_cases (s : Course) (c : Call) :
    ((s.next c).left = s.left ∧ s.workspace.disk.Grown (s.next c).workspace.disk ∧
      ((s.next c).access = s.access ∨
        ∃ text, s.access.remembered.lookup c.path = none ∧
          (s.next c).workspace.disk.readLossy c.path = .ok text ∧
          (s.next c).access = s.access.remember c.path text)) ∨
    ∃ path draft q, c = .write path draft ∧
      (∀ q', (s.next c).left q' = if q' = q then some (Call.leaves draft) else s.left q') ∧
      s.workspace.disk.Wrote (s.next c).workspace.disk path q (Call.leaves draft) ∧
      ((draft.text.toOption = none ∧ (s.next c).access = s.access) ∨
        draft.text = .ok (Call.leaves draft) ∧ (s.next c).access = s.access.remember path (Call.leaves draft)) := by
  cases c with
  | read path =>
    refine Or.inl ⟨rfl, ?_⟩
    rw [next, Call.make]
    dsimp only [Call.path]
    cases hlookup : s.access.remembered.lookup path with
    | some text =>
      rw [outcome_bind_of_ok (read_of_lookup hlookup s.workspace)]
      exact ⟨.refl _, Or.inl rfl⟩
    | none =>
      cases hread : s.workspace.disk.readLossy path with
      | ok text =>
        rw [outcome_bind_of_ok (read_of_readLossy hlookup hread)]
        exact ⟨.refl _, Or.inr ⟨text, rfl, hread, rfl⟩⟩
      | error e =>
        obtain ⟨console, hfailed⟩ := read_of_failure hlookup hread
        rw [outcome_bind_of_ok hfailed]
        exact ⟨.refl _, Or.inl rfl⟩
  | write path draft =>
    have hattempt := outcome_attempt (put path draft) s.workspace
    rw [next]
    rcases outcome_put path draft s.workspace with ⟨w', q, hput, hopens, hwrote⟩ | ⟨e, w', hput, hopens, hgrown⟩
    · refine Or.inr ⟨path, draft, q, rfl, ?_⟩
      rw [hput] at hattempt
      rw [hopens, Call.make, outcome_bind, Access.write, outcome_bind_of_ok hattempt]
      cases hdraft : draft.text with
      | error fault =>
        exact ⟨fun _ => rfl, hwrote, Or.inl ⟨rfl, rfl⟩⟩
      | ok text =>
        have hleaves : Call.leaves draft = text := by rw [Call.leaves, hdraft]; rfl
        rw [hleaves] at hwrote ⊢
        exact ⟨fun _ => rfl, hwrote, Or.inr ⟨rfl, rfl⟩⟩
    · rw [hput] at hattempt
      rw [hopens, Call.make, outcome_bind, Access.write, outcome_bind_of_ok hattempt]
      exact Or.inl ⟨rfl, hgrown, Or.inl rfl⟩

end Course

/-! ### Memory and files after any calls -/

theorem lookup_filter_ne {entries : List (String × String)} {p p' : String} (h : p' ≠ p) :
    (entries.filter (·.1 != p)).lookup p' = entries.lookup p' := by
  induction entries with
  | nil => rfl
  | cons e entries ih =>
    obtain ⟨k, t⟩ := e
    by_cases hk : k = p
    · have hother : (p' == k) = false := by simpa [hk] using h
      rw [List.filter_cons_of_neg (by simpa using hk), ih, List.lookup_cons, hother]
    · rw [List.filter_cons_of_pos (by simpa using hk), List.lookup_cons, List.lookup_cons, ih]

theorem lookup_remember (a : Access) (p text p' : String) :
    (a.remember p text).remembered.lookup p' = if p' = p then some text else a.remembered.lookup p' := by
  rw [remember, List.lookup_append]
  by_cases h : p' = p
  · have hnone : (a.remembered.filter (·.1 != p)).lookup p = none := by
      rw [List.lookup_eq_none_iff]
      intro e he
      have hne : e.1 ≠ p := by simpa using (List.mem_filter.1 he).2
      simpa using hne.symm
    subst h
    rw [hnone, if_pos rfl]
    simp
  · have hother : (p' == p) = false := by simpa using h
    rw [lookup_filter_ne h, if_neg h, List.lookup_cons, hother]
    simp

/-- What holds of the memory and of the files: a file that was opened holds what was left there, and what is
remembered of a file that was not opened is what it holds. -/
structure Sound (s : Course) : Prop where
  holds : ∀ q text, s.left q = some text →
    ∃ time, s.workspace.disk.root.get? q = some (.file (.bytes (Text.encode text)) time)
  remembers : ∀ path text, s.access.remembered.lookup path = some text →
    ∃ q c m, s.workspace.disk.locate path = .ok (.found q (.file c m)) ∧
      (s.left q = none → text = Text.foldNewlines (Text.decodeLossy c.toBytes))

namespace Sound

variable {s : Course}

theorem start (quiet : Bool) (w : Workspace) : Sound (.start quiet w) where
  holds _ _ h := by cases h
  remembers _ _ h := by cases h

/-- A call that opens no file. -/
theorem grow {s' : Course} (h : Sound s) (hleft : s'.left = s.left)
    (hgrown : s.workspace.disk.Grown s'.workspace.disk)
    (hmemory : s'.access = s.access ∨ ∃ path text, s'.workspace.disk.readLossy path = .ok text ∧
      s'.access = s.access.remember path text) : Sound s' := by
  have hkept : ∀ path text, s.access.remembered.lookup path = some text →
      ∃ q c m, s'.workspace.disk.locate path = .ok (.found q (.file c m)) ∧
        (s'.left q = none → text = Text.foldNewlines (Text.decodeLossy c.toBytes)) := by
    intro path text hlookup
    obtain ⟨q, c, m, hlocate, htext⟩ := h.remembers path text hlookup
    exact ⟨q, c, m, hgrown.locate_file hlocate, hleft ▸ htext⟩
  constructor
  · intro q text hq
    obtain ⟨time, hget⟩ := h.holds q text (hleft ▸ hq)
    exact ⟨time, (hgrown.kept.file q trivial _ _).2 hget⟩
  · intro path text hlookup
    rcases hmemory with heq | ⟨path', text', hread, heq⟩
    · exact hkept path text (heq ▸ hlookup)
    · rw [heq, lookup_remember] at hlookup
      by_cases hpath : path = path'
      · rw [if_pos hpath] at hlookup
        cases hlookup
        subst hpath
        obtain ⟨q, c, m, hlocate⟩ := Disk.exists_of_readLossy hread
        rw [Disk.readLossy_of_locate hlocate] at hread
        exact ⟨q, c, m, hlocate, fun _ => (Except.ok.inj hread).symm⟩
      · rw [if_neg hpath] at hlookup
        exact hkept path text hlookup

/-- A call that opens the file at a place. -/
theorem wrote {s' : Course} {path text : String} {q : List String} (h : Sound s)
    (hleft : ∀ q', s'.left q' = if q' = q then some text else s.left q')
    (hwrote : s.workspace.disk.Wrote s'.workspace.disk path q text)
    (hmemory : s'.access = s.access ∨ s'.access = s.access.remember path text) : Sound s' := by
  have hself : s'.left q = some text := by rw [hleft, if_pos rfl]
  -- what was remembered of the file at the place is no longer claimed to be there
  have hkept : ∀ path' text', s.access.remembered.lookup path' = some text' →
      ∃ q' c m, s'.workspace.disk.locate path' = .ok (.found q' (.file c m)) ∧
        (s'.left q' = none → text' = Text.foldNewlines (Text.decodeLossy c.toBytes)) := by
    intro path' text' hlookup
    obtain ⟨q', c, m, hlocate, htext⟩ := h.remembers path' text' hlookup
    by_cases hq : q' = q
    · subst hq
      obtain ⟨time, hlocate'⟩ := hwrote.locate_self hlocate
      exact ⟨q', _, time, hlocate', fun hnone => by rw [hself] at hnone; cases hnone⟩
    · refine ⟨q', c, m, hwrote.locate_of_ne hlocate hq, ?_⟩
      rw [hleft, if_neg hq]
      exact htext
  constructor
  · intro q' text' hq'
    rw [hleft] at hq'
    by_cases hq : q' = q
    · rw [if_pos hq] at hq'
      cases hq'
      rw [hq]
      exact hwrote.get?_eq
    · rw [if_neg hq] at hq'
      obtain ⟨time, hget⟩ := h.holds q' text' hq'
      exact ⟨time, (hwrote.kept.file q' hq _ _).2 hget⟩
  · intro path' text' hlookup
    rcases hmemory with heq | heq
    · exact hkept path' text' (heq ▸ hlookup)
    · rw [heq, lookup_remember] at hlookup
      by_cases hpath : path' = path
      · subst hpath
        obtain ⟨time, hlocate⟩ := hwrote.locate
        exact ⟨q, _, time, hlocate, fun hnone => by rw [hself] at hnone; cases hnone⟩
      · rw [if_neg hpath] at hlookup
        exact hkept path' text' hlookup

theorem next (h : Sound s) (c : Call) : Sound (s.next c) := by
  rcases s.next_cases c with ⟨hleft, hgrown, hmemory⟩ | ⟨path, draft, q, -, hleft, hwrote, hmemory⟩
  · exact h.grow hleft hgrown (hmemory.imp_right fun ⟨text, _, hread, heq⟩ => ⟨_, text, hread, heq⟩)
  · exact h.wrote hleft hwrote (hmemory.imp And.right And.right)

/-- What holds after any calls. -/
theorem after (h : Sound s) (calls : List Call) : Sound (s.after calls) := by
  induction calls generalizing s with
  | nil => exact h
  | cons c calls ih => exact ih (h.next c)

end Sound

/-- A text is what a new access reads. -/
def Rereads (w : Workspace) (path text : String) : Prop :=
  ∃ a w', (({} : Access).read path).outcome w = (.ok (some text, a), w')

theorem rereads_eq : Rereads w path text ↔ w.disk.readLossy path = .ok text := by
  constructor
  · rintro ⟨a, w', h⟩
    cases hread : w.disk.readLossy path with
    | ok text' =>
      rw [read_of_readLossy rfl hread] at h
      cases h
      rfl
    | error e =>
      obtain ⟨console, hfailed⟩ := read_of_failure (a := {}) rfl hread
      rw [hfailed] at h
      cases h
  · exact fun h => ⟨_, w, read_of_readLossy rfl h⟩

/-- An answer comes from memory, or else it is what the file holds. -/
theorem lookup_or_rereads {a' : Access} (h : (a.read path).outcome w = (.ok (some text, a'), w')) :
    a.remembered.lookup path = some text ∨ w.disk.readLossy path = .ok text := by
  cases hlookup : a.remembered.lookup path with
  | some text' =>
    rw [read_of_lookup hlookup] at h
    cases h
    exact Or.inl rfl
  | none =>
    cases hread : w.disk.readLossy path with
    | ok text' =>
      rw [read_of_readLossy hlookup hread] at h
      cases h
      exact Or.inr rfl
    | error e =>
      obtain ⟨console, hfailed⟩ := read_of_failure hlookup hread
      rw [hfailed] at h
      cases h

/-- What is read of a file that was opened is what was left there, with its line ends folded. -/
theorem Sound.readLossy_of_left {s : Course} (h : Sound s) {q : List String} {t : Tree} {c : String}
    (hlocate : s.workspace.disk.locate path = .ok (.found q t)) (hleft : s.left q = some c) :
    s.workspace.disk.readLossy path = .ok (Text.foldNewlines c) := by
  obtain ⟨time, hget⟩ := h.holds q c hleft
  obtain ⟨start, -, hleads⟩ := Disk.locate_eq_ok.1 hlocate
  cases hleads.get?_found.symm.trans hget
  rw [Disk.readLossy_of_locate hlocate]
  show Except.ok (Text.foldNewlines (Text.decodeLossy (Text.encode c))) = _
  rw [Text.decodeLossy_encode]

/-! ### Files with one path each -/

/-- A call that writes only what can be stored and has no carriage returns. -/
def Call.Plain (c : Call) : Prop :=
  ∀ path draft, c = .write path draft → ∃ text, draft.text = .ok text ∧ '\r' ∉ text.toList

/-- What was left in files is remembered under one of the paths of the calls. -/
def Recalls (paths : List String) (s : Course) : Prop :=
  ∀ q text, s.left q = some text → ∃ path ∈ paths,
    (∃ c m, s.workspace.disk.locate path = .ok (.found q (.file c m))) ∧
      s.access.remembered.lookup path = some text ∧ '\r' ∉ text.toList

theorem Recalls.next {s : Course} {paths : List String} (h : Recalls paths s) {c : Call} (hplain : c.Plain)
    (hpath : c.path ∈ paths) : Recalls paths (s.next c) := by
  rcases s.next_cases c with ⟨hleft, hgrown, hmemory⟩ | ⟨path, draft, q, rfl, hleft, hwrote, hmemory⟩
  · intro q text hq
    obtain ⟨path, hmem, ⟨c', m, hlocate⟩, hlookup, hplain'⟩ := h q text (hleft ▸ hq)
    refine ⟨path, hmem, ⟨c', m, hgrown.locate_file hlocate⟩, ?_, hplain'⟩
    rcases hmemory with heq | ⟨text', hnone, -, heq⟩
    · rw [heq]
      exact hlookup
    · have hne : path ≠ c.path := fun heq' => by
        rw [heq', hnone] at hlookup
        cases hlookup
      rw [heq, lookup_remember, if_neg hne]
      exact hlookup
  · obtain ⟨text', hdraft, hline⟩ := hplain path draft rfl
    rw [hdraft] at hmemory
    obtain ⟨hleaves, heq⟩ := hmemory.resolve_left fun hnone => by cases hnone.1
    cases hleaves
    obtain ⟨time, hlocate⟩ := hwrote.locate
    intro q' text hq'
    rw [hleft] at hq'
    by_cases hq : q' = q
    · subst hq
      rw [if_pos rfl] at hq'
      cases hq'
      refine ⟨path, hpath, ⟨_, time, hlocate⟩, ?_, hline⟩
      rw [heq, lookup_remember, if_pos rfl]
    · rw [if_neg hq] at hq'
      obtain ⟨path', hmem, ⟨c', m, hlocate'⟩, hlookup, hplain'⟩ := h q' text hq'
      have hkept := hwrote.locate_of_ne hlocate' hq
      have hne : path' ≠ path := by
        rintro rfl
        cases hkept.symm.trans hlocate
        exact hq rfl
      refine ⟨path', hmem, ⟨c', m, hkept⟩, ?_, hplain'⟩
      rw [heq, lookup_remember, if_neg hne]
      exact hlookup

theorem Recalls.after {s : Course} {paths : List String} (h : Recalls paths s) {calls : List Call}
    (hplain : ∀ c ∈ calls, c.Plain) (hpaths : ∀ c ∈ calls, c.path ∈ paths) : Recalls paths (s.after calls) := by
  induction calls generalizing s with
  | nil => exact h
  | cons c calls ih =>
    have hnext := h.next (hplain c List.mem_cons_self) (hpaths c List.mem_cons_self)
    exact ih hnext (fun c' hc' => hplain c' (List.mem_cons_of_mem c hc'))
      fun c' hc' => hpaths c' (List.mem_cons_of_mem c hc')

/-- No two of some paths lead to the same place. -/
def OnePathEach (d : Disk) (paths : List String) : Prop :=
  ∀ p ∈ paths, ∀ p' ∈ paths, ∀ q t t', d.locate p = .ok (.found q t) → d.locate p' = .ok (.found q t') → p = p'

/-- After any calls, a text that is read is what a new access would read exactly if it is what the last call
left there that opened the file, with its line ends folded; where no call has opened the file it always is.  It
is so in particular if each file is named by one path, and only what can be stored is written, without carriage
returns. -/
theorem rereads_iff (quiet : Bool) (w : Workspace) (calls : List Call) (path text : String) (a : Access)
    (w' : Workspace)
    (h : (((Course.start quiet w).after calls).access.read path).outcome
      ((Course.start quiet w).after calls).workspace =
      (.ok (some text, a), w')) :
    (Rereads ((Course.start quiet w).after calls).workspace path text ↔
      ∀ q t c, ((Course.start quiet w).after calls).workspace.disk.locate path = .ok (.found q t) →
        ((Course.start quiet w).after calls).left q = some c → text = Text.foldNewlines c) ∧
    ((∀ c ∈ calls, c.Plain) →
      OnePathEach ((Course.start quiet w).after calls).workspace.disk (path :: calls.map Call.path) →
      Rereads ((Course.start quiet w).after calls).workspace path text) := by
  have hsound := (Sound.start quiet w).after calls
  have hstart : Recalls (path :: calls.map Call.path) (.start quiet w) := fun _ _ hq => by cases hq
  have hrecalls := fun hplain => hstart.after hplain fun c hc => List.mem_cons_of_mem path (List.mem_map_of_mem hc)
  generalize (Course.start quiet w).after calls = s at h hsound hrecalls
  rw [rereads_eq]
  have hback : (∀ q t c, s.workspace.disk.locate path = .ok (.found q t) → s.left q = some c →
      text = Text.foldNewlines c) → s.workspace.disk.readLossy path = .ok text := by
    intro hlast
    rcases lookup_or_rereads h with hlookup | hread
    · obtain ⟨q, c, m, hlocate, htext⟩ := hsound.remembers path text hlookup
      cases hleft : s.left q with
      | some c' => rw [hsound.readLossy_of_left hlocate hleft, hlast q _ c' hlocate hleft]
      | none => rw [Disk.readLossy_of_locate hlocate, htext hleft]
    · exact hread
  refine ⟨⟨?_, hback⟩, ?_⟩
  · intro hread q t c hlocate hleft
    rw [hsound.readLossy_of_left hlocate hleft] at hread
    exact (Except.ok.inj hread).symm
  · intro hplain hone
    rcases lookup_or_rereads h with hlookup | hread
    · apply hback
      intro q t c hlocate hleft
      obtain ⟨path', hmem, ⟨c', m, hlocate'⟩, hlookup', hline⟩ := hrecalls hplain q c hleft
      cases hone path List.mem_cons_self path' hmem q t _ hlocate hlocate'
      cases hlookup.symm.trans hlookup'
      exact (Text.foldNewlines_of_not_mem hline).symm
    · exact hread

/-- A workspace with one file. -/
def oneText : Workspace where
  disk :=
    { root := .directory [("r", .directory [("x", .file (.bytes (Text.encode "1\r\n2")) 0)])]
      here := some ["r"] }

/-- The text of a file that was read before another one is written is what a new access reads. -/
theorem rereads_read_file :
    ∃ a w', (((Course.start false oneText).after [.read "x", .write "y" (.ofString "3")]).access.read "x").outcome
        ((Course.start false oneText).after [.read "x", .write "y" (.ofString "3")]).workspace =
          (.ok (some "1\n2", a), w') ∧
      Rereads ((Course.start false oneText).after [.read "x", .write "y" (.ofString "3")]).workspace "x" "1\n2" := by
  have hanswer : ((((Course.start false oneText).after [.read "x", .write "y" (.ofString "3")]).access.read "x").outcome
      ((Course.start false oneText).after [.read "x", .write "y" (.ofString "3")]).workspace).1.toOption.map Prod.fst =
        some (some "1\n2") := by
    decide +kernel
  obtain ⟨⟨_, a⟩, w', hread, rfl⟩ := exists_of_toOption hanswer
  refine ⟨a, w', hread, (rereads_iff _ _ _ _ _ _ _ hread).2 ?_ ?_⟩
  · rintro c hc path draft rfl
    have hdraft : path = "y" ∧ draft = .ofString "3" := by simpa using hc
    rw [hdraft.2]
    exact ⟨"3", by decide +kernel, by decide⟩
  · have hnames : ∀ p ∈ ["x", "x", "y"],
        ((((Course.start false oneText).after [.read "x", .write "y" (.ofString "3")]).workspace.disk.locate
          p).toOption.map Place.names) = some ["r", p] := by
      decide +kernel
    intro p hp p' hp' q t t' hlocate hlocate'
    have hq := hnames p hp
    have hq' := hnames p' hp'
    rw [hlocate] at hq
    rw [hlocate'] at hq'
    cases hq.symm.trans hq'
    rfl

/-- A path is answered with a text that a new access does not read. -/
def Outdated (s : Course) (path text : String) : Prop :=
  (∃ a w', (s.access.read path).outcome s.workspace = (.ok (some text, a), w')) ∧ ¬Rereads s.workspace path text

theorem outdated_of {s : Course} {other : String}
    (hanswer : ((s.access.read path).outcome s.workspace).1.toOption.map Prod.fst = some (some text))
    (hread : (s.workspace.disk.readLossy path).toOption = some other) (hne : other ≠ text) : Outdated s path text := by
  obtain ⟨⟨_, a⟩, w', hrun, rfl⟩ := exists_of_toOption hanswer
  refine ⟨⟨a, w', hrun⟩, ?_⟩
  rw [rereads_eq, eq_ok_of_toOption hread]
  exact fun h => hne (Except.ok.inj h)

/-- An answer is outdated after a text with a carriage return was written, after the file was written under another
path, and after it was emptied by a text that cannot be stored. -/
theorem reads_outdated :
    Outdated ((Course.start false oneText).after [.write "y" (.ofString "a\r\nb")]) "y" "a\r\nb" ∧
    Outdated ((Course.start false oneText).after [.write "y" (.ofString "1"), .write "./y" (.ofString "2")]) "y" "1" ∧
    Outdated ((Course.start false oneText).after [.write "y" (.ofString "1"), .write "y" ⟨[.half 0]⟩]) "y" "1" := by
  refine ⟨?_, ?_, ?_⟩
  · exact outdated_of (by decide +kernel) (show _ = some "a\nb" by decide +kernel) (by decide)
  · exact outdated_of (by decide +kernel) (show _ = some "2" by decide +kernel) (by decide)
  · exact outdated_of (by decide +kernel) (show _ = some "" by decide +kernel) (by decide)

end Access

end CodeAtlas

import CodeAtlas.Voice

/-!
# How jobs run

A job that is run in a workspace ends with a value or a failure, and with a workspace.  What follows in a
sequence of jobs is run only if what is before it ends with a value, in the workspace that it leaves.
-/

namespace CodeAtlas

/-- A workspace without its console and the files on its disk. -/
def Workspace.settings (w : Workspace) : Workspace :=
  { w with console := {}, disk := { w.disk with root := .empty } }

namespace Job

variable {α β γ : Type} {w w' : Workspace}

/-- How a job ends, and the workspace it leaves. -/
def outcome (job : Job α) (w : Workspace) : Except Error α × Workspace := job.run.run w

@[simp] theorem outcome_pure (a : α) (w : Workspace) : (pure a : Job α).outcome w = (.ok a, w) := rfl

@[simp] theorem outcome_throw (e : Error) (w : Workspace) : (throw e : Job α).outcome w = (.error e, w) := rfl

@[simp] theorem outcome_get (w : Workspace) : (get : Job Workspace).outcome w = (.ok w, w) := rfl

@[simp] theorem outcome_disk (w : Workspace) : disk.outcome w = (.ok w.disk, w) := rfl

theorem outcome_bind (job : Job α) (next : α → Job β) (w : Workspace) :
    (job >>= next).outcome w =
      match job.outcome w with
      | (.ok a, w') => (next a).outcome w'
      | (.error e, w') => (.error e, w') := by
  rcases h : job.outcome w with ⟨r, w₁⟩
  have hrun : job.run.run w = (r, w₁) := h
  rw [outcome, ExceptT.run_bind, StateT.run_bind, hrun]
  cases r <;> rfl

/-- What follows a job that ends with a value. -/
theorem outcome_bind_of_ok {job : Job α} {a : α} (h : job.outcome w = (.ok a, w')) (next : α → Job β) :
    (job >>= next).outcome w = (next a).outcome w' := by
  rw [outcome_bind, h]

/-- A sequence ends with a value if both of its jobs do. -/
theorem outcome_bind_eq_ok {job : Job α} {next : α → Job β} {b : β} :
    (job >>= next).outcome w = (.ok b, w') ↔
      ∃ a w₁, job.outcome w = (.ok a, w₁) ∧ (next a).outcome w₁ = (.ok b, w') := by
  rw [outcome_bind]
  rcases job.outcome w with ⟨_ | a, w₁⟩
  · simp
  · constructor
    · intro h
      exact ⟨a, w₁, rfl, h⟩
    · rintro ⟨a', w₁', hfirst, hnext⟩
      cases hfirst
      exact hnext

theorem eq_ok_of_toOption {ε : Type} {x : Except ε α} {a : α} (h : x.toOption = some a) : x = .ok a := by
  cases x with
  | error e => cases h
  | ok b => rw [Option.some.inj h]

/-- A job of whose value something is known ends with a value. -/
theorem exists_of_toOption {job : Job α} {f : α → β} {b : β}
    (h : (job.outcome w).1.toOption.map f = some b) : ∃ a w', job.outcome w = (.ok a, w') ∧ f a = b := by
  rcases hrun : job.outcome w with ⟨_ | a, w'⟩
  · rw [hrun] at h
    cases h
  · rw [hrun] at h
    exact ⟨a, w', rfl, Option.some.inj h⟩

/-- A job whose value is known. -/
theorem exists_of_toOption_eq {job : Job α} {a : α} (h : (job.outcome w).1.toOption = some a) :
    ∃ w', job.outcome w = (.ok a, w') :=
  ⟨(job.outcome w).2, Prod.ext (eq_ok_of_toOption h) rfl⟩

theorem outcome_look (f : Disk → Except Error α) (w : Workspace) : (look f).outcome w = (f w.disk, w) := by
  rw [look, outcome_bind_of_ok (outcome_get w)]
  cases f w.disk <;> rfl

theorem outcome_look_eq_ok {f : Disk → Except Error α} {a : α} :
    (look f).outcome w = (.ok a, w') ↔ f w.disk = .ok a ∧ w' = w := by
  rw [outcome_look, Prod.mk.injEq, eq_comm (a := w)]

theorem outcome_change (f : Disk → Except Error Disk) (w : Workspace) :
    (change f).outcome w =
      match f w.disk with
      | .ok d => (.ok (), { w with disk := d })
      | .error e => (.error e, w) := by
  rw [change, outcome_bind, outcome_look]
  cases f w.disk <;> rfl

theorem outcome_makeDirectories (path : String) (w : Workspace) :
    (makeDirectories path).outcome w =
      ((w.disk.withDirectories path).2, { w with disk := (w.disk.withDirectories path).1 }) := by
  rw [makeDirectories, outcome_bind_of_ok (outcome_get w)]
  rcases w.disk.withDirectories path with ⟨d, _ | _⟩ <;> rfl

/-- Where all directories can be made, making them changes the disk to the one that has them. -/
theorem outcome_makeDirectories_eq_ok {path : String} :
    (makeDirectories path).outcome w = (.ok (), w') ↔
      (change (·.makeDirectories path)).outcome w = (.ok (), w') := by
  rw [outcome_makeDirectories, outcome_change, Disk.makeDirectories]
  rcases w.disk.withDirectories path with ⟨d, _ | _⟩ <;> simp [Except.map]

/-- What holds of the value of every job holds of all values of a sequence of them. -/
theorem forall_of_mapM {f : α → Job β} {P : β → Prop}
    (hf : ∀ a b w w', (f a).outcome w = (.ok b, w') → P b) {as : List α} {bs : List β}
    (h : (as.mapM f).outcome w = (.ok bs, w')) : ∀ b ∈ bs, P b := by
  induction as generalizing bs w with
  | nil =>
    cases h
    simp
  | cons a as ih =>
    rw [List.mapM_cons, outcome_bind_eq_ok] at h
    obtain ⟨b, w₁, hfirst, h⟩ := h
    obtain ⟨rest, w₂, hrest, hpure⟩ := outcome_bind_eq_ok.1 h
    cases hpure
    intro b' hb'
    rcases List.mem_cons.1 hb' with rfl | hlater
    · exact hf a b' w w₁ hfirst
    · exact ih hrest b' hlater

/-- An attempt ends with a value, which is how the job ended. -/
theorem outcome_attempt (job : Job α) (w : Workspace) :
    (attempt job).outcome w = (.ok (job.outcome w).1, (job.outcome w).2) := by
  rcases h : job w with ⟨r, w₁⟩
  have hrun : job.outcome w = (r, w₁) := h
  rw [hrun]
  simp only [attempt, outcome, ExceptT.run, StateT.run, bind, ExceptT.bind, ExceptT.mk, StateT.bind, tryCatch,
    tryCatchThe, MonadExceptOf.tryCatch, ExceptT.tryCatch, EarlyReturnT.return, h]
  cases r <;> rfl

/-! ### What jobs keep -/

/-- A job leaves something of a workspace as it is, whether it fails or not. -/
def Keeps (view : Workspace → γ) (job : Job α) : Prop := ∀ w, view (job.outcome w).2 = view w

variable {view : Workspace → γ}

theorem Keeps.of_outcome {job : Job α} (h : job.Keeps view) {r : Except Error α}
    (hrun : job.outcome w = (r, w')) : view w' = view w := by
  have hkeeps := h w
  rwa [hrun] at hkeeps

theorem keeps_pure (a : α) : (pure a : Job α).Keeps view := fun _ => rfl

theorem keeps_throw (e : Error) : (throw e : Job α).Keeps view := fun _ => rfl

theorem keeps_get : (get : Job Workspace).Keeps view := fun _ => rfl

theorem keeps_disk : disk.Keeps view := fun _ => rfl

theorem keeps_look (f : Disk → Except Error α) : (look f).Keeps view := fun w => by rw [outcome_look]

/-- A sequence keeps what both of its jobs keep. -/
theorem Keeps.bind {job : Job α} {next : α → Job β} (hjob : job.Keeps view)
    (hnext : ∀ a, (next a).Keeps view) : (job >>= next).Keeps view := by
  intro w
  rw [outcome_bind]
  rcases hrun : job.outcome w with ⟨_ | a, w₁⟩
  · exact hjob.of_outcome hrun
  · exact (hnext a w₁).trans (hjob.of_outcome hrun)

theorem Keeps.attempt {job : Job α} (hjob : job.Keeps view) : (attempt job).Keeps view := fun w => by
  rw [outcome_attempt]
  exact hjob w

/-- A change of files only. -/
theorem keeps_change {f : Disk → Except Error Disk} (hf : ∀ d d', f d = .ok d' → d'.here = d.here) :
    (change f).Keeps Workspace.settings := by
  intro w
  rw [outcome_change]
  cases hd : f w.disk with
  | error e => rfl
  | ok d =>
    simp only [Workspace.settings, hf _ _ hd]

theorem outcome_say (v : Voice) (text : String) (w : Workspace) :
    ∃ console, (v.say text).outcome w = (.ok (), { w with console := console }) := by
  rw [Voice.say]
  split
  · exact ⟨_, rfl⟩
  · exact ⟨w.console, rfl⟩

theorem outcome_warn (v : Voice) (text : String) (w : Workspace) :
    ∃ console, (v.warn text).outcome w = (.ok (), { w with console := console }) := by
  rw [Voice.warn]
  split
  · exact ⟨_, rfl⟩
  · exact ⟨w.console, rfl⟩

/-- What can be told changes nothing else. -/
theorem outcome_sayResult_eq_ok {v : Voice} {text : Except Error String} {u : Unit}
    (h : (v.sayResult text).outcome w = (.ok u, w')) : ∃ console, w' = { w with console := console } := by
  rw [Voice.sayResult] at h
  split at h
  · obtain ⟨told, w₁, hlook, htell⟩ := outcome_bind_eq_ok.1 h
    obtain ⟨-, rfl⟩ := outcome_look_eq_ok.1 hlook
    cases htell
    exact ⟨_, rfl⟩
  · cases h
    exact ⟨w.console, rfl⟩

/-- A job that does nothing but tell something. -/
def Tells (job : Job Unit) : Prop :=
  ∀ w, ∃ console, job.outcome w = (.ok (), { w with console := console })

theorem tells_pure : Tells (pure ()) := fun w => ⟨w.console, rfl⟩

theorem Tells.bind {job : Job Unit} {next : Unit → Job Unit} (hjob : Tells job) (hnext : Tells (next ())) :
    Tells (job >>= next) := by
  intro w
  obtain ⟨console, htold⟩ := hjob w
  obtain ⟨console', hrest⟩ := hnext { w with console := console }
  exact ⟨console', (outcome_bind_of_ok htold _).trans hrest⟩

/-- Something is told if it is asked for, and then something else. -/
theorem Tells.guarded {asked : Bool} {job next : Job Unit} (hjob : Tells job) (hnext : Tells next) :
    Tells (if asked then job >>= fun _ => next else next) := by
  split
  · exact hjob.bind hnext
  · exact hnext

theorem keeps_warn (v : Voice) (text : String) : (v.warn text).Keeps Workspace.settings := by
  intro w
  obtain ⟨console, h⟩ := outcome_warn v text w
  rw [h]
  rfl

theorem keeps_say (v : Voice) (text : String) : (v.say text).Keeps Workspace.settings := by
  intro w
  obtain ⟨console, h⟩ := outcome_say v text w
  rw [h]
  rfl

/-! ### What jobs maintain -/

/-- A job leaves a disk of some kind if it finds one, whether it fails or not. -/
def Maintains (P : Disk → Prop) (job : Job α) : Prop := ∀ w, P w.disk → P (job.outcome w).2.disk

variable {P : Disk → Prop}

theorem Maintains.of_outcome {job : Job α} (h : job.Maintains P) {r : Except Error α}
    (hrun : job.outcome w = (r, w')) (hw : P w.disk) : P w'.disk := by
  have hleft := h w hw
  rwa [hrun] at hleft

/-- A job that does not change the disk. -/
theorem Keeps.maintains {job : Job α} (h : job.Keeps Workspace.disk) : job.Maintains P := by
  intro w hw
  rw [show (job.outcome w).2.disk = w.disk from h w]
  exact hw

theorem Tells.maintains {job : Job Unit} (h : Tells job) : job.Maintains P := by
  intro w hw
  obtain ⟨console, htold⟩ := h w
  rw [htold]
  exact hw

theorem Maintains.bind {job : Job α} {next : α → Job β} (hjob : job.Maintains P)
    (hnext : ∀ a, (next a).Maintains P) : (job >>= next).Maintains P := by
  intro w hw
  rw [outcome_bind]
  rcases hrun : job.outcome w with ⟨_ | a, w₁⟩
  · exact hjob.of_outcome hrun hw
  · exact hnext a w₁ (hjob.of_outcome hrun hw)

theorem Maintains.attempt {job : Job α} (h : job.Maintains P) : (attempt job).Maintains P := by
  intro w hw
  rw [outcome_attempt]
  exact h w hw

theorem maintains_change {f : Disk → Except Error Disk} (hf : ∀ d d', P d → f d = .ok d' → P d') :
    (change f).Maintains P := by
  intro w hw
  rw [outcome_change]
  cases hd : f w.disk with
  | error e => exact hw
  | ok d => exact hf _ _ hw hd

end Job

end CodeAtlas

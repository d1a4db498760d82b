import CodeAtlas.Spinner
import Mathlib.Algebra.Order.Field.Rat
import Mathlib.Data.List.Chain
import Mathlib.Tactic.Linarith

/-!
# The cadence of the spinner

A frame is due half a second after the start, and from then on a tenth of a second after the frame before.  The
spinner measures from the step before instead, so that nothing is drawn as long as steps follow each other within a
tenth of a second.  The cadence is kept exactly if such bursts of steps never last a tenth of a second, and if the
terminal can show the text of the spinner.

## Main definitions

* `Clock.exact` — time in seconds as exact numbers
* `Spinner.log` — what each step of a run prints
* `Spinner.due`, `Spinner.shots` — which steps have to draw a frame, and what is printed then
* `Spinner.KeepsCadence` — a run draws the frames that are due, each in its turn
* `Spinner.NoLongBurst` — no burst of steps lasts a tenth of a second

## Main results

* `Spinner.log_eq_ok_iff` — what the steps of a run print, in terms of their times alone
* `Spinner.taken_eq_due_iff` — when the frames that are drawn are those that are due
* `Spinner.keepsCadence_iff` — which runs keep the cadence
-/

namespace CodeAtlas

/-- Time in seconds as exact numbers. -/
def Clock.exact : Clock ℚ := ⟨fun a b => 1 / 2 ≤ b - a, fun a b => 1 / 10 ≤ b - a⟩

namespace Spinner

variable {text : String} {plain : Bool} {start frame latest now : ℚ} {times : List ℚ} {k : Nat}

/-! ### Frames -/

/-- What each step of a run prints. -/
def log {τ : Type} (c : Clock τ) (s : Spinner τ) : List τ → Except Error (List String)
  | [] => .ok []
  | now :: rest => do
    let (printed, s) ← s.step c now
    return printed :: (← log c s rest)

/-- The symbols of a terminal, which are taken in turn. -/
def symbols (plain : Bool) : List String := if plain then plainFrames else fancyFrames

/-- What is printed for the frame with a number.  A terminal that is not plain is probed before the first one. -/
def shot (text : String) (plain : Bool) (k : Nat) : String :=
  (if k = 0 ∧ plain = false then "⠋\r" else "") ++
    ("\r" ++ text ++ " " ++ ((symbols plain)[k % (symbols plain).length]?).getD "")

/-- What steps print of which some draw a frame, from the frame with a number on. -/
def shots (text : String) (plain : Bool) : Nat → List Bool → List String
  | _, [] => []
  | k, true :: rest => shot text plain k :: shots text plain (k + 1) rest
  | k, false :: rest => "" :: shots text plain k rest

theorem shot_ne_empty (text : String) (plain : Bool) (k : Nat) : shot text plain k ≠ "" := by
  simp [shot]

/-- It can be seen which steps draw a frame. -/
theorem shots_injective {flags flags' : List Bool} (h : shots text plain k flags = shots text plain k flags') :
    flags = flags' := by
  induction flags generalizing k flags' with
  | nil =>
    match flags' with
    | [] => rfl
    | true :: _ => cases h
    | false :: _ => cases h
  | cons b flags ih =>
    match b, flags' with
    | true, [] => cases h
    | false, [] => cases h
    | true, true :: flags' => rw [ih (List.cons.inj h).2]
    | false, false :: flags' => rw [ih (List.cons.inj h).2]
    | true, false :: flags' => exact absurd (List.cons.inj h).1 (shot_ne_empty text plain k)
    | false, true :: flags' => exact absurd (List.cons.inj h).1.symm (shot_ne_empty text plain k)

/-! ### What a run prints -/

theorem except_map_eq_ok {ε α β : Type} {x : Except ε α} {f : α → β} {b : β} :
    x.map f = .ok b ↔ ∃ a, x = .ok a ∧ f a = b := by
  cases x <;> simp [Except.map]

/-- Whether a terminal can show a text. -/
def Shows (plain : Bool) (text : String) : Prop := plain = true → ∀ c ∈ text.toList, Text.isPlain c = true

/-- The spinner after a number of frames. -/
def turned (text : String) (plain : Bool) (start : ℚ) (k : Nat) (latest : ℚ) : Spinner ℚ :=
  { text, start, latest, visible := decide (0 < k), terminal := true, plain, probed := decide (0 < k), drawn := k }

theorem plainFaultFrom?_eq_none_iff (position : Nat) (cs : List Char) :
    Text.plainFaultFrom? position cs = none ↔ ∀ c ∈ cs, Text.isPlain c = true := by
  induction cs generalizing position with
  | nil => simp [Text.plainFaultFrom?]
  | cons c cs ih =>
    rw [Text.plainFaultFrom?, List.forall_mem_cons]
    by_cases hc : Text.isPlain c = true
    · rw [if_pos hc, ih]
      exact (and_iff_right hc).symm
    · simp [hc]

/-- The frames for a plain terminal can be shown there. -/
theorem isPlain_of_mem_symbols {c : Char} (h : c ∈ (((symbols true)[k % (symbols true).length]?).getD "").toList) :
    Text.isPlain c = true := by
  have hall : ((symbols true).all fun s => s.toList.all Text.isPlain) = true := by decide
  have hlt : k % (symbols true).length < (symbols true).length := Nat.mod_lt _ (by decide)
  rw [List.getElem?_eq_getElem hlt, Option.getD_some] at h
  exact List.all_eq_true.1 (List.all_eq_true.1 hall _ (List.getElem_mem hlt)) c h

theorem fault?_eq_none_iff {s : Spinner ℚ} : s.fault? = none ↔ Shows s.plain s.text := by
  rw [fault?, Shows]
  cases hplain : s.plain with
  | false => simp
  | true =>
    have hframe : s.frame = ((symbols true)[s.drawn % (symbols true).length]?).getD "" := by
      simp [Spinner.frame, hplain, symbols]
    have hends : ("\r".toList ++ " ".toList).all Text.isPlain = true := by decide
    rw [if_pos rfl, Text.plainFault?, plainFaultFrom?_eq_none_iff, line, hframe]
    refine ⟨fun h _ c hc => h c (by simp [hc]), fun h c hc => ?_⟩
    simp only [String.toList_append, List.mem_append] at hc
    rcases hc with ((hc | hc) | hc) | hc
    · exact List.all_eq_true.1 hends c (List.mem_append_left _ hc)
    · exact h rfl c hc
    · exact List.all_eq_true.1 hends c (List.mem_append_right _ hc)
    · exact isPlain_of_mem_symbols hc

theorem frame_eq (s : Spinner ℚ) : s.frame = ((symbols s.plain)[s.drawn % (symbols s.plain).length]?).getD "" := rfl

/-- A visible spinner draws the next frame if the terminal can show its text. -/
theorem draw_turned (text : String) (plain : Bool) (start : ℚ) (k : Nat) (latest : ℚ) :
    let s : Spinner ℚ := { turned text plain start k latest with visible := true }
    (Shows plain text →
      s.draw = .ok (shot text plain k, { turned text plain start (k + 1) latest with probed := true })) ∧
    (¬Shows plain text → ∃ e, s.draw = .error e) := by
  intro s
  have hvisible : s.visible = true := rfl
  constructor
  · intro h
    have hfault : s.fault? = none := fault?_eq_none_iff.2 h
    rw [draw, if_pos hvisible, hfault]
    cases k with
    | zero => cases plain <;> rfl
    | succ k => simp [s, probe, turned, shot, line, frame_eq]
  · intro h
    obtain ⟨fault, hfault⟩ := Option.ne_none_iff_exists'.1 (mt (fault?_eq_none_iff (s := s)).1 h)
    exact ⟨.notShowable fault, by rw [draw, if_pos hvisible, hfault]⟩

/-- Whether it is time for a frame: half a second after the start, or a tenth of a second after some later time. -/
def ripe (start : ℚ) : (since : Option ℚ) → (now : ℚ) → Bool
  | none, now => 1 / 2 ≤ now - start
  | some since, now => 1 / 10 ≤ now - since

/-- The time of the latest step if there are frames already. -/
def since (k : Nat) (latest : ℚ) : Option ℚ := if k = 0 then none else some latest

theorem step_turned_eq (text : String) (plain : Bool) (start : ℚ) (k : Nat) (latest now : ℚ) :
    (turned text plain start k latest).step .exact now =
      if ripe start (since k latest) now then
        (draw { turned text plain start k latest with visible := true }).map fun (printed, s) =>
          (printed, { s with latest := now })
      else .ok ("", turned text plain start k now) := by
  cases k with
  | zero =>
    cases h : ripe start (since 0 latest) now with
    | false =>
      have hhalf : Clock.exact.halfPassed start now = false := h
      simp [step, turned, hhalf, Except.map]
    | true =>
      have hhalf : Clock.exact.halfPassed start now = true := h
      simp [step, turned, hhalf]
  | succ k =>
    cases h : ripe start (since (k + 1) latest) now with
    | false =>
      have htenth : Clock.exact.tenthPassed latest now = false := h
      simp [step, turned, htenth, Except.map]
    | true =>
      have htenth : Clock.exact.tenthPassed latest now = true := h
      simp [step, turned, htenth]

/-- A step for which it is time draws the next frame. -/
theorem step_of_ripe (h : ripe start (since k latest) now = true) (hshows : Shows plain text) :
    (turned text plain start k latest).step .exact now =
      .ok (shot text plain k, turned text plain start (k + 1) now) := by
  rw [step_turned_eq, if_pos h, (draw_turned text plain start k latest).1 hshows]
  rfl

theorem step_of_not_shows (h : ripe start (since k latest) now = true) (hshows : ¬Shows plain text) :
    ∃ e, (turned text plain start k latest).step .exact now = .error e := by
  obtain ⟨e, he⟩ := (draw_turned text plain start k latest).2 hshows
  refine ⟨e, ?_⟩
  rw [step_turned_eq, if_pos h, he]
  rfl

theorem step_of_not_ripe (h : ripe start (since k latest) now = false) :
    (turned text plain start k latest).step .exact now = .ok ("", turned text plain start k now) := by
  rw [step_turned_eq, h]
  rfl

/-- Which steps draw a frame, where it is known when the latest step was once there are frames. -/
def taken (start : ℚ) : (latest : Option ℚ) → List ℚ → List Bool
  | _, [] => []
  | latest, now :: rest =>
    ripe start latest now :: taken start (if ripe start latest now || latest.isSome then some now else none) rest

/-- Which steps have to draw a frame, where it is known when the latest frame was. -/
def due (start : ℚ) : (frame : Option ℚ) → List ℚ → List Bool
  | _, [] => []
  | frame, now :: rest => ripe start frame now :: due start (if ripe start frame now then some now else frame) rest

theorem taken_cons_of_ripe {latest : Option ℚ} (h : ripe start latest now = true) :
    taken start latest (now :: times) = true :: taken start (some now) times := by
  rw [taken, h, if_pos (by simp)]

theorem taken_cons_of_not_ripe {latest : Option ℚ} (h : ripe start latest now = false) :
    taken start latest (now :: times) = false :: taken start (latest.map fun _ => now) times := by
  rw [taken, h]
  cases latest <;> rfl

theorem due_cons_of_ripe {frame : Option ℚ} (h : ripe start frame now = true) :
    due start frame (now :: times) = true :: due start (some now) times := by
  rw [due, h, if_pos rfl]

theorem due_cons_of_not_ripe {frame : Option ℚ} (h : ripe start frame now = false) :
    due start frame (now :: times) = false :: due start frame times := by
  rw [due, h, if_neg (by simp)]

/-- What the steps of a run print, in terms of their times alone. -/
theorem log_eq_ok_iff {printed : List String} : log .exact (turned text plain start k latest) times = .ok printed ↔
    (true ∈ taken start (since k latest) times → Shows plain text) ∧
      shots text plain k (taken start (since k latest) times) = printed := by
  induction times generalizing k latest printed with
  | nil => simp [log, taken, shots]
  | cons now rest ih =>
    cases h : ripe start (since k latest) now with
    | true =>
      have htaken : taken start (since k latest) (now :: rest) = true :: taken start (since (k + 1) now) rest :=
        taken_cons_of_ripe h
      by_cases hshows : Shows plain text
      · have hlog : log .exact (turned text plain start k latest) (now :: rest) =
            (log .exact (turned text plain start (k + 1) now) rest).map (shot text plain k :: ·) := by
          rw [log, step_of_ripe h hshows]
          rfl
        rw [hlog, htaken, shots, except_map_eq_ok]
        simp [ih, hshows]
      · obtain ⟨e, he⟩ := step_of_not_shows h hshows
        rw [log, he, htaken]
        refine iff_of_false (by simp [bind, Except.bind]) ?_
        rintro ⟨himp, -⟩
        exact hshows (himp List.mem_cons_self)
    | false =>
      have htaken : taken start (since k latest) (now :: rest) = false :: taken start (since k now) rest := by
        rw [taken_cons_of_not_ripe h]
        cases k <;> rfl
      have hlog : log .exact (turned text plain start k latest) (now :: rest) =
          (log .exact (turned text plain start k now) rest).map ("" :: ·) := by
        rw [log, step_of_not_ripe h]
        rfl
      rw [hlog, htaken, shots, except_map_eq_ok]
      simp [ih]

/-- A frame is drawn in a run if some step comes half a second after the start or later. -/
theorem mem_taken_iff : true ∈ taken start none times ↔ ∃ t ∈ times, 1 / 2 ≤ t - start := by
  induction times with
  | nil => simp [taken]
  | cons now rest ih =>
    cases h : ripe start none now with
    | true =>
      rw [taken_cons_of_ripe h]
      exact iff_of_true List.mem_cons_self ⟨now, List.mem_cons_self, of_decide_eq_true h⟩
    | false =>
      have hnot : ¬1 / 2 ≤ now - start := of_decide_eq_false h
      rw [taken_cons_of_not_ripe h, Option.map_none, List.exists_mem_cons_iff, or_iff_right hnot, ← ih, List.mem_cons,
        or_iff_right (by decide)]

/-! ### Bursts of steps -/

/-- Steps that follow each other within a tenth of a second. -/
def Burst (steps : List ℚ) : Prop := steps.IsChain fun a b => b - a < 1 / 10

/-- No burst of steps lasts a tenth of a second that begins half a second after the start or later. -/
def NoLongBurst (start : ℚ) (times : List ℚ) : Prop :=
  ∀ before first between last after, times = before ++ first :: (between ++ last :: after) → 1 / 2 ≤ first - start →
    Burst (first :: (between ++ [last])) → last - first < 1 / 10

/-- From the latest frame and the latest step on, no frame becomes due in a burst. -/
def Brisk : (frame latest : ℚ) → List ℚ → Prop
  | _, _, [] => True
  | frame, latest, now :: rest =>
    if 1 / 10 ≤ now - latest then Brisk now now rest else now - frame < 1 / 10 ∧ Brisk frame now rest

/-- Once there is a frame, the frames that are drawn are those that are due if none becomes due in a burst. -/
theorem taken_eq_due_iff_brisk (hframe : frame ≤ latest) (hsorted : (latest :: times).Pairwise (· ≤ ·)) :
    taken start (some latest) times = due start (some frame) times ↔ Brisk frame latest times := by
  induction times generalizing frame latest with
  | nil => exact iff_of_true rfl trivial
  | cons now rest ih =>
    obtain ⟨hle, hrest⟩ := List.pairwise_cons.1 hsorted
    have hnow : latest ≤ now := hle now List.mem_cons_self
    rw [Brisk]
    by_cases hlate : 1 / 10 ≤ now - latest
    · have hdue : 1 / 10 ≤ now - frame := by linarith
      have htaken : ripe start (some latest) now = true := decide_eq_true hlate
      have hripe : ripe start (some frame) now = true := decide_eq_true hdue
      rw [if_pos hlate, taken_cons_of_ripe htaken, due_cons_of_ripe hripe, List.cons_inj_right]
      exact ih le_rfl hrest
    · have htaken : ripe start (some latest) now = false := decide_eq_false hlate
      rw [if_neg hlate, taken_cons_of_not_ripe htaken]
      by_cases hdue : 1 / 10 ≤ now - frame
      · have hripe : ripe start (some frame) now = true := decide_eq_true hdue
        rw [due_cons_of_ripe hripe]
        exact iff_of_false (by simp) fun h => absurd h.1 (not_lt.2 hdue)
      · have hripe : ripe start (some frame) now = false := decide_eq_false hdue
        rw [due_cons_of_not_ripe hripe, List.cons_inj_right, and_iff_right (not_le.1 hdue)]
        exact ih (hframe.trans hnow) hrest

/-- A burst that goes on from the latest step ends before a frame is due. -/
theorem Brisk.of_burst {between after : List ℚ} {last : ℚ} (h : Brisk frame latest (between ++ last :: after))
    (hburst : Burst (latest :: (between ++ [last]))) : last - frame < 1 / 10 := by
  induction between generalizing latest with
  | nil =>
    have hfast : last - latest < 1 / 10 := by simpa [Burst] using hburst
    rw [List.nil_append, Brisk, if_neg (not_le.2 hfast)] at h
    exact h.1
  | cons now between ih =>
    obtain ⟨hfast, hrest⟩ := List.isChain_cons_cons.1 hburst
    rw [List.cons_append, Brisk, if_neg (not_le.2 hfast)] at h
    exact ih h.2 hrest

/-- No later burst lasts a tenth of a second. -/
theorem Brisk.of_later_burst {before between after : List ℚ} {first last : ℚ}
    (h : Brisk frame latest (before ++ first :: (between ++ last :: after))) (hframe : frame ≤ latest)
    (hsorted : (latest :: (before ++ first :: (between ++ last :: after))).Pairwise (· ≤ ·))
    (hburst : Burst (first :: (between ++ [last]))) : last - first < 1 / 10 := by
  induction before generalizing frame latest with
  | nil =>
    have hle : latest ≤ first := (List.pairwise_cons.1 hsorted).1 first List.mem_cons_self
    rw [List.nil_append, Brisk] at h
    split at h
    · exact h.of_burst hburst
    · have hspan := h.2.of_burst hburst
      linarith
  | cons now before ih =>
    obtain ⟨hle, hrest⟩ := List.pairwise_cons.1 hsorted
    rw [List.cons_append, Brisk] at h
    split at h
    · exact ih h le_rfl hrest
    · exact ih h.2 (hframe.trans (hle now List.mem_cons_self)) hrest

/-- If no burst lasts long, neither the current one nor a later one, then none of them lets a frame become due. -/
theorem brisk_of_bursts
    (hcurrent : ∀ between last after, times = between ++ last :: after → Burst (latest :: (between ++ [last])) →
      last - frame < 1 / 10)
    (hlater : ∀ before first between last after, times = before ++ first :: (between ++ last :: after) →
      Burst (first :: (between ++ [last])) → last - first < 1 / 10) : Brisk frame latest times := by
  induction times generalizing frame latest with
  | nil => trivial
  | cons now rest ih =>
    have hrest : ∀ before first between last after, rest = before ++ first :: (between ++ last :: after) →
        Burst (first :: (between ++ [last])) → last - first < 1 / 10 := by
      intro before first between last after hsplit
      exact hlater (now :: before) first between last after (by rw [hsplit]; rfl)
    rw [Brisk]
    by_cases hlate : 1 / 10 ≤ now - latest
    · rw [if_pos hlate]
      refine ih (fun between last after hsplit => ?_) hrest
      exact hlater [] now between last after (by rw [hsplit]; rfl)
    · rw [if_neg hlate]
      have hfast : now - latest < 1 / 10 := not_le.1 hlate
      refine ⟨hcurrent [] now rest rfl (by simpa [Burst] using hfast),
        ih (fun between last after hsplit hburst => ?_) hrest⟩
      exact hcurrent (now :: between) last after (by rw [hsplit]; rfl) (List.isChain_cons_cons.2 ⟨hfast, hburst⟩)

/-- The frames that are drawn are those that are due if no burst of steps lasts a tenth of a second. -/
theorem taken_eq_due_iff (hsorted : times.Pairwise (· ≤ ·)) :
    taken start none times = due start none times ↔ NoLongBurst start times := by
  induction times with
  | nil => exact iff_of_true rfl fun before first between last after hsplit => by simp at hsplit
  | cons now rest ih =>
    obtain ⟨hle, hrest⟩ := List.pairwise_cons.1 hsorted
    cases h : ripe start none now with
    | false =>
      -- a burst that begins with this step begins too early
      have hearly : ¬1 / 2 ≤ now - start := of_decide_eq_false h
      rw [taken_cons_of_not_ripe h, due_cons_of_not_ripe h, Option.map_none, List.cons_inj_right, ih hrest]
      constructor
      · intro hbursts before first between last after hsplit hfirst
        cases before with
        | nil =>
          obtain ⟨rfl, -⟩ := List.cons.inj hsplit
          exact absurd hfirst hearly
        | cons t before => exact hbursts before first between last after (List.cons.inj hsplit).2 hfirst
      · intro hbursts before first between last after hsplit
        exact hbursts (now :: before) first between last after (by rw [hsplit]; rfl)
    | true =>
      have hstart : 1 / 2 ≤ now - start := of_decide_eq_true h
      rw [taken_cons_of_ripe h, due_cons_of_ripe h, List.cons_inj_right, taken_eq_due_iff_brisk le_rfl hsorted]
      constructor
      · intro hbrisk before first between last after hsplit _ hburst
        cases before with
        | nil =>
          obtain ⟨rfl, rfl⟩ := List.cons.inj hsplit
          exact hbrisk.of_burst hburst
        | cons t before =>
          obtain ⟨rfl, rfl⟩ := List.cons.inj hsplit
          exact hbrisk.of_later_burst le_rfl hsorted hburst
      · intro hbursts
        refine brisk_of_bursts (fun between last after hsplit => ?_) fun before first between last after hsplit => ?_
        · exact hbursts [] now between last after (by rw [hsplit]; rfl) hstart
        · have hfirst : now ≤ first := hle first (by simp [hsplit])
          exact hbursts (now :: before) first between last after (by rw [hsplit]; rfl) (by linarith)

/-! ### The cadence -/

/-- Every step of a run prints a frame exactly if one is due, and the frames are the symbols in turn. -/
def KeepsCadence (text : String) (plain : Bool) (start : ℚ) (times : List ℚ) : Prop :=
  (new text start true plain).log .exact times = .ok (shots text plain 0 (due start none times))

/-- Whatever the times are, a run that ends has drawn the symbols in turn.  Each frame is drawn when it is due exactly
if no burst of steps lasts a tenth of a second, and the terminal can show the text once a frame is due. -/
theorem keepsCadence_iff (text : String) (plain : Bool) (start : ℚ) (times : List ℚ)
    (hsorted : times.Pairwise (· ≤ ·)) :
    (∀ printed, (new text start true plain).log .exact times = .ok printed →
      ∃ flags, printed = shots text plain 0 flags) ∧
    (KeepsCadence text plain start times ↔
      ((∃ t ∈ times, 1 / 2 ≤ t - start) → Shows plain text) ∧ NoLongBurst start times) := by
  have hnew : new text start true plain = turned text plain start 0 start := rfl
  have hsince : since 0 start = none := rfl
  refine ⟨fun printed hlog => ?_, ?_⟩
  · rw [hnew, log_eq_ok_iff] at hlog
    exact ⟨_, hlog.2.symm⟩
  · rw [KeepsCadence, hnew, log_eq_ok_iff, hsince, mem_taken_iff, ← taken_eq_due_iff hsorted]
    exact and_congr_right fun _ => ⟨shots_injective, fun h => by rw [h]⟩

/-- A short burst after the first frame does no harm. -/
theorem keepsCadence_short_burst : [1 / 2, 11 / 20, 7 / 10, 1].Pairwise (· ≤ · : ℚ → ℚ → Prop) ∧
    KeepsCadence "A" false 0 [1 / 2, 11 / 20, 7 / 10, 1] := by
  have hsorted : [1 / 2, 11 / 20, 7 / 10, 1].Pairwise (· ≤ · : ℚ → ℚ → Prop) := by decide +kernel
  have hbursts : NoLongBurst 0 [1 / 2, 11 / 20, 7 / 10, 1] := (taken_eq_due_iff hsorted).1 (by decide +kernel)
  exact ⟨hsorted, (keepsCadence_iff "A" false 0 _ hsorted).2.2 ⟨fun _ hplain => absurd hplain (by decide), hbursts⟩⟩

/-- The third of three steps that are a sixteenth of a second apart does not draw the frame that is due then. -/
theorem not_keepsCadence_fast_steps : ¬KeepsCadence "fast" false 0 [1, 17 / 16, 9 / 8] := by
  have hnew : new "fast" 0 true false = turned "fast" false 0 0 0 := rfl
  have hdiffer : taken 0 none [1, 17 / 16, 9 / 8] ≠ due 0 none [1, 17 / 16, 9 / 8] := by decide +kernel
  intro h
  rw [KeepsCadence, hnew, log_eq_ok_iff] at h
  exact hdiffer (shots_injective h.2)

end Spinner

end CodeAtlas

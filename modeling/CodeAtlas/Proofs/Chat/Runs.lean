import CodeAtlas.Chat.History
import Mathlib.Data.List.SplitBy

/-!
# Messages are runs of lines

A chat is read line by line, with lines that wait for each of the three speakers.  Whenever a speaker is heard, messages
are made of what waits for the two others, so there is never more than one for whom lines wait.  They are the lines of a
run: as many neighbours of one speaker as there are, headings left out.

## Main definitions

* `speakerOf`, `textOf` — whose line it is, and what it says
* `runs` — the lines of a text but for headings, cut where the speaker changes
* `message?` — what is said in a run, unless it is blank
* `Reading.Holds` — nothing waits but the lines of one run
* `unanswered` — what a tool says in the last run

## Main results

* `Reading.Holds.add_self`, `Reading.Holds.add_other` — what one line does
* `Reading.Holds.foldl_add` — what all lines do
* `history_eq_runs` — without tools, a history is what is said in the runs of the others
* `history_complete_iff` — with tools, a history is what is said in all runs but for `unanswered`
-/

namespace CodeAtlas.Chat

def isHeading (line : String) : Bool := Text.startsWith line "# "

/-- Whose line it is, if it is no heading. -/
def speakerOf (line : String) : Speaker :=
  if Text.startsWith line "> " then .tool
  else if Text.startsWith line "#### " then .user
  else .assistant

def Speaker.mark : Speaker → String
  | tool => "> "
  | user => "#### "
  | assistant => ""

/-- What a line says. -/
def textOf (line : String) : String := Text.dropFirst line (speakerOf line).mark.length

def sameSpeaker (line next : String) : Bool := speakerOf line == speakerOf next

/-- Lines without headings. -/
def spoken (lines : List String) : List String := lines.filter fun line => !isHeading line

/-- The lines of a text but for headings, cut where the speaker changes. -/
def runs (text : String) : List (List String) := (spoken (Text.linesKeep text)).splitBy sameSpeaker

/-- What is said in a run, unless it is blank. -/
def message? : List String → Option Message
  | [] => none
  | line :: rest =>
    let content := String.join ((line :: rest).map textOf)
    if Text.isBlankText content then none else some ⟨speakerOf line, content⟩

theorem readLine_of_isHeading {line : String} (h : isHeading line = true) : readLine line = none := by
  rw [isHeading] at h
  rw [readLine, if_pos h]

theorem readLine_of_not_isHeading {line : String} (h : isHeading line = false) :
    readLine line = some (speakerOf line, textOf line) := by
  rw [isHeading] at h
  rw [readLine, if_neg (by simp [h]), textOf, speakerOf]
  by_cases htool : Text.startsWith line "> " = true
  · rw [if_pos htool, if_pos htool]
    rfl
  · rw [if_neg htool, if_neg htool]
    by_cases huser : Text.startsWith line "#### " = true
    · rw [if_pos huser, if_pos huser]
      rfl
    · rw [if_neg huser, if_neg huser]
      simp [Speaker.mark, Text.dropFirst]

theorem said_nil (s : Speaker) : said s [] = [] := rfl

/-! ### Lines that wait -/

namespace Reading

variable {r : Reading} {s t : Speaker} {line text : String} {run lines : List String}

@[simp] theorem messages_setPending : (r.setPending s lines).messages = r.messages := by
  cases s <;> rfl

@[simp] theorem pending_setPending_self : (r.setPending s lines).pending s = lines := by
  cases s <;> rfl

theorem pending_setPending_of_ne (h : t ≠ s) : (r.setPending s lines).pending t = r.pending t := by
  cases s <;> cases t <;> first | rfl | exact absurd rfl h

theorem setPending_pending : r.setPending s (r.pending s) = r := by
  cases s <;> rfl

@[simp] theorem messages_flush : (r.flush s).messages = r.messages ++ said s (r.pending s) := rfl

theorem pending_flush (r : Reading) (s t : Speaker) :
    (r.flush s).pending t = if t = s then [] else r.pending t := by
  cases s <;> cases t <;> rfl

/-- There is no message to make if nothing waits. -/
theorem flush_of_nil (h : r.pending s = []) : r.flush s = r := by
  have hset : r.setPending s [] = r := by
    rw [← h, setPending_pending]
  rw [flush, h, said_nil, List.append_nil, hset]

/-- Nothing waits but the lines of one run of a speaker. -/
structure Holds (r : Reading) (s : Speaker) (run : List String) : Prop where
  own : r.pending s = run.map textOf
  others : ∀ t, t ≠ s → r.pending t = []
  speaker : ∀ line ∈ run, speakerOf line = s

theorem holds_start (s : Speaker) : Holds {} s [] where
  own := by cases s <;> rfl
  others t _ := by cases t <;> rfl
  speaker := by simp

theorem Holds.hear (h : r.Holds s run) (hline : speakerOf line = s) :
    (r.hear s (textOf line)).Holds s (run ++ [line]) where
  own := by simp [Reading.hear, h.own]
  others t ht := by
    rw [Reading.hear, pending_setPending_of_ne ht]
    exact h.others t ht
  speaker := by
    intro other hother
    obtain hrun | hlast := List.mem_append.1 hother
    · exact h.speaker other hrun
    · rw [List.mem_singleton.1 hlast]
      exact hline

/-- After a message was made of a run nothing waits, so whoever is next may begin another one. -/
theorem Holds.flush (h : r.Holds s run) (t : Speaker) : (r.flush s).Holds t [] where
  own := by
    rw [pending_flush, List.map_nil]
    split
    · rfl
    · next hne => exact h.others t hne
  others u _ := by
    rw [pending_flush]
    split
    · rfl
    · next hne => exact h.others u hne
  speaker := by simp

theorem add_of_isHeading (h : isHeading line = true) : r.add line = r := by
  rw [add, readLine_of_isHeading h]

/-- Of the two speakers of whose lines messages are made, only the one of the run matters. -/
theorem Holds.flush_flush (h : r.Holds s run) {t u : Speaker} (hne : t ≠ u) (hs : t = s ∨ u = s) :
    (r.flush t).flush u = r.flush s := by
  obtain rfl | rfl := hs
  · apply flush_of_nil
    rw [pending_flush, if_neg hne.symm]
    exact h.others u hne.symm
  · rw [flush_of_nil (h.others t hne)]

/-- A line of the speaker of the run is added to it, as nothing waits for the two others. -/
theorem Holds.add_self (h : r.Holds s run) (hheading : isHeading line = false) (hline : speakerOf line = s) :
    r.add line = r.hear s (textOf line) := by
  have hidle : ∀ t, t ≠ s → r.flush t = r := fun t ht => flush_of_nil (h.others t ht)
  rw [add, readLine_of_not_isHeading hheading, hline]
  cases s with
  | user => rw [hidle .assistant (by decide), hidle .tool (by decide)]
  | assistant => rw [hidle .user (by decide), hidle .tool (by decide)]
  | tool => rw [hidle .assistant (by decide), hidle .user (by decide)]

/-- A line of another speaker ends the run, and a message is made of it. -/
theorem Holds.add_other (h : r.Holds s run) (hheading : isHeading line = false) (hline : speakerOf line ≠ s) :
    r.add line = (r.flush s).hear (speakerOf line) (textOf line) := by
  rw [add, readLine_of_not_isHeading hheading]
  generalize speakerOf line = next at hline ⊢
  -- the speaker of the run is one of the two that are not heard now
  cases next with
  | user =>
    have hs : Speaker.assistant = s ∨ Speaker.tool = s := by cases s <;> simp_all
    rw [h.flush_flush (by decide) hs]
  | assistant =>
    have hs : Speaker.user = s ∨ Speaker.tool = s := by cases s <;> simp_all
    rw [h.flush_flush (by decide) hs]
  | tool =>
    have hs : Speaker.assistant = s ∨ Speaker.user = s := by cases s <;> simp_all
    rw [h.flush_flush (by decide) hs]

/-- At the end a message is made of the run, unless it is one of a tool. -/
theorem Holds.finish_eq (h : r.Holds s run) :
    r.finish = r.messages ++ if s = .tool then [] else said s (run.map textOf) := by
  rw [finish]
  by_cases htool : s = .tool
  · subst htool
    rw [flush_of_nil (h.others .assistant (by decide)), flush_of_nil (h.others .user (by decide))]
    simp
  · have hs : Speaker.assistant = s ∨ Speaker.user = s := by cases s <;> simp_all
    rw [h.flush_flush (by decide) hs, if_neg htool, messages_flush, h.own]

end Reading

/-! ### Runs -/

variable {r : Reading} {s : Speaker} {run : List String}

/-- Lines of one speaker are one run, unless there are none. -/
theorem splitBy_of_speaker (h : ∀ line ∈ run, speakerOf line = s) (hrun : run ≠ []) :
    run.splitBy sameSpeaker = [run] := by
  apply List.splitBy_of_isChain hrun
  apply List.Pairwise.isChain
  apply List.pairwise_of_forall_mem_list
  intro x hx y hy
  simp [sameSpeaker, h x hx, h y hy]

theorem filterMap_splitBy_of_speaker (h : ∀ line ∈ run, speakerOf line = s) :
    (run.splitBy sameSpeaker).filterMap message? = said s (run.map textOf) := by
  cases run with
  | nil => rfl
  | cons line rest =>
    rw [splitBy_of_speaker h (by simp), List.filterMap_cons, List.filterMap_nil, message?, said,
      h line List.mem_cons_self]
    generalize String.join ((line :: rest).map textOf) = content
    cases Text.isBlankText content <;> rfl

/-- A run ends where another speaker is next. -/
theorem splitBy_append_other {line : String} {rest : List String} (h : ∀ line ∈ run, speakerOf line = s)
    (hline : speakerOf line ≠ s) :
    (run ++ line :: rest).splitBy sameSpeaker = run.splitBy sameSpeaker ++ (line :: rest).splitBy sameSpeaker := by
  apply List.splitBy_append_cons
  intro last hlast
  have hspeaker : speakerOf last = s := h last (List.mem_of_mem_getLast? hlast)
  simpa [sameSpeaker, hspeaker] using hline.symm

/-- What all lines do.  Messages are made of the runs that have ended, and the lines of the last run wait. -/
theorem Reading.Holds.foldl_add_runs (h : r.Holds s run) (lines : List String) :
    ∃ ended t last, (run ++ spoken lines).splitBy sameSpeaker = ended ++ last.splitBy sameSpeaker ∧
      (lines.foldl Reading.add r).messages = r.messages ++ ended.filterMap message? ∧
      (lines.foldl Reading.add r).Holds t last ∧ (last = [] → run = [] ∧ ended = []) := by
  induction lines generalizing r s run with
  | nil => exact ⟨[], s, run, by simp [spoken], by simp, h, fun hrun => ⟨hrun, rfl⟩⟩
  | cons line lines ih =>
    rw [List.foldl_cons]
    by_cases hheading : isHeading line = true
    · rw [Reading.add_of_isHeading hheading]
      have hspoken : spoken (line :: lines) = spoken lines := by simp [spoken, hheading]
      rw [hspoken]
      exact ih h
    rw [Bool.not_eq_true] at hheading
    have hspoken : spoken (line :: lines) = line :: spoken lines := by simp [spoken, hheading]
    rw [hspoken]
    by_cases hline : speakerOf line = s
    · rw [h.add_self hheading hline]
      obtain ⟨ended, t, last, hruns, hmessages, hholds, hlast⟩ := ih (h.hear hline)
      refine ⟨ended, t, last, ?_, ?_, hholds, fun hnil => by simpa using (hlast hnil).1⟩
      · simpa using hruns
      · simpa [Reading.hear] using hmessages
    · -- the run has ended, and the line begins the next one
      rw [h.add_other hheading hline]
      obtain ⟨ended, t, last, hruns, hmessages, hholds, hlast⟩ := ih ((h.flush (speakerOf line)).hear rfl)
      refine ⟨run.splitBy sameSpeaker ++ ended, t, last, ?_, ?_, hholds, fun hnil => by simpa using (hlast hnil).1⟩
      · rw [splitBy_append_other h.speaker hline, List.append_assoc, ← hruns]
        simp
      · rw [hmessages, Reading.hear, Reading.messages_setPending, Reading.messages_flush, h.own, List.filterMap_append,
          filterMap_splitBy_of_speaker h.speaker, List.append_assoc]

/-- The messages made on the way are those of the runs that have ended. -/
theorem Reading.Holds.foldl_add (h : r.Holds s run) (lines : List String) :
    ∃ ended t last, ((run ++ spoken lines).splitBy sameSpeaker).filterMap message? = ended ++ said t (last.map textOf) ∧
      (lines.foldl Reading.add r).messages = r.messages ++ ended ∧ (lines.foldl Reading.add r).Holds t last := by
  obtain ⟨ended, t, last, hruns, hmessages, hholds, -⟩ := h.foldl_add_runs lines
  refine ⟨ended.filterMap message?, t, last, ?_, hmessages, hholds⟩
  rw [hruns, List.filterMap_append, filterMap_splitBy_of_speaker hholds.speaker]

/-- Messages of tools are what is left out of a history. -/
theorem filter_said_tool (lines : List String) : (said .tool lines).filter (·.speaker != .tool) = [] := by
  rw [said]
  split
  · rfl
  · rfl

/-- **Histories without tools.**  They are what is said in the runs of one speaker, headings left out, as far as it is
not blank and not of a tool. -/
theorem history_eq_runs (text : String) :
    history text false = ((runs text).filterMap message?).filter (·.speaker != .tool) := by
  obtain ⟨ended, t, last, hruns, hmessages, hholds⟩ := (Reading.holds_start .user).foldl_add (Text.linesKeep text)
  rw [List.nil_append] at hruns hmessages
  rw [history, if_neg (by decide), runs, hruns, hholds.finish_eq, hmessages, List.filter_append, List.filter_append]
  -- the last run is left out at the end if it is one of a tool
  by_cases htool : t = .tool
  · subst htool
    rw [if_pos rfl, filter_said_tool, List.filter_nil]
  · rw [if_neg htool]

/-! ### Histories with tools -/

/-- All that messages say. -/
def contents (messages : List Message) : String := String.join (messages.map Message.content)

/-- What a tool says in the last run. -/
def unanswered (text : String) : Option Message :=
  ((runs text).getLast?.bind message?).filter (·.speaker == .tool)

theorem speaker_of_message? {m : Message} (h : ∀ line ∈ run, speakerOf line = s) (hm : message? run = some m) :
    m.speaker = s := by
  cases run with
  | nil => simp [message?] at hm
  | cons line rest =>
    rw [message?] at hm
    split_ifs at hm
    obtain rfl := Option.some.inj hm
    exact h line List.mem_cons_self

theorem content_ne_empty {m : Message} (hm : message? run = some m) : m.content ≠ "" := by
  cases run with
  | nil => simp [message?] at hm
  | cons line rest =>
    rw [message?] at hm
    split_ifs at hm with hblank
    obtain rfl := Option.some.inj hm
    intro (hempty : String.join ((line :: rest).map textOf) = "")
    rw [hempty] at hblank
    exact hblank (by decide)

/-- The run that waits at the end is the last one. -/
theorem unanswered_eq {text : String} {ended : List (List String)} (h : ∀ line ∈ run, speakerOf line = s)
    (hruns : runs text = ended ++ run.splitBy sameSpeaker) (hended : run = [] → ended = []) :
    (unanswered text).toList = if s = .tool then said s (run.map textOf) else [] := by
  by_cases hrun : run = []
  · subst hrun
    simp [unanswered, hruns, hended rfl, said_nil]
  have hmessage : (message? run).toList = said s (run.map textOf) := by
    rw [← filterMap_splitBy_of_speaker h, splitBy_of_speaker h hrun]
    cases hm : message? run <;> simp [hm]
  rw [← hmessage, unanswered, hruns, splitBy_of_speaker h hrun, List.getLast?_concat, Option.bind_some]
  cases hm : message? run with
  | none => simp
  | some m => simp [Option.filter_some, speaker_of_message? h hm, apply_ite Option.toList]

/-- Nothing is missing from a history with tools but what a tool says in the last run. -/
theorem filterMap_message?_runs (text : String) :
    (runs text).filterMap message? = history text true ++ (unanswered text).toList := by
  obtain ⟨ended, t, last, hruns, hmessages, hholds, hlast⟩ :=
    (Reading.holds_start .user).foldl_add_runs (Text.linesKeep text)
  rw [List.nil_append] at hruns hmessages
  rw [unanswered_eq hholds.speaker hruns fun hnil => (hlast hnil).2, runs, hruns, history, if_pos rfl,
    hholds.finish_eq, hmessages, List.filterMap_append, filterMap_splitBy_of_speaker hholds.speaker]
  -- whether or not a tool speaks last, the two ends together are the last run
  split <;> simp

/-- **Histories with tools.**  What is missing is what a tool says in the last run, so a history says all that is said
in the runs exactly if that is nothing. -/
theorem history_complete_iff (text : String) :
    (runs text).filterMap message? = history text true ++ (unanswered text).toList ∧
    (contents (history text true) = contents ((runs text).filterMap message?) ↔ unanswered text = none) := by
  have hruns := filterMap_message?_runs text
  refine ⟨hruns, ?_⟩
  rw [hruns]
  constructor
  · intro hcontents
    cases hm : unanswered text with
    | none => rfl
    | some m =>
      obtain ⟨hlast, -⟩ := Option.filter_eq_some_iff.1 hm
      obtain ⟨run, -, hrun⟩ := Option.bind_eq_some_iff.1 hlast
      have hempty : m.content = "" := by simpa [contents, hm] using congrArg String.toList hcontents
      exact absurd hempty (content_ne_empty hrun)
  · intro hm
    simp [hm]

/-- A tool that speaks last is not heard, though the assistant before it is. -/
theorem history_loses_tool :
    history "a\n> b" true = [⟨.assistant, "a\n"⟩] ∧ unanswered "a\n> b" = some ⟨.tool, "b"⟩ ∧
    contents (history "a\n> b" true) ≠ contents ((runs "a\n> b").filterMap message?) := by
  decide +kernel

end CodeAtlas.Chat

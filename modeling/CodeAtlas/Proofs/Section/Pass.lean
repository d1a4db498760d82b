import CodeAtlas.Proofs.Text.Lines
import CodeAtlas.Section.Split
import Mathlib.Data.List.Basic
import Mathlib.Data.List.Flatten

/-!
# What one pass over the lines keeps

A pass cuts the lines of a section into segments, in order, and joins each of them to a part.  A segment
of nothing but blank lines may be passed over, and a line is left out where a part was begun without a
boundary and the next cut is at one.

## Main definitions

* `Progress.stranded`, `stranded` — the lines that one step and the whole pass leave out
* `Accounts` — how segments and lines left out make up the lines read so far
* `Progress.Reached` — what holds after a number of lines

## Main results

* `Progress.Reached.step` — what adding one line preserves
* `splitOnce_segments` — the parts of a pass are segments of the lines, and they hold every line that is
  not blank and not left out
-/

namespace CodeAtlas.Section

open Text (IsLine isBlankText unlines)

/-- The lines that adding line number `i` leaves out: those of the current part in front of the line from
which the next part is taken. -/
def Progress.stranded (count : Counter) (limit : Int) (boundaries : List Nat) (s : Progress)
    (line : String) (i : Nat) : List String :=
  if (s.tokens + count (line ++ "\n") : Nat) ≤ limit then []
  else if s.start < latest boundaries s.start i then s.current.take (s.start + s.current.length - i)
  else []

/-- The lines that a pass leaves out from line number `i` on. -/
def strandedFrom (count : Counter) (limit : Int) (boundaries : List Nat) (lines : List String) :
    Progress → Nat → List String → List String
  | _, _, [] => []
  | s, i, line :: rest =>
    s.stranded count limit boundaries line i ++
      strandedFrom count limit boundaries lines (s.step count limit boundaries lines line i) (i + 1) rest

/-- The lines that a pass leaves out. -/
def stranded (count : Counter) (limit : Int) (boundaries : List Nat) (lines : List String) : List String :=
  strandedFrom count limit boundaries lines {} 0 lines

theorem latest_cons (b : Nat) (boundaries : List Nat) (start i : Nat) :
    latest (b :: boundaries) start i = latest boundaries (if b ≤ i ∧ start < b then b else start) i := by
  simp only [latest, List.foldl_cons, Bool.and_eq_true, decide_eq_true_eq]

/-- The latest boundary is `start`, or it is a boundary behind `start` and not behind line `i`, and no such
boundary is later. -/
theorem latest_spec (boundaries : List Nat) (start i : Nat) :
    start ≤ latest boundaries start i ∧ (∀ b ∈ boundaries, b ≤ i → b ≤ latest boundaries start i) ∧
      (start < latest boundaries start i →
        latest boundaries start i ∈ boundaries ∧ latest boundaries start i ≤ i) := by
  induction boundaries generalizing start with
  | nil => exact ⟨Nat.le_refl start, by simp, fun h => absurd h (Nat.lt_irrefl start)⟩
  | cons b boundaries ih =>
    rw [latest_cons]
    split
    · next hb =>
      obtain ⟨hle, hall, hmem⟩ := ih b
      refine ⟨hb.2.le.trans hle, ?_, fun _ => ?_⟩
      · intro c hc hci
        rcases List.mem_cons.1 hc with rfl | hc
        · exact hle
        · exact hall c hc hci
      · rcases Nat.eq_or_lt_of_le hle with heq | hlt
        · rw [← heq]
          exact ⟨List.mem_cons_self, hb.1⟩
        · exact (hmem hlt).imp_left (List.mem_cons_of_mem b)
    · next hb =>
      obtain ⟨hle, hall, hmem⟩ := ih start
      refine ⟨hle, ?_, fun hlt => (hmem hlt).imp_left (List.mem_cons_of_mem b)⟩
      intro c hc hci
      rcases List.mem_cons.1 hc with rfl | hc
      · omega
      · exact hall c hc hci

/-- Adding a line appends it to the current part, or cuts at a boundary, or begins a part with it. -/
theorem Progress.step_cases (count : Counter) (limit : Int) (boundaries : List Nat) (lines : List String)
    (s : Progress) (line : String) (i : Nat) :
    (s.step count limit boundaries lines line i =
        { s with current := s.current ++ [line], tokens := s.tokens + count (line ++ "\n") } ∧
      s.stranded count limit boundaries line i = []) ∨
    (∃ cut, s.start < cut ∧ cut ≤ i ∧
      s.step count limit boundaries lines line i =
        ⟨addPart s.parts (range lines s.start cut), range lines cut (i + 1),
          tokensOf count (range lines cut (i + 1)), cut⟩ ∧
      s.stranded count limit boundaries line i = s.current.take (s.start + s.current.length - i)) ∨
    (s.step count limit boundaries lines line i =
        ⟨if s.current.isEmpty then s.parts else s.parts ++ [unlines s.current], [line],
          count (line ++ "\n"), i + 1⟩ ∧
      s.stranded count limit boundaries line i = []) := by
  by_cases hfit : ((s.tokens + count (line ++ "\n") : Nat) : Int) ≤ limit
  · exact Or.inl ⟨by simp only [Progress.step, if_pos hfit], by simp only [Progress.stranded, if_pos hfit]⟩
  · refine Or.inr ?_
    by_cases hcut : s.start < latest boundaries s.start i
    · have hle : latest boundaries s.start i ≤ i := ((latest_spec boundaries s.start i).2.2 hcut).2
      exact Or.inl ⟨_, hcut, hle, by simp only [Progress.step, if_neg hfit, if_pos hcut],
        by simp only [Progress.stranded, if_neg hfit, if_pos hcut]⟩
    · exact Or.inr ⟨by simp only [Progress.step, if_neg hfit, if_neg hcut],
        by simp only [Progress.stranded, if_neg hfit, if_neg hcut]⟩

/-- Lines up to one number are those up to a lower one and those from there on. -/
theorem take_append_range (lines : List String) {a b : Nat} (h : a ≤ b) :
    lines.take a ++ range lines a b = lines.take b := by
  rw [range, ← List.take_add, Nat.add_sub_cancel' h]

/-- There are lines from one number up to a higher one, as far as there are lines at all. -/
theorem range_ne_nil (lines : List String) {a b : Nat} (h : a < b) (ha : a < lines.length) :
    range lines a b ≠ [] := by
  apply List.ne_nil_of_length_pos
  rw [range, List.length_take, List.length_drop]
  omega

/-- The lines `done` are the segments in order and, as far as they are not blank, the lines left out. -/
structure Accounts (done : List String) (segments : List (List String)) (lost : List String) : Prop where
  filled : ∀ segment ∈ segments, segment ≠ []
  sublist : segments.flatten.Sublist done
  counted : ∀ line, isBlankText line = false →
    segments.flatten.count line + lost.count line = done.count line

namespace Accounts

variable {done lost : List String} {segments : List (List String)}

theorem nil : Accounts [] [] [] :=
  ⟨by simp, List.Sublist.refl _, by simp⟩

/-- One more segment behind lines that are left out. -/
theorem keep (h : Accounts done segments lost) (gap : List String) {segment : List String}
    (hne : segment ≠ []) :
    Accounts (done ++ gap ++ segment) (segments ++ [segment]) (lost ++ gap) := by
  refine ⟨?_, ?_, ?_⟩
  · intro s hs
    rcases List.mem_append.1 hs with hs | hs
    · exact h.filled s hs
    · rw [List.mem_singleton.1 hs]
      exact hne
  · rw [List.flatten_append, List.flatten_singleton]
    exact (h.sublist.trans (List.sublist_append_left done gap)).append (List.Sublist.refl segment)
  · intro line hline
    have := h.counted line hline
    simp only [List.flatten_append, List.flatten_singleton, List.count_append]
    omega

/-- Blank lines may be passed over. -/
theorem skip (h : Accounts done segments lost) (gap : List String) {blank : List String}
    (hblank : ∀ line ∈ blank, isBlankText line = true) :
    Accounts (done ++ gap ++ blank) segments (lost ++ gap) := by
  refine ⟨h.filled, ?_, ?_⟩
  · rw [List.append_assoc]
    exact h.sublist.trans (List.sublist_append_left done (gap ++ blank))
  · intro line hline
    have hzero : blank.count line = 0 := by
      rw [List.count_eq_zero]
      intro hmem
      rw [hblank line hmem] at hline
      exact absurd hline (by decide)
    have := h.counted line hline
    simp only [List.count_append]
    omega

/-- A part that is added unless it is blank keeps the accounts, and its lines that are not blank. -/
theorem addPart (h : Accounts done segments lost) (gap : List String) {segment : List String}
    (hne : segment ≠ []) :
    ∃ segments', Section.addPart (segments.map unlines) segment = segments'.map unlines ∧
      Accounts (done ++ gap ++ segment) segments' (lost ++ gap) ∧
      ∀ line ∈ segment, isBlankText line = false → line ∈ segments'.flatten := by
  by_cases hblank : isBlankText (unlines segment) = true
  · have hall : ∀ line ∈ segment, isBlankText line = true := by
      rw [Text.isBlankText_unlines] at hblank
      exact List.all_eq_true.1 hblank
    refine ⟨segments, by simp only [Section.addPart, if_pos hblank], h.skip gap hall, ?_⟩
    intro line hmem hline
    rw [hall line hmem] at hline
    exact absurd hline (by decide)
  · refine ⟨segments ++ [segment], ?_, h.keep gap hne, ?_⟩
    · simp only [Section.addPart, if_neg hblank, List.map_append, List.map_cons, List.map_nil]
    · intro line hmem _
      rw [List.flatten_append, List.flatten_singleton]
      exact List.mem_append_right _ hmem

section Lines

variable {lines : List String}

/-- The lines of a segment are lines of the section. -/
theorem isLine (h : Accounts lines segments lost) (hl : ∀ line ∈ lines, IsLine line)
    {segment : List String} (hs : segment ∈ segments) : ∀ line ∈ segment, IsLine line := by
  intro line hline
  exact hl line (h.sublist.subset (List.mem_flatten.2 ⟨segment, hs, hline⟩))

/-- The lines of the parts are lines of the section, in order. -/
theorem lines_sublist (h : Accounts lines segments lost) (hl : ∀ line ∈ lines, IsLine line) :
    ((segments.map unlines).flatMap Text.lines).Sublist lines := by
  refine List.Sublist.trans ?_ h.sublist
  rw [List.flatMap_map, ← List.flatMap_id']
  exact List.Sublist.flatMap_right segments fun segment hs =>
    Text.lines_unlines_sublist (h.isLine hl hs)

/-- Every line that is not blank is in the parts or was left out. -/
theorem count_lines (h : Accounts lines segments lost) (hl : ∀ line ∈ lines, IsLine line) {line : String}
    (hline : isBlankText line = false) :
    ((segments.map unlines).flatMap Text.lines).count line + lost.count line = lines.count line := by
  have hsegments : segments.map (List.count line ∘ fun segment => Text.lines (unlines segment)) =
      segments.map (List.count line) := by
    apply List.map_congr_left
    intro segment hs
    exact Text.count_lines_unlines (h.isLine hl hs) (Text.ne_empty_of_not_isBlankText hline)
  rw [← h.counted line hline, List.flatMap_map, List.count_flatMap, List.count_flatten, hsegments]

/-- Where there are several parts, each has fewer lines than the section. -/
theorem length_lines_lt (h : Accounts lines segments lost) (hl : ∀ line ∈ lines, IsLine line)
    (hlen : 2 ≤ segments.length) {part : String} (hpart : part ∈ segments.map unlines) :
    (Text.lines part).length < lines.length := by
  obtain ⟨segment, hs, rfl⟩ := List.mem_map.1 hpart
  obtain ⟨front, back, rfl⟩ := List.append_of_mem hs
  -- another segment has a line of its own
  have hother : 0 < (front ++ back).flatten.length := by
    have hne : front ++ back ≠ [] := by
      intro hnil
      have := congrArg List.length hnil
      simp only [List.length_append, List.length_cons, List.length_nil] at hlen this
      omega
    obtain ⟨other, hmem⟩ := List.exists_mem_of_ne_nil _ hne
    have hfilled := h.filled other (by
      rcases List.mem_append.1 hmem with hm | hm
      · exact List.mem_append_left _ hm
      · exact List.mem_append_right _ (List.mem_cons_of_mem _ hm))
    exact (List.length_pos_iff.2 hfilled).trans_le (List.sublist_flatten_of_mem hmem).length_le
  have hjoined := (Text.lines_unlines_sublist (h.isLine hl hs)).length_le
  have hall := h.sublist.length_le
  simp only [List.flatten_append, List.flatten_cons, List.length_append] at hother hall
  omega

/-- Of lines none of which is blank every part has one. -/
theorem lines_ne_nil (h : Accounts lines segments lost) (hl : ∀ line ∈ lines, IsLine line)
    (hblank : ∀ line ∈ lines, isBlankText line = false) {part : String}
    (hpart : part ∈ segments.map unlines) : Text.lines part ≠ [] := by
  obtain ⟨segment, hs, rfl⟩ := List.mem_map.1 hpart
  obtain ⟨line, hline⟩ := List.exists_mem_of_ne_nil _ (h.filled segment hs)
  have hmem : line ∈ lines := h.sublist.subset (List.mem_flatten.2 ⟨segment, hs, hline⟩)
  have hcount := Text.count_lines_unlines (h.isLine hl hs)
    (Text.ne_empty_of_not_isBlankText (hblank line hmem))
  have hpos : 0 < (Text.lines (unlines segment)).count line := by
    rw [hcount]
    exact List.count_pos_iff.2 hline
  exact List.ne_nil_of_mem (List.count_pos_iff.1 hpos)

end Lines

end Accounts

/-- What holds after the first `i` lines: they are `done` and the current part, and the segments of the
parts account for `done`. -/
structure Progress.Reached (lines : List String) (i : Nat) (s : Progress) (done : List String)
    (segments : List (List String)) (lost : List String) : Prop where
  parts_eq : s.parts = segments.map unlines
  taken : lines.take i = done ++ s.current
  start_le : s.start ≤ i
  done_le : done.length ≤ s.start
  current_ne : i ≠ 0 → s.current ≠ []
  accounts : Accounts done segments lost

namespace Progress.Reached

variable {lines done lost : List String} {segments : List (List String)} {line : String}
variable {i : Nat} {s : Progress}

/-- Before any line nothing is done. -/
theorem start (lines : List String) : Reached lines 0 {} [] [] [] :=
  ⟨rfl, by simp, Nat.le_refl 0, Nat.le_refl 0, fun h => absurd rfl h, Accounts.nil⟩

/-- The lines up to a cut are those done, those left out, and those from `start` up to the cut. -/
theorem take_cut (h : Reached lines i s done segments lost) (hi : i ≤ lines.length) {cut : Nat}
    (hcut : s.start < cut) :
    lines.take cut =
      done ++ s.current.take (s.start + s.current.length - i) ++ range lines s.start cut := by
  have hlen : i = done.length + s.current.length := by
    have := congrArg List.length h.taken
    rw [List.length_take, List.length_append] at this
    omega
  have hstart : lines.take s.start = done ++ s.current.take (s.start - done.length) := by
    calc lines.take s.start = (lines.take i).take s.start := by
          rw [List.take_take, Nat.min_eq_left h.start_le]
      _ = done ++ s.current.take (s.start - done.length) := by
          rw [h.taken, List.take_append, List.take_of_length_le h.done_le]
  rw [← take_append_range lines (Nat.le_of_lt hcut), hstart]
  congr 3
  omega

/-- What adding one line preserves, with the lines that it leaves out. -/
theorem step (count : Counter) (limit : Int) (boundaries : List Nat)
    (h : Reached lines i s done segments lost) (hline : lines.drop i = line :: lines.drop (i + 1))
    (hi : i < lines.length) :
    ∃ done' segments', Reached lines (i + 1) (s.step count limit boundaries lines line i) done' segments'
      (lost ++ s.stranded count limit boundaries line i) := by
  have hnext : lines.take (i + 1) = lines.take i ++ [line] := by
    rw [List.take_add, hline]
    rfl
  rcases Progress.step_cases count limit boundaries lines s line i with
    ⟨hs, hlost⟩ | ⟨cut, hcut, hle, hs, hlost⟩ | ⟨hs, hlost⟩
  · -- the line joins the current part
    rw [hs, hlost, List.append_nil]
    refine ⟨done, segments, h.parts_eq, ?_, Nat.le_succ_of_le h.start_le, h.done_le, ?_, h.accounts⟩
    · rw [hnext, h.taken, List.append_assoc]
    · simp
  · -- a boundary ends the part that was begun at `start`
    have hne := range_ne_nil lines hcut (by omega)
    obtain ⟨segments', hparts, hacc, _⟩ :=
      h.accounts.addPart (s.current.take (s.start + s.current.length - i)) hne
    rw [← h.take_cut (Nat.le_of_lt hi) hcut] at hacc
    rw [hs, hlost]
    refine ⟨lines.take cut, segments', ?_, ?_, Nat.le_succ_of_le hle, ?_, ?_, hacc⟩
    · rw [h.parts_eq]
      exact hparts
    · exact (take_append_range lines (Nat.le_succ_of_le hle)).symm
    · rw [List.length_take]
      exact Nat.min_le_left cut lines.length
    · exact fun _ => range_ne_nil lines (Nat.lt_succ_of_le hle) (by omega)
  · -- the line begins a part, and the current part ends in front of it
    rw [hs, hlost]
    by_cases hcur : s.current = []
    · refine ⟨done, segments, ?_, ?_, Nat.le_refl _, ?_, by simp, by simpa using h.accounts⟩
      · simp only [hcur, List.isEmpty_nil, if_true, h.parts_eq]
      · rw [hnext, h.taken, hcur, List.append_nil]
      · exact h.done_le.trans (Nat.le_succ_of_le h.start_le)
    · have hacc := h.accounts.keep [] hcur
      rw [List.append_nil, ← h.taken] at hacc
      refine ⟨lines.take i, segments ++ [s.current], ?_, hnext, Nat.le_refl _, ?_, by simp, hacc⟩
      · simp only [List.isEmpty_eq_false_iff.2 hcur, Bool.false_eq_true, if_false, h.parts_eq,
          List.map_append, List.map_cons, List.map_nil]
      · rw [List.length_take]
        exact (Nat.min_le_left i lines.length).trans (Nat.le_succ i)

/-- What adding all further lines preserves. -/
theorem run (count : Counter) (limit : Int) (boundaries : List Nat) {rest : List String}
    (h : Reached lines i s done segments lost) (hrest : lines.drop i = rest)
    (hi : i ≤ lines.length) :
    ∃ done' segments', Reached lines lines.length
      ((rest.zipIdx i).foldl (fun s (line, i) => s.step count limit boundaries lines line i) s) done' segments'
      (lost ++ strandedFrom count limit boundaries lines s i rest) := by
  induction rest generalizing i s done segments lost with
  | nil =>
    have hend : i = lines.length := Nat.le_antisymm hi (List.drop_eq_nil_iff.1 hrest)
    subst hend
    exact ⟨done, segments, by simpa [strandedFrom] using h⟩
  | cons line rest ih =>
    have hlt : i < lines.length := by
      have := congrArg List.length hrest
      rw [List.length_drop, List.length_cons] at this
      omega
    have hdrop : lines.drop (i + 1) = rest := by
      rw [← List.drop_drop, hrest]
      rfl
    obtain ⟨done', segments', h'⟩ := h.step count limit boundaries (by rw [hrest, hdrop]) hlt
    obtain ⟨done'', segments'', h''⟩ := ih h' hdrop hlt
    refine ⟨done'', segments'', ?_⟩
    rw [List.zipIdx_cons, List.foldl_cons, strandedFrom, ← List.append_assoc]
    exact h''

/-- When all lines have been added, the accounts are those of all lines, and the last line is in a
segment unless it is blank. -/
theorem finish (h : Reached lines lines.length s done segments lost) :
    ∃ segments', s.finish = segments'.map unlines ∧ Accounts lines segments' lost ∧
      ∀ line, lines.getLast? = some line → isBlankText line = false → line ∈ segments'.flatten := by
  have hall : lines = done ++ s.current := by rw [← h.taken, List.take_length]
  by_cases hcur : s.current = []
  · have hnil : lines = [] := by
      by_contra hne
      exact h.current_ne (by simpa using hne) hcur
    rw [hcur, List.append_nil] at hall
    refine ⟨segments, ?_, hall ▸ h.accounts, by simp [hnil]⟩
    rw [Progress.finish, hcur, ← h.parts_eq]
    rfl
  · obtain ⟨segments', hparts, hacc, hkept⟩ := h.accounts.addPart [] hcur
    refine ⟨segments', ?_, ?_, ?_⟩
    · rw [Progress.finish, List.isEmpty_eq_false_iff.2 hcur, h.parts_eq]
      exact hparts
    · rw [List.append_nil, List.append_nil, ← hall] at hacc
      exact hacc
    · intro line hlast hline
      rw [hall, List.getLast?_append_of_ne_nil done hcur] at hlast
      have hmem : line ∈ s.current := List.mem_of_getLast? hlast
      exact hkept line hmem hline

end Progress.Reached

/-- The parts of a pass are joined segments of the lines, in order, and together with the lines left out
they hold every line that is not blank as often as it is there. -/
theorem splitOnce_segments (count : Counter) (limit : Int) (boundaries : List Nat) (lines : List String) :
    ∃ segments, splitOnce count limit boundaries lines = segments.map unlines ∧
      Accounts lines segments (stranded count limit boundaries lines) ∧
      ∀ line, lines.getLast? = some line → isBlankText line = false → line ∈ segments.flatten := by
  obtain ⟨done, segments, h⟩ :=
    (Progress.Reached.start lines).run count limit boundaries (List.drop_zero) (Nat.zero_le _)
  exact h.finish

end CodeAtlas.Section

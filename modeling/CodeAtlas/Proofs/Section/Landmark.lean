import CodeAtlas.Proofs.Pattern.Search
import CodeAtlas.Section.Landmark
import Mathlib.Data.List.TakeWhile
import Mathlib.Data.Nat.Find

/-!
# The lines of landmarks in scripts

The patterns for scripts begin with blanks at the start of a line, and line feeds are blanks.  A match therefore
begins as many blank lines above its first visible character as the match before it leaves, and the landmark is put
there.

## Main definitions

* `Landmark.ScriptRule` — a pattern with the landmark that its matches give
* `Landmark.FirstVisible` — the position of the first character of a match that is no blank
* `Landmark.GapAbove` — a blank line that stands directly above a position

## Main results

* `Landmark.ofText_script_line` — a landmark is put on the line of its first visible character unless there is a gap
  above it
-/

namespace CodeAtlas

open Pattern

namespace Pattern

variable {cs : List Char} {q : Pattern} {i j k m n : Nat}

/-! ### Starts of lines -/

/-- A line begins at a position. -/
def startsLine (cs : List Char) (n : Nat) : Bool := (cs.take n).getLast?.all (· == '\n')

theorem startsLine_zero (cs : List Char) : startsLine cs 0 = true := rfl

theorem startsLine_succ (h : n < cs.length) : startsLine cs (n + 1) = true ↔ cs[n]? = some '\n' := by
  have hlast : (cs.take (n + 1)).getLast? = cs[n]? := by
    rw [List.take_add_one, List.getLast?_append, List.getElem?_eq_getElem h]
    rfl
  rw [startsLine, hlast, List.getElem?_eq_getElem h]
  simp

/-- All characters from one position to another are blank. -/
def blankBetween (cs : List Char) (i j : Nat) : Bool := ((cs.drop i).take (j - i)).all Text.isBlank

theorem blankBetween_trans (hij : i ≤ j) (hjk : j ≤ k) :
    blankBetween cs i k = (blankBetween cs i j && blankBetween cs j k) := by
  have hlength : k - i = (j - i) + (k - j) := by omega
  have hdrop : (cs.drop i).drop (j - i) = cs.drop j := by rw [List.drop_drop, Nat.add_sub_cancel' hij]
  rw [blankBetween, hlength, List.take_add, List.all_append, hdrop]
  rfl

theorem isBlank_of_blankBetween {c : Char} (h : blankBetween cs i j = true) (hik : i ≤ k) (hkj : k < j)
    (hc : cs[k]? = some c) : Text.isBlank c = true := by
  have hget : ((cs.drop i).take (j - i))[k - i]? = some c := by
    rw [List.getElem?_take_of_lt (by omega), List.getElem?_drop, Nat.add_sub_cancel' hik, hc]
  exact List.all_eq_true.1 h c (List.mem_of_getElem? hget)

/-! ### Patterns that begin with blanks at the start of a line -/

theorem isSome_matchAt_lineIndent (hk : k ≤ cs.length) :
    ((seq Landmark.lineIndent q).matchAt (spotAt cs k)).isSome ↔
      startsLine cs k = true ∧ ∃ n ≤ ((cs.drop k).takeWhile Text.isBlank).length,
      (q.run (spotAt cs (k + n)) some).isSome := by
  have hstart : ((spotAt cs k).last.isNone || (spotAt cs k).last == some '\n') = startsLine cs k := by
    rw [spotAt, startsLine]
    cases (cs.take k).getLast? <;> rfl
  have hrun : (seq Landmark.lineIndent q).matchAt (spotAt cs k) =
      if startsLine cs k then blanks.run (spotAt cs k) (fun t => q.run t some) else none := by
    rw [← hstart]
    rfl
  rw [hrun]
  by_cases hline : startsLine cs k = true
  · rw [if_pos hline, blanks, blank, isSome_run_many_one]
    have hskip : ∀ n ≤ ((cs.drop k).takeWhile Text.isBlank).length, (spotAt cs k).skip n = spotAt cs (k + n) := by
      intro n hn
      have hle := Nat.le_trans hn (List.takeWhile_prefix _).length_le
      rw [List.length_drop] at hle
      exact skip_spotAt (by omega)
    constructor
    · rintro ⟨n, hn, hq⟩
      exact ⟨hline, n, hn, hskip n hn ▸ hq⟩
    · rintro ⟨-, n, hn, hq⟩
      exact ⟨n, hn, (hskip n hn).symm ▸ hq⟩
  · simp [hline]

-- A match at the start of a line could as well have begun at an earlier line with only blanks in between.
theorem isSome_matchAt_of_blankBetween (hj : startsLine cs j = true) (hjk : j ≤ k) (hk : k ≤ cs.length)
    (hblank : blankBetween cs j k = true) (h : ((seq Landmark.lineIndent q).matchAt (spotAt cs k)).isSome) :
    ((seq Landmark.lineIndent q).matchAt (spotAt cs j)).isSome := by
  obtain ⟨-, n, hn, hq⟩ := (isSome_matchAt_lineIndent hk).1 h
  refine (isSome_matchAt_lineIndent (by omega)).2 ⟨hj, (k - j) + n, ?_, ?_⟩
  · have hsplit : cs.drop j = (cs.drop j).take (k - j) ++ cs.drop k := by
      rw [← Nat.add_sub_cancel' hjk, ← List.drop_drop, Nat.add_sub_cancel_left, List.take_append_drop]
    have hall : ∀ c ∈ (cs.drop j).take (k - j), Text.isBlank c = true := List.all_eq_true.1 hblank
    rw [hsplit, List.takeWhile_append_of_pos hall, List.length_append, List.length_take, List.length_drop]
    omega
  · rwa [← Nat.add_assoc, Nat.add_sub_cancel' hjk]

/-! ### Characters that a match must read -/

theorem exists_spells_of_concat {ps : List Pattern} {p : Pattern} {w : List Char} (hp : p ∈ ps)
    (h : (concat ps).Spells w) :
    ∃ u, p.Spells u ∧ ∀ c ∈ u, c ∈ w := by
  induction ps generalizing w with
  | nil => cases hp
  | cons first rest ih =>
    cases rest with
    | nil =>
      obtain rfl := List.mem_singleton.1 hp
      exact ⟨w, h, fun _ hc => hc⟩
    | cons second rest =>
      obtain ⟨u, v, hu, hv, rfl⟩ := h
      rcases List.mem_cons.1 hp with rfl | hlater
      · exact ⟨u, hu, fun _ hc => List.mem_append_left _ hc⟩
      · obtain ⟨u', hu', hsub⟩ := ih hlater hv
        exact ⟨u', hu', fun c hc => List.mem_append_right _ (hsub c hc)⟩

theorem mem_of_spells_char {c : Char} {w : List Char} (h : (Landmark.char c).Spells w) : c ∈ w := by
  obtain ⟨d, hd, rfl⟩ := h
  simpa using (beq_iff_eq.1 hd).symm

theorem mem_of_spells_literal {text : String} {c : Char} {w : List Char} (hc : c ∈ text.toList)
    (h : (literal text).Spells w) : c ∈ w := by
  obtain ⟨u, hu, hsub⟩ := exists_spells_of_concat (List.mem_map_of_mem hc) h
  exact hsub c (mem_of_spells_char hu)

end Pattern

namespace Landmark

variable {content : String} {cs : List Char} {q : Pattern} {f : Found} {k m since : Nat}

/-! ### Lines -/

theorem lineAt_eq_iff (hkm : k ≤ m) (hm : m ≤ content.toList.length) :
    lineAt content k = lineAt content m ↔ ∀ j, k < j → j ≤ m → ¬startsLine content.toList j = true := by
  let between := (content.toList.drop k).take (m - k)
  have hcount : lineAt content m = lineAt content k + between.count '\n' := by
    have htake : content.toList.take m = content.toList.take k ++ between := by
      rw [← List.take_add, Nat.add_sub_cancel' hkm]
    rw [lineAt, lineAt, htake, List.count_append]
    omega
  have hget : ∀ i, i < m - k → between[i]? = content.toList[k + i]? := by
    intro i hi
    rw [List.getElem?_take_of_lt hi, List.getElem?_drop]
  constructor
  · intro heq j hkj hjm hstart
    obtain ⟨i, rfl⟩ : ∃ i, j = k + i + 1 := ⟨j - k - 1, by omega⟩
    have hfeed := (startsLine_succ (by omega)).1 hstart
    rw [← hget i (by omega)] at hfeed
    have := List.count_pos_iff.2 (List.mem_of_getElem? hfeed)
    omega
  · intro hnone
    have hzero : between.count '\n' = 0 := by
      rw [List.count_eq_zero]
      intro hmem
      obtain ⟨i, hi⟩ := List.mem_iff_getElem?.1 hmem
      have hlt : i < m - k := by
        have := (List.getElem?_eq_some_iff.1 hi).1
        simp only [between, List.length_take] at this
        omega
      rw [hget i hlt] at hi
      exact hnone (k + i + 1) (by omega) (by omega) ((startsLine_succ (by omega)).2 hi)
    omega

/-- The start of the line with a position. -/
def lineBegin (cs : List Char) (n : Nat) : Nat := Nat.findGreatest (fun j => startsLine cs j = true) n

theorem lineBegin_le (cs : List Char) (n : Nat) : lineBegin cs n ≤ n := Nat.findGreatest_le n

theorem startsLine_lineBegin (cs : List Char) (n : Nat) : startsLine cs (lineBegin cs n) = true :=
  Nat.findGreatest_spec (P := fun j => startsLine cs j = true) (Nat.zero_le n) (startsLine_zero cs)

theorem le_lineBegin {j n : Nat} (hj : startsLine cs j = true) (h : j ≤ n) : j ≤ lineBegin cs n :=
  Nat.le_findGreatest (P := fun j => startsLine cs j = true) h hj

/-- The line above the one with a position is blank, and a search that goes on at `since` still sees all of it. -/
def GapAbove (cs : List Char) (since position : Nat) : Prop :=
  let here := lineBegin cs position
  let above := lineBegin cs (here - 1)
  0 < here ∧ since ≤ above ∧ blankBetween cs above here = true

instance (cs : List Char) (since position : Nat) : Decidable (GapAbove cs since position) :=
  inferInstanceAs (Decidable (_ ∧ _ ∧ _))

/-! ### Where a match becomes visible -/

/-- The position behind the blanks with which a match begins. -/
def origin (cs : List Char) (f : Found) : Nat := f.start + ((cs.drop f.start).takeWhile Text.isBlank).length

theorem blankBetween_origin (cs : List Char) (f : Found) : blankBetween cs f.start (origin cs f) = true := by
  rw [blankBetween, origin, Nat.add_sub_cancel_left, ← List.prefix_iff_eq_take.1 (List.takeWhile_prefix _)]
  exact List.all_takeWhile

theorem origin_lt_of_spells {w : List Char} (hw : w <+: cs.drop f.start) (hseen : ∃ c ∈ w, Text.isBlank c = false) :
    origin cs f < f.start + w.length := by
  obtain ⟨rest, hrest⟩ := hw
  obtain ⟨c, hc, hvisible⟩ := hseen
  have hshort : (w.takeWhile Text.isBlank).length ≠ w.length := by
    intro hlength
    have hall := (List.takeWhile_prefix Text.isBlank).eq_of_length hlength
    rw [← hall] at hc
    rw [List.mem_takeWhile_imp hc] at hvisible
    cases hvisible
  have hle := (List.takeWhile_prefix (l := w) Text.isBlank).length_le
  rw [origin, ← hrest, List.takeWhile_append, if_neg hshort]
  omega

/-- The position of the first character of a match that is no blank. -/
structure FirstVisible (cs : List Char) (f : Found) (n : Nat) : Prop where
  start_le : f.start ≤ n
  lt_finish : n < f.finish.position
  blank_before : blankBetween cs f.start n = true
  visible : ∃ c, cs[n]? = some c ∧ Text.isBlank c = false

theorem FirstVisible.eq {n : Nat} (h : FirstVisible cs f m) (h' : FirstVisible cs f n) : m = n := by
  have hle : ∀ {m n : Nat}, FirstVisible cs f m → FirstVisible cs f n → n ≤ m := by
    intro m n h h'
    obtain ⟨c, hc, hvisible⟩ := h.visible
    by_contra hlt
    rw [isBlank_of_blankBetween h'.blank_before h.start_le (by omega) hc] at hvisible
    cases hvisible
  exact Nat.le_antisymm (hle h' h) (hle h h')

theorem not_isBlank_origin (h : origin cs f < cs.length) : ∃ c, cs[origin cs f]? = some c ∧ Text.isBlank c = false := by
  refine ⟨cs[origin cs f], List.getElem?_eq_getElem h, ?_⟩
  have hhead : ((cs.drop f.start).dropWhile Text.isBlank).head? = some cs[origin cs f] := by
    have hsplit := List.takeWhile_append_dropWhile (p := Text.isBlank) (l := cs.drop f.start)
    have hdrop := congrArg (List.drop ((cs.drop f.start).takeWhile Text.isBlank).length) hsplit
    rw [List.drop_left, List.drop_drop] at hdrop
    rw [hdrop, List.head?_drop]
    exact List.getElem?_eq_getElem h
  have hnot := List.head?_dropWhile_not Text.isBlank (cs.drop f.start)
  rw [hhead] at hnot
  exact hnot

theorem firstVisible_origin {p : Pattern} (hp : ∀ w, p.Spells w → ∃ c ∈ w, Text.isBlank c = false)
    (h : FirstMatch p cs since f) : FirstVisible cs f (origin cs f) := by
  obtain ⟨w, hw, hpre, hfinish, hle, -⟩ := h.exists_spells
  have hlt := origin_lt_of_spells hpre (hp w hw)
  exact ⟨Nat.le_add_right _ _, by omega, blankBetween_origin cs f, not_isBlank_origin (by omega)⟩

/-- A match begins on the line of its first visible character unless a blank line stands directly above. -/
theorem lineAt_start_eq_iff (h : FirstMatch (seq lineIndent q) content.toList since f)
    (horigin : origin content.toList f ≤ content.toList.length) :
    lineAt content f.start = lineAt content (origin content.toList f) ↔
      ¬GapAbove content.toList since (origin content.toList f) := by
  have hsome : ((seq lineIndent q).matchAt (spotAt content.toList f.start)).isSome := by rw [h.matchAt_eq]; rfl
  have hstart := ((isSome_matchAt_lineIndent h.start_le).1 hsome).1
  have hle : f.start ≤ origin content.toList f := Nat.le_add_right _ _
  have hblank := blankBetween_origin content.toList f
  generalize origin content.toList f = m at *
  have hhere := le_lineBegin hstart hle
  have hm := lineBegin_le content.toList m
  rw [lineAt_eq_iff hle horigin]
  constructor
  · -- the line that is above could have been taken into the match
    rintro hnone ⟨hpos, hsince, hgap⟩
    have heq : lineBegin content.toList m = f.start := by
      by_contra hne
      exact hnone _ (by omega) hm (startsLine_lineBegin _ _)
    rw [heq] at hpos hsince hgap
    have habove := lineBegin_le content.toList (f.start - 1)
    have hearlier := isSome_matchAt_of_blankBetween (startsLine_lineBegin _ _) (by omega) h.start_le hgap hsome
    rw [h.none_before _ hsince (by omega)] at hearlier
    cases hearlier
  · -- all lines between the start and the visible character are blank
    intro hgap j hlt hjm hline
    have hlater := le_lineBegin hline hjm
    have habove := le_lineBegin hstart (show f.start ≤ lineBegin content.toList m - 1 by omega)
    have habove_le := lineBegin_le content.toList (lineBegin content.toList m - 1)
    refine hgap ⟨by omega, Nat.le_trans h.since_le habove, ?_⟩
    rw [blankBetween_trans hhere hm, blankBetween_trans habove (by omega)] at hblank
    simp only [Bool.and_eq_true] at hblank
    exact hblank.1.2

/-! ### The patterns for scripts -/

/-- A pattern with the landmarks that its matches give. -/
structure ScriptRule where
  pattern : Pattern
  kind : LandmarkKind
  reach : Nat
  name : Found → String := (·.group 1)
  keeps : String → Bool := fun _ => true

def scriptRules : List ScriptRule :=
  [{ pattern := classPattern, kind := .classHead, reach := 10 },
   { pattern := headPattern "constructor", kind := .special, reach := 5, name := fun _ => "constructor" },
   { pattern := headPattern "initialize", kind := .special, reach := 5, name := fun _ => "initialize" },
   { pattern := staticPattern, kind := .static, reach := 5 },
   { pattern := methodPattern, kind := .method, reach := 5, keeps := isMethodName },
   { pattern := functionPattern, kind := .function, reach := 5 },
   { pattern := arrowPattern, kind := .arrow, reach := 5 }]

namespace ScriptRule

/-- The landmark of a match. -/
def landmark (r : ScriptRule) (content : String) (f : Found) : Landmark :=
  ⟨r.kind, r.name f, lineAt content f.start, lineAt content f.start + r.reach, some (lineAt content f.start)⟩

/-- The matches that are kept, each with the position from which it was searched for. -/
def kept (r : ScriptRule) (content : String) : List (Nat × Found) :=
  (tracked 0 (r.pattern.findAll content)).filter fun e => r.keeps (r.name e.2)

theorem map_landmark_kept (r : ScriptRule) (content : String) :
    (r.kept content).map (fun e => r.landmark content e.2) =
      (ofMatches content r.pattern r.kind r.reach r.name).filter fun l => r.keeps l.name := by
  rw [ofMatches, ← map_snd_tracked 0 (r.pattern.findAll content), List.map_map, List.filter_map]
  rfl

end ScriptRule

theorem scriptMatches_eq (content : String) :
    scriptMatches content = scriptRules.flatMap fun r => (r.kept content).map fun e => r.landmark content e.2 := by
  simp only [ScriptRule.map_landmark_kept]
  simp [scriptMatches, scriptRules]

theorem exists_lineIndent_of_mem {r : ScriptRule} (hr : r ∈ scriptRules) :
    ∃ q, r.pattern = seq lineIndent q ∧ ∀ w, r.pattern.Spells w → ∃ c ∈ w, Text.isBlank c = false := by
  have hmark : ∀ {ps : List Pattern} {p : Pattern} (c : Char), p ∈ ps → Text.isBlank c = false →
      (∀ u, p.Spells u → c ∈ u) → ∀ w, (concat ps).Spells w → ∃ c ∈ w, Text.isBlank c = false := by
    intro ps p c hp hc hmem w hw
    obtain ⟨u, hu, hsub⟩ := exists_spells_of_concat hp hw
    exact ⟨c, hsub c (hmem u hu), hc⟩
  simp only [scriptRules, List.mem_cons, List.not_mem_nil, or_false] at hr
  rcases hr with rfl | rfl | rfl | rfl | rfl | rfl | rfl
  · exact ⟨_, rfl, hmark (p := literal "class") 'c' (by simp) (by decide) fun _ => mem_of_spells_literal (by decide)⟩
  · exact ⟨_, rfl, hmark (p := char '(') '(' (by simp) (by decide) fun _ => mem_of_spells_char⟩
  · exact ⟨_, rfl, hmark (p := char '(') '(' (by simp) (by decide) fun _ => mem_of_spells_char⟩
  · exact ⟨_, rfl, hmark (p := literal "static") 's' (by simp) (by decide) fun _ => mem_of_spells_literal (by decide)⟩
  · exact ⟨_, rfl, hmark (p := char '\x7b') '\x7b' (by simp) (by decide) fun _ => mem_of_spells_char⟩
  · exact ⟨_, rfl, hmark (p := literal "function") 'f' (by simp) (by decide) fun _ => mem_of_spells_literal (by decide)⟩
  · exact ⟨_, rfl, hmark (p := char '=') '=' (by simp) (by decide) fun _ => mem_of_spells_char⟩

theorem exists_ofText_eq_append {extension : String} (hscript : scriptExtensions.contains (Text.lower extension) = true)
    (hfound : scriptMatches content ≠ []) : ∃ others, ofText content extension = scriptMatches content ++ others := by
  refine ⟨looseInitializer content (scriptMatches content) ++ counterMethod content, ?_⟩
  rw [ofText, if_pos hscript, ofScript, List.append_assoc, if_neg]
  simp [hfound]

/-- The patterns for scripts put a landmark on the line of its first visible character exactly if there is no gap
above it. -/
theorem ofText_script_line (content extension : String)
    (hscript : scriptExtensions.contains (Text.lower extension) = true) :
    (scriptMatches content ≠ [] → ∃ others, ofText content extension = scriptMatches content ++ others) ∧
    scriptMatches content = (scriptRules.flatMap fun r => (r.kept content).map fun e => r.landmark content e.2) ∧
    ∀ r ∈ scriptRules, ∀ e ∈ r.kept content,
      (r.landmark content e.2).line = some (r.landmark content e.2).start ∧
      FirstMatch r.pattern content.toList e.1 e.2 ∧
      (∃ n, FirstVisible content.toList e.2 n) ∧
      ∀ n, FirstVisible content.toList e.2 n →
        ((r.landmark content e.2).start = lineAt content n ↔ ¬GapAbove content.toList e.1 n) := by
  refine ⟨exists_ofText_eq_append hscript, scriptMatches_eq content, fun r hr e he => ⟨rfl, ?_⟩⟩
  obtain ⟨since, f⟩ := e
  have hfirst := firstMatch_of_mem_tracked (List.mem_of_mem_filter he)
  obtain ⟨q, hq, hspells⟩ := exists_lineIndent_of_mem hr
  have hvisible := firstVisible_origin hspells hfirst
  have hle : origin content.toList f ≤ content.toList.length := by
    obtain ⟨w, -, -, -, hfinish, -⟩ := hfirst.exists_spells
    have := hvisible.lt_finish
    omega
  refine ⟨hfirst, ⟨_, hvisible⟩, fun n hn => ?_⟩
  obtain rfl := hvisible.eq hn
  rw [hq] at hfirst
  exact lineAt_start_eq_iff hfirst hle

/-- A comment directly above a class leaves the class on its own line, the second one. -/
theorem ofText_script_line_comment_above :
    scriptExtensions.contains (Text.lower ".TSX") = true ∧
    ∃ r ∈ scriptRules, ∃ e ∈ r.kept "// one\nclass A \x7b\x7d\n",
    ∃ n, FirstVisible "// one\nclass A \x7b\x7d\n".toList e.2 n ∧
      (r.landmark "// one\nclass A \x7b\x7d\n" e.2).start = 2 := by
  refine ⟨by decide +kernel, _, List.mem_cons_self, ?_⟩
  have heval : (ScriptRule.kept { pattern := classPattern, kind := .classHead, reach := 10 }
      "// one\nclass A \x7b\x7d\n").map
      (fun e => (e.1, origin "// one\nclass A \x7b\x7d\n".toList e.2)) = [(0, 7)] := by decide +kernel
  obtain ⟨e, he, heq⟩ := List.mem_map.1 (heval ▸ List.mem_singleton_self _)
  obtain ⟨hsince, horigin⟩ := Prod.mk.inj heq
  obtain ⟨-, hfirst, -, hline⟩ :=
    (ofText_script_line "// one\nclass A \x7b\x7d\n" ".TSX" (by decide +kernel)).2.2 _ List.mem_cons_self e he
  have hvisible := firstVisible_origin (exists_lineIndent_of_mem List.mem_cons_self).choose_spec.2 hfirst
  rw [horigin] at hvisible
  rw [hsince] at hline
  exact ⟨e, he, 7, hvisible, (hline 7 hvisible).2 (by decide +kernel)⟩

/-- A class below an empty line is put on that line. -/
theorem ofText_script_line_below_gap :
    (ofText "\nclass A \x7b\x7d\n" ".js").map (fun l => (l.name, l.start, l.line)) = [("A", 1, some 1)] ∧
    ∃ r ∈ scriptRules, ∃ e ∈ r.kept "\nclass A \x7b\x7d\n", FirstVisible "\nclass A \x7b\x7d\n".toList e.2 1 ∧
      (r.landmark "\nclass A \x7b\x7d\n" e.2).start = 1 ∧ lineAt "\nclass A \x7b\x7d\n" 1 = 2 := by
  refine ⟨by decide +kernel, _, List.mem_cons_self, ?_⟩
  have heval : (ScriptRule.kept { pattern := classPattern, kind := .classHead, reach := 10 } "\nclass A \x7b\x7d\n").map
      (fun e => (e.2.start, origin "\nclass A \x7b\x7d\n".toList e.2)) = [(0, 1)] := by decide +kernel
  obtain ⟨e, he, heq⟩ := List.mem_map.1 (heval ▸ List.mem_singleton_self _)
  obtain ⟨hstart, horigin⟩ := Prod.mk.inj heq
  have hfirst := firstMatch_of_mem_tracked (List.mem_of_mem_filter he)
  have hvisible := firstVisible_origin (exists_lineIndent_of_mem List.mem_cons_self).choose_spec.2 hfirst
  rw [horigin] at hvisible
  refine ⟨e, he, hvisible, ?_, by decide +kernel⟩
  show lineAt _ e.2.start = 1
  rw [hstart]
  rfl

end Landmark

end CodeAtlas

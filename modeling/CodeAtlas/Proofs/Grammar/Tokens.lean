import CodeAtlas.Grammar.Cursor
import CodeAtlas.Proofs.Grammar.Lexemes
import CodeAtlas.Proofs.Text.Physical

/-!
# The lines of tokens

The scanner never goes back to an earlier line, so the tokens of a source text stand in the order of their lines.  The
line of the scanner is the number of line ends it has read, and one more; since no lexeme ends behind the last line
end, all of them end on a line of the source.

## Main definitions

* `Token.Ordered` — tokens in the order of their lines
* `Token.Between` — tokens in that order, from one line to another
* `Token.EndsBy` — a lexeme that ends on one of the first lines
* `Lexical.Advance` — what the scanner does in a step

## Main results

* `Lexical.step_advance` — one step, whose tokens lie between the lines before and after it
* `Token.scan_ordered` — the tokens of a source text are in the order of their lines
* `Token.scan_sound` — the lexemes of a source text end on its lines
-/

namespace CodeAtlas.Grammar

/-- The tokens stand in the order of their lines. -/
def Token.Ordered (ts : List Token) : Prop := ts.Pairwise fun a b => a.line ≤ b.line

/-- The tokens stand in the order of their lines, and these are between two lines. -/
structure Token.Between (first last : Nat) (ts : List Token) : Prop where
  ordered : Ordered ts
  lines : ∀ t ∈ ts, first ≤ t.line ∧ t.line ≤ last
  le : first ≤ last

namespace Token.Between

variable {first middle last : Nat} {xs ys : List Token} {t : Token}

theorem nil (h : first ≤ last) : Between first last [] := ⟨.nil, by simp, h⟩

theorem replicate (n : Nat) (h : t.line = first) : Between first first (List.replicate n t) where
  ordered := List.pairwise_replicate.2 (Or.inr (Nat.le_refl _))
  lines u hu := by
    rw [List.eq_of_mem_replicate hu, h]
    exact ⟨Nat.le_refl _, Nat.le_refl _⟩
  le := Nat.le_refl _

theorem append (hx : Between first middle xs) (hy : Between middle last ys) : Between first last (xs ++ ys) where
  ordered := by
    refine List.pairwise_append.2 ⟨hx.ordered, hy.ordered, fun a ha b hb => ?_⟩
    exact Nat.le_trans (hx.lines a ha).2 (hy.lines b hb).1
  lines t ht := by
    rcases List.mem_append.1 ht with ht | ht
    · exact ⟨(hx.lines t ht).1, Nat.le_trans (hx.lines t ht).2 hy.le⟩
    · exact ⟨Nat.le_trans hx.le (hy.lines t ht).1, (hy.lines t ht).2⟩
  le := Nat.le_trans hx.le hy.le

/-- A token at the first line. -/
theorem single (h : t.line = first) (hle : first ≤ last) : Between first last [t] := by
  have := (replicate 1 h).append (nil hle)
  simpa using this

theorem mono (h : Between middle last xs) (hle : first ≤ middle) : Between first last xs := by
  simpa using (nil hle).append h

end Token.Between

/-- The token does not end before it starts, and a lexeme ends on one of the first lines. -/
def Token.EndsBy (limit : Nat) (t : Token) : Prop := t.line ≤ t.lastLine ∧ (t.isLayout = false → t.lastLine ≤ limit)

namespace Lexical

variable {d : Dialect} {s u s' : State} {t : Token} {ts : List Token}

theorem lineEnds_append (xs ys : List Char) : lineEnds (xs ++ ys) = lineEnds xs + lineEnds ys := List.count_append

/-- Characters are read, and the line ends among them counted. -/
def State.Reads (s s' : State) : Prop := ∃ used, s.rest = used ++ s'.rest ∧ s'.line = s.line + lineEnds used

theorem State.Reads.refl (s : State) : s.Reads s := ⟨[], rfl, rfl⟩

theorem State.Reads.trans (h : s.Reads u) (h' : u.Reads s') : s.Reads s' := by
  obtain ⟨used, hrest, hline⟩ := h
  obtain ⟨more, hrest', hline'⟩ := h'
  refine ⟨used ++ more, by rw [hrest, hrest', List.append_assoc], ?_⟩
  rw [lineEnds_append]
  omega

theorem State.Reads.le (h : s.Reads s') : s.line ≤ s'.line := by
  obtain ⟨used, -, hline⟩ := h
  omega

/-- What the scanner does in a step: it reads characters, and the lexemes it finds end where it stops, in front of a
line end. -/
structure Advance (s : State) (ts : List Token) (s' : State) : Prop where
  between : Token.Between s.line s'.line ts
  reads : s.Reads s'
  ends : ∀ t ∈ ts, t.line ≤ t.lastLine ∧ (t.isLayout = false → t.lastLine = s'.line ∧ '\n' ∈ s'.rest)

namespace Advance

theorem nil (h : s.Reads s') : Advance s [] s' := ⟨.nil h.le, h, by simp⟩

theorem single (h : s.Reads s') (hline : t.line = s.line) (hle : t.line ≤ t.lastLine)
    (hend : t.isLayout = false → t.lastLine = s'.line ∧ '\n' ∈ s'.rest) : Advance s [t] s' where
  between := .single hline h.le
  reads := h
  ends u hu := by
    obtain rfl := List.mem_singleton.1 hu
    exact ⟨hle, hend⟩

theorem after (h : s.Reads u) (h' : Advance u ts s') : Advance s ts s' where
  between := h'.between.mono h.le
  reads := h.trans h'.reads
  ends := h'.ends

end Advance

theorem measure_reads {width altWidth continued line : Nat} {cs : List Char} {i : Indentation}
    (h : measure width altWidth continued line cs = some i) :
    ∃ used, cs = used ++ i.rest ∧ i.line = line + lineEnds used := by
  -- a blank is no line end, so the line counts on as before
  have hskip : ∀ {c : Char} {tail : List Char} {line : Nat}, c ≠ '\n' →
      (∃ used, tail = used ++ i.rest ∧ i.line = line + lineEnds used) →
      ∃ used, c :: tail = used ++ i.rest ∧ i.line = line + lineEnds used := by
    rintro c tail line hc ⟨used, hused, hline⟩
    refine ⟨c :: used, by rw [hused]; rfl, ?_⟩
    rw [hline, lineEnds, lineEnds, List.count_cons_of_ne hc]
  fun_induction measure width altWidth continued line cs with
  | case1 _ _ _ _ _ ih => exact hskip (by decide) (ih h)
  | case2 _ _ _ _ _ ih => exact hskip (by decide) (ih h)
  | case3 _ _ _ _ _ ih => exact hskip (by decide) (ih h)
  | case4 => simp at h
  | case5 _ _ _ _ _ _ ih =>
    obtain ⟨used, hused, hline⟩ := ih h
    refine ⟨'\\' :: '\n' :: used, by rw [hused]; rfl, ?_⟩
    rw [hline, lineEnds, lineEnds, List.count_cons_of_ne (by decide), List.count_cons_self]
    omega
  | case6 => simp at h
  | case7 =>
    obtain rfl := Option.some.inj h
    exact ⟨[], rfl, rfl⟩

theorem reindent_advance {width altWidth : Nat} (h : reindent s.line width altWidth s = some (ts, s')) :
    Advance s ts s' := by
  simp only [reindent] at h
  split_ifs at h
  · cases h
    exact .nil (.refl _)
  · cases h
    exact .single ⟨[], rfl, rfl⟩ rfl (Nat.le_refl _) (by simp [Token.isLayout])
  · cases h
    refine ⟨.replicate _ rfl, ⟨[], rfl, rfl⟩, ?_⟩
    intro t ht
    obtain rfl := List.eq_of_mem_replicate ht
    exact ⟨Nat.le_refl _, by simp [Token.isLayout]⟩

theorem leaveAsync_eq (s : State) : s.leaveAsync.line = s.line ∧ s.leaveAsync.rest = s.rest := by
  rw [State.leaveAsync]
  split
  · split <;> exact ⟨rfl, rfl⟩
  · exact ⟨rfl, rfl⟩

/-! ### Lexemes -/

/-- A lexeme starts on the line of the scanner and ends where the scanner stops. -/
structure Lexes (s : State) (t : Token) (s' : State) : Prop where
  reads : s.Reads s'
  line : t.line = s.line
  lastLine : t.lastLine = s'.line
  lexeme : t.isLayout = false

theorem Lexes.advance (h : Lexes s t s') (hfeed : '\n' ∈ s'.rest) : Advance s [t] s' := by
  refine .single h.reads h.line ?_ fun _ => ⟨h.lastLine, hfeed⟩
  rw [h.line, h.lastLine]
  exact h.reads.le

theorem take_lexes {kind : TokenKind} {rest : List Char} (hkind : (⟨kind, "", 0, 0⟩ : Token).isLayout = false)
    (h : rest <:+ s.rest) : Lexes s (s.take kind rest).1 (s.take kind rest).2 := by
  obtain ⟨used, hrest⟩ := h
  have hused : s.rest.take (s.rest.length - rest.length) = used := by
    rw [← hrest, List.length_append, Nat.add_sub_cancel, List.take_left]
  refine ⟨⟨used, hrest.symm, ?_⟩, rfl, rfl, hkind⟩
  rw [← hused]
  rfl

theorem classifyName_lexes (d : Dialect) (h : Lexes s t u) :
    Lexes s (classifyName d t u).1 (classifyName d t u).2 ∧ (classifyName d t u).2.rest = u.rest := by
  have hword : (⟨if t.text == "async" then .asyncKeyword else .awaitKeyword, "", 0, 0⟩ : Token).isLayout = false := by
    split <;> rfl
  simp only [classifyName]
  generalize (if t.text == "async" then TokenKind.asyncKeyword else .awaitKeyword) = kind at hword
  split_ifs
  · exact ⟨⟨h.reads, h.line, h.lastLine, hword⟩, rfl⟩
  · exact ⟨⟨h.reads, h.line, h.lastLine, hword⟩, rfl⟩
  · exact ⟨h, rfl⟩
  · exact ⟨h, rfl⟩

/-- A lexeme stops in front of a line end. -/
theorem lexeme_advance (hcomplete : Complete s.rest) (hfirst : s.rest.head? ≠ some '\n')
    (h : lexeme d s = some (t, s')) : Advance s [t] s' := by
  unfold lexeme at h
  cases hrest : s.rest with
  | nil => simp [hrest] at h
  | cons c more =>
    have hc : c ≠ '\n' := by simpa [hrest] using hfirst
    have hfeed : ∀ {rest}, Eats (c :: more) rest → '\n' ∈ rest := by
      intro rest heats
      exact heats.feed_mem (hrest ▸ hcomplete) (List.cons_ne_nil _ _)
    have htake : ∀ kind {rest}, (⟨kind, "", 0, 0⟩ : Token).isLayout = false → Eats (c :: more) rest →
        Lexes s (s.take kind rest).1 (s.take kind rest).2 := by
      intro kind rest hkind heats
      exact take_lexes hkind (hrest ▸ heats.suffix)
    simp only [hrest] at h
    cases hmark : stringMark? (c :: more) with
    | some n =>
      simp only [hmark, Option.map_eq_some_iff] at h
      obtain ⟨rest, hquoted, h⟩ := h
      obtain ⟨hletters, q, tail, hq, hqne⟩ := stringMark?_eats hmark
      rw [hq] at hquoted hletters
      have heats := hletters.trans (afterQuoted_eats hqne hquoted)
      cases h
      exact (htake _ rfl heats).advance (hfeed heats)
    | none =>
      simp only [hmark] at h
      split_ifs at h
      · have heats : Eats (c :: more) (List.dropWhile isNameChar (c :: more)) := dropWhile_eats (by decide) _
        obtain ⟨hlexes, hsame⟩ := classifyName_lexes d (htake .name rfl heats)
        rw [Option.some.inj h] at hlexes hsame
        exact hlexes.advance (by rw [hsame]; exact hfeed heats)
      · obtain ⟨rest, hnumber, h⟩ := Option.map_eq_some_iff.1 h
        have heats := afterNumber_eats hc hnumber
        cases h
        exact (htake _ rfl heats).advance (hfeed heats)
      · -- brackets are kept account of, which changes neither line nor rest
        obtain ⟨op, hop, h⟩ := Option.bind_eq_some_iff.1 h
        have heats := operator?_eats hop
        have hadvance := (htake .operator rfl heats).advance (hfeed heats)
        split_ifs at h
        · cases h
          exact ⟨hadvance.between, hadvance.reads, hadvance.ends⟩
        · split at h
          · split_ifs at h
            cases h
            exact ⟨hadvance.between, hadvance.reads, hadvance.ends⟩
          · cases h
        · cases h
          exact hadvance

/-! ### Steps and runs -/

/-- A comment, which is a lexeme if it states a type, ends in front of a line end. -/
theorem comment_reads (hcomplete : Complete s.rest) (hne : s.rest ≠ []) :
    ∃ tail, s.rest.drop (s.rest.takeWhile (· != '\n')).length = '\n' :: tail ∧
      (∀ {s' : State}, s'.rest = '\n' :: tail → s'.line = s.line → s.Reads s') ∧
      (∀ {s' : State}, s'.rest = tail → s'.line = s.line + 1 → s.Reads s') := by
  obtain ⟨tail, hdrop, hrest, hcount⟩ := comment_feeds hcomplete hne
  refine ⟨tail, hdrop, ?_, ?_⟩
  · intro s' hs' hline
    exact ⟨_, hs' ▸ hrest, by rw [hline, hcount]; rfl⟩
  · intro s' hs' hline
    refine ⟨s.rest.takeWhile (· != '\n') ++ ['\n'], ?_, ?_⟩
    · rw [List.append_assoc, hs']
      exact hrest
    · rw [lineEnds_append, hcount, hline]
      rfl

/-- At the start of a line only its indentation is read, or the whole line if it is blank or a comment. -/
theorem step_advance_of_lineStart (hcomplete : Complete s.rest) (hstart : s.atLineStart = true)
    (h : step d s = some (ts, s')) : Advance s ts s' := by
  rw [step, if_pos hstart] at h
  obtain ⟨i, hi, h⟩ := Option.bind_eq_some_iff.1 h
  have hindent : s.Reads { s with rest := i.rest, line := i.line, atLineStart := false } := measure_reads hi
  have hrest : Complete i.rest := by
    obtain ⟨used, hused, -⟩ := measure_reads hi
    exact hcomplete.suffix ⟨used, hused.symm⟩
  refine .after hindent ?_
  simp only at h
  split at h
  · next hmark =>
    have hne : i.rest ≠ [] := by
      intro hnil
      simp [hnil] at hmark
    obtain ⟨tail, hdrop, hstop, hskip⟩ := comment_reads
      (s := { s with rest := i.rest, line := i.line, atLineStart := false }) hrest hne
    simp only at hdrop
    rw [hdrop] at h
    split at h
    · split at h
      · cases h
        exact .nil (hskip rfl rfl)
      · cases h
        exact .single (hstop rfl rfl) rfl (Nat.le_refl _) fun _ => ⟨rfl, List.mem_cons_self⟩
    · cases h
      exact .nil (hskip rfl rfl)
  · split at h
    · next hblank =>
      obtain ⟨tail, htail⟩ : ∃ tail, i.rest = '\n' :: tail := List.head?_eq_some_iff.1 (eq_of_beq hblank)
      cases h
      exact .nil ⟨['\n'], by simp [htail], rfl⟩
    · split at h
      · exact reindent_advance h
      · cases h
        exact .nil (.refl _)

/-- Inside of a line at most one token is read, which starts on the line. -/
theorem step_advance_of_inside (hcomplete : Complete s.rest) (hinside : ¬s.atLineStart = true)
    (h : step d s = some (ts, s')) : Advance s ts s' := by
  rw [step, if_neg hinside] at h
  obtain ⟨hline, hrest⟩ := leaveAsync_eq s
  simp only at h
  generalize s.leaveAsync = u at h hline hrest
  refine .after ⟨[], hrest.symm, hline⟩ ?_
  rw [← hrest] at hcomplete
  split at h
  · cases h
    exact .nil (.refl _)
  · next hu =>
    cases h
    exact .nil ⟨[' '], hu, rfl⟩
  · next hu =>
    cases h
    exact .nil ⟨['\t'], hu, rfl⟩
  · next hu =>
    cases h
    exact .nil ⟨['\x0c'], hu, rfl⟩
  · -- a line that goes on below
    next hu =>
    split_ifs at h
    cases h
    exact .nil ⟨['\\', '\n'], hu, rfl⟩
  · -- the end of a line
    next hu =>
    split_ifs at h
    · cases h
      exact .single ⟨['\n'], hu, rfl⟩ rfl (Nat.le_refl _) (by simp [Token.isLayout])
    · cases h
      exact .nil ⟨['\n'], hu, rfl⟩
  · -- a comment
    next hu =>
    obtain ⟨tail, hdrop, hstop, -⟩ := comment_reads hcomplete (by simp [hu])
    rw [hdrop] at h
    split at h
    · split_ifs at h
      · cases h
        exact .nil (hstop rfl rfl)
      · cases h
        exact .single (hstop rfl rfl) rfl (Nat.le_refl _) fun _ => ⟨rfl, List.mem_cons_self⟩
    · cases h
      exact .nil (hstop rfl rfl)
  · next hfeed _ =>
    obtain ⟨⟨tok, next⟩, hlexeme, h⟩ := Option.map_eq_some_iff.1 h
    cases h
    refine lexeme_advance hcomplete ?_ hlexeme
    intro hhead
    obtain ⟨tail, htail⟩ := List.head?_eq_some_iff.1 hhead
    exact hfeed tail htail

/-- What a step finds lies between the lines before and after it. -/
theorem step_advance (hcomplete : Complete s.rest) (h : step d s = some (ts, s')) : Advance s ts s' := by
  by_cases hstart : s.atLineStart = true
  · exact step_advance_of_lineStart hcomplete hstart h
  · exact step_advance_of_inside hcomplete hstart h

/-- The tokens found in a run stand in the order of their lines; the line ends still to come bound the lines on which
lexemes end. -/
theorem run_tokens {fuel : Nat} (hcomplete : Complete s.rest) (h : run d fuel s = some ts) :
    (∃ last, Token.Between s.line last ts) ∧
      ∀ limit, s.line + lineEnds s.rest = limit + 1 → ∀ t ∈ ts, t.EndsBy limit := by
  induction fuel generalizing s ts with
  | zero => simp [run] at h
  | succ fuel ih =>
    rw [run] at h
    split_ifs at h with hrest hbrackets
    · obtain rfl := Option.some.inj h
      have hdedents : Token.Between s.line s.line (List.replicate s.indents.length ⟨.dedent, "", s.line, s.line⟩) :=
        .replicate _ rfl
      refine ⟨⟨s.line, hdedents.append (.single rfl (Nat.le_refl _))⟩, ?_⟩
      intro limit _ t ht
      obtain ht | ht := List.mem_append.1 ht
      · obtain rfl := List.eq_of_mem_replicate ht
        exact ⟨Nat.le_refl _, by simp [Token.isLayout]⟩
      · obtain rfl := List.mem_singleton.1 ht
        exact ⟨Nat.le_refl _, by simp [Token.isLayout]⟩
    · obtain ⟨⟨found, next⟩, hstep, h⟩ := Option.bind_eq_some_iff.1 h
      obtain ⟨more, hmore, h⟩ := Option.bind_eq_some_iff.1 h
      obtain rfl := Option.some.inj h
      have hadvance := step_advance hcomplete hstep
      obtain ⟨used, hused, hline⟩ := hadvance.reads
      obtain ⟨⟨last, hlast⟩, hends⟩ := ih (hcomplete.suffix ⟨used, hused.symm⟩) hmore
      refine ⟨⟨last, hadvance.between.append hlast⟩, ?_⟩
      intro limit hlimit t ht
      -- the line ends read and those to come are as many as before
      have hnext : next.line + lineEnds next.rest = limit + 1 := by
        rw [hused, lineEnds_append] at hlimit
        omega
      obtain ht | ht := List.mem_append.1 ht
      · obtain ⟨hle, hlexeme⟩ := hadvance.ends t ht
        refine ⟨hle, fun hlayout => ?_⟩
        obtain ⟨htline, hfeed⟩ := hlexeme hlayout
        have hpos : 0 < lineEnds next.rest := List.count_pos_iff.2 hfeed
        omega
      · exact hends limit hnext t ht

end Lexical

theorem completeLines_complete (source : List Char) : Lexical.Complete (completeLines source) := by
  intro c hc
  unfold completeLines at hc
  split at hc
  · simpa using hc.symm
  · split_ifs at hc with hlast
    · rw [eq_of_beq hlast] at hc
      simpa using hc.symm
    · simpa using hc.symm

theorem completeLines_cons {cs : List Char} (c : Char) (hne : cs ≠ []) :
    completeLines (c :: cs) = c :: completeLines cs := by
  cases cs with
  | nil => exact absurd rfl hne
  | cons c' rest =>
    simp only [completeLines, List.getLast?_cons_cons]
    split_ifs <;> rfl

/-- Unless a text is empty, as many lines are ended in it as it has. -/
theorem length_cut_eq_lineEnds {cs : List Char} (hne : cs ≠ []) :
    (Text.cut (· == '\n') cs).length = Lexical.lineEnds (completeLines cs) := by
  induction cs with
  | nil => exact absurd rfl hne
  | cons c rest ih =>
    by_cases hrest : rest = []
    · subst hrest
      by_cases hc : c = '\n'
      · subst hc
        rfl
      · simp [Text.cut, Text.consLine, completeLines, Lexical.lineEnds, hc]
    · rw [completeLines_cons c hrest, Lexical.lineEnds, List.count_cons, ← Lexical.lineEnds, ← ih hrest]
      cases hc : (c == '\n') with
      | true => rw [Text.cut, if_pos hc, List.length_cons, if_pos rfl]
      | false =>
        rw [Text.cut, if_neg (by simp [hc])]
        cases hcut : Text.cut (· == '\n') rest with
        | nil => exact absurd hcut (Text.cut_ne_nil hrest)
        | cons first more => simp [Text.consLine]

/-- The tokens of a source text are in the order of their lines. -/
theorem Token.scan_ordered {d : Dialect} {source : List Char} {ts : List Token} (h : scan d source = some ts) :
    Ordered ts := by
  rw [scan] at h
  split_ifs at h
  obtain ⟨⟨last, hbetween⟩, -⟩ := Lexical.run_tokens (completeLines_complete source) h
  exact hbetween.ordered

/-- The tokens of a source text stand on lines from the first on, and lexemes end on a line of the text. -/
theorem Token.scan_sound {d : Dialect} {source : List Char} {ts : List Token} (h : scan d source = some ts) :
    ∀ t ∈ ts, 1 ≤ t.line ∧ t.EndsBy (Text.cut (· == '\n') source).length := by
  by_cases hempty : source = []
  · -- the line that is ended for an empty text is not one of its lines, but it has no lexeme either
    subst hempty
    obtain rfl : [⟨.endMarker, "", 2, 2⟩] = ts := Option.some.inj h
    intro t ht
    obtain rfl := List.mem_singleton.1 ht
    exact ⟨Nat.le_succ 1, Nat.le_refl 2, nofun⟩
  · rw [length_cut_eq_lineEnds hempty]
    rw [scan] at h
    split_ifs at h
    obtain ⟨⟨last, hbetween⟩, hends⟩ := Lexical.run_tokens (completeLines_complete source) h
    intro t ht
    exact ⟨(hbetween.lines t ht).1, hends _ (Nat.add_comm _ _) t ht⟩

end CodeAtlas.Grammar

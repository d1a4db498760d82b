import CodeAtlas.Proofs.Text.Lines
import CodeAtlas.Tokens.Chunk
import Mathlib.Algebra.GroupWithZero.Nat
import Mathlib.Algebra.Order.BigOperators.Group.List
import Mathlib.Algebra.Order.Group.Nat

/-!
# Chunks tile the text

The chunks of a text are runs of whole lines, each with its line end, and the pieces of lines that are too
large by themselves.  Nothing is lost between them, and the pieces of a line stand in chunks of their own.

A line that is too large is cut into as many pieces as its tokens ask for.  As long as it does not count more
tokens than it has characters, none of the pieces is empty, and cutting does not fail.

## Main definitions

* `Tiles` — how chunks make up lines
* `AtLineEnd`, `InsideLine` — where a chunk may end

## Main results

* `exists_pieces` — a line that counts no more tokens than it has characters can be cut
* `Progress.Reached.add` — what adding one line preserves
* `split_lossless` — the chunks of a text make up the text, and where they end
-/

namespace CodeAtlas.Chunk

variable {count : Counter} {limit : Int} {line text : String} {lines chunks ps : List String} {tokens : Nat}

/-! ### The pieces of a line -/

theorem flatten_cutEvery {size : Nat} (hsize : 0 < size) (fuel : Nat) (cs : List Char)
    (hfuel : cs.length ≤ fuel) : (cutEvery size fuel cs).flatten = cs := by
  induction fuel generalizing cs with
  | zero =>
    have : cs = [] := List.eq_nil_of_length_eq_zero (by omega)
    simp [cutEvery, this]
  | succ fuel ih =>
    cases cs with
    | nil => rfl
    | cons c cs =>
      have hdrop : ((c :: cs).drop size).length ≤ fuel := by
        simp only [List.length_drop, List.length_cons] at hfuel ⊢
        omega
      rw [cutEvery, if_neg (by simp), List.flatten_cons, ih _ hdrop, List.take_append_drop]

theorem ne_nil_of_mem_cutEvery {size : Nat} (hsize : 0 < size) (fuel : Nat) (cs : List Char) :
    ∀ piece ∈ cutEvery size fuel cs, piece ≠ [] := by
  induction fuel generalizing cs with
  | zero => simp [cutEvery]
  | succ fuel ih =>
    intro piece hpiece
    cases cs with
    | nil => simp [cutEvery] at hpiece
    | cons c cs =>
      rw [cutEvery, if_neg (by simp), List.mem_cons] at hpiece
      obtain rfl | hrest := hpiece
      · obtain ⟨n, rfl⟩ := Nat.exists_eq_add_one_of_ne_zero (by omega : size ≠ 0)
        simp
      · exact ih _ piece hrest

/-- As many pieces are needed as the limit goes into the tokens, rounded up. -/
theorem pieceLength_eq (hlimit : 1 ≤ limit) (htokens : 0 < tokens) (length : Nat) :
    ∃ needed : Nat, (∀ n : Nat, needed ≤ n ↔ (tokens : Int) ≤ n * limit) ∧
      pieceLength length tokens limit = .ok ↑(length / needed) := by
  obtain ⟨m, rfl⟩ := Int.eq_ofNat_of_zero_le (by omega : 0 ≤ limit)
  have hm : 0 < m := by omega
  have hneeded : Int.fdiv (tokens + m - 1) m = ↑((tokens + m - 1) / m) := by
    rw [Int.fdiv_eq_ediv_of_nonneg _ (by omega), Int.natCast_ediv]
    congr 1
    omega
  have hpos : 0 < (tokens + m - 1) / m := Nat.div_pos (by omega) hm
  refine ⟨(tokens + m - 1) / m, ?_, ?_⟩
  · intro n
    rw [Nat.div_le_iff_le_mul hm]
    norm_cast
    omega
  · have hlimit0 : ((m : Int) == 0) = false := by simp; omega
    rw [pieceLength, hlimit0, hneeded]
    generalize (tokens + m - 1) / m = needed at hpos ⊢
    have hneeded0 : ((needed : Int) == 0) = false := by simp; omega
    simp only [Bool.false_eq_true, if_false, hneeded0]
    rw [Int.fdiv_eq_ediv_of_nonneg _ (by omega), Int.natCast_ediv]

/-- A line with fewer characters than pieces are needed cannot be cut, and any other line is cut every so many
characters. -/
theorem pieces_eq (hlimit : 1 ≤ limit) (htokens : 0 < tokens) (line : String) :
    ∃ needed : Nat, (∀ n : Nat, needed ≤ n ↔ (tokens : Int) ≤ n * limit) ∧ pieces line tokens limit =
      if line.length < needed then .error .chunkOfNothing
      else .ok ((cutEvery (line.length / needed) line.length line.toList).map String.ofList) := by
  obtain ⟨needed, hneeded, hlength⟩ := pieceLength_eq hlimit htokens line.length
  refine ⟨needed, hneeded, ?_⟩
  have hpos : 0 < needed := by
    have := hneeded 0
    omega
  have hzero : line.length / needed = 0 ↔ line.length < needed := by
    rw [Nat.div_eq_zero_iff]
    omega
  rw [pieces, hlength]
  generalize line.length / needed = size at hzero ⊢
  show (if (size : Int) == 0 then _ else _) = _
  by_cases hshort : line.length < needed
  · rw [if_pos hshort, hzero.2 hshort]
    rfl
  · have hne : ((size : Int) == 0) = false := by
      have := mt hzero.1 hshort
      simpa using this
    have hnonneg : ¬ (size : Int) < 0 := by omega
    simp only [hne, Bool.false_eq_true, if_false, if_neg hshort, if_neg hnonneg, Int.toNat_natCast]

/-- What the pieces are, where a line can be cut. -/
theorem pieces_eq_ok (hlimit : 1 ≤ limit) (htokens : 0 < tokens) (h : pieces line tokens limit = .ok ps) :
    ∃ needed : Nat, 0 < needed ∧ needed ≤ line.length ∧ (tokens : Int) ≤ needed * limit ∧
      ps = (cutEvery (line.length / needed) line.length line.toList).map String.ofList := by
  obtain ⟨needed, hneeded, hpieces⟩ := pieces_eq hlimit htokens line
  have hpos : 0 < needed := by
    have := hneeded 0
    omega
  rw [hpieces] at h
  by_cases hshort : line.length < needed
  · rw [if_pos hshort] at h
    cases h
  · rw [if_neg hshort] at h
    exact ⟨needed, hpos, Nat.le_of_not_lt hshort, (hneeded needed).1 (Nat.le_refl needed), (Except.ok.inj h).symm⟩

/-- Pieces make up their line, and none is empty. -/
theorem pieces_spec (hlimit : 1 ≤ limit) (htokens : 0 < tokens) (h : pieces line tokens limit = .ok ps) :
    String.join ps = line ∧ ∀ piece ∈ ps, piece ≠ "" := by
  obtain ⟨needed, hpos, hle, -, rfl⟩ := pieces_eq_ok hlimit htokens h
  have hsize : 0 < line.length / needed := Nat.div_pos hle hpos
  constructor
  · apply String.toList_injective
    simpa [List.flatMap_map] using flatten_cutEvery hsize _ _ (Nat.le_of_eq String.length_toList)
  · intro piece hpiece
    obtain ⟨cs, hcs, rfl⟩ := List.mem_map.1 hpiece
    simpa using ne_nil_of_mem_cutEvery hsize _ _ cs hcs

/-- A line can be cut exactly if its characters, as a piece each, have room for its tokens. -/
theorem exists_pieces_iff (hlimit : 1 ≤ limit) (htokens : 0 < tokens) :
    (∃ ps, pieces line tokens limit = .ok ps) ↔ (tokens : Int) ≤ line.length * limit := by
  obtain ⟨needed, hneeded, hpieces⟩ := pieces_eq hlimit htokens line
  rw [hpieces, ← hneeded line.length]
  by_cases hshort : line.length < needed
  · simp [hshort]
  · simp [hshort, Nat.le_of_not_lt hshort]

/-- A line that counts no more tokens than it has characters can be cut. -/
theorem exists_pieces (hlimit : 1 ≤ limit) (htokens : 0 < tokens) (h : tokens ≤ line.length) :
    ∃ ps, pieces line tokens limit = .ok ps := by
  apply (exists_pieces_iff hlimit htokens).2
  have := Int.mul_le_mul_of_nonneg_left hlimit (Int.natCast_nonneg line.length)
  omega

/-! ### Adding lines -/

/-- The chunks make up the lines, in order: each is a run of lines that count within the limit together, or a
piece of a line that counts more. -/
inductive Tiles (count : Counter) (limit : Int) : (lines chunks : List String) → Prop
  | nil : Tiles count limit [] []
  | run {lines rest chunks : List String} : lines ≠ [] → ((lines.map count).sum : Int) ≤ limit →
      Tiles count limit rest chunks → Tiles count limit (lines ++ rest) (String.join lines :: chunks)
  | cut {line : String} {ps rest chunks : List String} : limit < count line →
      pieces line (count line) limit = .ok ps →
      Tiles count limit rest chunks → Tiles count limit (line :: rest) (ps ++ chunks)

theorem Tiles.append {rest more : List String} (h : Tiles count limit lines chunks)
    (hrest : Tiles count limit rest more) : Tiles count limit (lines ++ rest) (chunks ++ more) := by
  induction h with
  | nil => exact hrest
  | run hne hsum _ ih =>
    rw [List.append_assoc]
    exact .run hne hsum ih
  | cut hlarge hps _ ih =>
    rw [List.append_assoc]
    exact .cut hlarge hps ih

/-- A line is added, unless it is too large and cannot be cut. -/
theorem Progress.exists_add {s : Progress}
    (h : limit < count line → ∃ ps, pieces line (count line) limit = .ok ps) :
    ∃ s', s.add count limit line = .ok s' := by
  unfold Progress.add
  by_cases hlarge : limit < count line
  · obtain ⟨ps, hps⟩ := h hlarge
    exact ⟨_, by simp only [if_pos hlarge, hps]; rfl⟩
  · rw [if_neg hlarge]
    split
    · exact ⟨_, rfl⟩
    · exact ⟨_, rfl⟩

/-- What holds after some lines: those in front of the current ones are in the chunks, and the current ones
count within the limit. -/
structure Progress.Reached (count : Counter) (limit : Int) (s : Progress) (settled : List String) : Prop where
  tiles : Tiles count limit settled s.chunks
  tokens_eq : s.tokens = (s.current.map count).sum
  fits : s.current ≠ [] → (s.tokens : Int) ≤ limit

namespace Progress.Reached

variable {s s' : Progress} {settled : List String}

theorem start (count : Counter) (limit : Int) : Reached count limit {} [] :=
  ⟨.nil, rfl, fun h => absurd rfl h⟩

theorem tiles_current (h : Reached count limit s settled) (hne : s.current ≠ []) :
    Tiles count limit (settled ++ s.current) (s.chunks ++ ["".intercalate s.current]) := by
  have hlast := Tiles.run hne (h.tokens_eq ▸ h.fits hne) (@Tiles.nil count limit)
  rw [Text.intercalate_empty]
  exact h.tiles.append (by simpa using hlast)

theorem close (h : Reached count limit s settled) : Tiles count limit (settled ++ s.current) s.close := by
  rw [Progress.close]
  split
  · next hempty => simpa [List.isEmpty_iff.1 hempty] using h.tiles
  · next hempty => exact h.tiles_current (by simpa using hempty)

/-- What adding one line preserves. -/
theorem add (h : Reached count limit s settled) (hadd : s.add count limit line = .ok s') :
    ∃ settled', settled' ++ s'.current = settled ++ s.current ++ [line] ∧ Reached count limit s' settled' := by
  unfold Progress.add at hadd
  by_cases hlarge : limit < count line
  · -- a line that is too large settles all lines
    rw [if_pos hlarge] at hadd
    cases hps : pieces line (count line) limit with
    | error e =>
      rw [hps] at hadd
      cases hadd
    | ok ps =>
      rw [hps] at hadd
      cases hadd
      refine ⟨settled ++ s.current ++ [line], by simp, ?_, rfl, fun hne => absurd rfl hne⟩
      have hcut := Tiles.cut hlarge hps (@Tiles.nil count limit)
      exact h.close.append (by simpa using hcut)
  · rw [if_neg hlarge] at hadd
    by_cases hfull : limit < (s.tokens + count line : Nat)
    · -- the current lines are not none, for the line alone is within the limit
      have hne : s.current ≠ [] := by
        intro hnil
        have htokens := h.tokens_eq
        rw [hnil] at htokens
        simp at htokens
        omega
      rw [if_pos hfull] at hadd
      cases hadd
      exact ⟨settled ++ s.current, rfl, h.tiles_current hne, by simp, fun _ => Int.not_lt.1 hlarge⟩
    · rw [if_neg hfull] at hadd
      cases hadd
      exact ⟨settled, by simp, h.tiles, by simp [h.tokens_eq], fun _ => Int.not_lt.1 hfull⟩

/-- Lines of which those that are too large can be cut are all added, and what that preserves. -/
theorem run (h : Reached count limit s settled)
    (hpieces : ∀ line ∈ lines, limit < count line → ∃ ps, pieces line (count line) limit = .ok ps) :
    ∃ s' settled', lines.foldlM (Progress.add count limit) s = .ok s' ∧
      settled' ++ s'.current = settled ++ s.current ++ lines ∧ Reached count limit s' settled' := by
  induction lines generalizing s settled with
  | nil => exact ⟨s, settled, rfl, by simp, h⟩
  | cons line lines ih =>
    have hadd : ∃ s₁, s.add count limit line = .ok s₁ := exists_add (hpieces line List.mem_cons_self)
    obtain ⟨s₁, hs₁⟩ := hadd
    obtain ⟨settled₁, heq₁, h₁⟩ := h.add hs₁
    obtain ⟨s', settled', hrun, heq, h'⟩ := ih h₁ fun l hl => hpieces l (List.mem_cons_of_mem line hl)
    refine ⟨s', settled', ?_, ?_, h'⟩
    · rw [List.foldlM_cons, hs₁]
      exact hrun
    · rw [heq, heq₁]
      simp

end Progress.Reached

/-- A text that is too large is cut into chunks that tile it, if every line that is too large can be cut. -/
theorem exists_tiles (hlarge : limit < count text)
    (hpieces : ∀ line ∈ Text.linesKeep text, limit < count line →
      ∃ ps, pieces line (count line) limit = .ok ps) :
    ∃ chunks, split count limit text = .ok chunks ∧ Tiles count limit (Text.linesKeep text) chunks := by
  obtain ⟨s, settled, hrun, heq, h⟩ := (Progress.Reached.start count limit).run hpieces
  refine ⟨s.close, ?_, ?_⟩
  · rw [split, if_neg (Int.not_le.2 hlarge), hrun]
    rfl
  · have hclose := h.close
    rw [heq] at hclose
    simpa using hclose

/-! ### What the chunks are -/

/-- A text ends where a line ends. -/
def AtLineEnd (lines : List String) (text : String) : Prop :=
  ∃ front back, lines = front ++ back ∧ text = String.join front

/-- A text ends strictly inside a line that counts more than the limit. -/
def InsideLine (count : Counter) (limit : Int) (lines : List String) (text : String) : Prop :=
  ∃ front line back before after, lines = front ++ line :: back ∧ limit < count line ∧ line = before ++ after ∧
    before ≠ "" ∧ after ≠ "" ∧ text = String.join front ++ before

theorem AtLineEnd.append {rest : List String} (h : AtLineEnd rest text) (lines : List String) :
    AtLineEnd (lines ++ rest) (String.join lines ++ text) := by
  obtain ⟨front, back, rfl, rfl⟩ := h
  exact ⟨lines ++ front, back, by simp, by simp⟩

theorem InsideLine.append {rest : List String} (h : InsideLine count limit rest text) (lines : List String) :
    InsideLine count limit (lines ++ rest) (String.join lines ++ text) := by
  obtain ⟨front, line, back, before, after, rfl, hlarge, hline, hbefore, hafter, rfl⟩ := h
  exact ⟨lines ++ front, line, back, before, after, by simp, hlarge, hline, hbefore, hafter,
    by simp [String.append_assoc]⟩

theorem join_ne_empty {texts : List String} (hne : texts ≠ []) (h : ∀ text ∈ texts, text ≠ "") :
    String.join texts ≠ "" := by
  obtain ⟨first, rest, rfl⟩ := List.exists_cons_of_ne_nil hne
  have hfirst := h first List.mem_cons_self
  simp_all

/-- Lines that count within the limit together are not too large. -/
theorem not_mem_of_sum_le (hsum : ((lines.map count).sum : Int) ≤ limit) (hlarge : limit < count line) :
    line ∉ lines := by
  intro hmem
  have := List.single_le_sum (fun n _ => Nat.zero_le n) (count line) (List.mem_map_of_mem hmem)
  omega

/-- A line that is not in a run comes behind it. -/
theorem exists_behind {run rest front back : List String} (heq : run ++ rest = front ++ line :: back)
    (hnot : line ∉ run) : ∃ front', front = run ++ front' ∧ rest = front' ++ line :: back := by
  obtain ⟨more, rfl, hmore⟩ | ⟨more, rfl, hmore⟩ := List.append_eq_append_iff.1 heq
  · exact ⟨more, rfl, hmore⟩
  · cases more with
    | nil => exact ⟨[], by simp, by simpa using hmore.symm⟩
    | cons first more =>
      obtain ⟨rfl, -⟩ := List.cons.inj hmore
      exact absurd (by simp) hnot

namespace Tiles

variable (hlimit : 1 ≤ limit)

include hlimit

theorem pos_of_large (hlarge : limit < count line) : 0 < count line := by omega

theorem join_eq (h : Tiles count limit lines chunks) : String.join chunks = String.join lines := by
  induction h with
  | nil => rfl
  | run _ _ _ ih => simp [ih]
  | cut hlarge hps _ ih => simp [ih, (pieces_spec hlimit (pos_of_large hlimit hlarge) hps).1]

theorem ne_empty (h : Tiles count limit lines chunks) (hlines : ∀ line ∈ lines, line ≠ "") :
    ∀ chunk ∈ chunks, chunk ≠ "" := by
  induction h with
  | nil => simp
  | run hne _ _ ih =>
    intro chunk hchunk
    obtain rfl | hrest := List.mem_cons.1 hchunk
    · exact join_ne_empty hne fun line hline => hlines line (List.mem_append_left _ hline)
    · exact ih (fun line hline => hlines line (List.mem_append_right _ hline)) chunk hrest
  | cut hlarge hps _ ih =>
    intro chunk hchunk
    obtain hpiece | hrest := List.mem_append.1 hchunk
    · exact (pieces_spec hlimit (pos_of_large hlimit hlarge) hps).2 chunk hpiece
    · exact ih (fun line hline => hlines line (List.mem_cons_of_mem _ hline)) chunk hrest

/-- Chunks end where a line ends, or strictly inside a line that is too large. -/
theorem boundary (h : Tiles count limit lines chunks) {front back : List String} (heq : chunks = front ++ back) :
    AtLineEnd lines (String.join front) ∨ InsideLine count limit lines (String.join front) := by
  induction h generalizing front with
  | nil =>
    obtain ⟨rfl, rfl⟩ := List.append_eq_nil_iff.1 heq.symm
    exact Or.inl ⟨[], [], rfl, rfl⟩
  | @run lines rest chunks _ _ _ ih =>
    cases front with
    | nil => exact Or.inl ⟨[], lines ++ rest, rfl, rfl⟩
    | cons first front =>
      obtain ⟨rfl, hmore⟩ := List.cons.inj heq
      rw [String.join_cons]
      exact (ih hmore).imp (·.append lines) (·.append lines)
  | @cut line ps rest chunks hlarge hps _ ih =>
    obtain ⟨hjoin, hne⟩ := pieces_spec hlimit (pos_of_large hlimit hlarge) hps
    have hpass : String.join ps = String.join [line] := by simp [hjoin]
    obtain ⟨more, rfl, hmore⟩ | ⟨more, rfl, -⟩ := List.append_eq_append_iff.1 heq
    · -- behind all pieces of the line
      rw [String.join_append, hpass]
      exact (ih hmore).imp (·.append [line]) (·.append [line])
    · -- behind some of them
      by_cases hfront : front = []
      · exact Or.inl ⟨[], line :: rest, rfl, by simp [hfront]⟩
      by_cases hmore : more = []
      · exact Or.inl ⟨[line], rest, rfl, by simpa [hmore] using hpass⟩
      refine Or.inr ⟨[], line, rest, String.join front, String.join more, rfl, hlarge, by simp [← hjoin], ?_, ?_,
        by simp⟩
      · exact join_ne_empty hfront fun piece hpiece => hne piece (List.mem_append_left _ hpiece)
      · exact join_ne_empty hmore fun piece hpiece => hne piece (List.mem_append_right _ hpiece)

/-- The pieces of a line that is too large are chunks of their own. -/
theorem pieces_apart (h : Tiles count limit lines chunks) {front back : List String}
    (heq : lines = front ++ line :: back) (hlarge : limit < count line) :
    ∃ before own after, chunks = before ++ own ++ after ∧ String.join before = String.join front ∧
      String.join own = line := by
  induction h generalizing front with
  | nil => simp at heq
  | @run lines rest chunks _ hsum _ ih =>
    obtain ⟨front, rfl, hmore⟩ := exists_behind heq (not_mem_of_sum_le hsum hlarge)
    obtain ⟨before, own, after, rfl, hbefore, hown⟩ := ih hmore
    exact ⟨String.join lines :: before, own, after, by simp, by simp [hbefore], hown⟩
  | @cut large ps rest chunks hcut hps _ ih =>
    have hjoin := (pieces_spec hlimit (pos_of_large hlimit hcut) hps).1
    cases front with
    | nil =>
      obtain ⟨rfl, -⟩ := List.cons.inj heq
      exact ⟨[], ps, chunks, by simp, rfl, hjoin⟩
    | cons first front =>
      obtain ⟨rfl, hmore⟩ := List.cons.inj heq
      obtain ⟨before, own, after, rfl, hbefore, hown⟩ := ih hmore
      exact ⟨ps ++ before, own, after, by simp, by simp [hjoin, hbefore], hown⟩

end Tiles

theorem approximate_le_length (h : 1 < Counter.approximate text) : Counter.approximate text ≤ text.length := by
  simp only [Counter.approximate] at h ⊢
  omega

theorem approximate_mono {part : String} (h : part.length ≤ text.length) :
    Counter.approximate part ≤ Counter.approximate text := by
  simp only [Counter.approximate]
  omega

theorem length_le_of_mem_linesKeep (h : line ∈ Text.linesKeep text) : line.length ≤ text.length := by
  obtain ⟨front, back, hlines⟩ := List.append_of_mem h
  have hjoin := Text.join_linesKeep text
  rw [hlines] at hjoin
  rw [← hjoin]
  simp
  omega

/-- **Lossless chunking.**  Counted by characters, every text is cut into chunks for every limit from one on.
They make up the text, and none of them is empty unless the text is.  Each ends where a line ends or strictly
inside a line that counts more than the limit, and the chunks with pieces of such a line hold nothing else. -/
theorem split_lossless (limit : Int) (hlimit : 1 ≤ limit) (text : String) :
    ∃ chunks, split Counter.approximate limit text = .ok chunks ∧ String.join chunks = text ∧
      (text ≠ "" → ∀ chunk ∈ chunks, chunk ≠ "") ∧
      (∀ front back, chunks = front ++ back → AtLineEnd (Text.linesKeep text) (String.join front) ∨
        InsideLine Counter.approximate limit (Text.linesKeep text) (String.join front)) ∧
      ∀ front line back, Text.linesKeep text = front ++ line :: back → limit < Counter.approximate line →
        ∃ before own after, chunks = before ++ own ++ after ∧ String.join before = String.join front ∧
          String.join own = line := by
  by_cases hfits : Counter.approximate text ≤ limit
  · -- the text is its only chunk, and none of its lines is too large
    refine ⟨[text], by rw [split, if_pos hfits], by simp, by simp, ?_, ?_⟩
    · intro front back heq
      obtain ⟨rfl, -⟩ | ⟨rfl, -⟩ := List.append_eq_singleton_iff.1 heq.symm
      · exact Or.inl ⟨[], Text.linesKeep text, rfl, rfl⟩
      · exact Or.inl ⟨Text.linesKeep text, [], by simp, by simp [Text.join_linesKeep]⟩
    · intro front line back heq hlarge
      have hmem : line ∈ Text.linesKeep text := by simp [heq]
      have := approximate_mono (length_le_of_mem_linesKeep hmem)
      omega
  · obtain ⟨chunks, hsplit, htiles⟩ := exists_tiles (Int.not_le.1 hfits) fun line _ hlarge =>
      exists_pieces hlimit (by omega) (approximate_le_length (by omega))
    refine ⟨chunks, hsplit, ?_, ?_, fun front back => htiles.boundary hlimit,
      fun front line back => htiles.pieces_apart hlimit⟩
    · rw [htiles.join_eq hlimit, Text.join_linesKeep]
    · exact fun _ => htiles.ne_empty hlimit fun line => Text.ne_empty_of_mem_linesKeep

/-- A line of thirteen characters is cut into four pieces, the last of which is its line end. -/
theorem split_lossless_long_line :
    (1 : Int) ≤ 1 ∧
      split Counter.approximate 1 "a\nbbbbbbbbbbbb\nc" = .ok ["a\n", "bbbb", "bbbb", "bbbb", "\n", "c"] ∧
      (AtLineEnd (Text.linesKeep "a\nbbbbbbbbbbbb\nc") "a\nbbbb" ∨
        InsideLine Counter.approximate 1 (Text.linesKeep "a\nbbbbbbbbbbbb\nc") "a\nbbbb") := by
  have hsplit :
      split Counter.approximate 1 "a\nbbbbbbbbbbbb\nc" = .ok ["a\n", "bbbb", "bbbb", "bbbb", "\n", "c"] := rfl
  obtain ⟨chunks, hchunks, -, -, hboundary, -⟩ := split_lossless 1 (by decide) "a\nbbbbbbbbbbbb\nc"
  obtain rfl := Except.ok.inj (hsplit.symm.trans hchunks)
  exact ⟨by decide, hsplit, hboundary ["a\n", "bbbb"] ["bbbb", "bbbb", "\n", "c"] rfl⟩

end CodeAtlas.Chunk

import CodeAtlas.Proofs.Tokens.Chunk

/-!
# How much chunks weigh

Lines are gathered as long as their own tokens stay within the limit.  Tokens are counted by fours of characters,
rounded down, but no line counts less than one: seven characters may hide behind each token.  So a run of lines
weighs up to seven quarters of the limit once it is counted as one text.  The pieces of a line are not gathered,
and for them the limit holds.
-/

namespace CodeAtlas.Chunk

variable {limit : Int} {line text chunk : String} {lines chunks ps front back : List String}

/-! ### Runs of lines -/

theorem length_le_approximate (text : String) : text.length ≤ 7 * Counter.approximate text := by
  rw [Counter.approximate]
  omega

theorem length_join_le (lines : List String) :
    (String.join lines).length ≤ 7 * (lines.map Counter.approximate).sum := by
  induction lines with
  | nil => simp
  | cons line lines ih =>
    have := length_le_approximate line
    simp only [String.join_cons, String.length_append, List.map_cons, List.sum_cons]
    omega

/-- Lines that count within the limit one by one count up to seven quarters of it together. -/
theorem approximate_join_le (hlimit : 1 ≤ limit) (h : ((lines.map Counter.approximate).sum : Int) ≤ limit) :
    (Counter.approximate (String.join lines) : Int) ≤ 7 * limit / 4 := by
  have hlength := length_join_le lines
  rw [Counter.approximate]
  omega

/-! ### Pieces of a line -/

theorem length_le_of_mem_cutEvery (size fuel : Nat) (cs : List Char) :
    ∀ piece ∈ cutEvery size fuel cs, piece.length ≤ size := by
  induction fuel generalizing cs with
  | zero => simp [cutEvery]
  | succ fuel ih =>
    intro piece hpiece
    rw [cutEvery] at hpiece
    split at hpiece
    · simp at hpiece
    · obtain rfl | hrest := List.mem_cons.1 hpiece
      · exact List.length_take_le size cs
      · exact ih _ piece hrest

/-- Pieces of a line that counts more than the limit count within it. -/
theorem approximate_le_of_mem_pieces (hlimit : 1 ≤ limit) (hlarge : limit < Counter.approximate line)
    (h : pieces line (Counter.approximate line) limit = .ok ps) :
    ∀ piece ∈ ps, (Counter.approximate piece : Int) ≤ limit := by
  intro piece hpiece
  obtain ⟨needed, -, -, htokens, rfl⟩ := pieces_eq_ok hlimit (by omega) h
  obtain ⟨cs, hcs, rfl⟩ := List.mem_map.1 hpiece
  have hlength : cs.length ≤ line.length / needed := length_le_of_mem_cutEvery _ _ _ cs hcs
  obtain ⟨m, rfl⟩ := Int.eq_ofNat_of_zero_le (by omega : 0 ≤ limit)
  -- the line counts more than one token, so they are the fours of its characters
  have hline : Counter.approximate line = line.length / 4 := by
    rw [Counter.approximate] at hlarge ⊢
    omega
  have hfits : line.length / 4 / needed ≤ m := by
    rw [hline] at htokens
    exact Nat.div_le_of_le_mul (by exact_mod_cast htokens)
  -- fours of the length of a piece: it does not matter which of the divisions comes first
  have hpiece : cs.length / 4 ≤ line.length / 4 / needed := by
    rw [Nat.div_div_eq_div_mul, Nat.mul_comm, ← Nat.div_div_eq_div_mul]
    exact Nat.div_le_div_right hlength
  rw [Counter.approximate, String.length_ofList]
  omega

/-- A chunk that comes behind some text lies inside a line which counts more than the limit. -/
def PieceOfLarge (count : Counter) (limit : Int) (lines : List String) (before chunk : String) : Prop :=
  ∃ front line back skipped rest, lines = front ++ line :: back ∧ limit < count line ∧
    before = String.join front ++ skipped ∧ line = skipped ++ chunk ++ rest

namespace Tiles

variable (hlimit : 1 ≤ limit)

include hlimit

theorem approximate_le (h : Tiles Counter.approximate limit lines chunks) :
    ∀ chunk ∈ chunks, (Counter.approximate chunk : Int) ≤ 7 * limit / 4 := by
  induction h with
  | nil => simp
  | run _ hsum _ ih =>
    intro chunk hchunk
    obtain rfl | hrest := List.mem_cons.1 hchunk
    · exact approximate_join_le hlimit hsum
    · exact ih chunk hrest
  | cut hlarge hps _ ih =>
    intro chunk hchunk
    obtain hpiece | hrest := List.mem_append.1 hchunk
    · have := approximate_le_of_mem_pieces hlimit hlarge hps chunk hpiece
      omega
    · exact ih chunk hrest

/-- A chunk that lies inside a line which is too large is one of its pieces, or empty. -/
theorem approximate_le_of_pieceOfLarge (h : Tiles Counter.approximate limit lines chunks)
    (heq : chunks = front ++ chunk :: back)
    (hpiece : PieceOfLarge Counter.approximate limit lines (String.join front) chunk) :
    (Counter.approximate chunk : Int) ≤ limit := by
  have hempty : (Counter.approximate "" : Int) ≤ limit := hlimit
  induction h generalizing front with
  | nil => simp at heq
  | @run run rest chunks _ hsum _ ih =>
    obtain ⟨lead, line, tail, skipped, left, hlines, hlarge, hbefore, hline⟩ := hpiece
    -- no line of the run is too large, so this one comes behind it
    obtain ⟨lead, rfl, hrest⟩ := exists_behind hlines (not_mem_of_sum_le hsum hlarge)
    rw [String.join_append, String.append_assoc] at hbefore
    cases front with
    | nil =>
      obtain ⟨rfl, -⟩ := List.cons.inj heq
      rw [String.join_nil, eq_comm, String.append_eq_empty_iff] at hbefore
      rwa [hbefore.1]
    | cons first front =>
      obtain ⟨rfl, hmore⟩ := List.cons.inj heq
      rw [String.join_cons, String.append_right_inj] at hbefore
      exact ih hmore ⟨lead, line, tail, skipped, left, hrest, hlarge, hbefore, hline⟩
  | @cut large ps rest chunks hcut hps _ ih =>
    by_cases hown : chunk ∈ ps
    · exact approximate_le_of_mem_pieces hlimit hcut hps chunk hown
    -- behind the pieces of this line, hence in a later one
    obtain ⟨front, rfl, hmore⟩ := exists_behind heq hown
    obtain ⟨lead, line, tail, skipped, left, hlines, hlarge, hbefore, hline⟩ := hpiece
    rw [String.join_append, (pieces_spec hlimit (pos_of_large hlimit hcut) hps).1] at hbefore
    cases lead with
    | nil =>
      -- the chunk would lie inside this line and behind it
      obtain ⟨rfl, -⟩ := List.cons.inj hlines
      have hbehind := congrArg String.length hbefore
      have hinside := congrArg String.length hline
      simp only [String.join_nil, String.empty_append, String.length_append] at hbehind hinside
      have hnothing : chunk = "" := String.length_eq_zero_iff.1 (by omega)
      rwa [hnothing]
    | cons first lead =>
      obtain ⟨rfl, hrest⟩ := List.cons.inj hlines
      rw [String.join_cons, String.append_assoc, String.append_right_inj] at hbefore
      exact ih hmore ⟨lead, line, tail, skipped, left, hrest, hlarge, hbefore, hline⟩

end Tiles

/-- **Weight of chunks.**  Counted by characters, every text is cut into chunks for every limit from one on.  No chunk
counts more than seven quarters of the limit, and one that lies inside a line which counts more than the limit counts
within it. -/
theorem split_weight (limit : Int) (hlimit : 1 ≤ limit) (text : String) :
    ∃ chunks, split Counter.approximate limit text = .ok chunks ∧
      (∀ chunk ∈ chunks, (Counter.approximate chunk : Int) ≤ 7 * limit / 4) ∧
      ∀ front chunk back, chunks = front ++ chunk :: back →
        PieceOfLarge Counter.approximate limit (Text.linesKeep text) (String.join front) chunk →
          (Counter.approximate chunk : Int) ≤ limit := by
  by_cases hfits : Counter.approximate text ≤ limit
  · -- the text is its only chunk
    refine ⟨[text], by rw [split, if_pos hfits], ?_, ?_⟩
    · intro chunk hchunk
      rw [List.mem_singleton.1 hchunk]
      omega
    · intro front chunk back heq _
      have hchunk : chunk ∈ [text] := by simp [heq]
      rwa [List.mem_singleton.1 hchunk]
  · obtain ⟨chunks, hsplit, htiles⟩ := exists_tiles (Int.not_le.1 hfits) fun line _ hlarge =>
      exists_pieces hlimit (by omega) (approximate_le_length (by omega))
    exact ⟨chunks, hsplit, htiles.approximate_le hlimit, fun front chunk back =>
      htiles.approximate_le_of_pieceOfLarge hlimit⟩

/-- Four lines of seven characters are a chunk that weighs seven with a limit of four.  The line behind them counts six
and is cut into pieces that count three. -/
theorem split_weight_seven_quarters :
    (1 : Int) ≤ 4 ∧
      split Counter.approximate 4 "aaaaaa\nbbbbbb\ncccccc\ndddddd\nxxxxxxxxxxxxxxxxxxxxxxxx" =
        .ok ["aaaaaa\nbbbbbb\ncccccc\ndddddd\n", "xxxxxxxxxxxx", "xxxxxxxxxxxx"] ∧
      Counter.approximate "aaaaaa\nbbbbbb\ncccccc\ndddddd\n" = 7 * 4 / 4 ∧
      (Counter.approximate "xxxxxxxxxxxx" : Int) ≤ 4 := by
  have hsplit : split Counter.approximate 4 "aaaaaa\nbbbbbb\ncccccc\ndddddd\nxxxxxxxxxxxxxxxxxxxxxxxx" =
      .ok ["aaaaaa\nbbbbbb\ncccccc\ndddddd\n", "xxxxxxxxxxxx", "xxxxxxxxxxxx"] := rfl
  obtain ⟨chunks, hchunks, -, hpieces⟩ :=
    split_weight 4 (by decide) "aaaaaa\nbbbbbb\ncccccc\ndddddd\nxxxxxxxxxxxxxxxxxxxxxxxx"
  obtain rfl := Except.ok.inj (hsplit.symm.trans hchunks)
  refine ⟨by decide, hsplit, by decide,
    hpieces ["aaaaaa\nbbbbbb\ncccccc\ndddddd\n"] "xxxxxxxxxxxx" ["xxxxxxxxxxxx"] rfl ?_⟩
  exact ⟨["aaaaaa\n", "bbbbbb\n", "cccccc\n", "dddddd\n"], "xxxxxxxxxxxxxxxxxxxxxxxx", [], "", "xxxxxxxxxxxx",
    by decide, by decide, by decide, by decide⟩

end CodeAtlas.Chunk

import CodeAtlas.Proofs.Tokens.Chunk

/-!
# When a text cannot be cut into chunks

A line that counts more than the limit is cut into as many pieces as its tokens ask for, all of one length.  An
encoder may spend several tokens on a character.  Then a line can ask for more pieces than it has characters, the
length of a piece is rounded down to nothing, and there are no chunks at all.
-/

namespace CodeAtlas.Chunk

variable {count : Counter} {limit : Int} {line text : String} {lines : List String}

/-- The characters of a line, as a piece each, have room for its tokens. -/
def HasRoom (count : Counter) (limit : Int) (line : String) : Prop := (count line : Int) ≤ line.length * limit

theorem hasRoom_of_le (hline : line ≠ "") (hlimit : 1 ≤ limit) (h : (count line : Int) ≤ limit) :
    HasRoom count limit line := by
  have hlength : 1 ≤ (line.length : Int) := by
    have := mt String.length_eq_zero_iff.1 hline
    omega
  calc (count line : Int) ≤ 1 * limit := by omega
    _ ≤ line.length * limit := Int.mul_le_mul_of_nonneg_right hlength (by omega)

/-- A line without room is too large, and cannot be cut. -/
theorem pieces_eq_error (hlimit : 1 ≤ limit) (hlarge : limit < count line) (h : ¬HasRoom count limit line) :
    pieces line (count line) limit = .error .chunkOfNothing := by
  obtain ⟨needed, hneeded, hpieces⟩ := pieces_eq hlimit (by omega : 0 < count line) line
  have hshort : line.length < needed := Nat.lt_of_not_le (mt (hneeded line.length).1 h)
  rw [hpieces, if_pos hshort]

/-- One line without room among others is enough to fail. -/
theorem Progress.run_eq_error (hlimit : 1 ≤ limit) (s : Progress)
    (h : ∃ line ∈ lines, limit < count line ∧ ¬HasRoom count limit line) :
    lines.foldlM (Progress.add count limit) s = .error .chunkOfNothing := by
  induction lines generalizing s with
  | nil => simp at h
  | cons first lines ih =>
    rw [List.foldlM_cons]
    by_cases hfirst : limit < count first ∧ ¬HasRoom count limit first
    · rw [Progress.add, if_pos hfirst.1, pieces_eq_error hlimit hfirst.1 hfirst.2]
      rfl
    · -- the first line is added, so the one without room is behind it
      obtain ⟨s₁, hs₁⟩ : ∃ s₁, s.add count limit first = .ok s₁ := by
        apply exists_add
        intro hlarge
        apply (exists_pieces_iff hlimit (by omega)).2
        by_contra hnot
        exact hfirst ⟨hlarge, hnot⟩
      obtain ⟨line, hline, hfails⟩ := h
      obtain rfl | hmem := List.mem_cons.1 hline
      · exact absurd hfails hfirst
      · rw [hs₁]
        exact ih s₁ ⟨line, hmem, hfails⟩

/-- A text that is too large fails if one of its lines has no room. -/
theorem split_eq_error (hlimit : 1 ≤ limit) (hlarge : limit < count text)
    (h : ¬∀ line ∈ Text.linesKeep text, HasRoom count limit line) :
    split count limit text = .error .chunkOfNothing := by
  obtain ⟨line, hline, hroom⟩ : ∃ line ∈ Text.linesKeep text, ¬HasRoom count limit line := by
    simpa using h
  have hlineLarge : limit < count line := by
    by_contra hfits
    exact hroom (hasRoom_of_le (Text.ne_empty_of_mem_linesKeep hline) hlimit (Int.not_lt.1 hfits))
  rw [split, if_neg (Int.not_le.2 hlarge), Progress.run_eq_error hlimit {} ⟨line, hline, hlineLarge, hroom⟩]
  rfl

/-- A text all of whose lines have room is cut into chunks. -/
theorem exists_chunks (hlimit : 1 ≤ limit) (h : ∀ line ∈ Text.linesKeep text, HasRoom count limit line) :
    ∃ chunks, split count limit text = .ok chunks := by
  by_cases hfits : count text ≤ limit
  · exact ⟨[text], by rw [split, if_pos hfits]⟩
  · obtain ⟨chunks, hsplit, -⟩ := exists_tiles (Int.not_le.1 hfits) fun line hline hlarge =>
      (exists_pieces_iff hlimit (by omega)).2 (h line hline)
    exact ⟨chunks, hsplit⟩

theorem counter_of_mem {encoder : Encoder} {model : String} (h : model ∈ encoder.models) :
    Encoder.counter (some encoder) model = encoder.count := by
  simp [Encoder.counter, h]

/-- **Texts that can be cut.**  For a model that an encoder knows and a limit from one on, a text is cut into chunks
exactly if it counts within the limit or each of its lines has room for its tokens.  Any other text fails, as the pieces
of a line would have no length. -/
theorem split_returns_iff (encoder : Encoder) (model : String) (hmodel : model ∈ encoder.models) (limit : Int)
    (hlimit : 1 ≤ limit) (text : String) :
    ((∃ chunks, split (Encoder.counter (some encoder) model) limit text = .ok chunks) ↔
      encoder.count text ≤ limit ∨ ∀ line ∈ Text.linesKeep text, (encoder.count line : Int) ≤ line.length * limit) ∧
    ∀ e, split (Encoder.counter (some encoder) model) limit text = .error e → e = .chunkOfNothing := by
  rw [counter_of_mem hmodel]
  by_cases hreturns : encoder.count text ≤ limit ∨ ∀ line ∈ Text.linesKeep text, HasRoom encoder.count limit line
  · obtain ⟨chunks, hchunks⟩ : ∃ chunks, split encoder.count limit text = .ok chunks := by
      obtain hfits | hroom := hreturns
      · exact ⟨[text], by rw [split, if_pos hfits]⟩
      · exact exists_chunks hlimit hroom
    rw [hchunks]
    exact ⟨⟨fun _ => hreturns, fun _ => ⟨chunks, rfl⟩⟩, fun _ he => by cases he⟩
  · obtain ⟨hlarge, hroom⟩ := not_or.1 hreturns
    rw [split_eq_error hlimit (Int.not_le.1 hlarge) hroom]
    refine ⟨⟨?_, fun h => absurd h hreturns⟩, ?_⟩
    · rintro ⟨chunks, hchunks⟩
      cases hchunks
    · intro e he
      exact (Except.error.inj he).symm

/-- An encoder whose tokens are the pieces between single spaces. -/
def spaced : Encoder := ⟨[defaultModel], fun text => text.toList.count ' ' + 1⟩

/-- Nine characters that count five tokens have room for them with a limit of two. -/
theorem split_returns_iff_five_words :
    defaultModel ∈ spaced.models ∧ (1 : Int) ≤ 2 ∧
      split (Encoder.counter (some spaced) defaultModel) 2 "a b c d e" = .ok ["a b", " c ", "d e"] ∧
      (spaced.count "a b c d e" ≤ (2 : Int) ∨
        ∀ line ∈ Text.linesKeep "a b c d e", (spaced.count line : Int) ≤ line.length * 2) := by
  have hsplit : split (Encoder.counter (some spaced) defaultModel) 2 "a b c d e" = .ok ["a b", " c ", "d e"] := rfl
  exact ⟨by decide, by decide, hsplit,
    (split_returns_iff spaced defaultModel (by decide) 2 (by decide) "a b c d e").1.1 ⟨_, hsplit⟩⟩

/-- An encoder that has not merged any bytes. -/
def bytewise : Encoder := ⟨[defaultModel], String.utf8ByteSize⟩

/-- One character cannot be cut, though it may count several tokens: the bytes of a hieroglyph, or the two ends of a
text that a space divides. -/
theorem split_fails_on_character :
    (defaultModel ∈ bytewise.models ∧ (1 : Int) ≤ 3 ∧ bytewise.count "𓀀" = 4 ∧
      split (Encoder.counter (some bytewise) defaultModel) 3 "𓀀" = .error .chunkOfNothing) ∧
    defaultModel ∈ spaced.models ∧ (1 : Int) ≤ 1 ∧
      split (Encoder.counter (some spaced) defaultModel) 1 " " = .error .chunkOfNothing :=
  ⟨⟨by decide, by decide, rfl, rfl⟩, by decide, by decide, rfl⟩

/-! ### Encoders of bytes -/

theorem utf8ByteSize_le (text : String) : text.utf8ByteSize ≤ 4 * text.length := by
  induction text using String.push_induction with
  | empty => simp
  | push text c ih =>
    have := Char.utf8Size_le_four c
    simp only [String.utf8ByteSize_push, String.length_push]
    omega

/-- With an encoder that spends no more than a token on a byte, every text is cut into chunks for every limit from four
on. -/
theorem exists_chunks_of_bytes (hcount : ∀ line, count line ≤ line.utf8ByteSize) (hlimit : 4 ≤ limit) (text : String) :
    ∃ chunks, split count limit text = .ok chunks := by
  apply exists_chunks (by omega)
  intro line _
  have hbytes := hcount line
  have hcharacters := utf8ByteSize_le line
  calc (count line : Int) ≤ line.length * 4 := by omega
    _ ≤ line.length * limit := Int.mul_le_mul_of_nonneg_left hlimit (Int.natCast_nonneg line.length)

end CodeAtlas.Chunk

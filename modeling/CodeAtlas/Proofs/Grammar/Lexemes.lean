import CodeAtlas.Grammar.Token
import Mathlib.Data.List.TakeWhile

/-!
# Where lexemes end

A lexeme is a part of the source that does not end with a line feed.  So the line on which it ends is not over, and in
a source in which every line is ended there is a line feed behind it.
-/

namespace CodeAtlas.Grammar.Lexical

variable {cs rest rest' : List Char} {c : Char}

/-- The last character, if there is one, is a line feed. -/
def Complete (cs : List Char) : Prop := ∀ c ∈ cs.getLast?, c = '\n'

/-- What is read in front of the rest does not end with a line feed. -/
def Eats (cs rest : List Char) : Prop := ∃ used, cs = used ++ rest ∧ used.getLast? ≠ some '\n'

theorem Complete.suffix (h : Complete cs) (hsuffix : rest <:+ cs) : Complete rest := by
  obtain ⟨used, rfl⟩ := hsuffix
  intro c hc
  apply h c
  rw [List.getLast?_append, Option.mem_def.1 hc]
  rfl

theorem Complete.feed_mem (h : Complete cs) (hne : cs ≠ []) : '\n' ∈ cs := by
  have hlast : cs.getLast? = some (cs.getLast hne) := List.getLast?_eq_some_getLast hne
  have hfeed := h _ hlast
  rw [← hfeed]
  exact List.getLast_mem hne

theorem Eats.refl (cs : List Char) : Eats cs cs := ⟨[], rfl, by simp⟩

theorem Eats.suffix (h : Eats cs rest) : rest <:+ cs := by
  obtain ⟨used, hcs, -⟩ := h
  exact ⟨used, hcs.symm⟩

theorem Eats.trans (h : Eats cs rest) (h' : Eats rest rest') : Eats cs rest' := by
  obtain ⟨used, rfl, hused⟩ := h
  obtain ⟨more, rfl, hmore⟩ := h'
  refine ⟨used ++ more, by simp, ?_⟩
  rw [List.getLast?_append]
  cases hlast : more.getLast? with
  | none => simpa [hlast] using hused
  | some c => simpa [hlast] using hmore

theorem Eats.cons (hc : c ≠ '\n') (h : Eats cs rest) : Eats (c :: cs) rest := by
  refine Eats.trans ⟨[c], rfl, ?_⟩ h
  simpa using hc

/-- Behind a lexeme the line still has to end. -/
theorem Eats.feed_mem (h : Eats cs rest) (hcs : Complete cs) (hne : cs ≠ []) : '\n' ∈ rest := by
  apply (hcs.suffix h.suffix).feed_mem
  rintro rfl
  obtain ⟨used, rfl, hused⟩ := h
  rw [List.append_nil] at hcs hne
  exact hused (by rw [List.getLast?_eq_some_getLast hne, hcs _ (List.getLast?_eq_some_getLast hne)])

/-! ### Numbers -/

section Numbers

variable {isD : Char → Bool}

theorem ne_feed_of_isD (hD : isD '\n' = false) (hc : isD c = true) : c ≠ '\n' := by
  rintro rfl
  rw [hD] at hc
  cases hc

theorem afterDigits_eats (hD : isD '\n' = false) (h : afterDigits isD cs = some rest) : Eats cs rest := by
  fun_induction afterDigits isD cs with
  | case1 => cases h; exact .refl _
  | case2 => cases h
  | case3 c tail hc ih => exact .cons (by decide) (.cons (ne_feed_of_isD hD hc) (ih h))
  | case4 => cases h
  | case5 c tail _ _ hc ih => exact .cons (ne_feed_of_isD hD hc) (ih h)
  | case6 => cases h; exact .refl _

theorem afterBased_eats (hD : isD '\n' = false) (h : afterBased isD cs = some rest) : Eats cs rest := by
  have hskip : Eats cs (if cs.head? == some '_' then cs.drop 1 else cs) := by
    split_ifs with hmark
    · cases cs with
      | nil => exact .refl _
      | cons c tail =>
        obtain rfl : c = '_' := by simpa using hmark
        exact .cons (by decide) (.refl _)
    · exact .refl _
  rw [afterBased] at h
  split at h
  · next c tail heq =>
    split_ifs at h with hc
    rw [heq] at hskip
    exact hskip.trans (.cons (ne_feed_of_isD hD hc) (afterDigits_eats hD h))
  · cases h

theorem endNumber_eats (h : endNumber cs = some rest) : Eats cs rest := by
  rw [endNumber] at h
  split_ifs at h
  cases h
  exact .refl _

theorem afterImaginary_eats (h : afterImaginary cs = some rest) : Eats cs rest := by
  unfold afterImaginary at h
  split at h
  · exact .cons (by decide) (endNumber_eats h)
  · exact .cons (by decide) (endNumber_eats h)
  · exact endNumber_eats h

theorem digits_eats {next : List Char → Option (List Char)} (hnext : ∀ {cs rest}, next cs = some rest → Eats cs rest)
    (h : afterDigits Char.isDigit cs >>= next = some rest) : Eats cs rest := by
  obtain ⟨middle, hmiddle, h⟩ := Option.bind_eq_some_iff.1 h
  exact (afterDigits_eats (by decide) hmiddle).trans (hnext h)

theorem ne_feed_of_isDigit (hc : c.isDigit = true) : c ≠ '\n' := by
  rintro rfl
  exact absurd hc (by decide)

theorem afterExponent_eats (h : afterExponent cs = some rest) : Eats cs rest := by
  unfold afterExponent at h
  split at h
  · next e tail =>
    split_ifs at h with he
    · have he : e ≠ '\n' := by rintro rfl; exact absurd he (by decide)
      split at h
      · next c more =>
        split_ifs at h with hsign hc
        · have hsign : c ≠ '\n' := by rintro rfl; exact absurd hsign (by decide)
          split at h
          · split_ifs at h with hd
            exact .cons he (.cons hsign (.cons (ne_feed_of_isDigit hd) (digits_eats afterImaginary_eats h)))
          · cases h
        · exact .cons he (.cons (ne_feed_of_isDigit hc) (digits_eats afterImaginary_eats h))
        · exact endNumber_eats h
      · exact endNumber_eats h
    · exact afterImaginary_eats h
  · cases h
    exact .refl _

theorem afterFraction_eats (h : afterFraction cs = some rest) : Eats cs rest := by
  unfold afterFraction at h
  split at h
  · split_ifs at h with hc
    · exact .cons (ne_feed_of_isDigit hc) (digits_eats afterExponent_eats h)
    · exact afterExponent_eats h
  · cases h
    exact .refl _

theorem afterDecimal_eats {first : Char} (h : afterDecimal first cs = some rest) : Eats cs rest := by
  obtain ⟨middle, hmiddle, h⟩ := Option.bind_eq_some_iff.1 h
  have heats : Eats cs middle := afterDigits_eats (by decide) hmiddle
  simp only at h
  split at h
  · exact heats.trans (.cons (by decide) (afterFraction_eats h))
  · split_ifs at h
    exact heats.trans (afterExponent_eats h)
  · split_ifs at h
    cases h
    exact heats

/-- Digits behind a base mark, which no other digit may follow. -/
theorem based_eats (hD : isD '\n' = false)
    (h : (do
      let rest ← afterBased isD cs
      if rest.head?.any Char.isDigit then none else endNumber rest) = some rest) : Eats cs rest := by
  obtain ⟨middle, hmiddle, h⟩ := Option.bind_eq_some_iff.1 h
  split_ifs at h
  exact (afterBased_eats hD hmiddle).trans (endNumber_eats h)

theorem afterNumber_eats (hc : c ≠ '\n') (h : afterNumber (c :: cs) = some rest) : Eats (c :: cs) rest := by
  have hzero : ∀ {mark : Char} {tail}, mark ≠ '\n' → Eats tail rest → Eats ('0' :: mark :: tail) rest :=
    fun hmark htail => .cons (by decide) (.cons hmark htail)
  unfold afterNumber at h
  split at h
  · next heq =>
    obtain ⟨middle, hmiddle, h⟩ := Option.bind_eq_some_iff.1 h
    rw [heq]
    exact hzero (by decide) ((afterBased_eats (by decide) hmiddle).trans (endNumber_eats h))
  · next heq =>
    obtain ⟨middle, hmiddle, h⟩ := Option.bind_eq_some_iff.1 h
    rw [heq]
    exact hzero (by decide) ((afterBased_eats (by decide) hmiddle).trans (endNumber_eats h))
  · next heq => rw [heq]; exact hzero (by decide) (based_eats (by decide) h)
  · next heq => rw [heq]; exact hzero (by decide) (based_eats (by decide) h)
  · next heq => rw [heq]; exact hzero (by decide) (based_eats (by decide) h)
  · next heq => rw [heq]; exact hzero (by decide) (based_eats (by decide) h)
  · next heq => rw [heq]; exact .cons (by decide) (afterFraction_eats h)
  · next heq =>
    cases heq
    exact .cons hc (afterDecimal_eats h)
  · cases h

end Numbers

/-! ### Quoted texts, names and operators -/

theorem eats_append (used : List Char) (hc : c ≠ '\n') (rest : List Char) : Eats (used ++ c :: rest) rest :=
  ⟨used ++ [c], by simp, by simpa using hc⟩

theorem afterTriple_eq {quote : Char} (h : afterTriple quote cs = some rest) : ∃ used, cs = used ++ quote :: rest := by
  fun_induction afterTriple quote cs with
  | case1 c tail ih =>
    obtain ⟨used, hused⟩ := ih h
    exact ⟨'\\' :: c :: used, by rw [hused]; rfl⟩
  | case2 a b c tail _ hquote =>
    cases h
    simp only [Bool.and_eq_true, beq_iff_eq] at hquote
    exact ⟨[a, b], by rw [hquote.2]; rfl⟩
  | case3 a b c tail _ _ ih =>
    obtain ⟨used, hused⟩ := ih h
    exact ⟨a :: used, by rw [hused]; rfl⟩
  | case4 => cases h

theorem afterSingle_eq {quote : Char} (h : afterSingle quote cs = some rest) : ∃ used, cs = used ++ quote :: rest := by
  fun_induction afterSingle quote cs with
  | case1 c tail ih =>
    obtain ⟨used, hused⟩ := ih h
    exact ⟨'\\' :: c :: used, by rw [hused]; rfl⟩
  | case2 c tail _ hquote =>
    cases h
    exact ⟨[], by rw [eq_of_beq hquote]; rfl⟩
  | case3 => cases h
  | case4 c tail _ _ _ ih =>
    obtain ⟨used, hused⟩ := ih h
    exact ⟨c :: used, by rw [hused]; rfl⟩
  | case5 => cases h

theorem afterQuoted_eats (hc : c ≠ '\n') (h : afterQuoted (c :: cs) = some rest) : Eats (c :: cs) rest := by
  unfold afterQuoted at h
  split at h
  · next a b e tail heq =>
    cases heq
    split_ifs at h with htriple hempty
    · obtain ⟨used, rfl⟩ := afterTriple_eq h
      exact eats_append (c :: b :: e :: used) hc rest
    · cases h
      rw [← eq_of_beq hempty]
      exact .cons hc (.cons hc (.refl _))
    · obtain ⟨used, hused⟩ := afterSingle_eq h
      rw [hused]
      exact eats_append (c :: used) hc rest
  · next a b heq =>
    cases heq
    split_ifs at h with hempty
    cases h
    rw [← eq_of_beq hempty]
    exact .cons hc (.cons hc (.refl _))
  · cases h

theorem dropWhile_eats {p : Char → Bool} (hp : p '\n' = false) (cs : List Char) : Eats cs (cs.dropWhile p) := by
  induction cs with
  | nil => exact .refl _
  | cons c cs ih =>
    cases hc : p c with
    | false => rw [List.dropWhile_cons_of_neg (by simp [hc])]; exact .refl _
    | true =>
      rw [List.dropWhile_cons_of_pos hc]
      exact .cons (ne_feed_of_isD hp hc) ih

theorem drop_length_takeWhile (p : Char → Bool) (cs : List Char) :
    cs.drop (cs.takeWhile p).length = cs.dropWhile p := by
  calc cs.drop (cs.takeWhile p).length
    _ = (cs.takeWhile p ++ cs.dropWhile p).drop (cs.takeWhile p).length := by rw [List.takeWhile_append_dropWhile]
    _ = cs.dropWhile p := List.drop_left

/-- The letters in front of a quote, and the quote. -/
theorem stringMark?_eats {n : Nat} (h : stringMark? cs = some n) :
    Eats cs (cs.drop n) ∧ ∃ c tail, cs.drop n = c :: tail ∧ c ≠ '\n' := by
  unfold stringMark? at h
  simp only at h
  split_ifs at h with hopens
  obtain rfl := Option.some.inj h
  rw [Bool.and_eq_true] at hopens
  obtain ⟨hquote, -⟩ := hopens
  rw [drop_length_takeWhile] at hquote ⊢
  refine ⟨dropWhile_eats (by decide) cs, ?_⟩
  split at hquote
  · next c tail heq => exact ⟨c, tail, heq, by rintro rfl; exact absurd hquote (by decide)⟩
  · cases hquote

/-- A comment ends in front of a line feed. -/
theorem comment_feeds (h : Complete cs) (hne : cs ≠ []) :
    ∃ tail, cs.drop (cs.takeWhile (· != '\n')).length = '\n' :: tail ∧
      cs = cs.takeWhile (· != '\n') ++ '\n' :: tail ∧ lineEnds (cs.takeWhile (· != '\n')) = 0 := by
  have hcount : lineEnds (cs.takeWhile (· != '\n')) = 0 := by
    apply List.count_eq_zero.2
    intro hmem
    simpa using List.mem_takeWhile_imp hmem
  have hsplit : cs.takeWhile (· != '\n') ++ cs.dropWhile (· != '\n') = cs := List.takeWhile_append_dropWhile
  rw [drop_length_takeWhile]
  cases hrest : cs.dropWhile (· != '\n') with
  | nil =>
    have := List.dropWhile_eq_nil_iff.1 hrest _ (h.feed_mem hne)
    simp at this
  | cons c tail =>
    have hc : (c != '\n') = false := by
      have := List.head?_dropWhile_not (· != '\n') cs
      simpa [hrest] using this
    obtain rfl : c = '\n' := by simpa using hc
    rw [hrest] at hsplit
    exact ⟨tail, rfl, hsplit.symm, hcount⟩

theorem operator?_eats {op : String} (h : operator? cs = some op) : Eats cs (cs.drop op.length) := by
  unfold operator? at h
  have hop := List.find?_some h
  obtain ⟨tail, rfl⟩ := List.isPrefixOf_iff_prefix.1 hop
  have hlast : ∀ op ∈ operators, op.toList.getLast? ≠ some '\n' := by decide
  refine ⟨op.toList, ?_, hlast op (List.mem_of_find?_eq_some h)⟩
  rw [← String.length_toList, List.drop_left]

end CodeAtlas.Grammar.Lexical

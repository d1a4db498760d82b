import CodeAtlas.Section.Braces
import Mathlib.Data.List.Basic
import Mathlib.Order.Bounds.Basic

/-!
# Braces that match

The scan keeps the number of open braces.  It ends where, for the first time, as many braces have been closed as
opened, so that it can be described by counting.
-/

namespace CodeAtlas.Braces

variable {isOpen isClose : Char → Bool} {opening closing c : Char} {cs : List Char} {depth depth' read n : Nat}

/-- With a number of braces open in front of a text, its first `n` characters leave none open. -/
def Settles (isOpen isClose : Char → Bool) (depth : Nat) (cs : List Char) (n : Nat) : Prop :=
  n ≤ cs.length ∧ depth + (cs.take n).countP isOpen = (cs.take n).countP isClose

/-! ### One character -/

theorem not_settles_zero (hdepth : 0 < depth) : ¬Settles isOpen isClose depth cs 0 := by
  rintro ⟨-, hcount⟩
  simp only [List.take_zero, List.countP_nil] at hcount
  omega

/-- The first character changes the number of open braces, and the others have to settle that number. -/
theorem settles_cons (hstep : depth + (isOpen c).toNat = depth' + (isClose c).toNat) :
    Settles isOpen isClose depth (c :: cs) (n + 1) ↔ Settles isOpen isClose depth' cs n := by
  have hone : ∀ test : Char → Bool,
      ((c :: cs).take (n + 1)).countP test = (cs.take n).countP test + (test c).toNat := by
    intro test
    rw [List.take_succ_cons, List.countP_cons]
    cases test c <;> rfl
  rw [Settles, Settles, hone, hone, List.length_cons]
  omega

/-! ### The scan -/

/-- What an ending says about a text that is read with a number of braces open. -/
def Ending.Fits (isOpen isClose : Char → Bool) (depth read : Nat) (cs : List Char) : Ending → Prop
  | .closed position => ∃ n, position = read + n ∧ IsLeast {n | Settles isOpen isClose depth cs n} n
  | .stray => False
  | .unclosed => ∀ n, ¬Settles isOpen isClose depth cs n

/-- One more character in front of a text. -/
theorem Ending.Fits.cons {e : Ending} (h : e.Fits isOpen isClose depth' (read + 1) cs) (hdepth : 0 < depth)
    (hstep : ∀ n, Settles isOpen isClose depth (c :: cs) (n + 1) ↔ Settles isOpen isClose depth' cs n) :
    e.Fits isOpen isClose depth read (c :: cs) := by
  cases e with
  | stray => exact h
  | closed position =>
    obtain ⟨n, rfl, hsettles, hleast⟩ := h
    refine ⟨n + 1, by omega, (hstep n).2 hsettles, fun m hm => ?_⟩
    cases m with
    | zero => exact absurd hm (not_settles_zero hdepth)
    | succ m => exact Nat.succ_le_succ (hleast ((hstep m).1 hm))
  | unclosed =>
    intro m hm
    cases m with
    | zero => exact not_settles_zero hdepth hm
    | succ m => exact h m ((hstep m).1 hm)

/-- How a scan with open braces ends.  There is always a brace to close, so that none closes astray. -/
theorem scan_fits (hdisjoint : ∀ c, isOpen c = true → isClose c = false) (hdepth : 0 < depth) :
    (scan isOpen isClose depth read cs).Fits isOpen isClose depth read cs := by
  induction cs generalizing depth read with
  | nil =>
    rintro n ⟨hn, hcount⟩
    simp only [List.take_nil, List.countP_nil] at hcount
    omega
  | cons c cs ih =>
    rw [scan.eq_def]
    dsimp only
    split
    · next hopen => exact (ih (Nat.succ_pos depth)).cons hdepth fun n =>
        settles_cons (by rw [hopen, hdisjoint c hopen]; rfl)
    · next hopen =>
      rw [Bool.not_eq_true] at hopen
      split
      · next hclose =>
        match depth with
        | 1 =>
          -- the last open brace is closed, after which nothing has to be settled
          refine ⟨1, rfl, (settles_cons (by rw [hopen, hclose]; rfl)).2 ⟨Nat.zero_le _, Nat.zero_add 0⟩, fun m hm => ?_⟩
          exact Nat.pos_of_ne_zero fun hzero => not_settles_zero hdepth (hzero ▸ hm)
        | d + 2 => exact (ih (Nat.succ_pos d)).cons hdepth fun n => settles_cons (by rw [hopen, hclose]; rfl)
      · next hclose =>
        rw [Bool.not_eq_true] at hclose
        exact (ih hdepth).cons hdepth fun n => settles_cons (by rw [hopen, hclose])

/-! ### The first brace -/

theorem fromFirst?_singleton (opening : Char) (n : Nat) (cs : List Char) :
    Text.fromFirst? [opening] n cs =
      if opening ∈ cs then some (n + cs.idxOf opening, cs.drop (cs.idxOf opening)) else none := by
  induction cs generalizing n with
  | nil => rfl
  | cons c cs ih =>
    by_cases hc : c = opening
    · subst hc
      simp [Text.fromFirst?]
    · have hhead : [opening].isPrefixOf (c :: cs) = false := by simpa [List.isPrefixOf] using Ne.symm hc
      rw [Text.fromFirst?, hhead, if_neg Bool.false_ne_true, ih, List.idxOf_cons_ne _ hc, List.drop_succ_cons]
      simp [Ne.symm hc, Nat.add_right_comm, Nat.add_assoc]

/-- As many braces are opened as closed between two positions of a text. -/
def EvenBetween (opening closing : Char) (cs : List Char) (first p : Nat) : Prop :=
  first < p ∧ p ≤ cs.length ∧ ((cs.take p).drop first).count opening = ((cs.take p).drop first).count closing

variable {first p : Nat} {tail : List Char} {text : String}

/-- The braces are even from an open one on exactly if what follows it settles one. -/
theorem evenBetween_iff (hne : opening ≠ closing) (hdrop : cs.drop first = opening :: tail) :
    EvenBetween opening closing cs first p ↔ ∃ n, p = first + (1 + n) ∧
      Settles (· == opening) (· == closing) 1 tail n := by
  have hlength : cs.length = first + (1 + tail.length) := by
    have := congrArg List.length hdrop
    simp only [List.length_drop, List.length_cons] at this
    omega
  have hbetween : ∀ n, (cs.take (first + (1 + n))).drop first = opening :: tail.take n := by
    intro n
    rw [List.drop_take, hdrop, Nat.add_sub_cancel_left, Nat.add_comm 1 n, List.take_succ_cons]
  constructor
  · rintro ⟨hfirst, hp, hcount⟩
    obtain ⟨n, rfl⟩ : ∃ n, p = first + (1 + n) := ⟨p - first - 1, by omega⟩
    rw [hbetween, List.count_cons_self, List.count_cons_of_ne hne] at hcount
    exact ⟨n, rfl, by omega, by rw [Nat.add_comm]; exact hcount⟩
  · rintro ⟨n, rfl, hn, hcount⟩
    refine ⟨by omega, by omega, ?_⟩
    rw [hbetween, List.count_cons_self, List.count_cons_of_ne hne, Nat.add_comm]
    exact hcount

theorem singleton_beq (brace : Char) : ((String.singleton brace).toList == [·]) = (· == brace) := by
  funext c
  rw [Bool.eq_iff_iff, beq_iff_eq, beq_iff_eq, String.toList_singleton, List.singleton_inj]
  exact eq_comm

/-- How the scan from the first open brace on ends. -/
theorem scan_first_fits (hne : opening ≠ closing) (tail : List Char) :
    (scan ((String.singleton opening).toList == [·]) ((String.singleton closing).toList == [·]) 0 0
      (opening :: tail)).Fits
      (· == opening) (· == closing) 1 1 tail := by
  have hdisjoint : ∀ c, (c == opening) = true → (c == closing) = false := by
    intro c hc
    rw [beq_iff_eq.1 hc]
    exact beq_false_of_ne hne
  have hstart : scan (· == opening) (· == closing) 0 0 (opening :: tail) =
      scan (· == opening) (· == closing) 1 1 tail := by
    rw [scan.eq_def]
    exact if_pos (beq_self_eq_true opening)
  rw [singleton_beq, singleton_beq, hstart]
  exact scan_fits hdisjoint Nat.one_pos

theorem drop_idxOf (h : opening ∈ cs) : cs.drop (cs.idxOf opening) = opening :: cs.drop (cs.idxOf opening + 1) := by
  rw [List.drop_eq_getElem_cons (List.idxOf_lt_length_of_mem h), List.getElem_idxOf]

/-- What is found for a text with an open brace. -/
theorem matching?_of_mem (hne : opening ≠ closing) (h : opening ∈ text.toList) :
    (∃ p, matching? text (String.singleton opening) (String.singleton closing) = some p ∧
      IsLeast {p | EvenBetween opening closing text.toList (text.toList.idxOf opening) p} p) ∨
    (matching? text (String.singleton opening) (String.singleton closing) = none ∧
      ∀ p, ¬EvenBetween opening closing text.toList (text.toList.idxOf opening) p) := by
  have hdrop := drop_idxOf h
  have hfits := scan_first_fits hne (text.toList.drop (text.toList.idxOf opening + 1))
  have hfound : Text.fromFirst? (String.singleton opening).toList 0 text.toList =
      some (text.toList.idxOf opening, opening :: text.toList.drop (text.toList.idxOf opening + 1)) := by
    rw [String.toList_singleton, fromFirst?_singleton, if_pos h, hdrop, Nat.zero_add]
  rw [matching?, hfound]
  dsimp only
  revert hfits
  cases scan ((String.singleton opening).toList == [·]) ((String.singleton closing).toList == [·]) 0 0
      (opening :: text.toList.drop (text.toList.idxOf opening + 1)) with
  | stray => exact False.elim
  | closed position =>
    rintro ⟨n, rfl, hsettles, hleast⟩
    refine Or.inl ⟨_, rfl, (evenBetween_iff hne hdrop).2 ⟨n, rfl, hsettles⟩, fun p hp => ?_⟩
    obtain ⟨m, rfl, hm⟩ := (evenBetween_iff hne hdrop).1 hp
    have := hleast hm
    omega
  | unclosed =>
    intro hnever
    refine Or.inr ⟨rfl, fun p hp => ?_⟩
    obtain ⟨m, -, hm⟩ := (evenBetween_iff hne hdrop).1 hp
    exact hnever m hm

/-- The position behind the brace that closes the first open one is the first one up to which as many braces are
opened as closed.  There is none if no brace is open or the numbers never agree, and never because a brace closes
astray. -/
theorem matching_isLeast (text : String) (hne : opening ≠ closing) :
    (∀ p, matching? text (String.singleton opening) (String.singleton closing) = some p ↔ opening ∈ text.toList ∧
      IsLeast {p | EvenBetween opening closing text.toList (text.toList.idxOf opening) p} p) ∧
    (matching? text (String.singleton opening) (String.singleton closing) = none ↔
      opening ∉ text.toList ∨ ∀ p, ¬EvenBetween opening closing text.toList (text.toList.idxOf opening) p) ∧
    ∀ before rest, Text.fromFirst? (String.singleton opening).toList 0 text.toList = some (before, rest) →
      scan ((String.singleton opening).toList == [·]) ((String.singleton closing).toList == [·]) 0 0 rest ≠ .stray := by
  by_cases h : opening ∈ text.toList
  · refine ⟨fun p => ?_, ?_, fun before rest hfound hstray => ?_⟩
    · obtain ⟨q, hq, hleast⟩ | ⟨hnone, hnever⟩ := matching?_of_mem hne h
      · rw [hq, Option.some.injEq]
        exact ⟨fun heq => ⟨h, heq ▸ hleast⟩, fun ⟨_, hleast'⟩ => hleast.unique hleast'⟩
      · rw [hnone]
        exact ⟨nofun, fun ⟨_, heven, _⟩ => (hnever p heven).elim⟩
    · obtain ⟨q, hq, heven, -⟩ | ⟨hnone, hnever⟩ := matching?_of_mem hne h
      · rw [hq]
        exact ⟨nofun, fun hor => (hor.resolve_left (not_not_intro h) q heven).elim⟩
      · rw [hnone]
        exact ⟨fun _ => Or.inr hnever, fun _ => rfl⟩
    · rw [String.toList_singleton, fromFirst?_singleton, if_pos h, drop_idxOf h] at hfound
      cases hfound
      have hfits := scan_first_fits hne (text.toList.drop (text.toList.idxOf opening + 1))
      rw [hstray] at hfits
      exact hfits
  · have hmissing : Text.fromFirst? (String.singleton opening).toList 0 text.toList = none := by
      rw [String.toList_singleton, fromFirst?_singleton, if_neg h]
    have hnone : matching? text (String.singleton opening) (String.singleton closing) = none := by
      rw [matching?, hmissing]
    refine ⟨fun p => ?_, ?_, fun before rest hfound => ?_⟩
    · rw [hnone]
      exact ⟨nofun, fun ⟨hmem, _⟩ => (h hmem).elim⟩
    · rw [hnone]
      exact ⟨fun _ => Or.inl h, fun _ => rfl⟩
    · rw [hmissing] at hfound
      cases hfound

theorem matching_isLeast_nested :
    '(' ≠ ')' ∧ IsLeast {p | EvenBetween '(' ')' ")a(b(c)d)e)".toList (")a(b(c)d)e)".toList.idxOf '(') p} 9 := by
  have hne : '(' ≠ ')' := by decide
  have hfound : matching? ")a(b(c)d)e)" (String.singleton '(') (String.singleton ')') = some 9 := by decide
  exact ⟨hne, (((matching_isLeast ")a(b(c)d)e)" hne).1 9).1 hfound).2⟩

end CodeAtlas.Braces

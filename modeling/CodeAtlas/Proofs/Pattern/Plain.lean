import CodeAtlas.Proofs.Pattern.Spelling

/-!
# Plain patterns

A plain pattern is built of characters, rows of characters and groups one after another.  It refers to no group, looks
at no edge and gives everything back, so that it matches wherever one of the texts that it spells stands.
-/

namespace CodeAtlas.Pattern

variable {α : Type} {s : Spot} {next : Spot → Option α} {accepts : Char → Bool} {p : Pattern} {w rest : List Char}

/-- Patterns built of characters, rows of characters and groups one after another. -/
inductive Plain : Pattern → Prop
  | empty : Plain empty
  | one (accepts : Char → Bool) : Plain (one accepts)
  | many (accepts : Char → Bool) : Plain (many (Pattern.one accepts))
  | many1 (accepts : Char → Bool) : Plain (many1 (Pattern.one accepts))
  | seq {p q : Pattern} : Plain p → Plain q → Plain (seq p q)
  | group {p : Pattern} (index : Nat) : Plain p → Plain (group index p)

theorem Plain.concat {ps : List Pattern} (h : ∀ p ∈ ps, p.Plain) : (concat ps).Plain := by
  fun_induction Pattern.concat ps with
  | case1 => exact .empty
  | case2 p => exact h p (by simp)
  | case3 p rest _ ih => exact .seq (h p (by simp)) (ih fun q hq => h q (by simp [hq]))

theorem Plain.literal (text : String) : (literal text).Plain := by
  apply Plain.concat
  intro p hp
  obtain ⟨c, -, rfl⟩ := List.mem_map.1 hp
  exact .one _

/-! ### What the parts spell -/

theorem spells_concat_cons {ps : List Pattern} :
    (concat (p :: ps)).Spells w ↔ ∃ u v, p.Spells u ∧ (concat ps).Spells v ∧ w = u ++ v := by
  cases ps with
  | nil => simp [concat, Spells]
  | cons q ps => rfl

theorem spells_literal {text : String} : (literal text).Spells w ↔ w = text.toList := by
  rw [literal]
  induction text.toList generalizing w with
  | nil => rfl
  | cons c cs ih =>
    rw [List.map_cons, spells_concat_cons]
    constructor
    · rintro ⟨u, v, ⟨d, hd, rfl⟩, hv, rfl⟩
      rw [ih.1 hv, beq_iff_eq.1 hd]
      rfl
    · rintro rfl
      exact ⟨[c], cs, ⟨c, beq_self_eq_true c, rfl⟩, ih.2 rfl, rfl⟩

theorem flatten_of_singles {us : List (List Char)} (h : ∀ u ∈ us, (one accepts).Spells u) :
    us.flatten.length = us.length ∧ ∀ c ∈ us.flatten, accepts c = true := by
  induction us with
  | nil => simp
  | cons u us ih =>
    obtain ⟨c, hc, rfl⟩ := h u (by simp)
    obtain ⟨hlength, hall⟩ := ih fun v hv => h v (by simp [hv])
    refine ⟨by simp [hlength], ?_⟩
    simpa [hc] using hall

/-- A row spells the texts of characters that it accepts. -/
theorem spells_row {least : Nat} {possessive : Bool} :
    (rep (one accepts) least none possessive).Spells w ↔ least ≤ w.length ∧ ∀ c ∈ w, accepts c = true := by
  constructor
  · rintro ⟨us, hus, hleast, -, rfl⟩
    obtain ⟨hlength, hall⟩ := flatten_of_singles hus
    exact ⟨by omega, hall⟩
  · rintro ⟨hleast, hall⟩
    refine ⟨w.map fun c => [c], ?_, by simpa using hleast, by simp, by simp [← List.flatMap_def]⟩
    intro u hu
    obtain ⟨c, hc, rfl⟩ := List.mem_map.1 hu
    exact ⟨c, hall c hc, rfl⟩

/-! ### Completeness -/

theorem length_le_takeWhile (hall : ∀ c ∈ w, accepts c = true) (rest : List Char) :
    w.length ≤ ((w ++ rest).takeWhile accepts).length := by
  rw [List.takeWhile_append_of_pos hall, List.length_append]
  omega

theorem Spot.reads_of_rest (h : s.rest = w ++ rest) : s.Reads w (s.skip w.length) := by
  have hread : s.Reads (s.rest.take w.length) (s.skip w.length) := Spot.reads_skip (by simp [h])
  rwa [h, List.take_left] at hread

-- What follows may depend on the groups, so it has to go on from every spot that the text leads to.
theorem Plain.isSome_run (hp : p.Plain) (hw : p.Spells w) (hrest : s.rest = w ++ rest)
    (hnext : ∀ t, s.Reads w t → (next t).isSome) : (p.run s next).isSome := by
  induction hp generalizing s next w rest with
  | empty =>
    obtain rfl : w = [] := hw
    exact hnext s (.refl s)
  | one accepts =>
    obtain ⟨c, hc, rfl⟩ := hw
    exact (isSome_run_one accepts s next).2 ⟨c, rest, hrest, hc, hnext _ (Spot.reads_of_rest hrest)⟩
  | many accepts =>
    obtain ⟨-, hall⟩ := spells_row.1 hw
    refine (isSome_run_many_one accepts s next).2 ⟨w.length, ?_, hnext _ (Spot.reads_of_rest hrest)⟩
    rw [hrest]
    exact length_le_takeWhile hall rest
  | many1 accepts =>
    obtain ⟨hpos, hall⟩ := spells_row.1 hw
    obtain ⟨c, cs, rfl⟩ : ∃ c cs, w = c :: cs := List.exists_cons_of_length_pos hpos
    have hlater : (s.skip 1).rest = cs ++ rest := by rw [Spot.rest_skip, hrest]; rfl
    refine (isSome_run_one accepts s _).2 ⟨c, cs ++ rest, hrest, hall c (by simp), ?_⟩
    refine (isSome_rounds_one (by rw [hlater, hrest]; simp only [List.length_append, List.length_cons]; omega)
      (by simp)).2 ⟨cs.length, ?_, ?_⟩
    · rw [hlater]
      exact length_le_takeWhile (fun d hd => hall d (by simp [hd])) rest
    · rw [Spot.skip_skip, Nat.add_comm]
      exact hnext _ (Spot.reads_of_rest hrest)
  | seq _ _ ihp ihq =>
    obtain ⟨u, v, hu, hv, rfl⟩ := hw
    rw [List.append_assoc] at hrest
    refine ihp hu hrest fun t ht => ihq hv (List.append_cancel_left (ht.rest_eq.symm.trans hrest)) fun t' ht' => ?_
    exact hnext t' (ht.trans ht')
  | group index _ ih =>
    refine ih hw hrest fun t ht => ?_
    exact hnext _ ⟨ht.rest_eq, ht.position_eq, ht.last_eq⟩

/-- A plain pattern matches exactly where a text stands that it spells. -/
theorem Plain.isSome_matchAt_iff (hp : p.Plain) : (p.matchAt s).isSome ↔ ∃ w rest, p.Spells w ∧ s.rest = w ++ rest := by
  constructor
  · intro h
    obtain ⟨t, ht⟩ := Option.isSome_iff_exists.1 h
    obtain ⟨w, t', hw, hread, -⟩ := exists_spells_of_run ht
    exact ⟨w, t'.rest, hw, hread.rest_eq⟩
  · rintro ⟨w, rest, hw, hrest⟩
    exact hp.isSome_run hw hrest fun _ _ => rfl

end CodeAtlas.Pattern

import CodeAtlas.Outline.Element
import CodeAtlas.Pattern.Reading
import CodeAtlas.Proofs.Pattern.Spelling
import CodeAtlas.Text.Identifier
import Mathlib.Data.List.Forall2
import Mathlib.Data.List.TakeWhile

/-!
# What name patterns mean

A name pattern is written as a regular pattern by two replacements.  As long as its other characters have no meaning
of their own it is read back as its characters one after another, and so matches the names that are obtained by
putting something in the place of each star and question mark.

## Main definitions

* `NamePattern.Stands` — what a character of a name pattern can stand for
* `NamePattern.Denotes` — a text that is obtained from a name pattern

## Main results

* `NamePattern.ofText_regular` — a name pattern is read as its characters
* `NamePattern.isSome_run_items` — the matcher finds a text for each character if there are such texts
* `NamePattern.accepts_iff_denotes` — a name matches exactly if it is obtained from the pattern
-/

namespace CodeAtlas

namespace Pattern

variable {c : Char} {rest : List Char} {position : Nat} {opened : Nat} {closed : List Nat} {items : List Item}

/-! ### Reading a pattern -/

/-- Characters that stand for something else in a written pattern. -/
def reserved : List Char := ['\\', '[', '(', ')', '|', '.', '^', '$', '*', '+', '\x7b']

theorem ne_of_not_mem_reserved (hc : c ∉ reserved) : c ≠ '\\' := by
  rintro rfl
  exact hc List.mem_cons_self

theorem ofToken_of_not_mem_reserved (hc : c ∉ reserved) : Symbol.ofToken [c] = .item (.plain (.one (· == c))) := by
  simp only [reserved, List.mem_cons, List.not_mem_nil, or_false, not_or] at hc
  simp [Symbol.ofToken, hc]

theorem Input.token?_cons (hc : c ≠ '\\') : Input.token? ⟨c :: rest, position, opened, closed⟩ = some [c] := by
  simp [Input.token?, hc]

theorem Input.advance_cons (hc : c ≠ '\\') (hrest : '\\' ∉ rest) :
    Input.advance ⟨c :: rest, position, opened, closed⟩ = .ok ⟨rest, position + 1, opened, closed⟩ := by
  have hsettled : rest ≠ ['\\'] := by
    rintro rfl
    simp at hrest
  simp [Input.advance, Input.token?_cons hc, Input.settle, hsettled]

theorem sequence_item {item : Item} (hc : c ≠ '\\') (hitem : Symbol.ofToken [c] = .item item) (hrest : '\\' ∉ rest)
    (fuel : Nat) :
    Pattern.sequence (fuel + 1) ⟨c :: rest, position, opened, closed⟩ items =
      Pattern.sequence fuel ⟨rest, position + 1, opened, closed⟩ (item :: items) := by
  rw [Pattern.sequence, Input.token?_cons hc, Option.getD_some, hitem]
  dsimp only
  rw [Input.advance_cons hc hrest]
  rfl

theorem sequence_star {p : Pattern} (hrest : '\\' ∉ rest) (hplus : '+' ∉ rest) (fuel : Nat) :
    Pattern.sequence (fuel + 1) ⟨'*' :: rest, position, opened, closed⟩ (.plain p :: items) =
      Pattern.sequence fuel ⟨rest, position + 1, opened, closed⟩ (.repeated (many p) :: items) := by
  have hskip : Input.skip ⟨rest, position + 1, opened, closed⟩ '+' =
      .ok (false, ⟨rest, position + 1, opened, closed⟩) := by
    refine if_neg ?_
    cases rest with
    | nil => simp [Input.token?]
    | cons c rest =>
      have hc : c ≠ '\\' := fun heq => hrest (heq ▸ List.mem_cons_self)
      have hc' : c ≠ '+' := fun heq => hplus (heq ▸ List.mem_cons_self)
      simpa [Input.token?_cons hc] using hc'
  have hstar : Symbol.ofToken ['*'] = .times ⟨0, none⟩ := rfl
  rw [Pattern.sequence, Input.token?_cons (by decide), Option.getD_some, hstar]
  dsimp only
  rw [Input.advance_cons (by decide) hrest]
  dsimp only [bind, Except.bind, quantify]
  rw [hskip]
  rfl

/-- A text of which all is read as items denotes them one after another. -/
theorem ofText_of_sequence {text : String} (hslash : '\\' ∉ text.toList)
    (h : Pattern.sequence (2 * text.toList.length + 1) { rest := text.toList } [] =
      .ok (items, ⟨[], position, opened, closed⟩)) :
    ofText text = .ok (concat (items.reverse.map Item.pattern)) := by
  have hsettled : text.toList ≠ ['\\'] := by
    intro heq
    simp [heq] at hslash
  have hread : alternatives (2 * text.toList.length + 2) { rest := text.toList } =
      .ok (concat (items.reverse.map Item.pattern), ⟨[], position, opened, closed⟩) := by
    rw [alternatives, h]
    rfl
  simp [ofText, Input.settle, hsettled, hread, bind, Except.bind, pure, Except.pure]

end Pattern

namespace NamePattern

open Pattern

/-- How a character of a name pattern is written in the regular pattern. -/
def written (c : Char) : List Char := if c = '*' then ['.', '*'] else if c = '?' then ['.'] else [c]

/-- The item that a character of a name pattern is read as. -/
def item (c : Char) : Pattern.Item :=
  if c = '*' then .repeated (many (one (· != '\n'))) else if c = '?' then .plain (one (· != '\n'))
    else .plain (one (· == c))

theorem replaceChars_singleton (old : Char) (new cs : List Char) :
    Text.replaceChars [old] new 0 cs = cs.flatMap fun c => if c = old then new else [c] := by
  induction cs with
  | nil => rfl
  | cons c cs ih =>
    rw [Text.replaceChars, List.flatMap_cons]
    by_cases hc : c = old
    · simp [hc, ih]
    · simp [hc, Ne.symm hc, ih]

theorem toList_regular (p : NamePattern) : p.regular.toList = p.text.toList.flatMap written := by
  have hstars : Text.replaceChars "*".toList ".*".toList 0 p.text.toList = _ := replaceChars_singleton '*' ['.', '*'] _
  have hmarks : ∀ cs, Text.replaceChars "?".toList ".".toList 0 cs = _ := replaceChars_singleton '?' ['.']
  simp only [regular, Text.replaceAll, String.toList_ofList]
  rw [hstars, hmarks, List.flatMap_assoc]
  refine List.flatMap_congr fun c _ => ?_
  by_cases hstar : c = '*'
  · simp [written, hstar]
  · simp [written, hstar]

variable {pattern : List Char}

theorem not_mem_flatMap_written (h : ∀ c ∈ pattern, c = '*' ∨ c = '?' ∨ c ∉ reserved) {x : Char}
    (hx : x = '\\' ∨ x = '+') :
    x ∉ pattern.flatMap written := by
  intro hmem
  obtain ⟨c, hc, hwritten⟩ := List.mem_flatMap.1 hmem
  rw [written] at hwritten
  rcases h c hc with rfl | rfl | hplain
  · rcases hx with rfl | rfl <;> simp at hwritten
  · rcases hx with rfl | rfl <;> simp at hwritten
  · split at hwritten
    · rcases hx with rfl | rfl <;> simp at hwritten
    · split at hwritten
      · rcases hx with rfl | rfl <;> simp at hwritten
      · obtain rfl := List.mem_singleton.1 hwritten
        rcases hx with rfl | rfl <;> simp [reserved] at hplain

theorem sequence_written (h : ∀ c ∈ pattern, c = '*' ∨ c = '?' ∨ c ∉ reserved) {fuel : Nat}
    (hfuel : (pattern.flatMap written).length < fuel) (position : Nat) (items : List Pattern.Item) :
    ∃ position', Pattern.sequence fuel ⟨pattern.flatMap written, position, 0, []⟩ items =
      .ok ((pattern.map item).reverse ++ items, ⟨[], position', 0, []⟩) := by
  induction pattern generalizing fuel position items with
  | nil =>
    obtain ⟨fuel, rfl⟩ := Nat.exists_eq_succ_of_ne_zero (by omega : fuel ≠ 0)
    refine ⟨position, ?_⟩
    rw [Pattern.sequence]
    rfl
  | cons c pattern ih =>
    obtain ⟨hc, hrest⟩ := List.forall_mem_cons.1 h
    have hslash : '\\' ∉ pattern.flatMap written := not_mem_flatMap_written hrest (Or.inl rfl)
    have hplus : '+' ∉ pattern.flatMap written := not_mem_flatMap_written hrest (Or.inr rfl)
    rw [List.flatMap_cons, List.length_append] at hfuel
    rw [List.flatMap_cons, List.map_cons, List.reverse_cons, List.append_assoc, List.singleton_append]
    by_cases hstar : c = '*'
    · rw [written, if_pos hstar] at hfuel ⊢
      rw [List.length_cons, List.length_singleton] at hfuel
      obtain ⟨fuel, rfl⟩ := Nat.exists_eq_add_of_le' (show 2 ≤ fuel by omega)
      obtain ⟨position', hsequence⟩ := ih hrest (show _ < fuel by omega) (position + 1 + 1) (item c :: items)
      refine ⟨position', ?_⟩
      rw [← hsequence, item, if_pos hstar]
      exact (sequence_item (by decide) rfl (by simpa using hslash) (fuel + 1)).trans (sequence_star hslash hplus fuel)
    · rw [written, if_neg hstar] at hfuel ⊢
      have hone : (if c = '?' then ['.'] else [c]).length = 1 := by split <;> rfl
      rw [hone] at hfuel
      obtain ⟨fuel, rfl⟩ := Nat.exists_eq_add_of_le' (show 1 ≤ fuel by omega)
      obtain ⟨position', hsequence⟩ := ih hrest (show _ < fuel by omega) (position + 1) (item c :: items)
      refine ⟨position', ?_⟩
      rw [← hsequence, item, if_neg hstar]
      by_cases hmark : c = '?'
      · rw [if_pos hmark, if_pos hmark]
        exact sequence_item (by decide) rfl hslash fuel
      · rw [if_neg hmark, if_neg hmark]
        have hplain := (hc.resolve_left hstar).resolve_left hmark
        exact sequence_item (ne_of_not_mem_reserved hplain) (ofToken_of_not_mem_reserved hplain) hslash fuel

/-- A name pattern is read as its characters, one after another. -/
theorem ofText_regular (p : NamePattern) (h : ∀ c ∈ p.text.toList, c = '*' ∨ c = '?' ∨ c ∉ reserved) :
    Pattern.ofText p.regular = .ok (concat (p.text.toList.map fun c => (item c).pattern)) := by
  have hslash : '\\' ∉ p.regular.toList := by
    rw [toList_regular]
    exact not_mem_flatMap_written h (Or.inl rfl)
  obtain ⟨position, hsequence⟩ := sequence_written h
    (show _ < 2 * p.regular.toList.length + 1 by rw [toList_regular]; omega) 0 []
  rw [← toList_regular] at hsequence
  rw [ofText_of_sequence hslash hsequence, List.append_nil, List.reverse_reverse, List.map_map]
  rfl

/-! ### Matching -/

theorem run_concat_cons {α : Type} (p : Pattern) (ps : List Pattern) (s : Spot) (next : Spot → Option α) :
    (concat (p :: ps)).run s next = p.run s fun t => (concat ps).run t next := by
  cases ps with
  | nil => rfl
  | cons q qs => rfl

/-- What a character of a name pattern can stand for. -/
def Stands (c : Char) (text : List Char) : Prop :=
  if c = '*' then True else if c = '?' then text.length = 1 else text = [c]

theorem isSome_run_item {α : Type} {s : Spot} (hline : '\n' ∉ s.rest) (c : Char) (next : Spot → Option α) :
    ((item c).pattern.run s next).isSome ↔ ∃ text, Stands c text ∧ text <+: s.rest ∧
      (next (s.skip text.length)).isSome := by
  by_cases hstar : c = '*'
  · have hall : s.rest.takeWhile (· != '\n') = s.rest := by
      rw [List.takeWhile_eq_self_iff]
      intro x hx
      rw [bne_iff_ne]
      rintro rfl
      exact hline hx
    simp only [item, Stands, if_pos hstar, Pattern.Item.pattern]
    rw [isSome_run_many_one, hall]
    constructor
    · rintro ⟨n, hn, hnext⟩
      exact ⟨s.rest.take n, trivial, List.take_prefix n _, by rwa [List.length_take_of_le hn]⟩
    · rintro ⟨text, -, hpre, hnext⟩
      exact ⟨text.length, hpre.length_le, hnext⟩
  · by_cases hmark : c = '?'
    · simp only [item, Stands, if_neg hstar, if_pos hmark, Pattern.Item.pattern]
      rw [isSome_run_one]
      constructor
      · rintro ⟨x, rest, hrest, -, hnext⟩
        exact ⟨[x], rfl, ⟨rest, hrest.symm⟩, hnext⟩
      · rintro ⟨text, htext, ⟨rest, hrest⟩, hnext⟩
        obtain ⟨x, rfl⟩ := List.length_eq_one_iff.1 htext
        refine ⟨x, rest, hrest.symm, ?_, hnext⟩
        rw [bne_iff_ne]
        rintro rfl
        exact hline (hrest ▸ List.mem_cons_self)
    · simp only [item, Stands, if_neg hstar, if_neg hmark, Pattern.Item.pattern]
      rw [isSome_run_one]
      constructor
      · rintro ⟨x, rest, hrest, hx, hnext⟩
        obtain rfl := beq_iff_eq.1 hx
        exact ⟨[x], rfl, ⟨rest, hrest.symm⟩, hnext⟩
      · rintro ⟨text, rfl, ⟨rest, hrest⟩, hnext⟩
        exact ⟨c, rest, hrest.symm, beq_self_eq_true c, hnext⟩

theorem isSome_run_items {α : Type} {s : Spot} (hline : '\n' ∉ s.rest) (pattern : List Char) (next : Spot → Option α) :
    ((concat (pattern.map fun c => (item c).pattern)).run s next).isSome ↔
      ∃ texts, List.Forall₂ Stands pattern texts ∧ texts.flatten <+: s.rest ∧
        (next (s.skip texts.flatten.length)).isSome := by
  induction pattern generalizing s with
  | nil => simp [concat, run]
  | cons c pattern ih =>
    have hlater : ∀ n, '\n' ∉ (s.skip n).rest := by
      intro n hmem
      rw [Spot.rest_skip] at hmem
      exact hline (List.mem_of_mem_drop hmem)
    rw [List.map_cons, run_concat_cons, isSome_run_item hline]
    constructor
    · rintro ⟨text, htext, ⟨rest, hrest⟩, hnext⟩
      obtain ⟨texts, htexts, hpre, hnext⟩ := (ih (hlater _)).1 hnext
      refine ⟨text :: texts, .cons htext htexts, ?_, ?_⟩
      · rw [Spot.rest_skip, ← hrest, List.drop_left] at hpre
        rw [List.flatten_cons, ← hrest]
        exact List.prefix_append_right_inj text |>.2 hpre
      · rwa [List.flatten_cons, List.length_append, ← Spot.skip_skip]
    · rintro ⟨texts, htexts, hpre, hnext⟩
      obtain ⟨text, texts, htext, hothers, rfl⟩ := List.forall₂_cons_left_iff.1 htexts
      obtain ⟨rest, hrest⟩ := hpre
      rw [List.flatten_cons, List.append_assoc] at hrest
      rw [List.flatten_cons, List.length_append, ← Spot.skip_skip] at hnext
      refine ⟨text, htext, ⟨_, hrest⟩, (ih (hlater _)).2 ⟨texts, hothers, ?_, hnext⟩⟩
      rw [Spot.rest_skip, ← hrest, List.drop_left]
      exact ⟨rest, rfl⟩

/-- A text that is obtained from a name pattern by putting something in the place of each star and question mark. -/
def Denotes (p : NamePattern) (name : String) : Prop :=
  ∃ texts, List.Forall₂ Stands p.text.toList texts ∧ texts.flatten = name.toList

theorem matchesAll_items_iff {name : List Char} (hline : '\n' ∉ name) (pattern : List Char) :
    (concat (pattern.map fun c => (item c).pattern)).matchesAll name = true ↔
      ∃ texts, List.Forall₂ Stands pattern texts ∧ texts.flatten = name := by
  rw [matchesAll, isSome_run_items (s := Spot.start name) hline]
  refine exists_congr fun texts => and_congr_right fun _ => ?_
  rw [Spot.rest_skip]
  constructor
  · rintro ⟨⟨rest, hrest⟩, hempty⟩
    have hname : name = texts.flatten ++ rest := hrest.symm
    have hnil : rest = [] := by simpa [Spot.start, hname, List.drop_left] using hempty
    rw [hname, hnil, List.append_nil]
  · rintro rfl
    exact ⟨List.prefix_rfl, by simp [Spot.start]⟩

theorem not_mem_of_isIdentifier {name : List Char} (h : Text.isIdentifier name = true) : '\n' ∉ name := by
  intro hmem
  cases name with
  | nil => cases hmem
  | cons c rest =>
    simp only [Text.isIdentifier, Bool.and_eq_true, List.all_eq_true] at h
    rcases List.mem_cons.1 hmem with rfl | hrest
    · exact absurd h.1 (by decide)
    · exact absurd (h.2 _ hrest) (by decide)

theorem not_mem_reserved {c : Char} (h : Text.continuesIdentifier c = true) : c ∉ reserved := by
  have hreserved : reserved.all (fun x => !Text.continuesIdentifier x) = true := by decide
  intro hmem
  simpa [h] using List.all_eq_true.1 hreserved c hmem

/-- A name matches a pattern of stars, question marks and characters of identifiers exactly if it is obtained from it
by putting some text in the place of each star and one character in the place of each question mark. -/
theorem accepts_iff_denotes (p : NamePattern) {name : String} (hname : Text.isIdentifier name.toList = true)
    (hp : ∀ c ∈ p.text.toList, Text.continuesIdentifier c = true ∨ c = '*' ∨ c = '?') :
    ∃ b, p.accepts name = .ok b ∧ (b = true ↔ p.Denotes name) := by
  rw [accepts]
  split
  · next hany =>
    refine ⟨true, rfl, iff_of_true rfl ⟨[name.toList], ?_, by simp⟩⟩
    rw [beq_iff_eq.1 hany]
    exact .cons trivial .nil
  · have hread := ofText_regular p fun c hc => by
      rcases hp c hc with hplain | hstar | hmark
      · exact Or.inr (Or.inr (not_mem_reserved hplain))
      · exact Or.inl hstar
      · exact Or.inr (Or.inl hmark)
    rw [hread]
    exact ⟨_, rfl, matchesAll_items_iff (not_mem_of_isIdentifier hname) _⟩

/-- Each star gives back what the rest of the pattern needs. -/
theorem accepts_iff_denotes_interplay : Text.isIdentifier "aXbbXb".toList = true ∧
    (NamePattern.mk "a*b*?b").accepts "aXbbXb" = .ok true ∧ (NamePattern.mk "a*b*?b").Denotes "aXbbXb" ∧
    ¬(NamePattern.mk "a*b*?b").Denotes "aXb" := by
  have hname : Text.isIdentifier "aXbbXb".toList = true := by decide
  have hall : "a*b*?b".toList.all (fun c => Text.continuesIdentifier c || c == '*' || c == '?') = true := by decide
  have hp : ∀ c ∈ (NamePattern.mk "a*b*?b").text.toList, Text.continuesIdentifier c = true ∨ c = '*' ∨ c = '?' := by
    intro c hc
    simpa [or_assoc] using List.all_eq_true.1 hall c hc
  obtain ⟨b, hb, hiff⟩ := accepts_iff_denotes _ hname hp
  obtain ⟨b', hb', hiff'⟩ := accepts_iff_denotes _ (show Text.isIdentifier "aXb".toList = true by decide) hp
  have hyes : ((NamePattern.mk "a*b*?b").accepts "aXbbXb").toOption = some true := by decide +kernel
  have hno : ((NamePattern.mk "a*b*?b").accepts "aXb").toOption = some false := by decide +kernel
  rw [hb] at hyes
  rw [hb'] at hno
  cases hyes
  cases hno
  exact ⟨hname, hb, hiff.1 rfl, fun h => nomatch hiff'.2 h⟩

end NamePattern

end CodeAtlas

import CodeAtlas.Proofs.Section.Loads
import CodeAtlas.Proofs.Section.Policies

/-!
# Maps that hold nothing but their head

A map that is nearly full is put aside as soon as a part has been written to it, and the next one is begun
before it is known whether there is anything to write.  If the next part has no room behind the head, the map
is put aside again as it is.

## Main definitions

* `Packing.Bare` — a map was begun and nothing has been written to it
* `Packing.Wastes` — adding a part puts such a map aside
* `Filled` — maps put aside that all hold more than their heads

## Main results

* `Packing.exists_bare_iff` — bare maps are put aside exactly where adding a part wastes one
* `Packing.bare_after_iff` — when a map is bare after parts none of which is empty
* `pack_filled_iff` — when a section puts no bare map aside
-/

namespace CodeAtlas.Section

section Definitions

variable (count : Counter) (limit : Int)

/-- A map was begun since the first packing, and has nothing but its head. -/
def Packing.Bare (s t : Packing) : Prop := s.done.length < t.done.length ∧ t.map = continuation t.number

/-- Adding a part puts a map aside that has nothing but its head: the current one, if the part has no room
behind it, or the one to which the part is written, if the part is empty and the head alone nearly full. -/
def Packing.Wastes (s t : Packing) (part : String) : Prop :=
  (s.Bare t ∧ limit < count t.map + count part) ∨
    (s.Bare (t.placed count limit part) ∧ (t.placed count limit part).isFull count limit = true)

end Definitions

variable {count : Counter} {limit : Int} {s t : Packing} {part text : String} {parts : List String}

/-- Behind a map that was begun something can be written only behind its head. -/
theorem Packing.Writes.append_ne_head (h : s.Writes t text) (hbegun : s.done.length < t.done.length)
    (hpart : part ≠ "") : t.map ++ part ≠ continuation t.number := by
  obtain ⟨appended, hext⟩ := h.extends
  have hne : appended ≠ [] := by
    rintro rfl
    simp [hext.done_eq] at hbegun
  have hmem : (t.number, t.map) ∈ (t.entries appended).tail := by
    rw [Packing.entries, List.tail_append_of_ne_nil hne]
    simp
  have hhead : (continuation t.number).toList.length ≤ t.map.toList.length :=
    (Text.startsWith_iff.1 (hext.headed _ hmem)).length_le
  rw [String.length_toList, String.length_toList] at hhead
  intro heq
  have hlength := congrArg String.length heq
  rw [String.length_append] at hlength
  have hzero : part.length = 0 := by omega
  exact hpart (by simpa using hzero)

theorem Packing.done_placed (t : Packing) (part : String) : (t.placed count limit part).done =
    t.done ++ if limit < count t.map + count part then [(t.number, t.map)] else [] := by
  rw [Packing.placed, Packing.room]
  split
  · rfl
  · simp [Packing.write]

/-- Adding a part puts the current map aside if there is no room for it, and then the map with the part if
that is nearly full. -/
theorem Packing.done_added (t : Packing) (part : String) : (t.added count limit part).done =
    (t.placed count limit part).done ++ if (t.placed count limit part).isFull count limit then
        [((t.placed count limit part).number, (t.placed count limit part).map)]
      else [] := by
  rw [Packing.added]
  split
  · rfl
  · rw [List.append_nil]

/-- What stands at some place of a list stands in front of its last element, or is that. -/
theorem exists_place_concat {α : Type} {P : List α → α → Prop} {xs : List α} {x : α} :
    (∃ front y back, xs ++ [x] = front ++ y :: back ∧ P front y) ↔
      (∃ front y back, xs = front ++ y :: back ∧ P front y) ∨ P xs x := by
  constructor
  · rintro ⟨front, y, back, heq, hy⟩
    obtain rfl | ⟨back, z, rfl⟩ := List.eq_nil_or_concat back
    · obtain ⟨rfl, heq⟩ := List.append_inj' heq rfl
      obtain rfl : x = y := by simpa using heq
      exact Or.inr hy
    · rw [List.concat_eq_append, ← List.cons_append, ← List.append_assoc] at heq
      obtain ⟨rfl, -⟩ := List.append_inj' heq rfl
      exact Or.inl ⟨front, y, back, rfl, hy⟩
  · rintro (⟨front, y, back, rfl, hy⟩ | hx)
    · exact ⟨front, y, back ++ [x], by simp, hy⟩
    · exact ⟨xs, x, [], rfl, hx⟩

/-- Of the maps that adding a part puts aside, a bare one other than the first of all is one that was begun. -/
theorem Packing.exists_bare_added_iff (s t : Packing) (part : String) {before appended : List (Int × String)}
    (hbefore : t.done = s.done ++ before) (happended : (t.added count limit part).done = s.done ++ appended) :
    (∃ entry ∈ appended.tail, entry.2 = continuation entry.1) ↔
      (∃ entry ∈ before.tail, entry.2 = continuation entry.1) ∨ s.Wastes count limit t part := by
  have hplaced := @Packing.done_placed count limit t part
  have hadded := @Packing.done_added count limit t part
  rw [happended, hplaced, hbefore, List.append_assoc, List.append_assoc, List.append_cancel_left_eq] at hadded
  rw [Packing.Wastes, Packing.Bare, Packing.Bare, hplaced, hbefore, hadded]
  by_cases hover : limit < count t.map + count part <;>
    by_cases hfull : (t.placed count limit part).isFull count limit = true <;>
    cases before <;> simp [hover, hfull, or_and_right, exists_or]

/-- Among the maps put aside since the first packing, all but the first of which were begun since then, a bare
one is found exactly if adding some part has put it aside. -/
theorem Packing.exists_bare_iff (s : Packing) (parts : List String) {appended : List (Int × String)}
    (happended : (s.after count limit parts).done = s.done ++ appended) :
    (∃ entry ∈ appended.tail, entry.2 = continuation entry.1) ↔
      ∃ front part back, parts = front ++ part :: back ∧
        s.Wastes count limit (s.after count limit front) part := by
  induction parts using List.reverseRecOn generalizing appended with
  | nil =>
    have hnil : appended = [] := by simpa [Packing.after] using happended
    simp [hnil]
  | append_singleton parts part ih =>
    obtain ⟨before, hext⟩ := (s.writes_after count limit parts).extends
    rw [Packing.after_concat] at happended
    rw [exists_place_concat, ← ih hext.done_eq]
    exact s.exists_bare_added_iff _ part hext.done_eq happended

theorem Packing.Writes.not_bare_write (h : s.Writes t text) (hpart : part ≠ "") : ¬ s.Bare (t.write part) :=
  fun hbare => h.append_ne_head hbare.1 hpart hbare.2

/-- After parts none of which is empty a map is bare exactly if the last of them has filled the map before. -/
theorem Packing.bare_after_iff (s : Packing) (hparts : ∀ part ∈ parts, part ≠ "") :
    s.Bare (s.after count limit parts) ↔ ∃ front part, parts = front ++ [part] ∧
      ((s.after count limit front).placed count limit part).isFull count limit = true := by
  obtain rfl | ⟨front, part, rfl⟩ := List.eq_nil_or_concat parts
  · simp [Packing.after, Packing.Bare]
  · rw [List.concat_eq_append] at hparts ⊢
    have hroom := @Packing.Writes.room count limit s _ _ (s.writes_after count limit front) part
    have hiff : s.Bare (s.after count limit (front ++ [part])) ↔
        ((s.after count limit front).placed count limit part).isFull count limit = true := by
      rw [Packing.after_concat, Packing.added]
      split
      case isTrue hfull =>
        obtain ⟨appended, hext⟩ := (hroom.write part).extends
        refine iff_of_true ⟨?_, rfl⟩ hfull
        rw [Packing.next, Packing.placed, hext.done_eq]
        simp
      case isFalse hfull => exact iff_of_false (hroom.not_bare_write (hparts part (by simp))) hfull
    rw [hiff]
    constructor
    · exact fun hfull => ⟨front, part, rfl, hfull⟩
    · rintro ⟨front', part', heq, hfull⟩
      obtain ⟨rfl, rfl⟩ : front = front' ∧ part = part' := by simpa using List.append_inj' heq rfl
      exact hfull

/-- If no part is empty, adding one wastes a map exactly if there is no room for it behind a bare head. -/
theorem Packing.wastes_after_iff (s : Packing) (hpart : part ≠ "") :
    s.Wastes count limit (s.after count limit parts) part ↔
      s.Bare (s.after count limit parts) ∧ limit < count (s.after count limit parts).map + count part := by
  refine or_iff_left fun hfull => ?_
  exact ((s.writes_after count limit parts).room part).not_bare_write hpart hfull.1

theorem Packing.map_after_concat
    (hfull : ((s.after count limit parts).placed count limit part).isFull count limit = true) :
    (s.after count limit (parts ++ [part])).map =
      continuation (((s.after count limit parts).placed count limit part).number + 1) := by
  rw [Packing.after_concat, Packing.added, if_pos hfull]
  rfl

/-- If no part is empty, a map is wasted exactly between two parts of which the first fills a map and the
second has no room behind the head of the next one. -/
theorem Packing.exists_wastes_iff (s : Packing) (hparts : ∀ part ∈ parts, part ≠ "") :
    (∃ front part back, parts = front ++ part :: back ∧ s.Wastes count limit (s.after count limit front) part) ↔
      ∃ front part next back, parts = front ++ part :: next :: back ∧
        ((s.after count limit front).placed count limit part).isFull count limit = true ∧
        limit < count (continuation (((s.after count limit front).placed count limit part).number + 1)) +
          count next := by
  constructor
  · rintro ⟨front, next, back, rfl, hwastes⟩
    obtain ⟨hbare, hroom⟩ := (s.wastes_after_iff (hparts next (by simp))).1 hwastes
    have hfront : ∀ part ∈ front, part ≠ "" := fun part hpart => hparts part (List.mem_append_left _ hpart)
    obtain ⟨front, part, rfl, hfull⟩ := (s.bare_after_iff hfront).1 hbare
    rw [Packing.map_after_concat hfull] at hroom
    exact ⟨front, part, next, back, by simp, hfull, hroom⟩
  · rintro ⟨front, part, next, back, rfl, hfull, hroom⟩
    refine ⟨front ++ [part], next, back, by simp, ?_⟩
    have hfront : ∀ x ∈ front ++ [part], x ≠ "" := by
      intro x hx
      rw [List.append_cons] at hparts
      exact hparts x (List.mem_append_left _ hx)
    rw [s.wastes_after_iff (hparts next (by simp)), s.bare_after_iff hfront, Packing.map_after_concat hfull]
    exact ⟨⟨front, part, rfl, hfull⟩, hroom⟩

/-- The first map put aside begins with the text that was there. -/
theorem Packing.Writes.first_startsWith (h : s.Writes t text) {appended : List (Int × String)}
    (happended : t.done = s.done ++ appended) :
    ∀ entry ∈ (t.entries appended).head?, Text.startsWith entry.2 s.map = true := by
  induction h generalizing appended with
  | start =>
    have hnil : appended = [] := by simpa using happended
    simp [hnil, Packing.entries, Text.startsWith_self]
  | write h part ih =>
    have hfirst := ih happended
    cases appended with
    | nil =>
      intro entry hentry
      obtain rfl : _ = entry := by simpa [Packing.entries] using hentry
      exact Text.startsWith_append (hfirst _ rfl) part
    | cons first appended => simpa [Packing.entries] using hfirst
  | @next t text h ih =>
    obtain ⟨before, hext⟩ := h.extends
    have hbefore := hext.next.done_eq
    rw [happended, List.append_cancel_left_eq] at hbefore
    intro entry hentry
    refine ih hext.done_eq entry ?_
    rw [hbefore] at hentry
    cases before <;> simpa [Packing.entries] using hentry

/-- Maps that were put aside, of which all but the first, which is the one that was there, hold more than
their heads. -/
def Filled (appended : List (Int × String)) : Prop :=
  ∀ entry ∈ appended.tail, entry.2 ≠ continuation entry.1

instance (appended : List (Int × String)) : Decidable (Filled appended) :=
  inferInstanceAs (Decidable (∀ entry ∈ _, _))

theorem filled_iff {appended : List (Int × String)} :
    Filled appended ↔ ¬ ∃ entry ∈ appended.tail, entry.2 = continuation entry.1 := by
  simp only [Filled, not_exists, not_and, ne_eq]

/-- **Bare maps.**  A section whose numbers can be written is packed such that the first map put aside begins with the
text that was there, and every further one holds more than its head exactly if adding no part wastes a map.  If no
part is empty, that is: behind every part that fills its map, the next part has room behind the head of the next map.
-/
theorem pack_filled_iff (p : Policy) (count : Counter) (limit : Int) (file : Option String) (content : String)
    (s : Packing) :
    let parts := split p count (mapLimit limit) (sectionExtension file) content
    parts = [] ∨ limit < Number.wholeBound → s.Numbered (s.after count (mapLimit limit) parts) → ∃ r appended,
      pack p count limit file content false s = .ok r ∧ r.done = s.done ++ appended ∧
      (∀ entry ∈ appended.head?, Text.startsWith entry.2 s.map = true) ∧
      (Filled appended ↔ ∀ front part back, parts = front ++ part :: back →
        ¬ s.Wastes count (mapLimit limit) (s.after count (mapLimit limit) front) part) ∧
      ((∀ part ∈ parts, part ≠ "") →
        (Filled appended ↔ ∀ front part next back, parts = front ++ part :: next :: back →
          let t := (s.after count (mapLimit limit) front).placed count (mapLimit limit) part
          t.isFull count (mapLimit limit) = true →
            count (continuation (t.number + 1)) + count next ≤ mapLimit limit)) := by
  intro parts hlimit hnumbered
  have hwrites := s.writes_after count (mapLimit limit) parts
  obtain ⟨appended, hext⟩ := hwrites.extends
  have hbare := s.exists_bare_iff parts hext.done_eq
  refine ⟨_, appended, (reaches_pack p count limit file content s hlimit).1 hnumbered, hext.done_eq, ?_, ?_, ?_⟩
  · intro entry hentry
    exact hwrites.first_startsWith hext.done_eq entry (List.mem_head?_append_of_mem_head? hentry)
  · rw [filled_iff, hbare]
    simp only [not_exists, not_and]
  · intro hparts
    rw [filled_iff, hbare, s.exists_wastes_iff hparts]
    simp only [not_exists, not_and, not_lt]

/-- A part fills the map that was there, and the next one has room behind the head of the second map. -/
theorem pack_filled_two_maps :
    split .plain (fun s => s.length * 64) 4096 ".txt" (rule 60 ++ "\n" ++ rule 20) = [rule 60, rule 20] ∧
      ∃ r appended, pack .plain (fun s => s.length * 64) 4096 none (rule 60 ++ "\n" ++ rule 20) false
          ⟨[], "m", 1⟩ = .ok r ∧ r.done = [] ++ appended ∧ Filled appended := by
  have hparts : split .plain (fun s => s.length * 64) (mapLimit 4096) (sectionExtension none)
      (rule 60 ++ "\n" ++ rule 20) = [rule 60, rule 20] := by decide +kernel
  obtain ⟨r, appended, hpack, hdone, -, -, hfilled⟩ := pack_filled_iff .plain (fun s => s.length * 64) 4096
    none (rule 60 ++ "\n" ++ rule 20) ⟨[], "m", 1⟩ (Or.inr (by decide +kernel))
    (Packing.numbered_after _ _ _ _ (by decide +kernel) (by rw [hparts]; decide +kernel))
  rw [hparts] at hfilled
  refine ⟨hparts, r, appended, hpack, hdone, (hfilled (by decide +kernel)).2 ?_⟩
  intro front part next back heq t _
  cases front with
  | nil =>
    obtain ⟨rfl, rfl, -⟩ : rule 60 = part ∧ rule 20 = next ∧ back = [] := by simpa using heq
    decide +kernel
  | cons x front =>
    have hlength := congrArg List.length heq
    simp at hlength
    omega

/-- A part that fills the map that was there, and one that has no room behind the head of the second map. -/
theorem exists_pack_not_filled {p : Policy}
    (h : split p (fun s => s.length * 64) (mapLimit 4096) (sectionExtension none)
      (rule 60 ++ "\n" ++ rule 30) = [rule 60, rule 30]) :
    ∃ r, pack p (fun s => s.length * 64) 4096 none (rule 60 ++ "\n" ++ rule 30) false
        ⟨[], "m", 1⟩ = .ok r ∧ ¬ Filled r.done := by
  refine ⟨_, (reaches_pack p _ 4096 _ _ _ (Or.inr (by decide +kernel))).1
    (Packing.numbered_after _ _ _ _ (by decide +kernel) (by rw [h]; decide +kernel)), ?_⟩
  rw [h]
  decide +kernel

/-- The second map is put aside with nothing but its head, whichever way the section is cut. -/
theorem pack_wastes_map :
    (∃ r, pack .guided (fun s => s.length * 64) 4096 none (rule 60 ++ "\n" ++ rule 30) false
        ⟨[], "m", 1⟩ = .ok r ∧ ¬ Filled r.done) ∧
      ∃ r, pack .plain (fun s => s.length * 64) 4096 none (rule 60 ++ "\n" ++ rule 30) false
        ⟨[], "m", 1⟩ = .ok r ∧ ¬ Filled r.done := by
  have hplain : split .plain (fun s => s.length * 64) (mapLimit 4096) (sectionExtension none)
      (rule 60 ++ "\n" ++ rule 30) = [rule 60, rule 30] := by decide +kernel
  have hagree : Policy.guided.Agree .plain (sectionExtension none) := guided_agree_plain (by decide +kernel)
  have hlimit : leastLimit ≤ mapLimit 4096 := Int.le_max_left _ _
  have hguided := hagree.split_eq (limit_guided_eq_plain hlimit) (fun s => s.length * 64)
    (rule 60 ++ "\n" ++ rule 30)
  exact ⟨exists_pack_not_filled (hguided.trans hplain), exists_pack_not_filled hplain⟩

end CodeAtlas.Section

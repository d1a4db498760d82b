import CodeAtlas.Section.Split
import Mathlib.Data.List.Infix
import Mathlib.Data.List.Perm.Subperm

/-!
# Cutting parts again, in place and out of place

The closing pass visits the parts by the numbers they had at first, and writes what a part is cut into at
its number in the list as it then is.  That is the part's own place as long as the list still has its
first length.  Where every part is cut again in its own place, the result is the list of parts with some
of them cut up.  Where one is not, some part stays in the list beside its own first piece.

## Main definitions

* `Visit`, `visits` — the visits of parts that are too large
* `InPlace` — every part that is cut again is replaced by its pieces
* `Refines` — a list of parts in which some are cut up

## Main results

* `count_resplitFrom` — what is in the list afterwards, and what was replaced in it
* `resplit_refines` — what cutting in place makes of the parts
* `exists_doubled_of_not_inPlace` — what cutting out of place leaves in the list
* `inPlace_of_kept` — where no line is repeated and none is lost, every part was cut in place
-/

namespace CodeAtlas.Section

/-- A visit of a part that is too large: the part, its number, and the entries of the list at that time. -/
structure Visit where
  part : String
  number : Nat
  entries : List String

/-- Whether the part that is visited is cut again: the list has entries behind its number. -/
def Visit.CutsAgain (v : Visit) : Prop := v.number + 1 < v.entries.length

instance (v : Visit) : Decidable v.CutsAgain := inferInstanceAs (Decidable (_ < _))

/-- The entry that the pieces of the part replace. -/
def Visit.replaced (v : Visit) : List String := (v.entries.drop v.number).take 1

/-- The parts that are cut again. -/
def cutParts (vs : List Visit) : List String := (vs.filter fun v => v.CutsAgain).map Visit.part

/-- The entries that the pieces of these parts replace. -/
def replacedEntries (vs : List Visit) : List String := (vs.filter fun v => v.CutsAgain).flatMap Visit.replaced

/-- The parts that are too large and left as they are. -/
def leftParts (vs : List Visit) : List String := (vs.filter fun v => ¬ v.CutsAgain).map Visit.part

section Closing

variable (count : Counter) (limit : Int) (again : String → List String)

/-- The closing pass from part number `i` on, on the list as it is then. -/
def resplitFrom (now : List String) (i : Nat) (rest : List String) : List String :=
  (rest.zipIdx i).foldl (fun now (part, i) => recut count limit again now part i) now

/-- The visits of parts that are too large, from part number `i` on. -/
def visitsFrom : (now : List String) → (i : Nat) → (rest : List String) → List Visit
  | _, _, [] => []
  | now, i, part :: rest =>
    (if tooLarge count limit part then [⟨part, i, now⟩] else []) ++
      visitsFrom (recut count limit again now part i) (i + 1) rest

/-- The visits of parts that are too large. -/
def visits (parts : List String) : List Visit := visitsFrom count limit again parts 0 parts

/-- Every part is cut again while the list has its first length, so that it is the part itself which its
pieces replace. -/
def InPlace (parts : List String) : Prop :=
  ∀ v ∈ visits count limit again parts, v.CutsAgain → v.entries.length = parts.length

end Closing

variable {count : Counter} {limit : Int} {again : String → List String}
variable {now rest parts before : List String} {part : String} {i : Nat}

theorem resplitFrom_nil : resplitFrom count limit again now i [] = now := rfl

theorem resplitFrom_cons :
    resplitFrom count limit again now i (part :: rest) =
      resplitFrom count limit again (recut count limit again now part i) (i + 1) rest := by
  rw [resplitFrom, List.zipIdx_cons, List.foldl_cons]
  rfl

/-- A visit replaces the entry at the part's number, or leaves the list as it is. -/
theorem recut_cases (count : Counter) (limit : Int) (again : String → List String) (now : List String)
    (part : String) (i : Nat) :
    (tooLarge count limit part = true ∧ i + 1 < now.length ∧
      recut count limit again now part i = now.take i ++ again part ++ now.drop (i + 1)) ∨
    ((tooLarge count limit part = true → now.length ≤ i + 1) ∧
      recut count limit again now part i = now) := by
  by_cases h : tooLarge count limit part = true ∧ i + 1 < now.length
  · refine Or.inl ⟨h.1, h.2, ?_⟩
    rw [recut, if_pos (by simpa using h)]
  · refine Or.inr ⟨fun hlarge => ?_, ?_⟩
    · exact Nat.le_of_not_lt fun hlt => h ⟨hlarge, hlt⟩
    · rw [recut, if_neg (by simpa using h)]

/-- A part that stands at its number is replaced by its pieces. -/
theorem recut_own (h : recut count limit again (before ++ part :: rest) part i =
      (before ++ part :: rest).take i ++ again part ++ (before ++ part :: rest).drop (i + 1))
    (hi : i = before.length) :
    recut count limit again (before ++ part :: rest) part i = (before ++ again part) ++ rest := by
  rw [h, hi, List.take_left, List.drop_append]
  simp

/-- The pieces of a part that stands behind its number replace an entry in front of it. -/
theorem recut_grown (h : recut count limit again (before ++ part :: rest) part i =
      (before ++ part :: rest).take i ++ again part ++ (before ++ part :: rest).drop (i + 1))
    (hi : i < before.length) :
    recut count limit again (before ++ part :: rest) part i =
      before.take i ++ again part ++ (before.drop (i + 1) ++ part :: rest) := by
  rw [h, List.take_append_of_le_length (Nat.le_of_lt hi), List.drop_append_of_le_length hi]

theorem mem_visitsFrom_cons {v : Visit} :
    v ∈ visitsFrom count limit again now i (part :: rest) ↔
      (tooLarge count limit part = true ∧ v = ⟨part, i, now⟩) ∨
        v ∈ visitsFrom count limit again (recut count limit again now part i) (i + 1) rest := by
  rw [visitsFrom, List.mem_append]
  by_cases h : tooLarge count limit part = true
  · simp [h]
  · simp [h]

theorem mem_cutParts {vs : List Visit} :
    part ∈ cutParts vs ↔ ∃ v ∈ vs, v.CutsAgain ∧ v.part = part := by
  simp [cutParts, and_assoc]

/-- A visit with entries behind the part's number adds to the parts that are cut again. -/
theorem parts_of_cut (hlarge : tooLarge count limit part = true) (hlt : i + 1 < now.length) :
    cutParts (visitsFrom count limit again now i (part :: rest)) =
        part :: cutParts (visitsFrom count limit again (recut count limit again now part i) (i + 1) rest) ∧
      replacedEntries (visitsFrom count limit again now i (part :: rest)) =
        (now.drop i).take 1 ++
          replacedEntries (visitsFrom count limit again (recut count limit again now part i) (i + 1) rest) ∧
      leftParts (visitsFrom count limit again now i (part :: rest)) =
        leftParts (visitsFrom count limit again (recut count limit again now part i) (i + 1) rest) := by
  have hcut : (⟨part, i, now⟩ : Visit).CutsAgain := hlt
  simp [visitsFrom, hlarge, cutParts, replacedEntries, Visit.replaced, leftParts, hcut]

/-- A visit without entries behind the part's number adds to the parts that are left. -/
theorem parts_of_keep (hlast : tooLarge count limit part = true → now.length ≤ i + 1) :
    cutParts (visitsFrom count limit again now i (part :: rest)) =
        cutParts (visitsFrom count limit again (recut count limit again now part i) (i + 1) rest) ∧
      replacedEntries (visitsFrom count limit again now i (part :: rest)) =
        replacedEntries (visitsFrom count limit again (recut count limit again now part i) (i + 1) rest) ∧
      leftParts (visitsFrom count limit again now i (part :: rest)) =
        [part].filter (tooLarge count limit) ++
          leftParts (visitsFrom count limit again (recut count limit again now part i) (i + 1) rest) := by
  by_cases hlarge : tooLarge count limit part = true
  · have hcut : ¬ (⟨part, i, now⟩ : Visit).CutsAgain := Nat.not_lt.2 (hlast hlarge)
    simp [visitsFrom, hlarge, cutParts, replacedEntries, leftParts, hcut]
  · simp [visitsFrom, hlarge, cutParts, replacedEntries, leftParts]

/-- Parts that are visited are too large, and are parts. -/
theorem visit_spec {v : Visit} (h : v ∈ visitsFrom count limit again now i rest) :
    v.part ∈ rest ∧ tooLarge count limit v.part = true := by
  induction rest generalizing now i with
  | nil => exact absurd h (by simp [visitsFrom])
  | cons part rest ih =>
    rcases mem_visitsFrom_cons.1 h with ⟨hlarge, rfl⟩ | h
    · exact ⟨List.mem_cons_self, hlarge⟩
    · exact ⟨List.mem_cons_of_mem part (ih h).1, (ih h).2⟩

/-- Parts that are cut again are parts, and are too large. -/
theorem cutParts_spec (h : part ∈ cutParts (visits count limit again parts)) :
    part ∈ parts ∧ tooLarge count limit part = true := by
  obtain ⟨v, hv, _, rfl⟩ := mem_cutParts.1 h
  exact visit_spec hv

/-- A part is cut again only where there are others. -/
theorem two_le_length_of_mem_cutParts (h : part ∈ cutParts (visits count limit again parts)) :
    2 ≤ parts.length := by
  match parts with
  | [] => exact absurd h (by simp [visits, visitsFrom, cutParts])
  | [single] =>
    rw [visits, (parts_of_keep fun _ => Nat.le_refl 1).1] at h
    exact absurd h (by simp [visitsFrom, cutParts])
  | _ :: _ :: _ => exact Nat.le_add_left 2 _

/-- The closing pass asks for the pieces of parts only, and of a single part not even for that. -/
theorem resplit_congr {again' : String → List String}
    (h : 2 ≤ parts.length → ∀ part ∈ parts, again part = again' part) :
    resplit count limit again parts = resplit count limit again' parts := by
  have hrun : ∀ (rest now : List String) (i : Nat), (∀ part ∈ rest, again part = again' part) →
      resplitFrom count limit again now i rest = resplitFrom count limit again' now i rest := by
    intro rest
    induction rest with
    | nil => exact fun _ _ _ => rfl
    | cons part rest ih =>
      intro now i hrest
      have hrecut : recut count limit again now part i = recut count limit again' now part i := by
        rw [recut, recut, hrest part List.mem_cons_self]
      rw [resplitFrom_cons, resplitFrom_cons, hrecut]
      exact ih _ _ fun p hp => hrest p (List.mem_cons_of_mem part hp)
  match parts with
  | [] => rfl
  | [single] => simp [resplit, recut]
  | _ :: _ :: _ => exact hrun _ _ 0 (h (Nat.le_add_left 2 _))

/-- Entries in front of the number reached are settled. -/
theorem resplitFrom_take : (resplitFrom count limit again now i rest).take i = now.take i := by
  induction rest generalizing now i with
  | nil => rfl
  | cons part rest ih =>
    have hnext : (resplitFrom count limit again now i (part :: rest)).take i =
        (recut count limit again now part i).take i := by
      rw [resplitFrom_cons]
      have := congrArg (List.take i) (@ih (recut count limit again now part i) (i + 1))
      rwa [List.take_take, List.take_take, Nat.min_eq_left (Nat.le_succ i)] at this
    rw [hnext]
    rcases recut_cases count limit again now part i with ⟨_, hlt, h⟩ | ⟨_, h⟩
    · rw [h, List.append_assoc, List.take_append_of_le_length (by rw [List.length_take]; omega),
        List.take_take, Nat.min_self]
    · rw [h]

/-- What the list holds in the end are entries it had, and pieces of parts that are cut again. -/
theorem mem_resplitFrom {entry : String} (h : entry ∈ resplitFrom count limit again now i rest) :
    entry ∈ now ∨ ∃ part ∈ cutParts (visitsFrom count limit again now i rest), entry ∈ again part := by
  induction rest generalizing now i with
  | nil => exact Or.inl h
  | cons part rest ih =>
    rw [resplitFrom_cons] at h
    rcases recut_cases count limit again now part i with ⟨hlarge, hlt, hrecut⟩ | ⟨hlast, hrecut⟩
    · rw [(parts_of_cut hlarge hlt).1]
      rcases ih h with h | ⟨p, hp, he⟩
      · rw [hrecut, List.append_assoc] at h
        rcases List.mem_append.1 h with h | h
        · exact Or.inl (List.mem_of_mem_take h)
        · rcases List.mem_append.1 h with h | h
          · exact Or.inr ⟨part, List.mem_cons_self, h⟩
          · exact Or.inl (List.mem_of_mem_drop h)
      · exact Or.inr ⟨p, List.mem_cons_of_mem part hp, he⟩
    · rw [(parts_of_keep hlast).1]
      rcases ih h with h | h
      · exact Or.inl (hrecut ▸ h)
      · exact Or.inr h

/-- What of a line is in the list in the end and in the entries that were replaced, is what was in the list
and came with the pieces. -/
theorem count_resplitFrom (line : String) :
    ((resplitFrom count limit again now i rest).flatMap Text.lines).count line +
        ((replacedEntries (visitsFrom count limit again now i rest)).flatMap Text.lines).count line =
      (now.flatMap Text.lines).count line +
        (((cutParts (visitsFrom count limit again now i rest)).flatMap again).flatMap Text.lines).count line := by
  induction rest generalizing now i with
  | nil => rfl
  | cons part rest ih =>
    rw [resplitFrom_cons]
    rcases recut_cases count limit again now part i with ⟨hlarge, hlt, hrecut⟩ | ⟨hlast, hrecut⟩
    · obtain ⟨hcuts, hreplaced, _⟩ := @parts_of_cut count limit again now rest part i hlarge hlt
      have hnow : now = now.take i ++ ((now.drop i).take 1 ++ now.drop (i + 1)) := by
        rw [← List.drop_drop, List.take_append_drop, List.take_append_drop]
      have hlater := @ih (recut count limit again now part i) (i + 1)
      have hbefore : (now.flatMap Text.lines).count line =
          ((now.take i).flatMap Text.lines).count line + (((now.drop i).take 1).flatMap Text.lines).count line +
            ((now.drop (i + 1)).flatMap Text.lines).count line := by
        rw [← List.count_append, ← List.flatMap_append, ← List.count_append, ← List.flatMap_append,
          List.append_assoc, ← hnow]
      have hafter : ((recut count limit again now part i).flatMap Text.lines).count line =
          ((now.take i).flatMap Text.lines).count line + ((again part).flatMap Text.lines).count line +
            ((now.drop (i + 1)).flatMap Text.lines).count line := by
        rw [hrecut, List.flatMap_append, List.flatMap_append, List.count_append, List.count_append]
      rw [hcuts, hreplaced, List.flatMap_cons, List.flatMap_append, List.flatMap_append, List.count_append,
        List.count_append]
      omega
    · obtain ⟨hcuts, hreplaced, _⟩ := @parts_of_keep count limit again now rest part i hlast
      rw [hcuts, hreplaced, hrecut]
      have hlater := @ih (recut count limit again now part i) (i + 1)
      rwa [hrecut] at hlater

/-- The list never becomes empty, for no part is cut again at its end. -/
theorem resplitFrom_ne_nil (h : now ≠ []) : resplitFrom count limit again now i rest ≠ [] := by
  induction rest generalizing now i with
  | nil => exact h
  | cons part rest ih =>
    rw [resplitFrom_cons]
    refine ih ?_
    rcases recut_cases count limit again now part i with ⟨_, hlt, hrecut⟩ | ⟨_, hrecut⟩
    · rw [hrecut]
      intro hnil
      have := congrArg List.length hnil
      simp only [List.length_append, List.length_drop, List.length_nil] at this
      omega
    · rw [hrecut]
      exact h

/-- The last list is `rest` with the parts `cuts` cut up and the parts `keeps` as they are. -/
inductive Refines (again : String → List String) :
    (cuts keeps rest out : List String) → Prop
  | nil : Refines again [] [] [] []
  | keep {part : String} {cuts keeps rest out : List String} :
      Refines again cuts keeps rest out → Refines again cuts (part :: keeps) (part :: rest) (part :: out)
  | cut {part : String} {cuts keeps rest out : List String} :
      Refines again cuts keeps rest out →
        Refines again (part :: cuts) keeps (part :: rest) (again part ++ out)

namespace Refines

variable {cuts keeps out : List String}

/-- The list holds what is kept and what the other parts are cut into. -/
theorem mem_out {entry : String} (h : Refines again cuts keeps rest out) (hentry : entry ∈ out) :
    entry ∈ keeps ∨ ∃ part ∈ cuts, entry ∈ again part := by
  induction h with
  | nil => exact absurd hentry (by simp)
  | keep _ ih =>
    rcases List.mem_cons.1 hentry with rfl | hentry
    · exact Or.inl List.mem_cons_self
    · exact (ih hentry).imp (List.mem_cons_of_mem _) id
  | @cut part _ _ _ _ _ ih =>
    rcases List.mem_append.1 hentry with hentry | hentry
    · exact Or.inr ⟨part, List.mem_cons_self, hentry⟩
    · exact (ih hentry).imp id fun ⟨p, hp, he⟩ => ⟨p, List.mem_cons_of_mem _ hp, he⟩

theorem keeps_subset (h : Refines again cuts keeps rest out) : keeps ⊆ out := by
  induction h with
  | nil => exact fun _ hp => hp
  | keep _ ih => exact List.cons_subset_cons _ ih
  | cut _ ih => exact fun _ hp => List.mem_append_right _ (ih hp)

/-- A part that is cut up is a part, and its pieces are in the list. -/
theorem pieces_sublist (h : Refines again cuts keeps rest out) (hpart : part ∈ cuts) :
    part ∈ rest ∧ (again part).Sublist out := by
  induction h with
  | nil => exact absurd hpart (by simp)
  | keep _ ih =>
    exact ⟨List.mem_cons_of_mem _ (ih hpart).1, (ih hpart).2.cons _⟩
  | cut _ ih =>
    rcases List.mem_cons.1 hpart with rfl | hpart
    · exact ⟨List.mem_cons_self, List.sublist_append_left _ _⟩
    · exact ⟨List.mem_cons_of_mem _ (ih hpart).1, (ih hpart).2.trans (List.sublist_append_right _ _)⟩

/-- Where the pieces keep the order of lines, so does the list. -/
theorem lines_sublist (h : Refines again cuts keeps rest out)
    (hcuts : ∀ part ∈ cuts, ((again part).flatMap Text.lines).Sublist (Text.lines part)) :
    (out.flatMap Text.lines).Sublist (rest.flatMap Text.lines) := by
  induction h with
  | nil => exact List.Sublist.refl _
  | keep _ ih =>
    rw [List.flatMap_cons, List.flatMap_cons]
    exact (List.Sublist.refl _).append (ih hcuts)
  | @cut part _ _ _ _ _ ih =>
    rw [List.flatMap_append, List.flatMap_cons]
    exact (hcuts part List.mem_cons_self).append (ih fun p hp => hcuts p (List.mem_cons_of_mem _ hp))

end Refines

/-- Cutting in place, from part number `i` on.  The list is `before` and the parts still to come; `before`
ends at their number whenever the list has the length `n` at which parts are cut again. -/
theorem resplitFrom_refines {n : Nat} (haligned : (before ++ rest).length = n → before.length = i)
    (h : ∀ v ∈ visitsFrom count limit again (before ++ rest) i rest, v.CutsAgain → v.entries.length = n) :
    ∃ keeps out, resplitFrom count limit again (before ++ rest) i rest = before ++ out ∧
      Refines again (cutParts (visitsFrom count limit again (before ++ rest) i rest)) keeps rest out ∧
      replacedEntries (visitsFrom count limit again (before ++ rest) i rest) =
        cutParts (visitsFrom count limit again (before ++ rest) i rest) ∧
      keeps.filter (tooLarge count limit) =
        leftParts (visitsFrom count limit again (before ++ rest) i rest) := by
  induction rest generalizing before i with
  | nil => exact ⟨[], [], resplitFrom_nil, .nil, rfl, rfl⟩
  | cons part rest ih =>
    rw [resplitFrom_cons]
    rcases recut_cases count limit again (before ++ part :: rest) part i with
      ⟨hlarge, hlt, hrecut⟩ | ⟨hlast, hrecut⟩
    · -- the part is cut again, and stands at its own number
      have hlen : (before ++ part :: rest).length = n :=
        h _ (mem_visitsFrom_cons.2 (Or.inl ⟨hlarge, rfl⟩)) hlt
      have hi : before.length = i := haligned hlen
      have hplace := recut_own hrecut hi.symm
      have hlater := fun v hv => h v (mem_visitsFrom_cons.2 (Or.inr hv))
      rw [hplace] at hlater
      obtain ⟨keeps, out, hout, href, hown, hleft⟩ := @ih (before ++ again part) (i + 1)
        (by
          intro hn
          simp only [List.length_append, List.length_cons] at hn hlen ⊢
          omega)
        hlater
      obtain ⟨hcuts, hreplaced, hlefts⟩ := @parts_of_cut count limit again _ rest part i hlarge hlt
      refine ⟨keeps, again part ++ out, ?_, ?_, ?_, ?_⟩
      · rw [hplace, hout, List.append_assoc]
      · rw [hcuts, hplace]
        exact .cut href
      · rw [hreplaced, hcuts, hplace, hown, ← hi, List.drop_left]
        rfl
      · rw [hlefts, hplace]
        exact hleft
    · -- the part stays as it is
      have hassoc : before ++ part :: rest = (before ++ [part]) ++ rest := by simp
      have hlater := fun v hv => h v (mem_visitsFrom_cons.2 (Or.inr hv))
      rw [hrecut, hassoc] at hlater
      obtain ⟨keeps, out, hout, href, hown, hleft⟩ := @ih (before ++ [part]) (i + 1)
        (by
          intro hn
          rw [← hassoc] at hn
          rw [List.length_append, haligned hn, List.length_singleton])
        hlater
      obtain ⟨hcuts, hreplaced, hlefts⟩ := @parts_of_keep count limit again _ rest part i hlast
      refine ⟨part :: keeps, part :: out, ?_, ?_, ?_, ?_⟩
      · rw [hrecut, hassoc, hout, List.append_assoc]
        rfl
      · rw [hcuts, hrecut, hassoc]
        exact .keep href
      · rw [hreplaced, hcuts, hrecut, hassoc]
        exact hown
      · rw [hlefts, hrecut, hassoc, ← hleft, ← List.filter_append]
        rfl

/-- Cutting in place cuts up some of the parts and keeps the others. -/
theorem resplit_refines (h : InPlace count limit again parts) :
    ∃ keeps, Refines again (cutParts (visits count limit again parts)) keeps parts
        (resplit count limit again parts) ∧
      replacedEntries (visits count limit again parts) = cutParts (visits count limit again parts) ∧
      keeps.filter (tooLarge count limit) = leftParts (visits count limit again parts) := by
  obtain ⟨keeps, out, hout, href, hown, hleft⟩ :=
    @resplitFrom_refines count limit again parts [] 0 parts.length (fun _ => rfl) h
  have hresplit : resplit count limit again parts = out := hout
  rw [hresplit]
  exact ⟨keeps, href, hown, hleft⟩

/-- A part is in a list together with its first piece, if it has pieces. -/
def Doubled (again : String → List String) (part : String) (entries : List String) : Prop :=
  (part :: (again part).take 1).Subperm entries

/-- A part is in the list at number `i` or behind it, and its first piece in front of that number. -/
def Awaits (again : String → List String) (part : String) (before : List String) (i : Nat) : Prop :=
  part ∈ before.drop i ∧ ((again part).take 1).Sublist (before.take i)

/-- What is doubled in front of the number reached stays so. -/
theorem Doubled.settled (h : Doubled again part (now.take i)) :
    Doubled again part (resplitFrom count limit again now i rest) := by
  have hsettled : (now.take i).Sublist (resplitFrom count limit again now i rest) := by
    rw [← @resplitFrom_take count limit again now rest i]
    exact List.take_sublist i _
  exact h.trans hsettled.subperm

/-- A part that awaits is doubled in the list. -/
theorem Awaits.doubled (h : Awaits again part before i) : Doubled again part before := by
  have hsub : ((again part).take 1 ++ [part]).Sublist before := by
    rw [← List.take_append_drop i before]
    exact h.2.append (List.singleton_sublist.2 h.1)
  exact (List.perm_append_singleton part _).symm.subperm.trans hsub.subperm

/-- A part that awaits is settled at the next number or awaits behind it. -/
theorem Awaits.next (h : Awaits again part before i) (more : List String) :
    Doubled again part (before.take (i + 1)) ∨ Awaits again part (before ++ more) (i + 1) := by
  obtain ⟨hmem, hpiece⟩ := h
  have hlt : i < before.length := by
    by_contra hge
    rw [List.drop_eq_nil_of_le (Nat.not_lt.1 hge)] at hmem
    exact absurd hmem (by simp)
  rw [List.drop_eq_getElem_cons hlt] at hmem
  rcases List.mem_cons.1 hmem with rfl | hmem
  · left
    rw [List.take_succ_eq_append_getElem hlt]
    exact (List.perm_append_singleton _ _).symm.subperm.trans
      (hpiece.append (List.Sublist.refl [before[i]])).subperm
  · right
    refine ⟨?_, ?_⟩
    · rw [List.drop_append_of_le_length hlt]
      exact List.mem_append_left _ hmem
    · rw [List.take_append_of_le_length hlt]
      exact hpiece.trans (List.take_sublist_take_left (Nat.le_succ i))

/-- A part that is cut again while the list has grown is settled beside its first piece or awaits. -/
theorem awaits_of_recut (hlt : i < before.length)
    (hrecut : recut count limit again (before ++ part :: rest) part i =
      before.take i ++ again part ++ (before.drop (i + 1) ++ part :: rest)) :
    ∃ before', recut count limit again (before ++ part :: rest) part i = before' ++ rest ∧
      before'.length + 1 = before.length + 1 + (again part).length ∧
      (Doubled again part (before'.take (i + 1)) ∨ Awaits again part before' (i + 1)) := by
  have hfront : (before.take i).length = i := by
    rw [List.length_take]
    omega
  refine ⟨before.take i ++ (again part ++ before.drop (i + 1)) ++ [part], ?_, ?_, ?_⟩
  · rw [hrecut]
    simp
  · simp only [List.length_append, List.length_take, List.length_drop, List.length_singleton]
    omega
  · have hpiece : ((again part).take 1).Sublist
        ((before.take i ++ (again part ++ before.drop (i + 1)) ++ [part]).take (i + 1)) := by
      rw [List.append_assoc, List.take_append, hfront, Nat.add_sub_cancel_left, List.append_assoc]
      exact ((List.prefix_append _ _).take 1).sublist.trans (List.sublist_append_right _ _)
    by_cases hlast : again part = [] ∧ before.length = i + 1
    · left
      have hdrop : before.drop (i + 1) = [] := List.drop_eq_nil_of_le (Nat.le_of_eq hlast.2)
      have hall : (before.take i ++ [part]).length ≤ i + 1 := by
        rw [List.length_append, hfront, List.length_singleton]
      rw [Doubled, hlast.1, hdrop, List.append_nil, List.append_nil, List.take_of_length_le hall]
      exact (List.sublist_append_right (before.take i) [part]).subperm
    · right
      refine ⟨?_, hpiece⟩
      rw [List.drop_append_of_le_length]
      · exact List.mem_append_right _ (List.mem_singleton.2 rfl)
      · have : again part = [] ∨ 0 < (again part).length := by
          cases again part with
          | nil => exact Or.inl rfl
          | cons piece pieces => exact Or.inr (Nat.succ_pos _)
        simp only [List.length_append, List.length_take, List.length_drop]
        rcases this with h | h
        · have : before.length ≠ i + 1 := fun hb => hlast ⟨h, hb⟩
          omega
        · omega

/-- A part that is cut again while the list has shrunk stays in front of its own pieces. -/
theorem doubled_of_shrunk (hi : i = before.length + 1)
    (hrecut : recut count limit again (before ++ part :: rest) part i =
      (before ++ part :: rest).take i ++ again part ++ (before ++ part :: rest).drop (i + 1)) :
    Doubled again part ((recut count limit again (before ++ part :: rest) part i).take (i + 1)) := by
  have htake : (before ++ part :: rest).take i = before ++ [part] := by
    rw [hi, List.take_append, List.take_of_length_le (Nat.le_succ _), Nat.add_sub_cancel_left]
    simp
  have hlen : (before ++ [part]).length = i := by
    rw [hi, List.length_append]
    rfl
  rw [hrecut, htake, List.append_assoc, List.take_append, hlen, Nat.add_sub_cancel_left,
    List.take_of_length_le (by omega)]
  exact ((List.sublist_append_right before [part]).append
    ((List.prefix_append _ _).take 1).sublist).subperm

/-- Cutting out of place, from part number `i` on.  The list is `before` and the parts still to come, and
has `n` entries as long as `before` ends at their number. -/
theorem exists_doubled {n : Nat} (hshift : (before ++ rest).length + i = n + before.length)
    (h : (∃ part, tooLarge count limit part = true ∧ Awaits again part before i) ∨
      (i ≤ before.length + 1 ∧
        ∃ v ∈ visitsFrom count limit again (before ++ rest) i rest, v.CutsAgain ∧ v.entries.length ≠ n)) :
    ∃ part, tooLarge count limit part = true ∧
      Doubled again part (resplitFrom count limit again (before ++ rest) i rest) := by
  induction rest generalizing before i with
  | nil =>
    rcases h with ⟨part, hlarge, hpart⟩ | ⟨_, v, hv, _⟩
    · exact ⟨part, hlarge, by rw [List.append_nil]; exact hpart.doubled⟩
    · exact absurd hv (by simp [visitsFrom])
  | cons part rest ih =>
    rw [resplitFrom_cons]
    rcases recut_cases count limit again (before ++ part :: rest) part i with
      ⟨hlarge, hlt, hrecut⟩ | ⟨hlast, hrecut⟩
    · rcases Nat.lt_trichotomy i before.length with hi | hi | hi
      · -- the list has grown: an entry in front of the part is replaced
        obtain ⟨before', hnow, hlen, hpart⟩ := awaits_of_recut hi (recut_grown hrecut hi)
        rw [hnow]
        rcases hpart with hpart | hpart
        · refine ⟨part, hlarge, Doubled.settled ?_⟩
          have hle : i + 1 ≤ before'.length := by omega
          rwa [List.take_append_of_le_length hle]
        · refine ih ?_ (Or.inl ⟨part, hlarge, hpart⟩)
          simp only [List.length_append, List.length_cons] at hshift ⊢
          omega
      · -- the list has its first length: the part itself is replaced
        have hnow := recut_own hrecut hi
        rcases h with ⟨q, _, hq⟩ | ⟨_, v, hv, hcut, hsize⟩
        · exact absurd hq.1 (by rw [hi, List.drop_length]; simp)
        · rcases mem_visitsFrom_cons.1 hv with ⟨_, rfl⟩ | hv
          · exact absurd (by simpa only [hi, Nat.add_right_cancel_iff] using hshift) hsize
          · rw [hnow] at hv ⊢
            refine ih ?_ (Or.inr ⟨?_, v, hv, hcut, hsize⟩)
            · simp only [List.length_append, List.length_cons] at hshift ⊢
              omega
            · rw [List.length_append]
              omega
      · -- the list has shrunk: an entry behind the part is replaced
        have hi' : i = before.length + 1 := by
          rcases h with ⟨q, _, hq⟩ | ⟨hle, _⟩
          · exact absurd hq.1 (by rw [List.drop_eq_nil_of_le (Nat.le_of_lt hi)]; simp)
          · omega
        exact ⟨part, hlarge, (doubled_of_shrunk hi' hrecut).settled⟩
    · -- the list stays as it is
      have hassoc : before ++ part :: rest = (before ++ [part]) ++ rest := by simp
      have hshift' : ((before ++ [part]) ++ rest).length + (i + 1) = n + (before ++ [part]).length := by
        simp only [List.length_append, List.length_cons, List.length_nil] at hshift ⊢
        omega
      rw [hrecut]
      rcases h with ⟨q, hq, hawaits⟩ | ⟨hle, v, hv, hcut, hsize⟩
      · rcases hawaits.next [part] with hdone | hnext
        · refine ⟨q, hq, Doubled.settled (hdone.trans ?_)⟩
          exact ((List.prefix_append before (part :: rest)).take (i + 1)).sublist.subperm
        · rw [hassoc]
          exact ih hshift' (Or.inl ⟨q, hq, hnext⟩)
      · rcases mem_visitsFrom_cons.1 hv with ⟨hlarge, rfl⟩ | hv
        · exact absurd hcut (Nat.not_lt.2 (hlast hlarge))
        · rw [hrecut, hassoc] at hv
          rw [hassoc]
          refine ih hshift' (Or.inr ⟨?_, v, hv, hcut, hsize⟩)
          rw [List.length_append, List.length_singleton]
          omega

/-- Where a part is cut again out of place, some part that is too large stays in the list, beside its
first piece. -/
theorem exists_doubled_of_not_inPlace (h : ¬ InPlace count limit again parts) :
    ∃ part, tooLarge count limit part = true ∧ Doubled again part (resplit count limit again parts) := by
  simp only [InPlace, not_forall] at h
  obtain ⟨v, hv, hcut, hsize⟩ := h
  exact @exists_doubled count limit again parts [] 0 parts.length rfl
    (Or.inr ⟨Nat.zero_le 1, v, hv, hcut, hsize⟩)

/-! ### Cutting parts again without losing lines -/

/-- What the pieces of a part are known to be: each has lines, these are lines of the part, and if no line
is missing they are in the part's order. -/
structure PiecesOf (part : String) (pieces : List String) : Prop where
  filled : ∀ piece ∈ pieces, Text.lines piece ≠ []
  subset : pieces.flatMap Text.lines ⊆ Text.lines part
  ordered : Text.lines part ⊆ pieces.flatMap Text.lines →
    (pieces.flatMap Text.lines).Sublist (Text.lines part)

/-- The lines in the list in the end were in it, or are lines of parts that were still to come. -/
theorem line_mem_resplitFrom
    (hpieces : ∀ p ∈ cutParts (visitsFrom count limit again now i rest), PiecesOf p (again p))
    {line : String} (h : line ∈ (resplitFrom count limit again now i rest).flatMap Text.lines) :
    line ∈ now.flatMap Text.lines ∨ line ∈ rest.flatMap Text.lines := by
  obtain ⟨entry, hentry, hline⟩ := List.mem_flatMap.1 h
  rcases mem_resplitFrom hentry with hentry | ⟨part, hpart, hentry⟩
  · exact Or.inl (List.mem_flatMap.2 ⟨entry, hentry, hline⟩)
  · have hmem := (hpieces part hpart).subset (List.mem_flatMap.2 ⟨entry, hentry, hline⟩)
    obtain ⟨v, hv, _, rfl⟩ := mem_cutParts.1 hpart
    exact Or.inr (List.mem_flatMap.2 ⟨v.part, (visit_spec hv).1, hmem⟩)

/-- Where no line is repeated, the lines of an entry are in no other entry. -/
theorem not_mem_others {front back : List String} {entry line : String}
    (h : ((front ++ entry :: back).flatMap Text.lines).Nodup) (hline : line ∈ Text.lines entry) :
    line ∉ (front ++ back).flatMap Text.lines := by
  rw [List.flatMap_append, List.flatMap_cons, List.nodup_append, List.nodup_append] at h
  obtain ⟨_, ⟨_, _, hback⟩, hfront⟩ := h
  intro hmem
  rw [List.flatMap_append] at hmem
  rcases List.mem_append.1 hmem with hmem | hmem
  · exact hfront line hmem line (List.mem_append_left _ hline) rfl
  · exact hback line hline line hmem rfl

/-- A part that is cut again while the list has grown replaces an entry whose lines nothing brings back. -/
theorem not_kept_of_grown (hgrown : i < before.length) (hlarge : tooLarge count limit part = true)
    (hlt : i + 1 < (before ++ part :: rest).length)
    (hpieces : ∀ p ∈ cutParts (visitsFrom count limit again (before ++ part :: rest) i (part :: rest)),
      PiecesOf p (again p))
    (hnodup : ((before ++ part :: rest).flatMap Text.lines).Nodup) (hfilled : Text.lines before[i] ≠ []) :
    ¬ (before ++ part :: rest).flatMap Text.lines ⊆
      (resplitFrom count limit again (before ++ part :: rest) i (part :: rest)).flatMap Text.lines := by
  intro hkept
  have hbefore : before = before.take i ++ before[i] :: before.drop (i + 1) := by
    rw [← List.drop_eq_getElem_cons hgrown, List.take_append_drop]
  have hnow : before ++ part :: rest =
      before.take i ++ before[i] :: (before.drop (i + 1) ++ part :: rest) := by
    rw [← List.cons_append, ← List.append_assoc, ← hbefore]
  have hcut : recut count limit again (before ++ part :: rest) part i =
      (before ++ part :: rest).take i ++ again part ++ (before ++ part :: rest).drop (i + 1) := by
    rw [recut, if_pos (by simpa [hlarge] using hlt)]
  obtain ⟨line, hline⟩ := List.exists_mem_of_ne_nil _ hfilled
  have hother : line ∉ (before.take i ++ (before.drop (i + 1) ++ part :: rest)).flatMap Text.lines :=
    not_mem_others (hnow ▸ hnodup) hline
  have hmem : line ∈ (before ++ part :: rest).flatMap Text.lines :=
    List.mem_flatMap.2 ⟨before[i], by simp, hline⟩
  simp only [List.flatMap_append, List.flatMap_cons, List.mem_append, not_or] at hother
  obtain ⟨hfront, hmiddle, hpart, hrest⟩ := hother
  have hend := hkept hmem
  rw [resplitFrom_cons] at hend
  rw [(parts_of_cut hlarge hlt).1] at hpieces
  rcases line_mem_resplitFrom (fun p hp => hpieces p (List.mem_cons_of_mem part hp)) hend with hmem | hmem
  · rw [recut_grown hcut hgrown] at hmem
    simp only [List.flatMap_append, List.flatMap_cons, List.mem_append] at hmem
    rcases hmem with (hmem | hmem) | hmem | hmem | hmem
    · exact hfront hmem
    · exact hpart ((hpieces part List.mem_cons_self).subset hmem)
    · exact hmiddle hmem
    · exact hpart hmem
    · exact hrest hmem
  · exact hrest hmem

/-- A part that is cut again in its own place must hold its own lines, for no other entry has them. -/
theorem kept_of_inPlace
    (hpieces : ∀ p ∈ cutParts (visitsFrom count limit again ((before ++ again part) ++ rest) (i + 1) rest),
      PiecesOf p (again p))
    (hnodup : ((before ++ part :: rest).flatMap Text.lines).Nodup)
    (hkept : (before ++ part :: rest).flatMap Text.lines ⊆
      (resplitFrom count limit again ((before ++ again part) ++ rest) (i + 1) rest).flatMap Text.lines) :
    Text.lines part ⊆ (again part).flatMap Text.lines := by
  intro line hline
  have hother := not_mem_others hnodup hline
  simp only [List.flatMap_append, List.mem_append, not_or] at hother
  have hmem : line ∈ (before ++ part :: rest).flatMap Text.lines :=
    List.mem_flatMap.2 ⟨part, by simp, hline⟩
  rcases line_mem_resplitFrom hpieces (hkept hmem) with hmem | hmem
  · simp only [List.flatMap_append, List.mem_append] at hmem
    rcases hmem with (hmem | hmem) | hmem
    · exact absurd hmem hother.1
    · exact hmem
    · exact absurd hmem hother.2
  · exact absurd hmem hother.2

/-- If no line is repeated and none is lost, every part is cut again in place and without losing a line. -/
theorem visitsFrom_inPlace_of_kept {n : Nat} (hshift : (before ++ rest).length + i = n + before.length)
    (hi : i ≤ before.length)
    (hpieces : ∀ p ∈ cutParts (visitsFrom count limit again (before ++ rest) i rest), PiecesOf p (again p))
    (hnodup : ((before ++ rest).flatMap Text.lines).Nodup)
    (hfilled : ∀ entry ∈ before ++ rest, Text.lines entry ≠ [])
    (hkept : (before ++ rest).flatMap Text.lines ⊆
      (resplitFrom count limit again (before ++ rest) i rest).flatMap Text.lines) :
    ∀ v ∈ visitsFrom count limit again (before ++ rest) i rest, v.CutsAgain →
      v.entries.length = n ∧ Text.lines v.part ⊆ (again v.part).flatMap Text.lines := by
  induction rest generalizing before i with
  | nil => exact fun v hv => absurd hv (by simp [visitsFrom])
  | cons part rest ih =>
    intro v hv hcut
    rcases recut_cases count limit again (before ++ part :: rest) part i with
      ⟨hlarge, hlt, hrecut⟩ | ⟨hlast, hrecut⟩
    · rcases Nat.lt_or_eq_of_le hi with hgrown | hsame
      · exact absurd hkept (not_kept_of_grown hgrown hlarge hlt hpieces hnodup (hfilled _ (by simp)))
      · have hnow := recut_own hrecut hsame
        rw [(parts_of_cut hlarge hlt).1, hnow] at hpieces
        rw [resplitFrom_cons, hnow] at hkept
        have hpart := hpieces part List.mem_cons_self
        have hlater := fun p hp => hpieces p (List.mem_cons_of_mem part hp)
        have hwhole := kept_of_inPlace hlater hnodup hkept
        rcases mem_visitsFrom_cons.1 hv with ⟨_, rfl⟩ | hv
        · exact ⟨by simpa only [hsame, Nat.add_right_cancel_iff] using hshift, hwhole⟩
        · rw [hnow] at hv
          have hsub : (((before ++ again part) ++ rest).flatMap Text.lines).Sublist
              ((before ++ part :: rest).flatMap Text.lines) := by
            simp only [List.flatMap_append, List.flatMap_cons, List.append_assoc]
            exact (List.Sublist.refl _).append ((hpart.ordered hwhole).append (List.Sublist.refl _))
          have hsome : again part ≠ [] := by
            intro hnil
            rw [hnil, List.flatMap_nil] at hwhole
            exact hfilled part (by simp) (List.subset_nil.1 hwhole)
          refine ih ?_ ?_ hlater (hnodup.sublist hsub) ?_ (List.Subset.trans hsub.subset hkept) v hv hcut
          · simp only [List.length_append, List.length_cons] at hshift ⊢
            omega
          · have := List.length_pos_iff.2 hsome
            rw [List.length_append]
            omega
          · intro entry hentry
            simp only [List.mem_append] at hentry
            rcases hentry with (hentry | hentry) | hentry
            · exact hfilled entry (List.mem_append_left _ hentry)
            · exact hpart.filled entry hentry
            · exact hfilled entry (List.mem_append_right _ (List.mem_cons_of_mem part hentry))
    · -- the list stays as it is
      have hassoc : before ++ part :: rest = (before ++ [part]) ++ rest := by simp
      rw [resplitFrom_cons] at hkept
      rcases mem_visitsFrom_cons.1 hv with ⟨hlarge, rfl⟩ | hv
      · exact absurd hcut (Nat.not_lt.2 (hlast hlarge))
      · rw [(parts_of_keep hlast).1, hrecut, hassoc] at hpieces
        rw [hrecut, hassoc] at hv hkept
        rw [hassoc] at hnodup hfilled
        refine ih ?_ ?_ hpieces hnodup hfilled hkept v hv hcut
        · simp only [List.length_append, List.length_cons, List.length_nil] at hshift ⊢
          omega
        · rw [List.length_append, List.length_singleton]
          omega

/-- If no line is repeated and none is lost, every part is cut again in place and without losing a line. -/
theorem inPlace_of_kept
    (hpieces : ∀ p ∈ cutParts (visits count limit again parts), PiecesOf p (again p))
    (hnodup : (parts.flatMap Text.lines).Nodup) (hfilled : ∀ entry ∈ parts, Text.lines entry ≠ [])
    (hkept : parts.flatMap Text.lines ⊆ (resplit count limit again parts).flatMap Text.lines) :
    InPlace count limit again parts ∧ ∀ part ∈ cutParts (visits count limit again parts),
      Text.lines part ⊆ (again part).flatMap Text.lines := by
  have h := @visitsFrom_inPlace_of_kept count limit again parts [] 0 parts.length rfl (Nat.le_refl 0)
    hpieces hnodup hfilled hkept
  refine ⟨fun v hv hcut => (h v hv hcut).1, fun part hpart => ?_⟩
  obtain ⟨v, hv, hcut, rfl⟩ := mem_cutParts.1 hpart
  exact (h v hv hcut).2

end CodeAtlas.Section

import CodeAtlas.Proofs.Number.Binary
import CodeAtlas.Section.Pack
import Mathlib.Data.List.Induction

/-!
# Packing conserves the text and numbers the maps in order

A packing changes in two ways only: text is appended to the current map, and the current map is put aside.
The maps that were put aside since some packing bear consecutive numbers, all but the first of them and the
current one begin with the head of their number, and without these heads they hold the text that was appended.
Each part is put through one comparison of doubles, which fails for limits that no double is near to.  A map is
begun under its number, which fails if the number has too many digits.

## Main definitions

* `Packing.Writes` — a packing reached from another one by appending a text, with maps put aside on the way
* `Packing.entries` — the numbered maps from some point on, the current one last
* `bodies` — maps without the heads of all but the first
* `Packing.Extends` — what is known of a packing and the maps put aside since another one
* `Packing.after` — the packing when parts have been added, whatever their numbers are
* `Packing.Numbered` — the numbers of the maps begun between two packings can be written

## Main results

* `Packing.Writes.extends` — what writing keeps
* `Packing.reaches_addAll`, `Packing.addAll_of_le` — when parts can be packed
* `pack_conserves` — the numbering, the heads and the text of a section that is packed
-/

namespace CodeAtlas.Text

theorem startsWith_iff {s start : String} : startsWith s start = true ↔ start.toList <+: s.toList :=
  List.isPrefixOf_iff_prefix

theorem startsWith_append {s start : String} (h : startsWith s start = true) (text : String) :
    startsWith (s ++ text) start = true := by
  rw [startsWith_iff] at h ⊢
  rw [String.toList_append]
  exact h.trans (List.prefix_append _ _)

theorem startsWith_self (s : String) : startsWith s s = true :=
  startsWith_iff.2 (List.prefix_refl _)

theorem dropFirst_append {s start : String} (h : startsWith s start = true) (text : String) :
    dropFirst (s ++ text) start.length = dropFirst s start.length ++ text := by
  have hle : start.length ≤ s.toList.length := by
    rw [← String.length_toList]
    exact (startsWith_iff.1 h).length_le
  simp [dropFirst, String.toList_append, List.drop_append_of_le_length hle, String.ofList_append]

theorem dropFirst_self (s : String) : dropFirst s s.length = "" := by
  rw [dropFirst, ← String.length_toList, List.drop_length, String.ofList_nil]

end CodeAtlas.Text

namespace CodeAtlas.Section

variable {count : Counter} {limit : Int} {s t : Packing} {text part : String}
  {appended : List (Int × String)}

/-- Appends a text to the current map. -/
def Packing.write (s : Packing) (text : String) : Packing := { s with map := s.map ++ text }

/-- The second packing is reached from the first one by appending a text to the current map, piece by piece,
with maps put aside on the way. -/
inductive Packing.Writes (s : Packing) : Packing → String → Prop
  | start : Writes s s ""
  | write {t : Packing} {text : String} (h : Writes s t text) (part : String) :
    Writes s (t.write part) (text ++ part)
  | next {t : Packing} {text : String} (h : Writes s t text) : Writes s t.next text

/-- Maps that were put aside, and the current one last. -/
def Packing.entries (t : Packing) (appended : List (Int × String)) : List (Int × String) :=
  appended ++ [(t.number, t.map)]

/-- A map without its head. -/
def body (entry : Int × String) : String := Text.dropFirst entry.2 (continuation entry.1).length

/-- Maps without the heads of all but the first, which continues none of them. -/
def bodies : List (Int × String) → List String
  | [] => []
  | first :: rest => first.2 :: rest.map body

/-- Since the first packing some maps were put aside, under the numbers that follow on from its own.  All but
the first of them, and the current one if there are any, begin with their heads, and a text was appended. -/
structure Packing.Extends (s t : Packing) (appended : List (Int × String)) (text : String) : Prop where
  done_eq : t.done = s.done ++ appended
  number_eq : t.number = s.number + appended.length
  numbers_eq : appended.map Prod.fst = (List.range appended.length).map fun i : Nat => s.number + i
  headed : ∀ entry ∈ (t.entries appended).tail, Text.startsWith entry.2 (continuation entry.1) = true
  join_bodies : String.join (bodies (t.entries appended)) = s.map ++ text

namespace Packing.Extends

theorem start (s : Packing) : s.Extends s [] "" where
  done_eq := by simp
  number_eq := by simp
  numbers_eq := rfl
  headed := by simp [entries]
  join_bodies := by simp [entries, bodies]

/-- The current map has a head to be left out exactly if some map was put aside. -/
theorem write (h : s.Extends t appended text) (part : String) :
    s.Extends (t.write part) appended (text ++ part) where
  done_eq := h.done_eq
  number_eq := h.number_eq
  numbers_eq := h.numbers_eq
  headed := by
    cases appended with
    | nil => simp [entries]
    | cons first rest =>
      intro entry hentry
      have hheaded := h.headed
      simp only [entries, List.cons_append, List.tail_cons, List.mem_append, List.mem_singleton] at hheaded hentry
      rcases hentry with hrest | rfl
      · exact hheaded entry (Or.inl hrest)
      · exact Text.startsWith_append (hheaded _ (Or.inr rfl)) part
  join_bodies := by
    have hjoin := h.join_bodies
    cases appended with
    | nil =>
      simp only [entries, bodies, List.nil_append, List.map_nil, String.join_cons, String.join_nil,
        String.append_empty] at hjoin ⊢
      simp only [Packing.write, hjoin, String.append_assoc]
    | cons first rest =>
      have hhead : Text.startsWith t.map (continuation t.number) = true :=
        h.headed (t.number, t.map) (by simp [entries])
      simp only [entries, bodies, List.cons_append, List.map_append, List.map_cons, List.map_nil,
        String.join_cons, String.join_append, String.join_nil, String.append_empty] at hjoin ⊢
      simp only [Packing.write, body, Text.dropFirst_append hhead] at hjoin ⊢
      rw [← @String.append_assoc s.map, ← hjoin]
      simp only [String.append_assoc]

theorem next (h : s.Extends t appended text) : s.Extends t.next (t.entries appended) text where
  done_eq := by simp [Packing.next, entries, h.done_eq]
  number_eq := by
    simp only [Packing.next, entries, List.length_append, List.length_singleton, h.number_eq]
    omega
  numbers_eq := by
    simp only [entries, List.map_append, List.map_singleton, List.length_append, List.length_singleton,
      List.range_succ, h.numbers_eq, h.number_eq]
  headed := by
    intro entry hentry
    have hne : t.entries appended ≠ [] := by simp [entries]
    rw [entries, List.tail_append_of_ne_nil hne, List.mem_append, List.mem_singleton] at hentry
    rcases hentry with hbefore | rfl
    · exact h.headed entry hbefore
    · exact Text.startsWith_self _
  join_bodies := by
    have hbody : body (t.next.number, t.next.map) = "" := Text.dropFirst_self _
    rw [← h.join_bodies]
    cases appended with
    | nil => simp [entries, bodies, hbody]
    | cons first rest => simp [entries, bodies, hbody]

end Packing.Extends

/-- A packing extends the one from which it is reached by writing. -/
theorem Packing.Writes.extends (h : s.Writes t text) : ∃ appended, s.Extends t appended text := by
  induction h with
  | start => exact ⟨[], .start s⟩
  | write _ part ih =>
    obtain ⟨appended, hext⟩ := ih
    exact ⟨appended, hext.write part⟩
  | next _ ih =>
    obtain ⟨appended, hext⟩ := ih
    exact ⟨_, hext.next⟩

/-! ### Adding parts -/

section Definitions

variable (count : Counter) (limit : Int)

/-- The packing to which a part is written: a new map is begun if the current one has no room for it. -/
def Packing.room (s : Packing) (part : String) : Packing :=
  if limit < count s.map + count part then s.next else s

/-- The packing when a part has been written. -/
def Packing.placed (s : Packing) (part : String) : Packing := (s.room count limit part).write part

/-- Whether the current map is nearly full. -/
def Packing.isFull (s : Packing) : Bool := (nearlyFull (count s.map) limit).toOption.getD false

/-- The packing when a part has been added: its map is put aside if it is nearly full. -/
def Packing.added (s : Packing) (part : String) : Packing :=
  if (s.placed count limit part).isFull count limit then (s.placed count limit part).next
  else s.placed count limit part

/-- The packing when parts have been added. -/
def Packing.after (s : Packing) (parts : List String) : Packing := parts.foldl (Packing.added count limit) s

end Definitions

theorem Packing.after_cons (s : Packing) (part : String) (parts : List String) :
    s.after count limit (part :: parts) = (s.added count limit part).after count limit parts := by
  simp only [Packing.after, List.foldl_cons]

theorem Packing.after_concat (s : Packing) (parts : List String) (part : String) :
    s.after count limit (parts ++ [part]) = (s.after count limit parts).added count limit part := by
  simp [Packing.after]

theorem Packing.Writes.room (h : s.Writes t text) (part : String) : s.Writes (t.room count limit part) text := by
  rw [Packing.room]
  split
  · exact h.next
  · exact h

/-- One part is written after a map may have been put aside, and again one may be put aside after it. -/
theorem Packing.Writes.added (h : s.Writes t text) (part : String) :
    s.Writes (t.added count limit part) (text ++ part) := by
  have hplaced : s.Writes (t.placed count limit part) (text ++ part) := (h.room part).write part
  rw [Packing.added]
  split
  · exact hplaced.next
  · exact hplaced

theorem Packing.writes_after (count : Counter) (limit : Int) (s : Packing) (parts : List String) :
    s.Writes (s.after count limit parts) (String.join parts) := by
  induction parts using List.reverseRecOn with
  | nil => exact .start
  | append_singleton parts part ih =>
    rw [Packing.after_concat, String.join_append, String.join_cons, String.join_nil, String.append_empty]
    exact ih.added part

/-! ### Numbers of maps -/

/-- The numbers of the maps that are begun from one packing to another can all be written. -/
def Packing.Numbered (s t : Packing) : Prop :=
  ∀ n, s.number < n → n ≤ t.number → Number.isWritable n = true

/-- Each part begins two maps at most. -/
theorem Packing.number_added (count : Counter) (limit : Int) (s : Packing) (part : String) :
    s.number ≤ (s.room count limit part).number ∧
      (s.room count limit part).number ≤ (s.added count limit part).number ∧
      (s.added count limit part).number ≤ s.number + 2 := by
  have hplaced : (s.placed count limit part).number = (s.room count limit part).number := rfl
  have hadded : (s.added count limit part).number = (s.placed count limit part).number ∨
      (s.added count limit part).number = (s.placed count limit part).number + 1 := by
    rw [Packing.added]
    split
    · exact Or.inr rfl
    · exact Or.inl rfl
  have hroom : (s.room count limit part).number = s.number ∨ (s.room count limit part).number = s.number + 1 := by
    rw [Packing.room]
    split
    · exact Or.inr rfl
    · exact Or.inl rfl
  omega

theorem Packing.number_after (count : Counter) (limit : Int) (s : Packing) (parts : List String) :
    s.number ≤ (s.after count limit parts).number ∧
      (s.after count limit parts).number ≤ s.number + 2 * parts.length := by
  induction parts generalizing s with
  | nil => simp [Packing.after]
  | cons part parts ih =>
    obtain ⟨hroom, hadded, htwo⟩ := s.number_added count limit part
    obtain ⟨hge, hle⟩ := ih (s.added count limit part)
    rw [Packing.after_cons, List.length_cons]
    omega

/-- Numbers that stay within the bound can be written. -/
theorem Packing.numbered_after (count : Counter) (limit : Int) (s : Packing) (parts : List String)
    (hlow : -(Number.writableBound : Int) ≤ s.number) (hhigh : s.number + 2 * parts.length < Number.writableBound) :
    s.Numbered (s.after count limit parts) := by
  intro n hn hle
  have hafter := (s.number_after count limit parts).2
  rw [Number.isWritable, decide_eq_true_eq]
  omega

/-- Numbers can be written on a way exactly if they can on both of its parts. -/
theorem Packing.numbered_iff {r : Packing} (hst : s.number ≤ t.number) (htr : t.number ≤ r.number) :
    s.Numbered r ↔ s.Numbered t ∧ t.Numbered r := by
  constructor
  · exact fun h => ⟨fun n hn hle => h n hn (hle.trans htr), fun n hn hle => h n (hst.trans_lt hn) hle⟩
  · rintro ⟨hfront, hback⟩ n hn hle
    by_cases hbelow : n ≤ t.number
    · exact hfront n hn hbelow
    · exact hback n (Int.not_le.1 hbelow) hle

/-- What becomes of a packing on the way to another one: it gets there, unless a number cannot be written. -/
def Packing.Reaches (s t : Packing) (result : Except Error Packing) : Prop :=
  (s.Numbered t → result = .ok t) ∧ (¬s.Numbered t → result = .error (.tooManyDigits none))

namespace Packing.Reaches

variable {result : Except Error Packing}

theorem ok (h : t.number = s.number) : s.Reaches t (.ok t) := by
  refine ⟨fun _ => rfl, fun hnot => absurd (fun n hn hle => ?_) hnot⟩
  omega

theorem of_number {r : Packing} (hst : s.number = t.number) (h : s.Reaches r result) : t.Reaches r result := by
  rw [Packing.Reaches, Packing.Numbered, hst] at h
  exact h

theorem advance (s : Packing) : s.Reaches s.next s.advance := by
  have hiff : s.Numbered s.next ↔ Number.isWritable (s.number + 1) = true := by
    refine ⟨fun h => h _ (by omega) le_rfl, fun h n hn hle => ?_⟩
    have hle : n ≤ s.number + 1 := hle
    obtain rfl : n = s.number + 1 := by omega
    exact h
  rw [Packing.Reaches, hiff, Packing.advance, Number.written]
  constructor
  · intro hwritable
    rw [if_pos hwritable]
    rfl
  · intro hnot
    rw [if_neg hnot]
    rfl

theorem bind {r : Packing} {next : Packing → Except Error Packing} (hst : s.number ≤ t.number)
    (htr : t.number ≤ r.number) (h : s.Reaches t result) (hnext : t.Reaches r (next t)) :
    s.Reaches r (result >>= next) := by
  rw [Packing.Reaches, Packing.numbered_iff hst htr]
  by_cases hfront : s.Numbered t
  · rw [h.1 hfront]
    exact ⟨fun hboth => hnext.1 hboth.2, fun hnot => hnext.2 fun hback => hnot ⟨hfront, hback⟩⟩
  · rw [h.2 hfront]
    exact ⟨fun hboth => absurd hboth.1 hfront, fun _ => rfl⟩

end Packing.Reaches

theorem Packing.reaches_room (count : Counter) (limit : Int) (s : Packing) (part : String) :
    s.Reaches (s.room count limit part) (if limit < count s.map + count part then s.advance else pure s) := by
  rw [Packing.room]
  split
  · exact .advance s
  · exact .ok rfl

theorem nearlyFull_of_lt (tokens : Nat) (h : limit.toNat < Number.wholeBound) :
    ∃ full, nearlyFull tokens limit = .ok full := by
  cases hdouble : Number.wholeDouble? limit.toNat with
  | none => exact absurd (Number.wholeDouble?_eq_none_iff.1 hdouble) (Nat.not_le.2 h)
  | some d => exact ⟨_, by rw [nearlyFull, hdouble, Option.elim_some]⟩

theorem Packing.nearlyFull_eq (count : Counter) (s : Packing) (h : limit.toNat < Number.wholeBound) :
    nearlyFull (count s.map) limit = .ok (s.isFull count limit) := by
  obtain ⟨full, hfull⟩ := nearlyFull_of_lt (count s.map) h
  rw [Packing.isFull, hfull]
  rfl

theorem Packing.add_eq (count : Counter) (limit : Int) (s : Packing) (part : String) :
    s.add count limit part = (if limit < count s.map + count part then s.advance else pure s) >>= fun t =>
      nearlyFull (count (t.write part).map) limit >>= fun full =>
        if full then (t.write part).advance else pure (t.write part) := by
  rw [Packing.add]
  split <;> rfl

theorem Packing.reaches_settled (count : Counter) (limit : Int) (s : Packing) (part : String) :
    (s.placed count limit part).Reaches (s.added count limit part)
      (if (s.placed count limit part).isFull count limit then (s.placed count limit part).advance
        else pure (s.placed count limit part)) := by
  rw [Packing.added]
  split
  · exact .advance _
  · exact .ok rfl

/-- Below the bound of limits a part is added, unless the number of its map or the next one cannot be written. -/
theorem Packing.reaches_add (count : Counter) (h : limit.toNat < Number.wholeBound) (s : Packing) (part : String) :
    s.Reaches (s.added count limit part) (s.add count limit part) := by
  obtain ⟨hroom, hadded, -⟩ := s.number_added count limit part
  rw [Packing.add_eq]
  refine (s.reaches_room count limit part).bind hroom hadded ?_
  have hfull : nearlyFull (count ((s.room count limit part).write part).map) limit =
      .ok ((s.placed count limit part).isFull count limit) := Packing.nearlyFull_eq count _ h
  simp only [hfull, bind, Except.bind]
  exact .of_number rfl (s.reaches_settled count limit part)

/-- Below the bound of limits every list of parts is packed, unless a number cannot be written. -/
theorem Packing.reaches_addAll (count : Counter) (h : limit.toNat < Number.wholeBound) (s : Packing)
    (parts : List String) : s.Reaches (s.after count limit parts) (s.addAll count limit parts) := by
  induction parts generalizing s with
  | nil => exact .ok rfl
  | cons part parts ih =>
    obtain ⟨hroom, hadded, -⟩ := s.number_added count limit part
    rw [Packing.addAll, List.foldlM_cons, Packing.after_cons]
    exact (s.reaches_add count h part).bind (hroom.trans hadded) (number_after count limit _ parts).1 (ih _)

theorem toNat_mapLimit_lt_iff : (mapLimit limit).toNat < Number.wholeBound ↔ limit < Number.wholeBound := by
  have hleast : (leastLimit : Int) < Number.wholeBound := by decide +kernel
  have hpos : (0 : Int) < leastLimit := by decide
  rw [mapLimit]
  omega

variable {p : Policy} {file : Option String} {content : String}

/-- What becomes of a section if its limit has a double near to it, or if there is nothing to pack. -/
theorem reaches_pack (p : Policy) (count : Counter) (limit : Int) (file : Option String) (content : String)
    (s : Packing)
    (h : split p count (mapLimit limit) (sectionExtension file) content = [] ∨ limit < Number.wholeBound) :
    s.Reaches (s.after count (mapLimit limit) (split p count (mapLimit limit) (sectionExtension file) content))
      (pack p count limit file content false s) := by
  simp only [pack, Bool.false_eq_true, if_false]
  rcases h with hnil | hlt
  · rw [hnil]
    exact .ok rfl
  · exact Packing.reaches_addAll count (toNat_mapLimit_lt_iff.2 hlt) s _

end CodeAtlas.Section

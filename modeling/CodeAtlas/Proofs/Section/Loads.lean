import CodeAtlas.Proofs.Section.Levels
import CodeAtlas.Proofs.Section.Pack
import CodeAtlas.Proofs.Text.Append

/-!
# Which parts share a map

Each map holds a run of the parts, one directly behind the other.  A map that is begun has its head and, if
it was begun for want of room, the part that had none.  All further parts are only added where there is room
for them.

So the lines of parts are whole lines of the maps as far as no part is written behind one that does not end
its last line, and maps are within the limit as far as there is room for each head and the part with which
its map begins.

## Main definitions

* `Packing.loads` — the parts of each map, from the current one on
* `Packing.maps` — the maps with these parts
* `begun` — the heads of the maps begun, each with the part behind it

## Main results

* `Packing.maps_after` — adding parts makes the maps of their loads
* `pack_linesKept_iff` — when the lines of the parts are whole lines of the maps
* `pack_mapsWithin_iff` — when all maps are within the limit, in characters
-/

namespace CodeAtlas.Section

section Definitions

variable (count : Counter) (limit : Int)

/-- One more part in front of those of the first map. -/
def addLoad (part : String) : List (List String) → List (List String)
  | [] => [[part]]
  | load :: loads => (part :: load) :: loads

/-- The parts of each map, from the current one on. -/
def Packing.loads (s : Packing) : List String → List (List String)
  | [] => [[]]
  | part :: rest =>
    (if limit < count s.map + count part then [[]] else []) ++
      if (s.placed count limit part).isFull count limit then
        [part] :: (s.placed count limit part).next.loads rest
      else addLoad part ((s.placed count limit part).loads rest)

end Definitions

/-- The maps with given parts behind their heads, from a number on. -/
def headedMaps (number : Int) : List (List String) → List String
  | [] => []
  | load :: loads => (continuation number ++ String.join load) :: headedMaps (number + 1) loads

/-- The maps with given parts, from the current one on. -/
def Packing.maps (s : Packing) : List (List String) → List String
  | [] => []
  | load :: loads => (s.map ++ String.join load) :: headedMaps (s.number + 1) loads

/-- The heads of maps from a number on, each with the part behind it, if there is one. -/
def begun (number : Int) : List (List String) → List (String × String)
  | [] => []
  | load :: loads => (continuation number, load.headD "") :: begun (number + 1) loads

variable {count : Counter} {limit : Int} {s : Packing} {part : String} {parts : List String}
  {loads : List (List String)}

/-- The parts of each map, from the one on to which a part is written. -/
def Packing.ownLoads (count : Counter) (limit : Int) (s : Packing) (part : String) (rest : List String) :
    List (List String) :=
  if (s.placed count limit part).isFull count limit then
    [part] :: (s.placed count limit part).next.loads count limit rest
  else addLoad part ((s.placed count limit part).loads count limit rest)

theorem Packing.loads_cons (s : Packing) (part : String) (rest : List String) :
    s.loads count limit (part :: rest) =
      (if limit < count s.map + count part then [[]] else []) ++ s.ownLoads count limit part rest := rfl

theorem Packing.maps_next (s : Packing) (loads : List (List String)) :
    s.next.maps loads = headedMaps (s.number + 1) loads := by
  cases loads <;> rfl

theorem Packing.maps_addLoad (h : loads ≠ []) (part : String) :
    s.maps (addLoad part loads) = (s.write part).maps loads := by
  obtain ⟨load, loads, rfl⟩ := List.exists_cons_of_ne_nil h
  simp [addLoad, Packing.maps, Packing.write, String.append_assoc]

theorem addLoad_ne_nil (part : String) (loads : List (List String)) : addLoad part loads ≠ [] := by
  cases loads <;> simp [addLoad]

theorem Packing.loads_ne_nil (count : Counter) (limit : Int) (s : Packing) (parts : List String) :
    s.loads count limit parts ≠ [] := by
  cases parts with
  | nil => simp [Packing.loads]
  | cons part rest =>
    rw [Packing.loads_cons, Packing.ownLoads]
    split_ifs <;> simp [addLoad_ne_nil]

/-- The maps of parts from the current one on, which is put aside if it is nearly full. -/
def Packing.mapsFrom (count : Counter) (limit : Int) (s : Packing) (parts : List String) : List String :=
  if s.isFull count limit then s.map :: s.next.maps (s.next.loads count limit parts)
    else s.maps (s.loads count limit parts)

/-- The maps from the one on to which a part is written. -/
theorem Packing.maps_ownLoads (s : Packing) (part : String) (rest : List String) :
    (s.room count limit part).maps (s.ownLoads count limit part rest) =
      (s.placed count limit part).mapsFrom count limit rest := by
  rw [Packing.ownLoads, Packing.mapsFrom]
  split
  · rw [Packing.maps_next, Packing.maps]
    simp [Packing.placed, Packing.write]
  · exact Packing.maps_addLoad (Packing.loads_ne_nil count limit _ rest) part

/-- The maps of parts, by whether there is room for the first one and whether it fills its map. -/
theorem Packing.maps_loads_cons (s : Packing) (part : String) (rest : List String) :
    s.maps (s.loads count limit (part :: rest)) =
      (if limit < count s.map + count part then [s.map] else []) ++
        (s.placed count limit part).mapsFrom count limit rest := by
  rw [← Packing.maps_ownLoads, Packing.loads_cons]
  by_cases hroom : limit < count s.map + count part
  · rw [if_pos hroom, if_pos hroom, Packing.room, if_pos hroom, Packing.maps_next]
    simp [Packing.maps]
  · rw [if_neg hroom, if_neg hroom, Packing.room, if_neg hroom, List.nil_append, List.nil_append]

/-- Adding parts makes the maps of their loads. -/
theorem Packing.maps_after (count : Counter) (limit : Int) (s : Packing) (parts : List String) :
    (s.after count limit parts).done.map Prod.snd ++ [(s.after count limit parts).map] =
      s.done.map Prod.snd ++ s.maps (s.loads count limit parts) := by
  induction parts generalizing s with
  | nil => simp [Packing.after, Packing.loads, Packing.maps, headedMaps]
  | cons part rest ih =>
    have hroom : (s.room count limit part).done.map Prod.snd =
        s.done.map Prod.snd ++ if limit < count s.map + count part then [s.map] else [] := by
      rw [Packing.room]
      split <;> simp [Packing.next]
    rw [Packing.after_cons, ih, Packing.maps_loads_cons, Packing.mapsFrom, Packing.added, ← List.append_assoc, ← hroom]
    split
    · simp [Packing.next, Packing.placed, Packing.write]
    · rfl

variable {p : Policy} {file : Option String} {content : String}

/-- A section whose limit has a double near to it, or that has nothing to pack, makes the maps of the loads of its
parts if their numbers can be written. -/
theorem pack_maps (p : Policy) (count : Counter) (limit : Int) (file : Option String) (content : String)
    (s : Packing)
    (h : split p count (mapLimit limit) (sectionExtension file) content = [] ∨ limit < Number.wholeBound)
    (hnumbered : s.Numbered (s.after count (mapLimit limit)
      (split p count (mapLimit limit) (sectionExtension file) content))) :
    ∃ r appended, pack p count limit file content false s = .ok r ∧ r.done = s.done ++ appended ∧
      (r.entries appended).map Prod.snd = s.maps (s.loads count (mapLimit limit)
        (split p count (mapLimit limit) (sectionExtension file) content)) := by
  have hpack := (reaches_pack p count limit file content s h).1 hnumbered
  generalize split p count (mapLimit limit) (sectionExtension file) content = parts at hpack ⊢
  obtain ⟨appended, hextends⟩ := (s.writes_after count (mapLimit limit) parts).extends
  refine ⟨_, appended, hpack, hextends.done_eq, ?_⟩
  have hmaps := s.maps_after count (mapLimit limit) parts
  rw [hextends.done_eq, List.map_append, List.append_assoc, List.append_cancel_left_eq] at hmaps
  rw [Packing.entries, List.map_append, List.map_singleton]
  exact hmaps

/-! ### Whole lines -/

/-- Every line of every part is a whole line of some map. -/
def LinesKept (parts maps : List String) : Prop :=
  ∀ part ∈ parts, ∀ line ∈ Text.lines part, ∃ map ∈ maps, line ∈ Text.lines map

instance (parts maps : List String) : Decidable (LinesKept parts maps) :=
  inferInstanceAs (Decidable (∀ part ∈ _, ∀ line ∈ _, ∃ map ∈ _, _))

theorem flatten_addLoad (part : String) (loads : List (List String)) :
    (addLoad part loads).flatten = part :: loads.flatten := by
  cases loads <;> simp [addLoad]

/-- The loads are the parts, in order. -/
theorem Packing.flatten_loads (count : Counter) (limit : Int) (s : Packing) (parts : List String) :
    (s.loads count limit parts).flatten = parts := by
  induction parts generalizing s with
  | nil => simp [Packing.loads]
  | cons part rest ih =>
    rw [Packing.loads_cons, Packing.ownLoads, List.flatten_append]
    have hnone :
        (if limit < count s.map + count part then [[]] else [] : List (List String)).flatten = [] := by
      split <;> rfl
    rw [hnone, List.nil_append]
    split
    · rw [List.flatten_cons, ih]
      rfl
    · rw [flatten_addLoad, ih]

theorem endsLine_continuation (number : Int) : Text.EndsLine (continuation number) := by
  have hend : "):\n\n" = "):\n" ++ "\n" := by decide
  have hhead : continuation number =
      "Repository contents (continued, part " ++ toString number ++ "):\n" ++ "\n" := by
    rw [String.append_assoc, ← hend]
    rfl
  rw [hhead]
  exact Text.endsLine_append_lineFeed _

/-- Behind a map that ends its last line the lines of a load are whole. -/
theorem mem_lines_headedMaps {load : List String} (hload : load ∈ loads) {line : String}
    (hline : line ∈ Text.lines (String.join load)) (number : Int) :
    ∃ map ∈ headedMaps number loads, line ∈ Text.lines map := by
  induction loads generalizing number with
  | nil => simp at hload
  | cons first loads ih =>
    rcases List.mem_cons.1 hload with rfl | hload
    · refine ⟨_, List.mem_cons_self, ?_⟩
      rw [Text.lines_append_of_endsLine (endsLine_continuation number)]
      exact List.mem_append_right _ hline
    · obtain ⟨map, hmap, hmem⟩ := ih hload (number + 1)
      exact ⟨map, List.mem_cons_of_mem _ hmap, hmem⟩

theorem Packing.mem_lines_maps (hs : Text.EndsLine s.map) {load : List String} (hload : load ∈ loads)
    {line : String} (hline : line ∈ Text.lines (String.join load)) :
    ∃ map ∈ s.maps loads, line ∈ Text.lines map := by
  cases loads with
  | nil => simp at hload
  | cons first loads =>
    rcases List.mem_cons.1 hload with rfl | hload
    · refine ⟨_, List.mem_cons_self, ?_⟩
      rw [Text.lines_append_of_endsLine hs]
      exact List.mem_append_right _ hline
    · obtain ⟨map, hmap, hmem⟩ := mem_lines_headedMaps hload hline (s.number + 1)
      exact ⟨map, List.mem_cons_of_mem _ hmap, hmem⟩

/-- The lines of parts are kept exactly if those at the seams of their loads are. -/
theorem Packing.linesKept_iff (hs : Text.EndsLine s.map) :
    LinesKept parts (s.maps (s.loads count limit parts)) ↔
      ∀ load ∈ s.loads count limit parts, ∀ line ∈ Text.tornLines load,
        ∃ map ∈ s.maps (s.loads count limit parts), line ∈ Text.lines map := by
  constructor
  · intro h load hload line hline
    obtain ⟨part, hpart, hmem⟩ := Text.exists_of_mem_tornLines hline
    refine h part ?_ line hmem
    rw [← s.flatten_loads count limit parts]
    exact List.mem_flatten.2 ⟨load, hload, hpart⟩
  · intro h part hpart line hline
    rw [← s.flatten_loads count limit parts] at hpart
    obtain ⟨load, hload, hpart⟩ := List.mem_flatten.1 hpart
    rcases Text.mem_lines_join hpart hline with htorn | hwhole
    · exact h load hload line htorn
    · exact Packing.mem_lines_maps hs hload hwhole

/-- **Whole lines.**  Behind a current map that ends its last line a section whose numbers can be written is packed
such that the lines of its parts are whole lines of the maps exactly if those lines are that end a part without a line
feed and those that begin the part behind it on the same map.  So they are if no part stands on a map behind one that
does not end its last line. -/
theorem pack_linesKept_iff (p : Policy) (count : Counter) (limit : Int) (file : Option String)
    (content : String) (s : Packing) (hs : Text.EndsLine s.map) :
    let parts := split p count (mapLimit limit) (sectionExtension file) content
    let loads := s.loads count (mapLimit limit) parts
    parts = [] ∨ limit < Number.wholeBound → s.Numbered (s.after count (mapLimit limit) parts) → ∃ r appended,
      pack p count limit file content false s = .ok r ∧ r.done = s.done ++ appended ∧
      (LinesKept parts ((r.entries appended).map Prod.snd) ↔ ∀ load ∈ loads, ∀ line ∈ Text.tornLines load,
        ∃ map ∈ (r.entries appended).map Prod.snd, line ∈ Text.lines map) ∧
      ((∀ load ∈ loads, Text.seams load = []) → LinesKept parts ((r.entries appended).map Prod.snd)) := by
  intro parts loads hlimit hnumbered
  obtain ⟨r, appended, hpack, hdone, hmaps⟩ := pack_maps p count limit file content s hlimit hnumbered
  refine ⟨r, appended, hpack, hdone, ?_, ?_⟩
  · rw [hmaps]
    exact Packing.linesKept_iff hs
  · intro hseams
    rw [hmaps, Packing.linesKept_iff hs]
    intro load hload line hline
    rw [Text.tornLines, hseams load hload] at hline
    simp [Text.linesAt] at hline

/-- Two parts that have no room on one map stay whole. -/
theorem pack_linesKept_two_maps :
    split .plain (fun s => s.length * 1024) 4096 ".txt" "aaa\nbbb" = ["aaa", "bbb"] ∧ Text.EndsLine "" ∧
      ∃ r appended,
        pack .plain (fun s => s.length * 1024) 4096 (some "m.txt") "aaa\nbbb" false ⟨[], "", 1⟩ = .ok r ∧
        r.done = [] ++ appended ∧
        LinesKept ["aaa", "bbb"] ((r.entries appended).map Prod.snd) := by
  have hparts : split .plain (fun s => s.length * 1024) (mapLimit 4096) (sectionExtension (some "m.txt"))
      "aaa\nbbb" = ["aaa", "bbb"] := by decide
  obtain ⟨r, appended, hpack, hdone, _, hkept⟩ := pack_linesKept_iff .plain (fun s => s.length * 1024) 4096
    (some "m.txt") "aaa\nbbb" ⟨[], "", 1⟩ (by decide) (Or.inr (by decide +kernel))
    (Packing.numbered_after _ _ _ _ (by decide +kernel) (by decide +kernel))
  rw [hparts] at hkept
  exact ⟨by decide, by decide, r, appended, hpack, hdone, hkept (by decide +kernel)⟩

/-- Two parts of four characters in all are written one behind the other where four have room. -/
theorem exists_pack_not_linesKept
    (h : split p (fun s => s.length * 1024) (mapLimit 4096) (sectionExtension (some "m.txt")) "a\nbbb" =
      ["a", "bbb"]) :
    ∃ r, pack p (fun s => s.length * 1024) 4096 (some "m.txt") "a\nbbb" false ⟨[], "", 1⟩ = .ok r ∧
      ¬ LinesKept
        (split p (fun s => s.length * 1024) (mapLimit 4096) (sectionExtension (some "m.txt")) "a\nbbb")
        (r.done.map Prod.snd ++ [r.map]) := by
  obtain ⟨r, appended, hpack, hdone, hmaps⟩ := pack_maps p (fun s => s.length * 1024) 4096 (some "m.txt")
    "a\nbbb" ⟨[], "", 1⟩ (Or.inr (by decide +kernel))
    (Packing.numbered_after _ _ _ _ (by decide +kernel) (by rw [h]; decide +kernel))
  have hloads : Packing.loads (fun s => s.length * 1024) (mapLimit 4096) ⟨[], "", 1⟩ ["a", "bbb"] =
      [["a", "bbb"], []] := by decide +kernel
  rw [Packing.entries, List.map_append, h, hloads] at hmaps
  refine ⟨r, hpack, ?_⟩
  rw [h, hdone, List.nil_append, show [r.map] = [(r.number, r.map)].map Prod.snd from rfl, hmaps]
  decide

/-- Both ways of cutting make two parts of two lines, which end up as one line. -/
theorem pack_joins_lines :
    (Text.EndsLine "" ∧
      ∃ r, pack .guided (fun s => s.length * 1024) 4096 (some "m.txt") "a\nbbb" false ⟨[], "", 1⟩ = .ok r ∧
        ¬ LinesKept
          (split .guided (fun s => s.length * 1024) (mapLimit 4096) (sectionExtension (some "m.txt")) "a\nbbb")
          (r.done.map Prod.snd ++ [r.map])) ∧
      ∃ r, pack .plain (fun s => s.length * 1024) 4096 (some "m.txt") "a\nbbb" false ⟨[], "", 1⟩ = .ok r ∧
        ¬ LinesKept
          (split .plain (fun s => s.length * 1024) (mapLimit 4096) (sectionExtension (some "m.txt")) "a\nbbb")
          (r.done.map Prod.snd ++ [r.map]) :=
  ⟨⟨by decide, exists_pack_not_linesKept (by decide)⟩, exists_pack_not_linesKept (by decide)⟩

/-! ### Limits of maps -/

/-- Every map has no more characters than the limit. -/
def MapsWithin (limit : Int) (maps : List String) : Prop := ∀ map ∈ maps, (map.length : Int) ≤ limit

/-- A head and the part behind it have no more characters than the limit. -/
def Fits (limit : Int) (entry : String × String) : Prop := (entry.1.length + entry.2.length : Int) ≤ limit

theorem mapsWithin_cons {map : String} {maps : List String} :
    MapsWithin limit (map :: maps) ↔ map.length ≤ limit ∧ MapsWithin limit maps :=
  List.forall_mem_cons

/-- The parts of the maps behind the one on to which a part is written. -/
def Packing.laterLoads (count : Counter) (limit : Int) (s : Packing) (part : String) (rest : List String) :
    List (List String) :=
  if (s.placed count limit part).isFull count limit then
    (s.placed count limit part).next.loads count limit rest
  else ((s.placed count limit part).loads count limit rest).tail

theorem Packing.ownLoads_eq (count : Counter) (limit : Int) (s : Packing) (part : String)
    (rest : List String) :
    ∃ load, s.ownLoads count limit part rest = (part :: load) :: s.laterLoads count limit part rest := by
  rw [Packing.ownLoads, Packing.laterLoads]
  split
  · exact ⟨[], rfl⟩
  · obtain ⟨load, loads, hloads⟩ := List.exists_cons_of_ne_nil
      ((s.placed count limit part).loads_ne_nil count limit rest)
    exact ⟨load, by rw [hloads]; rfl⟩

/-- A map is begun with a part exactly if there was no room for it. -/
theorem Packing.begun_loads_cons (s : Packing) (part : String) (rest : List String) :
    begun (s.number + 1) (s.loads count limit (part :: rest)).tail =
      (if limit < count s.map + count part then [(continuation (s.number + 1), part)] else []) ++
        begun ((s.placed count limit part).number + 1) (s.laterLoads count limit part rest) := by
  obtain ⟨load, hown⟩ := s.ownLoads_eq count limit part rest
  generalize s.laterLoads count limit part rest = later at hown ⊢
  rw [Packing.loads_cons, hown, Packing.placed, Packing.room]
  split
  · rfl
  · rfl

/-- Where a map has got parts there was room for the first one. -/
theorem Packing.fits_of_loads {load : List String}
    (h : s.loads String.length limit parts = (part :: load) :: loads) :
    (s.map.length + part.length : Int) ≤ limit := by
  cases parts with
  | nil => simp [Packing.loads] at h
  | cons first rest =>
    obtain ⟨load', hown⟩ := s.ownLoads_eq String.length limit first rest
    rw [Packing.loads_cons, hown] at h
    split at h
    · simp at h
    · rename_i hroom
      obtain ⟨⟨rfl, _⟩, _⟩ : (first = part ∧ load' = load) ∧ _ := by simpa using h
      exact Int.not_lt.1 hroom

/-- A map that was begun without a part has its head and, if there is one, a first part for which there was
room. -/
theorem Packing.begun_next (s : Packing) (parts : List String) :
    (∀ entry ∈ begun s.next.number (s.next.loads String.length limit parts), Fits limit entry) ↔
      s.next.map.length ≤ limit ∧
        ∀ entry ∈ begun (s.next.number + 1) (s.next.loads String.length limit parts).tail,
          Fits limit entry := by
  obtain ⟨load, loads, hloads⟩ := List.exists_cons_of_ne_nil
    (s.next.loads_ne_nil String.length limit parts)
  rw [hloads, begun, List.forall_mem_cons, List.tail_cons]
  refine and_congr_left fun _ => ?_
  cases load with
  | nil => simp [Fits, Packing.next]
  | cons part load =>
    have hfits := Packing.fits_of_loads hloads
    simp only [Fits, Packing.next, List.headD_cons] at hfits ⊢
    constructor
    · intro _
      omega
    · intro _
      exact hfits

/-- Maps are within the limit exactly if the current one is and there is room for each head that is begun
and the part behind it. -/
theorem Packing.mapsWithin_iff (s : Packing) (parts : List String) :
    MapsWithin limit (s.maps (s.loads String.length limit parts)) ↔ s.map.length ≤ limit ∧
      ∀ entry ∈ begun (s.number + 1) (s.loads String.length limit parts).tail, Fits limit entry := by
  induction parts generalizing s with
  | nil => simp [Packing.loads, Packing.maps, headedMaps, begun, MapsWithin]
  | cons part rest ih =>
    -- from the map with the part on, the maps are within the limit if that map is and the later ones are
    have hplaced : MapsWithin limit ((s.placed String.length limit part).mapsFrom String.length limit rest) ↔
        (s.placed String.length limit part).map.length ≤ limit ∧
          ∀ entry ∈ begun ((s.placed String.length limit part).number + 1)
            (s.laterLoads String.length limit part rest), Fits limit entry := by
      rw [Packing.laterLoads, Packing.mapsFrom]
      split
      · rw [mapsWithin_cons, ih, ← Packing.begun_next]
        rfl
      · exact ih _
    rw [Packing.maps_loads_cons, Packing.begun_loads_cons]
    by_cases hroom : limit < (s.map.length : Int) + part.length
    · have hmap : (s.placed String.length limit part).map.length =
          (continuation (s.number + 1)).length + part.length := by
        rw [Packing.placed, Packing.room, if_pos hroom, Packing.write, String.length_append]
        rfl
      rw [if_pos hroom, if_pos hroom, List.singleton_append, List.singleton_append, mapsWithin_cons, hplaced,
        List.forall_mem_cons, hmap, Fits, Nat.cast_add]
    · have hmap : (s.placed String.length limit part).map.length = s.map.length + part.length := by
        rw [Packing.placed, Packing.room, if_neg hroom, Packing.write, String.length_append]
      rw [if_neg hroom, if_neg hroom, List.nil_append, List.nil_append, hplaced, hmap]
      refine and_congr_left fun _ => ?_
      omega

/-- **Limits of maps.**  Counted in characters, the maps of a section whose numbers can be written are within the
limit exactly if there is room for each head that is begun and for the part behind it, which is the one that had no
room on the map before. -/
theorem pack_mapsWithin_iff (p : Policy) (limit : Int) (file : Option String) (content : String) (s : Packing)
    (hs : s.map.length ≤ mapLimit limit) :
    let parts := split p String.length (mapLimit limit) (sectionExtension file) content
    parts = [] ∨ limit < Number.wholeBound → s.Numbered (s.after String.length (mapLimit limit) parts) → ∃ r appended,
      pack p String.length limit file content false s = .ok r ∧ r.done = s.done ++ appended ∧
      (MapsWithin (mapLimit limit) ((r.entries appended).map Prod.snd) ↔
        ∀ entry ∈ begun (s.number + 1) (s.loads String.length (mapLimit limit) parts).tail,
          Fits (mapLimit limit) entry) := by
  intro parts hlimit hnumbered
  obtain ⟨r, appended, hpack, hdone, hmaps⟩ := pack_maps p String.length limit file content s hlimit hnumbered
  refine ⟨r, appended, hpack, hdone, ?_⟩
  rw [hmaps, Packing.mapsWithin_iff]
  exact and_iff_right hs

theorem split_of_fits (h : count content ≤ p.limit limit) (extension : String) :
    split p count limit extension content = [content] :=
  partsOf_of_fits h

/-- The maps that are begun for a single part for which there is no room. -/
theorem Packing.begun_singleton (count : Counter) (limit : Int) (s : Packing) (content : String)
    (h : limit < count s.map + count content) :
    ∃ later, begun (s.number + 1) (s.loads count limit [content]).tail =
      (continuation (s.number + 1), content) :: later ∧
        ∀ entry ∈ later, entry = (continuation (s.number + 2), "") := by
  rw [Packing.begun_loads_cons, if_pos h]
  refine ⟨_, rfl, ?_⟩
  have hnumber : (s.placed count limit content).number = s.number + 1 := by
    rw [Packing.placed, Packing.room, if_pos h]
    rfl
  rw [hnumber, Packing.laterLoads]
  split
  · simp [Packing.loads, begun, add_assoc]
  · simp [Packing.loads, begun]

/-- A line of a number of equal characters. -/
def rule (length : Nat) : String := String.ofList (List.replicate length '-')

theorem length_rule (length : Nat) : (rule length).length = length := by
  simp [rule]

/-- A part of 4000 characters begins a map of its own. -/
theorem pack_mapsWithin_new_map :
    (rule 200).length ≤ mapLimit 4096 ∧
      ∃ r appended, pack .plain String.length 4096 none (rule 4000) false ⟨[], rule 200, 1⟩ = .ok r ∧
        r.done = [] ++ appended ∧ MapsWithin (mapLimit 4096) ((r.entries appended).map Prod.snd) := by
  have hsplit :
      split .plain String.length (mapLimit 4096) (sectionExtension none) (rule 4000) = [rule 4000] :=
    split_of_fits (by rw [length_rule]; decide) _
  have hs : (rule 200).length ≤ mapLimit 4096 := by
    rw [length_rule]
    decide
  obtain ⟨r, appended, hpack, hdone, hwithin⟩ :=
    pack_mapsWithin_iff .plain 4096 none (rule 4000) ⟨[], rule 200, 1⟩ hs (Or.inr (by decide +kernel))
      (Packing.numbered_after _ _ _ _ (by decide +kernel) (by rw [hsplit]; decide +kernel))
  refine ⟨hs, r, appended, hpack, hdone, hwithin.2 ?_⟩
  obtain ⟨later, hbegun, hlater⟩ := Packing.begun_singleton String.length (mapLimit 4096) ⟨[], rule 200, 1⟩
    (rule 4000) (by rw [length_rule, length_rule]; decide)
  have hsecond : (continuation 2).length = 42 := by decide
  have hthird : (continuation 3).length = 42 := by decide
  rw [hsplit, hbegun, List.forall_mem_cons]
  constructor
  · show ((continuation 2).length + (rule 4000).length : Int) ≤ mapLimit 4096
    rw [hsecond, length_rule]
    decide
  · intro entry hentry
    rw [hlater entry hentry]
    show ((continuation 3).length + "".length : Int) ≤ mapLimit 4096
    rw [hthird]
    decide

/-- A part that fills a map has no room behind the head of another one. -/
theorem exists_pack_not_mapsWithin
    (h : split p String.length (mapLimit 4096) (sectionExtension none) (rule 4096) = [rule 4096]) :
    (∀ part ∈ split p String.length (mapLimit 4096) (sectionExtension none) (rule 4096),
        part.length ≤ mapLimit 4096) ∧
      ∃ r, pack p String.length 4096 none (rule 4096) false ⟨[], "-", 1⟩ = .ok r ∧
        ¬ MapsWithin (mapLimit 4096) (r.done.map Prod.snd ++ [r.map]) := by
  obtain ⟨r, appended, hpack, hdone, hmaps⟩ := pack_maps p String.length 4096 none (rule 4096) ⟨[], "-", 1⟩
    (Or.inr (by decide +kernel)) (Packing.numbered_after _ _ _ _ (by decide +kernel) (by rw [h]; decide +kernel))
  obtain ⟨later, hbegun, _⟩ := Packing.begun_singleton String.length (mapLimit 4096) ⟨[], "-", 1⟩
    (rule 4096) (by rw [length_rule]; decide)
  constructor
  · rw [h, List.forall_mem_singleton, length_rule]
    decide
  · refine ⟨r, hpack, fun hwithin => ?_⟩
    rw [hdone, List.nil_append, show [r.map] = [(r.number, r.map)].map Prod.snd from rfl, ← List.map_append,
      ← Packing.entries, hmaps, Packing.mapsWithin_iff, h, hbegun, List.forall_mem_cons] at hwithin
    have hfits : ((continuation 2).length + (rule 4096).length : Int) ≤ mapLimit 4096 := hwithin.2.1
    rw [length_rule] at hfits
    revert hfits
    decide

/-- The head of the second map and the part behind it exceed the limit, whichever way the section is cut. -/
theorem pack_exceeds_limit :
    "-".length ≤ mapLimit 4096 ∧
    ((∀ part ∈ split .guided String.length (mapLimit 4096) (sectionExtension none) (rule 4096),
        part.length ≤ mapLimit 4096) ∧
      ∃ r, pack .guided String.length 4096 none (rule 4096) false ⟨[], "-", 1⟩ = .ok r ∧
        ¬ MapsWithin (mapLimit 4096) (r.done.map Prod.snd ++ [r.map])) ∧
    (∀ part ∈ split .plain String.length (mapLimit 4096) (sectionExtension none) (rule 4096),
        part.length ≤ mapLimit 4096) ∧
      ∃ r, pack .plain String.length 4096 none (rule 4096) false ⟨[], "-", 1⟩ = .ok r ∧
        ¬ MapsWithin (mapLimit 4096) (r.done.map Prod.snd ++ [r.map]) :=
  ⟨by decide, exists_pack_not_mapsWithin (split_of_fits (by rw [length_rule]; decide) _),
    exists_pack_not_mapsWithin (split_of_fits (by rw [length_rule]; decide) _)⟩

end CodeAtlas.Section

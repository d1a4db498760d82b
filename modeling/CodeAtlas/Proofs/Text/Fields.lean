import CodeAtlas.Text.Fields
import Mathlib.Algebra.GroupWithZero.Nat
import Mathlib.Algebra.Order.BigOperators.Group.List
import Mathlib.Algebra.Order.Group.Nat
import Mathlib.Data.List.Basic

/-!
# Fields joined and taken apart again
-/

namespace CodeAtlas.Text

variable {separator : Char}

theorem fieldsOf_ne_nil (separator : Char) (cs : List Char) : fieldsOf separator cs ≠ [] := by
  cases cs with
  | nil => simp [fieldsOf]
  | cons c cs =>
    rw [fieldsOf]
    split
    · simp
    · cases fieldsOf separator cs <;> simp [consField]

/-- A separator ends a field and begins another one. -/
theorem fieldsOf_append_separator (front back : List Char) :
    fieldsOf separator (front ++ separator :: back) = fieldsOf separator front ++ fieldsOf separator back := by
  induction front with
  | nil => simp [fieldsOf]
  | cons c front ih =>
    rw [List.cons_append, fieldsOf, fieldsOf, ih]
    obtain ⟨field, rest, hfields⟩ := List.exists_cons_of_ne_nil (fieldsOf_ne_nil separator front)
    rw [hfields]
    split <;> rfl

theorem fieldsOf_of_not_mem {cs : List Char} (h : separator ∉ cs) : fieldsOf separator cs = [cs] := by
  induction cs with
  | nil => rfl
  | cons c cs ih =>
    rw [List.mem_cons, not_or] at h
    rw [fieldsOf, ih h.2, if_neg (by simpa using Ne.symm h.1)]
    rfl

theorem not_mem_of_mem_fieldsOf {cs field : List Char} (h : field ∈ fieldsOf separator cs) :
    separator ∉ field := by
  induction cs generalizing field with
  | nil => simp_all [fieldsOf]
  | cons c cs ih =>
    rw [fieldsOf] at h
    split at h
    · rcases List.mem_cons.1 h with rfl | hlater
      · exact List.not_mem_nil
      · exact ih hlater
    · next hc =>
      obtain ⟨first, rest, hfields⟩ := List.exists_cons_of_ne_nil (fieldsOf_ne_nil separator cs)
      rw [hfields] at h ih
      rcases List.mem_cons.1 h with rfl | hlater
      · rw [List.mem_cons, not_or]
        exact ⟨fun heq => hc (by simp [heq]), ih List.mem_cons_self⟩
      · exact ih (List.mem_cons_of_mem _ hlater)

theorem fields_append_separator (front back : String) :
    fields separator (front ++ separator.toString ++ back) =
      fields separator front ++ fields separator back := by
  simp [fields, fieldsOf_append_separator]

/-- A text without separators is its only field. -/
theorem fields_of_not_mem {s : String} (h : separator ∉ s.toList) : fields separator s = [s] := by
  rw [fields, fieldsOf_of_not_mem h]
  simp

/-- There are no separators in fields. -/
theorem not_mem_of_mem_fields {s field : String} (h : field ∈ fields separator s) :
    separator ∉ field.toList := by
  obtain ⟨cs, hcs, rfl⟩ := List.mem_map.1 h
  rw [String.toList_ofList]
  exact not_mem_of_mem_fieldsOf hcs

/-- The fields of joined texts are the fields of each of them. -/
theorem fields_joined {texts : List String} (h : texts ≠ []) :
    fields separator (joined separator.toString texts) = texts.flatMap (fields separator) := by
  induction texts with
  | nil => exact absurd rfl h
  | cons text rest ih =>
    by_cases hrest : rest = []
    · simp [hrest, joined]
    · rw [joined, String.intercalate_cons_of_ne_nil hrest, fields_append_separator, ← joined, ih hrest]
      rfl

/-- The fields of a text, joined again, are the text. -/
theorem joined_fields (separator : Char) (s : String) : joined separator.toString (fields separator s) = s := by
  have hchars : ∀ cs : List Char, (joined separator.toString ((fieldsOf separator cs).map String.ofList)).toList =
      cs := by
    intro cs
    induction cs with
    | nil => rfl
    | cons c cs ih =>
      obtain ⟨field, rest, hfields⟩ := List.exists_cons_of_ne_nil (fieldsOf_ne_nil separator cs)
      rw [hfields] at ih
      rw [fieldsOf, hfields]
      split
      · next hc =>
        rw [List.map_cons, joined, String.intercalate_cons_of_ne_nil (by simp), ← joined]
        simpa using ⟨(beq_iff_eq.1 hc).symm, ih⟩
      · cases rest with
        | nil => simpa [consField, joined] using ih
        | cons second rest => simpa [consField, joined, String.intercalate_cons_cons] using ih
  rw [← String.toList_inj]
  exact hchars s.toList

/-- The characters of a field are characters of the text. -/
theorem mem_of_mem_fields {s field : String} (h : field ∈ fields separator s) {c : Char} (hc : c ∈ field.toList) :
    c ∈ s.toList := by
  have hchars : ∀ cs field : List Char, field ∈ fieldsOf separator cs → ∀ c ∈ field, c ∈ cs := by
    intro cs
    induction cs with
    | nil => simp [fieldsOf]
    | cons a cs ih =>
      intro field hfield c hc
      obtain ⟨first, rest, hfields⟩ := List.exists_cons_of_ne_nil (fieldsOf_ne_nil separator cs)
      rw [fieldsOf, hfields] at hfield
      rw [hfields] at ih
      split at hfield
      · rcases List.mem_cons.1 hfield with rfl | hlater
        · cases hc
        · exact List.mem_cons_of_mem _ (ih field hlater c hc)
      · rcases List.mem_cons.1 hfield with rfl | hlater
        · rcases List.mem_cons.1 hc with rfl | hc
          · exact List.mem_cons_self
          · exact List.mem_cons_of_mem _ (ih first List.mem_cons_self c hc)
        · exact List.mem_cons_of_mem _ (ih field (List.mem_cons_of_mem _ hlater) c hc)
  obtain ⟨cs, hcs, rfl⟩ := List.mem_map.1 h
  rw [String.toList_ofList] at hc
  exact hchars s.toList cs hcs c hc

/-- The characters of joined texts are those of the texts and of what is between them. -/
theorem mem_of_mem_joined {between : String} {texts : List String} {c : Char} (h : c ∈ (joined between texts).toList) :
    c ∈ between.toList ∨ ∃ text ∈ texts, c ∈ text.toList := by
  induction texts with
  | nil => cases h
  | cons text rest ih =>
    by_cases hrest : rest = []
    · subst hrest
      exact Or.inr ⟨text, List.mem_cons_self, by simpa [joined] using h⟩
    · rw [joined, String.intercalate_cons_of_ne_nil hrest, ← joined, String.toList_append, String.toList_append,
        List.mem_append, List.mem_append] at h
      rcases h with (h | h) | h
      · exact Or.inr ⟨text, List.mem_cons_self, h⟩
      · exact Or.inl h
      · obtain hbetween | ⟨text', htext', hc⟩ := ih h
        · exact Or.inl hbetween
        · exact Or.inr ⟨text', List.mem_cons_of_mem _ htext', hc⟩

/-! ### Room -/

theorem size_joined {between : String} {texts : List String} (h : texts ≠ []) :
    (joined between texts).utf8ByteSize + between.utf8ByteSize =
      (texts.map fun text => text.utf8ByteSize + between.utf8ByteSize).sum := by
  induction texts with
  | nil => exact absurd rfl h
  | cons text rest ih =>
    by_cases hrest : rest = []
    · simp [hrest, joined]
    · rw [joined, String.intercalate_cons_of_ne_nil hrest, ← joined, List.map_cons, List.sum_cons, ← ih hrest,
        String.utf8ByteSize_append, String.utf8ByteSize_append]
      omega

/-- Fewer texts take less room. -/
theorem size_joined_le (between : String) {texts all : List String} (h : texts.Sublist all) (htexts : texts ≠ []) :
    (joined between texts).utf8ByteSize ≤ (joined between all).utf8ByteSize := by
  have hall : all ≠ [] := by
    rintro rfl
    exact htexts (List.sublist_nil.1 h)
  have hsum := (h.map fun text : String => text.utf8ByteSize + between.utf8ByteSize).sum_le_sum fun _ _ => Nat.zero_le _
  rw [← size_joined htexts, ← size_joined hall] at hsum
  omega

end CodeAtlas.Text

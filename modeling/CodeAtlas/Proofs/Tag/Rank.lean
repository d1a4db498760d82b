import CodeAtlas.Proofs.Sorting
import CodeAtlas.Tag.Rank
import Mathlib.Data.List.FinRange
import Mathlib.Data.Prod.Lex

/-!
# The ranks of tags

Tags are sorted by their keys: the negated score, the file and the line.  Where two tags have one key, the one that is
given first comes first.  So the order of two positions depends on the two tags there and on nothing else, and a tag
that gains points passes others but is passed by none.
-/

namespace CodeAtlas

/-- What can be talked about: a file of the chat, a file that is mentioned, or a name. -/
inductive Topic
  | chatFile | mentionedFile | mentionedName

/-- Whether a tag is of the file, or of the name, that is talked about. -/
def Topic.Concerns : Topic → String → Tag → Prop
  | chatFile, x, t | mentionedFile, x, t => t.relFile = x
  | mentionedName, x, t => t.name = x

namespace Interest

variable {i : Interest} {topic : Topic} {x : String} {t : Tag} {tags : List Tag}

/-- One more file or name is talked about. -/
def mention (i : Interest) (topic : Topic) (x : String) : Interest :=
  match topic with
  | .chatFile => { i with chatFiles := x :: i.chatFiles }
  | .mentionedFile => { i with mentionedFiles := x :: i.mentionedFiles }
  | .mentionedName => { i with mentionedNames := x :: i.mentionedNames }

/-! ### Scores -/

theorem points_mono {n : Nat} {c c' : Bool} (h : c = true → c' = true) : points n c ≤ points n c' := by
  cases c with
  | false => exact Nat.zero_le _
  | true => rw [h rfl]

/-- Whoever talks about more gives no tag fewer points. -/
theorem score_mono {j : Interest} (hchat : i.chatFiles ⊆ j.chatFiles) (hfiles : i.mentionedFiles ⊆ j.mentionedFiles)
    (hnames : i.mentionedNames ⊆ j.mentionedNames) (t : Tag) : i.score t ≤ j.score t := by
  have hcontains : ∀ {xs ys : List String} {y : String}, xs ⊆ ys → xs.contains y = true → ys.contains y = true := by
    intro xs ys y hsub hy
    exact List.contains_iff_mem.2 (hsub (List.contains_iff_mem.1 hy))
  have h₁ : points 10 (i.chatFiles.contains t.relFile) ≤ points 10 (j.chatFiles.contains t.relFile) :=
    points_mono (hcontains hchat)
  have h₂ : points 5 (i.mentionedFiles.contains t.relFile) ≤ points 5 (j.mentionedFiles.contains t.relFile) :=
    points_mono (hcontains hfiles)
  have h₃ : points 10 (i.mentionedNames.contains t.name) ≤ points 10 (j.mentionedNames.contains t.name) :=
    points_mono (hcontains hnames)
  unfold score
  omega

theorem score_le_mention (i : Interest) (topic : Topic) (x : String) (t : Tag) :
    i.score t ≤ (i.mention topic x).score t := by
  cases topic with
  | chatFile =>
    apply score_mono
    · exact List.subset_cons_self _ _
    · exact List.Subset.refl _
    · exact List.Subset.refl _
  | mentionedFile =>
    apply score_mono
    · exact List.Subset.refl _
    · exact List.subset_cons_self _ _
    · exact List.Subset.refl _
  | mentionedName =>
    apply score_mono
    · exact List.Subset.refl _
    · exact List.Subset.refl _
    · exact List.subset_cons_self _ _

theorem score_mention_of_not_concerns (h : ¬topic.Concerns x t) : (i.mention topic x).score t = i.score t := by
  have hcontains : ∀ {xs : List String} {y : String}, y ≠ x → (x :: xs).contains y = xs.contains y := by
    intro xs y hne
    rw [List.contains_cons, beq_eq_false_iff_ne.2 hne, Bool.false_or]
  cases topic with
  | chatFile => simp only [score, mention, hcontains h]
  | mentionedFile => simp only [score, mention, hcontains h]
  | mentionedName => simp only [score, mention, hcontains h]

/-! ### Positions -/

/-- What tags are sorted by: the most points first, then files and lines. -/
def key (i : Interest) (t : Tag) : Lex (Int × Lex (String × Int)) :=
  toLex (-(i.score t : Int), toLex (t.relFile, t.line))

theorem key_lt_iff {s t : Tag} : i.key s < i.key t ↔ i.score t < i.score s ∨
    i.score s = i.score t ∧ (s.relFile < t.relFile ∨ s.relFile = t.relFile ∧ s.line < t.line) := by
  simp only [key, Prod.Lex.toLex_lt_toLex, Int.neg_lt_neg_iff, Int.neg_inj, Int.ofNat_lt, Int.ofNat_inj]

theorem before_iff (s t : Tag) : i.before s t = true ↔ i.key s < i.key t := by
  simp [key_lt_iff, before, textBefore]

/-- The positions of tags in the order of their ranks. -/
def order (i : Interest) (tags : List Tag) : List (Fin tags.length) :=
  sortBy (fun a b => i.before tags[a] tags[b]) (List.finRange tags.length)

/-- One position is ranked before another one. -/
def RankedBefore (i : Interest) (tags : List Tag) (a b : Fin tags.length) : Prop :=
  [a, b].Sublist (i.order tags)

/-- The ranked tags are those at the positions in their order. -/
theorem map_order (i : Interest) (tags : List Tag) : (i.order tags).map (fun a => tags[a]) = i.rank tags := by
  rw [order, map_sortBy (fun a : Fin tags.length => tags[a]), rank]
  congr 1
  exact List.map_get_finRange tags

theorem mem_order (a : Fin tags.length) : a ∈ i.order tags :=
  (sortBy_perm _ _).mem_iff.2 (List.mem_finRange a)

theorem order_pairwise (i : Interest) (tags : List Tag) : (i.order tags).Pairwise fun a b =>
    i.key tags[a] < i.key tags[b] ∨ i.key tags[a] = i.key tags[b] ∧ a < b :=
  (sortBy_stablySorted (fun a b => before_iff tags[a] tags[b]) _).pairwise_or (List.pairwise_lt_finRange _)

/-- Of two positions, the one with the lesser key is ranked before the other one, and of one key the first. -/
theorem rankedBefore_iff {a b : Fin tags.length} :
    i.RankedBefore tags a b ↔ i.key tags[a] < i.key tags[b] ∨ i.key tags[a] = i.key tags[b] ∧ a < b := by
  constructor
  · exact List.pairwise_iff_forall_sublist.1 (order_pairwise i tags)
  · intro h
    have hne : a ≠ b := by
      rintro rfl
      exact h.elim (lt_irrefl _) fun h => lt_irrefl _ h.2
    obtain ⟨front, back, horder⟩ := List.append_of_mem (mem_order (i := i) a)
    have hb : b ∈ front ++ a :: back := horder ▸ mem_order b
    obtain hfront | rfl | hback := by simpa using hb
    · -- then the two would stand the other way round
      have hsub : [b, a].Sublist (i.order tags) := by
        rw [horder]
        exact (List.singleton_sublist.2 hfront).append (List.singleton_sublist.2 List.mem_cons_self)
      obtain hlt | ⟨heq, hlt⟩ := List.pairwise_iff_forall_sublist.1 (order_pairwise i tags) hsub
      · obtain hgt | ⟨heq, -⟩ := h
        · exact absurd hlt hgt.asymm
        · exact absurd heq hlt.ne'
      · obtain hgt | ⟨-, hgt⟩ := h
        · exact absurd heq hgt.ne'
        · exact absurd hlt hgt.asymm
    · exact absurd rfl hne
    · rw [RankedBefore, horder]
      exact ((List.singleton_sublist.2 hback).cons_cons a).trans (List.sublist_append_right _ _)

/-! ### Mentioning -/

theorem key_mention_le (i : Interest) (topic : Topic) (x : String) (t : Tag) : (i.mention topic x).key t ≤ i.key t := by
  have hscore : i.score t ≤ (i.mention topic x).score t := score_le_mention i topic x t
  rw [key, key, Prod.Lex.toLex_le_toLex]
  by_cases heq : i.score t = (i.mention topic x).score t
  · exact .inr ⟨by rw [heq], le_rfl⟩
  · exact .inl (by dsimp only; omega)

/-- **Mentioning something never demotes it.**  Ranked tags are the given ones, in another order, and more points come
first.  If one more file or name is talked about, then of two positions of which one has to do with it and the other one
does not, the former is still ranked before the latter if it was. -/
theorem rank_mention (i : Interest) (topic : Topic) (x : String) (tags : List Tag) :
    (i.rank tags).Perm tags ∧ (i.order tags).map (fun a => tags[a]) = i.rank tags ∧
      (∀ a b : Fin tags.length, i.score tags[b] < i.score tags[a] → i.RankedBefore tags a b) ∧
      ∀ a b : Fin tags.length, topic.Concerns x tags[a] → ¬topic.Concerns x tags[b] →
        i.RankedBefore tags a b → (i.mention topic x).RankedBefore tags a b := by
  refine ⟨sortBy_perm _ _, map_order i tags, ?_, ?_⟩
  · intro a b hscore
    exact rankedBefore_iff.2 (.inl (key_lt_iff.2 (.inl hscore)))
  · intro a b ha hb hab
    have hkey : (i.mention topic x).key tags[b] = i.key tags[b] := by
      rw [key, key, score_mention_of_not_concerns hb]
    have hle : (i.mention topic x).key tags[a] ≤ i.key tags[a] := key_mention_le i topic x tags[a]
    rw [rankedBefore_iff, hkey]
    obtain hlt | ⟨heq, hpos⟩ := rankedBefore_iff.1 hab
    · exact .inl (hle.trans_lt hlt)
    · obtain hlt | hsame := (hle.trans heq.le).lt_or_eq
      · exact .inl hlt
      · exact .inr ⟨hsame, hpos⟩

/-- Two names on one line of a file, of which the first one is mentioned, with one of them given twice. -/
theorem rank_mention_one_line :
    ({} : Interest).RankedBefore [⟨"a", "a", 1, "f", "function"⟩, ⟨"a", "a", 1, "g", "function"⟩,
      ⟨"a", "a", 1, "f", "function"⟩] 0 1 ∧
    (({} : Interest).mention .mentionedName "f").RankedBefore [⟨"a", "a", 1, "f", "function"⟩,
      ⟨"a", "a", 1, "g", "function"⟩, ⟨"a", "a", 1, "f", "function"⟩] 0 1 := by
  have hbefore : ({} : Interest).RankedBefore [⟨"a", "a", 1, "f", "function"⟩, ⟨"a", "a", 1, "g", "function"⟩,
      ⟨"a", "a", 1, "f", "function"⟩] 0 1 := rankedBefore_iff.2 (.inr ⟨by decide +kernel, by decide⟩)
  exact ⟨hbefore, (rank_mention {} .mentionedName "f" _).2.2.2 0 1 rfl (by simp [Topic.Concerns]) hbefore⟩

end Interest

end CodeAtlas

import CodeAtlas.Proofs.Grammar.Definitions
import CodeAtlas.Proofs.Section.Placed

/-!
# Definitions and their decorators in parts

Every decorator is a landmark of its own, which ends on its line.  So there is a boundary between a decorator and the
definition that it belongs to, at which a section that is too large may be cut, even if both fit into one part.
-/

namespace CodeAtlas.Section

open Grammar (Node)

/-- The lines on which the decorators of a definition start, and the line of the definition itself. -/
structure Signature where
  decorators : List Nat
  line : Nat
  deriving DecidableEq, Repr

namespace Signature

/-- The line on which the definition starts, which is that of its first decorator if it has one. -/
def top (s : Signature) : Nat := s.decorators.headD s.line

def ofNode? : Node → Option Signature
  | .definition span _ _ decorators _ => some ⟨decorators.map Grammar.Expr.line, span.first⟩
  | _ => none

/-- The decorators stand in order, and none of them behind the definition. -/
structure InOrder (s : Signature) : Prop where
  pairwise : s.decorators.Pairwise (· ≤ ·)
  le_line : ∀ n ∈ s.decorators, n ≤ s.line

theorem ofNode?_inOrder {node : Node} {s : Signature} (hnode : node.Framed) (h : ofNode? node = some s) :
    s.InOrder := by
  cases node with
  | definition span kind name decorators body =>
    obtain rfl := Option.some.inj h
    exact ⟨List.pairwise_map.2 hnode.1, by simpa using hnode.2⟩
  | _ => simp [ofNode?] at h

theorem InOrder.top_le {s : Signature} (h : s.InOrder) {n : Nat} (hn : n ∈ s.decorators) : s.top ≤ n := by
  obtain ⟨decorators, line⟩ := s
  cases decorators with
  | nil => simp at hn
  | cons first rest =>
    rcases List.mem_cons.1 hn with rfl | hn
    · exact Nat.le_refl _
    · exact List.rel_of_pairwise_cons h.pairwise hn

end Signature

/-- The signatures of all definitions in a source text.  There are none if it has no tree. -/
def signatures (content : String) : List Signature :=
  match Grammar.parse? {} content with
  | some nodes => (Node.walk nodes).filterMap Signature.ofNode?
  | none => []

section Source

variable {content : String} {s : Signature} {n : Nat}

theorem exists_of_mem_signatures (h : s ∈ signatures content) :
    ∃ nodes, Grammar.parse? {} content = some nodes ∧ ∃ node ∈ Node.walk nodes, Signature.ofNode? node = some s := by
  unfold signatures at h
  cases hparse : Grammar.parse? {} content with
  | none => simp [hparse] at h
  | some nodes => exact ⟨nodes, rfl, by simpa [hparse] using h⟩

theorem inOrder_of_mem_signatures (h : s ∈ signatures content) : s.InOrder := by
  obtain ⟨nodes, hparse, node, hnode, hs⟩ := exists_of_mem_signatures h
  exact Signature.ofNode?_inOrder (Grammar.parse?_allFramed hparse node hnode) hs

theorem decorator_mem_ends (h : s ∈ signatures content) (hn : n ∈ s.decorators) :
    n ∈ Policy.guided.ends content ".py" := by
  obtain ⟨nodes, hparse, node, hnode, hs⟩ := exists_of_mem_signatures h
  have hline : n ∈ Landmark.decoratorLines node := by
    cases node with
    | definition span kind name decorators body =>
      obtain rfl := Option.some.inj hs
      exact hn
    | _ => simp [Signature.ofNode?] at hs
  have hpython : Landmark.ofText content ".py" = Landmark.ofPython content := by
    have hlower : Text.lower ".py" = ".py" := by decide +kernel
    rw [Landmark.ofText, hlower]
    rfl
  have hlandmark : (⟨.decorator, "decorator", n, n, none⟩ : Landmark) ∈ Landmark.ofPython content := by
    simp only [Landmark.ofPython, hparse]
    exact List.mem_append_right _ (List.mem_map_of_mem (List.mem_flatMap.2 ⟨node, hnode, hline⟩))
  show n ∈ (Landmark.ofText content ".py").map (·.finish)
  rw [hpython]
  exact List.mem_map.2 ⟨_, hlandmark, rfl⟩

/-- There is a boundary directly behind every decorator that is not on the last line. -/
theorem decorator_mem_boundaries (h : s ∈ signatures content) (hn : n ∈ s.decorators)
    (hlt : n < (Text.lines content).length) :
    n ∈ Boundary.all Policy.guided.heads (Text.lines content) (Policy.guided.ends content ".py") := by
  have hend := decorator_mem_ends h hn
  simp [Boundary.all, hlt, hend]

end Source

/-- A definition that fits together with its decorators is severed from one of them exactly if the section is too
large, the first pass cuts it at a boundary between the two lines, and both lines are in some part at all.  Lines are
told by the numbers that the tree gives them. -/
theorem decorator_severed_iff (count : Counter) (limit : Int) (content : String) {s : Signature}
    (hs : s ∈ signatures content) {n : Nat} (hn : n ∈ s.decorators)
    (hfit : tokensOf count (range (Text.lines content) (s.top - 1) s.line) ≤ limit) :
    (place .guided count limit ".py" content).map Placed.text = split .guided count limit ".py" content ∧
    (Severed (place .guided count limit ".py" content) n s.line ↔
      limit < count content ∧
      (∃ k c, (passOf .guided count limit ".py" content).CutAt k c ∧ n ≤ c ∧ c < s.line) ∧
      (∃ part ∈ place .guided count limit ".py" content, part.Holds n) ∧
      ∃ part ∈ place .guided count limit ".py" content, part.Holds s.line) := by
  have horder := inOrder_of_mem_signatures hs
  have hnarrow : tokensOf count (range (Text.lines content) (n - 1) s.line) ≤ limit := by
    have htop : s.top - 1 ≤ n - 1 := Nat.sub_le_sub_right (horder.top_le hn) 1
    have hle := tokensOf_le_of_sublist count (range_sublist (Text.lines content) htop (Nat.le_refl s.line))
    exact Int.le_trans (Int.ofNat_le.2 hle) hfit
  refine ⟨map_text_place .guided count limit ".py" content, ?_⟩
  exact severed_iff (horder.le_line n hn) (decorator_mem_boundaries hs hn) hnarrow

/-- A class that is cut from its decorator, behind a function that stays with its own. -/
theorem decorator_severed_iff_class :
    signatures "@a\ndef f(): 1\n@b\nclass C: 1" = [⟨[1], 2⟩, ⟨[3], 4⟩] ∧
    tokensOf String.length (range (Text.lines "@a\ndef f(): 1\n@b\nclass C: 1") 2 4) ≤ (17 : Int) ∧
    split .guided String.length 17 ".py" "@a\ndef f(): 1\n@b\nclass C: 1" =
      ["@a\ndef f(): 1\n@b", "class C: 1"] ∧
    ¬Severed (place .guided String.length 17 ".py" "@a\ndef f(): 1\n@b\nclass C: 1") 1 2 ∧
    Severed (place .guided String.length 17 ".py" "@a\ndef f(): 1\n@b\nclass C: 1") 3 4 ∧
    ∃ k c, (passOf .guided String.length 17 ".py" "@a\ndef f(): 1\n@b\nclass C: 1").CutAt k c ∧ 3 ≤ c ∧ c < 4 := by
  have hsignatures : signatures "@a\ndef f(): 1\n@b\nclass C: 1" = [⟨[1], 2⟩, ⟨[3], 4⟩] := by decide +kernel
  have hfit : tokensOf String.length (range (Text.lines "@a\ndef f(): 1\n@b\nclass C: 1") 2 4) ≤ (17 : Int) := by
    decide +kernel
  have hsevered : Severed (place .guided String.length 17 ".py" "@a\ndef f(): 1\n@b\nclass C: 1") 3 4 := by
    decide +kernel
  refine ⟨hsignatures, hfit, by decide +kernel, by decide +kernel, hsevered, ?_⟩
  have hmem : (⟨[3], 4⟩ : Signature) ∈ signatures "@a\ndef f(): 1\n@b\nclass C: 1" := by simp [hsignatures]
  exact ((decorator_severed_iff _ 17 _ hmem (List.mem_singleton_self 3) hfit).2.1 hsevered).2.1

/-- A decorator that is left behind with the part in front of its function, although both would fit into one. -/
theorem split_severs_decorator :
    signatures "x = 1\n@d\ndef f(): pass" = [⟨[2], 3⟩] ∧
    tokensOf String.length (range (Text.lines "x = 1\n@d\ndef f(): pass") 1 3) ≤ (17 : Int) ∧
    split .guided String.length 17 ".py" "x = 1\n@d\ndef f(): pass" = ["x = 1\n@d", "def f(): pass"] ∧
    Severed (place .guided String.length 17 ".py" "x = 1\n@d\ndef f(): pass") 2 3 := by
  decide +kernel

end CodeAtlas.Section

import CodeAtlas.Grammar.Statement
import CodeAtlas.Proofs.Grammar.Lines
import CodeAtlas.Proofs.Grammar.Walk

/-!
# Definitions behind their decorators

In every statement tree that is read, the decorators of a definition stand in order, and none of them starts behind
the line of the definition itself.  The definition ends no earlier than it starts, and on a line of the source.

## Main definitions

* `Decorates` — decorators in order, in front of a line
* `Node.Framed` — a definition that stands behind its decorators
* `Node.AllFramed` — all definitions at and below some nodes do
* `Node.Placed` — a definition that stands, with its decorators, on the first lines

## Main results

* `parse?_placed` — if a source text has a tree, then its definitions stand on the lines of the text
* `parse?_allFramed` — and behind their decorators
-/

namespace CodeAtlas.Grammar

/-- Decorators that are in order, and none of which starts behind a line. -/
def Decorates (decorators : List Expr) (first : Nat) : Prop :=
  decorators.Pairwise (fun d e => d.line ≤ e.line) ∧ ∀ e ∈ decorators, e.line ≤ first

namespace Node

variable {n : Node} {limit : Nat}

/-- A definition that stands behind its decorators. -/
def Framed : Node → Prop
  | definition span _ _ decorators _ => Decorates decorators span.first
  | _ => True

/-- All definitions at and below some nodes stand behind their decorators. -/
def AllFramed (nodes : List Node) : Prop := ∀ n ∈ walk nodes, n.Framed

/-- A definition that stands behind its decorators, on lines from the first to a last one. -/
def Placed (limit : Nat) : Node → Prop
  | definition span _ _ decorators _ =>
    Decorates decorators span.first ∧ (∀ e ∈ decorators, 1 ≤ e.line) ∧
      1 ≤ span.first ∧ span.first ≤ span.last ∧ span.last ≤ limit
  | _ => True

theorem Placed.framed (h : n.Placed limit) : n.Framed := by
  cases n with
  | definition => exact h.1
  | _ => trivial

end Node

namespace Reader

variable {α : Type} {Q : Cursor → α → Prop} {x : Reader α} {limit floor : Nat} {ts : List Token}

theorem ensures_many1 (hQ : ∀ {c c' a}, Q c a → c'.tokens <:+ c.tokens → Q c' a) (h : x.Ensures limit floor [] Q) :
    (many1 x).Ensures limit floor [] fun c as => ∀ a ∈ as, Q c a := by
  unfold many1
  refine ensures_bind h fun c c' a as hstart ha hrun => ?_
  obtain ⟨rest, c₁, hrest, hpure⟩ := bind_run hrun
  cases hpure
  exact List.forall_mem_cons.2 ⟨hQ ha ((many x).advances hrest), ensures_many (Q := Q) hQ h hstart hrest⟩

/-- Expressions that start one behind the other, from a first line on and in front of what is still to come. -/
structure InOrder (floor : Nat) (ts : List Token) (es : List Expr) : Prop where
  pairwise : es.Pairwise fun d e => d.line ≤ e.line
  between : ∀ e ∈ es, floor ≤ e.line ∧ Ahead e.line ts

theorem InOrder.cons {e : Expr} {es : List Expr} (h : InOrder e.line ts es) (hfloor : floor ≤ e.line)
    (he : Ahead e.line ts) : InOrder floor ts (e :: es) where
  pairwise := List.pairwise_cons.2 ⟨fun e' he' => (h.between e' he').1, h.pairwise⟩
  between := List.forall_mem_cons.2 ⟨⟨hfloor, he⟩, fun e' he' =>
    ⟨Nat.le_trans hfloor (h.between e' he').1, (h.between e' he').2⟩⟩

-- Each expression is the first line for those behind it.
theorem upTo_inOrder {x : Reader Expr} (h : ∀ floor, x.Dates limit floor []) (n floor : Nat) :
    (upTo x n).Ensures limit floor [] fun c => InOrder floor c.tokens := by
  induction n generalizing floor with
  | zero => exact ensures_pure fun _ _ => ⟨.nil, List.forall_mem_nil _⟩
  | succ n ih =>
    unfold upTo
    refine ensures_bind (ensures_attempt (h floor)) fun c c' o es hstart ho hrun => ?_
    cases o with
    | none =>
      cases hrun
      exact ⟨.nil, List.forall_mem_nil _⟩
    | some e =>
      obtain ⟨hfloor, he⟩ := ho e rfl
      obtain ⟨rest, c₁, hrest, hpure⟩ := bind_run hrun
      cases hpure
      have hmore := ih e.line ⟨hstart.ordered, he, List.forall_mem_nil _, hstart.sound⟩ hrest
      exact hmore.cons hfloor (he.suffix ((upTo x n).advances hrest))

theorem many1_inOrder {x : Reader Expr} (h : ∀ floor, x.Dates limit floor []) :
    (many1 x).Ensures limit floor [] fun c => InOrder floor c.tokens := by
  unfold many1
  refine ensures_bind (h floor) fun c c' e es hstart hdates hrun => ?_
  obtain ⟨hfloor, he⟩ := hdates
  obtain ⟨rest, c₁, hrest, hpure⟩ := bind_run hrun
  cases hpure
  have hmany : InOrder e.line _ rest := upTo_inOrder h _ e.line ⟨hstart.ordered, he, nofun, hstart.sound⟩ hrest
  exact hmany.cons hfloor (he.suffix ((many x).advances hrest))

/-- The lines of all the expressions are known from there on. -/
theorem ensures_inOrder {β : Type} {x : Reader (List Expr)} {f : List Expr → Reader β} {R : Cursor → β → Prop}
    (hx : x.Ensures limit floor [] fun c => InOrder floor c.tokens)
    (hf : ∀ es, es.Pairwise (fun d e => d.line ≤ e.line) → (f es).Ensures limit floor (es.map Expr.line) R) :
    (x >>= f).Ensures limit floor [] R := by
  refine ensures_bind hx fun c c' es b hstart hes hrun => ?_
  refine hf es hes.pairwise ⟨hstart.ordered, hstart.floor_ahead, ?_, hstart.sound⟩ hrun
  simpa using hes.between

end Reader

namespace Statement

open Reader Expression

variable {d : Dialect} {ex : Below} {below : Reader (List Node)} {known : List Nat} {limit first : Nat}

/-- The reader gives nodes in which all definitions are in their places. -/
def Frames (limit : Nat) (r : Reader (List Node)) (known : List Nat) : Prop :=
  r.Ensures limit 1 known fun _ nodes => Node.Everywhere (Node.Placed limit) nodes

/-- The reader gives a node in which all definitions are in their places. -/
def FramesOne (limit : Nat) (r : Reader Node) (known : List Nat) : Prop :=
  r.Ensures limit 1 known fun _ n => Node.Everywhere (Node.Placed limit) [n]

theorem framesOne_pure {n : Node} (hplaced : n.Placed limit)
    (hchildren : Node.Everywhere (Node.Placed limit) n.children) : FramesOne limit (pure n) known :=
  ensures_pure fun _ _ => by simp [hplaced, hchildren]

/-! ### Statements of one line -/

/-- A node that defines nothing, with lines up to those read so far. -/
theorem framesOne_leaf {node : Nat → Node} (h : ∀ n, (node n).Placed limit ∧ (node n).children = []) :
    FramesOne limit (do return node (← lastLine)) known :=
  ensures_skip fun n => framesOne_pure (h n).1 (by simp [(h n).2])

theorem expressionStatement_frames : FramesOne limit (expressionStatement d ex first) known := by
  unfold expressionStatement
  refine ensures_skip fun e => ensures_skip fun _ => ensures_ite ?_ ?_
  · have hdone : FramesOne limit (do return .annotated ⟨first, ← lastLine⟩ e) known :=
      framesOne_leaf fun _ => ⟨trivial, rfl⟩
    refine ensures_skip fun _ => ensures_skip fun _ => ensures_skip fun _ => ensures_ite ?_ hdone
    exact ensures_skip fun _ => hdone
  refine ensures_skip fun _ => ensures_ite (ensures_skip fun _ => framesOne_leaf fun _ => ⟨trivial, rfl⟩) ?_
  refine ensures_skip fun _ => ensures_ite ?_ (framesOne_leaf fun _ => ⟨trivial, rfl⟩)
  exact ensures_skip fun _ => ensures_skip fun _ => ensures_skip fun _ => framesOne_leaf fun _ => ⟨trivial, rfl⟩

theorem importFrom_frames : FramesOne limit (importFrom first) known := by
  unfold importFrom
  refine ensures_skip fun _ => ensures_skip fun _ => ensures_skip fun _ => ensures_ite ?_ ?_
  · refine ensures_skip fun _ => ensures_skip fun _ => ensures_skip fun _ => ensures_skip fun _ => ?_
    exact framesOne_leaf fun _ => ⟨trivial, rfl⟩
  · exact ensures_skip fun _ => ensures_skip fun _ => ensures_skip fun _ => framesOne_leaf fun _ => ⟨trivial, rfl⟩

theorem simple_frames : FramesOne limit (simple d ex) known := by
  unfold simple
  refine ensures_line fun first => ?_
  have hdone : FramesOne limit (do return .simple ⟨first, ← lastLine⟩) (first :: known) :=
    framesOne_leaf fun _ => ⟨trivial, rfl⟩
  refine ensures_skip fun _ => ensures_ite (ensures_skip fun _ => hdone) ?_
  refine ensures_skip fun _ => ensures_ite (ensures_skip fun _ => framesOne_leaf fun _ => ⟨trivial, rfl⟩) ?_
  refine ensures_skip fun _ => ensures_ite importFrom_frames ?_
  refine ensures_skip fun _ => ensures_ite ?_ ?_
  · refine ensures_skip fun _ => ensures_ite ?_ hdone
    exact ensures_skip fun _ => ensures_ite (ensures_skip fun _ => hdone) hdone
  refine ensures_skip fun _ => ensures_ite hdone ?_
  refine ensures_skip fun _ => ensures_ite hdone ?_
  refine ensures_skip fun _ => ensures_ite hdone ?_
  refine ensures_skip fun _ => ensures_ite (ensures_skip fun _ => ensures_skip fun _ => hdone) ?_
  refine ensures_skip fun _ => ensures_ite (ensures_skip fun _ => hdone) ?_
  refine ensures_skip fun _ => ensures_ite ?_ ?_
  · refine ensures_skip fun _ => ensures_skip fun _ => ensures_ite (ensures_skip fun _ => hdone) hdone
  refine ensures_skip fun _ => ensures_ite (ensures_skip fun _ => framesOne_leaf fun _ => ⟨trivial, rfl⟩) ?_
  exact ensures_skip fun _ => ensures_ite (ensures_skip fun _ => hdone) expressionStatement_frames

theorem simples_frames : Frames limit (simples d ex) known := by
  unfold simples
  have hmore : (do op ";"; simple d ex).Ensures limit 1 [] fun _ n => Node.Everywhere (Node.Placed limit) [n] :=
    ensures_skip fun _ => simple_frames
  refine ensures_keep simple_frames fun n hn => ensures_keep (ensures_many (fun h _ => h) hmore) fun rest hrest => ?_
  refine ensures_skip fun _ => ensures_skip fun _ => ensures_pure fun _ _ => ?_
  exact Node.everywhere_of_mem (List.forall_mem_cons.2 ⟨hn, hrest⟩)

/-! ### Blocks -/

theorem block_frames (hbelow : Frames limit below []) : Frames limit (block d ex below) known := by
  unfold block
  refine ensures_skip fun _ => ensures_ite ?_ simples_frames
  refine ensures_skip fun _ => ensures_keep (ensures_many1 (fun h _ => h) hbelow) fun parts hparts => ?_
  exact ensures_skip fun _ => ensures_pure fun _ _ => Node.everywhere_flatten hparts

theorem wordBlock_frames (hbelow : Frames limit below []) (keyword : String) :
    Frames limit (wordBlock d ex below keyword) known := by
  unfold wordBlock
  refine ensures_skip fun _ => ensures_ite ?_ (ensures_pure fun _ _ => Node.everywhere_nil)
  exact ensures_skip fun _ => block_frames hbelow

/-- A definition with its first line and its decorators, of which the last lexeme has just been read. -/
def Defines (limit first : Nat) (decorators : List Expr) (c : Cursor) (n : Node) : Prop :=
  ∃ kind name body, n = .definition ⟨first, c.lastLine⟩ kind name decorators body ∧
    Node.Everywhere (Node.Placed limit) body

theorem definition_defines (hbelow : Frames limit below []) {kind : DefinitionKind} {name : String}
    {decorators : List Expr} : (do
      let body ← block d ex below
      return .definition ⟨first, ← lastLine⟩ kind name decorators body : Reader Node).Ensures limit 1 known
        (Defines limit first decorators) := by
  refine ensures_keep (block_frames hbelow) fun body hbody => ?_
  intro c c' n _ hrun
  cases hrun
  exact ⟨kind, name, body, rfl, hbody⟩

/-- A definition starts with a word, so its last lexeme stands behind its first line. -/
theorem framesOne_of_defines {text : String} {f : Unit → Reader Node} {decorators : List Expr}
    (h : (word text >>= f).Ensures limit 1 known (Defines limit first decorators)) (hfirst : first ∈ known)
    (hknown : ∀ e ∈ decorators, e.line ∈ known) (hdecorates : Decorates decorators first) :
    FramesOne limit (word text >>= f) known := by
  intro c c' n hstart hrun
  obtain ⟨kind, name, body, rfl, hbody⟩ := h hstart hrun
  have hpos : ∀ e ∈ decorators, 1 ≤ e.line := fun e he => (hstart.known_ahead _ (hknown e he)).1
  have hplaced : (Node.definition ⟨first, c'.lastLine⟩ kind name decorators body).Placed limit :=
    ⟨hdecorates, hpos, (hstart.known_ahead first hfirst).1, hstart.lastLine_of_word hrun hfirst⟩
  exact Node.everywhere_cons.2 ⟨hplaced, hbody, Node.everywhere_nil⟩

theorem function_frames (hbelow : Frames limit below []) {kind : DefinitionKind} {decorators : List Expr}
    (hfirst : first ∈ known) (hknown : ∀ e ∈ decorators, e.line ∈ known) (h : Decorates decorators first) :
    FramesOne limit (function d ex below first kind decorators) known := by
  unfold function
  refine framesOne_of_defines ?_ hfirst hknown h
  refine ensures_skip fun _ => ensures_skip fun name => ensures_skip fun _ => ensures_skip fun _ => ?_
  refine ensures_skip fun _ => ensures_skip fun _ => ensures_ite (ensures_skip fun _ => ?_) ?_
  all_goals exact ensures_skip fun _ => ensures_skip fun _ => definition_defines hbelow

theorem classDefinition_frames (hbelow : Frames limit below []) {decorators : List Expr} (hfirst : first ∈ known)
    (hknown : ∀ e ∈ decorators, e.line ∈ known) (h : Decorates decorators first) :
    FramesOne limit (classDefinition d ex below first decorators) known := by
  unfold classDefinition
  refine framesOne_of_defines ?_ hfirst hknown h
  refine ensures_skip fun _ => ensures_skip fun name => ensures_skip fun _ => ensures_ite (ensures_skip fun _ => ?_) ?_
  all_goals exact ensures_skip fun _ => definition_defines hbelow

/-- A statement with a block, and perhaps another one after `else`. -/
theorem loop_frames (hbelow : Frames limit below []) : FramesOne limit (do
    let body ← block d ex below
    let alternative ← wordBlock d ex below "else"
    return .compound ⟨first, ← lastLine⟩ (body ++ alternative)) known := by
  refine ensures_keep (block_frames hbelow) fun body hbody => ?_
  refine ensures_keep (wordBlock_frames hbelow _) fun alternative halternative => ensures_skip fun _ => ?_
  exact framesOne_pure trivial (Node.everywhere_append.2 ⟨hbody, halternative⟩)

theorem forLoop_frames (hbelow : Frames limit below []) : FramesOne limit (forLoop d ex below first) known := by
  unfold forLoop
  refine ensures_skip fun _ => ensures_skip fun _ => ensures_skip fun _ => ensures_skip fun _ => ?_
  exact ensures_skip fun _ => ensures_skip fun _ => loop_frames hbelow

theorem withBlock_frames (hbelow : Frames limit below []) {isAsync : Bool} :
    FramesOne limit (withBlock d ex below first isAsync) known := by
  unfold withBlock
  refine ensures_skip fun _ => ensures_skip fun _ => ensures_ite ?_ ?_
  · refine ensures_skip fun _ => ensures_keep (block_frames hbelow) fun body hbody => ?_
    exact ensures_skip fun _ => framesOne_pure trivial hbody
  · refine ensures_skip fun _ => ensures_skip fun _ => ensures_skip fun _ => ?_
    refine ensures_keep (block_frames hbelow) fun body hbody => ?_
    exact ensures_skip fun _ => framesOne_pure trivial hbody

theorem asyncStatement_frames (hbelow : Frames limit below []) {decorators : List Expr}
    (horder : decorators.Pairwise fun d e => d.line ≤ e.line) (hknown : ∀ e ∈ decorators, e.line ∈ known) :
    FramesOne limit (asyncStatement d ex below decorators) known := by
  unfold asyncStatement
  refine ensures_line_above fun first habove => ensures_skip fun _ => ensures_skip fun _ => ensures_skip fun _ => ?_
  have hdecorates : Decorates decorators first := ⟨horder, fun e he => habove _ (hknown e he)⟩
  have hmem : ∀ e ∈ decorators, e.line ∈ first :: known := fun e he => List.mem_cons_of_mem first (hknown e he)
  refine ensures_ite (function_frames hbelow List.mem_cons_self hmem hdecorates) ?_
  exact ensures_skip fun _ => ensures_skip fun _ => ensures_ite (forLoop_frames hbelow) (withBlock_frames hbelow)

theorem decorated_frames (hex : ∀ goal floor, (ex goal).Dates limit floor []) (hbelow : Frames limit below []) :
    FramesOne limit (decorated d ex below) [] := by
  unfold decorated
  have hone (floor : Nat) : (do
      op "@"
      let e ← named d ex
      kind .newline
      return e).Dates limit floor [] :=
    ensures_skip fun _ => ensures_dated (named_dates hex) fun e => ensures_skip fun _ => dates_pure (by simp)
  refine ensures_inOrder (many1_inOrder hone) fun decorators horder => ?_
  have hmem : ∀ e ∈ decorators, e.line ∈ decorators.map Expr.line := fun e => List.mem_map_of_mem
  refine ensures_line_above fun first habove => ?_
  have hdecorates : Decorates decorators first := ⟨horder, fun e he => habove _ (hmem e he)⟩
  have hknown : ∀ e ∈ decorators, e.line ∈ first :: decorators.map Expr.line :=
    fun e he => List.mem_cons_of_mem first (hmem e he)
  refine ensures_skip fun _ => ensures_ite ?_ ?_
  · exact ensures_skip fun _ => ensures_skip fun _ => asyncStatement_frames hbelow horder hknown
  · refine ensures_skip fun _ => ensures_ite ?_ ?_
    · exact classDefinition_frames hbelow List.mem_cons_self hknown hdecorates
    · exact function_frames hbelow List.mem_cons_self hknown hdecorates

/-! ### Other compound statements -/

theorem everywhere_compound {span : Span} {body : List Node} :
    Node.Everywhere (Node.Placed limit) [.compound span body] ↔ Node.Everywhere (Node.Placed limit) body := by
  simp [Node.Placed, Node.children]

/-- Further conditions, each of which is a statement below the one before it. -/
theorem everywhere_nested {last : Nat} {others : List (Nat × List Node)} {alternative : List Node}
    (h : ∀ other ∈ others, Node.Everywhere (Node.Placed limit) other.2)
    (halternative : Node.Everywhere (Node.Placed limit) alternative) :
    Node.Everywhere (Node.Placed limit)
      (others.foldr (fun (line, body) inner => [.compound ⟨line, last⟩ (body ++ inner)]) alternative) := by
  induction others with
  | nil => exact halternative
  | cons other others ih =>
    obtain ⟨hother, hothers⟩ := List.forall_mem_cons.1 h
    exact everywhere_compound.2 (Node.everywhere_append.2 ⟨hother, ih hothers⟩)

theorem choice_frames (hbelow : Frames limit below []) : FramesOne limit (choice d ex below first) known := by
  unfold choice
  refine ensures_skip fun _ => ensures_skip fun _ => ensures_skip fun _ => ?_
  refine ensures_keep (block_frames hbelow) fun body hbody => ?_
  have hone : (do
      let line ← line
      word "elif"
      let _ ← named d ex
      op ":"
      return (line, ← block d ex below)).Ensures limit 1 []
        fun _ other => Node.Everywhere (Node.Placed limit) other.2 := by
    refine ensures_skip fun _ => ensures_skip fun _ => ensures_skip fun _ => ensures_skip fun _ => ?_
    exact ensures_keep (block_frames hbelow) fun body hbody => ensures_pure fun _ _ => hbody
  refine ensures_keep (ensures_many (fun h _ => h) hone) fun others hothers => ?_
  refine ensures_keep (wordBlock_frames hbelow _) fun alternative halternative => ensures_skip fun last => ?_
  exact framesOne_pure trivial (Node.everywhere_append.2 ⟨hbody, everywhere_nested hothers halternative⟩)

theorem whileLoop_frames (hbelow : Frames limit below []) : FramesOne limit (whileLoop d ex below first) known := by
  unfold whileLoop
  exact ensures_skip fun _ => ensures_skip fun _ => ensures_skip fun _ => loop_frames hbelow

/-- A block that is the body of a handler or of a case. -/
theorem clause_frames (hbelow : Frames limit below []) :
    FramesOne limit (do op ":"; return .clause (← block d ex below)) known :=
  ensures_skip fun _ => ensures_keep (block_frames hbelow) fun _ hbody => framesOne_pure trivial hbody

theorem handler_frames (hbelow : Frames limit below []) {group : Bool} :
    FramesOne limit (handler d ex below group) known := by
  unfold handler
  refine ensures_skip fun _ => ensures_ite (ensures_skip fun _ => ?_) ?_
  all_goals
    refine ensures_skip fun _ => ensures_ite (ensures_skip fun _ => ensures_skip fun _ => ?_) (clause_frames hbelow)
    exact ensures_ite (ensures_skip fun _ => clause_frames hbelow) (clause_frames hbelow)

theorem guarded_frames (hbelow : Frames limit below []) : FramesOne limit (guarded d ex below first) known := by
  unfold guarded
  refine ensures_skip fun _ => ensures_skip fun _ => ensures_keep (block_frames hbelow) fun body hbody => ?_
  refine ensures_skip fun _ => ensures_ite ?_ ?_
  · refine ensures_keep (wordBlock_frames hbelow _) fun final hfinal => ensures_skip fun _ => ?_
    exact framesOne_pure trivial (Node.everywhere_append.2 ⟨hbody, hfinal⟩)
  refine ensures_skip fun group => ensures_skip fun _ => ?_
  refine ensures_keep (ensures_many1 (fun h _ => h) (handler_frames hbelow)) fun handlers hhandlers => ?_
  refine ensures_keep (wordBlock_frames hbelow _) fun alternative halternative => ?_
  refine ensures_keep (wordBlock_frames hbelow _) fun final hfinal => ensures_skip fun _ => framesOne_pure trivial ?_
  simp [Node.children, hbody, Node.everywhere_of_mem hhandlers, halternative, hfinal]

theorem matchCase_frames (hbelow : Frames limit below []) {depth : Nat} :
    FramesOne limit (matchCase d ex below depth) known := by
  unfold matchCase
  refine ensures_skip fun _ => ensures_skip fun _ => ensures_skip fun _ => ?_
  exact ensures_ite (ensures_skip fun _ => clause_frames hbelow) (clause_frames hbelow)

theorem matchCases_frames (hbelow : Frames limit below []) {depth : Nat} :
    FramesOne limit (matchCases d ex below first depth) known := by
  unfold matchCases
  refine ensures_skip fun _ => ensures_skip fun _ => ?_
  refine ensures_keep (ensures_many1 (fun h _ => h) (matchCase_frames hbelow)) fun cases hcases => ?_
  exact ensures_skip fun _ => ensures_skip fun _ => framesOne_pure trivial (Node.everywhere_of_mem hcases)

theorem frames_one {r : Reader Node} (h : FramesOne limit r known) : Frames limit (do return [← r]) known := by
  intro c c' nodes hstart hrun
  obtain ⟨n, c₁, hr, hpure⟩ := bind_run hrun
  cases hpure
  exact h hstart hr

theorem statement_frames (hex : ∀ goal floor, (ex goal).Dates limit floor []) (hbelow : Frames limit below [])
    {depth : Nat} : Frames limit (statement d ex depth below) [] := by
  unfold statement
  refine ensures_line fun first => ?_
  have hfirst : first ∈ [first] := List.mem_cons_self
  have hplain : Decorates [] first := ⟨.nil, nofun⟩
  refine ensures_skip fun _ => ensures_ite (frames_one ((decorated_frames hex hbelow).weaken _)) ?_
  refine ensures_skip fun _ => ensures_ite (frames_one (asyncStatement_frames hbelow .nil nofun)) ?_
  refine ensures_skip fun _ => ensures_ite (frames_one (function_frames hbelow hfirst nofun hplain)) ?_
  refine ensures_skip fun _ => ensures_ite (frames_one (classDefinition_frames hbelow hfirst nofun hplain)) ?_
  refine ensures_skip fun _ => ensures_ite (frames_one (choice_frames hbelow)) ?_
  refine ensures_skip fun _ => ensures_ite (frames_one (forLoop_frames hbelow)) ?_
  refine ensures_skip fun _ => ensures_ite (frames_one (whileLoop_frames hbelow)) ?_
  refine ensures_skip fun _ => ensures_ite (frames_one (withBlock_frames hbelow)) ?_
  refine ensures_skip fun _ => ensures_ite (frames_one (guarded_frames hbelow)) ?_
  refine ensures_skip fun _ => ensures_ite ?_ simples_frames
  exact ensures_skip fun _ => ensures_ite (frames_one (matchCases_frames hbelow)) simples_frames

theorem read_frames (hex : ∀ goal floor, (ex goal).Dates limit floor []) (exprDepth depth : Nat) :
    Frames limit (read d ex exprDepth depth) [] := by
  induction depth with
  | zero => exact ensures_failure
  | succ depth ih => exact statement_frames hex ih

theorem wholeModule_frames (depth : Nat) : Frames limit (wholeModule d depth) [] := by
  unfold wholeModule
  have hread : Frames limit (read d (Expression.read d depth) depth depth) [] :=
    read_frames (read_dates depth) depth depth
  refine ensures_keep (ensures_many (fun h _ => h) hread) fun parts hparts => ?_
  exact ensures_skip fun _ => ensures_pure fun _ _ => Node.everywhere_flatten hparts

end Statement

/-- In the tree of a source text every definition stands on the physical lines of the text. -/
theorem parse?_placed {d : Dialect} {source : String} {nodes : List Node} (h : parse? d source = some nodes) :
    Node.Everywhere (Node.Placed (Text.physicalLines source.toList).length) nodes := by
  obtain ⟨tokens, htokens, h⟩ := Option.bind_eq_some_iff.1 h
  obtain ⟨⟨read, rest⟩, hread, h⟩ := Option.bind_eq_some_iff.1 h
  cases h
  have hsound := Token.scan_sound htokens
  rw [← Text.physicalLines_eq_cut] at hsound
  refine Statement.wholeModule_frames _ ⟨Token.scan_ordered htokens, ?_, nofun, ?_⟩ hread
  · intro t ht
    exact (hsound t ht).1
  · intro t ht
    exact (hsound t ht).2

/-- In the tree of a source text every definition stands behind its decorators. -/
theorem parse?_allFramed {d : Dialect} {source : String} {nodes : List Node} (h : parse? d source = some nodes) :
    Node.AllFramed nodes :=
  fun n hn => (parse?_placed h n hn).framed

end CodeAtlas.Grammar

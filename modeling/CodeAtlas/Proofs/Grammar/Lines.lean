import CodeAtlas.Grammar.Expression
import CodeAtlas.Proofs.Grammar.Tokens

/-!
# The lines of expressions

Tokens are read in the order of their lines.  So what is read starts no earlier than the tokens in front of which
reading began, and no later than those still to come.

## Main definitions

* `Ahead` — no token stands in front of a line
* `Reader.Ensures` — what a reader gives, from tokens in the order of their lines
* `Reader.Dates` — expressions that start between the tokens before and those still to come

## Main results

* `Expression.read_dates` — every expression starts there
-/

namespace CodeAtlas.Grammar

/-- No token stands in front of a line. -/
def Ahead (line : Nat) (ts : List Token) : Prop := ∀ t ∈ ts, line ≤ t.line

theorem Ahead.suffix {line : Nat} {ts ts' : List Token} (h : Ahead line ts) (hsuffix : ts' <:+ ts) : Ahead line ts' :=
  fun t ht => h t (hsuffix.subset ht)

theorem Token.Ordered.suffix {ts ts' : List Token} (h : Ordered ts) (hsuffix : ts' <:+ ts) : Ordered ts' :=
  List.Pairwise.sublist hsuffix.sublist h

theorem Token.Ordered.ahead_head {t : Token} {ts : List Token} (h : Ordered ts) (ht : ts.head? = some t) :
    Ahead t.line ts := by
  cases ts with
  | nil => simp at ht
  | cons u rest =>
    obtain rfl : u = t := by simpa using ht
    intro v hv
    rcases List.mem_cons.1 hv with rfl | hv
    · exact Nat.le_refl _
    · exact List.rel_of_pairwise_cons h hv

namespace Reader

variable {α β : Type}

/-- Tokens in the order of their lines, behind a first line, and behind some lines that are known.  The lexemes among
them end on lines up to a last one. -/
structure Start (limit floor : Nat) (known : List Nat) (ts : List Token) : Prop where
  ordered : Token.Ordered ts
  floor_ahead : Ahead floor ts
  known_ahead : ∀ n ∈ known, floor ≤ n ∧ Ahead n ts
  sound : ∀ t ∈ ts, t.EndsBy limit

/-- From such tokens the reader gives a result, and stops at a cursor, with a certain property. -/
def Ensures (r : Reader α) (limit floor : Nat) (known : List Nat) (Q : Cursor → α → Prop) : Prop :=
  ∀ ⦃c c' : Cursor⦄ ⦃a : α⦄, Start limit floor known c.tokens → r.run c = some (a, c') → Q c' a

/-- The expression starts no earlier than the first line, and no later than what is still to come. -/
def Dates (r : Reader Expr) (limit floor : Nat) (known : List Nat) : Prop :=
  r.Ensures limit floor known fun c e => floor ≤ e.line ∧ Ahead e.line c.tokens

variable {limit floor : Nat} {known : List Nat} {P Q : Cursor → α → Prop} {R : Cursor → β → Prop}
variable {x y : Reader α} {f : α → Reader β} {ts ts' : List Token}

theorem Start.suffix (h : Start limit floor known ts) (hsuffix : ts' <:+ ts) : Start limit floor known ts' :=
  ⟨h.ordered.suffix hsuffix, h.floor_ahead.suffix hsuffix, fun n hn =>
    ⟨(h.known_ahead n hn).1, (h.known_ahead n hn).2.suffix hsuffix⟩, fun t ht => h.sound t (hsuffix.subset ht)⟩

theorem Start.add (h : Start limit floor known ts) {n : Nat} (hfloor : floor ≤ n) (hn : Ahead n ts) :
    Start limit floor (n :: known) ts :=
  ⟨h.ordered, h.floor_ahead, List.forall_mem_cons.2 ⟨⟨hfloor, hn⟩, h.known_ahead⟩, h.sound⟩

theorem Ensures.weaken (h : x.Ensures limit floor [] Q) (known : List Nat) : x.Ensures limit floor known Q :=
  fun _ _ _ hstart hrun => h ⟨hstart.ordered, hstart.floor_ahead, by simp, hstart.sound⟩ hrun

theorem ensures_pure {a : α} (h : ∀ c, Start limit floor known c.tokens → Q c a) :
    (pure a : Reader α).Ensures limit floor known Q := by
  intro c c' b hstart hrun
  cases hrun
  exact h c hstart

theorem ensures_failure : (failure : Reader α).Ensures limit floor known Q := fun _ _ _ _ hrun => nomatch hrun

theorem bind_run {c c' : Cursor} {b : β} (h : (x >>= f).run c = some (b, c')) :
    ∃ a c₁, x.run c = some (a, c₁) ∧ (f a).run c₁ = some (b, c') := by
  obtain ⟨⟨a, c₁⟩, hx, hf⟩ := Option.bind_eq_some_iff.1 (show (x.run c).bind _ = _ from h)
  exact ⟨a, c₁, hx, hf⟩

/-- One reading behind another, with what is known of the first result. -/
theorem ensures_bind (hx : x.Ensures limit floor [] P)
    (hf : ∀ ⦃c c' a b⦄, Start limit floor known c.tokens → P c a → (f a).run c = some (b, c') → R c' b) :
    (x >>= f).Ensures limit floor known R := by
  intro c c' b hstart hrun
  obtain ⟨a, c₁, hrun₁, hrun₂⟩ := bind_run hrun
  exact hf (hstart.suffix (x.advances hrun₁)) (hx.weaken known hstart hrun₁) hrun₂

/-- A reading of which the result does not matter. -/
theorem ensures_skip (hf : ∀ a, (f a).Ensures limit floor known R) : (x >>= f).Ensures limit floor known R :=
  ensures_bind (P := fun _ _ => True) (fun _ _ _ _ _ => trivial) fun _ _ a _ hstart _ hrun => hf a hstart hrun

/-- A reading of which the result has a property, whatever is still to come. -/
theorem ensures_keep {P : α → Prop} (hx : x.Ensures limit floor [] fun _ a => P a)
    (hf : ∀ a, P a → (f a).Ensures limit floor known R) : (x >>= f).Ensures limit floor known R :=
  ensures_bind hx fun _ _ a _ hstart ha hrun => hf a ha hstart hrun

/-- The line of an expression is known from there on. -/
theorem ensures_dated {x : Reader Expr} {f : Expr → Reader β} (hx : x.Dates limit floor [])
    (hf : ∀ e, (f e).Ensures limit floor (e.line :: known) R) : (x >>= f).Ensures limit floor known R :=
  ensures_bind hx fun _ _ e _ hstart he hrun => hf e (hstart.add he.1 he.2) hrun

theorem line_run {c c' : Cursor} {n : Nat} (h : line.run c = some (n, c')) :
    ∃ t, c.tokens.head? = some t ∧ t.line = n ∧ c' = c := by
  obtain ⟨t, ht, h⟩ := Option.map_eq_some_iff.1 h
  cases h
  exact ⟨t, ht, rfl, rfl⟩

/-- The line of the next token is known from there on.  What was known before comes no later. -/
theorem ensures_line_above {f : Nat → Reader β}
    (hf : ∀ n, (∀ m ∈ known, m ≤ n) → (f n).Ensures limit floor (n :: known) R) :
    (line >>= f).Ensures limit floor known R := by
  intro c c' b hstart hrun
  obtain ⟨n, c₁, hline, hf_run⟩ := bind_run hrun
  obtain ⟨t, ht, rfl, rfl⟩ := line_run hline
  have hmem : t ∈ c₁.tokens := List.mem_of_head? ht
  have hadd := hstart.add (hstart.floor_ahead t hmem) (hstart.ordered.ahead_head ht)
  exact hf t.line (fun m hm => (hstart.known_ahead m hm).2 t hmem) hadd hf_run

theorem ensures_line {f : Nat → Reader β} (hf : ∀ n, (f n).Ensures limit floor (n :: known) R) :
    (line >>= f).Ensures limit floor known R :=
  ensures_line_above fun n _ => hf n

theorem ensures_ite {p : Prop} [Decidable p] (hx : x.Ensures limit floor known Q) (hy : y.Ensures limit floor known Q) :
    (if p then x else y).Ensures limit floor known Q := by
  split
  · exact hx
  · exact hy

/-- Lines that are known come no later than the lexemes read from there on, and these end on lines up to the last. -/
theorem Start.foldl_lastLine {read rest : List Token} (hstart : Start limit floor known (read ++ rest)) {n last : Nat}
    (hn : n ∈ known) (hlast : n ≤ last ∧ last ≤ limit) :
    n ≤ read.foldl Token.lastLineAfter last ∧ read.foldl Token.lastLineAfter last ≤ limit := by
  induction read generalizing last with
  | nil => exact hlast
  | cons t read ih =>
    have hahead := (hstart.known_ahead n hn).2 t List.mem_cons_self
    obtain ⟨hle, hend⟩ := hstart.sound t List.mem_cons_self
    refine ih (hstart.suffix ⟨[t], rfl⟩) ?_
    rw [Token.lastLineAfter]
    split_ifs with hlayout
    · exact hlast
    · exact ⟨Nat.le_trans hahead hle, hend (by simpa using hlayout)⟩

theorem token_run {p : Token → Bool} {c c' : Cursor} {t : Token} (h : (token p).run c = some (t, c')) :
    ∃ rest, c.tokens = t :: rest ∧ p t = true ∧ c' = ⟨rest, t.lastLineAfter c.lastLine⟩ := by
  simp only [token] at h
  split at h
  · next u rest htokens =>
    split_ifs at h with hp
    cases h
    exact ⟨rest, htokens, hp, rfl⟩
  · cases h

theorem isLayout_of_isWord {t : Token} {text : String} (h : t.isWord text = true) : t.isLayout = false := by
  simp only [Token.isWord, Bool.and_eq_true, beq_iff_eq] at h
  simp [Token.isLayout, h.1]

/-- What starts with a word ends with a lexeme, on one of the lines. -/
theorem Start.lastLine_of_word {c c' : Cursor} (hstart : Start limit floor known c.tokens) {text : String}
    {f : Unit → Reader α} {a : α} (hrun : (word text >>= f).run c = some (a, c')) {n : Nat} (hn : n ∈ known) :
    n ≤ c'.lastLine ∧ c'.lastLine ≤ limit := by
  obtain ⟨⟨⟩, c₁, hword, hrun⟩ := bind_run hrun
  obtain ⟨t, c₂, htoken, hdiscard⟩ := bind_run hword
  cases hdiscard
  obtain ⟨rest, hrest, ht, rfl⟩ := token_run htoken
  obtain ⟨read, (rfl : rest = _), hlast⟩ := (f ()).reaches hrun
  rw [hrest] at hstart
  rw [hlast]
  -- the word is a lexeme, so it does not matter which was the last one before it
  have hahead := (hstart.known_ahead n hn).2 t List.mem_cons_self
  obtain ⟨hle, hend⟩ := hstart.sound t List.mem_cons_self
  refine (hstart.suffix ⟨[t], rfl⟩).foldl_lastLine hn ?_
  have hlayout := isLayout_of_isWord ht
  simp only [Token.lastLineAfter, hlayout, Bool.false_eq_true, if_false]
  exact ⟨Nat.le_trans hahead hle, hend hlayout⟩

theorem dates_pure {e : Expr} (h : e.line ∈ known) : (pure e : Reader Expr).Dates limit floor known :=
  ensures_pure fun _ hstart => hstart.known_ahead _ h

theorem attempt_run {c c' : Cursor} {a : Option α} (h : (attempt x).run c = some (a, c')) :
    (∃ b, a = some b ∧ x.run c = some (b, c')) ∨ (a = none ∧ c' = c) := by
  have hrun : (((x.run c).bind fun r => some (some r.1, r.2)).or (some (none, c))) = some (a, c') := h
  cases hx : x.run c with
  | none =>
    rw [hx] at hrun
    cases hrun
    exact .inr ⟨rfl, rfl⟩
  | some result =>
    rw [hx] at hrun
    cases hrun
    exact .inl ⟨_, rfl, rfl⟩

theorem ensures_attempt (h : x.Ensures limit floor known Q) :
    (attempt x).Ensures limit floor known fun c o => ∀ a ∈ o, Q c a := by
  intro c c' o hstart hrun a ha
  rcases attempt_run hrun with ⟨b, rfl, hx⟩ | ⟨rfl, -⟩
  · obtain rfl := Option.some.inj ha
    exact h hstart hx
  · cases ha

theorem ensures_sized {f : Nat → Reader α} (h : ∀ n, (f n).Ensures limit floor known Q) :
    (sized f).Ensures limit floor known Q :=
  fun _ _ _ hstart hrun => h _ hstart hrun

/-- A property that what is read keeps while reading goes on holds of all that is read. -/
theorem ensures_upTo (hQ : ∀ {c c' a}, Q c a → c'.tokens <:+ c.tokens → Q c' a) (h : x.Ensures limit floor [] Q)
    (n : Nat) : (upTo x n).Ensures limit floor [] fun c as => ∀ a ∈ as, Q c a := by
  induction n with
  | zero => exact ensures_pure (by simp)
  | succ n ih =>
    unfold upTo
    refine ensures_bind (ensures_attempt h) fun c c' o as hstart ho hrun => ?_
    cases o with
    | none =>
      cases hrun
      simp
    | some a =>
      obtain ⟨rest, c₁, hrest, hpure⟩ := bind_run hrun
      cases hpure
      exact List.forall_mem_cons.2 ⟨hQ (ho a rfl) ((upTo x n).advances hrest), ih hstart hrest⟩

theorem ensures_many (hQ : ∀ {c c' a}, Q c a → c'.tokens <:+ c.tokens → Q c' a) (h : x.Ensures limit floor [] Q) :
    (many x).Ensures limit floor [] fun c as => ∀ a ∈ as, Q c a :=
  ensures_sized (ensures_upTo hQ h)

end Reader

namespace Expression

open Reader

variable {d : Dialect} {sub : Below} {limit floor : Nat} {known : List Nat}

theorem named_dates (hsub : ∀ goal floor, (sub goal).Dates limit floor []) : (named d sub).Dates limit floor [] := by
  unfold named
  refine ensures_skip fun _ => ensures_ite ?_ (hsub _ _)
  refine ensures_line fun line => ensures_skip fun _ => ensures_skip fun _ => ensures_skip fun _ => ?_
  exact ensures_skip fun _ => dates_pure (by simp [Expr.line])

theorem starNamed_dates (hsub : ∀ goal floor, (sub goal).Dates limit floor []) :
    (starNamed d sub).Dates limit floor [] := by
  unfold starNamed
  refine ensures_line fun line => ensures_skip fun _ => ensures_ite ?_ ((named_dates hsub).weaken _)
  exact ensures_skip fun _ => dates_pure (by simp [Expr.line])

theorem yielding_dates : (yielding sub).Dates limit floor [] := by
  unfold yielding
  refine ensures_line fun line => ensures_skip fun _ => ensures_skip fun _ => ?_
  have hpure : (pure (Expr.other line) : Reader Expr).Dates limit floor [line] := dates_pure (by simp [Expr.line])
  exact ensures_ite (ensures_skip fun _ => hpure) (ensures_skip fun _ => hpure)

theorem parenthesized_dates (hsub : ∀ goal floor, (sub goal).Dates limit floor []) :
    (parenthesized d sub).Dates limit floor [] := by
  unfold parenthesized
  refine ensures_line fun line => ensures_skip fun _ => ensures_skip fun _ => ensures_ite ?_ ?_
  · exact dates_pure (by simp [Expr.line])
  refine ensures_skip fun _ => ensures_ite ?_ ?_
  · exact ensures_dated yielding_dates fun e => ensures_skip fun _ => dates_pure (by simp)
  refine ensures_dated (starNamed_dates hsub) fun first => ensures_skip fun _ => ensures_ite ?_ ?_
  · refine ensures_skip fun _ => ensures_skip fun _ => ensures_skip fun _ => ?_
    exact dates_pure (by simp [Expr.line])
  refine ensures_skip fun _ => ensures_ite ?_ ?_
  · exact ensures_skip fun _ => dates_pure (by simp [Expr.line])
  · exact ensures_skip fun _ => ensures_skip fun _ => dates_pure (by simp)

theorem bracketed_dates : (bracketed d sub).Dates limit floor [] := by
  unfold bracketed
  refine ensures_line fun line => ensures_skip fun _ => ensures_skip fun _ => ensures_ite ?_ ?_
  · exact dates_pure (by simp [Expr.line])
  refine ensures_skip fun first => ensures_skip fun _ => ensures_ite ?_ ?_
  · refine ensures_skip fun _ => ensures_skip fun _ => ensures_skip fun _ => ?_
    exact dates_pure (by simp [Expr.line])
  · exact ensures_skip fun _ => dates_pure (by simp [Expr.line])

theorem braced_dates : (braced d sub).Dates limit floor [] := by
  unfold braced
  refine ensures_line fun line => ensures_skip fun _ => ensures_skip fun _ => ?_
  -- Whatever stands in the braces, the result is the same.
  have hpure : (pure (Expr.other line) : Reader Expr).Dates limit floor [line] := dates_pure (by simp [Expr.line])
  refine ensures_ite hpure (ensures_skip fun _ => ensures_ite ?_ ?_)
  · exact ensures_skip fun _ => ensures_skip fun _ => hpure
  refine ensures_skip fun naming => ensures_skip fun first => ?_
  refine ensures_ite (ensures_skip fun _ => ensures_ite ?_ ?_) ?_
  · refine ensures_skip fun _ => ensures_skip fun _ => ensures_ite ?_ ?_
    · exact ensures_skip fun _ => ensures_skip fun _ => hpure
    · exact ensures_skip fun _ => hpure
  all_goals
    refine ensures_skip fun _ => ensures_ite ?_ (ensures_skip fun _ => hpure)
    exact ensures_skip fun _ => ensures_skip fun _ => ensures_skip fun _ => hpure

theorem atom_dates (hsub : ∀ goal floor, (sub goal).Dates limit floor []) : (atom d sub).Dates limit floor [] := by
  unfold atom
  refine ensures_line fun line => ?_
  refine ensures_skip fun _ => ensures_ite (ensures_skip fun _ => dates_pure (by simp [Expr.line])) ?_
  refine ensures_skip fun _ => ensures_ite (ensures_skip fun _ => dates_pure (by simp [Expr.line])) ?_
  refine ensures_skip fun _ => ensures_ite (ensures_skip fun _ => dates_pure (by simp [Expr.line])) ?_
  refine ensures_skip fun _ => ensures_ite (ensures_skip fun _ => dates_pure (by simp [Expr.line])) ?_
  refine ensures_skip fun _ => ensures_ite ((parenthesized_dates hsub).weaken _) ?_
  refine ensures_skip fun _ => ensures_ite (bracketed_dates.weaken _) ?_
  exact ensures_skip fun _ => ensures_ite (braced_dates.weaken _) ensures_failure

/-- What follows an atom changes its shape to one that starts where it is told to. -/
theorem suffix_ensures (line : Nat) : (suffix d sub line).Ensures limit floor [] fun _ f => ∀ e, (f e).line = line := by
  unfold suffix
  refine ensures_skip fun _ => ensures_ite (ensures_skip fun _ => ensures_pure fun _ _ _ => rfl) ?_
  refine ensures_skip fun _ => ensures_ite (ensures_skip fun _ => ensures_pure fun _ _ _ => rfl) ?_
  refine ensures_skip fun _ => ensures_skip fun _ => ensures_skip fun _ => ensures_skip fun _ => ?_
  exact ensures_pure fun _ _ _ => rfl

theorem line_foldl {line : Nat} {fs : List (Expr → Expr)} (h : ∀ f ∈ fs, ∀ e, (f e).line = line) (e : Expr) :
    (fs.foldl (fun e f => f e) e).line ∈ [e.line, line] := by
  induction fs generalizing e with
  | nil => simp
  | cons f fs ih =>
    have hf : (f e).line = line := h f List.mem_cons_self e
    have hrest := ih (fun g hg => h g (List.mem_cons_of_mem f hg)) (f e)
    simp only [hf, List.mem_cons, List.not_mem_nil, or_false, or_self] at hrest
    simp [hrest]

theorem primary_dates (hsub : ∀ goal floor, (sub goal).Dates limit floor []) :
    (primary d sub).Dates limit floor [] := by
  unfold primary
  refine ensures_line fun line => ensures_dated (atom_dates hsub) fun e => ?_
  refine ensures_keep (ensures_many (fun h _ => h) (suffix_ensures line)) fun fs hfs => dates_pure ?_
  exact line_foldl hfs e

/-- Of an expression in the middle of a line and one that starts with that line, either is dated. -/
theorem dates_pure_ite {b : Bool} {line : Nat} {e : Expr} (he : e.line ∈ known) (hline : line ∈ known) :
    (pure (if b then e else .other line) : Reader Expr).Dates limit floor known :=
  dates_pure (by cases b; exacts [hline, he])

theorem factor_dates (hsub : ∀ goal floor, (sub goal).Dates limit floor []) : (factor d sub).Dates limit floor [] := by
  unfold factor
  refine ensures_line fun line => ensures_skip fun _ => ensures_skip fun _ => ensures_skip fun _ => ?_
  exact ensures_dated (primary_dates hsub) fun e => dates_pure_ite (by simp) (by simp)

theorem operand_dates (hsub : ∀ goal floor, (sub goal).Dates limit floor []) :
    (operand d sub).Dates limit floor [] := by
  unfold operand
  refine ensures_line fun line => ensures_dated (factor_dates hsub) fun e => ?_
  exact ensures_skip fun _ => dates_pure_ite (by simp) (by simp)

theorem comparisons_dates (hsub : ∀ goal floor, (sub goal).Dates limit floor []) :
    (comparisons d sub).Dates limit floor [] := by
  unfold comparisons
  refine ensures_line fun line => ensures_skip fun _ => ensures_dated (operand_dates hsub) fun e => ?_
  exact ensures_skip fun _ => dates_pure_ite (by simp) (by simp)

theorem disjunction_dates (hsub : ∀ goal floor, (sub goal).Dates limit floor []) :
    (disjunction d sub).Dates limit floor [] := by
  unfold disjunction
  refine ensures_line fun line => ensures_dated (comparisons_dates hsub) fun e => ?_
  exact ensures_skip fun _ => dates_pure_ite (by simp) (by simp)

theorem lambda_dates : (lambda d sub).Dates limit floor [] := by
  unfold lambda
  refine ensures_line fun line => ensures_skip fun _ => ensures_skip fun _ => ensures_skip fun _ => ?_
  exact ensures_skip fun _ => dates_pure (by simp [Expr.line])

theorem expression_dates (hsub : ∀ goal floor, (sub goal).Dates limit floor []) :
    (expression d sub).Dates limit floor [] := by
  unfold expression
  refine ensures_skip fun _ => ensures_ite lambda_dates ?_
  refine ensures_line fun line => ensures_dated (disjunction_dates hsub) fun e => ?_
  refine ensures_skip fun _ => ensures_ite ?_ (dates_pure (by simp))
  refine ensures_skip fun _ => ensures_skip fun _ => ensures_skip fun _ => ?_
  exact dates_pure (by simp [Expr.line])

theorem rule_dates (hsub : ∀ goal floor, (sub goal).Dates limit floor []) (goal : Goal) :
    (rule d sub goal).Dates limit floor [] := by
  cases goal with
  | expression => exact expression_dates hsub
  | disjunction => exact disjunction_dates hsub
  | operand => exact operand_dates hsub
  | primary => exact primary_dates hsub

/-- Every expression starts no earlier than the tokens in front of which reading began, and no later than those still
to come. -/
theorem read_dates (depth : Nat) (goal : Goal) (floor : Nat) : (read d depth goal).Dates limit floor [] := by
  induction depth generalizing goal floor with
  | zero => exact ensures_failure
  | succ depth ih => exact rule_dates ih goal

end Expression

end CodeAtlas.Grammar

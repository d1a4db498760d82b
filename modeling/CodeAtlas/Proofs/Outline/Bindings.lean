import CodeAtlas.Proofs.Grammar.Walk
import CodeAtlas.Proofs.Outline.Search

/-!
# Names that statements bind

A statement that binds several names gives one element only, with the last of them that the pattern matches.  So a name
that is bound has an element with the lines of its statement exactly if it is the last one in this sense, or if
something else on the same lines gives an element of that name.
-/

namespace CodeAtlas.Element

open Grammar (Node)

variable {p : NamePattern} {n : Node} {name : String} {span : Grammar.Span} {names : List String}

/-- The names that a statement binds: it assigns to them, imports them or declares them global.  Of the targets of an
assignment those count that are plain names, and what is imported goes by its alias if it has one. -/
inductive Binds : Node → List String → Grammar.Span → Prop
  | assigned (span : Grammar.Span) (targets : List Grammar.Expr) :
      Binds (.assignment span targets) (targets.filterMap Grammar.Expr.name?) span
  | imported (span : Grammar.Span) (names : List String) : Binds (.imports span names) names span
  | importedFrom (span : Grammar.Span) (source : String) (names : List String) :
      Binds (.importsFrom span source names) names span
  | global (span : Grammar.Span) (names : List String) : Binds (.globals span names) names span

/-- The last of some names that a pattern matches. -/
def LastMatching (p : NamePattern) (names : List String) (name : String) : Prop :=
  ∃ before after, names = before ++ name :: after ∧ p.accepts name = .ok true ∧
    ∀ other ∈ after, p.accepts other = .ok false

/-- What gives an element of a name: a definition, or a statement of whose names it is the last that matches. -/
inductive Shows (p : NamePattern) : Node → String → Grammar.Span → Prop
  | definition {span : Grammar.Span} {kind : Grammar.DefinitionKind} {name : String} {decorators : List Grammar.Expr}
      {body : List Node} (h : p.accepts name = .ok true) :
      Shows p (.definition span kind name decorators body) name ⟨firstLine span decorators, span.last⟩
  | binding {n : Node} {kind : ElementKind} {span : Grammar.Span} {names : List String} {name : String}
      (hn : bindings n = some (kind, span, names)) (h : LastMatching p names name) : Shows p n name span

theorem lastMatching_iff (hp : p.Valid) :
    LastMatching p names name ↔ (names.filter p.matchesName).getLast? = some name := by
  rw [List.getLast?_eq_head?_reverse, ← List.filter_reverse, List.head?_filter, List.find?_eq_some_iff_append]
  constructor
  · rintro ⟨before, after, rfl, hname, hafter⟩
    refine ⟨NamePattern.matchesName_of_accepts hname, after.reverse, before.reverse, by simp, ?_⟩
    intro other hother
    simp [NamePattern.matchesName_of_accepts (hafter other (List.mem_reverse.1 hother))]
  · rintro ⟨hname, after, before, hnames, hafter⟩
    refine ⟨before.reverse, after.reverse, ?_, by rw [hp.accepts_eq, hname], ?_⟩
    · simpa using congrArg List.reverse hnames
    · intro other hother
      have hfalse := hafter other (List.mem_reverse.1 hother)
      rw [Bool.not_eq_true'] at hfalse
      rw [hp.accepts_eq, hfalse]

/-- A node gives an element exactly if it shows its name on its lines. -/
theorem shows_iff (hp : p.Valid) :
    Shows p n name span ↔ ∃ e, given p.matchesName true n = some e ∧ e.name = name ∧ e.span = span := by
  cases n with
  | definition nodeSpan kind own decorators body =>
    constructor
    · intro h
      cases h with
      | definition h => exact ⟨_, if_pos (NamePattern.matchesName_of_accepts h), rfl, rfl⟩
      | binding hn => cases hn
    · rintro ⟨e, he, rfl, rfl⟩
      rw [given] at he
      split_ifs at he with hown
      obtain rfl := Option.some.inj he
      exact .definition (by rw [hp.accepts_eq, hown])
  | compound | clause | simple =>
    constructor
    · intro h
      cases h with
      | binding hn => cases hn
    · rintro ⟨e, he, -⟩
      cases he
  | assignment | annotated | imports | importsFrom | globals =>
    constructor
    · intro h
      cases h with
      | binding hn h =>
        cases hn
        simp only [given, bindings, if_true, Option.bind_some, (lastMatching_iff hp).1 h, Option.map_some]
        exact ⟨_, rfl, rfl, rfl⟩
    · rintro ⟨e, he, rfl, rfl⟩
      simp only [given, bindings, if_true, Option.bind_some, Option.map_eq_some_iff] at he
      obtain ⟨last, hlast, rfl⟩ := he
      exact .binding rfl ((lastMatching_iff hp).2 hlast)

/-- What is found among nodes is what they show. -/
theorem listed_iff (hp : p.Valid) (nodes : List Node) :
    ∃ found, inNodes p true nodes = .ok found ∧
      ∀ name span, (∃ e ∈ found, e.name = name ∧ e.span = span) ↔ ∃ n, Node.Within nodes n ∧ Shows p n name span := by
  refine ⟨_, inNodes_eq hp nodes, fun name span => ?_⟩
  rw [exists_mem_countDuplicates fun _ _ => Iff.rfl]
  simp only [List.mem_filterMap, Node.mem_walk_iff, shows_iff hp]
  constructor
  · rintro ⟨e, ⟨n, hn, he⟩, hname⟩
    exact ⟨n, hn, e, he, hname⟩
  · rintro ⟨n, hn, e, he, hname⟩
    exact ⟨e, ⟨n, hn, he⟩, hname⟩

theorem Binds.shows_iff (h : Binds n names span) : Shows p n name span ↔ LastMatching p names name := by
  obtain ⟨kind, hn⟩ : ∃ kind, bindings n = some (kind, span, names) := by cases h <;> exact ⟨_, rfl⟩
  constructor
  · intro hshows
    cases hshows with
    | definition => cases hn
    | binding hother hlast =>
      cases hn.symm.trans hother
      exact hlast
  · exact .binding hn

/-- **Names that are bound and listed.**  A name that matches and that a statement binds has an element with the lines
of the statement exactly if it is the last matching name of the statement, or if another statement, or a definition,
gives an element of that name with the same lines. -/
theorem binding_listed_iff {source : String} {version : Version} {d : Grammar.Dialect} {nodes : List Node}
    (hversion : version.dialect = .ok d) (hparse : Grammar.parse? d source = some nodes)
    (hname : p.accepts name = .ok true) :
    ∃ found, find source p true version = .ok found ∧
      ∀ n names span, Node.Within nodes n → Binds n names span →
        ((∃ e ∈ found, e.name = name ∧ e.span = span) ↔
          LastMatching p names name ∨ ∃ m, Node.Within nodes m ∧ m ≠ n ∧ Shows p m name span) := by
  obtain ⟨found, hfound, hlisted⟩ := listed_iff (NamePattern.valid_of_accepts hname) nodes
  refine ⟨found, by rw [find_of_parse hversion, hparse]; exact hfound, ?_⟩
  intro n names span hn hbinds
  rw [hlisted, ← hbinds.shows_iff]
  constructor
  · rintro ⟨m, hm, hshows⟩
    by_cases hother : m = n
    · exact .inl (hother ▸ hshows)
    · exact .inr ⟨m, hm, hother, hshows⟩
  · rintro (hshows | ⟨m, hm, -, hshows⟩)
    · exact ⟨n, hn, hshows⟩
    · exact ⟨m, hm, hshows⟩

/-- The last name of an import is listed, also inside of a function. -/
theorem binding_listed_in_function :
    Grammar.parse? ⟨10, true⟩ "def f():\n  import os, sys" =
      some [.definition ⟨1, 2⟩ .function "f" [] [.imports ⟨2, 2⟩ ["os", "sys"]]] ∧
    NamePattern.accepts ⟨"s*"⟩ "sys" = .ok true ∧
    ∃ found, find "def f():\n  import os, sys" ⟨"s*"⟩ true {} = .ok found ∧
      ∃ e ∈ found, e.name = "sys" ∧ e.span = ⟨2, 2⟩ := by
  have hparse : Grammar.parse? ⟨10, true⟩ "def f():\n  import os, sys" =
      some [.definition ⟨1, 2⟩ .function "f" [] [.imports ⟨2, 2⟩ ["os", "sys"]]] := rfl
  have hname : NamePattern.accepts ⟨"s*"⟩ "sys" = .ok true := rfl
  have hwithin : Node.Within [.definition ⟨1, 2⟩ .function "f" [] [.imports ⟨2, 2⟩ ["os", "sys"]]]
      (.imports ⟨2, 2⟩ ["os", "sys"]) := .child (.here List.mem_cons_self) List.mem_cons_self
  obtain ⟨found, hfound, hlisted⟩ := binding_listed_iff dialect_default hparse hname
  refine ⟨hparse, hname, found, hfound, (hlisted _ _ _ hwithin (.imported _ _)).2 (.inl ?_)⟩
  exact ⟨["os"], [], rfl, hname, List.forall_mem_nil _⟩

/-- An import of two names, of which the first one is not listed. -/
theorem find_misses_import :
    Grammar.parse? ⟨10, true⟩ "import os, sys" = some [.imports ⟨1, 1⟩ ["os", "sys"]] ∧
    Binds (.imports ⟨1, 1⟩ ["os", "sys"]) ["os", "sys"] ⟨1, 1⟩ ∧ NamePattern.any.accepts "os" = .ok true ∧
    find "import os, sys" .any true {} = .ok [⟨"sys", .importing, ⟨1, 1⟩, none⟩] := by
  have hparse : Grammar.parse? ⟨10, true⟩ "import os, sys" = some [.imports ⟨1, 1⟩ ["os", "sys"]] := rfl
  refine ⟨hparse, .imported _ _, rfl, ?_⟩
  rw [find_of_parse dialect_default, hparse]
  rfl

end CodeAtlas.Element

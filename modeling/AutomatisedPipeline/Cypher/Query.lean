import AutomatisedPipeline.Text.Find

/-!
A fragment of Cypher over a property graph with a schema: one node or one edge is matched,
its properties are tested, and some of them are returned.

A node of a table holds values of the columns that the table declares and nothing else. The
binder of the engine rejects a statement that names a property its table does not declare,
whatever the graph holds (`Statement.Binds`). A statement that is answered is answered with
the matches of the graph, in an order that is not promised (`Answers`).
-/

namespace AutomatisedPipeline.Cypher

open Text

/-! ### Values -/

inductive Value where
  | null
  | text (s : Str)
  | flag (b : Bool)
  | real (x : ℚ)
  | count (n : Nat)
deriving DecidableEq

/-- A cell of a text column, as the engine's client prints it. -/
def Value.asText : Value → Str
  | .null => "Null(String)".toList
  | .text s => s
  | .flag b => if b then "true".toList else "false".toList
  | .real _ => []
  | .count _ => []

/-- What `parse::<f64>` makes of a printed cell. -/
def Value.asReal : Value → Option ℚ
  | .real x => some x
  | _ => none

/-- What `parse::<u64>` makes of a printed cell. -/
def Value.asCount : Value → Option Nat
  | .count n => some n
  | _ => none

/-! ### Graphs -/

/-- The names of the tables, the columns of the node tables, the relationship tables with
the labels they join, and the columns of the relationship tables. -/
structure Schema (L : Type) where
  names : List String
  columns : L → List String
  tables : List (String × L × L)
  edgeColumns : String → List String

variable {L : Type}

structure Node (S : Schema L) where
  label : L
  props : String → Value
  declared : ∀ key, key ∉ S.columns label → props key = .null

/-- The node of a table with the values given; what is not given is null. -/
def Node.of (S : Schema L) (label : L) (values : List (String × Value)) : Node S where
  label := label
  props := fun key => if key ∈ S.columns label then (values.lookup key).getD .null else .null
  declared := fun _ hkey => if_neg hkey

structure Edge (S : Schema L) where
  table : String
  source : Node S
  target : Node S
  props : String → Value
  table_mem : (table, source.label, target.label) ∈ S.tables

/-- A graph: its edges join its nodes. -/
structure Graph (S : Schema L) where
  nodes : List (Node S)
  edges : List (Edge S)
  ends_mem : ∀ e ∈ edges, e.source ∈ nodes ∧ e.target ∈ nodes

/-! ### Patterns and conditions -/

/-- `(n:label)` or `(a:source)-[r:table]->(b:target)`. -/
inductive Pattern (L : Type) where
  | node (label : L)
  | edge (table : String) (source target : L)
deriving DecidableEq

/-- The variables of a pattern; `a` is the node of a pattern without an edge. -/
inductive Var where
  | a | r | b
deriving DecidableEq

/-- The columns that the table of a variable declares. -/
def Pattern.columns (S : Schema L) : Pattern L → Var → List String
  | .node label, .a => S.columns label
  | .node _, _ => []
  | .edge _ source _, .a => S.columns source
  | .edge table _ _, .r => S.edgeColumns table
  | .edge _ _ target, .b => S.columns target

/-- A condition. A comparison with a null is not true. -/
inductive Cond where
  | always
  | eq (v : Var) (key : String) (s : Str)
  | ne (v : Var) (key : String) (s : Str)
  | isFalse (v : Var) (key : String)
  | endsWith (v : Var) (key : String) (s : Str)
  | contains (v : Var) (key : String) (s : Str)
  | isIn (v : Var) (key : String) (values : List Str)
  | or (c d : Cond)
  | and (c d : Cond)
deriving DecidableEq

/-- The properties that a condition names. -/
def Cond.names : Cond → List (Var × String)
  | .always => []
  | .eq v key _ => [(v, key)]
  | .ne v key _ => [(v, key)]
  | .isFalse v key => [(v, key)]
  | .endsWith v key _ => [(v, key)]
  | .contains v key _ => [(v, key)]
  | .isIn v key _ => [(v, key)]
  | .or c d => c.names ++ d.names
  | .and c d => c.names ++ d.names

/-- The test of a text value. -/
def Value.textIs (test : Str → Bool) : Value → Bool
  | .text s => test s
  | _ => false

/-- A condition is true of what a match holds. -/
def Cond.holds (get : Var → String → Value) : Cond → Bool
  | .always => true
  | .eq v key s => (get v key).textIs (· == s)
  | .ne v key s => (get v key).textIs (· != s)
  | .isFalse v key => get v key == .flag false
  | .endsWith v key s => (get v key).textIs s.isSuffixOf
  | .contains v key s => (get v key).textIs fun t => (find s t).isSome
  | .isIn v key values => (get v key).textIs fun t => values.contains t
  | .or c d => c.holds get || d.holds get
  | .and c d => c.holds get && d.holds get

/-! ### Statements -/

inductive Returns where
  | columns (keys : List (Var × String))
  | count
deriving DecidableEq

/-- `MATCH pattern WHERE cond RETURN returns LIMIT limit`. -/
structure Query (L : Type) where
  pattern : Pattern L
  cond : Cond
  returns : Returns
  limit : Option Nat
deriving DecidableEq

inductive Statement (L : Type) where
  | query (q : Query L)
  | tableInfo (label : L)
  | showTables
deriving DecidableEq

def Returns.names : Returns → List (Var × String)
  | .columns keys => keys
  | .count => []

/-- The binder accepts a query: every property it names is declared. -/
def Query.Binds (S : Schema L) (q : Query L) : Prop :=
  ∀ name ∈ q.cond.names ++ q.returns.names, name.2 ∈ q.pattern.columns S name.1

instance (S : Schema L) (q : Query L) : Decidable (q.Binds S) :=
  inferInstanceAs (Decidable (∀ name ∈ q.cond.names ++ q.returns.names, _))

def Statement.Binds (S : Schema L) : Statement L → Prop
  | .query q => q.Binds S
  | .tableInfo _ => True
  | .showTables => True

instance (S : Schema L) : (s : Statement L) → Decidable (s.Binds S)
  | .query q => inferInstanceAs (Decidable (q.Binds S))
  | .tableInfo _ => inferInstanceAs (Decidable True)
  | .showTables => inferInstanceAs (Decidable True)

abbrev Row : Type := List Value

variable {S : Schema L} [DecidableEq L]

/-- What the properties of a node are, seen through the variable of its pattern. -/
def Node.get (n : Node S) : Var → String → Value
  | .a => n.props
  | _ => fun _ => .null

def Edge.get (e : Edge S) : Var → String → Value
  | .a => e.source.props
  | .r => e.props
  | .b => e.target.props

/-- The matches of a pattern, as what their variables are bound to. -/
def Graph.matches (g : Graph S) : Pattern L → List (Var → String → Value)
  | .node label => (g.nodes.filter fun n => n.label = label).map Node.get
  | .edge table source target =>
      (g.edges.filter fun e =>
        e.table = table ∧ e.source.label = source ∧ e.target.label = target).map Edge.get

/-- The matches for which the condition is true. -/
def Graph.found (g : Graph S) (q : Query L) : List (Var → String → Value) :=
  (g.matches q.pattern).filter q.cond.holds

def project (keys : List (Var × String)) (get : Var → String → Value) : Row :=
  keys.map fun name => get name.1 name.2

def takeLimit {α : Type} : Option Nat → List α → List α
  | some n, l => l.take n
  | none, l => l

/-- The answer of an engine that gives the matches in the order of the graph. -/
def Graph.evaluate (g : Graph S) : Statement L → List Row
  | .query q =>
      match q.returns with
      | .columns keys => takeLimit q.limit ((g.found q).map (project keys))
      | .count => [[.count (g.found q).length]]
  | .tableInfo label => (S.columns label).map fun key => [.null, .text key.toList]
  | .showTables => S.names.map fun name => [.null, .text name.toList]

/-- The rows are an answer to the statement, in some order of the matches. -/
def Answers (g : Graph S) (s : Statement L) (rows : List Row) : Prop :=
  match s with
  | .query q =>
      match q.returns with
      | .columns keys =>
          ∃ found : List (Var → String → Value),
            found.Perm (g.found q) ∧ rows = takeLimit q.limit (found.map (project keys))
      | .count => rows = [[.count (g.found q).length]]
  | .tableInfo label => rows = (S.columns label).map fun key => [.null, .text key.toList]
  | .showTables => rows = S.names.map fun name => [.null, .text name.toList]

theorem answers_evaluate (g : Graph S) (s : Statement L) : Answers g s (g.evaluate s) := by
  cases s with
  | query q =>
      obtain ⟨pattern, cond, returns, limit⟩ := q
      cases returns with
      | columns keys => exact ⟨_, List.Perm.refl _, rfl⟩
      | count => exact rfl
  | tableInfo label => exact rfl
  | showTables => exact rfl

theorem answers_tableInfo {g : Graph S} {label : L} {rows : List Row} :
    Answers g (.tableInfo label) rows ↔
      rows = (S.columns label).map fun key => [.null, .text key.toList] :=
  Iff.rfl

/-- The matches of a query for one node. -/
theorem Graph.found_node (g : Graph S) {q : Query L} {label : L} (h : q.pattern = .node label) :
    g.found q = (g.nodes.filter fun n => n.label = label ∧ q.cond.holds n.get).map Node.get := by
  rw [Graph.found, h]
  simp only [Graph.matches, List.filter_map, List.filter_filter]
  refine congrArg _ (List.filter_congr fun n _ => ?_)
  rw [Bool.eq_iff_iff]
  simp only [Function.comp_apply, Bool.and_eq_true, decide_eq_true_eq, and_comm]

/-! ### Engines -/

/-- An engine over a graph: what it answers is right. It may fail a statement. -/
structure Engine (g : Graph S) where
  answer : Statement L → Option (List Row)
  sound : ∀ s rows, answer s = some rows → Answers g s rows

/-- The engine answers a query, and the graph has a match. -/
def Engine.Finds {g : Graph S} (engine : Engine g) (q : Query L) : Prop :=
  (engine.answer (.query q)).isSome ∧ g.found q ≠ []

/-- An answer to a query with a limit has rows exactly where the graph has a match. -/
theorem Engine.rows_ne_nil {g : Graph S} (engine : Engine g) {q : Query L} {rows : List Row}
    (h : engine.answer (.query q) = some rows) {keys : List (Var × String)}
    (hreturns : q.returns = .columns keys) (hlimit : q.limit ≠ some 0) :
    rows ≠ [] ↔ g.found q ≠ [] := by
  have hanswer := engine.sound _ _ h
  simp only [Answers, hreturns] at hanswer
  obtain ⟨found, hperm, rfl⟩ := hanswer
  rw [← List.length_pos_iff, ← List.length_pos_iff, ← hperm.length_eq]
  cases hl : q.limit with
  | none => simp [takeLimit]
  | some n =>
      have hn : 0 < n := Nat.pos_of_ne_zero fun hzero => hlimit (by rw [hl, hzero])
      simp [takeLimit, hn]

/-- The engine rejects what does not bind, and nothing else. -/
def Engine.Available {g : Graph S} (engine : Engine g) : Prop :=
  ∀ s, (engine.answer s).isSome ↔ s.Binds S

/-- The engine that answers in the order of the graph and fails what does not bind. -/
def Graph.engine (g : Graph S) : Engine g where
  answer s := if s.Binds S then some (g.evaluate s) else none
  sound s rows h := by
    split at h
    · cases h
      exact answers_evaluate g s
    · cases h

theorem Graph.engine_available (g : Graph S) : g.engine.Available := by
  intro s
  by_cases h : s.Binds S
  · simp [Graph.engine, h]
  · simp [Graph.engine, h]

end AutomatisedPipeline.Cypher

import AutomatisedPipeline.Store.Ddl

/-!
The reverse traversal of `get_impact` (`clustering/impact.rs`): for one prefix of table
names, the sources of the edges that end in the target.

The traversal binds `qualified_name` only on the labels that declare it, so none of its
queries is rejected by the binder; a query that fails all the same is read as no rows.
-/

namespace AutomatisedPipeline.Impact

open Text Cypher Store

/-! ### Confidence -/

/-- `Boundary`. -/
inductive Boundary where
  | exact
  | lowerBound
deriving DecidableEq, Repr

/-- `relation_confidence_floor`. -/
def relationConfidenceFloor (rel : String) : ℚ :=
  if startsWith rel "Calls_" then 9 / 10
  else if startsWith rel "Implements_" || startsWith rel "Extends_" then 85 / 100
  else if startsWith rel "Uses_" then 8 / 10
  else if startsWith rel "Imports_" then 9 / 10
  else 1

/-- `is_heuristic_edge`. -/
def isHeuristicEdge (confidence : ℚ) : Bool := decide (confidence < 1)

/-! ### The traversal -/

/-- `ImpactNode`. -/
structure ImpactNode where
  id : Str
  qualifiedName : Str
  label : NodeLabel
  confidence : ℚ
  context : Str
deriving DecidableEq

/-- `dependent_node`. -/
def dependentNode (row : Row) (fromLabel : NodeLabel) (floor : ℚ) : ImpactNode where
  id := cell row 0
  qualifiedName := cell row 1
  label := fromLabel
  confidence := (row[2]?.bind Value.asReal).getD floor
  context := []

/-- The condition that the node of a variable is the target. -/
def targetCond (v : Var) (hasQualifiedName : Bool) (esc : Str) : Cond :=
  if hasQualifiedName then .or (.eq v "id" esc) (.eq v "qualified_name" esc) else .eq v "id" esc

/-- The columns that the traversal returns. -/
def reverseColumns (table : RelSchema) : List (Var × String) :=
  [(.a, "id"), (.a, if labelHasQualifiedName table.2.1 then "qualified_name" else "id"),
    (.r, "confidence")]

/-- The query of the traversal for one table. -/
def reverseQuery (esc : Str) (table : RelSchema) : Query Table where
  pattern := .edge table.1 (.code table.2.1) (.code table.2.2)
  cond := targetCond .b (labelHasQualifiedName table.2.2) esc
  returns := .columns (reverseColumns table)
  limit := none

/-- `reverse_dependents`. -/
def reverseDependents (esc : Str) (start : String) : GraphM (List ImpactNode) :=
  let floor := relationConfidenceFloor start
  Asks.collect (fun table => do
    if !startsWith table.1 start then return []
    if table.2.1 = .callSite then return []
    match ← runQuery (reverseQuery esc table) with
    | none => return []
    | some rows =>
        return (rows.filter fun row => 2 ≤ row.length).map fun row =>
          dependentNode row table.2.1 floor) relTables

/-- No query of the traversal is rejected on a table that holds confidences. -/
theorem binds_reverseQuery (esc : Str) {table : RelSchema}
    (h : "confidence" ∈ relProperties table.1) : (reverseQuery esc table).Binds schema := by
  have hid := fun label => id_mem_ddlColumns (.code label)
  have hqn := fun label => labelHasQualifiedName_iff label
  simp only [Query.Binds, reverseQuery, Returns.names, reverseColumns, List.forall_mem_append,
    List.forall_mem_cons, List.not_mem_nil, IsEmpty.forall_iff, implies_true, and_true,
    Pattern.columns, columns_schema]
  refine ⟨?_, hid _, ?_, h⟩
  · rw [targetCond]
    split
    · rename_i hb
      simp [Cond.names, hid, (hqn _).mp hb]
    · simp [Cond.names, hid]
  · split
    · rename_i ha
      exact (hqn _).mp ha
    · exact hid _

/-- The tables of resolved dependencies hold confidences. -/
theorem confidence_mem_relProperties : ∀ table ∈ relTables, isResolutionRel table.1 = true →
    "confidence" ∈ relProperties table.1 := by
  decide +kernel

/-! ### What it finds -/

variable {missing : Table → List String} {g : Graph (storedSchema missing)}

/-- The node is one that the name denotes. -/
def Denotes (esc : Str) (n : Node (storedSchema missing)) : Prop :=
  n.props "id" = .text esc ∨ n.props "qualified_name" = .text esc

instance (esc : Str) (n : Node (storedSchema missing)) : Decidable (Denotes esc n) :=
  inferInstanceAs (Decidable (_ ∨ _))

/-- The table of an edge. -/
def InTable (e : Edge (storedSchema missing)) (table : RelSchema) : Prop :=
  e.table = table.1 ∧ e.source.label = .code table.2.1 ∧ e.target.label = .code table.2.2

instance (e : Edge (storedSchema missing)) (table : RelSchema) : Decidable (InTable e table) :=
  inferInstanceAs (Decidable (_ ∧ _))

theorem exists_table (e : Edge (storedSchema missing)) : ∃ table ∈ relTables, InTable e table := by
  obtain ⟨table, hmem, heq⟩ := List.mem_map.mp e.table_mem
  simp only [Prod.mk.injEq] at heq
  exact ⟨table, hmem, heq.1.symm, heq.2.1.symm, heq.2.2.symm⟩

/-- The handle that the traversal makes of an edge. -/
def edgeNode (floor : ℚ) (table : RelSchema) (e : Edge (storedSchema missing)) : ImpactNode where
  id := (e.source.props "id").asText
  qualifiedName := (e.source.props
    (if labelHasQualifiedName table.2.1 then "qualified_name" else "id")).asText
  label := table.2.1
  confidence := (e.props "confidence").asReal.getD floor
  context := []

theorem textIs_eq_iff {v : Value} {s : Str} : v.textIs (· == s) = true ↔ v = .text s := by
  cases v <;> simp [Value.textIs]

/-- The gated condition is true of the nodes that the name denotes. -/
theorem targetCond_holds {label : NodeLabel} {n : Node (storedSchema missing)}
    (hlabel : n.label = .code label) (esc : Str) {v : Var} {get : Var → String → Value}
    (hget : get v = n.props) :
    (targetCond v (labelHasQualifiedName label) esc).holds get = true ↔ Denotes esc n := by
  rw [targetCond]
  split
  · simp only [Cond.holds, hget, Bool.or_eq_true, textIs_eq_iff, Denotes]
  · rename_i hqn
    have hnull : n.props "qualified_name" = .null := by
      refine n.declared _ fun hmem => hqn ?_
      rw [labelHasQualifiedName_iff, ← hlabel]
      exact (List.mem_filter.mp hmem).1
    simp only [Cond.holds, hget, textIs_eq_iff, Denotes, hnull, reduceCtorEq, or_false]

/-- The edges of a table that end in what the name denotes. -/
def tableEdges (g : Graph (storedSchema missing)) (esc : Str) (table : RelSchema) :
    List (Edge (storedSchema missing)) :=
  g.edges.filter fun e => InTable e table ∧ Denotes esc e.target

theorem found_edge (q : Query Table) {table : RelSchema}
    (hpattern : q.pattern = .edge table.1 (.code table.2.1) (.code table.2.2)) :
    g.found q =
      ((g.edges.filter fun e => InTable e table ∧ q.cond.holds e.get).map Edge.get) := by
  rw [Graph.found, hpattern]
  simp only [Graph.matches, List.filter_map, List.filter_filter]
  refine congrArg _ (List.filter_congr fun e _ => ?_)
  rw [Bool.eq_iff_iff]
  simp only [Function.comp_apply, Bool.and_eq_true, decide_eq_true_eq, InTable, and_comm]

/-- What the traversal reads off an answer are the edges of the table into the target. -/
theorem rows_perm (engine : Engine g) {esc : Str} {table : RelSchema} {rows : List Row}
    (h : engine.answer (.query (reverseQuery esc table)) = some rows) (floor : ℚ) :
    ((rows.filter fun row => 2 ≤ row.length).map fun row =>
        dependentNode row table.2.1 floor).Perm
      ((tableEdges g esc table).map (edgeNode floor table)) := by
  obtain ⟨found, hperm, rfl⟩ := engine.sound _ _ h
  rw [found_edge _ rfl] at hperm
  have hedges : (g.edges.filter fun e => InTable e table ∧ (reverseQuery esc table).cond.holds e.get)
      = tableEdges g esc table := by
    refine List.filter_congr fun e _ => ?_
    by_cases htable : InTable e table
    · have := @targetCond_holds _ _ _ htable.2.2 esc .b e.get rfl
      simp only [reverseQuery, htable, this]
    · simp [htable]
  rw [hedges] at hperm
  have hlen : ∀ row ∈ found.map (project (reverseColumns table)),
      (decide (2 ≤ row.length)) = true := by
    intro row hrow
    obtain ⟨get, -, rfl⟩ := List.mem_map.mp hrow
    exact decide_eq_true (by simp [project, reverseColumns])
  change ((List.map _ found).filter _).map _ |>.Perm _
  rw [List.filter_eq_self.mpr hlen, List.map_map]
  refine (hperm.map _).trans ?_
  rw [List.map_map]
  exact List.Perm.refl _

/-- The traversal reads the tables whose names begin with the prefix, but not those of call
sites. -/
def Traversed (start : String) (table : RelSchema) : Prop :=
  startsWith table.1 start = true ∧ table.2.1 ≠ .callSite

instance (start : String) (table : RelSchema) : Decidable (Traversed start table) :=
  inferInstanceAs (Decidable (_ ∧ _))

/-- The edges that the traversal of a prefix is about, table by table. -/
def dependentEdges (g : Graph (storedSchema missing)) (esc : Str) (tables : List RelSchema) :
    List (RelSchema × Edge (storedSchema missing)) :=
  tables.flatMap fun table => (tableEdges g esc table).map fun e => (table, e)

/-- The traversal finds the edges of the tables whose query is answered. -/
theorem reverseDependents_perm (engine : Engine g) (esc : Str) (start : String) :
    ((reverseDependents esc start).run engine.answer).Perm
      ((dependentEdges g esc (relTables.filter fun table => Traversed start table ∧
          (engine.answer (.query (reverseQuery esc table))).isSome)).map fun e =>
        edgeNode (relationConfidenceFloor start) e.1 e.2) := by
  rw [reverseDependents, Asks.run_collect, dependentEdges]
  generalize relTables = tables
  induction tables with
  | nil => exact List.Perm.refl _
  | cons table tables ih =>
      rw [List.flatMap_cons]
      by_cases hstart : startsWith table.1 start = true
      · by_cases hsite : table.2.1 = .callSite
        · simpa [hstart, hsite, Traversed] using ih
        · cases hanswer : engine.answer (.query (reverseQuery esc table)) with
          | none => simpa [hstart, hsite, Traversed, hanswer, runQuery] using ih
          | some rows =>
              have hrows := rows_perm engine hanswer (relationConfidenceFloor start)
              rw [List.filter_cons_of_pos (by simp [Traversed, hstart, hsite, hanswer]),
                List.flatMap_cons, List.map_append, List.map_map]
              refine List.Perm.append ?_ ih
              simpa [hstart, hsite, hanswer, runQuery, Function.comp_def] using hrows
      · simpa [hstart, Traversed] using ih

theorem mem_reverseDependents {engine : Engine g} {esc : Str} {start : String} {n : ImpactNode} :
    n ∈ (reverseDependents esc start).run engine.answer ↔
      ∃ table ∈ relTables, Traversed start table ∧
        (engine.answer (.query (reverseQuery esc table))).isSome ∧
        ∃ e ∈ g.edges, InTable e table ∧ Denotes esc e.target ∧
          n = edgeNode (relationConfidenceFloor start) table e := by
  rw [(reverseDependents_perm engine esc start).mem_iff]
  simp only [dependentEdges, tableEdges, List.mem_map, List.mem_flatMap, List.mem_filter,
    decide_eq_true_eq]
  constructor
  · rintro ⟨_, ⟨table, ⟨htable, htraversed, hanswer⟩, e, ⟨he, hin, hdenotes⟩, rfl⟩, rfl⟩
    exact ⟨table, htable, htraversed, hanswer, e, he, hin, hdenotes, rfl⟩
  · rintro ⟨table, htable, htraversed, hanswer, e, he, hin, hdenotes, rfl⟩
    exact ⟨_, ⟨table, ⟨htable, htraversed, hanswer⟩, e, ⟨he, hin, hdenotes⟩, rfl⟩, rfl⟩

end AutomatisedPipeline.Impact

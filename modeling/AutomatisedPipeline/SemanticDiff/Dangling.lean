import AutomatisedPipeline.SemanticDiff.Cycles
import AutomatisedPipeline.Store.Columns

/-!
The dangling references of a snapshot (`collect_nodes`, `collect_edges` and
`compute_dangling` of `semantic_diff.rs`).

The nodes are collected from the diffable labels and the edges from every table both of whose
labels have qualified names. Three tables end in a label that is not diffable, and an edge of
theirs is listed unless some node of a diffable label has the name of its target.
-/

namespace AutomatisedPipeline.SemanticDiff

open Text Store

/-! ### Stored graphs -/

/-- A node of the store; its qualified name is empty where it has none. -/
structure StoredNode where
  label : NodeLabel
  id : Str
  qualifiedName : Str
deriving DecidableEq, Repr

structure StoredEdge where
  table : RelSchema
  source : StoredNode
  target : StoredNode
deriving DecidableEq, Repr

/-- A graph of the store: every edge stands in a table of the schema and joins two nodes of
the graph that have the labels of the table. -/
structure StoredGraph where
  nodes : List StoredNode
  edges : List StoredEdge
  table_mem : ∀ e ∈ edges, e.table ∈ relTables
  source_mem : ∀ e ∈ edges, e.source ∈ nodes
  source_label : ∀ e ∈ edges, e.source.label = e.table.2.1
  target_mem : ∀ e ∈ edges, e.target ∈ nodes
  target_label : ∀ e ∈ edges, e.target.label = e.table.2.2

/-! ### The source's definitions -/

/-- `DIFFABLE_LABELS`. -/
def diffableLabels : List NodeLabel :=
  [.function, .method, .struct, .enum, .trait, .«module», .constant, .typeAlias]

/-- The rows of `MATCH (n:label) RETURN n.qualified_name`. -/
def StoredGraph.nodeRows (g : StoredGraph) (label : NodeLabel) : List Str :=
  (g.nodes.filter fun n => n.label = label).map StoredNode.qualifiedName

/-- `collect_nodes`; the order of the labels plays no part here. -/
def collectNodes (g : StoredGraph) : List (Str × List Str) :=
  diffableLabels.map fun label =>
    (label.name.toList, ((g.nodeRows label).filter fun qn => qn ≠ []).dedup)

/-- `rel_kind`. -/
def relKind (rel : String) : Str := rel.toList.takeWhile (· ≠ '_')

/-- Whether `collect_edges` reads a table. -/
def projectsNames (table : RelSchema) : Bool :=
  labelDeclaresColumn table.2.1 "qualified_name" && labelDeclaresColumn table.2.2 "qualified_name"

/-- The rows that a table has of the edges with both names. -/
def StoredGraph.edgeRows (g : StoredGraph) (table : RelSchema) : List (Str × Str) :=
  (g.edges.filter fun e => e.table = table).map fun e =>
    (e.source.qualifiedName, e.target.qualifiedName)

/-- `collect_edges`. -/
def collectEdges (g : StoredGraph) : List (Str × Str × Str) :=
  ((relTables.filter projectsNames).flatMap fun table =>
    ((g.edgeRows table).filter fun row => row.1 ≠ [] ∧ row.2 ≠ []).map fun row =>
      (row.1, relKind table.1, row.2)).dedup

/-- The order of the triples. -/
def tripleLe (a b : Str × Str × Str) : Bool :=
  decide (a.1 < b.1 ∨ a.1 = b.1 ∧ (a.2.1 < b.2.1 ∨ a.2.1 = b.2.1 ∧ a.2.2 ≤ b.2.2))

/-- `compute_dangling`. -/
def computeDangling (nodes : List (Str × List Str)) (edges : List (Str × Str × Str)) :
    List (Str × Str × Str) :=
  (edges.filter fun e => e.2.2 ∉ nodes.flatMap Prod.snd).mergeSort tripleLe

/-- The dangling references of a graph. -/
def danglingReferences (g : StoredGraph) : List (Str × Str × Str) :=
  computeDangling (collectNodes g) (collectEdges g)

/-! ### What is listed -/

/-- The triple by which the diff knows an edge. -/
def StoredEdge.triple (e : StoredEdge) : Str × Str × Str :=
  (e.source.qualifiedName, relKind e.table.1, e.target.qualifiedName)

/-- An edge that the diff knows. -/
def StoredEdge.Known (e : StoredEdge) : Prop :=
  projectsNames e.table = true ∧ e.source.qualifiedName ≠ [] ∧ e.target.qualifiedName ≠ []

/-- The diff lists an edge as a dangling reference. -/
def StoredGraph.Listed (g : StoredGraph) (e : StoredEdge) : Prop :=
  e.Known ∧ e.triple ∈ danglingReferences g

/-- A name that the diff takes for that of a node. -/
def StoredGraph.Diffable (g : StoredGraph) (name : Str) : Prop :=
  ∃ n ∈ g.nodes, n.label ∈ diffableLabels ∧ n.qualifiedName = name

theorem mem_collectNodes {g : StoredGraph} {name : Str} (h : name ≠ []) :
    name ∈ (collectNodes g).flatMap Prod.snd ↔ g.Diffable name := by
  simp only [collectNodes, StoredGraph.nodeRows, List.mem_flatMap, List.mem_map]
  constructor
  · rintro ⟨_, ⟨label, hlabel, rfl⟩, hname⟩
    rw [List.mem_dedup, List.mem_filter, List.mem_map] at hname
    obtain ⟨⟨n, hn, rfl⟩, -⟩ := hname
    obtain ⟨hmem, heq⟩ := List.mem_filter.mp hn
    exact ⟨n, hmem, of_decide_eq_true heq ▸ hlabel, rfl⟩
  · rintro ⟨n, hmem, hlabel, rfl⟩
    refine ⟨_, ⟨n.label, hlabel, rfl⟩, ?_⟩
    rw [List.mem_dedup, List.mem_filter]
    refine ⟨List.mem_map_of_mem (List.mem_filter.mpr ⟨hmem, ?_⟩), decide_eq_true h⟩
    exact decide_eq_true rfl

theorem triple_mem_collectEdges {g : StoredGraph} {e : StoredEdge} (he : e ∈ g.edges)
    (h : e.Known) : e.triple ∈ collectEdges g := by
  rw [collectEdges, List.mem_dedup, List.mem_flatMap]
  refine ⟨e.table, List.mem_filter.mpr ⟨g.table_mem e he, h.1⟩, List.mem_map.mpr ?_⟩
  refine ⟨(e.source.qualifiedName, e.target.qualifiedName), List.mem_filter.mpr ⟨?_, ?_⟩, rfl⟩
  · exact List.mem_map.mpr ⟨e, List.mem_filter.mpr ⟨he, decide_eq_true rfl⟩, rfl⟩
  · exact decide_eq_true h.2

/-- An edge is listed when no node of a diffable label has the name of its target. -/
theorem listed_iff {g : StoredGraph} {e : StoredEdge} (he : e ∈ g.edges) :
    g.Listed e ↔ e.Known ∧ ¬g.Diffable e.target.qualifiedName := by
  constructor
  · rintro ⟨hknown, hmem⟩
    refine ⟨hknown, fun hdiff => ?_⟩
    rw [danglingReferences, computeDangling, List.mem_mergeSort, List.mem_filter] at hmem
    exact of_decide_eq_true hmem.2 ((mem_collectNodes hknown.2.2).mpr hdiff)
  · rintro ⟨hknown, hdiff⟩
    refine ⟨hknown, ?_⟩
    rw [danglingReferences, computeDangling, List.mem_mergeSort, List.mem_filter]
    exact ⟨triple_mem_collectEdges he hknown,
      decide_eq_true fun hmem => hdiff ((mem_collectNodes hknown.2.2).mp hmem)⟩

/-! ### The two tables of the schema -/

/-- The relationship tables that are read and end in a label that is not diffable. -/
def strayTables : List RelSchema :=
  [("HasVariant_Enum_Variant", .enum, .variant),
    ("PreviousVersion_Version_Version", .version, .version),
    ("Imports_IacModule_IacModule", .iacModule, .iacModule)]

theorem stray_iff : ∀ table ∈ relTables, table ∈ strayTables ↔
    projectsNames table = true ∧ table.2.2 ∉ diffableLabels := by
  decide +kernel

/-- A target of a diffable label has its own name. -/
theorem diffable_target {g : StoredGraph} {e : StoredEdge} (he : e ∈ g.edges)
    (h : e.table.2.2 ∈ diffableLabels) : g.Diffable e.target.qualifiedName :=
  ⟨e.target, g.target_mem e he, by rw [g.target_label e he]; exact h, rfl⟩

/-- The edges listed as dangling are those whose target is no node of the graph, which is to
say none, exactly where every named edge of the three stray tables has a target that shares
its name with a node of a diffable label. -/
theorem dangling_references_iff (g : StoredGraph) :
    (∀ e ∈ g.edges, g.Listed e ↔ e.target ∉ g.nodes) ↔
      ∀ e ∈ g.edges, e.table ∈ strayTables → e.source.qualifiedName ≠ [] →
        e.target.qualifiedName ≠ [] → g.Diffable e.target.qualifiedName := by
  constructor
  · intro h e he hstray hsource htarget
    have hreads := ((stray_iff e.table (g.table_mem e he)).mp hstray).1
    have hquiet : ¬g.Listed e := fun hlisted => (h e he).mp hlisted (g.target_mem e he)
    rw [listed_iff he] at hquiet
    exact not_not.mp fun hdiff => hquiet ⟨⟨hreads, hsource, htarget⟩, hdiff⟩
  · intro h e he
    refine iff_of_false ?_ fun hmissing => hmissing (g.target_mem e he)
    rw [listed_iff he]
    rintro ⟨⟨hreads, hsource, htarget⟩, hdiff⟩
    by_cases hlabel : e.table.2.2 ∈ diffableLabels
    · exact hdiff (diffable_target he hlabel)
    · have hstray := (stray_iff e.table (g.table_mem e he)).mpr ⟨hreads, hlabel⟩
      exact hdiff (h e he hstray hsource htarget)

/-- An enum with one variant. -/
def oneVariant : StoredGraph where
  nodes := [⟨.enum, ['E'], ['E']⟩, ⟨.variant, ['A'], ['A']⟩]
  edges := [⟨("HasVariant_Enum_Variant", .enum, .variant), ⟨.enum, ['E'], ['E']⟩,
    ⟨.variant, ['A'], ['A']⟩⟩]
  table_mem := by decide +kernel
  source_mem := by decide
  source_label := by decide
  target_mem := by decide
  target_label := by decide

/-- The variant is a node of the graph, and the edge to it is listed as dangling. -/
theorem variant_is_listed :
    ∃ e ∈ oneVariant.edges, oneVariant.Listed e ∧ e.target ∈ oneVariant.nodes := by
  have he : (⟨("HasVariant_Enum_Variant", .enum, .variant), ⟨.enum, ['E'], ['E']⟩,
      ⟨.variant, ['A'], ['A']⟩⟩ : StoredEdge) ∈ oneVariant.edges := List.mem_singleton_self _
  refine ⟨_, he, (listed_iff he).mpr ⟨⟨by decide, by decide, by decide⟩, ?_⟩,
    oneVariant.target_mem _ he⟩
  rintro ⟨n, hn, hlabel, hname⟩
  rcases List.mem_cons.mp hn with rfl | hrest
  · exact absurd hname (by decide)
  · rw [List.mem_singleton] at hrest
    subst hrest
    exact absurd hlabel (by decide)

end AutomatisedPipeline.SemanticDiff

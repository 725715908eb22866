import AutomatisedPipeline.Cypher.Query
import AutomatisedPipeline.Logic.Asks
import AutomatisedPipeline.Store.Columns

/-!
The schema of the graph store as its statements see it (`graph_store/ddl.rs`), and the
programs that put statements to the store.

A graph of an earlier build may lack columns that later builds added, so the schema of a
stored graph is the current one without the columns that are missing.
-/

namespace AutomatisedPipeline.Store

open Text Cypher

/-! ### The schema -/

/-- The node tables: those of the labels, and the table of the marker rows. -/
inductive Table where
  | code (label : NodeLabel)
  | graphMarker
deriving DecidableEq

def Table.name : Table → String
  | .code label => label.name
  | .graphMarker => "GraphMarker"

/-- `NODE_TABLE_SCHEMAS`. -/
def ddlColumns : Table → List String
  | .code .stdlibSymbol => ["id", "name", "language", "receiver_type", "canonical_path"]
  | .code .fileContent => ["id", "content_zstd", "original_size", "compressed_size"]
  | .code label => (nodeColumns label).getD []
  | .graphMarker => ["id", "value"]

/-- `str::starts_with`, on the bytes of a table's name. -/
def startsWith (rel start : String) : Bool :=
  start.toByteArray.data.toList.isPrefixOf rel.toByteArray.data.toList

def isResolutionRel (rel : String) : Bool :=
  startsWith rel "Imports_" || startsWith rel "Calls_" || startsWith rel "Implements_" ||
    startsWith rel "Extends_" || startsWith rel "Uses_" || startsWith rel "References_"

def isStructuralProvenanceRel (rel : String) : Bool :=
  startsWith rel "Defines_" || startsWith rel "HasMethod_" || startsWith rel "HasField_" ||
    startsWith rel "HasVariant_"

def isObservableStaticCallsRel (rel : String) : Bool :=
  ["Calls_Function_Function", "Calls_Function_Method", "Calls_Method_Function",
    "Calls_Method_Method"].contains rel

/-- `rel_properties`. -/
def relProperties (rel : String) : List String :=
  if rel = "FILE_CHANGES_WITH" then
    ["cochange_count", "support", "coupling", "jaccard", "last_co_change"]
  else if startsWith rel "OBSERVED_CALLS_" then ["observed_count"]
  else if isObservableStaticCallsRel rel then
    ["confidence", "resolution_method", "observed_count"]
  else if isResolutionRel rel || isStructuralProvenanceRel rel then
    ["confidence", "resolution_method"]
  else if startsWith rel "EntryPointOf_" then ["confidence"]
  else if startsWith rel "ParticipatesIn_" then ["depth"]
  else if rel = "AstChild_AstNode_AstNode" then ["child_index", "field_name"]
  else []

/-- `NODE_LABELS`. -/
def nodeLabels : List NodeLabel :=
  [.directory, .file, .«module», .function, .method, .struct, .enum, .variant, .trait, .field,
    .constant, .typeAlias, .«import», .callSite, .community, .process, .stdlibSymbol, .commit,
    .version, .iacResource, .iacModule, .iacImage, .astNode, .fileContent]

/-- The schema of a graph whose tables lack the columns `missing`. -/
def storedSchema (missing : Table → List String) : Cypher.Schema Table where
  names := nodeLabels.map NodeLabel.name ++ [Table.graphMarker.name] ++ relTables.map Prod.fst
  columns := fun table => (ddlColumns table).filter fun column => !(missing table).contains column
  tables := relTables.map fun table => (table.1, .code table.2.1, .code table.2.2)
  edgeColumns := relProperties

/-- The schema of a graph that the current build wrote. -/
abbrev schema : Cypher.Schema Table := storedSchema fun _ => []

/-- `label_has_qualified_name`. -/
def labelHasQualifiedName : NodeLabel → Bool
  | .«module» | .function | .method | .struct | .enum | .variant | .trait | .constant
  | .typeAlias | .version | .iacResource | .iacModule => true
  | _ => false

theorem labelHasQualifiedName_iff (label : NodeLabel) :
    labelHasQualifiedName label = true ↔ "qualified_name" ∈ ddlColumns (.code label) := by
  cases label <;> decide +kernel

theorem id_mem_ddlColumns (table : Table) : "id" ∈ ddlColumns table := by
  cases table with
  | code label => cases label <;> decide +kernel
  | graphMarker => decide +kernel

theorem columns_schema (table : Table) : schema.columns table = ddlColumns table := by
  simp [schema, storedSchema]

/-! ### Programs over the store -/

abbrev GraphStatement : Type := Statement Table

/-- What the store answers: the rows, or nothing where it fails. -/
abbrev GraphAnswer : Type := Option (List Row)

abbrev GraphM := Asks GraphStatement GraphAnswer

/-- `GraphStore::execute_query`. -/
def runQuery (q : Query Table) : GraphM GraphAnswer := Asks.question (.query q)

/-- The second cell of a row is the name. -/
def rowNames (name : String) (row : Row) : Bool :=
  decide (row[1]?.map Value.asText = some name.toList)

theorem rowNames_iff {name key : String} :
    rowNames name [.null, .text key.toList] = true ↔ key = name := by
  rw [rowNames, decide_eq_true_eq]
  exact ⟨fun h => String.toList_inj.mp (Option.some.inj h), fun h => by rw [h]; rfl⟩

/-- `GraphStore::node_column_exists`. -/
def nodeColumnExists (label : NodeLabel) (column : String) : GraphM (Option Bool) := do
  match ← Asks.question (.tableInfo (.code label)) with
  | none => return none
  | some rows =>
      return some (rows.any (rowNames column))

/-- `GraphStore::has_node_table`. -/
def hasNodeTable (table : Table) : GraphM (Option Bool) := do
  match ← Asks.question .showTables with
  | none => return none
  | some rows => return some (rows.any (rowNames table.name))

/-- The cell of a row, printed; empty where the row is too short. -/
def cell (row : Row) (i : Nat) : Str := (row[i]?.map Value.asText).getD []

end AutomatisedPipeline.Store

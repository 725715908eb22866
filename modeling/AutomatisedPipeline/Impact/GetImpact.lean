import AutomatisedPipeline.Impact.Dependents
import AutomatisedPipeline.Impact.OpenSites

/-!
`get_impact` (`clustering/impact.rs`, `clustering/impact_reasons.rs`): the dependents of a
target in five sections, and how far the answer can be trusted.

A reason that the answer is a lower bound comes here as what it is about, without its
English text.

The context of a caller (`clustering/impact_context.rs`, `graph_store/code_context.rs`) comes first.
-/

namespace AutomatisedPipeline.Impact

open Text Cypher Store

/-! ### The context of the callers -/

/-- `CONTEXT_UNKNOWN`. -/
def contextUnknown : Str := "unknown".toList

/-- `code_context_marker`; the inner option is `None` where there is no such row. -/
def codeContextMarker : GraphM (Option (Option Nat)) := do
  match ← hasNodeTable .graphMarker with
  | none => return none
  | some false => return some none
  | some true =>
      match ← runQuery {
          pattern := .node .graphMarker
          cond := .eq .a "id" "code_context_form".toList
          returns := .columns [(.a, "value")]
          limit := none } with
      | none => return none
      | some rows => return some (rows.head?.bind fun row => parseU64 (cell row 0))

/-- `code_context_columns_present`. -/
def codeContextColumnsPresent : GraphM (Option Bool) := do
  match ← nodeColumnExists .function "code_context" with
  | some true =>
      match ← nodeColumnExists .method "code_context" with
      | some true => nodeColumnExists .file "target_context"
      | answer => return answer
  | answer => return answer

/-- `has_code_context`; the form is 1. -/
def hasCodeContext : GraphM Bool := do
  if (← codeContextColumnsPresent).getD false then
    return (← codeContextMarker).join == some 1
  else return false

/-- `code_context_basis`. -/
def codeContextBasis : GraphM Str := do
  if !(← hasCodeContext) then return "absent".toList
  match ← runQuery {
      pattern := .node (.code .file)
      cond := .ne .a "target_context" []
      returns := .columns [(.a, "id")]
      limit := some 1 } with
  | none => return "source_only".toList
  | some rows => return if rows.isEmpty then "source_only".toList else "cargo+source".toList

/-- The query for a context column of the nodes with the ids. -/
def contextQuery (label : NodeLabel) (column : String) (ids : List Str) : Query Table where
  pattern := .node (.code label)
  cond := .isIn .a "id" ids
  returns := .columns [(.a, "id"), (.a, column)]
  limit := none

/-- What a column holds for the ids, read in chunks of `READ_CHUNK`. -/
def readContexts (label : NodeLabel) (column : String) (ids : List Str) :
    GraphM (List (Str × Str)) :=
  Asks.collect (fun chunk => do
    match ← runQuery (contextQuery label column chunk) with
    | none => return []
    | some rows => return rows.map fun row => (cell row 0, cell row 1)) (ids.toChunks 200)

/-- `combine`. -/
def combine (own file : Str) : Str :=
  if own.isEmpty && file.isEmpty then contextUnknown else if own.isEmpty then file else own

/-- `caller_contexts`. Of several entries of an id the last one stands. -/
def callerContexts (callers : List (NodeLabel × Str)) : GraphM (List (Str × Str)) := do
  if !(← hasCodeContext) then return callers.map fun caller => (caller.2, contextUnknown)
  let nodeContext ← Asks.collect (fun label =>
    readContexts label "code_context" ((callers.filter fun caller => caller.1 = label).map Prod.snd))
      [NodeLabel.function, .method]
  let files := ((callers.filterMap fun caller => Cfg.extractFilePrefix caller.2).dedup).mergeSort
    fun a b => decide (a ≤ b)
  let fileContext ← readContexts .file "target_context" files
  return callers.map fun caller =>
    (caller.2, combine ((nodeContext.reverse.lookup caller.2).getD [])
      (((Cfg.extractFilePrefix caller.2).bind fun file => fileContext.reverse.lookup file).getD []))

/-- `attach`: the callers with their contexts, and where the answer comes from. -/
def attach (callers : List ImpactNode) : GraphM (List ImpactNode × Str) := do
  let contexts ← callerContexts (callers.map fun caller => (caller.label, caller.id))
  let basis ← codeContextBasis
  return (callers.map fun caller =>
    { caller with context := (contexts.lookup caller.id).getD contextUnknown }, basis)

/-! ### Membership -/

/-- `first_column` of the query of a membership traversal. -/
def firstColumn (label : NodeLabel) (rel : String) (target : NodeLabel) (column : String)
    (symbol : Str) : GraphM (List Str) := do
  match ← runQuery {
      pattern := .edge rel (.code label) (.code target)
      cond := .or (.eq .a "id" symbol) (.eq .a "qualified_name" symbol)
      returns := .columns [(.b, column)]
      limit := none } with
  | none => return []
  | some rows => return (rows.map fun row => cell row 0).filter fun value => !value.isEmpty

/-- `SYMBOL_LABELS`. -/
def symbolLabels : List NodeLabel :=
  [.function, .method, .struct, .enum, .trait, .constant, .typeAlias, .«module»]

/-- `collect_communities`. -/
def collectCommunities (target : Str) : GraphM (List Str) :=
  Asks.collect (fun label =>
    firstColumn label ("MemberOf_" ++ label.name ++ "_Community") .community "id" target) symbolLabels

/-- `collect_processes`. -/
def collectProcesses (target : Str) : GraphM (List Str) :=
  Asks.collect (fun label =>
    firstColumn label ("ParticipatesIn_" ++ label.name ++ "_Process") .process "name" target)
    [NodeLabel.function, .method]

/-! ### Twins -/

/-- `CFG_GATE_LABELS`. -/
def cfgGateLabels : List NodeLabel :=
  [.«module», .function, .method, .struct, .enum, .variant, .trait, .field, .constant, .typeAlias]

/-- `TwinRow`. -/
structure TwinRow where
  id : Str
  label : NodeLabel
  cfgGate : Str
  cfgActive : Str
deriving DecidableEq

/-- `normalize`. -/
def normalizeActive (active : Str) : Str :=
  if active = "active".toList ∨ active = "inactive".toList then active else "unknown".toList

/-- `display_gate`. -/
def displayGate (own id : Str) : Str :=
  if !own.isEmpty then own
  else
    match Cfg.cfgGatesIn id with
    | [] => []
    | [one] => one
    | many => "all(".toList ++ join ",".toList many ++ ")".toList

/-- The query of `cfg_twin_rows`; without the column its cell is empty. -/
def twinQuery (label : NodeLabel) (hasActive : Bool) (leaf : Str) : Query Table where
  pattern := .node (.code label)
  cond := .and (.eq .a "name" leaf) (.contains .a "id" Cfg.twinMark)
  returns := .columns ([(.a, "id"), (.a, "cfg_gate")] ++
    if hasActive then [(.a, "cfg_active")] else [])
  limit := none

/-- `cfg_twin_rows`. -/
def cfgTwinRows (plain : Str) : GraphM (List TwinRow) := do
  let leaf := afterLast "::".toList plain
  let out ← Asks.collect (fun label => do
    let hasActive := (← nodeColumnExists label "cfg_active").getD false
    match ← runQuery (twinQuery label hasActive leaf) with
    | none => return []
    | some rows =>
        return (rows.filter fun row => stripCfgGates (cell row 0) == plain).map fun row =>
          { id := cell row 0
            label := label
            cfgGate := displayGate (cell row 1) (cell row 0)
            cfgActive := normalizeActive (cell row 2) }) cfgGateLabels
  return out.mergeSort fun a b => decide (a.id ≤ b.id)

/-! ### Reasons -/

/-- What a reason is about. -/
inductive EpistemicReason where
  | dynamicDispatch (label : NodeLabel) (implementors : Nat)
  | heuristicEdges (count : Nat)
  | unresolvedCallsites (attribution : Attribution)
  | missingReferenceIndexing (docScriptCount : Nat)
  | cfgTwins (twins : List TwinRow) (openSites : Nat)
deriving DecidableEq

/-- `ReverseDependents`, `OwnedDependents`. -/
structure Dependents where
  callers : List ImpactNode
  importers : List ImpactNode
  users : List ImpactNode
  implementors : List ImpactNode
  references : List ImpactNode

/-- The sections one after the other. -/
def Dependents.all (deps : Dependents) : List ImpactNode :=
  deps.callers ++ deps.importers ++ deps.users ++ deps.implementors ++ deps.references

/-- The query of `lookup_target_label` for one label. -/
def targetLabelQuery (esc : Str) (label : NodeLabel) : Query Table where
  pattern := .node (.code label)
  cond := .or (.eq .a "id" esc) (.eq .a "qualified_name" esc)
  returns := .columns [(.a, "id")]
  limit := some 1

/-- The loop of `lookup_target_label`. -/
def lookupTargetLabelIn (esc : Str) : List NodeLabel → GraphM (Option NodeLabel)
  | [] => return none
  | label :: labels => do
      if (← existsRow (targetLabelQuery esc label)).getD false then return some label
      else lookupTargetLabelIn esc labels

/-- `lookup_target_label`. -/
def lookupTargetLabel (esc : Str) : GraphM (Option NodeLabel) := lookupTargetLabelIn esc symbolLabels

/-- `dynamic_dispatch_reason`; `Trait` is the only dynamic-dispatch surface. -/
def dynamicDispatchReason (esc : Str) (implementors : List ImpactNode) :
    GraphM (Option EpistemicReason) := do
  match ← lookupTargetLabel esc with
  | some .trait => return some (.dynamicDispatch .trait implementors.length)
  | _ => return none

/-- `heuristic_edge_reason`. -/
def heuristicEdgeReason (deps : Dependents) : Option EpistemicReason :=
  let count := deps.all.countP fun n => isHeuristicEdge n.confidence
  if count = 0 then none else some (.heuristicEdges count)

/-- `unresolved_callsite_reason`. -/
def unresolvedCallsiteReason (attribution : Attribution) : Option EpistemicReason :=
  if attribution.total = 0 then none else some (.unresolvedCallsites attribution)

/-- The query of `is_file_node`. -/
def fileNodeQuery (esc : Str) : Query Table where
  pattern := .node (.code .file)
  cond := .eq .a "id" esc
  returns := .columns [(.a, "id")]
  limit := some 1

/-- The query that counts the Markdown and shell files. -/
def docScriptQuery : Query Table where
  pattern := .node (.code .file)
  cond := .or (.or (.or (.or (.endsWith .a "id" ".md".toList) (.endsWith .a "id" ".markdown".toList))
    (.endsWith .a "id" ".mdx".toList)) (.endsWith .a "id" ".sh".toList))
    (.endsWith .a "id" ".bash".toList)
  returns := .count
  limit := none

/-- The query for some reference edge; only whether it has a row is read. -/
def referenceEdgesQuery : Query Table where
  pattern := .edge "References_File_File" (.code .file) (.code .file)
  cond := .always
  returns := .columns []
  limit := some 1

/-- `missing_reference_indexing_reason`. -/
def missingReferenceIndexingReason : GraphM (Option EpistemicReason) := do
  let answer ← runQuery docScriptQuery
  let docScriptCount := ((answer.bind List.head?).bind fun row => row.head?.bind Value.asCount).getD 0
  if docScriptCount = 0 then return none
  let edges ← runQuery referenceEdgesQuery
  if (edges.map fun rows => !rows.isEmpty).getD false then return none
  return some (.missingReferenceIndexing docScriptCount)

/-- The reason about references, asked for where no reference was found. -/
def fileReason (esc : Str) (references : List ImpactNode) : GraphM (Option EpistemicReason) :=
  if references.isEmpty then do
    if (← existsRow (fileNodeQuery esc)).getD false then missingReferenceIndexingReason
    else return none
  else return none

/-- `build_epistemic_reasons`. -/
def buildEpistemicReasons (esc : Str) (attribution : Attribution) (deps : Dependents) :
    GraphM (List EpistemicReason) := do
  let dispatch ← dynamicDispatchReason esc deps.implementors
  let missing ← fileReason esc deps.references
  return dispatch.toList ++ (heuristicEdgeReason deps).toList ++
    (unresolvedCallsiteReason attribution).toList ++ missing.toList

/-- `cfg_twin_reason`. -/
def cfgTwinReason (twins : List TwinRow) (attribution : Attribution) : Option EpistemicReason :=
  if twins.length < 2 then none else some (.cfgTwins twins attribution.cfgTwins)

/-- The twins of the target; only an id with a gate has any. -/
def targetTwins (qualifiedName : Str) : GraphM (List TwinRow) :=
  if hasCfgGate qualifiedName then cfgTwinRows (stripCfgGates qualifiedName) else return []

/-- `Epistemics`. -/
structure Epistemics where
  attribution : Attribution
  reasons : List EpistemicReason
  boundary : Boundary
  twins : List TwinRow

/-- `resolve_epistemic` and `resolve_epistemics`. -/
def resolveEpistemics (qualifiedName : Str) (deps : Dependents) : GraphM Epistemics := do
  let bare := lastSegment (stripCfgGates qualifiedName)
  let attribution ← unresolvedCallsiteAttribution qualifiedName bare
  let reasons ← buildEpistemicReasons qualifiedName attribution deps
  let twins ← targetTwins qualifiedName
  let all := reasons ++ (cfgTwinReason twins attribution).toList
  return {
    attribution := attribution
    reasons := all
    boundary := if all.isEmpty then .exact else .lowerBound
    twins := twins }

/-! ### The answer -/

/-- `collect_dependents`. -/
def collectDependents (esc : Str) : GraphM (Dependents × Str) := do
  let found ← reverseDependents esc "Calls_"
  let (callers, basis) ← attach found
  let importers ← reverseDependents esc "Imports_"
  let users ← reverseDependents esc "Uses_"
  let implementors ← reverseDependents esc "Implements_"
  let references ← reverseDependents esc "References_"
  return ({ callers, importers, users, implementors, references }, basis)

/-- `ImpactResult`, with the attribution's fields together. -/
structure ImpactResult where
  communities : List Str
  processes : List Str
  dependents : Dependents
  epistemic : Boundary
  epistemicReasons : List EpistemicReason
  attribution : Attribution
  cfgTwins : List TwinRow
  codeContextBasis : Str

/-- `get_impact`. -/
def getImpact (qualifiedName : Str) : GraphM ImpactResult := do
  let communities ← collectCommunities qualifiedName
  let processes ← collectProcesses qualifiedName
  let (dependents, basis) ← collectDependents qualifiedName
  let epistemics ← resolveEpistemics qualifiedName dependents
  return {
    communities := communities
    processes := processes
    dependents := dependents
    epistemic := epistemics.boundary
    epistemicReasons := epistemics.reasons
    attribution := epistemics.attribution
    cfgTwins := epistemics.twins
    codeContextBasis := basis }

end AutomatisedPipeline.Impact

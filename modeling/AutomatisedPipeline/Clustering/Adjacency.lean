import AutomatisedPipeline.Logic.Assoc
import AutomatisedPipeline.Logic.Vec
import AutomatisedPipeline.Text.Basic

/-!
The adjacency that clustering runs over (`community_adjacency.rs`), over exact rationals.

Each node has the list of its neighbours with the weights of the edges; an edge stands in
the lists of both of its ends, and a loop twice in the list of its node. What
`collectWeightedEdges` builds from any rows of the store is an undirected graph
(`collectedGraph`).
-/

namespace AutomatisedPipeline.Clustering

open Text Vec

/-! ### The source's definitions -/

/-- The neighbours of every node, with the weights. -/
abbrev Neighbors (n : Nat) : Type := Vector (List (Fin n × ℚ)) n

/-- `Adjacency`, its nodes being the numbers below `n`. -/
structure Adjacency (n : Nat) where
  neighbors : Neighbors n
  totalWeight : ℚ

/-- `k`: the summed weight of a node's edges. -/
def weightSum {n : Nat} (nbrs : List (Fin n × ℚ)) : ℚ := (nbrs.map Prod.snd).sum

/-- `edge_weight`. -/
def edgeWeight (relName : Str) : ℚ :=
  let startsWith (p : String) : Bool := p.toList.isPrefixOf relName
  if startsWith "Calls_" then 3
  else if startsWith "Implements_" || startsWith "Extends_" then 2
  else if startsWith "Imports_" || startsWith "Uses_" then 1
  else if startsWith "HasMethod_" || startsWith "HasField_" || startsWith "HasVariant_" ||
      startsWith "Defines_" || startsWith "Contains_" then 5
  else 0

section Collect

variable {n : Nat}

/-- An edge is pushed to both of its ends. -/
def addEdge (w : ℚ) (adj : Adjacency n) (a b : Fin n) : Adjacency n :=
  let pushed := adj.neighbors.set a (adj.neighbors.get a ++ [(b, w)]) a.isLt
  { neighbors := pushed.set b (pushed.get b ++ [(a, w)]) b.isLt
    totalWeight := adj.totalWeight + w }

/-- One row of a query, whose ids must both be known. -/
def addRow (idToIdx : Str → Option (Fin n)) (w : ℚ) (adj : Adjacency n) (row : List Str) :
    Adjacency n :=
  match row with
  | from' :: to' :: _ =>
      match idToIdx from', idToIdx to' with
      | some a, some b => addEdge w adj a b
      | _, _ => adj
  | _ => adj

/-- The edges of one relation table; a query that fails has none. -/
def addTable (idToIdx : Str → Option (Fin n)) (adj : Adjacency n)
    (table : Str × Option (List (List Str))) : Adjacency n :=
  let w := edgeWeight table.1
  if w = 0 then adj
  else
    match table.2 with
    | none => adj
    | some rows => rows.foldl (addRow idToIdx w) adj

/-- `collect_weighted_edges` on the answers to its queries, table by table. -/
def collectWeightedEdges (idToIdx : Str → Option (Fin n))
    (tables : List (Str × Option (List (List Str)))) : Adjacency n :=
  tables.foldl (addTable idToIdx) { neighbors := Vector.replicate n [], totalWeight := 0 }

end Collect

/-! ### Undirected graphs -/

section Undirected

variable {n : Nat}

/-- The weight between two nodes. -/
def weight (neighbors : Neighbors n) (i j : Fin n) : ℚ := Assoc.total (neighbors.get i) j

/-- Every edge stands at both of its ends, and counts once in the total weight, which is
not negative. -/
structure Undirected (adj : Adjacency n) : Prop where
  symm : ∀ i j, weight adj.neighbors i j = weight adj.neighbors j i
  total : ∑ i, weightSum (adj.neighbors.get i) = 2 * adj.totalWeight
  nonneg : 0 ≤ adj.totalWeight

/-- An adjacency that is an undirected weighted graph. -/
structure UndirectedGraph (n : Nat) extends Adjacency n where
  undirected : Undirected toAdjacency

theorem edgeWeight_nonneg (relName : Str) : 0 ≤ edgeWeight relName := by
  simp only [edgeWeight]
  split_ifs <;> norm_num

theorem neighbors_addEdge (w : ℚ) (adj : Adjacency n) (a b i : Fin n) :
    (addEdge w adj a b).neighbors.get i = adj.neighbors.get i ++
      (if i = a then [(b, w)] else []) ++ if i = b then [(a, w)] else [] := by
  simp only [addEdge, get_set, Function.update_apply]
  by_cases ha : i = a
  · subst ha
    by_cases hb : i = b
    · subst hb
      simp
    · simp [hb]
  · by_cases hb : i = b
    · subst hb
      simp [ha]
    · simp [ha, hb]

theorem weight_addEdge (w : ℚ) (adj : Adjacency n) (a b i j : Fin n) :
    weight (addEdge w adj a b).neighbors i j = weight adj.neighbors i j +
      (if i = a ∧ j = b then w else 0) + if i = b ∧ j = a then w else 0 := by
  have hsingle : ∀ (p : Prop) [Decidable p] (c : Fin n),
      Assoc.total (if p then [(c, w)] else []) j = if p ∧ j = c then w else 0 := by
    intro p _ c
    by_cases hp : p
    · rw [if_pos hp, Assoc.total_cons, Assoc.total_nil, add_zero]
      simp only [hp, true_and, eq_comm]
    · simp [hp]
  rw [weight, neighbors_addEdge, Assoc.total_append, Assoc.total_append, hsingle, hsingle, weight]

theorem weightSum_addEdge (w : ℚ) (adj : Adjacency n) (a b i : Fin n) :
    weightSum ((addEdge w adj a b).neighbors.get i) = weightSum (adj.neighbors.get i) +
      (if i = a then w else 0) + if i = b then w else 0 := by
  have hsingle : ∀ (p : Prop) [Decidable p] (c : Fin n),
      ((if p then [(c, w)] else []).map Prod.snd).sum = if p then w else 0 := by
    intro p _ c
    by_cases hp : p
    · simp [hp]
    · simp [hp]
  rw [weightSum, neighbors_addEdge, List.map_append, List.map_append, List.sum_append,
    List.sum_append, hsingle, hsingle, weightSum]

theorem undirected_addEdge {w : ℚ} (hw : 0 ≤ w) {adj : Adjacency n} (h : Undirected adj)
    (a b : Fin n) : Undirected (addEdge w adj a b) where
  symm i j := by
    rw [weight_addEdge, weight_addEdge, h.symm i j]
    simp only [and_comm]
    ring
  total := by
    have hloop : (addEdge w adj a b).totalWeight = adj.totalWeight + w := rfl
    simp only [weightSum_addEdge, Finset.sum_add_distrib, h.total, Finset.sum_ite_eq',
      Finset.mem_univ, if_true, hloop]
    ring
  nonneg := add_nonneg h.nonneg hw

theorem undirected_addRow (idToIdx : Str → Option (Fin n)) {w : ℚ} (hw : 0 ≤ w)
    {adj : Adjacency n} (h : Undirected adj) (row : List Str) :
    Undirected (addRow idToIdx w adj row) := by
  unfold addRow
  split
  · split
    · exact undirected_addEdge hw h _ _
    · exact h
  · exact h

theorem undirected_addTable (idToIdx : Str → Option (Fin n)) {adj : Adjacency n}
    (h : Undirected adj) (table : Str × Option (List (List Str))) :
    Undirected (addTable idToIdx adj table) := by
  rw [addTable]
  split
  · exact h
  · split
    · exact h
    · rename_i rows _
      exact List.foldlRecOn rows _ h fun adj h row _ =>
        undirected_addRow idToIdx (edgeWeight_nonneg _) h row

/-- What is collected is an undirected graph, whatever the store answers. -/
theorem undirected_collectWeightedEdges (idToIdx : Str → Option (Fin n))
    (tables : List (Str × Option (List (List Str)))) :
    Undirected (collectWeightedEdges idToIdx tables) := by
  apply List.foldlRecOn tables
  · exact ⟨fun i j => by simp only [weight, get_replicate]; rfl,
      by simp only [get_replicate, weightSum, List.map_nil, List.sum_nil,
        Finset.sum_const_zero, mul_zero], le_refl _⟩
  · exact fun adj h table _ => undirected_addTable idToIdx h table

/-- The graph that clustering runs over. -/
def collectedGraph (idToIdx : Str → Option (Fin n))
    (tables : List (Str × Option (List (List Str)))) : UndirectedGraph n where
  toAdjacency := collectWeightedEdges idToIdx tables
  undirected := undirected_collectWeightedEdges idToIdx tables

end Undirected

end AutomatisedPipeline.Clustering

import AutomatisedPipeline.Clustering.OneLevel

/-!
Louvain never loses, and its reported modularity is Newman's.

The aggregated lists are the aggregated graph (`weight_aggregateGraph`), so an aggregation
keeps degrees, total weight and the modularity of every partition of its nodes. `LevelOf`
are the levels that aggregations of a graph lead to; the loop stays in them, and no level
loses against the one before.

The comment over the function states the sum over all pairs of nodes; the loop visits the
stored entries. A pair of one community that shares no edge, a node with itself included,
has no entry, and a pair with parallel edges has several. `surplus` weighs what is stored
too often, or too seldom, by the degrees: the two numbers are the same exactly where it
adds up to nothing (`computeModularity_eq_modularityAt_iff`).
-/

namespace AutomatisedPipeline.Clustering

open Modularity Vec

/-! ### Aggregated lists -/

section Aggregated

variable {n k : Nat}

theorem total_addWeight (comm : Vector (Fin k) n) (ci : Fin k) (nbrs : List (Fin n × ℚ))
    (weights : Neighbors k) (x y : Fin k) :
    Assoc.total ((nbrs.foldl (addWeight comm ci) weights).get x) y =
      Assoc.total (weights.get x) y +
        if ci = x then ∑ j, if comm.get j = y then Assoc.total nbrs j else 0 else 0 := by
  induction nbrs generalizing weights with
  | nil => simp
  | cons e nbrs ih =>
      rw [List.foldl_cons, ih, Assoc.sum_total_cons (fun j => comm.get j = y), addWeight, get_set,
        Function.update_apply]
      by_cases hx : x = ci
      · subst hx
        rw [if_pos rfl, if_pos rfl, if_pos rfl, Assoc.total_upsert, add_assoc]
      · rw [if_neg hx, if_neg (Ne.symm hx), if_neg (Ne.symm hx)]

/-- The lists of the aggregated graph have the aggregated weights. -/
theorem weight_aggregateGraph (neighbors : Neighbors n) (comm : Vector (Fin k) n) :
    weight (aggregateGraph neighbors comm) = aggregate (weight neighbors) comm.get := by
  funext x y
  have main : ∀ (nodes : List (Fin n)) (weights : Neighbors k),
      Assoc.total ((nodes.foldl (fun weights i => (neighbors.get i).foldl
        (addWeight comm (comm.get i)) weights) weights).get x) y = Assoc.total (weights.get x) y +
        (nodes.map fun i =>
          ∑ j, if comm.get i = x ∧ comm.get j = y then weight neighbors i j else 0).sum := by
    intro nodes
    induction nodes with
    | nil => simp
    | cons i nodes ih =>
        intro weights
        rw [List.foldl_cons, ih, total_addWeight, List.map_cons, List.sum_cons, add_assoc]
        by_cases hx : comm.get i = x
        · simp [hx, weight]
        · simp [hx]
  rw [weight, aggregateGraph, get_eq_getElem, Vector.getElem_map, ← get_eq_getElem, sortByKey,
    Assoc.total_perm (List.perm_insertionSort _ _), main, get_replicate, Assoc.total_nil, zero_add,
    aggregate, Fin.sum_univ_def]

/-- A super-node has the summed degree of its members. -/
theorem weightSum_aggregateGraph (neighbors : Neighbors n) (comm : Vector (Fin k) n) (c : Fin k) :
    weightSum ((aggregateGraph neighbors comm).get c) =
      ∑ i, if comm.get i = c then weightSum (neighbors.get i) else 0 := by
  rw [← degree_weight, weight_aggregateGraph, degree_aggregate, classDegree]
  simp only [degree_weight]

theorem sum_weightSum_aggregateGraph (neighbors : Neighbors n) (comm : Vector (Fin k) n) :
    ∑ c, weightSum ((aggregateGraph neighbors comm).get c) =
      ∑ i, weightSum (neighbors.get i) := by
  have h := sum_degree_aggregate (weight neighbors) comm.get
  rw [← weight_aggregateGraph] at h
  simpa only [degree_weight] using h

end Aggregated

/-! ### Levels -/

section Levels

variable {N : Nat}

/-- The levels that aggregations of a graph lead to, with the level's node of every node of
the graph. -/
inductive LevelOf (neighbors : Neighbors N) : {n : Nat} → Neighbors n → (Fin N → Fin n) → Prop where
  | start : LevelOf neighbors neighbors id
  | next {n k : Nat} {level : Neighbors n} {nodeToComm : Fin N → Fin n} (comm : Vector (Fin k) n) :
      LevelOf neighbors level nodeToComm →
        LevelOf neighbors (aggregateGraph level comm) (comm.get ∘ nodeToComm)

/-- A partition of a level has the modularity of the partition it induces on the graph. -/
theorem LevelOf.modularity_eq {neighbors : Neighbors N} {n : Nat} {level : Neighbors n}
    {nodeToComm : Fin N → Fin n} (h : LevelOf neighbors level nodeToComm) (gamma twoM : ℚ)
    {L : Type} [DecidableEq L] (p : Fin n → L) :
    modularity (weight level) gamma twoM p =
      modularity (weight neighbors) gamma twoM (p ∘ nodeToComm) := by
  induction h with
  | start => rfl
  | next comm _ ih =>
      rw [weight_aggregateGraph, modularity_aggregate, ih]
      rfl

theorem LevelOf.symm {neighbors : Neighbors N}
    (hsymm : ∀ i j, weight neighbors i j = weight neighbors j i) {n : Nat} {level : Neighbors n}
    {nodeToComm : Fin N → Fin n} (h : LevelOf neighbors level nodeToComm) (i j : Fin n) :
    weight level i j = weight level j i := by
  induction h with
  | start => exact hsymm i j
  | next comm _ ih =>
      rw [weight_aggregateGraph]
      exact aggregate_symm ih comm.get i j

/-- The communities of a level lose nothing against its nodes. -/
theorem modularity_commOf {neighbors : Neighbors N}
    (hsymm : ∀ i j, weight neighbors i j = weight neighbors j i) {m : ℚ} (hm : 0 < m) (gamma : ℚ)
    {n : Nat} {level : Neighbors n} {nodeToComm : Fin N → Fin n}
    (hlevel : LevelOf neighbors level nodeToComm) :
    modularity (weight neighbors) gamma (2 * m) nodeToComm ≤
      modularity (weight neighbors) gamma (2 * m) ((commOf level m gamma).get ∘ nodeToComm) :=
  calc modularity (weight neighbors) gamma (2 * m) nodeToComm
      = modularity (weight level) gamma (2 * m) (id : Fin n → Fin n) :=
        (hlevel.modularity_eq gamma (2 * m) id).symm
    _ ≤ modularity (weight level) gamma (2 * m) (movedComm level m gamma).get :=
        modularity_movedComm (hlevel.symm hsymm) hm
    _ = modularity (weight level) gamma (2 * m) (commOf level m gamma).get :=
        modularity_congr _ _ _ fun i j => (commOf_eq_iff level m gamma i j).symm
    _ = modularity (weight neighbors) gamma (2 * m) ((commOf level m gamma).get ∘ nodeToComm) :=
        hlevel.modularity_eq gamma (2 * m) _

/-- From any level, the loop ends in communities that are the numbers below some number
and that lose nothing against the level. -/
theorem levels_spec {neighbors : Neighbors N}
    (hsymm : ∀ i j, weight neighbors i j = weight neighbors j i) {m : ℚ} (hm : 0 < m) (gamma : ℚ)
    {n : Nat} {level : Neighbors n} {nodeToComm : Vector (Fin n) N}
    (hlevel : LevelOf neighbors level nodeToComm.get)
    (honto : Function.Surjective nodeToComm.get) :
    (∃ k, ∀ c, (∃ i, (levels m gamma n level nodeToComm).get i = c) ↔ c < k) ∧
      modularity (weight neighbors) gamma (2 * m) nodeToComm.get ≤
        modularity (weight neighbors) gamma (2 * m) (levels m gamma n level nodeToComm).get := by
  induction n, level, nodeToComm using levels.induct m gamma with
  | case1 n level nodeToComm hstable =>
      have honto' := (commOf_surjective level m gamma).comp honto
      have hstep := modularity_commOf hsymm hm gamma hlevel
      rw [← get_map] at honto' hstep
      rw [levels]
      simp only [hstable, dif_pos]
      rw [get_map]
      refine ⟨⟨numComms (oneLevel level m gamma), fun c => ⟨?_, fun hlt => ?_⟩⟩, ?_⟩
      · rintro ⟨i, rfl⟩
        exact Fin.isLt _
      · obtain ⟨i, hi⟩ := honto' ⟨c, hlt⟩
        exact ⟨i, congrArg Fin.val hi⟩
      · exact hstep.trans (modularity_congr _ _ _ fun i j => Fin.val_inj.symm).le
  | case2 n level nodeToComm comm nodeToComm' hmerged ih =>
      have hnext := hlevel.next (commOf level m gamma)
      have honto' := (commOf_surjective level m gamma).comp honto
      have hstep := modularity_commOf hsymm hm gamma hlevel
      rw [← get_map] at hnext honto' hstep
      obtain ⟨hlabels, hle⟩ := ih hnext honto'
      rw [levels]
      simp only [hmerged, dif_neg, not_false_eq_true]
      exact ⟨hlabels, hstep.trans hle⟩

end Levels

/-! ### Louvain -/

/-- The modularity of a partition of a graph at a resolution. -/
def modularityAt {n : Nat} (graph : UndirectedGraph n) (gamma : ℚ) (comm : Fin n → Nat) : ℚ :=
  modularity (weight graph.neighbors) gamma (2 * graph.totalWeight) comm

/-- The partition that `louvain` returns is labelled by the numbers below some number, and
its modularity is at least that of the single nodes; every aggregation of a level of the
graph keeps the total weight, gives each node of the next level the summed degree of its
members, and keeps the modularity of the partitions of the next level. -/
theorem louvain_never_loses {n : Nat} (graph : UndirectedGraph n) (gamma : ℚ) :
    (∃ k, ∀ c, (∃ i, (louvain graph.toAdjacency gamma).1.get i = c) ↔ c < k) ∧
      modularityAt graph gamma (fun i => i.val) ≤
        modularityAt graph gamma (louvain graph.toAdjacency gamma).1.get ∧
      ∀ (k k' : Nat) (level : Neighbors k) (nodeToComm : Fin n → Fin k) (comm : Vector (Fin k') k),
        LevelOf graph.neighbors level nodeToComm →
          ∑ c, weightSum ((aggregateGraph level comm).get c) = ∑ i, weightSum (level.get i) ∧
            (∀ c, weightSum ((aggregateGraph level comm).get c) =
              ∑ i, if comm.get i = c then weightSum (level.get i) else 0) ∧
            (∀ p : Fin k' → Nat, modularity (weight (aggregateGraph level comm)) gamma
              (2 * graph.totalWeight) p =
                modularity (weight level) gamma (2 * graph.totalWeight) (p ∘ comm.get)) ∧
            ∀ p : Fin k' → Nat, modularity (weight (aggregateGraph level comm)) gamma
              (2 * graph.totalWeight) p = modularityAt graph gamma (p ∘ comm.get ∘ nodeToComm) := by
  have hsingle : (∃ k, ∀ c, (∃ i : Fin n, (Vector.ofFn Fin.val).get i = c) ↔ c < k) :=
    ⟨n, fun c => ⟨fun ⟨i, hi⟩ => by simp [← hi, get_eq_getElem],
      fun hlt => ⟨⟨c, hlt⟩, by simp [get_eq_getElem]⟩⟩⟩
  have hself : (fun i : Fin n => i.val) = (Vector.ofFn Fin.val).get := by
    funext i
    simp [get_eq_getElem]
  have hid : modularityAt graph gamma (fun i => i.val) =
      modularity (weight graph.neighbors) gamma (2 * graph.totalWeight) (id : Fin n → Fin n) :=
    modularity_congr _ _ _ fun i j => Fin.val_inj
  have honto : Function.Surjective (Vector.ofFn id : Vector (Fin n) n).get := by
    rw [get_ofFn_id]
    exact Function.surjective_id
  have hstart : LevelOf graph.neighbors graph.neighbors (Vector.ofFn id : Vector (Fin n) n).get := by
    rw [get_ofFn_id]
    exact .start
  refine ⟨?_, ?_, fun k k' level nodeToComm comm hlevel => ⟨?_, ?_, fun p => ?_, fun p => ?_⟩⟩
  · rw [louvain]
    split_ifs with hn hm
    · exact hsingle
    · exact hsingle
    · have hpos := lt_of_le_of_ne graph.undirected.nonneg (Ne.symm hm)
      exact (levels_spec graph.undirected.symm hpos gamma hstart honto).1
  · rw [louvain]
    split_ifs with hn hm
    · rw [hself]
    · rw [hself]
    · have hpos := lt_of_le_of_ne graph.undirected.nonneg (Ne.symm hm)
      have hle := (levels_spec graph.undirected.symm hpos gamma hstart honto).2
      rw [get_ofFn_id] at hle
      rw [hid]
      exact hle
  · exact sum_weightSum_aggregateGraph level comm
  · exact weightSum_aggregateGraph level comm
  · rw [weight_aggregateGraph, modularity_aggregate]
  · exact (hlevel.next comm).modularity_eq gamma _ p

/-- Two functions, one of which calls the other. -/
def callGraph : UndirectedGraph 2 :=
  collectedGraph (fun id => if id = "f".toList then some 0 else if id = "g".toList then some 1 else none)
    [("Calls_Function_Function".toList, some [["f".toList, "g".toList]])]

/-- On the two functions, aggregated into one node. -/
theorem louvain_never_loses_callGraph :
    (∃ k, ∀ c, (∃ i, (louvain callGraph.toAdjacency 1).1.get i = c) ↔ c < k) ∧
      modularityAt callGraph 1 (fun i => i.val) ≤
        modularityAt callGraph 1 (louvain callGraph.toAdjacency 1).1.get ∧
      ∑ c, weightSum ((aggregateGraph callGraph.neighbors #v[(0 : Fin 1), 0]).get c) =
        ∑ i, weightSum (callGraph.neighbors.get i) := by
  obtain ⟨hlabels, hle, haggregate⟩ := louvain_never_loses callGraph 1
  exact ⟨hlabels, hle, (haggregate 2 1 callGraph.neighbors id #v[0, 0] .start).1⟩

/-! ### The loop as a sum over pairs -/

section Pairs

variable {n : Nat}

/-- How many entries the list of `i` has for `j`. -/
def entries (neighbors : Neighbors n) (i j : Fin n) : Nat :=
  ((neighbors.get i).map Prod.fst).count j

/-- The entries of a pair beyond one, weighed by the degrees of its nodes. -/
def surplus (neighbors : Neighbors n) (i j : Fin n) : ℚ :=
  ((entries neighbors i j : ℚ) - 1) * (weightSum (neighbors.get i) * weightSum (neighbors.get j))

/-- A sum over the entries of a list, with the entries of one node taken together. -/
theorem foldl_entries (p : Fin n → Prop) [DecidablePred p] (expected : Fin n → ℚ)
    (nbrs : List (Fin n × ℚ)) (q : ℚ) :
    nbrs.foldl (fun q e => if p e.1 then q + (e.2 - expected e.1) else q) q =
      q + ∑ j, if p j then
        Assoc.total nbrs j - ((nbrs.map Prod.fst).count j : ℚ) * expected j else 0 := by
  induction nbrs generalizing q with
  | nil => simp
  | cons e nbrs ih =>
      have hpair : ∀ j, (if p j then Assoc.total (e :: nbrs) j -
            (((e :: nbrs).map Prod.fst).count j : ℚ) * expected j else 0) =
          (if j = e.1 then if p e.1 then e.2 - expected e.1 else 0 else 0) +
            if p j then
              Assoc.total nbrs j - ((nbrs.map Prod.fst).count j : ℚ) * expected j else 0 := by
        intro j
        rw [Assoc.total_cons, List.map_cons, List.count_cons]
        by_cases hj : j = e.1
        · subst hj
          by_cases hp : p e.1
          · simp only [hp, if_true, beq_self_eq_true]
            push_cast
            ring
          · simp [hp]
        · simp [hj, Ne.symm hj]
      rw [List.foldl_cons, ih]
      simp only [hpair, Finset.sum_add_distrib, Finset.sum_ite_eq', Finset.mem_univ, if_true]
      split_ifs
      · ring
      · ring

theorem foldl_add {ι : Type} (items : List ι) (f : ℚ → ι → ℚ) (g : ι → ℚ)
    (hf : ∀ q i, f q i = q + g i) (q : ℚ) : items.foldl f q = q + (items.map g).sum := by
  induction items generalizing q with
  | nil => simp
  | cons i items ih =>
      rw [List.foldl_cons, ih, hf, List.map_cons, List.sum_cons, add_assoc]

/-- The loops of `compute_modularity` add up, over the pairs of a community, the weight less
the expected weight once for each entry. -/
theorem computeModularity_eq_within (neighbors : Neighbors n) (comm : Vector Nat n) {m : ℚ}
    (hm : m ≠ 0) :
    computeModularity neighbors comm m =
      within (fun i j => weight neighbors i j - entries neighbors i j *
        (weightSum (neighbors.get i) * weightSum (neighbors.get j) / (2 * m))) comm.get /
          (2 * m) := by
  have hnode : ∀ (q : ℚ) (i : Fin n), (neighbors.get i).foldl (fun q e =>
      if comm.get i = comm.get e.1 then
        q + (e.2 - weightSum (neighbors.get i) * weightSum (neighbors.get e.1) / (2 * m))
      else q) q = q + ∑ j, if comm.get i = comm.get j then
        weight neighbors i j - entries neighbors i j *
          (weightSum (neighbors.get i) * weightSum (neighbors.get j) / (2 * m)) else 0 :=
    fun q i => foldl_entries (fun j => comm.get i = comm.get j) (fun j =>
      weightSum (neighbors.get i) * weightSum (neighbors.get j) / (2 * m)) (neighbors.get i) q
  rw [computeModularity, if_neg hm, foldl_add _ _ _ hnode, zero_add, ← Fin.sum_univ_def]
  rfl

end Pairs

/-! ### Newman's modularity -/

section Newman

variable {n : Nat} (graph : UndirectedGraph n) (comm : Vector Nat n)

/-- What the reported number lacks of Newman's is the surplus of the pairs of a community. -/
theorem computeModularity_eq_sub (hm : graph.totalWeight ≠ 0) :
    computeModularity graph.neighbors comm graph.totalWeight =
      modularityAt graph 1 comm.get -
        within (surplus graph.neighbors) comm.get / (2 * graph.totalWeight) ^ 2 := by
  have hpair : ∀ i j : Fin n, (if comm.get i = comm.get j then
        weight graph.neighbors i j - entries graph.neighbors i j *
          (weightSum (graph.neighbors.get i) * weightSum (graph.neighbors.get j) /
            (2 * graph.totalWeight)) else 0) =
      (if comm.get i = comm.get j then
        excess (weight graph.neighbors) 1 (2 * graph.totalWeight) i j else 0) -
      (if comm.get i = comm.get j then surplus graph.neighbors i j else 0) /
        (2 * graph.totalWeight) := by
    intro i j
    split_ifs
    · rw [excess, surplus, degree_weight, degree_weight]
      ring
    · simp
  rw [computeModularity_eq_within graph.neighbors comm hm, modularityAt, modularity]
  simp only [within, hpair, Finset.sum_sub_distrib, ← Finset.sum_div]
  rw [sub_div, div_div, pow_two]

/-- The reported modularity is Newman's exactly where the graph has no edge, or the surplus
and the missing entries of the pairs of a community, weighed by the degrees, are equal. -/
theorem computeModularity_eq_modularityAt_iff :
    computeModularity graph.neighbors comm graph.totalWeight = modularityAt graph 1 comm.get ↔
      graph.totalWeight = 0 ∨ within (surplus graph.neighbors) comm.get = 0 := by
  by_cases hm : graph.totalWeight = 0
  · simp [computeModularity, modularityAt, modularity, hm]
  · have htwoM : (2 * graph.totalWeight) ^ 2 ≠ 0 := pow_ne_zero 2 (mul_ne_zero two_ne_zero hm)
    rw [computeModularity_eq_sub graph comm hm, sub_eq_self, div_eq_zero_iff]
    simp only [hm, htwoM, or_false, false_or]

end Newman

/-- Of a function that calls another, in one community, a half is reported and none is there:
the pairs of a node with itself have no entry. -/
theorem computeModularity_not_newman :
    ¬ ∀ (n : Nat) (graph : UndirectedGraph n) (comm : Vector Nat n),
      computeModularity graph.neighbors comm graph.totalWeight =
        modularityAt graph 1 comm.get := by
  intro h
  have hneighbors : callGraph.neighbors = #v[[(1, 3)], [(0, 3)]] := by decide +kernel
  have hweight : callGraph.totalWeight = 3 := by decide +kernel
  have hsub := computeModularity_eq_sub callGraph #v[0, 0] (by rw [hweight]; norm_num)
  rw [h 2 callGraph #v[0, 0], eq_comm, sub_eq_self, hneighbors, hweight] at hsub
  revert hsub
  decide +kernel

end AutomatisedPipeline.Clustering

import AutomatisedPipeline.Logic.Modularity
import AutomatisedPipeline.Clustering.Adjacency
import AutomatisedPipeline.Clustering.Renumber

/-!
Louvain clustering (`community_louvain.rs`), over exact rationals.

A level is a graph whose nodes are the numbers below `n`. `oneLevel` moves single nodes,
`aggregateGraph` makes a node of each community, and `levels` repeats both until no move
is left.

Local moves never lower the modularity.

`moveGain` is the gain of modularity theory as long as the loop's totals are right
(`moveGain_eq_gain`), and a moved node keeps them right (`sums_moveNode`). A node moves
where its gain is at least that of staying, so no move, no pass and no level loses
(`modularity_movedComm`).
-/

namespace AutomatisedPipeline.Clustering

open Modularity Vec

/-! ### Moving nodes -/

section OneLevel

variable {n : Nat}

/-- The communities of the nodes and the summed degrees of the communities. -/
structure Moves (n : Nat) where
  comm : Vector (Fin n) n
  sigmaTot : Vector ℚ n

/-- `ki_in`: the weights from `i` to each neighbouring community. -/
def kiIn (nbrs : List (Fin n × ℚ)) (comm : Vector (Fin n) n) (i : Fin n) : List (Fin n × ℚ) :=
  nbrs.foldl
    (fun acc e => if e.1 = i then acc else Assoc.upsert (comm.get e.1) 0 (· + e.2) acc) []

def sortByKey {k : Nat} (entries : List (Fin k × ℚ)) : List (Fin k × ℚ) :=
  entries.insertionSort fun a b => a.1 ≤ b.1

/-- The gain of a move into the community `c`. -/
def moveGain (gamma twoM ki : ℚ) (sigmaTot : Vector ℚ n) (c : Fin n) (kiInC : ℚ) : ℚ :=
  kiInC - gamma * sigmaTot.get c * ki / twoM

/-- A candidate replaces the best community when its gain is greater. -/
def bestStep (gamma twoM ki : ℚ) (sigmaTot : Vector ℚ n) (best candidate : Fin n × ℚ) :
    Fin n × ℚ :=
  let gain := moveGain gamma twoM ki sigmaTot candidate.1 candidate.2
  if best.2 < gain then (candidate.1, gain) else best

/-- The best community of a node that is out of its own, and its gain. -/
def bestOf (gamma twoM ki : ℚ) (sigmaTot : Vector ℚ n) (entries : List (Fin n × ℚ))
    (oldC : Fin n) : Fin n × ℚ :=
  (sortByKey entries).foldl (bestStep gamma twoM ki sigmaTot)
    (oldC, moveGain gamma twoM ki sigmaTot oldC ((entries.lookup oldC).getD 0))

/-- Adds to the summed degree of a community. -/
def addTo (sigmaTot : Vector ℚ n) (c : Fin n) (w : ℚ) : Vector ℚ n :=
  sigmaTot.set c (sigmaTot.get c + w) c.isLt

/-- The body of the loop over the nodes: one node is moved, and whether any was is noted. -/
def moveNode (neighbors : Neighbors n) (gamma twoM : ℚ) (acc : Moves n × Bool) (i : Fin n) :
    Moves n × Bool :=
  let oldC := acc.1.comm.get i
  let ki := weightSum (neighbors.get i)
  let sigmaTot := addTo acc.1.sigmaTot oldC (-ki)
  let best := bestOf gamma twoM ki sigmaTot (kiIn (neighbors.get i) acc.1.comm i) oldC
  ({ comm := acc.1.comm.set i best.1 i.isLt, sigmaTot := addTo sigmaTot best.1 ki },
    acc.2 || best.1 != oldC)

/-- The loop over the passes: it stops behind a pass that moves no node. -/
def passes (neighbors : Neighbors n) (gamma twoM : ℚ) : Nat → Moves n → Moves n
  | 0, moves => moves
  | left + 1, moves =>
      let pass := (List.finRange n).foldl (moveNode neighbors gamma twoM) (moves, false)
      if pass.2 then passes neighbors gamma twoM left pass.1 else pass.1

/-- `max_passes`. -/
def maxPasses : Nat := 100

/-- The communities that `one_level` renumbers. -/
def movedComm (neighbors : Neighbors n) (m gamma : ℚ) : Vector (Fin n) n :=
  (passes neighbors gamma (2 * m) maxPasses
    { comm := Vector.ofFn id, sigmaTot := neighbors.map weightSum }).comm

/-- `one_level`. -/
def oneLevel (neighbors : Neighbors n) (m gamma : ℚ) : List Nat :=
  renumberCommunities ((movedComm neighbors m gamma).toList.map Fin.val)

theorem length_oneLevel (neighbors : Neighbors n) (m gamma : ℚ) :
    (oneLevel neighbors m gamma).length = n := by
  rw [oneLevel, length_renumber, List.length_map, Vector.length_toList]

theorem numComms_oneLevel_le (neighbors : Neighbors n) (m gamma : ℚ) :
    numComms (oneLevel neighbors m gamma) ≤ n := by
  have h := numComms_renumber_le ((movedComm neighbors m gamma).toList.map Fin.val)
  rwa [List.length_map, Vector.length_toList] at h

/-- The communities of a level, as nodes of the next one. -/
def commOf (neighbors : Neighbors n) (m gamma : ℚ) :
    Vector (Fin (numComms (oneLevel neighbors m gamma))) n :=
  ⟨((oneLevel neighbors m gamma).attach.map fun c => ⟨c.val, lt_numComms c.property⟩).toArray,
    by simp [length_oneLevel]⟩

end OneLevel

/-! ### Aggregating -/

section Aggregate

variable {n k : Nat}

/-- The loop body of `aggregate_graph` over the neighbours of a node of community `ci`. -/
def addWeight (comm : Vector (Fin k) n) (ci : Fin k) (weights : Neighbors k) (e : Fin n × ℚ) :
    Neighbors k :=
  weights.set ci (Assoc.upsert (comm.get e.1) 0 (· + e.2) (weights.get ci)) ci.isLt

/-- `aggregate_graph`. -/
def aggregateGraph (neighbors : Neighbors n) (comm : Vector (Fin k) n) : Neighbors k :=
  ((List.finRange n).foldl
    (fun weights i => (neighbors.get i).foldl (addWeight comm (comm.get i)) weights)
    (Vector.replicate k [])).map sortByKey

end Aggregate

/-! ### Louvain -/

/-- The loop of `louvain`, from a level and the level's node of every original node. -/
def levels {N : Nat} (m gamma : ℚ) (n : Nat) (levelNeighbors : Neighbors n)
    (nodeToComm : Vector (Fin n) N) : Vector Nat N :=
  let comm := commOf levelNeighbors m gamma
  let nodeToComm := nodeToComm.map comm.get
  if _ : numComms (oneLevel levelNeighbors m gamma) = n then nodeToComm.map Fin.val
  else
    levels m gamma (numComms (oneLevel levelNeighbors m gamma)) (aggregateGraph levelNeighbors comm)
      nodeToComm
termination_by n
decreasing_by exact Nat.lt_of_le_of_ne (numComms_oneLevel_le levelNeighbors m gamma) (by assumption)

/-- `compute_modularity`. -/
def computeModularity {n : Nat} (neighbors : Neighbors n) (comm : Vector Nat n) (m : ℚ) : ℚ :=
  if m = 0 then 0
  else
    ((List.finRange n).foldl
      (fun q i => (neighbors.get i).foldl
        (fun q e =>
          if comm.get i = comm.get e.1 then
            q + (e.2 - weightSum (neighbors.get i) * weightSum (neighbors.get e.1) / (2 * m))
          else q) q) 0) / (2 * m)

/-- `louvain`. -/
def louvain {n : Nat} (adj : Adjacency n) (gamma : ℚ) : Vector Nat n × ℚ :=
  if n = 0 then (Vector.ofFn Fin.val, 0)
  else if adj.totalWeight = 0 then (Vector.ofFn Fin.val, 0)
  else
    let nodeToComm := levels adj.totalWeight gamma n adj.neighbors (Vector.ofFn id)
    (nodeToComm, computeModularity adj.neighbors nodeToComm adj.totalWeight)

variable {n : Nat}

/-! ### The weights to the communities -/

theorem degree_weight (neighbors : Neighbors n) (i : Fin n) :
    degree (weight neighbors) i = weightSum (neighbors.get i) := Assoc.sum_total (neighbors.get i)

/-- `ki_in` has, for each community, the weight of `i` to its other nodes. -/
theorem total_kiIn (neighbors : Neighbors n) (comm : Vector (Fin n) n) (i c : Fin n) :
    Assoc.total (kiIn (neighbors.get i) comm i) c =
      link (weight neighbors) comm.get i c := by
  have main : ∀ (nbrs acc : List (Fin n × ℚ)),
      Assoc.total (nbrs.foldl (fun acc e =>
        if e.1 = i then acc else Assoc.upsert (comm.get e.1) 0 (· + e.2) acc) acc) c =
        Assoc.total acc c + ∑ j, if j ≠ i ∧ comm.get j = c then Assoc.total nbrs j else 0 := by
    intro nbrs
    induction nbrs with
    | nil => simp
    | cons e nbrs ih =>
        intro acc
        rw [List.foldl_cons, ih, Assoc.sum_total_cons (fun j => j ≠ i ∧ comm.get j = c), ← add_assoc]
        congr 1
        by_cases hself : e.1 = i
        · simp [hself]
        · simp [hself, Assoc.total_upsert]
  rw [kiIn, main, Assoc.total_nil, zero_add]
  rfl

theorem nodup_kiIn (nbrs : List (Fin n × ℚ)) (comm : Vector (Fin n) n) (i : Fin n) :
    ((kiIn nbrs comm i).map Prod.fst).Nodup := by
  refine List.foldlRecOn (motive := fun acc : List (Fin n × ℚ) => (acc.map Prod.fst).Nodup)
    nbrs _ ?_ ?_
  · exact List.nodup_nil
  · intro acc hacc e _
    split
    · exact hacc
    · exact Assoc.nodup_keys_upsert _ _ _ hacc

/-! ### The best community -/

section Best

variable (gamma twoM ki : ℚ) (sigmaTot : Vector ℚ n)

/-- The best gain is that of its community, and at least that of the old one. -/
theorem bestOf_spec {entries : List (Fin n × ℚ)} (hnodup : (entries.map Prod.fst).Nodup)
    (oldC : Fin n) :
    moveGain gamma twoM ki sigmaTot oldC (Assoc.total entries oldC) ≤
      moveGain gamma twoM ki sigmaTot (bestOf gamma twoM ki sigmaTot entries oldC).1
        (Assoc.total entries (bestOf gamma twoM ki sigmaTot entries oldC).1) := by
  have hbest : (bestOf gamma twoM ki sigmaTot entries oldC).2 =
        moveGain gamma twoM ki sigmaTot (bestOf gamma twoM ki sigmaTot entries oldC).1
          (Assoc.total entries (bestOf gamma twoM ki sigmaTot entries oldC).1) ∧
      moveGain gamma twoM ki sigmaTot oldC (Assoc.total entries oldC) ≤
        (bestOf gamma twoM ki sigmaTot entries oldC).2 := by
    rw [bestOf, Assoc.getD_lookup_eq_total hnodup]
    refine List.foldlRecOn (motive := fun best : Fin n × ℚ =>
      best.2 = moveGain gamma twoM ki sigmaTot best.1 (Assoc.total entries best.1) ∧
      moveGain gamma twoM ki sigmaTot oldC (Assoc.total entries oldC) ≤ best.2)
      (sortByKey entries) _ ?_ ?_
    · exact ⟨rfl, le_refl _⟩
    · intro best ⟨heq, hle⟩ candidate hcandidate
      have hmem : candidate ∈ entries := (List.perm_insertionSort _ _).mem_iff.mp hcandidate
      rw [bestStep]
      split
      · rename_i hlt
        exact ⟨by rw [Assoc.total_eq_of_mem hnodup hmem], hle.trans hlt.le⟩
      · exact ⟨heq, hle⟩
  exact hbest.2.trans hbest.1.le

end Best

/-! ### One move -/

/-- The totals are the summed degrees of the communities. -/
def Sums (neighbors : Neighbors n) (moves : Moves n) : Prop :=
  ∀ c, moves.sigmaTot.get c = classDegree (weight neighbors) moves.comm.get c

/-- The summed degree of a community without one node. -/
def classDegreeWithout (neighbors : Neighbors n) (comm : Fin n → Fin n) (i c : Fin n) : ℚ :=
  ∑ j, if j ≠ i ∧ comm j = c then degree (weight neighbors) j else 0

theorem classDegree_update (neighbors : Neighbors n) (comm : Fin n → Fin n) (i b c : Fin n) :
    classDegree (weight neighbors) (Function.update comm i b) c =
      classDegreeWithout neighbors comm i c +
        if c = b then weightSum (neighbors.get i) else 0 := by
  have hnode : ∀ j, (if Function.update comm i b j = c then degree (weight neighbors) j else 0) =
      (if j ≠ i ∧ comm j = c then degree (weight neighbors) j else 0) +
        if j = i then (if c = b then weightSum (neighbors.get i) else 0) else 0 := by
    intro j
    by_cases hj : j = i
    · subst hj
      simp [degree_weight, eq_comm]
    · simp [hj]
  rw [classDegree, classDegreeWithout]
  simp only [hnode, Finset.sum_add_distrib, Finset.sum_ite_eq', Finset.mem_univ, if_true]

/-- With the node taken out, the totals are those without it. -/
theorem addTo_out {neighbors : Neighbors n} {moves : Moves n} (h : Sums neighbors moves)
    (i c : Fin n) :
    (addTo moves.sigmaTot (moves.comm.get i) (-weightSum (neighbors.get i))).get c =
      classDegreeWithout neighbors moves.comm.get i c := by
  have hsum := classDegree_update neighbors moves.comm.get i (moves.comm.get i) c
  rw [Function.update_eq_self, ← h c] at hsum
  rw [addTo, get_set, Function.update_apply]
  split_ifs at hsum ⊢ with hc
  · rw [← hc, hsum]
    ring
  · rw [hsum, add_zero]

/-- The gain that the loop computes is the gain of the modularity. -/
theorem moveGain_eq_gain {neighbors : Neighbors n} {moves : Moves n} (h : Sums neighbors moves)
    (gamma twoM : ℚ) (i c : Fin n) :
    moveGain gamma twoM (weightSum (neighbors.get i))
      (addTo moves.sigmaTot (moves.comm.get i) (-weightSum (neighbors.get i))) c
      (Assoc.total (kiIn (neighbors.get i) moves.comm i) c) =
        gain (weight neighbors) gamma twoM moves.comm.get i c := by
  rw [moveGain, addTo_out h, total_kiIn, gain_eq, degree_weight, classDegreeWithout]
  ring

section Move

variable {neighbors : Neighbors n} {gamma twoM : ℚ} {acc : Moves n × Bool}

/-- A moved node keeps the totals right. -/
theorem sums_moveNode (h : Sums neighbors acc.1) (i : Fin n) :
    Sums neighbors (moveNode neighbors gamma twoM acc i).1 := by
  intro c
  simp only [moveNode, get_set]
  rw [classDegree_update, ← addTo_out h, addTo, get_set, Function.update_apply]
  split_ifs with hc
  · rw [hc]
  · rw [add_zero]

/-- A node moves where it gains at least what staying gains. -/
theorem modularity_moveNode (hsymm : ∀ i j, weight neighbors i j = weight neighbors j i)
    (htwoM : 0 < twoM) (h : Sums neighbors acc.1) (i : Fin n) :
    modularity (weight neighbors) gamma twoM acc.1.comm.get ≤
      modularity (weight neighbors) gamma twoM
        (moveNode neighbors gamma twoM acc i).1.comm.get := by
  have hbest := bestOf_spec gamma twoM (weightSum (neighbors.get i))
    (addTo acc.1.sigmaTot (acc.1.comm.get i) (-weightSum (neighbors.get i)))
    (nodup_kiIn (neighbors.get i) acc.1.comm i) (acc.1.comm.get i)
  rw [moveGain_eq_gain h, moveGain_eq_gain h] at hbest
  simp only [moveNode, get_set]
  rw [modularity_update hsymm]
  have hgain := div_nonneg (mul_nonneg zero_le_two (sub_nonneg.mpr hbest)) htwoM.le
  linarith

end Move

/-! ### A whole level -/

section Level

variable {neighbors : Neighbors n} {gamma twoM : ℚ}

theorem passes_spec (hsymm : ∀ i j, weight neighbors i j = weight neighbors j i)
    (htwoM : 0 < twoM) (left : Nat) {moves : Moves n} (h : Sums neighbors moves) :
    modularity (weight neighbors) gamma twoM moves.comm.get ≤
      modularity (weight neighbors) gamma twoM
        (passes neighbors gamma twoM left moves).comm.get := by
  induction left generalizing moves with
  | zero => exact le_refl _
  | succ left ih =>
      have hpass : ∀ nodes : List (Fin n),
          Sums neighbors (nodes.foldl (moveNode neighbors gamma twoM) (moves, false)).1 ∧
            modularity (weight neighbors) gamma twoM moves.comm.get ≤
              modularity (weight neighbors) gamma twoM
                (nodes.foldl (moveNode neighbors gamma twoM) (moves, false)).1.comm.get := by
        intro nodes
        refine List.foldlRecOn (motive := fun acc : Moves n × Bool => Sums neighbors acc.1 ∧
          modularity (weight neighbors) gamma twoM moves.comm.get ≤
            modularity (weight neighbors) gamma twoM acc.1.comm.get) nodes _ ?_ ?_
        · exact ⟨h, le_refl _⟩
        · exact fun acc ⟨hsums, hle⟩ i _ =>
            ⟨sums_moveNode hsums i, hle.trans (modularity_moveNode hsymm htwoM hsums i)⟩
      obtain ⟨hsums, hle⟩ := hpass (List.finRange n)
      rw [passes]
      split
      · exact hle.trans (ih hsums)
      · exact hle

/-- The moves of a level lose nothing against its nodes alone. -/
theorem modularity_movedComm (hsymm : ∀ i j, weight neighbors i j = weight neighbors j i)
    {m : ℚ} (hm : 0 < m) :
    modularity (weight neighbors) gamma (2 * m) (id : Fin n → Fin n) ≤
      modularity (weight neighbors) gamma (2 * m) (movedComm neighbors m gamma).get := by
  have hsums : Sums neighbors { comm := Vector.ofFn id, sigmaTot := neighbors.map weightSum } := by
    intro c
    simp [classDegree, degree_weight, get_eq_getElem]
  have hle := @passes_spec _ _ gamma (2 * m) hsymm (mul_pos two_pos hm) maxPasses _ hsums
  rw [get_ofFn_id] at hle
  rwa [movedComm]

end Level

/-! ### Renumbering a level -/

section Renumbered

variable (neighbors : Neighbors n) (m gamma : ℚ)

theorem getElem?_oneLevel (i : Fin n) :
    (oneLevel neighbors m gamma)[i.val]? = some ((commOf neighbors m gamma).get i).val := by
  have hlt : i.val < (oneLevel neighbors m gamma).length := by
    rw [length_oneLevel]
    exact i.isLt
  rw [List.getElem?_eq_getElem hlt]
  rw [commOf, get_eq_getElem]
  simp

/-- Two nodes are in one community exactly when they were moved into one. -/
theorem commOf_eq_iff (i j : Fin n) :
    (commOf neighbors m gamma).get i = (commOf neighbors m gamma).get j ↔
      (movedComm neighbors m gamma).get i = (movedComm neighbors m gamma).get j := by
  have hmoved : ∀ i : Fin n, ((movedComm neighbors m gamma).toList.map Fin.val)[i.val]? =
      some ((movedComm neighbors m gamma).get i).val := by
    intro i
    simp [get_eq_getElem]
  have hiff := renumber_eq_iff (hmoved i) (hmoved j) (getElem?_oneLevel neighbors m gamma i)
    (getElem?_oneLevel neighbors m gamma j)
  rw [← Fin.val_inj, hiff, Fin.val_inj]

/-- Every number below `num_comms` is the community of a node. -/
theorem commOf_surjective : Function.Surjective (commOf neighbors m gamma).get := by
  intro c
  have hmem : c.val ∈ oneLevel neighbors m gamma := mem_renumber_iff.mpr c.isLt
  obtain ⟨i, hi⟩ := List.mem_iff_getElem?.mp hmem
  obtain ⟨hlt, -⟩ := List.getElem?_eq_some_iff.mp hi
  rw [length_oneLevel] at hlt
  refine ⟨⟨i, hlt⟩, Fin.ext (Option.some.inj ?_)⟩
  rw [← getElem?_oneLevel]
  exact hi

end Renumbered

end AutomatisedPipeline.Clustering

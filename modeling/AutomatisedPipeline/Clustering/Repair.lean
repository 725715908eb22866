import AutomatisedPipeline.Clustering.Adjacency
import AutomatisedPipeline.Clustering.Renumber
import AutomatisedPipeline.Logic.BreadthFirst

/-!
`repair_c2` (`community_repair.rs`): communities that fall apart are split.

The communities are taken one after another. The nodes of one are searched breadth first;
its first component keeps the number, each further one gets a number that is above all
numbers in use, so that a community that is still to come keeps its nodes
(`repaired_splitCommunity`). In the end two nodes share their community exactly when they are
connected inside their first one, whatever the partition was (`repairs_repairC2`).
-/

namespace AutomatisedPipeline.Clustering

open Text Vec BreadthFirst

variable {n : Nat}

/-! ### The source's definitions -/

/-- The neighbours of a node, without the weights. -/
def linked (neighbors : Neighbors n) (i : Fin n) : List (Fin n) := (neighbors.get i).map Prod.fst

/-- `connected_components_within`. -/
def connectedComponentsWithin (members : List (Fin n)) (neighbors : Neighbors n)
    (comm : Vector Nat n) (community : Nat) : List (List (Fin n)) :=
  components (linked neighbors)
    (fun nbr => members.contains nbr && comm.get nbr == community) members

/-- The loop state of `repair_c2`. -/
structure Repairing (n : Nat) where
  comm : Vector Nat n
  nextComm : Nat

/-- The nodes of a component get the next number. -/
def relabel (acc : Repairing n) (component : List (Fin n)) : Repairing n :=
  { comm := component.foldl (fun comm (node : Fin n) => comm.set node acc.nextComm node.isLt) acc.comm
    nextComm := acc.nextComm + 1 }

/-- The `members` of a community. -/
def membersOf (comm : Vector Nat n) (c : Nat) : List (Fin n) :=
  (List.finRange n).filter fun i => comm.get i == c

/-- The loop body of `repair_c2`. -/
def splitCommunity (neighbors : Neighbors n) (acc : Repairing n) (c : Nat) : Repairing n :=
  let members := membersOf acc.comm c
  if members.length ≤ 1 then acc
  else
    let components := connectedComponentsWithin members neighbors acc.comm c
    if components.length ≤ 1 then acc
    else (components.drop 1).foldl relabel acc

/-- `renumber_communities` on the communities of all nodes. -/
def renumbered (comm : Vector Nat n) : Vector Nat n :=
  ⟨(renumberCommunities comm.toList).toArray, by simp [length_renumber]⟩

/-- `repair_c2`. -/
def repairC2 (adj : Adjacency n) (comm : Vector Nat n) : Vector Nat n :=
  let top := numComms comm.toList
  let acc := (List.range top).foldl (splitCommunity adj.neighbors) { comm, nextComm := top }
  renumbered acc.comm

/-! ### Graphs and connected communities -/

/-- An adjacency that is a graph: an edge stands at both of its ends. -/
structure Graph (n : Nat) extends Adjacency n where
  bothWays : ∀ i j, j ∈ linked neighbors i → i ∈ linked neighbors j

/-- An edge inside a community. -/
def InnerEdge (neighbors : Neighbors n) (comm : Vector Nat n) (i j : Fin n) : Prop :=
  j ∈ linked neighbors i ∧ comm.get i = comm.get j

/-- Two nodes that are connected inside their community. -/
def Connected (neighbors : Neighbors n) (comm : Vector Nat n) : Fin n → Fin n → Prop :=
  Relation.ReflTransGen (InnerEdge neighbors comm)

/-- What a repair of a partition is for: communities that are connected, as large as they can
be inside the given ones, and numbered from zero on. -/
structure Repairs (graph : Graph n) (comm repaired : Vector Nat n) : Prop where
  connected : ∀ i j, repaired.get i = repaired.get j → Connected graph.neighbors repaired i j
  refines : ∀ i j, repaired.get i = repaired.get j → comm.get i = comm.get j
  together : ∀ i j, Connected graph.neighbors comm i j → repaired.get i = repaired.get j
  contiguous : ∃ count, ∀ c, (∃ i, repaired.get i = c) ↔ c < count

theorem linked_addEdge (w : ℚ) (adj : Adjacency n) (a b i j : Fin n) :
    j ∈ linked (addEdge w adj a b).neighbors i ↔
      j ∈ linked adj.neighbors i ∨ i = a ∧ j = b ∨ i = b ∧ j = a := by
  have hsingle : ∀ (p : Prop) [Decidable p] (c : Fin n),
      j ∈ (if p then [(c, w)] else []).map Prod.fst ↔ p ∧ j = c := by
    intro p _ c
    by_cases hp : p
    · simp [hp]
    · simp [hp]
  rw [linked, neighbors_addEdge, List.map_append, List.map_append, List.mem_append,
    List.mem_append, hsingle, hsingle, linked, or_assoc]

theorem bothWays_addRow (idToIdx : Str → Option (Fin n)) (w : ℚ) {adj : Adjacency n}
    (h : ∀ i j, j ∈ linked adj.neighbors i → i ∈ linked adj.neighbors j) (row : List Str) :
    ∀ i j, j ∈ linked (addRow idToIdx w adj row).neighbors i →
      i ∈ linked (addRow idToIdx w adj row).neighbors j := by
  unfold addRow
  split
  · split
    · rename_i a b _ _
      intro i j hij
      rw [linked_addEdge] at hij ⊢
      rcases hij with hij | ⟨hi, hj⟩ | ⟨hi, hj⟩
      · exact .inl (h i j hij)
      · exact .inr (.inr ⟨hj, hi⟩)
      · exact .inr (.inl ⟨hj, hi⟩)
    · exact h
  · exact h

/-- What is collected is a graph, whatever the store answers. -/
theorem bothWays_collectWeightedEdges (idToIdx : Str → Option (Fin n))
    (tables : List (Str × Option (List (List Str)))) :
    ∀ i j, j ∈ linked (collectWeightedEdges idToIdx tables).neighbors i →
      i ∈ linked (collectWeightedEdges idToIdx tables).neighbors j := by
  rw [collectWeightedEdges]
  refine List.foldlRecOn (motive := fun adj : Adjacency n =>
    ∀ i j, j ∈ linked adj.neighbors i → i ∈ linked adj.neighbors j) tables _ ?_ ?_
  · intro i j hij
    rw [linked, get_replicate] at hij
    cases hij
  · intro adj h table _
    rw [addTable]
    split
    · exact h
    · split
      · exact h
      · rename_i rows _
        exact List.foldlRecOn (motive := fun adj : Adjacency n =>
          ∀ i j, j ∈ linked adj.neighbors i → i ∈ linked adj.neighbors j) rows _ h
          fun adj h row _ => bothWays_addRow idToIdx _ h row

/-- The graph that communities are repaired over. -/
def storeGraph (idToIdx : Str → Option (Fin n))
    (tables : List (Str × Option (List (List Str)))) : Graph n where
  toAdjacency := collectWeightedEdges idToIdx tables
  bothWays := bothWays_collectWeightedEdges idToIdx tables

/-! ### New numbers -/

theorem get_relabel (acc : Repairing n) (component : List (Fin n)) (i : Fin n) :
    (relabel acc component).comm.get i =
      if i ∈ component then acc.nextComm else acc.comm.get i := by
  have main : ∀ comm : Vector Nat n,
      (component.foldl (fun comm (node : Fin n) => comm.set node acc.nextComm node.isLt) comm).get i =
        if i ∈ component then acc.nextComm else comm.get i := by
    induction component with
    | nil => simp
    | cons node component ih =>
        intro comm
        rw [List.foldl_cons, ih, get_set, Function.update_apply]
        by_cases hi : i ∈ component
        · simp [hi]
        · simp [hi]
  exact main acc.comm

theorem nextComm_relabel (acc : Repairing n) (component : List (Fin n)) :
    (relabel acc component).nextComm = acc.nextComm + 1 := rfl

theorem nextComm_foldl_relabel (cs : List (List (Fin n))) (acc : Repairing n) :
    (cs.foldl relabel acc).nextComm = acc.nextComm + cs.length := by
  induction cs generalizing acc with
  | nil => rfl
  | cons c cs ih =>
      rw [List.foldl_cons, ih, nextComm_relabel, List.length_cons]
      omega

theorem get_foldl_relabel_of_notMem {cs : List (List (Fin n))} {acc : Repairing n} {i : Fin n}
    (h : ∀ c ∈ cs, i ∉ c) : (cs.foldl relabel acc).comm.get i = acc.comm.get i := by
  induction cs generalizing acc with
  | nil => rfl
  | cons c cs ih =>
      rw [List.forall_mem_cons] at h
      rw [List.foldl_cons, ih h.2, get_relabel, if_neg h.1]

theorem get_foldl_relabel_of_mem {cs : List (List (Fin n))} {acc : Repairing n} {i : Fin n}
    (hdisjoint : cs.Pairwise List.Disjoint) {k : Nat} (hk : k < cs.length) (h : i ∈ cs[k]) :
    (cs.foldl relabel acc).comm.get i = acc.nextComm + k := by
  induction cs generalizing acc k with
  | nil => cases hk
  | cons c cs ih =>
      obtain ⟨hhead, htail⟩ := List.pairwise_cons.mp hdisjoint
      rw [List.foldl_cons]
      cases k with
      | zero =>
          rw [get_foldl_relabel_of_notMem fun c' hc' => (hhead c' hc' h ·), get_relabel]
          exact if_pos h
      | succ k =>
          rw [ih htail (Nat.lt_of_succ_lt_succ hk) h, nextComm_relabel]
          omega

/-! ### One community -/

/-- Whether a node has the community. -/
def hasComm (comm : Vector Nat n) (c : Nat) (i : Fin n) : Bool := comm.get i == c

theorem mem_membersOf {comm : Vector Nat n} {c : Nat} {i : Fin n} :
    i ∈ membersOf comm c ↔ comm.get i = c := by
  simp [membersOf]

theorem connectedComponentsWithin_membersOf (neighbors : Neighbors n) (comm : Vector Nat n)
    (c : Nat) : connectedComponentsWithin (membersOf comm c) neighbors comm c =
      components (linked neighbors) (hasComm comm c) (membersOf comm c) := by
  have hinside : (fun nbr => (membersOf comm c).contains nbr && comm.get nbr == c) =
      hasComm comm c := by
    funext nbr
    by_cases h : comm.get nbr = c
    · simp [hasComm, mem_membersOf, h]
    · simp [hasComm, h]
  rw [connectedComponentsWithin, hinside]

/-- What is done with one community: its nodes keep their number or get new ones, two of
them the same exactly when they are joined. -/
structure Split (neighbors : Neighbors n) (c : Nat) (acc acc' : Repairing n) : Prop where
  next_le : acc.nextComm ≤ acc'.nextComm
  other : ∀ i, acc.comm.get i ≠ c → acc'.comm.get i = acc.comm.get i
  own : ∀ i, acc.comm.get i = c → acc'.comm.get i = c ∨
    acc.nextComm ≤ acc'.comm.get i ∧ acc'.comm.get i < acc'.nextComm
  eq_iff : ∀ i j, acc.comm.get i = c → acc.comm.get j = c →
    (acc'.comm.get i = acc'.comm.get j ↔ Joined (linked neighbors) (hasComm acc.comm c) i j)

/-- Nothing is done where all nodes of the community are joined. -/
theorem split_self {neighbors : Neighbors n} {c : Nat} {acc : Repairing n}
    (h : ∀ i j, acc.comm.get i = c → acc.comm.get j = c →
      Joined (linked neighbors) (hasComm acc.comm c) i j) : Split neighbors c acc acc where
  next_le := Nat.le_refl _
  other _ _ := rfl
  own _ hi := .inl hi
  eq_iff i j hi hj := iff_of_true (hi.trans hj.symm) (h i j hi hj)

/-- The components behind the first get numbers of their own. -/
theorem split_foldl_relabel {neighbors : Neighbors n} {c : Nat} {acc : Repairing n}
    (hc : c < acc.nextComm) {first : List (Fin n)} {rest : List (List (Fin n))}
    (hsplits : Splits (linked neighbors) (hasComm acc.comm c) (first :: rest))
    (hcovers : ∀ i, acc.comm.get i = c → ∃ component ∈ first :: rest, i ∈ component) :
    Split neighbors c acc (rest.foldl relabel acc) := by
  obtain ⟨hfirst, hrest⟩ := List.pairwise_cons.mp hsplits.disjoint
  have hout : ∀ i ∈ first, (rest.foldl relabel acc).comm.get i = acc.comm.get i :=
    fun i hi => get_foldl_relabel_of_notMem fun component hmem => (hfirst component hmem hi ·)
  have hplace : ∀ i, acc.comm.get i = c →
      i ∈ first ∨ ∃ k, ∃ hk : k < rest.length, i ∈ rest[k] := by
    intro i hi
    obtain ⟨component, hmem, hin⟩ := hcovers i hi
    rcases List.mem_cons.mp hmem with rfl | hmem
    · exact .inl hin
    · obtain ⟨k, hk, rfl⟩ := List.getElem_of_mem hmem
      exact .inr ⟨k, hk, hin⟩
  have hget : ∀ i k (hk : k < rest.length), i ∈ rest[k] →
      (rest.foldl relabel acc).comm.get i = acc.nextComm + k :=
    fun i k hk hin => get_foldl_relabel_of_mem hrest hk hin
  refine ⟨?_, fun i hi => ?_, fun i hi => ?_, fun i j hi hj => ?_⟩
  · rw [nextComm_foldl_relabel]
    exact Nat.le_add_right _ _
  · refine get_foldl_relabel_of_notMem fun component hmem hin => hi ?_
    have hinside := hsplits.inside_of_mem component (List.mem_cons_of_mem _ hmem) i hin
    simpa [hasComm] using hinside
  · rcases hplace i hi with hin | ⟨k, hk, hin⟩
    · exact .inl ((hout i hin).trans hi)
    · rw [hget i k hk hin, nextComm_foldl_relabel]
      omega
  · rcases hplace i hi with hin | ⟨k, hk, hin⟩
    · rw [← hsplits.mem_iff first List.mem_cons_self i hin, hout i hin, hi]
      rcases hplace j hj with hjn | ⟨l, hl, hjn⟩
      · exact iff_of_true ((hout j hjn).trans hj).symm hjn
      · refine iff_of_false ?_ fun hj' => hfirst _ (List.getElem_mem hl) hj' hjn
        rw [hget j l hl hjn]
        omega
    · have hmem := List.mem_cons_of_mem first (List.getElem_mem hk)
      rw [← hsplits.mem_iff rest[k] hmem i hin, hget i k hk hin]
      rcases hplace j hj with hjn | ⟨l, hl, hjn⟩
      · refine iff_of_false ?_ fun hj' => hfirst _ (List.getElem_mem hk) hjn hj'
        rw [hout j hjn, hj]
        omega
      · rw [hget j l hl hjn]
        constructor
        · intro heq
          obtain rfl : k = l := by omega
          exact hjn
        · intro hj'
          by_contra hne
          have hkl : k ≠ l := fun h => hne (by rw [h])
          rcases Nat.lt_or_gt_of_ne hkl with hlt | hlt
          · exact List.pairwise_iff_getElem.mp hrest k l hk hl hlt hj' hjn
          · exact List.pairwise_iff_getElem.mp hrest l k hl hk hlt hjn hj'

theorem split_splitCommunity (graph : Graph n) {c : Nat} {acc : Repairing n}
    (hc : c < acc.nextComm) :
    Split graph.neighbors c acc (splitCommunity graph.neighbors acc c) := by
  have hsymm : ∀ i j, Edge (linked graph.neighbors) (hasComm acc.comm c) i j →
      Edge (linked graph.neighbors) (hasComm acc.comm c) j i :=
    fun i j h => ⟨graph.bothWays i j h.1, h.2.2, h.2.1⟩
  have hstarts : ∀ i ∈ membersOf acc.comm c, hasComm acc.comm c i := by
    intro i hi
    simpa [hasComm] using mem_membersOf.mp hi
  have hsplits := splits_components hsymm hstarts
  have hcovers : ∀ i, acc.comm.get i = c → ∃ component ∈ components (linked graph.neighbors)
      (hasComm acc.comm c) (membersOf acc.comm c), i ∈ component :=
    fun i hi => exists_mem_components hsymm hstarts (mem_membersOf.mpr hi)
  simp only [splitCommunity, connectedComponentsWithin_membersOf]
  split
  · rename_i hfew
    apply split_self
    intro i j hi hj
    have hsame : i = j := by
      match hmembers : membersOf acc.comm c with
      | [] => simpa [hmembers] using mem_membersOf.mpr hi
      | [m] =>
          have him : i = m := by simpa [hmembers] using mem_membersOf.mpr hi
          have hjm : j = m := by simpa [hmembers] using mem_membersOf.mpr hj
          exact him.trans hjm.symm
      | _ :: _ :: _ => simp [hmembers] at hfew
    exact hsame ▸ Relation.ReflTransGen.refl
  · split
    · rename_i hone
      apply split_self
      intro i j hi hj
      obtain ⟨component, hmem, hin⟩ := hcovers i hi
      obtain ⟨component', hmem', hjn⟩ := hcovers j hj
      have hsame : component' = component := by
        obtain ⟨k, hk, rfl⟩ := List.getElem_of_mem hmem
        obtain ⟨l, hl, rfl⟩ := List.getElem_of_mem hmem'
        obtain rfl : k = l := by omega
        rfl
      exact (hsplits.mem_iff component hmem i hin j).mp (hsame ▸ hjn)
    · rename_i hmany
      generalize hcs : components (linked graph.neighbors) (hasComm acc.comm c)
        (membersOf acc.comm c) = cs at hsplits hcovers hmany ⊢
      cases cs with
      | nil => simp at hmany
      | cons first rest => exact split_foldl_relabel hc hsplits hcovers

/-! ### All communities -/

theorem comm_eq_of_connected {neighbors : Neighbors n} {comm : Vector Nat n} {i j : Fin n}
    (h : Connected neighbors comm i j) : comm.get i = comm.get j := by
  induction h with
  | refl => rfl
  | tail _ hedge ih => exact ih.trans hedge.2

/-- To be connected inside a community is to be joined by its nodes. -/
theorem joined_iff_connected {neighbors : Neighbors n} {comm : Vector Nat n} {c : Nat}
    {i j : Fin n} (hi : comm.get i = c) :
    Joined (linked neighbors) (hasComm comm c) i j ↔ Connected neighbors comm i j := by
  constructor
  · refine Relation.ReflTransGen.mono (fun u w hedge => ⟨hedge.1, ?_⟩) i j
    have hu : comm.get u = c := by simpa [hasComm] using hedge.2.1
    have hw : comm.get w = c := by simpa [hasComm] using hedge.2.2
    exact hu.trans hw.symm
  · intro h
    induction h with
    | refl => exact .refl
    | @tail u w hpath hedge ih =>
        have hu : comm.get u = c := (comm_eq_of_connected hpath).symm.trans hi
        refine ih.tail ⟨hedge.1, ?_, ?_⟩
        · simpa [hasComm] using hu
        · simpa [hasComm] using hedge.2.symm.trans hu

/-- The communities below `c` are split, those from `c` on are as they were, and a number below
`top` still means what it meant. -/
structure SplitBelow (neighbors : Neighbors n) (comm : Vector Nat n) (top c : Nat)
    (acc : Repairing n) : Prop where
  top_le : top ≤ acc.nextComm
  lt_next : ∀ i, acc.comm.get i < acc.nextComm
  old : ∀ i, acc.comm.get i < top → acc.comm.get i = comm.get i
  untouched : ∀ i, c ≤ comm.get i → acc.comm.get i = comm.get i
  eq_iff : ∀ i j, comm.get i < c →
    (acc.comm.get i = acc.comm.get j ↔ Connected neighbors comm i j)

theorem splitBelow_succ {neighbors : Neighbors n} {comm : Vector Nat n} {top c : Nat}
    {acc acc' : Repairing n} (h : SplitBelow neighbors comm top c acc) (hc : c < top)
    (hsplit : Split neighbors c acc acc') : SplitBelow neighbors comm top (c + 1) acc' := by
  have hclass : ∀ i, acc.comm.get i = c ↔ comm.get i = c := by
    intro i
    constructor
    · exact fun hi => (h.old i (hi ▸ hc)).symm.trans hi
    · exact fun hi => (h.untouched i hi.ge).trans hi
  have hinside : hasComm acc.comm c = hasComm comm c := by
    funext i
    rw [hasComm, hasComm, Bool.eq_iff_iff, beq_iff_eq, beq_iff_eq, hclass]
  have hnext := h.top_le
  -- a node of the community never shares its number with a node of another one
  have hapart : ∀ i j, comm.get i = c → comm.get j ≠ c →
      acc'.comm.get i ≠ acc'.comm.get j := by
    intro i j hi hj heq
    have hother : acc'.comm.get j = acc.comm.get j := hsplit.other j (hj ∘ (hclass j).mp)
    have hne : acc.comm.get j ≠ c := hj ∘ (hclass j).mp
    have hlt := h.lt_next j
    have hown := hsplit.own i ((hclass i).mpr hi)
    omega
  refine ⟨hnext.trans hsplit.next_le, fun i => ?_, fun i hi => ?_, fun i hi => ?_,
    fun i j hi => ?_⟩
  · by_cases hin : acc.comm.get i = c
    · have hown := hsplit.own i hin
      have hle := hsplit.next_le
      omega
    · rw [hsplit.other i hin]
      exact (h.lt_next i).trans_le hsplit.next_le
  · by_cases hin : acc.comm.get i = c
    · have hown := hsplit.own i hin
      have hkept : acc'.comm.get i = c := by omega
      exact hkept.trans ((hclass i).mp hin).symm
    · rw [hsplit.other i hin] at hi ⊢
      exact h.old i hi
  · have hne : comm.get i ≠ c := by omega
    rw [hsplit.other i (hne ∘ (hclass i).mp)]
    exact h.untouched i (by omega)
  · by_cases hin : comm.get i = c
    · by_cases hjn : comm.get j = c
      · rw [hsplit.eq_iff i j ((hclass i).mpr hin) ((hclass j).mpr hjn), hinside,
          joined_iff_connected hin]
      · exact iff_of_false (hapart i j hin hjn) fun hpath =>
          hjn ((comm_eq_of_connected hpath).symm.trans hin)
    · by_cases hjn : comm.get j = c
      · exact iff_of_false (hapart j i hjn hin).symm fun hpath =>
          hin ((comm_eq_of_connected hpath).trans hjn)
      · rw [hsplit.other i (hin ∘ (hclass i).mp), hsplit.other j (hjn ∘ (hclass j).mp)]
        exact h.eq_iff i j (by omega)

theorem splitBelow_range (graph : Graph n) (comm : Vector Nat n) {c : Nat}
    (hc : c ≤ numComms comm.toList) : SplitBelow graph.neighbors comm (numComms comm.toList) c
      ((List.range c).foldl (splitCommunity graph.neighbors)
        { comm, nextComm := numComms comm.toList }) := by
  induction c with
  | zero =>
      refine ⟨Nat.le_refl _, fun i => lt_numComms ?_, fun _ _ => rfl, fun _ _ => rfl, ?_⟩
      · exact Vector.mem_toList_iff.mpr (Vector.getElem_mem i.isLt)
      · intro i j hi
        cases hi
  | succ c ih =>
      have hbelow := ih (Nat.le_of_succ_le hc)
      rw [List.range_succ, List.foldl_append]
      exact splitBelow_succ hbelow hc
        (split_splitCommunity graph (Nat.lt_of_lt_of_le hc hbelow.top_le))

/-! ### The repaired partition -/

theorem getElem?_renumbered (comm : Vector Nat n) (i : Fin n) :
    (renumberCommunities comm.toList)[i.val]? = some ((renumbered comm).get i) := by
  rw [List.getElem?_eq_getElem (by simp [length_renumber])]
  rfl

theorem getElem?_toList (comm : Vector Nat n) (i : Fin n) :
    comm.toList[i.val]? = some (comm.get i) := by
  rw [List.getElem?_eq_getElem (by simp)]
  rfl

theorem renumbered_eq_iff (comm : Vector Nat n) (i j : Fin n) :
    (renumbered comm).get i = (renumbered comm).get j ↔ comm.get i = comm.get j :=
  renumber_eq_iff (getElem?_toList comm i) (getElem?_toList comm j) (getElem?_renumbered comm i)
    (getElem?_renumbered comm j)

theorem exists_renumbered_iff (comm : Vector Nat n) (c : Nat) :
    (∃ i, (renumbered comm).get i = c) ↔ c < numComms (renumberCommunities comm.toList) := by
  rw [← mem_renumber_iff, List.mem_iff_getElem?]
  constructor
  · rintro ⟨i, rfl⟩
    exact ⟨i, getElem?_renumbered comm i⟩
  · rintro ⟨k, hk⟩
    have hlt : k < n := by
      obtain ⟨hlt, -⟩ := List.getElem?_eq_some_iff.mp hk
      simpa [length_renumber] using hlt
    have hi := getElem?_renumbered comm ⟨k, hlt⟩
    rw [hk] at hi
    exact ⟨⟨k, hlt⟩, (Option.some.inj hi).symm⟩

/-- Two nodes share their community exactly when they are connected inside their first one. -/
theorem repairC2_eq_iff (graph : Graph n) (comm : Vector Nat n) (i j : Fin n) :
    (repairC2 graph.toAdjacency comm).get i = (repairC2 graph.toAdjacency comm).get j ↔
      Connected graph.neighbors comm i j := by
  have hall := splitBelow_range graph comm (Nat.le_refl _)
  rw [repairC2, renumbered_eq_iff]
  exact hall.eq_iff i j (lt_numComms (Vector.mem_toList_iff.mpr (Vector.getElem_mem i.isLt)))

/-- The repair gives connected communities. -/
theorem repairs_repairC2 (graph : Graph n) (comm : Vector Nat n) :
    Repairs graph comm (repairC2 graph.toAdjacency comm) where
  connected i j h := by
    have hpath := (repairC2_eq_iff graph comm i j).mp h
    induction hpath with
    | refl => exact .refl
    | @tail u w hpath hedge ih =>
        have hu := (repairC2_eq_iff graph comm i u).mpr hpath
        exact (ih hu).tail ⟨hedge.1, hu.symm.trans h⟩
  refines i j h := comm_eq_of_connected ((repairC2_eq_iff graph comm i j).mp h)
  together i j h := (repairC2_eq_iff graph comm i j).mpr h
  contiguous := ⟨_, exists_renumbered_iff _⟩

end AutomatisedPipeline.Clustering

import AutomatisedPipeline.SemanticDiff.Components
import AutomatisedPipeline.Text.Basic

/-!
The cycles of a snapshot (`strongly_connected_cycles` of `semantic_diff.rs`).

A cycle is reported by a text: the sorted names of its members, joined by commas.
`mem_stronglyConnectedCycles` says which texts are reported: those of the components with
two members or more, and the name of every node with a loop, whatever component the node
is in.
-/

namespace AutomatisedPipeline.SemanticDiff

open Text Vec

/-! ### The source's definitions -/

/-- `NodeSet` and `EdgeSet` of a `Snapshot`: the qualified names under each label, and the
triples of two names and a kind. -/
structure Snapshot where
  nodes : List (Str × List Str)
  edges : List (Str × Str × Str)

/-- `node_list` of `build_adjacency`. -/
def nodeList (nodes : List (Str × List Str)) : List Str :=
  nodes.foldl
    (fun acc entry => entry.2.foldl (fun acc qn => if qn ∈ acc then acc else acc ++ [qn]) acc) []

/-- `adj` and `self_loops` of `build_adjacency`. -/
structure Adjacency (n : Nat) where
  adj : Adj n
  selfLoops : List (Fin n)

/-- The body of the loop of `build_adjacency` over the edges; `idx_by_qn` has the position of
each name in the list. -/
def addEdge (names : List Str) (acc : Adjacency names.length) (edge : Str × Str × Str) :
    Adjacency names.length :=
  match names.finIdxOf? edge.1, names.finIdxOf? edge.2.2 with
  | some source, some target =>
      if source = target then { acc with selfLoops := acc.selfLoops.insert source }
      else { acc with adj := acc.adj.set source (acc.adj.get source ++ [target]) }
  | _, _ => acc

/-- `build_adjacency`. -/
def buildAdjacency (g : Snapshot) : Adjacency (nodeList g.nodes).length :=
  g.edges.foldl (addEdge (nodeList g.nodes)) { adj := Vector.replicate _ [], selfLoops := [] }

/-- `names.join(",")`. -/
def joinNames (names : List Str) : Str := [','].intercalate names

/-- `BTreeSet::insert`. -/
def insertKey (out : List Str) (key : Str) : List Str :=
  if key ∈ out then out else out.orderedInsert (· ≤ ·) key

/-- `strongly_connected_cycles`. -/
def stronglyConnectedCycles (g : Snapshot) : List Str :=
  let built := buildAdjacency g
  let out := (tarjanScc built.adj).foldl
    (fun out scc =>
      if scc.length < 2 then out
      else insertKey out (joinNames ((scc.map (nodeList g.nodes).get).insertionSort (· ≤ ·)))) []
  built.selfLoops.foldl (fun out i => insertKey out ((nodeList g.nodes).get i)) out

/-- `diff_cycle_sets`. -/
def diffCycleSets (before after : List Str) : List Str := after.filter fun key => key ∉ before

/-- `new_cycles` of `diff`. -/
def newCycles (before after : Snapshot) : List Str :=
  diffCycleSets (stronglyConnectedCycles before) (stronglyConnectedCycles after)

/-! ### Cycles of a snapshot -/

namespace Snapshot

variable (g : Snapshot)

def Named (x : Str) : Prop := ∃ entry ∈ g.nodes, x ∈ entry.2

/-- An edge of some kind between two nodes. -/
def Links (x y : Str) : Prop := g.Named x ∧ g.Named y ∧ ∃ kind, (x, kind, y) ∈ g.edges

def Reaches (x y : Str) : Prop := Relation.ReflTransGen g.Links x y

/-- The members of a strongly connected component. -/
def IsComponent (members : Finset Str) : Prop :=
  ∃ x, g.Named x ∧ ∀ y, y ∈ members ↔ g.Reaches x y ∧ g.Reaches y x

/-- A component with two members or more, or with one that has a loop. -/
def IsCycle (members : Finset Str) : Prop :=
  g.IsComponent members ∧ (2 ≤ members.card ∨ ∃ x, members = {x} ∧ g.Links x x)

/-- A node with a loop, in a component with two members or more. -/
def InnerLoop (x : Str) : Prop :=
  g.Links x x ∧ ∃ members, g.IsComponent members ∧ x ∈ members ∧ 2 ≤ members.card

end Snapshot

/-- The text that a cycle is reported by. -/
def cycleKey (members : Finset Str) : Str := joinNames (members.sort (· ≤ ·))

/-! ### The list of nodes -/

theorem mem_nodeList {nodes : List (Str × List Str)} {x : Str} :
    x ∈ nodeList nodes ↔ ∃ entry ∈ nodes, x ∈ entry.2 := by
  have hset : ∀ (names acc : List Str),
      x ∈ names.foldl (fun acc qn => if qn ∈ acc then acc else acc ++ [qn]) acc ↔
        x ∈ acc ∨ x ∈ names := by
    intro names
    induction names with
    | nil => simp
    | cons qn names ih =>
        intro acc
        rw [List.foldl_cons, ih, List.mem_cons]
        split
        · rename_i hqn
          constructor
          · exact fun h => h.imp_right .inr
          · rintro (h | rfl | h)
            · exact .inl h
            · exact .inl hqn
            · exact .inr h
        · rw [List.mem_append, List.mem_singleton, or_assoc]
  have hall : ∀ (nodes : List (Str × List Str)) (acc : List Str),
      x ∈ nodes.foldl (fun acc entry =>
        entry.2.foldl (fun acc qn => if qn ∈ acc then acc else acc ++ [qn]) acc) acc ↔
        x ∈ acc ∨ ∃ entry ∈ nodes, x ∈ entry.2 := by
    intro nodes
    induction nodes with
    | nil => simp
    | cons entry nodes ih =>
        intro acc
        rw [List.foldl_cons, ih, hset, or_assoc]
        simp
  rw [nodeList, hall]
  simp

theorem nodup_nodeList (nodes : List (Str × List Str)) : (nodeList nodes).Nodup := by
  refine List.foldlRecOn (motive := fun acc : List Str => acc.Nodup) nodes _ List.nodup_nil ?_
  intro acc hacc entry _
  refine List.foldlRecOn (motive := fun acc : List Str => acc.Nodup) entry.2 _ hacc ?_
  intro acc hacc qn _
  split
  · exact hacc
  · rename_i hqn
    rw [List.nodup_append]
    refine ⟨hacc, List.nodup_singleton _, ?_⟩
    rintro x hx y hy rfl
    exact hqn (List.mem_singleton.mp hy ▸ hx)

section Built

variable (g : Snapshot)

/-- The name of a node. -/
def nameOf (i : Fin (nodeList g.nodes).length) : Str := (nodeList g.nodes).get i

theorem nameOf_injective : Function.Injective (nameOf g) :=
  List.nodup_iff_injective_get.mp (nodup_nodeList g.nodes)

theorem named_iff {x : Str} : g.Named x ↔ ∃ i, nameOf g i = x := by
  rw [Snapshot.Named, ← mem_nodeList, List.mem_iff_get]
  rfl

theorem finIdxOf?_eq_some {x : Str} {i : Fin (nodeList g.nodes).length} :
    (nodeList g.nodes).finIdxOf? x = some i ↔ nameOf g i = x := by
  rw [List.finIdxOf?_eq_some_iff]
  constructor
  · exact And.left
  · intro h
    refine ⟨h, fun j hj heq => ?_⟩
    have : j = i := nameOf_injective g (heq.trans h.symm)
    omega

theorem finIdxOf?_eq_none {x : Str} :
    (nodeList g.nodes).finIdxOf? x = none ↔ ∀ i, nameOf g i ≠ x := by
  rw [List.finIdxOf?_eq_none_iff, List.mem_iff_get, not_exists]
  rfl

/-- The edges that have been looked at are those of the adjacency. -/
structure Builds (seen : List (Str × Str × Str)) (acc : Adjacency (nodeList g.nodes).length) :
    Prop where
  edge_iff : ∀ i j, Edge acc.adj i j ↔
    i ≠ j ∧ ∃ kind, (nameOf g i, kind, nameOf g j) ∈ seen
  loop_iff : ∀ i, i ∈ acc.selfLoops ↔ ∃ kind, (nameOf g i, kind, nameOf g i) ∈ seen

section Step

variable {g} {seen : List (Str × Str × Str)} {acc : Adjacency (nodeList g.nodes).length}

theorem exists_kind_snoc {x kind y : Str} (i j : Fin (nodeList g.nodes).length) :
    (∃ kind', (nameOf g i, kind', nameOf g j) ∈ seen ++ [(x, kind, y)]) ↔
      (∃ kind', (nameOf g i, kind', nameOf g j) ∈ seen) ∨ (nameOf g i = x ∧ nameOf g j = y) := by
  simp [exists_or]

/-- An edge from or to a name that is no node is left out. -/
theorem Builds.skip (h : Builds g seen acc) {x kind y : Str}
    (hnone : ∀ i j, ¬(nameOf g i = x ∧ nameOf g j = y)) : Builds g (seen ++ [(x, kind, y)]) acc := by
  constructor
  · intro i j
    rw [exists_kind_snoc, or_iff_left (hnone i j), h.edge_iff]
  · intro i
    rw [exists_kind_snoc, or_iff_left (hnone i i), h.loop_iff]

theorem names_iff (source target i j : Fin (nodeList g.nodes).length) :
    (nameOf g i = nameOf g source ∧ nameOf g j = nameOf g target) ↔ i = source ∧ j = target := by
  rw [(nameOf_injective g).eq_iff, (nameOf_injective g).eq_iff]

/-- An edge of a node to itself is a loop, and no edge. -/
theorem Builds.loop (h : Builds g seen acc) (node : Fin (nodeList g.nodes).length) (kind : Str) :
    Builds g (seen ++ [(nameOf g node, kind, nameOf g node)])
      { acc with selfLoops := acc.selfLoops.insert node } := by
  constructor
  · intro i j
    rw [exists_kind_snoc, names_iff, h.edge_iff]
    constructor
    · exact fun ⟨hne, hseen⟩ => ⟨hne, .inl hseen⟩
    · rintro ⟨hne, hseen | ⟨rfl, rfl⟩⟩
      · exact ⟨hne, hseen⟩
      · exact absurd rfl hne
  · intro i
    rw [exists_kind_snoc, names_iff, List.mem_insert_iff, h.loop_iff]
    tauto

/-- An edge between two nodes is put behind the others of its source. -/
theorem Builds.edge (h : Builds g seen acc) {source target : Fin (nodeList g.nodes).length}
    (hne : source ≠ target) (kind : Str) :
    Builds g (seen ++ [(nameOf g source, kind, nameOf g target)])
      { acc with adj := acc.adj.set source (acc.adj.get source ++ [target]) } := by
  constructor
  · intro i j
    rw [exists_kind_snoc, names_iff, Edge, get_set, Function.update_apply]
    split_ifs with hi
    · subst hi
      rw [List.mem_append, List.mem_singleton, ← Edge, h.edge_iff]
      constructor
      · rintro (⟨hij, hseen⟩ | rfl)
        · exact ⟨hij, .inl hseen⟩
        · exact ⟨hne, .inr ⟨rfl, rfl⟩⟩
      · rintro ⟨hij, hseen | ⟨-, rfl⟩⟩
        · exact .inl ⟨hij, hseen⟩
        · exact .inr rfl
    · rw [← Edge, h.edge_iff]
      simp [hi]
  · intro i
    rw [exists_kind_snoc, names_iff, h.loop_iff]
    refine (or_iff_left ?_).symm
    rintro ⟨rfl, rfl⟩
    exact hne rfl

end Step

theorem builds_addEdge {seen : List (Str × Str × Str)} {acc : Adjacency (nodeList g.nodes).length}
    (h : Builds g seen acc) (edge : Str × Str × Str) :
    Builds g (seen ++ [edge]) (addEdge (nodeList g.nodes) acc edge) := by
  obtain ⟨x, kind, y⟩ := edge
  unfold addEdge
  cases hx : (nodeList g.nodes).finIdxOf? x with
  | none => exact h.skip fun i _ hname => (finIdxOf?_eq_none g).mp hx i hname.1
  | some source =>
      cases hy : (nodeList g.nodes).finIdxOf? y with
      | none => exact h.skip fun _ j hname => (finIdxOf?_eq_none g).mp hy j hname.2
      | some target =>
          obtain rfl := (finIdxOf?_eq_some g).mp hx
          obtain rfl := (finIdxOf?_eq_some g).mp hy
          dsimp only
          split
          · rename_i heq
            subst heq
            exact h.loop source kind
          · rename_i hne
            exact h.edge hne kind

/-- The neighbours of a node are the other nodes that it links to, and the loops are those
of the edges. -/
theorem buildAdjacency_spec :
    (∀ i j, Edge (buildAdjacency g).adj i j ↔ i ≠ j ∧ g.Links (nameOf g i) (nameOf g j)) ∧
      ∀ i, i ∈ (buildAdjacency g).selfLoops ↔ g.Links (nameOf g i) (nameOf g i) := by
  have hbuilds : Builds g g.edges (buildAdjacency g) := by
    refine Run.foldl_invariant (Builds g) ⟨fun i j => ?_, fun i => ?_⟩ ?_
    · rw [Edge, get_replicate]
      simp
    · simp
    · exact fun seen edge _ acc _ h => builds_addEdge g h edge
  have hlinks : ∀ i j, g.Links (nameOf g i) (nameOf g j) ↔
      ∃ kind, (nameOf g i, kind, nameOf g j) ∈ g.edges := fun i j =>
    ⟨fun h => h.2.2, fun h => ⟨(named_iff g).mpr ⟨i, rfl⟩, (named_iff g).mpr ⟨j, rfl⟩, h⟩⟩
  refine ⟨fun i j => ?_, fun i => ?_⟩
  · rw [hbuilds.edge_iff, hlinks]
  · rw [hbuilds.loop_iff, hlinks]

/-- A node reaches another in the adjacency exactly when its name reaches the other's. -/
theorem reach_iff (i j : Fin (nodeList g.nodes).length) :
    Reach (buildAdjacency g).adj i j ↔ g.Reaches (nameOf g i) (nameOf g j) := by
  obtain ⟨hedge, -⟩ := buildAdjacency_spec g
  constructor
  · intro h
    induction h with
    | refl => exact .refl
    | tail _ hstep ih => exact ih.tail ((hedge _ _).mp hstep).2
  · have main : ∀ y, g.Reaches (nameOf g i) y → ∃ k, nameOf g k = y ∧
        Reach (buildAdjacency g).adj i k := by
      intro y h
      induction h with
      | refl => exact ⟨i, rfl, .refl⟩
      | @tail b c _ hstep ih =>
          obtain ⟨k, rfl, hreach⟩ := ih
          obtain ⟨l, rfl⟩ := (named_iff g).mp hstep.2.1
          by_cases heq : k = l
          · exact ⟨l, rfl, heq ▸ hreach⟩
          · exact ⟨l, rfl, hreach.tail ((hedge k l).mpr ⟨heq, hstep⟩)⟩
    intro h
    obtain ⟨k, hk, hreach⟩ := main _ h
    exact nameOf_injective g hk ▸ hreach

/-- The names of the nodes of a class are a component. -/
theorem isComponent_of_class {v : Fin (nodeList g.nodes).length}
    {nodes : List (Fin (nodeList g.nodes).length)} (h : IsClassOf (buildAdjacency g).adj v nodes) :
    g.IsComponent (nodes.map (nameOf g)).toFinset := by
  refine ⟨nameOf g v, (named_iff g).mpr ⟨v, rfl⟩, fun y => ?_⟩
  rw [List.mem_toFinset, List.mem_map]
  constructor
  · rintro ⟨k, hk, rfl⟩
    exact ((h k).mp hk).imp (reach_iff g v k).mp (reach_iff g k v).mp
  · rintro ⟨hreach, hback⟩
    have hnamed : g.Named y := by
      rcases Relation.ReflTransGen.cases_tail hreach with heq | ⟨z, -, hlink⟩
      · exact heq ▸ (named_iff g).mpr ⟨v, rfl⟩
      · exact hlink.2.1
    obtain ⟨k, rfl⟩ := (named_iff g).mp hnamed
    exact ⟨k, (h k).mpr ⟨(reach_iff g v k).mpr hreach, (reach_iff g k v).mpr hback⟩, rfl⟩

end Built

/-! ### What is reported -/

theorem mem_insertKey {out : List Str} {key k : Str} :
    k ∈ insertKey out key ↔ k ∈ out ∨ k = key := by
  rw [insertKey]
  split
  · rename_i hkey
    exact ⟨.inl, fun h => h.elim id fun heq => heq ▸ hkey⟩
  · rw [List.mem_orderedInsert, or_comm]

theorem nodup_insertKey {out : List Str} (h : out.Nodup) (key : Str) :
    (insertKey out key).Nodup := by
  rw [insertKey]
  split
  · exact h
  · rename_i hkey
    exact (List.perm_orderedInsert _ _ _).nodup_iff.mpr (List.nodup_cons.mpr ⟨hkey, h⟩)

section Reported

variable (g : Snapshot)

/-- Two components with a member in common are the same. -/
theorem component_unique {members members' : Finset Str} (h : g.IsComponent members)
    (h' : g.IsComponent members') {x : Str} (hx : x ∈ members) (hx' : x ∈ members') :
    members = members' := by
  have hsame : ∀ {members : Finset Str}, g.IsComponent members → x ∈ members →
      ∀ y, y ∈ members ↔ g.Reaches x y ∧ g.Reaches y x := by
    rintro members ⟨z, -, hz⟩ hx y
    obtain ⟨hzx, hxz⟩ := (hz x).mp hx
    rw [hz]
    exact ⟨fun ⟨hzy, hyz⟩ => ⟨hxz.trans hzy, hyz.trans hzx⟩,
      fun ⟨hxy, hyx⟩ => ⟨hzx.trans hxy, hyx.trans hxz⟩⟩
  refine Finset.ext fun y => ?_
  rw [hsame h hx, hsame h' hx']

/-- Every node is a member of the component of a list that `tarjan_scc` returns. -/
theorem exists_scc (i : Fin (nodeList g.nodes).length) :
    ∃ nodes ∈ tarjanScc (buildAdjacency g).adj, nameOf g i ∈ (nodes.map (nameOf g)).toFinset := by
  obtain ⟨hall, -, -⟩ := tarjanScc_spec (buildAdjacency g).adj
  obtain ⟨nodes, hnodes, hi⟩ := List.mem_flatten.mp (hall i)
  exact ⟨nodes, hnodes, List.mem_toFinset.mpr (List.mem_map_of_mem hi)⟩

/-- The components are those of the lists that `tarjan_scc` returns. -/
theorem isComponent_iff {members : Finset Str} : g.IsComponent members ↔
    ∃ nodes ∈ tarjanScc (buildAdjacency g).adj, members = (nodes.map (nameOf g)).toFinset := by
  obtain ⟨-, -, hclasses⟩ := tarjanScc_spec (buildAdjacency g).adj
  constructor
  · intro h
    obtain ⟨x, hnamed, hx⟩ := h
    obtain ⟨i, rfl⟩ := (named_iff g).mp hnamed
    obtain ⟨nodes, hnodes, hi⟩ := exists_scc g i
    obtain ⟨v, hv⟩ := hclasses nodes hnodes
    exact ⟨nodes, hnodes, component_unique g ⟨_, hnamed, hx⟩ (isComponent_of_class g hv)
      ((hx _).mpr ⟨.refl, .refl⟩) hi⟩
  · rintro ⟨nodes, hnodes, rfl⟩
    obtain ⟨v, hv⟩ := hclasses nodes hnodes
    exact isComponent_of_class g hv

theorem nodup_scc {nodes : List (Fin (nodeList g.nodes).length)}
    (h : nodes ∈ tarjanScc (buildAdjacency g).adj) : (nodes.map (nameOf g)).Nodup := by
  obtain ⟨-, hnodup, -⟩ := tarjanScc_spec (buildAdjacency g).adj
  exact ((List.nodup_flatten.mp hnodup).1 nodes h).map (nameOf_injective g)

theorem card_scc {nodes : List (Fin (nodeList g.nodes).length)}
    (h : nodes ∈ tarjanScc (buildAdjacency g).adj) :
    (nodes.map (nameOf g)).toFinset.card = nodes.length := by
  rw [List.toFinset_card_of_nodup (nodup_scc g h), List.length_map]

/-- Sorting the names of a list gives the text of its component. -/
theorem joinNames_scc {nodes : List (Fin (nodeList g.nodes).length)}
    (h : nodes ∈ tarjanScc (buildAdjacency g).adj) :
    joinNames ((nodes.map (nodeList g.nodes).get).insertionSort (· ≤ ·)) =
      cycleKey (nodes.map (nameOf g)).toFinset := by
  have hperm : ((nodes.map (nameOf g)).insertionSort (· ≤ ·)).Perm
      ((nodes.map (nameOf g)).toFinset.sort (· ≤ ·)) := by
    refine (List.perm_insertionSort _ _).trans ?_
    exact ((Finset.sort_perm_toList _ _).trans (List.toFinset_toList (nodup_scc g h))).symm
  have heq := hperm.eq_of_pairwise' (List.pairwise_insertionSort (· ≤ ·) _)
    (Finset.pairwise_sort _ _)
  rw [cycleKey, ← heq]
  rfl

/-- The texts that are reported: those of the components with two members or more, and the
names of the nodes with a loop. -/
theorem mem_stronglyConnectedCycles {k : Str} : k ∈ stronglyConnectedCycles g ↔
    (∃ members, g.IsComponent members ∧ 2 ≤ members.card ∧ cycleKey members = k) ∨
      g.Links k k := by
  have hsccs : ∀ (sccs : List (List (Fin (nodeList g.nodes).length))) (out : List Str),
      k ∈ sccs.foldl (fun out scc =>
        if scc.length < 2 then out
        else insertKey out (joinNames ((scc.map (nodeList g.nodes).get).insertionSort (· ≤ ·))))
        out ↔ k ∈ out ∨ ∃ scc ∈ sccs, 2 ≤ scc.length ∧
          joinNames ((scc.map (nodeList g.nodes).get).insertionSort (· ≤ ·)) = k := by
    intro sccs
    induction sccs with
    | nil => simp
    | cons scc sccs ih =>
        intro out
        rw [List.foldl_cons, ih]
        split
        · rename_i hshort
          simp [Nat.not_le.mpr hshort]
        · rename_i hlong
          rw [mem_insertKey, or_assoc]
          simp [Nat.le_of_not_lt hlong, eq_comm]
  have hloops : ∀ (loops : List (Fin (nodeList g.nodes).length)) (out : List Str),
      k ∈ loops.foldl (fun out i => insertKey out ((nodeList g.nodes).get i)) out ↔
        k ∈ out ∨ ∃ i ∈ loops, nameOf g i = k := by
    intro loops
    induction loops with
    | nil => simp
    | cons i loops ih =>
        intro out
        rw [List.foldl_cons, ih, mem_insertKey, or_assoc]
        simp [eq_comm, nameOf]
  rw [stronglyConnectedCycles, hloops, hsccs]
  refine or_congr ?_ ?_
  · constructor
    · rintro (hnil | ⟨scc, hscc, hlong, hkey⟩)
      · cases hnil
      · refine ⟨_, (isComponent_iff g).mpr ⟨scc, hscc, rfl⟩, ?_, ?_⟩
        · rwa [card_scc g hscc]
        · rw [← joinNames_scc g hscc, hkey]
    · rintro ⟨_, hcomponent, hcard, rfl⟩
      obtain ⟨scc, hscc, rfl⟩ := (isComponent_iff g).mp hcomponent
      rw [card_scc g hscc] at hcard
      exact .inr ⟨scc, hscc, hcard, joinNames_scc g hscc⟩
  · constructor
    · rintro ⟨i, hi, rfl⟩
      exact ((buildAdjacency_spec g).2 i).mp hi
    · intro hlink
      obtain ⟨i, rfl⟩ := (named_iff g).mp hlink.1
      exact ⟨i, ((buildAdjacency_spec g).2 i).mpr hlink, rfl⟩

theorem nodup_stronglyConnectedCycles : (stronglyConnectedCycles g).Nodup := by
  refine List.foldlRecOn (motive := fun out : List Str => out.Nodup) _ _ ?_
    fun out hout i _ => nodup_insertKey hout _
  refine List.foldlRecOn (motive := fun out : List Str => out.Nodup) _ _ List.nodup_nil
    fun out hout scc _ => ?_
  split
  · exact hout
  · exact nodup_insertKey hout _

end Reported

end AutomatisedPipeline.SemanticDiff

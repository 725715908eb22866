import AutomatisedPipeline.Logic.Run

/-!
A property graph store. Nodes have a primary key; an edge is written between
two keys and only where both name a node. The state of a store is the sum of
its parts, and deletion acts on each part on its own, so what an operation does
to a large graph is read off what it does to the parts it touches.
-/

namespace AutomatisedPipeline.Store

/-- The primary key of a node, and the keys an edge goes from and to. -/
class Schema (N E : Type) (K : outParam Type) where
  key : N → K
  source : E → K
  target : E → K

/-- Parallel edges are edges of their own. -/
@[ext]
structure Graph (N E : Type) where
  nodes : Multiset N
  edges : Multiset E
deriving DecidableEq

namespace Graph

variable {N E K : Type}

/-! ### Sums of parts -/

instance : Zero (Graph N E) := ⟨⟨0, 0⟩⟩

instance : Add (Graph N E) := ⟨fun g h => ⟨g.nodes + h.nodes, g.edges + h.edges⟩⟩

@[simp] theorem nodes_zero : (0 : Graph N E).nodes = 0 := rfl

@[simp] theorem edges_zero : (0 : Graph N E).edges = 0 := rfl

@[simp] theorem nodes_add (g h : Graph N E) : (g + h).nodes = g.nodes + h.nodes := rfl

@[simp] theorem edges_add (g h : Graph N E) : (g + h).edges = g.edges + h.edges := rfl

instance : AddCommMonoid (Graph N E) where
  add_assoc g h k := Graph.ext (add_assoc _ _ _) (add_assoc _ _ _)
  zero_add g := Graph.ext (zero_add _) (zero_add _)
  add_zero g := Graph.ext (add_zero _) (add_zero _)
  add_comm g h := Graph.ext (add_comm _ _) (add_comm _ _)
  nsmul := nsmulRec

instance : IsLeftCancelAdd (Graph N E) where
  add_left_cancel _ _ _ heq :=
    Graph.ext (add_left_cancel (congrArg nodes heq)) (add_left_cancel (congrArg edges heq))

theorem nodes_sum {ι : Type} (f : ι → Graph N E) (l : List ι) :
    (l.map f).sum.nodes = (l.map fun i => (f i).nodes).sum := by
  induction l with
  | nil => rfl
  | cons i l ih => simp [ih]

theorem edges_sum {ι : Type} (f : ι → Graph N E) (l : List ι) :
    (l.map f).sum.edges = (l.map fun i => (f i).edges).sum := by
  induction l with
  | nil => rfl
  | cons i l ih => simp [ih]

theorem mem_nodes_sum {ι : Type} {f : ι → Graph N E} {l : List ι} {n : N} :
    n ∈ (l.map f).sum.nodes ↔ ∃ i ∈ l, n ∈ (f i).nodes := by
  induction l with
  | nil => simp
  | cons i l ih => simp [ih]

theorem mem_edges_sum {ι : Type} {f : ι → Graph N E} {l : List ι} {e : E} :
    e ∈ (l.map f).sum.edges ↔ ∃ i ∈ l, e ∈ (f i).edges := by
  induction l with
  | nil => simp
  | cons i l ih => simp [ih]

/-- The lists of the parts, one after the other, make the sum of the parts. -/
theorem flatMap_eq_sum {ι : Type} (n : ι → List N) (e : ι → List E) (l : List ι) :
    (⟨(l.flatMap n : List N), (l.flatMap e : List E)⟩ : Graph N E) =
      (l.map fun i => ⟨(n i : List N), (e i : List E)⟩).sum := by
  induction l with
  | nil => rfl
  | cons i l ih =>
      rw [List.map_cons, List.sum_cons, ← ih, List.flatMap_cons, List.flatMap_cons]
      rfl

theorem mem_nodes_finsetSum {ι : Type} {f : ι → Graph N E} {s : Finset ι} {n : N} :
    n ∈ (∑ i ∈ s, f i).nodes ↔ ∃ i ∈ s, n ∈ (f i).nodes := by
  classical
  induction s using Finset.induction_on with
  | empty => simp
  | insert i s hi ih => simp [Finset.sum_insert hi, ih]

theorem mem_edges_finsetSum {ι : Type} {f : ι → Graph N E} {s : Finset ι} {e : E} :
    e ∈ (∑ i ∈ s, f i).edges ↔ ∃ i ∈ s, e ∈ (f i).edges := by
  classical
  induction s using Finset.induction_on with
  | empty => simp
  | insert i s hi ih => simp [Finset.sum_insert hi, ih]

/-! ### Deletion -/

section Restrict

variable (pn : N → Prop) (pe : E → Prop) [DecidablePred pn] [DecidablePred pe]

/-- The nodes and the edges that satisfy the conditions. -/
def restrict (g : Graph N E) : Graph N E := ⟨g.nodes.filter pn, g.edges.filter pe⟩

theorem restrict_zero : (0 : Graph N E).restrict pn pe = 0 := rfl

theorem restrict_add (g h : Graph N E) :
    (g + h).restrict pn pe = g.restrict pn pe + h.restrict pn pe :=
  Graph.ext (Multiset.filter_add _ _ _) (Multiset.filter_add _ _ _)

theorem restrict_sum {ι : Type} (f : ι → Graph N E) (l : List ι) :
    (l.map f).sum.restrict pn pe = (l.map fun i => (f i).restrict pn pe).sum := by
  induction l with
  | nil => exact restrict_zero pn pe
  | cons i l ih => simp only [List.map_cons, List.sum_cons, restrict_add, ih]

theorem restrict_finsetSum {ι : Type} (f : ι → Graph N E) (s : Finset ι) :
    (∑ i ∈ s, f i).restrict pn pe = ∑ i ∈ s, (f i).restrict pn pe := by
  classical
  induction s using Finset.induction_on with
  | empty => exact restrict_zero pn pe
  | insert i s hi ih => rw [Finset.sum_insert hi, Finset.sum_insert hi, restrict_add, ih]

variable {pn pe}

theorem restrict_eq_self {g : Graph N E} (hn : ∀ n ∈ g.nodes, pn n) (he : ∀ e ∈ g.edges, pe e) :
    g.restrict pn pe = g :=
  Graph.ext (Multiset.filter_eq_self.mpr hn) (Multiset.filter_eq_self.mpr he)

theorem restrict_eq_zero {g : Graph N E} (hn : ∀ n ∈ g.nodes, ¬pn n) (he : ∀ e ∈ g.edges, ¬pe e) :
    g.restrict pn pe = 0 :=
  Graph.ext (Multiset.filter_eq_nil.mpr hn) (Multiset.filter_eq_nil.mpr he)

theorem restrict_restrict {qn : N → Prop} {qe : E → Prop} [DecidablePred qn] [DecidablePred qe]
    (g : Graph N E) :
    (g.restrict pn pe).restrict qn qe = g.restrict (fun n => qn n ∧ pn n) fun e => qe e ∧ pe e :=
  Graph.ext (Multiset.filter_filter _ _ _) (Multiset.filter_filter _ _ _)

theorem restrict_congr {qn : N → Prop} {qe : E → Prop} [DecidablePred qn] [DecidablePred qe]
    {g : Graph N E} (hn : ∀ n ∈ g.nodes, pn n ↔ qn n) (he : ∀ e ∈ g.edges, pe e ↔ qe e) :
    g.restrict pn pe = g.restrict qn qe :=
  Graph.ext (Multiset.filter_congr hn) (Multiset.filter_congr he)

end Restrict

/-! ### Keys -/

section Keys

variable [Schema N E K]

/-- Some node has this key. -/
def Has (g : Graph N E) (k : K) : Prop := ∃ n ∈ g.nodes, Schema.key (E := E) n = k

instance [DecidableEq K] (g : Graph N E) (k : K) : Decidable (g.Has k) := Multiset.decidableExistsMultiset

/-- Both ends of the edge are in the store. -/
def Live (g : Graph N E) (e : E) : Prop :=
  g.Has (Schema.source N e) ∧ g.Has (Schema.target N e)

instance [DecidableEq K] (g : Graph N E) : DecidablePred g.Live := fun _ => instDecidableAnd

@[simp] theorem not_has_zero (k : K) : ¬(0 : Graph N E).Has k := by
  rintro ⟨n, hn, _⟩
  simp at hn

theorem has_add {g h : Graph N E} {k : K} : (g + h).Has k ↔ g.Has k ∨ h.Has k := by
  simp only [Has, nodes_add, Multiset.mem_add, or_and_right, exists_or]

theorem has_sum {ι : Type} {f : ι → Graph N E} {l : List ι} {k : K} :
    (l.map f).sum.Has k ↔ ∃ i ∈ l, (f i).Has k := by
  constructor
  · rintro ⟨n, hn, hk⟩
    obtain ⟨i, hi, hn⟩ := mem_nodes_sum.mp hn
    exact ⟨i, hi, n, hn, hk⟩
  · rintro ⟨i, hi, n, hn, hk⟩
    exact ⟨n, mem_nodes_sum.mpr ⟨i, hi, hn⟩, hk⟩

theorem has_finsetSum {ι : Type} {f : ι → Graph N E} {s : Finset ι} {k : K} :
    (∑ i ∈ s, f i).Has k ↔ ∃ i ∈ s, (f i).Has k := by
  constructor
  · rintro ⟨n, hn, hk⟩
    obtain ⟨i, hi, hn⟩ := mem_nodes_finsetSum.mp hn
    exact ⟨i, hi, n, hn, hk⟩
  · rintro ⟨i, hi, n, hn, hk⟩
    exact ⟨n, mem_nodes_finsetSum.mpr ⟨i, hi, hn⟩, hk⟩

/-! ### Insertion -/

variable [DecidableEq K]

/-- `CREATE` of a node: a key that is taken is refused. -/
def insertNode (n : N) (g : Graph N E) : Except K (Graph N E) :=
  let k := Schema.key (E := E) n
  if g.Has k then .error k else .ok { g with nodes := n ::ₘ g.nodes }

def insertNodes (ns : List N) (g : Graph N E) : Except K (Graph N E) :=
  ns.foldlM (fun g n => g.insertNode n) g

/-- `MATCH` of both ends, then `CREATE` of the edge: an edge without an end is
not written. -/
def insertEdges (es : Multiset E) (g : Graph N E) : Graph N E :=
  { g with edges := g.edges + es.filter g.Live }

/-- `DETACH DELETE`: the nodes whose key satisfies the condition, and their
edges. -/
def detachDelete (p : K → Prop) [DecidablePred p] (g : Graph N E) : Graph N E :=
  g.restrict (fun n => ¬p (Schema.key (E := E) n))
    fun e => ¬p (Schema.source N e) ∧ ¬p (Schema.target N e)

def deleteEdges (p : E → Prop) [DecidablePred p] (g : Graph N E) : Graph N E :=
  g.restrict (fun _ => True) fun e => ¬p e

/-- `SET` on the nodes. -/
def updateNodes (f : N → N) (g : Graph N E) : Graph N E := { g with nodes := g.nodes.map f }

theorem insertNode_ok {n : N} {g : Graph N E} (h : ¬g.Has (Schema.key (E := E) n)) :
    g.insertNode n = .ok (g + ⟨{n}, 0⟩) := by
  rw [insertNode, if_neg h]
  congr 1
  refine Graph.ext ?_ (add_zero _).symm
  rw [nodes_add, add_comm, Multiset.singleton_add]

theorem insertNode_eq_ok {n : N} {g g' : Graph N E} (h : g.insertNode n = .ok g') :
    g' = g + ⟨{n}, 0⟩ := by
  by_cases hk : g.Has (Schema.key (E := E) n)
  · rw [insertNode, if_pos hk] at h
    cases h
  · rw [insertNode_ok hk] at h
    cases h
    rfl

/-- Rows with new and distinct keys are all inserted. -/
theorem insertNodes_ok {ns : List N} {g : Graph N E}
    (hnodup : (ns.map fun n => Schema.key (E := E) n).Nodup)
    (hnew : ∀ n ∈ ns, ¬g.Has (Schema.key (E := E) n)) :
    g.insertNodes ns = .ok (g + ⟨ns, 0⟩) := by
  induction ns generalizing g with
  | nil =>
      exact congrArg Except.ok (add_zero g).symm
  | cons n ns ih =>
      rw [List.map_cons, List.nodup_cons] at hnodup
      have hfirst : ¬g.Has (Schema.key (E := E) n) := hnew n List.mem_cons_self
      have hrest : ∀ m ∈ ns, ¬(g + ⟨{n}, 0⟩).Has (Schema.key (E := E) m) := by
        intro m hm hhas
        rcases has_add.mp hhas with hold | ⟨n', hn', hkey⟩
        · exact hnew m (List.mem_cons_of_mem _ hm) hold
        · obtain rfl : n' = n := Multiset.mem_singleton.mp hn'
          exact hnodup.1 (List.mem_map.mpr ⟨m, hm, hkey.symm⟩)
      have hih := ih hnodup.2 hrest
      rw [insertNodes, List.foldlM_cons, insertNode_ok hfirst]
      change (g + ⟨{n}, 0⟩).insertNodes ns = _
      rw [hih, add_assoc]
      congr 2

theorem insertNodes_eq_ok {ns : List N} {g g' : Graph N E} (h : g.insertNodes ns = .ok g') :
    g' = g + ⟨ns, 0⟩ := by
  induction ns generalizing g with
  | nil =>
      obtain rfl : g = g' := by simpa [insertNodes, pure, Except.pure] using h
      exact (add_zero g).symm
  | cons n ns ih =>
      rw [insertNodes, List.foldlM_cons] at h
      obtain ⟨mid, hmid, h⟩ := Run.bind_eq_ok.mp h
      rw [insertNode_eq_ok hmid] at h
      rw [ih h, add_assoc]
      congr 1

/-- Edges are written where they are live. -/
theorem insertEdges_eq (es : Multiset E) (g : Graph N E) :
    g.insertEdges es = g + ⟨0, es.filter g.Live⟩ :=
  Graph.ext (add_zero _).symm rfl

theorem updateNodes_add (f : N → N) (g h : Graph N E) :
    (g + h).updateNodes f = g.updateNodes f + h.updateNodes f :=
  Graph.ext (Multiset.map_add _ _ _) rfl

theorem updateNodes_eq_self {f : N → N} {g : Graph N E} (h : ∀ n ∈ g.nodes, f n = n) :
    g.updateNodes f = g :=
  Graph.ext ((Multiset.map_congr rfl h).trans (Multiset.map_id' _)) rfl

/-- Edges between nodes of the store are all written. -/
theorem insertEdges_of_live {es : Multiset E} {g : Graph N E} (h : ∀ e ∈ es, g.Live e) :
    g.insertEdges es = g + ⟨0, es⟩ := by
  rw [insertEdges_eq, Multiset.filter_eq_self.mpr h]

/-- An update of one node leaves the others as they are. -/
theorem updateNodes_singleton {f : N → N} {g : Graph N E} {n n' : N} (h : ∀ m ∈ g.nodes, f m = m)
    (hn : f n = n') : (g + ⟨{n}, 0⟩).updateNodes f = g + ⟨{n'}, 0⟩ := by
  rw [updateNodes_add, updateNodes_eq_self h]
  refine congrArg (g + ·) (Graph.ext ?_ rfl)
  change Multiset.map f {n} = _
  rw [Multiset.map_singleton, hn]

end Keys

/-! ### Deletion -/

section Deletion

variable [Schema N E K]

theorem detachDelete_congr {p q : K → Prop} [DecidablePred p] [DecidablePred q]
    (h : ∀ k, p k ↔ q k) (g : Graph N E) : g.detachDelete p = g.detachDelete q :=
  restrict_congr (fun _ _ => not_congr (h _)) fun _ _ =>
    and_congr (not_congr (h _)) (not_congr (h _))

theorem detachDelete_detachDelete {p q : K → Prop} [DecidablePred p] [DecidablePred q]
    (g : Graph N E) : (g.detachDelete p).detachDelete q = g.detachDelete fun k => p k ∨ q k := by
  rw [detachDelete, detachDelete, restrict_restrict, detachDelete]
  refine restrict_congr (fun n _ => ?_) fun e _ => ?_
  · rw [not_or, and_comm]
  · rw [not_or, not_or]
    tauto

theorem detachDelete_add (p : K → Prop) [DecidablePred p] (g h : Graph N E) :
    (g + h).detachDelete p = g.detachDelete p + h.detachDelete p :=
  restrict_add _ _ g h

theorem detachDelete_sum {ι : Type} (p : K → Prop) [DecidablePred p] (f : ι → Graph N E)
    (l : List ι) : (l.map f).sum.detachDelete p = (l.map fun i => (f i).detachDelete p).sum :=
  restrict_sum _ _ f l

/-- One deletion after the other deletes what any of them deletes. -/
theorem foldl_detachDelete {ι : Type} (l : List ι) (p : ι → K → Prop)
    [∀ i, DecidablePred (p i)] (g : Graph N E) :
    l.foldl (fun g i => g.detachDelete (p i)) g = g.detachDelete fun k => ∃ i ∈ l, p i k := by
  induction l generalizing g with
  | nil => exact (restrict_eq_self (by simp) (by simp)).symm
  | cons i l ih =>
      rw [List.foldl_cons, ih, detachDelete_detachDelete]
      exact detachDelete_congr (fun k => by simp) g

end Deletion

end Graph

end AutomatisedPipeline.Store

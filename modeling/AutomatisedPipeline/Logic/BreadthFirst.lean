import AutomatisedPipeline.Logic.Run

/-!
Breadth-first search inside a set of nodes, and the components it finds.

A search takes the node at the front of the queue; each neighbour inside the set that is seen
for the first time joins the queue. From a node that lies outside what earlier searches have
seen, it takes what is joined to that node and nothing else (`explored_search`). Where the edges
run both ways, searching from every node that is still unseen gives the components of
the set (`splits_components`).
-/

namespace AutomatisedPipeline.BreadthFirst

variable {ν : Type}

section Search

variable (next : ν → List ν) (inside : ν → Bool)

/-- An edge between two nodes inside. -/
def Edge (v w : ν) : Prop := w ∈ next v ∧ inside v ∧ inside w

/-- Two nodes that are joined by a path inside. -/
def Joined : ν → ν → Prop := Relation.ReflTransGen (Edge next inside)

variable {next inside} in
/-- Where edges run both ways, so do paths. -/
theorem joined_symm (hsymm : ∀ v w, Edge next inside v w → Edge next inside w v) {v w : ν}
    (h : Joined next inside v w) : Joined next inside w v := by
  induction h with
  | refl => exact .refl
  | @tail u w _ hedge ih => exact .head (hsymm u w hedge) ih

/-- The state of a search. -/
structure State (ν : Type) where
  queue : List ν
  visited : Finset ν
  component : List ν

variable [DecidableEq ν]

/-- A neighbour inside that is seen for the first time joins the queue. -/
def discover (s : State ν) (w : ν) : State ν :=
  if inside w ∧ w ∉ s.visited then
    { s with queue := s.queue ++ [w], visited := insert w s.visited }
  else s

/-- The node at the front of the queue is taken. -/
def expand (s : State ν) (v : ν) (rest : List ν) : State ν :=
  (next v).foldl (discover inside) { s with queue := rest, component := s.component ++ [v] }

/-! ### What a search keeps -/

/-- What a search from `start` has taken or queued is joined to `start` and was not seen
before; it has seen nothing else. -/
structure Found (before : Finset ν) (start : ν) (s : State ν) : Prop where
  mem_visited : ∀ v, v ∈ s.visited ↔ v ∈ before ∨ v ∈ s.component ∨ v ∈ s.queue
  fresh : ∀ v, v ∈ s.component ∨ v ∈ s.queue → v ∉ before
  joined : ∀ v, v ∈ s.component ∨ v ∈ s.queue → Joined next inside start v
  root : start ∈ s.component ∨ start ∈ s.queue

/-- Every neighbour of a node that has been taken has been seen. -/
structure Explored (before : Finset ν) (start : ν) (s : State ν) : Prop
    extends Found next inside before start s where
  closed : ∀ v ∈ s.component, ∀ w ∈ next v, inside w → w ∈ s.visited

variable {next inside} {before : Finset ν} {start : ν} {s : State ν}

@[simp] theorem component_discover (s : State ν) (w : ν) :
    (discover inside s w).component = s.component := by
  rw [discover]
  split <;> rfl

theorem visited_subset_discover (s : State ν) (w : ν) :
    s.visited ⊆ (discover inside s w).visited := by
  rw [discover]
  split
  · exact Finset.subset_insert w _
  · exact subset_rfl

theorem mem_visited_discover (s : State ν) {w : ν} (hw : inside w) :
    w ∈ (discover inside s w).visited := by
  rw [discover]
  split
  · exact Finset.mem_insert_self w _
  · rename_i hold
    by_contra hnew
    exact hold ⟨hw, hnew⟩

theorem found_discover (h : Found next inside before start s) {w : ν}
    (hw : inside w → Joined next inside start w) :
    Found next inside before start (discover inside s w) := by
  rw [discover]
  split
  · rename_i hnew
    have hbefore : w ∉ before := fun hmem => hnew.2 ((h.mem_visited w).mpr (.inl hmem))
    refine ⟨fun v => ?_, fun v hv => ?_, fun v hv => ?_, ?_⟩
    · rw [Finset.mem_insert, h.mem_visited, List.mem_append, List.mem_singleton]
      tauto
    · rw [List.mem_append, List.mem_singleton, ← or_assoc] at hv
      rcases hv with hv | rfl
      · exact h.fresh v hv
      · exact hbefore
    · rw [List.mem_append, List.mem_singleton, ← or_assoc] at hv
      rcases hv with hv | rfl
      · exact h.joined v hv
      · exact hw hnew.1
    · rw [List.mem_append, ← or_assoc]
      exact .inl h.root
  · exact h

/-- Going through the neighbours keeps what is found, and sees every neighbour inside. -/
theorem found_foldl_discover (ws : List ν) (h : Found next inside before start s)
    (hws : ∀ w ∈ ws, inside w → Joined next inside start w) :
    Found next inside before start (ws.foldl (discover inside) s) ∧
      (ws.foldl (discover inside) s).component = s.component ∧
      s.visited ⊆ (ws.foldl (discover inside) s).visited ∧
      ∀ w ∈ ws, inside w → w ∈ (ws.foldl (discover inside) s).visited := by
  induction ws generalizing s with
  | nil => exact ⟨h, rfl, subset_rfl, by simp⟩
  | cons w ws ih =>
      rw [List.forall_mem_cons] at hws
      obtain ⟨hfound, hcomponent, hsubset, hseen⟩ := ih (found_discover h hws.1) hws.2
      refine ⟨hfound, ?_, (visited_subset_discover s w).trans hsubset, ?_⟩
      · rw [List.foldl_cons, hcomponent, component_discover]
      · rw [List.forall_mem_cons]
        exact ⟨fun hw => hsubset (mem_visited_discover s hw), hseen⟩

theorem explored_expand (h : Explored next inside before start s) (hstart : inside start)
    {v : ν} {rest : List ν} (hqueue : s.queue = v :: rest) :
    Explored next inside before start (expand next inside s v rest) := by
  have hv : Joined next inside start v := h.joined v (.inr (by simp [hqueue]))
  have hinside : inside v := by
    rcases hv.cases_tail with rfl | ⟨u, -, hedge⟩
    · exact hstart
    · exact hedge.2.2
  have htaken : Found next inside before start
      { s with queue := rest, component := s.component ++ [v] } := by
    have hmem : ∀ u, (u ∈ s.component ++ [v] ∨ u ∈ rest) ↔ u ∈ s.component ∨ u ∈ s.queue := by
      intro u
      rw [hqueue, List.mem_append, List.mem_singleton, List.mem_cons, or_assoc]
    refine ⟨fun u => ?_, fun u hu => ?_, fun u hu => ?_, ?_⟩
    · rw [hmem]
      exact h.mem_visited u
    · exact h.fresh u ((hmem u).mp hu)
    · exact h.joined u ((hmem u).mp hu)
    · exact (hmem start).mpr h.root
  have hjoined : ∀ w ∈ next v, inside w → Joined next inside start w :=
    fun w hw hwin => hv.tail ⟨hw, hinside, hwin⟩
  obtain ⟨hfound, hcomponent, hsubset, hseen⟩ := found_foldl_discover (next v) htaken hjoined
  refine ⟨hfound, fun u hu w hw hwin => ?_⟩
  rw [expand, hcomponent, List.mem_append, List.mem_singleton] at hu
  rcases hu with hu | rfl
  · exact hsubset (h.closed u hu w hw hwin)
  · exact hseen w hw hwin

/-! ### The search -/

section Left

variable [Fintype ν]

/-- The nodes that are still to be taken at most. -/
def left (s : State ν) : Nat := (Finset.univ \ s.visited).card + s.queue.length

theorem left_discover (s : State ν) (w : ν) : left (discover inside s w) = left s := by
  rw [discover]
  split
  · rename_i hnew
    have hmem : w ∈ Finset.univ \ s.visited :=
      Finset.mem_sdiff.mpr ⟨Finset.mem_univ w, hnew.2⟩
    have hcard := Finset.card_erase_add_one hmem
    simp only [left, List.length_append, List.length_singleton, Finset.sdiff_insert]
    omega
  · rfl

theorem left_foldl_discover (ws : List ν) (s : State ν) :
    left (ws.foldl (discover inside) s) = left s := by
  induction ws generalizing s with
  | nil => rfl
  | cons w ws ih => rw [List.foldl_cons, ih, left_discover]

theorem left_expand {v : ν} {rest : List ν} (h : s.queue = v :: rest) :
    left (expand next inside s v rest) < left s := by
  rw [expand, left_foldl_discover]
  simp only [left, h, List.length_cons]
  omega

end Left

/-- The search: it ends with an empty queue. -/
def search [Fintype ν] (next : ν → List ν) (inside : ν → Bool) (s : State ν) : State ν :=
  match _ : s.queue with
  | [] => s
  | v :: rest => search next inside (expand next inside s v rest)
termination_by left s
decreasing_by exact left_expand (by assumption)

variable [Fintype ν]

theorem search_of_nil (h : s.queue = []) : search next inside s = s := by
  rw [search]
  split
  · rfl
  · rename_i hcons
    rw [h] at hcons
    cases hcons

theorem search_of_cons {v : ν} {rest : List ν} (h : s.queue = v :: rest) :
    search next inside s = search next inside (expand next inside s v rest) := by
  rw [search]
  split
  · rename_i hnil
    rw [h] at hnil
    cases hnil
  · rename_i hcons
    rw [h] at hcons
    cases hcons
    rfl

theorem explored_search (h : Explored next inside before start s) (hstart : inside start) :
    Explored next inside before start (search next inside s) ∧
      (search next inside s).queue = [] := by
  induction hleft : left s using Nat.strong_induction_on generalizing s with
  | _ n ih =>
    cases hqueue : s.queue with
    | nil =>
        rw [search_of_nil hqueue]
        exact ⟨h, hqueue⟩
    | cons v rest =>
        rw [search_of_cons hqueue]
        exact ih _ (hleft ▸ left_expand hqueue) (explored_expand h hstart hqueue) rfl

end Search

/-! ### Components -/

section Components

variable (next : ν → List ν) (inside : ν → Bool) [DecidableEq ν] [Fintype ν]

/-- The components found, and all that the searches have seen. -/
structure Components (ν : Type) where
  visited : Finset ν
  components : List (List ν)

/-- The state a search starts with. -/
def searchFrom (visited : Finset ν) (start : ν) : State ν :=
  search next inside { queue := [start], visited := insert start visited, component := [] }

/-- A node that no search has seen starts the next one. -/
def componentStep (acc : Components ν) (start : ν) : Components ν :=
  if start ∈ acc.visited then acc
  else
    let s := searchFrom next inside acc.visited start
    { visited := s.visited, components := acc.components ++ [s.component] }

/-- The components that searches from the given nodes find. -/
def components (starts : List ν) : List (List ν) :=
  (starts.foldl (componentStep next inside) { visited := ∅, components := [] }).components

/-- Every component has the nodes joined to any of its own, and no two share a node. -/
structure Splits (cs : List (List ν)) : Prop where
  inside_of_mem : ∀ c ∈ cs, ∀ v ∈ c, inside v
  mem_iff : ∀ c ∈ cs, ∀ v ∈ c, ∀ w, w ∈ c ↔ Joined next inside v w
  disjoint : cs.Pairwise List.Disjoint

/-- What the searches from `seen` have found. -/
structure Covers (seen : List ν) (acc : Components ν) : Prop
    extends Splits next inside acc.components where
  mem_visited : ∀ v, v ∈ acc.visited ↔ ∃ c ∈ acc.components, v ∈ c
  starts : ∀ v ∈ seen, v ∈ acc.visited

variable {next inside}

theorem explored_searchFrom {visited : Finset ν} {start : ν} (hstart : inside start)
    (hnew : start ∉ visited) :
    Explored next inside visited start (searchFrom next inside visited start) ∧
      (searchFrom next inside visited start).queue = [] := by
  refine explored_search ⟨⟨fun v => ?_, fun v hv => ?_, fun v hv => ?_, ?_⟩, ?_⟩ hstart
  · simp [or_comm]
  · simp only [List.not_mem_nil, List.mem_singleton, false_or] at hv
    exact hv ▸ hnew
  · simp only [List.not_mem_nil, List.mem_singleton, false_or] at hv
    exact hv ▸ Relation.ReflTransGen.refl
  · exact .inr (List.mem_singleton_self start)
  · simp

variable (hsymm : ∀ v w, Edge next inside v w → Edge next inside w v)
include hsymm

/-- A search takes what is joined to its start, where earlier ones took whole components. -/
theorem mem_searchFrom {visited : Finset ν} {start : ν} (hstart : inside start)
    (hnew : start ∉ visited)
    (hwhole : ∀ v w, v ∈ visited → Joined next inside v w → w ∈ visited) (w : ν) :
    w ∈ (searchFrom next inside visited start).component ↔ Joined next inside start w := by
  obtain ⟨hexplored, hqueue⟩ := @explored_searchFrom ν next inside _ _ visited start hstart hnew
  constructor
  · exact fun hw => hexplored.joined w (.inl hw)
  · intro hjoined
    induction hjoined with
    | refl =>
        have hroot := hexplored.root
        rw [hqueue] at hroot
        simpa using hroot
    | @tail u w hpath hedge ih =>
        have hseen := hexplored.closed u ih w hedge.1 hedge.2.2
        rw [hexplored.mem_visited, hqueue] at hseen
        rcases hseen with hbefore | hw | hw
        · exact absurd (hwhole w u hbefore (.single (hsymm u w hedge))) (hexplored.fresh u (.inl ih))
        · exact hw
        · cases hw

theorem covers_componentStep {seen : List ν} {acc : Components ν}
    (h : Covers next inside seen acc) {start : ν} (hstart : inside start) :
    Covers next inside (seen ++ [start]) (componentStep next inside acc start) := by
  rw [componentStep]
  split
  · rename_i hold
    refine ⟨h.toSplits, h.mem_visited, fun v hv => ?_⟩
    rcases List.mem_append.mp hv with hv | hv
    · exact h.starts v hv
    · exact List.mem_singleton.mp hv ▸ hold
  · rename_i hnew
    have hwhole : ∀ v w, v ∈ acc.visited → Joined next inside v w → w ∈ acc.visited := by
      intro v w hv hjoined
      obtain ⟨c, hc, hvc⟩ := (h.mem_visited v).mp hv
      exact (h.mem_visited w).mpr ⟨c, hc, (h.mem_iff c hc v hvc w).mpr hjoined⟩
    obtain ⟨hexplored, hqueue⟩ :=
      @explored_searchFrom ν next inside _ _ acc.visited start hstart hnew
    have hmem := mem_searchFrom hsymm hstart hnew hwhole
    have hvisited : ∀ v, v ∈ (searchFrom next inside acc.visited start).visited ↔
        v ∈ acc.visited ∨ v ∈ (searchFrom next inside acc.visited start).component := by
      intro v
      rw [hexplored.mem_visited, hqueue]
      simp
    refine ⟨⟨fun c hc v hv => ?_, fun c hc v hv w => ?_, ?_⟩, fun v => ?_, fun v hv => ?_⟩
    · rcases List.mem_append.mp hc with hc | hc
      · exact h.inside_of_mem c hc v hv
      · rw [List.mem_singleton.mp hc, hmem] at hv
        rcases hv.cases_tail with rfl | ⟨u, -, hedge⟩
        · exact hstart
        · exact hedge.2.2
    · rcases List.mem_append.mp hc with hc | hc
      · exact h.mem_iff c hc v hv w
      · rw [List.mem_singleton.mp hc, hmem] at hv ⊢
        exact ⟨(joined_symm hsymm hv).trans, hv.trans⟩
    · refine List.pairwise_append.mpr ⟨h.disjoint, List.pairwise_singleton _ _, ?_⟩
      intro c hc c' hc' v hv hv'
      rw [List.mem_singleton.mp hc'] at hv'
      exact hexplored.fresh v (.inl hv') ((h.mem_visited v).mpr ⟨c, hc, hv⟩)
    · rw [hvisited, h.mem_visited]
      simp only [List.mem_append, List.mem_singleton, or_and_right, exists_or, exists_eq_left]
    · rw [hvisited]
      rcases List.mem_append.mp hv with hv | hv
      · exact .inl (h.starts v hv)
      · rw [List.mem_singleton.mp hv]
        exact .inr ((hmem start).mpr .refl)

theorem covers_components {starts : List ν} (hstarts : ∀ v ∈ starts, inside v) :
    Covers next inside starts
      (starts.foldl (componentStep next inside) { visited := ∅, components := [] }) := by
  refine Run.foldl_invariant (Covers next inside) ?_ ?_
  · exact ⟨⟨by simp, by simp, .nil⟩, by simp, by simp⟩
  · intro seen start rest acc hl hacc
    exact covers_componentStep hsymm hacc (hstarts start (by simp [hl]))

/-- The searches find the components of the set. -/
theorem splits_components {starts : List ν} (hstarts : ∀ v ∈ starts, inside v) :
    Splits next inside (components next inside starts) :=
  (covers_components hsymm hstarts).toSplits

theorem exists_mem_components {starts : List ν} (hstarts : ∀ v ∈ starts, inside v) {v : ν}
    (hv : v ∈ starts) : ∃ c ∈ components next inside starts, v ∈ c := by
  have hcovers := covers_components hsymm hstarts
  exact (hcovers.mem_visited v).mp (hcovers.starts v hv)

end Components

end AutomatisedPipeline.BreadthFirst

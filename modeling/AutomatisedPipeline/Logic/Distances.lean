import AutomatisedPipeline.Logic.Assoc

/-!
Breadth-first search up to a depth.

The graph is a table of successors, with cycles, loops and parallel edges as they come. A
node gets its depth when it is first seen and joins the queue with it. The queue is sorted
by depth and nothing seen is more than one step ahead of any of it, so that what is first
seen is seen over a shortest walk: the search finds the nodes whose distance is at most the
limit, each with its distance (`mem_search_iff`).
-/

namespace AutomatisedPipeline.Distances

variable {ν : Type}

/-! ### Distances -/

/-- The nodes that `n` steps lead to. -/
inductive Walk (next : ν → List ν) (start : ν) : Nat → ν → Prop where
  | here : Walk next start 0 start
  | step {n : Nat} {u v : ν} : Walk next start n u → v ∈ next u → Walk next start (n + 1) v

/-- A shortest walk to `v` has `d` steps. -/
def Distance (next : ν → List ν) (start v : ν) (d : Nat) : Prop :=
  Walk next start d v ∧ ∀ n, Walk next start n v → d ≤ n

/-! ### The search -/

section Search

variable [DecidableEq ν]

/-- The successors of a node in a table. -/
def successors (edges : List (ν × List ν)) (v : ν) : List ν := (edges.lookup v).getD []

/-- The depths of the nodes seen, and the queue. -/
structure State (ν : Type) where
  depths : List (ν × Nat)
  queue : List (ν × Nat)

/-- A node that is seen for the first time gets its depth and joins the queue. -/
def discover (depth : Nat) (s : State ν) (w : ν) : State ν :=
  if w ∈ s.depths.map Prod.fst then s
  else { depths := s.depths ++ [(w, depth)], queue := s.queue ++ [(w, depth)] }

/-- The node at the front of the queue is taken; at the limit it leads nowhere. -/
def expand (limit : Nat) (edges : List (ν × List ν)) (s : State ν) (v : ν × Nat)
    (rest : List (ν × Nat)) : State ν :=
  if limit ≤ v.2 then { s with queue := rest }
  else (successors edges v.1).foldl (discover (v.2 + 1)) { s with queue := rest }

/-! ### Termination -/

/-- The nodes that some edge of a table leads to. -/
def targets (edges : List (ν × List ν)) : Finset ν := (edges.flatMap Prod.snd).toFinset

theorem mem_targets {edges : List (ν × List ν)} {v w : ν} (h : w ∈ successors edges v) :
    w ∈ targets edges := by
  rw [successors] at h
  cases hfound : edges.lookup v with
  | none =>
      rw [hfound] at h
      cases h
  | some ws =>
      rw [hfound, Option.getD_some] at h
      rw [targets, List.mem_toFinset, List.mem_flatMap]
      exact ⟨(v, ws), Assoc.mem_of_lookup hfound, h⟩

/-- What is still to be taken at most. -/
def left (edges : List (ν × List ν)) (s : State ν) : Nat :=
  (targets edges \ (s.depths.map Prod.fst).toFinset).card + s.queue.length

theorem left_discover {edges : List (ν × List ν)} (depth : Nat) (s : State ν) {w : ν}
    (hw : w ∈ targets edges) : left edges (discover depth s w) = left edges s := by
  rw [discover]
  split
  · rfl
  · rename_i hnew
    have hmem : w ∈ targets edges \ (s.depths.map Prod.fst).toFinset :=
      Finset.mem_sdiff.mpr ⟨hw, by rwa [List.mem_toFinset]⟩
    have hcard := Finset.card_erase_add_one hmem
    have hseen : ((s.depths ++ [(w, depth)]).map Prod.fst).toFinset =
        insert w (s.depths.map Prod.fst).toFinset := by
      ext u
      simp
    simp only [left, hseen, List.length_append, List.length_singleton, Finset.sdiff_insert]
    omega

theorem left_foldl_discover {edges : List (ν × List ν)} (depth : Nat) (ws : List ν) (s : State ν)
    (hws : ∀ w ∈ ws, w ∈ targets edges) :
    left edges (ws.foldl (discover depth) s) = left edges s := by
  induction ws generalizing s with
  | nil => rfl
  | cons w ws ih =>
      rw [List.forall_mem_cons] at hws
      rw [List.foldl_cons, ih _ hws.2, left_discover depth s hws.1]

theorem left_expand (limit : Nat) (edges : List (ν × List ν)) {s : State ν} {v : ν × Nat}
    {rest : List (ν × Nat)} (h : s.queue = v :: rest) :
    left edges (expand limit edges s v rest) < left edges s := by
  have hrest : left edges { s with queue := rest } < left edges s := by
    simp only [left, h, List.length_cons]
    omega
  rw [expand]
  split
  · exact hrest
  · rwa [left_foldl_discover _ _ _ fun w hw => mem_targets hw]

/-- The search: the queue is taken until it is empty. -/
def loop (limit : Nat) (edges : List (ν × List ν)) (s : State ν) : List (ν × Nat) :=
  match _ : s.queue with
  | [] => s.depths
  | v :: rest => loop limit edges (expand limit edges s v rest)
termination_by left edges s
decreasing_by exact left_expand limit edges (by assumption)

/-- The depths that a search from a node finds. -/
def search (limit : Nat) (edges : List (ν × List ν)) (start : ν) : List (ν × Nat) :=
  loop limit edges { depths := [(start, 0)], queue := [(start, 0)] }

/-! ### The queue -/

variable {limit : Nat} {edges : List (ν × List ν)} {start : ν}

/-- What a search has seen: each node once, at the depth of a walk to it. The queue is sorted
by depth, and nothing seen is two steps ahead of any of it. -/
structure Found (limit : Nat) (edges : List (ν × List ν)) (start : ν) (s : State ν) : Prop where
  nodup : (s.depths.map Prod.fst).Nodup
  walk : ∀ e ∈ s.depths, Walk (successors edges) start e.2 e.1
  bounded : ∀ e ∈ s.depths, e.2 ≤ limit
  root : (start, 0) ∈ s.depths
  queued : ∀ e ∈ s.queue, e ∈ s.depths
  sorted : s.queue.Pairwise fun a b => a.2 ≤ b.2
  ahead : ∀ a ∈ s.queue, ∀ e ∈ s.depths, e.2 ≤ a.2 + 1

/-- Every node that has been taken leads to nodes that have been seen one step from it, or
nearer to the start. -/
structure Explored (limit : Nat) (edges : List (ν × List ν)) (start : ν) (s : State ν) : Prop
    extends Found limit edges start s where
  closed : ∀ e ∈ s.depths, e ∉ s.queue → e.2 < limit →
    ∀ w ∈ successors edges e.1, ∃ d ≤ e.2 + 1, (w, d) ∈ s.depths

/-- While the successors of a node at `depth` are gone through, the queue begins at that depth
and nothing seen is more than one step ahead of it. -/
structure Front (depth : Nat) (s : State ν) : Prop where
  low : ∀ a ∈ s.queue, depth ≤ a.2
  high : ∀ e ∈ s.depths, e.2 ≤ depth + 1

theorem front_discover {depth : Nat} {s : State ν} (h : Front depth s) (w : ν) :
    Front depth (discover (depth + 1) s w) := by
  rw [discover]
  split
  · exact h
  · refine ⟨fun a ha => ?_, fun e he => ?_⟩
    · rcases List.mem_append.mp ha with ha | ha
      · exact h.low a ha
      · rw [List.mem_singleton.mp ha]
        exact Nat.le_succ depth
    · rcases List.mem_append.mp he with he | he
      · exact h.high e he
      · rw [List.mem_singleton.mp he]

theorem found_discover {depth : Nat} {s : State ν} (h : Found limit edges start s)
    (hfront : Front depth s) (hdepth : depth < limit) {w : ν}
    (hw : Walk (successors edges) start (depth + 1) w) :
    Found limit edges start (discover (depth + 1) s w) := by
  rw [discover]
  split
  · exact h
  · rename_i hnew
    refine ⟨?_, fun e he => ?_, fun e he => ?_, ?_, fun e he => ?_, ?_, fun a ha e he => ?_⟩
    · rw [List.map_append, List.map_singleton]
      exact h.nodup.append (List.nodup_singleton w) (by simpa using hnew)
    · rcases List.mem_append.mp he with he | he
      · exact h.walk e he
      · rw [List.mem_singleton.mp he]
        exact hw
    · rcases List.mem_append.mp he with he | he
      · exact h.bounded e he
      · rw [List.mem_singleton.mp he]
        exact hdepth
    · exact List.mem_append_left _ h.root
    · rcases List.mem_append.mp he with he | he
      · exact List.mem_append_left _ (h.queued e he)
      · exact List.mem_append_right _ he
    · refine List.pairwise_append.mpr ⟨h.sorted, List.pairwise_singleton _ _, fun a ha b hb => ?_⟩
      rw [List.mem_singleton.mp hb]
      exact hfront.high a (h.queued a ha)
    · have hlow : depth ≤ a.2 := by
        rcases List.mem_append.mp ha with ha | ha
        · exact hfront.low a ha
        · rw [List.mem_singleton.mp ha]
          exact Nat.le_succ depth
      rcases List.mem_append.mp he with he | he
      · exact (hfront.high e he).trans (Nat.succ_le_succ hlow)
      · rw [List.mem_singleton.mp he]
        exact Nat.succ_le_succ hlow

/-- What going through successors adds stands in the queue, and every successor is seen. -/
structure Scanned (depth : Nat) (before : State ν) (ws : List ν) (s : State ν) : Prop where
  depths_subset : before.depths ⊆ s.depths
  queue_subset : before.queue ⊆ s.queue
  new : ∀ e ∈ s.depths, e ∈ before.depths ∨ e ∈ s.queue
  seen : ∀ w ∈ ws, ∃ d ≤ depth + 1, (w, d) ∈ s.depths

theorem scanned_discover {depth : Nat} {s : State ν} (hfront : Front depth s) (w : ν) :
    Scanned depth s [w] (discover (depth + 1) s w) := by
  rw [discover]
  split
  · rename_i hold
    refine ⟨fun e he => he, fun e he => he, fun e he => .inl he, fun u hu => ?_⟩
    obtain ⟨e, he, rfl⟩ := List.mem_map.mp hold
    rw [List.mem_singleton.mp hu]
    exact ⟨e.2, hfront.high e he, he⟩
  · refine ⟨List.subset_append_left _ _, List.subset_append_left _ _, fun e he => ?_,
      fun u hu => ?_⟩
    · rcases List.mem_append.mp he with he | he
      · exact .inl he
      · exact .inr (List.mem_append_right _ he)
    · rw [List.mem_singleton.mp hu]
      exact ⟨depth + 1, le_refl _, List.mem_append_right _ (List.mem_singleton_self _)⟩

omit [DecidableEq ν] in
theorem Scanned.append {depth : Nat} {before middle s : State ν} {ws us : List ν}
    (h : Scanned depth before ws middle) (h' : Scanned depth middle us s) :
    Scanned depth before (ws ++ us) s := by
  refine ⟨fun e he => h'.depths_subset (h.depths_subset he),
    fun e he => h'.queue_subset (h.queue_subset he), fun e he => ?_, fun w hw => ?_⟩
  · rcases h'.new e he with he | he
    · exact (h.new e he).imp_right fun hq => h'.queue_subset hq
    · exact .inr he
  · rcases List.mem_append.mp hw with hw | hw
    · obtain ⟨d, hd, hmem⟩ := h.seen w hw
      exact ⟨d, hd, h'.depths_subset hmem⟩
    · exact h'.seen w hw

/-- Going through the successors of a node keeps what is found and sees every one of them. -/
theorem found_foldl_discover {depth : Nat} (hdepth : depth < limit) (ws : List ν) {s : State ν}
    (h : Found limit edges start s) (hfront : Front depth s)
    (hws : ∀ w ∈ ws, Walk (successors edges) start (depth + 1) w) :
    Found limit edges start (ws.foldl (discover (depth + 1)) s) ∧
      Scanned depth s ws (ws.foldl (discover (depth + 1)) s) := by
  induction ws generalizing s with
  | nil =>
      exact ⟨h, ⟨fun e he => he, fun e he => he, fun e he => .inl he, fun w hw => by cases hw⟩⟩
  | cons w ws ih =>
      rw [List.forall_mem_cons] at hws
      obtain ⟨hfound, hscanned⟩ := ih (found_discover h hfront hdepth hws.1)
        (front_discover hfront w) hws.2
      exact ⟨hfound, (scanned_discover hfront w).append hscanned⟩

/-- Taking the node at the front keeps what the search knows. -/
theorem explored_expand {s : State ν} (h : Explored limit edges start s) {v : ν × Nat}
    {rest : List (ν × Nat)} (hqueue : s.queue = v :: rest) :
    Explored limit edges start (expand limit edges s v rest) := by
  have hv : v ∈ s.queue := by simp [hqueue]
  have hrest : ∀ e ∈ rest, e ∈ s.queue := fun e he => by simp [hqueue, he]
  have hsorted := h.sorted
  rw [hqueue, List.pairwise_cons] at hsorted
  have hfound : Found limit edges start { s with queue := rest } :=
    ⟨h.nodup, h.walk, h.bounded, h.root, fun e he => h.queued e (hrest e he), hsorted.2,
      fun a ha => h.ahead a (hrest a ha)⟩
  rw [expand]
  split
  · rename_i hlimit
    refine ⟨hfound, fun e he hout hlt => ?_⟩
    refine h.closed e he (fun hin => ?_) hlt
    rw [hqueue, List.mem_cons] at hin
    rcases hin with rfl | hin
    · omega
    · exact hout hin
  · rename_i hlimit
    have hwalk : ∀ w ∈ successors edges v.1, Walk (successors edges) start (v.2 + 1) w :=
      fun w hw => .step (h.walk v (h.queued v hv)) hw
    obtain ⟨hfound', hscanned⟩ := found_foldl_discover (Nat.lt_of_not_le hlimit) _ hfound
      ⟨hsorted.1, h.ahead v hv⟩ hwalk
    refine ⟨hfound', fun e he hout hlt w hw => ?_⟩
    rcases hscanned.new e he with he | he
    · by_cases hev : e = v
      · exact hev ▸ hscanned.seen w (hev ▸ hw)
      · have hold : e ∉ s.queue := by
          intro hin
          rw [hqueue, List.mem_cons] at hin
          exact hin.elim hev fun hin => hout (hscanned.queue_subset hin)
        obtain ⟨d, hd, hmem⟩ := h.closed e he hold hlt w hw
        exact ⟨d, hd, hscanned.depths_subset hmem⟩
    · exact absurd he hout

theorem explored_loop {s : State ν} (h : Explored limit edges start s) :
    Explored limit edges start { depths := loop limit edges s, queue := [] } := by
  induction hleft : left edges s using Nat.strong_induction_on generalizing s with
  | _ n ih =>
    rw [loop]
    split
    · rename_i hqueue
      rw [← hqueue]
      exact h
    · rename_i v rest hqueue
      exact ih _ (hleft ▸ left_expand limit edges hqueue) (explored_expand h hqueue) rfl

theorem explored_search (limit : Nat) (edges : List (ν × List ν)) (start : ν) :
    Explored limit edges start { depths := search limit edges start, queue := [] } := by
  refine explored_loop ⟨⟨?_, fun e he => ?_, fun e he => ?_, ?_, fun e he => he, ?_,
    fun a _ e he => ?_⟩, fun e he hout => absurd he hout⟩
  · exact List.nodup_singleton start
  · rw [List.mem_singleton.mp he]
    exact .here
  · rw [List.mem_singleton.mp he]
    exact Nat.zero_le limit
  · exact List.mem_singleton_self _
  · exact List.pairwise_singleton _ _
  · rw [List.mem_singleton.mp he]
    exact Nat.zero_le _

/-! ### The distances -/

/-- The search sees each node once. -/
theorem nodup_search (limit : Nat) (edges : List (ν × List ν)) (start : ν) :
    ((search limit edges start).map Prod.fst).Nodup :=
  (explored_search limit edges start).nodup

/-- No walk within the limit is shorter than the depth of its end. -/
theorem exists_mem_search {n : Nat} {v : ν} (h : Walk (successors edges) start n v)
    (hn : n ≤ limit) : ∃ d ≤ n, (v, d) ∈ search limit edges start := by
  have hexplored := explored_search limit edges start
  induction h with
  | here => exact ⟨0, le_refl 0, hexplored.root⟩
  | @step n u v _ hv ih =>
      obtain ⟨d, hd, hu⟩ := ih (Nat.le_of_succ_le hn)
      obtain ⟨d', hd', hmem⟩ := hexplored.closed (u, d) hu List.not_mem_nil
        (Nat.lt_of_le_of_lt hd hn) v hv
      exact ⟨d', hd'.trans (Nat.succ_le_succ hd), hmem⟩

/-- The search finds the nodes whose distance is at most the limit, with their distances. -/
theorem mem_search_iff {v : ν} {d : Nat} :
    (v, d) ∈ search limit edges start ↔
      d ≤ limit ∧ Distance (successors edges) start v d := by
  have hexplored := explored_search limit edges start
  constructor
  · intro hmem
    have hd := hexplored.bounded (v, d) hmem
    refine ⟨hd, hexplored.walk (v, d) hmem, fun n hn => ?_⟩
    by_contra hshort
    obtain ⟨d', hd', hmem'⟩ := exists_mem_search hn (show n ≤ limit by omega)
    have hsame := List.inj_on_of_nodup_map hexplored.nodup hmem hmem' rfl
    have hdepth := congrArg Prod.snd hsame
    simp only at hdepth
    omega
  · rintro ⟨hd, hwalk, hshortest⟩
    obtain ⟨d', hd', hmem⟩ := exists_mem_search hwalk hd
    have hback := hshortest d' (hexplored.walk (v, d') hmem)
    rwa [le_antisymm hd' hback] at hmem

end Search

end AutomatisedPipeline.Distances

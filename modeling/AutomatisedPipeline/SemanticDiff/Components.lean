import AutomatisedPipeline.Logic.Run
import AutomatisedPipeline.Logic.Vec

/-!
Strongly connected components (`tarjan_scc` of `semantic_diff.rs`).

Nodes are the numbers below `n`. The work list and the stack have their top in front. A step either
visits a node, moves on to the next neighbour of the node on top, or pops it; the loop ends because
steps of the first kind use up the nodes and the others the neighbours.

`Frames` cuts the stack into one segment for each node of the work list: the node, and the
nodes above it that are finished and lead back to it. What a segment's edges lead to is
finished in a component, or at or above the segment's low link, so a node whose low link
is its own index closes its segment, which is then a component (`isClass_segment`). A
step keeps the invariant (`inv_dfsStep`), and so does the whole search.
-/

namespace AutomatisedPipeline.SemanticDiff

open Vec

/-- The neighbours of every node. -/
abbrev Adj (n : Nat) : Type := Vector (List (Fin n)) n

/-- `TarjanState`. -/
structure TarjanState (n : Nat) where
  index : Vector Int n
  lowlink : Vector Int n
  onStack : Vector Bool n
  stack : List (Fin n)
  result : List (List (Fin n))
  counter : Nat

variable {n : Nat}

/-! ### The source's definitions -/

/-- `visit`. -/
def visit (v : Fin n) (st : TarjanState n) : TarjanState n :=
  { st with
    index := st.index.set v st.counter v.isLt
    lowlink := st.lowlink.set v st.counter v.isLt
    counter := st.counter + 1
    stack := v :: st.stack
    onStack := st.onStack.set v true v.isLt }

/-- The loop of `pop_scc`: what is left of the stack and its marks, and what was popped. -/
def popLoop (v : Fin n) : List (Fin n) → Vector Bool n → List (Fin n) →
    List (Fin n) × Vector Bool n × List (Fin n)
  | [], onStack, component => ([], onStack, component)
  | w :: stack, onStack, component =>
      if w = v then (stack, onStack.set w false w.isLt, component ++ [w])
      else popLoop v stack (onStack.set w false w.isLt) (component ++ [w])

/-- `pop_scc`. -/
def popScc (v : Fin n) (st : TarjanState n) : TarjanState n :=
  let popped := popLoop v st.stack st.onStack []
  { st with
    stack := popped.1
    onStack := popped.2.1
    result := st.result ++ [popped.2.2] }

/-- Lowers the low link of `v` to `bound`. -/
def lower (v : Fin n) (bound : Int) (st : TarjanState n) : TarjanState n :=
  { st with lowlink := st.lowlink.set v (min (st.lowlink.get v) bound) v.isLt }

/-- The body of the loop of `dfs_iterative`, with `(v, i)` on top of the work list. -/
def dfsStep (adj : Adj n) (st : TarjanState n) (v : Fin n) (i : Nat) (rest : List (Fin n × Nat)) :
    TarjanState n × List (Fin n × Nat) :=
  match (adj.get v)[i]? with
  | some w =>
      if st.index.get w = -1 then (visit w st, (w, 0) :: (v, i + 1) :: rest)
      else if st.onStack.get w then (lower v (st.index.get w) st, (v, i + 1) :: rest)
      else (st, (v, i + 1) :: rest)
  | none =>
      let st := if st.lowlink.get v = st.index.get v then popScc v st else st
      match rest with
      | [] => (st, [])
      | (parent, j) :: rest => (lower parent (st.lowlink.get v) st, (parent, j) :: rest)

/-- The nodes that are not visited. -/
def unvisited (st : TarjanState n) : Nat :=
  (Finset.univ.filter fun w => st.index.get w = -1).card

/-- The neighbours that the work list has still to look at, and its length. -/
def pending (adj : Adj n) (work : List (Fin n × Nat)) : Nat :=
  (work.map fun f => (adj.get f.1).length - f.2 + 1).sum

theorem index_visit (w x : Fin n) (st : TarjanState n) :
    (visit w st).index.get x = if x = w then (st.counter : Int) else st.index.get x := by
  rw [visit, get_set, Function.update_apply]

theorem unvisited_visit {st : TarjanState n} {w : Fin n} (h : st.index.get w = -1) :
    unvisited (visit w st) < unvisited st := by
  apply Finset.card_lt_card
  refine Finset.ssubset_iff_of_subset ?_ |>.mpr ⟨w, by simp [h], by simp [index_visit]⟩
  intro x hx
  simp only [Finset.mem_filter, Finset.mem_univ, true_and, index_visit] at hx ⊢
  split at hx
  · omega
  · exact hx

theorem pending_cons (adj : Adj n) (v : Fin n) (i : Nat) (rest : List (Fin n × Nat)) :
    pending adj ((v, i) :: rest) = (adj.get v).length - i + 1 + pending adj rest := by
  rw [pending, List.map_cons, List.sum_cons]
  rfl

/-- A step that visits no node leaves less to look at. -/
theorem pending_dfsStep {adj : Adj n} {st : TarjanState n} {v : Fin n} {i : Nat}
    {rest : List (Fin n × Nat)}
    (h : ∀ w, (adj.get v)[i]? = some w → st.index.get w ≠ -1) :
    (dfsStep adj st v i rest).1.index = st.index ∧
      pending adj (dfsStep adj st v i rest).2 < pending adj ((v, i) :: rest) := by
  rw [dfsStep]
  cases hw : (adj.get v)[i]? with
  | some w =>
      have hlt : i < (adj.get v).length := (List.getElem?_eq_some_iff.mp hw).1
      have hpending : pending adj ((v, i + 1) :: rest) < pending adj ((v, i) :: rest) := by
        rw [pending_cons, pending_cons]
        omega
      dsimp only
      rw [if_neg (h w hw)]
      split
      · exact ⟨rfl, hpending⟩
      · exact ⟨rfl, hpending⟩
  | none =>
      have hindex : (if st.lowlink.get v = st.index.get v then popScc v st else st).index =
          st.index := by
        split
        · rfl
        · rfl
      have hpending : pending adj rest < pending adj ((v, i) :: rest) := by
        rw [pending_cons]
        omega
      cases rest with
      | nil => exact ⟨hindex, hpending⟩
      | cons parent rest => exact ⟨hindex, hpending⟩

/-- Each step uses up a node, or a neighbour. -/
theorem dfsStep_decreases (adj : Adj n) (st : TarjanState n) (v : Fin n) (i : Nat)
    (rest : List (Fin n × Nat)) :
    Prod.Lex (· < ·) (· < ·)
      (unvisited (dfsStep adj st v i rest).1, pending adj (dfsStep adj st v i rest).2)
      (unvisited st, pending adj ((v, i) :: rest)) := by
  by_cases h : ∀ w, (adj.get v)[i]? = some w → st.index.get w ≠ -1
  · obtain ⟨hindex, hpending⟩ := pending_dfsStep h
    rw [unvisited, hindex]
    exact .right _ hpending
  · push Not at h
    obtain ⟨w, hw, hnew⟩ := h
    apply Prod.Lex.left
    rw [dfsStep, hw]
    dsimp only
    rw [if_pos hnew]
    exact unvisited_visit hnew

/-- The loop of `dfs_iterative`. -/
def dfsLoop (adj : Adj n) (st : TarjanState n) (work : List (Fin n × Nat)) : TarjanState n :=
  match work with
  | [] => st
  | (v, i) :: rest => dfsLoop adj (dfsStep adj st v i rest).1 (dfsStep adj st v i rest).2
termination_by (unvisited st, pending adj work)
decreasing_by exact dfsStep_decreases adj st v i rest

/-- `dfs_iterative`. -/
def dfsIterative (start : Fin n) (adj : Adj n) (st : TarjanState n) : TarjanState n :=
  dfsLoop adj (visit start st) [(start, 0)]

/-- The state that `tarjan_scc` starts from. -/
def TarjanState.start (n : Nat) : TarjanState n :=
  { index := Vector.replicate n (-1)
    lowlink := Vector.replicate n (-1)
    onStack := Vector.replicate n false
    stack := []
    result := []
    counter := 0 }

/-- The body of the loop of `tarjan_scc`. -/
def search (adj : Adj n) (st : TarjanState n) (v : Fin n) : TarjanState n :=
  if st.index.get v ≠ -1 then st else dfsIterative v adj st

/-- `tarjan_scc`. -/
def tarjanScc (adj : Adj n) : List (List (Fin n)) :=
  ((List.finRange n).foldl (search adj) (.start n)).result

/-! ### Reachability -/

/-- `w` is a neighbour of `v`. -/
def Edge (adj : Adj n) (v w : Fin n) : Prop := w ∈ adj.get v

def Reach (adj : Adj n) (v w : Fin n) : Prop := Relation.ReflTransGen (Edge adj) v w

/-- The nodes are those that `v` reaches and that reach `v`. -/
def IsClassOf (adj : Adj n) (v : Fin n) (nodes : List (Fin n)) : Prop :=
  ∀ x, x ∈ nodes ↔ Reach adj v x ∧ Reach adj x v

/-! ### The invariant -/

/-- The node has been visited. -/
def Seen (st : TarjanState n) (x : Fin n) : Prop := st.index.get x ≠ -1

/-- What holds of the stack and the finished components. -/
structure Sound (adj : Adj n) (st : TarjanState n) : Prop where
  onStack_iff : ∀ x, st.onStack.get x = true ↔ x ∈ st.stack
  seen_iff : ∀ x, Seen st x ↔ x ∈ st.stack ∨ x ∈ st.result.flatten
  below_counter : ∀ x ∈ st.stack, st.index.get x < st.counter
  sorted : st.stack.Pairwise fun x y => st.index.get y < st.index.get x
  disjoint : ∀ x ∈ st.stack, x ∉ st.result.flatten
  nodup : st.result.flatten.Nodup
  closed : ∀ x ∈ st.result.flatten, ∀ y, Edge adj x y → y ∈ st.result.flatten
  classes : ∀ nodes ∈ st.result, ∃ v, IsClassOf adj v nodes

/-- What an edge of a segment may lead to. -/
def Explored (st : TarjanState n) (v y : Fin n) : Prop :=
  Seen st y ∧ (y ∈ st.stack → st.lowlink.get v ≤ st.index.get y)

/-- One segment: the node `v`, of whose neighbours the first `i` are looked at, and the
finished nodes above it. -/
structure Segment (adj : Adj n) (st : TarjanState n) (v : Fin n) (i : Nat)
    (finished below : List (Fin n)) : Prop where
  strong : ∀ x ∈ finished, Reach adj v x ∧ Reach adj x v
  explored : ∀ x ∈ finished, ∀ y, Edge adj x y → Explored st v y
  scanned : ∀ y ∈ (adj.get v).take i, Explored st v y
  low_le : st.lowlink.get v ≤ st.index.get v
  low_reach : ∃ y ∈ v :: below, st.index.get y = st.lowlink.get v ∧ Reach adj v y

/-- The segments of the stack, one for each node of the work list. -/
inductive Frames (adj : Adj n) (st : TarjanState n) : List (Fin n × Nat) → List (Fin n) → Prop
  | nil : Frames adj st [] []
  | cons {v : Fin n} {i : Nat} {rest : List (Fin n × Nat)} {finished below : List (Fin n)} :
      Segment adj st v i finished below → (∀ f ∈ rest.head?, Reach adj f.1 v) →
        Frames adj st rest below → Frames adj st ((v, i) :: rest) (finished ++ v :: below)

/-- The invariant of the search. -/
structure Inv (adj : Adj n) (st : TarjanState n) (work : List (Fin n × Nat)) : Prop where
  sound : Sound adj st
  frames : Frames adj st work st.stack

section Frames

variable {adj : Adj n} {st st' : TarjanState n}

theorem Frames.node_mem {work : List (Fin n × Nat)} {stack : List (Fin n)}
    (h : Frames adj st work stack) : ∀ f ∈ work, f.1 ∈ stack := by
  induction h with
  | nil => simp
  | cons _ _ _ ih =>
      intro f hf
      rw [List.mem_append, List.mem_cons]
      rcases List.mem_cons.mp hf with rfl | hf
      · exact .inr (.inl rfl)
      · exact .inr (.inr (ih f hf))

theorem Frames.low_le {work : List (Fin n × Nat)} {stack : List (Fin n)}
    (h : Frames adj st work stack) : ∀ f ∈ work, st.lowlink.get f.1 ≤ st.index.get f.1 := by
  induction h with
  | nil => simp
  | cons hseg _ _ ih =>
      intro f hf
      rcases List.mem_cons.mp hf with rfl | hf
      · exact hseg.low_le
      · exact ih f hf

/-- Every node of the stack reaches the node on top of the work list. -/
theorem Frames.reach_top {work : List (Fin n × Nat)} {stack : List (Fin n)}
    (h : Frames adj st work stack) :
    ∀ f ∈ work.head?, ∀ x ∈ stack, Reach adj x f.1 := by
  induction h with
  | nil => simp
  | @cons v i rest finished below hseg hedge hrest ih =>
      rintro _ ⟨⟩ x hx
      rcases List.mem_append.mp hx with hx | hx
      · exact (hseg.strong x hx).2
      · rcases List.mem_cons.mp hx with rfl | hx
        · exact .refl
        · cases hrest with
          | nil => cases hx
          | cons _ _ _ => exact (ih _ rfl x hx).trans (hedge _ rfl)

/-- Segments carry over to a state that has visited more and whose stack has no other of
the visited nodes. -/
theorem Frames.mono {work : List (Fin n × Nat)} {stack : List (Fin n)}
    (h : Frames adj st work stack) (hstack : ∀ x ∈ stack, Seen st x)
    (hseen : ∀ x, Seen st x → Seen st' x ∧ st'.index.get x = st.index.get x ∧
      (x ∈ st'.stack → x ∈ st.stack))
    (hlow : ∀ f ∈ work, st'.lowlink.get f.1 = st.lowlink.get f.1) : Frames adj st' work stack := by
  induction h with
  | nil => exact .nil
  | @cons v i rest finished below hseg hedge _ ih =>
      have hv := hlow _ List.mem_cons_self
      have hexplored : ∀ y, Explored st v y → Explored st' v y := by
        rintro y ⟨hy, hle⟩
        obtain ⟨hy', hindex, hmem⟩ := hseen y hy
        refine ⟨hy', fun h => ?_⟩
        rw [hv, hindex]
        exact hle (hmem h)
      have hindex : ∀ y ∈ v :: below, st'.index.get y = st.index.get y := fun y hy =>
        (hseen y (hstack y (List.mem_append_right _ hy))).2.1
      refine .cons ⟨hseg.strong, fun x hx y hy => hexplored y (hseg.explored x hx y hy),
        fun y hy => hexplored y (hseg.scanned y hy), ?_, ?_⟩ hedge
        (ih (fun x hx => hstack x (List.mem_append_right _ (List.mem_cons_of_mem _ hx)))
          fun f hf => hlow f (List.mem_cons_of_mem _ hf))
      · rw [hv, hindex v List.mem_cons_self]
        exact hseg.low_le
      · obtain ⟨y, hy, hlow, hreach⟩ := hseg.low_reach
        exact ⟨y, hy, by rw [hv, hindex y hy]; exact hlow, hreach⟩

end Frames

/-! ### Steps that look at a neighbour -/

section Look

variable {adj : Adj n} {st : TarjanState n} {v w : Fin n} {i : Nat} {rest : List (Fin n × Nat)}
  {stack : List (Fin n)}

theorem Frames.advance (h : Frames adj st ((v, i) :: rest) stack) (hw : (adj.get v)[i]? = some w)
    (hexplored : Explored st v w) : Frames adj st ((v, i + 1) :: rest) stack := by
  cases h with
  | cons hseg hedge hrest =>
      refine .cons { hseg with scanned := fun y hy => ?_ } hedge hrest
      rw [List.take_add_one, hw, Option.toList_some, List.mem_append, List.mem_singleton] at hy
      rcases hy with hy | rfl
      · exact hseg.scanned y hy
      · exact hexplored

/-- Segments are sorted by index. -/
theorem Sound.sorted_segment (h : Sound adj st) {finished below : List (Fin n)}
    (hstack : st.stack = finished ++ v :: below) :
    (∀ x ∈ finished, st.index.get v < st.index.get x) ∧
      (∀ x ∈ finished, ∀ y ∈ below, st.index.get y < st.index.get x) ∧
        (∀ y ∈ below, st.index.get y < st.index.get v) ∧
          finished.Pairwise (fun x y => st.index.get y < st.index.get x) ∧
            below.Pairwise fun x y => st.index.get y < st.index.get x := by
  have hsorted := h.sorted
  rw [hstack, List.pairwise_append, List.pairwise_cons] at hsorted
  obtain ⟨hfinished, ⟨hv, hbelow⟩, hacross⟩ := hsorted
  exact ⟨fun x hx => hacross x hx v List.mem_cons_self,
    fun x hx y hy => hacross x hx y (List.mem_cons_of_mem _ hy), hv, hfinished, hbelow⟩

/-- A neighbour on the stack lowers the low link to its index. -/
theorem frames_lower (h : Inv adj st ((v, i) :: rest)) (hedge : Edge adj v w)
    (hw : w ∈ st.stack) :
    Frames adj (lower v (st.index.get w) st) ((v, i) :: rest) st.stack := by
  obtain ⟨hsound, hframes⟩ := h
  generalize hstack : st.stack = stack at hframes
  cases hframes with
  | @cons _ _ _ finished below hseg hlink hrest =>
      obtain ⟨habove, -, hbelow, -, -⟩ := hsound.sorted_segment hstack
      have hlow : (lower v (st.index.get w) st).lowlink.get v =
          min (st.lowlink.get v) (st.index.get w) := by
        rw [lower, get_set, Function.update_self]
      have hexplored : ∀ y, Explored st v y → Explored (lower v (st.index.get w) st) v y :=
        fun y ⟨hy, hle⟩ => ⟨hy, fun hmem => by
          rw [hlow]
          exact (min_le_left _ _).trans (hle hmem)⟩
      refine .cons ⟨hseg.strong, fun x hx y hy => hexplored y (hseg.explored x hx y hy),
        fun y hy => hexplored y (hseg.scanned y hy), ?_, ?_⟩ hlink ?_
      · rw [hlow]
        exact (min_le_left _ _).trans hseg.low_le
      · rw [hlow]
        rcases le_or_gt (st.lowlink.get v) (st.index.get w) with hle | hlt
        · rw [min_eq_left hle]
          exact hseg.low_reach
        · rw [min_eq_right hlt.le]
          refine ⟨w, ?_, rfl, .single hedge⟩
          rw [hstack, List.mem_append] at hw
          refine hw.resolve_left fun hfinished => ?_
          have := habove w hfinished
          have := hseg.low_le
          omega
      · refine hrest.mono (fun x hx => ?_) (fun x hx => ⟨hx, rfl, id⟩) fun f hf => ?_
        · rw [hsound.seen_iff, hstack]
          exact .inl (List.mem_append_right _ (List.mem_cons_of_mem _ hx))
        · have hne : f.1 ≠ v := fun heq => by
            have := hbelow f.1 (hrest.node_mem f hf)
            rw [heq] at this
            omega
          rw [lower, get_set, Function.update_of_ne hne]

/-- Lowering a low link keeps what does not speak of it. -/
theorem sound_lower (h : Sound adj st) (bound : Int) : Sound adj (lower v bound st) :=
  ⟨h.onStack_iff, h.seen_iff, h.below_counter, h.sorted, h.disjoint, h.nodup, h.closed, h.classes⟩

theorem sound_visit (h : Sound adj st) (hw : st.index.get w = -1) : Sound adj (visit w st) := by
  have hunseen : ¬(w ∈ st.stack ∨ w ∈ st.result.flatten) := by
    rw [← h.seen_iff]
    exact fun hseen => hseen hw
  have hold : ∀ x ∈ st.stack, (visit w st).index.get x = st.index.get x := by
    intro x hx
    rw [index_visit, if_neg]
    rintro rfl
    exact hunseen (.inl hx)
  constructor
  · intro x
    simp only [visit, get_set, Function.update_apply, List.mem_cons]
    split_ifs with hx
    · simp [hx]
    · rw [h.onStack_iff]
      simp [hx]
  · intro x
    have hseen := h.seen_iff x
    simp only [Seen, index_visit] at hseen ⊢
    simp only [visit, List.mem_cons]
    split_ifs with hx
    · exact ⟨fun _ => .inl (.inl hx), fun _ => by omega⟩
    · rw [hseen]
      simp [hx]
  · intro x hx
    rcases List.mem_cons.mp hx with rfl | hx
    · rw [index_visit, if_pos rfl]
      simp only [visit]
      omega
    · have := h.below_counter x hx
      rw [hold x hx]
      simp only [visit]
      omega
  · refine List.pairwise_cons.mpr ⟨fun y hy => ?_, h.sorted.imp_of_mem fun hx hy hlt => ?_⟩
    · rw [hold y hy, index_visit, if_pos rfl]
      exact h.below_counter y hy
    · rw [hold _ hx, hold _ hy]
      exact hlt
  · intro x hx
    rcases List.mem_cons.mp hx with rfl | hx
    · exact fun hmem => hunseen (.inr hmem)
    · exact h.disjoint x hx
  · exact h.nodup
  · exact h.closed
  · exact h.classes

/-- Segments carry over when a node is visited. -/
theorem Frames.visit {work : List (Fin n × Nat)} (h : Frames adj st work st.stack)
    (hsound : Sound adj st) (hw : st.index.get w = -1) :
    Frames adj (SemanticDiff.visit w st) work st.stack := by
  have hne : ∀ x, Seen st x → x ≠ w := by
    rintro x hx rfl
    exact hx hw
  refine h.mono (fun x hx => (hsound.seen_iff x).mpr (.inl hx)) (fun x hx => ?_) fun f hf => ?_
  · have hindex : (SemanticDiff.visit w st).index.get x = st.index.get x := by
      rw [index_visit, if_neg (hne x hx)]
    refine ⟨by rwa [Seen, hindex], hindex, fun hmem => ?_⟩
    exact (List.mem_cons.mp hmem).resolve_left (hne x hx)
  · have hf' : f.1 ≠ w := hne f.1 ((hsound.seen_iff f.1).mpr (.inl (h.node_mem f hf)))
    rw [SemanticDiff.visit, get_set, Function.update_of_ne hf']

/-- A visited node is a segment of its own. -/
theorem frames_visit {work : List (Fin n × Nat)}
    (h : Frames adj (visit w st) work st.stack) (hreach : ∀ f ∈ work.head?, Reach adj f.1 w) :
    Frames adj (visit w st) ((w, 0) :: work) (visit w st).stack := by
  have hself : (visit w st).lowlink.get w = (visit w st).index.get w := by
    rw [visit, get_set, get_set, Function.update_self, Function.update_self]
  have hseg : Segment adj (visit w st) w 0 [] st.stack :=
    ⟨by simp, by simp, by simp, hself.le, w, List.mem_cons_self, hself.symm, .refl⟩
  exact .cons hseg hreach h

end Look

/-! ### Popping a component -/

section Pop

variable {adj : Adj n} {st : TarjanState n} {v : Fin n} {i : Nat} {rest : List (Fin n × Nat)}
  {finished below : List (Fin n)}

theorem popLoop_eq (hv : v ∉ finished) (onStack : Vector Bool n) (component : List (Fin n)) :
    ∃ marks : Vector Bool n,
      popLoop v (finished ++ v :: below) onStack component =
        (below, marks, component ++ (finished ++ [v])) ∧
        ∀ x, marks.get x = true ↔ onStack.get x = true ∧ x ≠ v ∧ x ∉ finished := by
  induction finished generalizing onStack component with
  | nil =>
      refine ⟨onStack.set v false, by rw [List.nil_append, popLoop, if_pos rfl, List.nil_append], ?_⟩
      intro x
      rw [get_set, Function.update_apply]
      split_ifs with hx
      · simp [hx]
      · simp [hx]
  | cons w finished ih =>
      rw [List.mem_cons, not_or] at hv
      obtain ⟨marks, hpop, hmarks⟩ := ih hv.2 (onStack.set w false) (component ++ [w])
      refine ⟨marks, ?_, fun x => ?_⟩
      · rw [List.cons_append, popLoop, if_neg (Ne.symm hv.1), hpop]
        simp
      · rw [hmarks, get_set, Function.update_apply]
        split_ifs with hx
        · simp [hx]
        · simp [hx]

/-- The edges of a node that is looked through lead to explored nodes. -/
theorem Segment.explored_all (h : Segment adj st v i finished below)
    (hdone : (adj.get v)[i]? = none) : ∀ x, x ∈ finished ∨ x = v → ∀ y, Edge adj x y →
      Explored st v y := by
  rintro x (hx | rfl) y hy
  · exact h.explored x hx y hy
  · refine h.scanned y ?_
    rw [List.take_of_length_le (List.getElem?_eq_none_iff.mp hdone)]
    exact hy

/-- What a finished component reaches is in finished components. -/
theorem Sound.closed_reach (h : Sound adj st) {x y : Fin n} (hx : x ∈ st.result.flatten)
    (hreach : Reach adj x y) : y ∈ st.result.flatten := by
  induction hreach with
  | refl => exact hx
  | tail _ hedge ih => exact h.closed _ ih _ hedge

section Closing

variable (hsound : Sound adj st) (hstack : st.stack = finished ++ v :: below)
  (hseg : Segment adj st v i finished below) (hdone : (adj.get v)[i]? = none)
  (hroot : st.lowlink.get v = st.index.get v)

include hsound hstack hseg hdone hroot

/-- An edge of a segment that closes stays in it or leads to a finished component. -/
theorem edge_of_closing {x y : Fin n} (hx : x ∈ finished ++ [v]) (hedge : Edge adj x y) :
    y ∈ finished ++ [v] ∨ y ∈ st.result.flatten := by
  obtain ⟨hseen, hle⟩ := hseg.explored_all hdone x (by simpa using hx) y hedge
  rcases (hsound.seen_iff y).mp hseen with hmem | hmem
  · have hle := hle hmem
    rw [hroot] at hle
    rw [hstack, List.mem_append, List.mem_cons] at hmem
    rcases hmem with hmem | rfl | hmem
    · exact .inl (List.mem_append_left _ hmem)
    · exact .inl (by simp)
    · have := (hsound.sorted_segment hstack).2.2.1 y hmem
      omega
  · exact .inr hmem

/-- A segment whose node has its own index as low link is a component. -/
theorem isClass_segment : IsClassOf adj v (finished ++ [v]) := by
  intro x
  constructor
  · intro hx
    rw [List.mem_append, List.mem_singleton] at hx
    rcases hx with hx | rfl
    · exact hseg.strong x hx
    · exact ⟨.refl, .refl⟩
  · rintro ⟨hreach, hback⟩
    have hcases : x ∈ finished ++ [v] ∨ x ∈ st.result.flatten := by
      clear hback
      induction hreach with
      | refl => exact .inl (by simp)
      | tail _ hedge ih =>
          rcases ih with hmem | hmem
          · exact edge_of_closing hsound hstack hseg hdone hroot hmem hedge
          · exact .inr (hsound.closed _ hmem _ hedge)
    refine hcases.resolve_right fun hmem => ?_
    have hv : v ∈ st.stack := by
      rw [hstack]
      simp
    exact hsound.disjoint v hv (hsound.closed_reach hmem hback)

/-- The state behind a closed segment. -/
theorem popScc_eq : ∃ marks : Vector Bool n,
    popScc v st = { st with
      stack := below
      onStack := marks
      result := st.result ++ [finished ++ [v]] } ∧
      ∀ x, marks.get x = true ↔ x ∈ below := by
  obtain ⟨habove, hacross, hbelow, -, -⟩ := hsound.sorted_segment hstack
  have hv : v ∉ finished := fun hmem => by
    have := habove v hmem
    omega
  obtain ⟨marks, hpop, hmarks⟩ := @popLoop_eq n v finished below hv st.onStack []
  refine ⟨marks, ?_, fun x => ?_⟩
  · rw [popScc, hstack, hpop]
    rfl
  · rw [hmarks, hsound.onStack_iff, hstack, List.mem_append, List.mem_cons]
    constructor
    · rintro ⟨hmem, hne, hnot⟩
      exact (hmem.resolve_left hnot).resolve_left hne
    · intro hmem
      refine ⟨.inr (.inr hmem), ?_, fun hfinished => ?_⟩
      · rintro rfl
        have := hbelow x hmem
        omega
      · have := hacross x hfinished x hmem
        omega

/-- Popping a component keeps the state sound, and only takes the segment off the stack. -/
theorem sound_popScc : Sound adj (popScc v st) ∧ (popScc v st).stack = below ∧
    (popScc v st).index = st.index ∧ (popScc v st).lowlink = st.lowlink := by
  obtain ⟨habove, hacross, hbelow, hfinished, hsorted⟩ := hsound.sorted_segment hstack
  obtain ⟨marks, hpop, hmarks⟩ :=
    popScc_eq hsound hstack hseg hdone hroot
  have hclass := isClass_segment hsound hstack hseg hdone hroot
  have hmem : ∀ x, x ∈ st.stack ↔ x ∈ finished ++ [v] ∨ x ∈ below := fun x => by
    rw [hstack]
    simp [or_assoc]
  have hapart : ∀ x ∈ below, x ∉ finished ++ [v] := by
    intro x hx hmem
    rw [List.mem_append, List.mem_singleton] at hmem
    rcases hmem with hmem | rfl
    · have := hacross x hmem x hx
      omega
    · have := hbelow x hx
      omega
  have hflatten : (st.result ++ [finished ++ [v]]).flatten =
      st.result.flatten ++ (finished ++ [v]) := by simp
  rw [hpop]
  refine ⟨?_, rfl, rfl, rfl⟩
  constructor
  · exact hmarks
  · intro x
    have hseen := hsound.seen_iff x
    simp only [Seen] at hseen ⊢
    rw [hseen, hmem, hflatten]
    simp only [List.mem_append]
    tauto
  · exact fun x hx => hsound.below_counter x ((hmem x).mpr (.inr hx))
  · exact hsorted
  · intro x hx
    rw [hflatten, List.mem_append, not_or]
    exact ⟨hsound.disjoint x ((hmem x).mpr (.inr hx)), hapart x hx⟩
  · rw [hflatten, List.nodup_append]
    refine ⟨hsound.nodup, ?_, ?_⟩
    · rw [List.nodup_append]
      refine ⟨hfinished.imp fun hlt heq => ?_, List.nodup_singleton v, ?_⟩
      · rw [heq] at hlt
        omega
      · rintro x hx y hy rfl
        rw [List.mem_singleton] at hy
        have := habove x hx
        rw [hy] at this
        omega
    · rintro x hx y hy rfl
      exact hsound.disjoint x ((hmem x).mpr (.inl hy)) hx
  · intro x hx y hedge
    rw [hflatten, List.mem_append] at hx ⊢
    rcases hx with hx | hx
    · exact .inl (hsound.closed x hx y hedge)
    · exact (edge_of_closing hsound hstack hseg hdone hroot hx hedge).symm
  · intro nodes hnodes
    rw [List.mem_append, List.mem_singleton] at hnodes
    rcases hnodes with hnodes | rfl
    · exact hsound.classes nodes hnodes
    · exact ⟨v, hclass⟩

end Closing

section Join

variable {parent : Fin n} {j : Nat} {finishedParent belowParent : List (Fin n)}

theorem lowlink_lower_self (parent : Fin n) (low : Int) :
    (lower parent low st).lowlink.get parent = min (st.lowlink.get parent) low := by
  rw [lower, get_set, Function.update_self]

/-- What is explored for a node is explored for one that takes its low link over. -/
theorem Explored.toLower {low : Int} {x y : Fin n} (h : Explored st x y)
    (hle : min (st.lowlink.get parent) low ≤ st.lowlink.get x) :
    Explored (lower parent low st) parent y := by
  refine ⟨h.1, fun hmem => ?_⟩
  rw [lowlink_lower_self]
  exact hle.trans (h.2 hmem)

/-- A node whose low link is not its own index reaches a node below its segment, there. -/
theorem Segment.below_of_low (hseg : Segment adj st v i finished below)
    (hlow : st.lowlink.get v ≠ st.index.get v) :
    ∃ y ∈ below, st.index.get y = st.lowlink.get v ∧ Reach adj v y := by
  obtain ⟨y, hy, hindex, hreach⟩ := hseg.low_reach
  rcases List.mem_cons.mp hy with rfl | hy
  · exact absurd hindex.symm hlow
  · exact ⟨y, hy, hindex, hreach⟩

theorem segment_join (hsound : Sound adj st)
    (hstack : st.stack = (finished ++ v :: finishedParent) ++ parent :: belowParent)
    (hseg : Segment adj st v i finished (finishedParent ++ parent :: belowParent))
    (hparent : Segment adj st parent j finishedParent belowParent)
    (hlink : Reach adj parent v)
    (htop : ∀ x ∈ finishedParent ++ parent :: belowParent, Reach adj x parent)
    (hdone : (adj.get v)[i]? = none) (hlow : st.lowlink.get v ≠ st.index.get v) :
    Segment adj (lower parent (st.lowlink.get v) st) parent j (finished ++ v :: finishedParent)
      belowParent := by
  obtain ⟨y, hy, hindex, hreach⟩ := hseg.below_of_low hlow
  have hback : Reach adj v parent := hreach.trans (htop y hy)
  have hofParent : ∀ y, Explored st parent y →
      Explored (lower parent (st.lowlink.get v) st) parent y :=
    fun y hy => hy.toLower (min_le_left _ _)
  have hofChild : ∀ y, Explored st v y →
      Explored (lower parent (st.lowlink.get v) st) parent y :=
    fun y hy => hy.toLower (min_le_right _ _)
  refine ⟨fun x hx => ?_, fun x hx y hedge => ?_, fun y hy => hofParent y (hparent.scanned y hy),
    ?_, ?_⟩
  · rw [List.mem_append, List.mem_cons] at hx
    rcases hx with hx | rfl | hx
    · exact ⟨hlink.trans (hseg.strong x hx).1, (hseg.strong x hx).2.trans hback⟩
    · exact ⟨hlink, hback⟩
    · exact hparent.strong x hx
  · rw [List.mem_append, List.mem_cons] at hx
    rcases hx with hx | rfl | hx
    · exact hofChild y (hseg.explored_all hdone x (.inl hx) y hedge)
    · exact hofChild y (hseg.explored_all hdone x (.inr rfl) y hedge)
    · exact hofParent y (hparent.explored x hx y hedge)
  · rw [lowlink_lower_self]
    exact (min_le_left _ _).trans hparent.low_le
  · rw [lowlink_lower_self]
    rcases le_or_gt (st.lowlink.get parent) (st.lowlink.get v) with hle | hlt
    · rw [min_eq_left hle]
      exact hparent.low_reach
    · rw [min_eq_right hlt.le]
      refine ⟨y, ?_, hindex, hlink.trans hreach⟩
      refine (List.mem_append.mp hy).resolve_left fun hmem => ?_
      have := (hsound.sorted_segment hstack).1 y
        (List.mem_append_right _ (List.mem_cons_of_mem _ hmem))
      have := hparent.low_le
      omega

/-- A segment whose node has a lower low link joins the one below it. -/
theorem frames_join (hsound : Sound adj st)
    (hframes : Frames adj st ((v, i) :: (parent, j) :: rest) st.stack)
    (hdone : (adj.get v)[i]? = none) (hlow : st.lowlink.get v ≠ st.index.get v) :
    Frames adj (lower parent (st.lowlink.get v) st) ((parent, j) :: rest) st.stack := by
  generalize hstack : st.stack = stack at hframes
  cases hframes with
  | @cons _ _ _ finished below hseg hlink hrest =>
  have htop := hrest.reach_top _ rfl
  cases hrest with
  | @cons _ _ _ finishedParent belowParent hparent hlinkRest hframesRest =>
  have hstack' : st.stack = (finished ++ v :: finishedParent) ++ parent :: belowParent := by
    simpa using hstack
  have hjoined := segment_join hsound hstack' hseg hparent (hlink _ rfl) htop hdone hlow
  have hframes' : Frames adj (lower parent (st.lowlink.get v) st) rest belowParent := by
    refine hframesRest.mono (fun x hx => ?_) (fun x hx => ⟨hx, rfl, id⟩) fun f hf => ?_
    · rw [hsound.seen_iff, hstack']
      exact .inl (List.mem_append_right _ (List.mem_cons_of_mem _ hx))
    · have hne : f.1 ≠ parent := fun heq => by
        have := (hsound.sorted_segment hstack').2.2.1 f.1 (hframesRest.node_mem f hf)
        rw [heq] at this
        omega
      rw [lower, get_set, Function.update_of_ne hne]
  have hcons := Frames.cons hjoined hlinkRest hframes'
  simpa using hcons

end Join

end Pop

/-! ### The search -/

section Search

variable {adj : Adj n} {st : TarjanState n} {v : Fin n} {i : Nat} {rest : List (Fin n × Nat)}

theorem seen_visit {w x : Fin n} (hx : Seen st x ∨ x = w) : Seen (visit w st) x := by
  rw [Seen, index_visit]
  split_ifs with h
  · omega
  · exact hx.resolve_right h

/-- Visiting a neighbour. -/
theorem inv_visit {w : Fin n} (h : Inv adj st ((v, i) :: rest)) (hw : (adj.get v)[i]? = some w)
    (hnew : st.index.get w = -1) : Inv adj (visit w st) ((w, 0) :: (v, i + 1) :: rest) := by
  have hedge : Edge adj v w := List.mem_of_getElem? hw
  have hv : Seen st v := by
    rw [h.sound.seen_iff]
    exact .inl (h.frames.node_mem _ List.mem_cons_self)
  have hframes := h.frames.visit h.sound hnew
  have hexplored : Explored (visit w st) v w := by
    refine ⟨seen_visit (.inr rfl), fun _ => ?_⟩
    have hlow : (visit w st).lowlink.get v ≤ (visit w st).index.get v := by
      generalize st.stack = stack at hframes
      cases hframes with
      | cons hseg _ _ => exact hseg.low_le
    have hne : v ≠ w := by
      rintro rfl
      exact hv hnew
    have hcounter := h.sound.below_counter v (h.frames.node_mem _ List.mem_cons_self)
    rw [index_visit, if_neg hne] at hlow
    rw [index_visit, if_pos rfl]
    omega
  refine ⟨sound_visit h.sound hnew, frames_visit (hframes.advance hw hexplored) ?_⟩
  rintro _ ⟨⟩
  exact .single hedge

/-- Looking at a visited neighbour. -/
theorem inv_look {w : Fin n} (h : Inv adj st ((v, i) :: rest)) (hw : (adj.get v)[i]? = some w)
    (hseen : Seen st w) :
    (w ∈ st.stack → Inv adj (lower v (st.index.get w) st) ((v, i + 1) :: rest)) ∧
      (w ∉ st.stack → Inv adj st ((v, i + 1) :: rest)) := by
  have hedge : Edge adj v w := List.mem_of_getElem? hw
  constructor
  · intro hmem
    refine ⟨sound_lower h.sound _, (frames_lower h hedge hmem).advance hw ⟨hseen, fun _ => ?_⟩⟩
    rw [lower, get_set, Function.update_self]
    exact min_le_right _ _
  · intro hnot
    exact ⟨h.sound, h.frames.advance hw ⟨hseen, fun hmem => absurd hmem hnot⟩⟩

/-- Closing the segment on top. -/
theorem inv_popScc (h : Inv adj st ((v, i) :: rest)) (hdone : (adj.get v)[i]? = none)
    (hroot : st.lowlink.get v = st.index.get v) : Inv adj (popScc v st) rest ∧
      ∀ f ∈ rest, (popScc v st).lowlink.get f.1 ≤ (popScc v st).lowlink.get v := by
  obtain ⟨hsound, hframes⟩ := h
  generalize hstack : st.stack = stack at hframes
  cases hframes with
  | @cons _ _ _ finished below hseg hlink hrest =>
      obtain ⟨hsound', hstack', hindex, hlowlink⟩ := sound_popScc hsound hstack hseg hdone hroot
      have hmemBelow : ∀ x ∈ below, x ∈ st.stack := fun x hx => by
        rw [hstack]
        exact List.mem_append_right _ (List.mem_cons_of_mem _ hx)
      have hrest' : Frames adj (popScc v st) rest below := by
        refine hrest.mono (fun x hx => (hsound.seen_iff x).mpr (.inl (hmemBelow x hx)))
          (fun x hx => ⟨by rwa [Seen, hindex], by rw [hindex], fun hmem => ?_⟩)
          fun f _ => by rw [hlowlink]
        rw [hstack'] at hmem
        exact hmemBelow x hmem
      refine ⟨⟨hsound', hstack' ▸ hrest'⟩, fun f hf => ?_⟩
      have hlt := (hsound.sorted_segment hstack).2.2.1 f.1 (hrest.node_mem f hf)
      have hle := hrest.low_le f hf
      rw [hlowlink, hroot]
      omega

/-- Lowering a node of the work list to what is above its low link changes nothing. -/
theorem inv_lower_of_le {parent : Fin n} {bound : Int} {work : List (Fin n × Nat)}
    (h : Inv adj st work) (hle : st.lowlink.get parent ≤ bound) :
    Inv adj (lower parent bound st) work := by
  refine ⟨sound_lower h.sound _, h.frames.mono (fun x hx => (h.sound.seen_iff x).mpr (.inl hx))
    (fun x hx => ⟨hx, rfl, id⟩) fun f _ => ?_⟩
  rw [lower, get_set, Function.update_apply]
  split_ifs with hf
  · rw [hf, min_eq_left hle]
  · rfl

/-- A lone segment has no lower low link. -/
theorem root_of_lone (h : Inv adj st [(v, i)]) : st.lowlink.get v = st.index.get v := by
  obtain ⟨-, hframes⟩ := h
  generalize st.stack = stack at hframes
  cases hframes with
  | cons hseg _ hrest =>
      cases hrest with
      | nil =>
          obtain ⟨y, hy, hindex, -⟩ := hseg.low_reach
          rw [List.mem_singleton.mp hy] at hindex
          exact hindex.symm

/-- A step keeps the invariant. -/
theorem inv_dfsStep (h : Inv adj st ((v, i) :: rest)) :
    Inv adj (dfsStep adj st v i rest).1 (dfsStep adj st v i rest).2 := by
  rw [dfsStep]
  cases hw : (adj.get v)[i]? with
  | some w =>
      dsimp only
      split
      · rename_i hnew
        exact inv_visit h hw hnew
      · rename_i hseen
        split
        · rename_i hmarked
          exact (inv_look h hw hseen).1 ((h.sound.onStack_iff w).mp hmarked)
        · rename_i hmarked
          exact (inv_look h hw hseen).2 (mt (h.sound.onStack_iff w).mpr hmarked)
  | none =>
      dsimp only
      by_cases hroot : st.lowlink.get v = st.index.get v
      · rw [if_pos hroot]
        obtain ⟨hpopped, hle⟩ := inv_popScc h hw hroot
        cases rest with
        | nil => exact hpopped
        | cons parent rest => exact inv_lower_of_le hpopped (hle parent List.mem_cons_self)
      · rw [if_neg hroot]
        cases rest with
        | nil => exact absurd (root_of_lone h) hroot
        | cons parent rest => exact ⟨sound_lower h.sound _, frames_join h.sound h.frames hw hroot⟩

theorem seen_dfsStep {x : Fin n} (hx : Seen st x) : Seen (dfsStep adj st v i rest).1 x := by
  by_cases hnew : ∀ w, (adj.get v)[i]? = some w → st.index.get w ≠ -1
  · rwa [Seen, (pending_dfsStep hnew).1]
  · push Not at hnew
    obtain ⟨w, hw, hnew⟩ := hnew
    rw [dfsStep, hw]
    dsimp only
    rw [if_pos hnew]
    exact seen_visit (.inl hx)

/-- A search ends with an empty stack, and forgets no node. -/
theorem dfsLoop_spec {work : List (Fin n × Nat)} (h : Inv adj st work) :
    Inv adj (dfsLoop adj st work) [] ∧ ∀ x, Seen st x → Seen (dfsLoop adj st work) x := by
  induction st, work using dfsLoop.induct adj with
  | case1 st =>
      rw [dfsLoop]
      exact ⟨h, fun _ hx => hx⟩
  | case2 st v i rest ih =>
      rw [dfsLoop]
      obtain ⟨hinv, hseen⟩ := ih (inv_dfsStep h)
      exact ⟨hinv, fun x hx => hseen x (seen_dfsStep hx)⟩

theorem dfsIterative_spec (h : Inv adj st []) (hv : st.index.get v = -1) :
    Inv adj (dfsIterative v adj st) [] ∧
      ∀ x, Seen st x ∨ x = v → Seen (dfsIterative v adj st) x := by
  have hvisit : Inv adj (visit v st) [(v, 0)] :=
    ⟨sound_visit h.sound hv, frames_visit (h.frames.visit h.sound hv) (by simp)⟩
  obtain ⟨hinv, hseen⟩ := dfsLoop_spec hvisit
  exact ⟨hinv, fun x hx => hseen x (seen_visit hx)⟩

end Search

theorem start_onStack (x : Fin n) : (TarjanState.start n).onStack.get x = false :=
  get_replicate _ _

theorem not_seen_start (x : Fin n) : ¬ Seen (TarjanState.start n) x :=
  fun h => h (get_replicate _ _)

theorem inv_start (adj : Adj n) : Inv adj (.start n) [] where
  sound :=
    { onStack_iff := fun x => by rw [start_onStack]; simp [TarjanState.start]
      seen_iff := fun x => iff_of_false (not_seen_start x) (by simp [TarjanState.start])
      below_counter := by simp [TarjanState.start]
      sorted := List.Pairwise.nil
      disjoint := by simp [TarjanState.start]
      nodup := List.nodup_nil
      closed := by simp [TarjanState.start]
      classes := by simp [TarjanState.start] }
  frames := .nil

/-- The lists that `tarjan_scc` returns are the strongly connected components, and every
node is in one of them, once. -/
theorem tarjanScc_spec (adj : Adj n) :
    (∀ x, x ∈ (tarjanScc adj).flatten) ∧ (tarjanScc adj).flatten.Nodup ∧
      ∀ nodes ∈ tarjanScc adj, ∃ v, IsClassOf adj v nodes := by
  have hloop : Inv adj ((List.finRange n).foldl (search adj) (.start n)) [] ∧
      ∀ x ∈ List.finRange n, Seen ((List.finRange n).foldl (search adj) (.start n)) x := by
    refine Run.foldl_invariant (fun nodes st => Inv adj st [] ∧ ∀ x ∈ nodes, Seen st x)
      ⟨inv_start adj, by simp⟩ fun nodes v _ st _ ⟨hinv, hseen⟩ => ?_
    rw [search]
    split
    · rename_i hv
      refine ⟨hinv, fun x hx => ?_⟩
      rcases List.mem_append.mp hx with hx | hx
      · exact hseen x hx
      · rwa [List.mem_singleton.mp hx]
    · rename_i hv
      obtain ⟨hinv', hseen'⟩ := dfsIterative_spec hinv (not_not.mp hv)
      refine ⟨hinv', fun x hx => hseen' x ?_⟩
      rw [List.mem_append, List.mem_singleton] at hx
      exact hx.imp_left (hseen x)
  obtain ⟨⟨hsound, hframes⟩, hseen⟩ := hloop
  refine ⟨fun x => ?_, hsound.nodup, hsound.classes⟩
  refine ((hsound.seen_iff x).mp (hseen x (List.mem_finRange x))).resolve_left fun hmem => ?_
  generalize TarjanState.stack _ = stack at hframes hmem
  cases hframes with
  | nil => cases hmem

/-- Two nodes of one class reach each other. -/
theorem IsClassOf.mutual {nodes : List (Fin n)} {v x y : Fin n} (h : IsClassOf adj v nodes)
    (hx : x ∈ nodes) (hy : y ∈ nodes) : Reach adj x y ∧ Reach adj y x := by
  obtain ⟨hvx, hxv⟩ := (h x).mp hx
  obtain ⟨hvy, hyv⟩ := (h y).mp hy
  exact ⟨hxv.trans hvy, hyv.trans hvx⟩

/-- What reaches a node of the class and is reached from it is in the class. -/
theorem IsClassOf.mem_of_mutual {nodes : List (Fin n)} {v x y : Fin n} (h : IsClassOf adj v nodes)
    (hx : x ∈ nodes) (hxy : Reach adj x y) (hyx : Reach adj y x) : y ∈ nodes := by
  obtain ⟨hvx, hxv⟩ := (h x).mp hx
  exact (h y).mpr ⟨hvx.trans hxy, hyx.trans hxv⟩

/-- On every directed multigraph `tarjan_scc` returns a partition of the nodes, in which two
nodes are together exactly when each is reachable from the other. -/
theorem tarjanScc_partitions (adj : Adj n) :
    (∀ x, (tarjanScc adj).flatten.count x = 1) ∧ (∀ nodes ∈ tarjanScc adj, nodes ≠ []) ∧
      ∀ x y, (∃ nodes ∈ tarjanScc adj, x ∈ nodes ∧ y ∈ nodes) ↔
        Reach adj x y ∧ Reach adj y x := by
  obtain ⟨hall, hnodup, hclasses⟩ := tarjanScc_spec adj
  refine ⟨fun x => List.count_eq_one_of_mem hnodup (hall x), ?_, fun x y => ⟨?_, ?_⟩⟩
  · rintro nodes hnodes rfl
    obtain ⟨v, hv⟩ := hclasses [] hnodes
    exact List.not_mem_nil ((hv v).mpr ⟨.refl, .refl⟩)
  · rintro ⟨nodes, hnodes, hx, hy⟩
    obtain ⟨v, hv⟩ := hclasses nodes hnodes
    exact hv.mutual hx hy
  · rintro ⟨hxy, hyx⟩
    obtain ⟨nodes, hnodes, hx⟩ := List.mem_flatten.mp (hall x)
    obtain ⟨v, hv⟩ := hclasses nodes hnodes
    exact ⟨nodes, hnodes, hx, hv.mem_of_mutual hx hxy hyx⟩

end AutomatisedPipeline.SemanticDiff

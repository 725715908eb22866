import Mathlib.Tactic

/-!
A worklist that marks what it reaches, and reports what it does not follow.

What lies below a node are further nodes and reports. `spread` takes the node on top of the
stack; a node below it that is not marked yet is marked and put on the stack, a report is
written down. In a `Settled` state the marked nodes that do not wait on the stack have
nothing below them that is not marked or written down. Where the nodes come from a finite
set the worklist runs empty (`spread_ends`), and then all that is marked is settled.
-/

namespace AutomatisedPipeline.Spread

variable {ν σ : Type}

/-- The stack, its top first, what is marked, and what has been reported. -/
structure State (ν σ : Type) where
  pending : List ν
  marked : List ν
  reported : List σ

section Run

variable [DecidableEq ν]

/-- One thing below a node. -/
def State.visit (s : State ν σ) : ν ⊕ σ → State ν σ
  | .inl v =>
      if v ∈ s.marked then s
      else { s with pending := v :: s.pending, marked := v :: s.marked }
  | .inr e => { s with reported := s.reported ++ [e] }

/-- All that lies below a node. -/
def State.visitAll (s : State ν σ) (below : List (ν ⊕ σ)) : State ν σ := below.foldl State.visit s

variable (below : ν → List (ν ⊕ σ))

/-- The loop over the stack: what is marked and reported in the end, `none` when the fuel
runs out. -/
def spread : Nat → State ν σ → Option (List ν × List σ)
  | _, ⟨[], marked, reported⟩ => some (marked, reported)
  | 0, ⟨_ :: _, _, _⟩ => none
  | fuel + 1, ⟨v :: pending, marked, reported⟩ =>
      spread fuel (State.visitAll ⟨pending, marked, reported⟩ (below v))

end Run

/-- A node lies directly below another. -/
def Below (below : ν → List (ν ⊕ σ)) (v w : ν) : Prop := .inl w ∈ below v

/-- All that lies below a node is marked or reported. -/
def Done (below : ν → List (ν ⊕ σ)) (s : State ν σ) (v : ν) : Prop :=
  (∀ w, .inl w ∈ below v → w ∈ s.marked) ∧ ∀ e, .inr e ∈ below v → e ∈ s.reported

/-- The invariant of the loop. -/
structure Settled (below : ν → List (ν ⊕ σ)) (s : State ν σ) : Prop where
  waiting : ∀ v ∈ s.pending, v ∈ s.marked
  done : ∀ v ∈ s.marked, v ∈ s.pending ∨ Done below s v
  reported : ∀ e ∈ s.reported, ∃ v ∈ s.marked, .inr e ∈ below v

/-! ### What lies below one node -/

section Visit

variable [DecidableEq ν]

theorem mem_marked_visitAll {l : List (ν ⊕ σ)} {s : State ν σ} {v : ν} :
    v ∈ (s.visitAll l).marked ↔ v ∈ s.marked ∨ .inl v ∈ l := by
  induction l generalizing s with
  | nil => simp [State.visitAll]
  | cons x l ih =>
      have hstep : v ∈ (s.visit x).marked ↔ v ∈ s.marked ∨ .inl v = x := by
        cases x with
        | inl w =>
            by_cases hw : w ∈ s.marked
            · simp only [State.visit, if_pos hw, Sum.inl.injEq]
              exact ⟨Or.inl, fun h => h.elim id fun heq => heq ▸ hw⟩
            · simp [State.visit, if_neg hw, or_comm]
        | inr e => simp [State.visit]
      rw [State.visitAll, List.foldl_cons, ← State.visitAll, ih, hstep, List.mem_cons, or_assoc]

theorem mem_reported_visitAll {l : List (ν ⊕ σ)} {s : State ν σ} {e : σ} :
    e ∈ (s.visitAll l).reported ↔ e ∈ s.reported ∨ .inr e ∈ l := by
  induction l generalizing s with
  | nil => simp [State.visitAll]
  | cons x l ih =>
      have hstep : e ∈ (s.visit x).reported ↔ e ∈ s.reported ∨ .inr e = x := by
        cases x with
        | inl w =>
            by_cases hw : w ∈ s.marked
            · simp [State.visit, if_pos hw]
            · simp [State.visit, if_neg hw]
        | inr f => simp [State.visit]
      rw [State.visitAll, List.foldl_cons, ← State.visitAll, ih, hstep, List.mem_cons, or_assoc]

theorem mem_pending_visitAll {l : List (ν ⊕ σ)} {s : State ν σ} {v : ν} :
    v ∈ (s.visitAll l).pending ↔ v ∈ s.pending ∨ .inl v ∈ l ∧ v ∉ s.marked := by
  induction l generalizing s with
  | nil => simp [State.visitAll]
  | cons x l ih =>
      rw [State.visitAll, List.foldl_cons, ← State.visitAll, ih]
      cases x with
      | inl w =>
          by_cases hw : w ∈ s.marked
          · simp only [State.visit, if_pos hw, List.mem_cons, Sum.inl.injEq]
            refine or_congr_right ⟨fun h => ⟨.inr h.1, h.2⟩, ?_⟩
            rintro ⟨rfl | hv, hnot⟩
            · exact absurd hw hnot
            · exact ⟨hv, hnot⟩
          · simp only [State.visit, if_neg hw, List.mem_cons, Sum.inl.injEq, not_or]
            by_cases hvw : v = w
            · simp [hvw, hw]
            · simp [hvw]
      | inr e => simp [State.visit]

/-- The nodes of a set that are not marked, and those that wait. -/
def cost (S : Finset ν) (s : State ν σ) : Nat :=
  s.pending.length + (S \ s.marked.toFinset).card

theorem cost_visitAll_le {S : Finset ν} {l : List (ν ⊕ σ)} {s : State ν σ}
    (h : ∀ v, .inl v ∈ l → v ∈ S) : cost S (s.visitAll l) ≤ cost S s := by
  induction l generalizing s with
  | nil => exact Nat.le_refl _
  | cons x l ih =>
      have hstep : cost S (s.visit x) ≤ cost S s := by
        cases x with
        | inl w =>
            by_cases hw : w ∈ s.marked
            · simp [State.visit, if_pos hw]
            · have hmem : w ∈ S \ s.marked.toFinset := by simp [hw, h w (by simp)]
              have hrest : S \ (w :: s.marked).toFinset = (S \ s.marked.toFinset).erase w := by
                ext v
                simp only [Finset.mem_sdiff, List.mem_toFinset, List.mem_cons, Finset.mem_erase]
                tauto
              have hcard := Finset.card_erase_add_one hmem
              simp only [State.visit, if_neg hw, cost, List.length_cons, hrest]
              omega
        | inr e => exact Nat.le_refl _
      rw [State.visitAll, List.foldl_cons, ← State.visitAll]
      exact (ih fun v hv => h v (List.mem_cons_of_mem _ hv)).trans hstep

end Visit

/-! ### The loop -/

section Loop

variable [DecidableEq ν] {below : ν → List (ν ⊕ σ)}

/-- The state after the top of the stack. -/
def next (below : ν → List (ν ⊕ σ)) (v : ν) (pending marked : List ν) (reported : List σ) :
    State ν σ :=
  State.visitAll ⟨pending, marked, reported⟩ (below v)

theorem settled_next {v : ν} {pending marked : List ν} {reported : List σ}
    (h : Settled below ⟨v :: pending, marked, reported⟩) :
    Settled below (next below v pending marked reported) where
  waiting := by
    intro w hw
    rcases mem_pending_visitAll.mp hw with hw | hw
    · exact mem_marked_visitAll.mpr (.inl (h.waiting w (List.mem_cons_of_mem v hw)))
    · exact mem_marked_visitAll.mpr (.inr hw.1)
  done := by
    intro w hw
    by_cases hv : w = v
    · subst hv
      exact .inr ⟨fun u hu => mem_marked_visitAll.mpr (.inr hu),
        fun e he => mem_reported_visitAll.mpr (.inr he)⟩
    · by_cases hold : w ∈ marked
      · rcases h.done w hold with hwait | hdone
        · have hrest : w ∈ pending := (List.mem_cons.mp hwait).resolve_left hv
          exact .inl (mem_pending_visitAll.mpr (.inl hrest))
        · exact .inr ⟨fun u hu => mem_marked_visitAll.mpr (.inl (hdone.1 u hu)),
            fun e he => mem_reported_visitAll.mpr (.inl (hdone.2 e he))⟩
      · have hnew := (mem_marked_visitAll.mp hw).resolve_left hold
        exact .inl (mem_pending_visitAll.mpr (.inr ⟨hnew, hold⟩))
  reported := by
    intro e he
    rcases mem_reported_visitAll.mp he with hold | hnew
    · obtain ⟨w, hw, hbelow⟩ := h.reported e hold
      exact ⟨w, mem_marked_visitAll.mpr (.inl hw), hbelow⟩
    · have hv : v ∈ marked := h.waiting v List.mem_cons_self
      exact ⟨v, mem_marked_visitAll.mpr (.inl hv), hnew⟩

/-- When the stack is empty, all that is marked is done. -/
theorem settled_of_spread {fuel : Nat} {s : State ν σ} {marked : List ν} {reported : List σ}
    (h : spread below fuel s = some (marked, reported)) (hs : Settled below s) :
    Settled below ⟨[], marked, reported⟩ := by
  induction fuel generalizing s with
  | zero =>
      obtain ⟨_ | ⟨v, pending⟩, marked', reported'⟩ := s
      · obtain ⟨rfl, rfl⟩ := Prod.mk.inj (Option.some.inj h)
        exact hs
      · cases h
  | succ fuel ih =>
      obtain ⟨_ | ⟨v, pending⟩, marked', reported'⟩ := s
      · obtain ⟨rfl, rfl⟩ := Prod.mk.inj (Option.some.inj h)
        exact hs
      · exact ih h (settled_next hs)

/-- Nothing is marked but what was, and what lies below what waited. -/
theorem mem_marked_of_spread {fuel : Nat} {s : State ν σ} {marked : List ν} {reported : List σ}
    (h : spread below fuel s = some (marked, reported)) :
    (∀ v ∈ s.marked, v ∈ marked) ∧
      ∀ v ∈ marked, v ∈ s.marked ∨ ∃ p ∈ s.pending, Relation.ReflTransGen (Below below) p v := by
  induction fuel generalizing s with
  | zero =>
      obtain ⟨_ | ⟨v, pending⟩, marked', reported'⟩ := s
      · obtain ⟨rfl, rfl⟩ := Prod.mk.inj (Option.some.inj h)
        exact ⟨fun _ => id, fun _ => Or.inl⟩
      · cases h
  | succ fuel ih =>
      obtain ⟨_ | ⟨v, pending⟩, marked', reported'⟩ := s
      · obtain ⟨rfl, rfl⟩ := Prod.mk.inj (Option.some.inj h)
        exact ⟨fun _ => id, fun _ => Or.inl⟩
      · obtain ⟨hkept, hnew⟩ := ih h
        refine ⟨fun w hw => hkept w (mem_marked_visitAll.mpr (.inl hw)), fun w hw => ?_⟩
        rcases hnew w hw with hold | ⟨p, hp, hreach⟩
        · rcases mem_marked_visitAll.mp hold with hold | hbelow
          · exact .inl hold
          · exact .inr ⟨v, List.mem_cons_self, .single hbelow⟩
        · rcases mem_pending_visitAll.mp hp with hp | hp
          · exact .inr ⟨p, List.mem_cons_of_mem v hp, hreach⟩
          · exact .inr ⟨v, List.mem_cons_self, .head hp.1 hreach⟩

/-- Where all that lies below the stack comes from a finite set, the stack runs empty. -/
theorem spread_ends {S : Finset ν} {P : ν → Prop}
    (hS : ∀ v w, P v → Below below v w → P w ∧ w ∈ S) {fuel : Nat} {s : State ν σ}
    (hpending : ∀ v ∈ s.pending, P v) (hfuel : cost S s ≤ fuel) :
    ∃ out, spread below fuel s = some out := by
  induction fuel generalizing s with
  | zero =>
      obtain ⟨_ | ⟨v, pending⟩, marked, reported⟩ := s
      · exact ⟨_, rfl⟩
      · simp [cost] at hfuel
  | succ fuel ih =>
      obtain ⟨_ | ⟨v, pending⟩, marked, reported⟩ := s
      · exact ⟨_, rfl⟩
      · have hv : P v := hpending v List.mem_cons_self
        have hle := cost_visitAll_le (s := ⟨pending, marked, reported⟩) fun w hw => (hS v w hv hw).2
        have hnext : ∀ w ∈ (next below v pending marked reported).pending, P w := by
          intro w hw
          rcases mem_pending_visitAll.mp hw with hw | hw
          · exact hpending w (List.mem_cons_of_mem v hw)
          · exact (hS v w hv hw.1).1
        refine ih hnext (hle.trans ?_)
        simp only [cost, List.length_cons] at hfuel ⊢
        omega

omit [DecidableEq ν] in
/-- All that lies below a done node is marked. -/
theorem Settled.mem_of_below {marked : List ν} {reported : List σ}
    (h : Settled below ⟨[], marked, reported⟩) {v w : ν} (hv : v ∈ marked)
    (hreach : Relation.ReflTransGen (Below below) v w) : w ∈ marked := by
  induction hreach with
  | refl => exact hv
  | tail _ hstep ih => exact ((h.done _ ih).resolve_left (List.not_mem_nil)).1 _ hstep

/-! From one node that waits without being marked. -/

theorem mem_marked_next_nil {v w : ν} : w ∈ (next below v [] [] []).marked ↔ Below below v w :=
  mem_marked_visitAll.trans (or_iff_right List.not_mem_nil)

theorem mem_pending_next_nil {v w : ν} : w ∈ (next below v [] [] []).pending ↔ Below below v w := by
  apply mem_pending_visitAll.trans
  rw [or_iff_right List.not_mem_nil]
  exact and_iff_left List.not_mem_nil

/-- The node is gone from the stack, and what lies below it waits. -/
theorem settled_next_nil {v : ν} (hv : ∀ e, .inr e ∉ below v) :
    Settled below (next below v [] [] []) where
  waiting := fun _ hw => mem_marked_next_nil.mpr (mem_pending_next_nil.mp hw)
  done := fun _ hw => .inl (mem_pending_next_nil.mpr (mem_marked_next_nil.mp hw))
  reported := fun e he =>
    absurd ((mem_reported_visitAll.mp he).resolve_left List.not_mem_nil) (hv e)

/-- The loop marks what lies below the node in one step or more. -/
theorem spread_from {S : Finset ν} (hS : ∀ v w, Below below v w → w ∈ S) (start : ν)
    (hstart : ∀ e, .inr e ∉ below start) {fuel : Nat} (hfuel : S.card ≤ fuel) :
    ∃ marked reported, spread below (fuel + 1) ⟨[start], [], []⟩ = some (marked, reported) ∧
      ∀ v, v ∈ marked ↔ Relation.TransGen (Below below) start v := by
  have hcost : cost S (next below start [] [] []) ≤ fuel := by
    apply (cost_visitAll_le (hS start)).trans
    rw [cost, List.length_nil, Nat.zero_add]
    exact (Finset.card_le_card Finset.sdiff_subset).trans hfuel
  have hends := spread_ends (fun v w _ hw => ⟨trivial, hS v w hw⟩)
    (fun _ _ => trivial) hcost
  obtain ⟨⟨marked, reported⟩, hrun⟩ := hends
  refine ⟨marked, reported, hrun, fun v => ?_⟩
  obtain ⟨hkept, hnew⟩ := mem_marked_of_spread hrun
  constructor
  · intro hv
    rcases hnew v hv with hold | ⟨p, hp, hway⟩
    · exact .single (mem_marked_next_nil.mp hold)
    · exact .head' (mem_pending_next_nil.mp hp) hway
  · intro hv
    obtain ⟨p, hp, hway⟩ := Relation.TransGen.head'_iff.mp hv
    have hdone := settled_of_spread hrun (settled_next_nil hstart)
    exact hdone.mem_of_below (hkept p (mem_marked_next_nil.mpr hp)) hway

end Loop

end AutomatisedPipeline.Spread

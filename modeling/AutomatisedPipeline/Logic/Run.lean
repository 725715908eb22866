import Mathlib.Tactic

/-!
Runs that may fail, and invariants of loops and of transition systems.

A `for` loop over a slice is a left fold; its invariant speaks of the elements
already visited and of the accumulator. A service that answers one request
after another is a step relation; what holds initially and is preserved by
every step holds in every state of every run.

In the log of a run something is pending when an entry has opened it and none behind that entry has
closed it: an entry that opens makes it pending, one that closes and does not open ends it, and any
other leaves it as it is (`isPending_concat`).
-/

namespace AutomatisedPipeline.Run

/-! ### Computations that may fail -/

/-- A sequence of two computations succeeds when both do. -/
theorem bind_eq_ok {ε α β : Type} {x : Except ε α} {f : α → Except ε β} {b : β} :
    x >>= f = .ok b ↔ ∃ a, x = .ok a ∧ f a = .ok b := by
  cases x with
  | error e => simp [bind, Except.bind]
  | ok a => simp [bind, Except.bind]

/-! ### Loops -/

/-- The invariant rule of a `for` loop: `P seen acc` relates the elements
visited so far to the accumulator. -/
theorem foldl_invariant {α β : Type} {f : β → α → β} {l : List α} {b : β}
    (P : List α → β → Prop) (init : P [] b)
    (step : ∀ seen a rest acc, l = seen ++ a :: rest → P seen acc → P (seen ++ [a]) (f acc a)) :
    P l (l.foldl f b) := by
  have main : ∀ rest seen acc, l = seen ++ rest → P seen acc → P l (rest.foldl f acc) := by
    intro rest
    induction rest with
    | nil =>
        intro seen acc hl hP
        rw [List.append_nil] at hl
        exact hl ▸ hP
    | cons a rest ih =>
        intro seen acc hl hP
        refine ih (seen ++ [a]) (f acc a) ?_ (step seen a rest acc hl hP)
        rw [hl, List.append_assoc, List.singleton_append]
  exact main l [] b rfl init

/-- The invariant rule of a `for` loop whose body may fail: where no step does,
the invariant holds at the end. -/
theorem foldlM_invariant {ε α β : Type} {f : β → α → Except ε β} {l : List α} {b b' : β}
    (P : List α → β → Prop) (init : P [] b)
    (step : ∀ seen a rest acc acc', l = seen ++ a :: rest → P seen acc → f acc a = .ok acc' →
      P (seen ++ [a]) acc')
    (h : l.foldlM f b = .ok b') : P l b' := by
  have main : ∀ rest seen acc, l = seen ++ rest → P seen acc → rest.foldlM f acc = .ok b' →
      P l b' := by
    intro rest
    induction rest with
    | nil =>
        intro seen acc hl hP hrun
        rw [List.append_nil] at hl
        cases hrun
        exact hl ▸ hP
    | cons a rest ih =>
        intro seen acc hl hP hrun
        rw [List.foldlM_cons] at hrun
        obtain ⟨acc', hacc', hrun⟩ := bind_eq_ok.mp hrun
        refine ih (seen ++ [a]) acc' ?_ (step seen a rest acc acc' hl hP hacc') hrun
        rw [hl, List.append_assoc, List.singleton_append]
  exact main l [] b rfl init h

/-! ### Transition systems -/

section Transition

variable {σ : Type} {next : σ → σ → Prop} {init : σ → Prop}

/-- The states some run reaches. -/
inductive Reachable (init : σ → Prop) (next : σ → σ → Prop) : σ → Prop where
  | start {s : σ} : init s → Reachable init next s
  | step {s s' : σ} : Reachable init next s → next s s' → Reachable init next s'

/-- What holds initially and is preserved by every step holds in every state
reached. -/
theorem Reachable.invariant {Inv : σ → Prop} (hinit : ∀ s, init s → Inv s)
    (hstep : ∀ s s', Inv s → next s s' → Inv s') {s : σ} (h : Reachable init next s) :
    Inv s := by
  induction h with
  | start hs => exact hinit _ hs
  | step _ hnext ih => exact hstep _ _ ih hnext

end Transition

/-! ### Runs of a step function -/

section Trace

variable {σ ε : Type} (step : σ → ε → σ)

/-- Every event of a run meets a condition on the state it comes to. -/
def EveryStep (meets : σ → ε → Prop) : σ → List ε → Prop
  | _, [] => True
  | s, e :: events => meets s e ∧ EveryStep meets (step s e) events

variable {step} {Inv Good : σ → Prop} {meets : σ → ε → Prop}

/-- Where a step keeps the invariant, and keeps what is good exactly when it meets the
condition, every state of a run is good exactly when every step meets the condition. -/
theorem forall_mem_scanl_iff (hinv : ∀ s e, Inv s → Inv (step s e))
    (hgood : ∀ s e, Inv s → Good s → (Good (step s e) ↔ meets s e)) {s : σ} (hs : Inv s)
    (hstart : Good s) (events : List ε) :
    (∀ t ∈ events.scanl step s, Good t) ↔ EveryStep step meets s events := by
  induction events generalizing s with
  | nil => simpa [EveryStep] using hstart
  | cons e events ih =>
      rw [List.scanl_cons, List.forall_mem_cons, EveryStep]
      constructor
      · rintro ⟨-, hrest⟩
        have hnext : Good (step s e) := hrest _ (by cases events <;> simp)
        exact ⟨(hgood s e hs hstart).mp hnext, (ih (hinv s e hs) hnext).mp hrest⟩
      · rintro ⟨hmeets, hrest⟩
        have hnext : Good (step s e) := (hgood s e hs hstart).mpr hmeets
        exact ⟨hstart, (ih (hinv s e hs) hnext).mpr hrest⟩

/-! ### Runs cut short -/

/-- What holds at the start and is kept by every event of a run holds wherever it stops. -/
theorem forall_take {P : σ → Prop} {s : σ} {events : List ε} (hstart : P s)
    (hstep : ∀ e ∈ events, ∀ s, P s → P (step s e)) (k : Nat) :
    P ((events.take k).foldl step s) := by
  refine List.foldlRecOn (motive := P) (events.take k) step hstart fun s hs e he => ?_
  exact hstep e (List.mem_of_mem_take he) s hs

/-- What one event of a run brings about, and every event keeps, holds at its end. -/
theorem foldl_reaches {P Q : σ → Prop} {s : σ} {events : List ε} {e : ε} (he : e ∈ events)
    (hstart : P s) (hkeep : ∀ e ∈ events, ∀ s, P s → P (step s e))
    (hreach : ∀ s, P s → Q (step s e)) (hstay : ∀ e ∈ events, ∀ s, Q s → Q (step s e)) :
    Q (events.foldl step s) := by
  obtain ⟨before, after, rfl⟩ := List.append_of_mem he
  rw [List.foldl_append, List.foldl_cons]
  have hbefore : P (before.foldl step s) :=
    List.foldlRecOn (motive := P) before step hstart fun s hs e' he' =>
      hkeep e' (List.mem_append_left _ he') s hs
  exact List.foldlRecOn (motive := Q) after step (hreach _ hbefore) fun s hs e' he' =>
    hstay e' (List.mem_append_right _ (List.mem_cons_of_mem _ he')) s hs

/-- A run of two parts stops in one of them. -/
theorem forall_take_append {P : σ → Prop} {s : σ} {events events' : List ε}
    (hfirst : ∀ k, P ((events.take k).foldl step s))
    (hsecond : ∀ k, P ((events'.take k).foldl step (events.foldl step s))) (k : Nat) :
    P (((events ++ events').take k).foldl step s) := by
  rw [List.take_append, List.foldl_append]
  by_cases h : k ≤ events.length
  · rw [Nat.sub_eq_zero_of_le h, List.take_zero]
    exact hfirst k
  · rw [List.take_of_length_le (Nat.le_of_not_le h)]
    exact hsecond _

end Trace

end AutomatisedPipeline.Run

namespace AutomatisedPipeline.Pending

variable {α : Type} {opens closes : α → Prop}

/-- An entry opens and none behind it closes. -/
def IsPending (opens closes : α → Prop) (log : List α) : Prop :=
  ∃ before a after, log = before ++ a :: after ∧ opens a ∧ ∀ b ∈ after, ¬closes b

theorem not_isPending_nil : ¬IsPending opens closes [] := by
  rintro ⟨before, a, after, h, -⟩
  exact absurd h.symm (by simp)

theorem isPending_concat {log : List α} {a : α} :
    IsPending opens closes (log ++ [a]) ↔ opens a ∨ IsPending opens closes log ∧ ¬closes a := by
  constructor
  · rintro ⟨before, b, after, h, hb, hafter⟩
    rcases List.eq_nil_or_concat after with rfl | ⟨after, c, rfl⟩
    · obtain ⟨-, rfl⟩ := List.append_singleton_inj.mp h
      exact .inl hb
    · rw [List.concat_eq_append, ← List.cons_append, ← List.append_assoc] at h
      obtain ⟨rfl, rfl⟩ := List.append_singleton_inj.mp h
      rw [List.concat_eq_append] at hafter
      refine .inr ⟨⟨before, b, after, rfl, hb, fun d hd => hafter d ?_⟩, hafter a ?_⟩
      · exact List.mem_append_left _ hd
      · exact List.mem_append_right _ List.mem_cons_self
  · rintro (ha | ⟨⟨before, b, after, rfl, hb, hafter⟩, ha⟩)
    · exact ⟨log, a, [], rfl, ha, fun _ h => absurd h List.not_mem_nil⟩
    · refine ⟨before, b, after ++ [a], by simp, hb, fun d hd => ?_⟩
      rcases List.mem_append.mp hd with hd | hd
      · exact hafter d hd
      · rwa [List.mem_singleton.mp hd]

end AutomatisedPipeline.Pending

import AutomatisedPipeline.Verification.Protocol

/-!
What holds of every session in every run: the transcript alternates from an
agent question, the counters and the state follow it, a session is finalized
only behind a complete round, and neither a refused request nor one that meets
a finalized session changes the session.
-/

namespace AutomatisedPipeline.Verification

open Text

/-! ### The transcript dictates the state -/

/-- Questions at even positions, answers at odd ones. -/
def kindAt (i : Nat) : TurnKind := if i % 2 = 0 then .agentQuestion else .userAnswer

/-- The state behind a number of turns, before anything ends the session. -/
def stateAfter (turns : Nat) : SessionState :=
  if turns = 0 then .opened else if turns % 2 = 0 then .waitingForAgent else .waitingForUser

/-- At least one question was answered, and none is open. -/
def CompleteRounds (turns : Nat) : Prop := 2 ≤ turns ∧ turns % 2 = 0

structure WellFormed (s : SessionFile) : Prop where
  turns : ∀ i turn, s.transcript[i]? = some turn → turn.seq = i ∧ turn.kind = kindAt i
  turnCount : s.turnCount = s.transcript.length
  state : s.state ≠ .finalized → s.state ≠ .aborted → s.state = stateAfter s.transcript.length
  finalized : s.state = .finalized → CompleteRounds s.transcript.length

/-- Reading a session back changes no number and no kind of a turn. -/
theorem reread_turns {pf : Platform} {ts : List SessionTurn}
    (h : ∀ i turn, ts[i]? = some turn → turn.seq = i ∧ turn.kind = kindAt i) :
    ∀ i turn, (ts.map (rereadTurn pf))[i]? = some turn → turn.seq = i ∧ turn.kind = kindAt i := by
  intro i turn hturn
  rw [List.getElem?_map, Option.map_eq_some_iff] at hturn
  obtain ⟨t, ht, rfl⟩ := hturn
  exact h i t ht

theorem completeRounds_of_waiting {s : SessionFile} (h : WellFormed s)
    (hstate : s.state = .waitingForAgent) : CompleteRounds s.transcript.length := by
  have hafter := h.state (by simp [hstate]) (by simp [hstate])
  rw [hstate] at hafter
  unfold stateAfter at hafter
  split at hafter
  · cases hafter
  · split at hafter
    · constructor <;> omega
    · cases hafter

theorem IsNew.wellFormed {s : SessionFile} (h : IsNew s) : WellFormed s where
  turns i turn hturn := by simp [h.transcript] at hturn
  turnCount := by rw [h.turnCount, h.transcript, List.length_nil]
  state _ _ := by rw [h.state, h.transcript, List.length_nil, stateAfter, if_pos rfl]
  finalized hstate := by simp [h.state] at hstate

theorem Flips.wellFormed {pf : Platform} {prev s : SessionFile} {state : SessionState}
    (h : Flips pf prev s state) (hprev : WellFormed prev)
    (hend : state = .aborted ∨ state = .finalized ∧ prev.state = .waitingForAgent) :
    WellFormed s where
  turns := by
    rw [h.transcript]
    exact reread_turns hprev.turns
  turnCount := by rw [h.turnCount, hprev.turnCount, h.transcript, List.length_map]
  state hfinal habort := by
    rw [h.state] at hfinal habort
    rcases hend with rfl | ⟨rfl, _⟩
    · exact absurd rfl habort
    · exact absurd rfl hfinal
  finalized hstate := by
    rw [h.state] at hstate
    rw [h.transcript, List.length_map]
    rcases hend with rfl | ⟨_, hwait⟩
    · cases hstate
    · exact completeRounds_of_waiting hprev hwait

/-- The turn that the state allows is the one that is due. -/
theorem Extends.wellFormed {pf : Platform} {prev s : SessionFile} (h : Extends pf prev s)
    (hprev : WellFormed prev) : WellFormed s := by
  obtain ⟨turn, hseq, hstep, htranscript⟩ := h.turn
  have hlive : prev.state ≠ .finalized ∧ prev.state ≠ .aborted := by
    rcases canTransition_turn hstep with ⟨hs, _, _⟩ | ⟨hs, _, _⟩ | ⟨hs, _, _⟩ <;> simp [hs]
  have hafter := hprev.state hlive.1 hlive.2
  have hlength : s.transcript.length = prev.transcript.length + 1 := by simp [htranscript]
  have hdue : turn.kind = kindAt prev.transcript.length ∧
      s.state = stateAfter (prev.transcript.length + 1) := by
    generalize prev.transcript.length = n at hafter
    unfold kindAt stateAfter
    unfold stateAfter at hafter
    rcases canTransition_turn hstep with ⟨hs, hkind, hnext⟩ | ⟨hs, hkind, hnext⟩ |
      ⟨hs, hkind, hnext⟩
    · rw [hs] at hafter
      split at hafter
      · rename_i hzero
        subst hzero
        exact ⟨hkind, hnext⟩
      · split at hafter <;> cases hafter
    · rw [hs] at hafter
      split at hafter
      · cases hafter
      · split at hafter
        · cases hafter
        · rename_i hodd
          rw [if_neg hodd, if_neg (by omega), if_pos (by omega)]
          exact ⟨hkind, hnext⟩
    · rw [hs] at hafter
      split at hafter
      · cases hafter
      · split at hafter
        · rename_i heven
          rw [if_pos heven, if_neg (by omega), if_neg (by omega)]
          exact ⟨hkind, hnext⟩
        · cases hafter
  constructor
  · intro i t ht
    rw [htranscript] at ht
    by_cases hi : i < (prev.transcript.map (rereadTurn pf)).length
    · rw [List.getElem?_append_left hi] at ht
      exact reread_turns hprev.turns i t ht
    · rw [List.getElem?_append_right (by omega)] at ht
      obtain ⟨hlast, hget⟩ := List.getElem?_eq_some_iff.mp ht
      rw [List.length_map] at hi hlast
      have hi : i = prev.transcript.length := by
        rw [List.length_singleton] at hlast
        omega
      subst hi
      rw [List.getElem_singleton] at hget
      subst hget
      exact ⟨hseq, hdue.1⟩
  · rw [h.turnCount, hlength]
  · intro _ _
    rw [hlength, hdue.2]
  · intro hstate
    rcases canTransition_turn hstep with ⟨_, _, hs⟩ | ⟨_, _, hs⟩ | ⟨_, _, hs⟩ <;>
      simp [hs] at hstate

/-! ### Every run -/

/-- The sessions are well formed, and every receipt was made behind a complete
round. -/
structure DiskInv (d : Disk) : Prop where
  sessions : ∀ dir s, d.sessions dir = some s → WellFormed s
  receipts : ∀ dir a, d.verified dir = some a → CompleteRounds a.turnCount

theorem fresh_inv (indexes : List Str → Option Index) : DiskInv (.fresh indexes) where
  sessions _ _ h := by simp [Disk.fresh] at h
  receipts _ _ h := by simp [Disk.fresh] at h

/-- What holds of the old files and of the one replaced holds of the new ones. -/
theorem forall_update {α : Type} {files : List Str → Option α} {P : α → Prop} {dir : List Str}
    {new : α} (hold : ∀ dir a, files dir = some a → P a) (hnew : P new) :
    ∀ dir' a, Function.update files dir (some new) dir' = some a → P a := by
  intro dir' a ha
  rw [Function.update_apply] at ha
  split at ha
  · cases ha
    exact hnew
  · exact hold dir' a ha

theorem IsReceipt.completeRounds {pf : Platform} {prev : SessionFile} {a : VerifiedArtifact}
    (h : IsReceipt pf prev a) (hprev : WellFormed prev) (hstate : prev.state = .waitingForAgent) :
    CompleteRounds a.turnCount := by
  obtain ⟨t, now, rfl⟩ := h
  change CompleteRounds prev.turnCount
  rw [hprev.turnCount]
  exact completeRounds_of_waiting hprev hstate

theorem Effect.inv {pf : Platform} {torn : List Str → Prop} {d d' : Disk}
    (h : Effect pf torn d d') (hd : DiskInv d) :
    DiskInv d' := by
  cases h with
  | idle hsessions hverified => exact ⟨hsessions ▸ hd.sessions, hverified ▸ hd.receipts⟩
  | start dir s _ hnew hsessions hverified =>
      exact ⟨hsessions ▸ forall_update hd.sessions hnew.wellFormed, hverified ▸ hd.receipts⟩
  | append dir prev s hprev hext hsessions hverified =>
      have hs := hext.wellFormed (hd.sessions dir prev hprev)
      exact ⟨hsessions ▸ forall_update hd.sessions hs, hverified ▸ hd.receipts⟩
  | abort dir prev s hprev _ hflip hsessions hverified =>
      have hs := hflip.wellFormed (hd.sessions dir prev hprev) (.inl rfl)
      exact ⟨hsessions ▸ forall_update hd.sessions hs, hverified ▸ hd.receipts⟩
  | tear dir prev a _ hprev hstate hreceipt hsessions hverified =>
      have ha := hreceipt.completeRounds (hd.sessions dir prev hprev) hstate
      exact ⟨hsessions ▸ hd.sessions, hverified ▸ forall_update hd.receipts ha⟩
  | finalize dir prev s a hprev hstate hreceipt hflip hsessions hverified =>
      have hwf := hd.sessions dir prev hprev
      have hs := hflip.wellFormed hwf (.inr ⟨rfl, hstate⟩)
      have ha := hreceipt.completeRounds hwf hstate
      exact ⟨hsessions ▸ forall_update hd.sessions hs, hverified ▸ forall_update hd.receipts ha⟩

/-- No effect touches a finalized session. -/
theorem Effect.finalized_same {pf : Platform} {torn : List Str → Prop} {d d' : Disk}
    (h : Effect pf torn d d') {dir : List Str} {s : SessionFile} (hs : d.sessions dir = some s)
    (hstate : s.state = .finalized) : d'.sessions dir = some s := by
  -- the session a request replaces is not finalized
  have hother : ∀ {dir' : List Str} {prev new : SessionFile}, d.sessions dir' = some prev →
      prev.state ≠ .finalized → d'.sessions = Function.update d.sessions dir' (some new) →
        d'.sessions dir = some s := by
    intro dir' prev new hprev hne hsessions
    have hdir : dir ≠ dir' := by
      rintro rfl
      rw [hs] at hprev
      cases hprev
      exact hne hstate
    rw [hsessions, Function.update_of_ne hdir, hs]
  cases h with
  | idle hsessions _ => rw [hsessions, hs]
  | start dir' new hprev _ hsessions _ =>
      cases hold : d.sessions dir' with
      | none =>
          have hdir : dir ≠ dir' := by
            rintro rfl
            rw [hs] at hold
            cases hold
          rw [hsessions, Function.update_of_ne hdir, hs]
      | some prev => exact hother hold (by simp [hprev prev hold]) hsessions
  | append dir' prev new hprev hext hsessions _ =>
      refine hother hprev ?_ hsessions
      obtain ⟨turn, _, hstep, _⟩ := hext.turn
      rcases canTransition_turn hstep with ⟨h, _, _⟩ | ⟨h, _, _⟩ | ⟨h, _, _⟩ <;> simp [h]
  | abort dir' prev new hprev hne _ hsessions _ => exact hother hprev hne hsessions
  | tear dir' prev a _ _ _ _ hsessions _ => rw [hsessions, hs]
  | finalize dir' prev new a hprev hwait _ _ hsessions _ =>
      exact hother hprev (by simp [hwait]) hsessions

/-- A refusal is an error that no fault explains. -/
theorem refused_same {pf : Platform} {d : Disk} {e : Event} {err : StageErr}
    (h : (handle pf d e).2 = .error err)
    (hrefused : err.code ≠ .ioError ∨ e.world.fault = none) : (handle pf d e).1 = d := by
  rcases handle_cases pf d e with ⟨_, _, heq⟩ | ⟨p, done, _, hle, _, hfault, hdone⟩
  · rw [heq]
  · by_cases hlt : done < p.writes.length
    · obtain ⟨why, hwhy, herr⟩ := hfault hlt
      rw [h] at herr
      cases herr
      rcases hrefused with hcode | hnone
      · exact absurd rfl hcode
      · rw [hnone] at hwhy
        cases hwhy
    · rw [hdone (by omega)] at h
      cases h

/-- The session keeps its invariants in every run: whatever the requests, their
arguments and the faults that end them. -/
theorem session_invariants (pf : Platform) (indexes : List Str → Option Index)
    (events : List Event) :
    (∀ dir s, (run pf (.fresh indexes) events).sessions dir = some s → WellFormed s) ∧
    (∀ dir a, (run pf (.fresh indexes) events).verified dir = some a →
      CompleteRounds a.turnCount) ∧
    (∀ dir s, (run pf (.fresh indexes) events).sessions dir = some s → s.state = .finalized →
      ∀ later, (run pf (.fresh indexes) (events ++ later)).sessions dir = some s) ∧
    (∀ e err, (handle pf (run pf (.fresh indexes) events) e).2 = .error err →
      err.code ≠ .ioError ∨ e.world.fault = none →
        (handle pf (run pf (.fresh indexes) events) e).1 = run pf (.fresh indexes) events) := by
  have hinv : DiskInv (run pf (.fresh indexes) events) :=
    run_invariant (fun _ _ _ _ heffect => heffect.inv) (fresh_inv indexes)
  refine ⟨hinv.sessions, hinv.receipts, ?_, fun e err => refused_same⟩
  intro dir s hs hstate later
  have hkept : ∀ d, d.sessions dir = some s → (run pf d later).sessions dir = some s := by
    intro d hd
    refine @run_invariant pf (fun d => d.sessions dir = some s) d later ?_ hd
    intro _ _ _ _ heffect hsame
    exact heffect.finalized_same hsame hstate
  rw [run_append]
  exact hkept _ hs

end AutomatisedPipeline.Verification

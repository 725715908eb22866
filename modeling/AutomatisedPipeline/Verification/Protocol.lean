import AutomatisedPipeline.Verification.Store

/-!
The session protocol. `Effect` says what a request may do to the sessions and
the receipts, and to no other file of theirs: nothing, one of the four
operations, or a finalize that ended between its two writes. Every request has
such an effect, whatever its arguments, its world and the fault that ends it,
so what every effect preserves holds in every run.
-/

namespace AutomatisedPipeline.Verification

open Text

/-- A session that was started and has no turn yet. -/
structure IsNew (s : SessionFile) : Prop where
  state : s.state = .opened
  transcript : s.transcript = []
  turnCount : s.turnCount = 0

/-- `s` is `prev`, as read from its file, with one more turn. -/
structure Extends (pf : Platform) (prev s : SessionFile) : Prop where
  turn : ∃ turn : SessionTurn, turn.seq = prev.transcript.length ∧
    canTransition prev.state turn.kind.event = .ok s.state ∧
      s.transcript = prev.transcript.map (rereadTurn pf) ++ [turn]
  turnCount : s.turnCount = prev.transcript.length + 1

/-- `s` is `prev`, as read from its file, in another state. -/
structure Flips (pf : Platform) (prev s : SessionFile) (state : SessionState) : Prop where
  state : s.state = state
  transcript : s.transcript = prev.transcript.map (rereadTurn pf)
  turnCount : s.turnCount = prev.turnCount

/-- The receipt finalize makes of the session in the file. -/
def IsReceipt (pf : Platform) (prev : SessionFile) (a : VerifiedArtifact) : Prop :=
  ∃ t now, a = buildVerifiedArtifact pf (reread pf prev) t now

/-- What a request may do to the files of one finding, and to no other. `torn`
says of which findings a finalize may end between its receipt and its session. -/
inductive Effect (pf : Platform) (torn : List Str → Prop) (d d' : Disk) : Prop where
  | idle : d'.sessions = d.sessions → d'.verified = d.verified → Effect pf torn d d'
  | start (dir : List Str) (s : SessionFile) :
      (∀ prev, d.sessions dir = some prev → prev.state = .aborted) → IsNew s →
      d'.sessions = Function.update d.sessions dir (some s) → d'.verified = d.verified →
      Effect pf torn d d'
  | append (dir : List Str) (prev s : SessionFile) :
      d.sessions dir = some prev → Extends pf prev s →
      d'.sessions = Function.update d.sessions dir (some s) → d'.verified = d.verified →
      Effect pf torn d d'
  | abort (dir : List Str) (prev s : SessionFile) :
      d.sessions dir = some prev → prev.state ≠ .finalized → Flips pf prev s .aborted →
      d'.sessions = Function.update d.sessions dir (some s) → d'.verified = d.verified →
      Effect pf torn d d'
  | tear (dir : List Str) (prev : SessionFile) (a : VerifiedArtifact) :
      torn dir → d.sessions dir = some prev → prev.state = .waitingForAgent →
      IsReceipt pf prev a → d'.sessions = d.sessions →
      d'.verified = Function.update d.verified dir (some a) → Effect pf torn d d'
  | finalize (dir : List Str) (prev s : SessionFile) (a : VerifiedArtifact) :
      d.sessions dir = some prev → prev.state = .waitingForAgent → IsReceipt pf prev a →
      Flips pf prev s .finalized →
      d'.sessions = Function.update d.sessions dir (some s) →
      d'.verified = Function.update d.verified dir (some a) → Effect pf torn d d'

/-! ### The state machine -/

theorem canTransition_start {state state' : SessionState}
    (h : canTransition state .start = .ok state') : state = .aborted := by
  cases state <;> simp [canTransition, transitionStart] at h ⊢

theorem canTransition_finalize {state state' : SessionState}
    (h : canTransition state .finalize = .ok state') : state = .waitingForAgent := by
  cases state <;> simp [canTransition, transitionFinalize] at h ⊢

theorem canTransition_abort {state state' : SessionState}
    (h : canTransition state .abort = .ok state') : state ≠ .finalized := by
  cases state <;> simp [canTransition] at h ⊢

/-- A turn moves the session along the alternation. -/
theorem canTransition_turn {state state' : SessionState} {kind : TurnKind}
    (h : canTransition state kind.event = .ok state') :
    (state = .opened ∧ kind = .agentQuestion ∧ state' = .waitingForUser) ∨
      (state = .waitingForUser ∧ kind = .userAnswer ∧ state' = .waitingForAgent) ∨
        (state = .waitingForAgent ∧ kind = .agentQuestion ∧ state' = .waitingForUser) := by
  cases state <;> cases kind <;>
    simp [canTransition, TurnKind.event, transitionAppend, eq_comm] at h ⊢ <;> exact h

/-! ### What an accepted request writes -/

section Plans

variable {pf : Platform} {w : World} {d : Disk} {arguments : Value} {p : Plan}

theorem readSession_some {t : Target} {s : SessionFile}
    (h : readSession pf w d t = .ok (some s)) :
    ∃ prev, d.sessions t.findingDir = some prev ∧ s = reread pf prev := by
  unfold readSession at h
  split at h
  · cases h
  · rename_i prev hprev
    split at h
    · cases h
    · cases h
      exact ⟨prev, hprev, rfl⟩

theorem readSession_none {t : Target} (h : readSession pf w d t = .ok none) :
    d.sessions t.findingDir = none := by
  unfold readSession at h
  split at h
  · assumption
  · split at h <;> cases h

theorem requireSession_ok {t : Target} {missing : String} {s : SessionFile}
    (h : requireSession pf w d t missing = .ok s) :
    ∃ prev, d.sessions t.findingDir = some prev ∧ s = reread pf prev := by
  obtain ⟨found, hread, h⟩ := Run.bind_eq_ok.mp h
  cases found with
  | none => cases h
  | some s' =>
      cases h
      exact readSession_some hread

theorem planStart_ok (h : planStart pf w d arguments = .ok p) :
    ∃ (t : Target) (s : SessionFile), p.writes = [.mkdir t.findingDir, .session t.findingDir s] ∧
      IsNew s ∧ ∀ prev, d.sessions t.findingDir = some prev → prev.state = .aborted := by
  obtain ⟨t, _, h⟩ := Run.bind_eq_ok.mp h
  obtain ⟨schemaOk, _, h⟩ := Run.bind_eq_ok.mp h
  obtain ⟨found, hread, h⟩ := Run.bind_eq_ok.mp h
  cases found with
  | none =>
      cases h
      refine ⟨t, buildNewSession t schemaOk w.now, rfl, ⟨rfl, rfl, rfl⟩, ?_⟩
      intro prev hprev
      rw [readSession_none hread] at hprev
      cases hprev
  | some existing =>
      obtain ⟨state, hstate, h⟩ := Run.bind_eq_ok.mp h
      cases h
      refine ⟨t, buildNewSession t schemaOk w.now, rfl, ⟨rfl, rfl, rfl⟩, ?_⟩
      intro prev hprev
      obtain ⟨prev', hprev', rfl⟩ := readSession_some hread
      rw [hprev] at hprev'
      cases hprev'
      exact canTransition_start hstate

theorem planAppend_ok (h : planAppend pf w d arguments = .ok p) :
    ∃ (dir : List Str) (prev s : SessionFile), p.writes = [.session dir s] ∧
      d.sessions dir = some prev ∧ Extends pf prev s := by
  obtain ⟨args, _, h⟩ := Run.bind_eq_ok.mp h
  obtain ⟨session, hsession, h⟩ := Run.bind_eq_ok.mp h
  obtain ⟨prev, hprev, rfl⟩ := requireSession_ok hsession
  obtain ⟨next, hnext, h⟩ := Run.bind_eq_ok.mp h
  obtain ⟨state, hstate, hbuild⟩ := Run.bind_eq_ok.mp hnext
  cases h
  cases hbuild
  refine ⟨args.target.findingDir, prev, _, rfl, hprev, ⟨_, ?_, ?_, rfl⟩, ?_⟩
  · simp [reread]
  · exact hstate
  · simp [reread]

theorem planAbort_ok (h : planAbort pf w d arguments = .ok p) :
    ∃ (dir : List Str) (prev s : SessionFile), p.writes = [.session dir s] ∧
      d.sessions dir = some prev ∧ prev.state ≠ .finalized ∧ Flips pf prev s .aborted := by
  obtain ⟨args, _, h⟩ := Run.bind_eq_ok.mp h
  obtain ⟨session, hsession, h⟩ := Run.bind_eq_ok.mp h
  obtain ⟨prev, hprev, rfl⟩ := requireSession_ok hsession
  obtain ⟨aborted, haborted, h⟩ := Run.bind_eq_ok.mp h
  obtain ⟨state, hstate, hbuild⟩ := Run.bind_eq_ok.mp haborted
  cases h
  cases hbuild
  exact ⟨args.target.findingDir, prev, _, rfl, hprev, canTransition_abort hstate, rfl, rfl, rfl⟩

theorem checkFinalizePreconditions_ok {s : SessionFile}
    (h : checkFinalizePreconditions s = .ok ()) :
    s.schemaOk = true ∧ s.state = .waitingForAgent := by
  unfold checkFinalizePreconditions at h
  split at h
  · cases h
  · rename_i hschema
    obtain ⟨state, hstate, _⟩ := Run.bind_eq_ok.mp h
    exact ⟨by simpa using hschema, canTransition_finalize hstate⟩

/-- The session in the file, finalized. -/
def finalizedFrom (pf : Platform) (prev : SessionFile) (now : Str) : SessionFile :=
  { reread pf prev with state := .finalized, updatedAt := now }

theorem finalizedFrom_flips (pf : Platform) (prev : SessionFile) (now : Str) :
    Flips pf prev (finalizedFrom pf prev now) .finalized := ⟨rfl, rfl, rfl⟩

/-- An accepted finalize writes the receipt of the session it read, then the
session, then the index. -/
theorem planFinalize_ok (h : planFinalize pf w d arguments = .ok p) :
    ∃ (t : Target) (prev : SessionFile) (i : Index),
      parseFinalizeArgs pf.debug arguments = .ok t ∧
        p.writes = [
          .verified t.findingDir (buildVerifiedArtifact pf (reread pf prev) t w.now),
          .session t.findingDir (finalizedFrom pf prev w.now),
          .index t.runDir i] ∧
        d.sessions t.findingDir = some prev ∧ prev.schemaOk = true ∧
          prev.state = .waitingForAgent := by
  obtain ⟨t, ht, h⟩ := Run.bind_eq_ok.mp h
  obtain ⟨session, hsession, h⟩ := Run.bind_eq_ok.mp h
  obtain ⟨prev, hprev, rfl⟩ := requireSession_ok hsession
  obtain ⟨_, hcheck, h⟩ := Run.bind_eq_ok.mp h
  obtain ⟨hschema, hstate⟩ := checkFinalizePreconditions_ok hcheck
  cases h
  exact ⟨t, prev, _, ht, rfl, hprev, hschema, hstate⟩

end Plans

/-! ### Every request has an effect -/

/-- A request that ends in an error before its first write changes nothing; the
others perform some of their writes. -/
theorem handle_cases (pf : Platform) (d : Disk) (e : Event) :
    (∃ err, plan pf e.world d e.request = .error err ∧ handle pf d e = (d, .error err)) ∨
      ∃ p done, plan pf e.world d e.request = .ok p ∧ done ≤ p.writes.length ∧
        (handle pf d e).1 = (p.writes.take done).foldl Write.perform d ∧
          (done < p.writes.length →
            ∃ why, e.world.fault = some (done, why) ∧ (handle pf d e).2 = .error (ioErr why)) ∧
          (done = p.writes.length → (handle pf d e).2 = .ok p.reply) := by
  unfold handle
  cases hplan : plan pf e.world d e.request with
  | error err => exact .inl ⟨err, rfl, rfl⟩
  | ok p =>
      refine .inr ⟨p, ?_⟩
      have hall : (p.writes.take p.writes.length).foldl Write.perform d =
          p.writes.foldl Write.perform d := by rw [List.take_length]
      cases hfault : e.world.fault with
      | none =>
          refine ⟨p.writes.length, rfl, Nat.le_refl _, hall.symm, ?_, fun _ => rfl⟩
          intro hlt
          omega
      | some stop =>
          obtain ⟨done, why⟩ := stop
          by_cases hdone : done < p.writes.length
          · have hperform : perform (some (done, why)) p d =
                ((p.writes.take done).foldl Write.perform d, .error (ioErr why)) := if_pos hdone
            refine ⟨done, rfl, Nat.le_of_lt hdone, congrArg Prod.fst hperform, ?_, ?_⟩
            · intro _
              exact ⟨why, rfl, congrArg Prod.snd hperform⟩
            · intro heq
              omega
          · have hperform : perform (some (done, why)) p d =
                (p.writes.foldl Write.perform d, .ok p.reply) := if_neg hdone
            refine ⟨p.writes.length, rfl, Nat.le_refl _, ?_, ?_, ?_⟩
            · exact (congrArg Prod.fst hperform).trans hall.symm
            · intro hlt
              omega
            · intro _
              exact congrArg Prod.snd hperform

/-- The event is a finalize of the finding at `dir` that was accepted and ended
between the write of its receipt and that of its session. -/
def StoppedBetween (pf : Platform) (d : Disk) (e : Event) (dir : List Str) : Prop :=
  ∃ arguments t why, e.request = .finalize arguments ∧
    parseFinalizeArgs pf.debug arguments = .ok t ∧ t.findingDir = dir ∧
      (∃ p, planFinalize pf e.world d arguments = .ok p) ∧ e.world.fault = some (1, why)

theorem handle_effect (pf : Platform) (d : Disk) (e : Event) :
    Effect pf (StoppedBetween pf d e) d (handle pf d e).1 := by
  rcases handle_cases pf d e with ⟨err, _, heq⟩ | ⟨p, done, hplan, hle, hdisk, hfault, _⟩
  · rw [heq]
    exact .idle rfl rfl
  rw [hdisk]
  cases hreq : e.request with
  | start arguments =>
      rw [hreq] at hplan
      obtain ⟨t, s, hwrites, hnew, hprev⟩ := planStart_ok hplan
      rw [hwrites] at hle ⊢
      match done, hle with
      | 0, _ => exact .idle rfl rfl
      | 1, _ => exact .idle rfl rfl
      | 2, _ => exact .start t.findingDir s hprev hnew rfl rfl
  | append arguments =>
      rw [hreq] at hplan
      obtain ⟨dir, prev, s, hwrites, hprev, hext⟩ := planAppend_ok hplan
      rw [hwrites] at hle ⊢
      match done, hle with
      | 0, _ => exact .idle rfl rfl
      | 1, _ => exact .append dir prev s hprev hext rfl rfl
  | finalize arguments =>
      rw [hreq] at hplan
      obtain ⟨t, prev, i, ht, hwrites, hprev, _, hstate⟩ := planFinalize_ok hplan
      have hreceipt : IsReceipt pf prev (buildVerifiedArtifact pf (reread pf prev) t e.world.now) :=
        ⟨t, e.world.now, rfl⟩
      have hflip := finalizedFrom_flips pf prev e.world.now
      rw [hwrites] at hle hfault ⊢
      match done, hle with
      | 0, _ => exact .idle rfl rfl
      | 1, _ =>
          obtain ⟨why, hwhy, _⟩ := hfault (by simp)
          have htorn : StoppedBetween pf d e t.findingDir :=
            ⟨arguments, t, why, hreq, ht, rfl, ⟨p, hplan⟩, hwhy⟩
          exact .tear t.findingDir prev _ htorn hprev hstate hreceipt rfl rfl
      | 2, _ => exact .finalize t.findingDir prev _ _ hprev hstate hreceipt hflip rfl rfl
      | 3, _ => exact .finalize t.findingDir prev _ _ hprev hstate hreceipt hflip rfl rfl
  | abort arguments =>
      rw [hreq] at hplan
      obtain ⟨dir, prev, s, hwrites, hprev, hstate, hflip⟩ := planAbort_ok hplan
      rw [hwrites] at hle ⊢
      match done, hle with
      | 0, _ => exact .idle rfl rfl
      | 1, _ => exact .abort dir prev s hprev hstate hflip rfl rfl

@[simp] theorem run_nil (pf : Platform) (d : Disk) : run pf d [] = d := rfl

theorem run_append (pf : Platform) (d : Disk) (events events' : List Event) :
    run pf d (events ++ events') = run pf (run pf d events) events' := by
  rw [run, run, run, List.foldl_append]

theorem run_snoc (pf : Platform) (d : Disk) (events : List Event) (e : Event) :
    run pf d (events ++ [e]) = (handle pf (run pf d events) e).1 := run_append pf d events [e]

/-- What the effect of every event of a run preserves holds behind it. -/
theorem run_invariant {pf : Platform} {Inv : Disk → Prop} {d : Disk} {events : List Event}
    (hstep : ∀ before e after, events = before ++ e :: after →
      Effect pf (StoppedBetween pf (run pf d before) e) (run pf d before)
        (run pf d (before ++ [e])) →
      Inv (run pf d before) → Inv (run pf d (before ++ [e])))
    (hd : Inv d) : Inv (run pf d events) := by
  have h : events.foldl (fun d e => (handle pf d e).1) d = run pf d events ∧
      Inv (run pf d events) := by
    refine Run.foldl_invariant (fun before acc => acc = run pf d before ∧ Inv (run pf d before))
      ⟨rfl, hd⟩ ?_
    rintro before e after acc hevents ⟨rfl, hinv⟩
    have heffect := handle_effect pf (run pf d before) e
    rw [← run_snoc] at heffect
    exact ⟨(run_snoc pf d before e).symm, hstep before e after hevents heffect hinv⟩
  exact h.2

end AutomatisedPipeline.Verification

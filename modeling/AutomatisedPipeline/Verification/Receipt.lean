import AutomatisedPipeline.Verification.Invariant

/-!
What a receipt certifies. A finalized session has the receipt of its own
transcript, whatever interrupted the requests before. A receipt without a
finalized session is left by a finalize that ended between its two writes; then
it is still the receipt of the transcript in the file, and finalizing again
completes it.

Finalize writes the receipt, the session and the index, in this order, and asks first for a session
that waits for the agent. So the request can be repeated as long as the session has not been written:
it then leaves every file as one finalize at its time would have (`handle_again`). Once the session
is finalized the request is refused, and the index keeps its old entry (`handle_refused`).
-/

namespace AutomatisedPipeline.Verification

open Text

/-- The digest finalize puts into a receipt. -/
def transcriptDigest (pf : Platform) (transcript : List SessionTurn) : Str :=
  (computeTranscriptDigest pf transcript).1

/-- The session is finalized and the receipt has the digest of its transcript. -/
def Certifies (pf : Platform) (a : VerifiedArtifact) (s : SessionFile) : Prop :=
  s.state = .finalized ∧ a.transcriptDigest = transcriptDigest pf s.transcript

theorem IsReceipt.digest {pf : Platform} {prev : SessionFile} {a : VerifiedArtifact}
    (h : IsReceipt pf prev a) :
    a.transcriptDigest = transcriptDigest pf (prev.transcript.map (rereadTurn pf)) := by
  obtain ⟨t, now, rfl⟩ := h
  rfl

/-- The session waits, and the receipt has the digest of its transcript as
finalize reads it. -/
def LeftBehind (pf : Platform) (a : VerifiedArtifact) (s : SessionFile) : Prop :=
  s.state = .waitingForAgent ∧
    a.transcriptDigest = transcriptDigest pf (s.transcript.map (rereadTurn pf))

theorem IsReceipt.certifies {pf : Platform} {prev s : SessionFile} {a : VerifiedArtifact}
    (h : IsReceipt pf prev a) (hflip : Flips pf prev s .finalized) : Certifies pf a s :=
  ⟨hflip.state, by rw [h.digest, hflip.transcript]⟩

section Effects

variable {pf : Platform} {torn : List Str → Prop} {d d' : Disk} {dir : List Str}

/-- A receipt changes only together with its session, or when finalize is torn. -/
theorem Effect.receipt_cases (h : Effect pf torn d d') (dir : List Str) :
    d'.verified dir = d.verified dir ∨
      (torn dir ∧ ∃ prev a, d.sessions dir = some prev ∧ prev.state = .waitingForAgent ∧
        d'.sessions dir = some prev ∧ d'.verified dir = some a ∧ IsReceipt pf prev a) ∨
      ∃ s a, d'.sessions dir = some s ∧ d'.verified dir = some a ∧ Certifies pf a s := by
  cases h with
  | idle _ hverified => exact .inl (congrFun hverified dir)
  | start _ _ _ _ _ hverified => exact .inl (congrFun hverified dir)
  | append _ _ _ _ _ _ hverified => exact .inl (congrFun hverified dir)
  | abort _ _ _ _ _ _ _ hverified => exact .inl (congrFun hverified dir)
  | tear dir' prev a htorn hprev hstate hreceipt hsessions hverified =>
      by_cases hdir : dir = dir'
      · subst hdir
        refine .inr (.inl ⟨htorn, prev, a, hprev, hstate, ?_, ?_, hreceipt⟩)
        · rw [hsessions, hprev]
        · rw [hverified, Function.update_self]
      · rw [hverified, Function.update_of_ne hdir]
        exact .inl rfl
  | finalize dir' prev s a hprev _ hreceipt hflip hsessions hverified =>
      by_cases hdir : dir = dir'
      · subst hdir
        refine .inr (.inr ⟨s, a, ?_, ?_, hreceipt.certifies hflip⟩)
        · rw [hsessions, Function.update_self]
        · rw [hverified, Function.update_self]
      · rw [hverified, Function.update_of_ne hdir]
        exact .inl rfl

/-- A session becomes finalized only together with its receipt. -/
theorem Effect.finalized_cases (h : Effect pf torn d d') {s : SessionFile}
    (hs : d'.sessions dir = some s) (hstate : s.state = .finalized) :
    d.sessions dir = some s ∨ ∃ a, d'.verified dir = some a ∧ Certifies pf a s := by
  have hother : ∀ {dir' : List Str} {new : SessionFile}, new.state ≠ .finalized →
      d'.sessions = Function.update d.sessions dir' (some new) → d.sessions dir = some s := by
    intro dir' new hne hsessions
    rw [hsessions, Function.update_apply] at hs
    split at hs
    · cases hs
      exact absurd hstate hne
    · exact hs
  cases h with
  | idle hsessions _ => exact .inl (hsessions ▸ hs)
  | start _ new _ hnew hsessions _ => exact .inl (hother (by simp [hnew.state]) hsessions)
  | append _ prev new _ hext hsessions _ =>
      refine .inl (hother ?_ hsessions)
      obtain ⟨turn, _, hstep, _⟩ := hext.turn
      rcases canTransition_turn hstep with ⟨_, _, h⟩ | ⟨_, _, h⟩ | ⟨_, _, h⟩ <;> simp [h]
  | abort _ _ new _ _ hflip hsessions _ => exact .inl (hother (by simp [hflip.state]) hsessions)
  | tear _ _ _ _ _ _ _ hsessions _ => exact .inl (hsessions ▸ hs)
  | finalize dir' prev new a _ _ hreceipt hflip hsessions hverified =>
      rw [hsessions, Function.update_apply] at hs
      split at hs
      · rename_i hdir
        cases hs
        refine .inr ⟨a, ?_, hreceipt.certifies hflip⟩
        rw [hverified, hdir, Function.update_self]
      · exact .inl hs

/-- A finalized session keeps its receipt. -/
theorem Effect.finalized_certified (h : Effect pf torn d d')
    (hd : ∀ s, d.sessions dir = some s → s.state = .finalized →
      ∃ a, d.verified dir = some a ∧ Certifies pf a s) :
    ∀ s, d'.sessions dir = some s → s.state = .finalized →
      ∃ a, d'.verified dir = some a ∧ Certifies pf a s := by
  intro s hs hstate
  rcases h.finalized_cases hs hstate with hold | hnew
  · obtain ⟨a, ha, hcert⟩ := hd s hold hstate
    rcases h.receipt_cases dir with hsame | ⟨_, prev, _, hprev, hwait, _⟩ | ⟨s', a', hs', ha', hcert'⟩
    · exact ⟨a, hsame ▸ ha, hcert⟩
    · rw [hold] at hprev
      cases hprev
      rw [hstate] at hwait
      cases hwait
    · rw [hs] at hs'
      cases hs'
      exact ⟨a', ha', hcert'⟩
  · exact hnew

end Effects

/-- The receipt is what some finalize of this run left of the finding at `dir` when
it ended between its two writes. -/
def Torn (pf : Platform) (d : Disk) (events : List Event) (dir : List Str)
    (a : VerifiedArtifact) : Prop :=
  ∃ before e after s, events = before ++ e :: after ∧
    StoppedBetween pf (run pf d before) e dir ∧
      (run pf d (before ++ [e])).sessions dir = some s ∧
        (run pf d (before ++ [e])).verified dir = some a ∧ LeftBehind pf a s

/-- Every receipt certifies a finalized session, or was left behind by a finalize
that was stopped. -/
theorem receipt_certified_or_torn {pf : Platform} {d : Disk} {events : List Event} {dir : List Str}
    (hd : d.verified dir = none) :
    ∀ a, (run pf d events).verified dir = some a →
      (∃ s, (run pf d events).sessions dir = some s ∧ Certifies pf a s) ∨
        Torn pf d events dir a := by
  refine @run_invariant pf (fun d' => ∀ a, d'.verified dir = some a →
    (∃ s, d'.sessions dir = some s ∧ Certifies pf a s) ∨ Torn pf d events dir a) d events ?_ ?_
  · intro before e after hevents heffect hinv a ha
    rcases heffect.receipt_cases dir with hsame | ⟨hstop, prev, a', _, hwait, hs, ha', hreceipt⟩ |
      ⟨s, a', hs, ha', hcert⟩
    · rw [hsame] at ha
      rcases hinv a ha with ⟨s, hs, hcert⟩ | htorn
      · exact .inl ⟨s, heffect.finalized_same hs hcert.1, hcert⟩
      · exact .inr htorn
    · rw [ha] at ha'
      cases ha'
      exact .inr ⟨before, e, after, prev, hevents, hstop, hs, ha, hwait, hreceipt.digest⟩
    · rw [ha] at ha'
      cases ha'
      exact .inl ⟨s, hs, hcert⟩
  · intro a ha
    rw [hd] at ha
    cases ha

/-! ### Finalizing again -/

section Again

variable {pf : Platform} {w : World} {d : Disk} {arguments : Value} {t : Target}
  {prev : SessionFile}

/-- Finalize accepts a sound session that waits for the agent. -/
theorem planFinalize_of_waiting (ht : parseFinalizeArgs pf.debug arguments = .ok t)
    (hread : w.unreadable = none) (hprev : d.sessions t.findingDir = some prev)
    (hschema : prev.schemaOk = true) (hstate : prev.state = .waitingForAgent) :
    ∃ p, planFinalize pf w d arguments = .ok p := by
  have hsession : ∀ missing, requireSession pf w d t missing = .ok (reread pf prev) := by
    intro missing
    simp [requireSession, readSession, hprev, hread, bind, Except.bind, pure, Except.pure]
  have hcheck : checkFinalizePreconditions (reread pf prev) = .ok () := by
    simp [checkFinalizePreconditions, reread, hschema, hstate, canTransition, transitionFinalize,
      bind, Except.bind, pure, Except.pure]
  cases hplan : planFinalize pf w d arguments with
  | ok p => exact ⟨p, rfl⟩
  | error err =>
      simp [planFinalize, ht, hsession, hcheck, bind, Except.bind, pure, Except.pure] at hplan

/-- Without a fault an accepted finalize performs all of its writes. -/
theorem handle_finalize {e : Event} {p : Plan} (hreq : e.request = .finalize arguments)
    (hplan : planFinalize pf e.world d arguments = .ok p) (hfault : e.world.fault = none) :
    (handle pf d e).1 = p.writes.foldl Write.perform d := by
  simp [handle, plan, hreq, hplan, perform, hfault]

/-- What a finalize leaves behind when it is stopped between its writes. -/
theorem plan_of_stopped {e : Event} {dir : List Str} (h : StoppedBetween pf d e dir) :
    ∃ (t : Target) (prev : SessionFile) (arguments : Value),
      e.request = .finalize arguments ∧ parseFinalizeArgs pf.debug arguments = .ok t ∧
        t.findingDir = dir ∧ d.sessions dir = some prev ∧ prev.schemaOk = true ∧
          prev.state = .waitingForAgent ∧
            (handle pf d e).1 = Write.perform d
              (.verified dir (buildVerifiedArtifact pf (reread pf prev) t e.world.now)) := by
  obtain ⟨arguments, t, why, hreq, ht, rfl, ⟨p, hplan⟩, hfault⟩ := h
  obtain ⟨t', prev, i, ht', hwrites, hprev, hschema, hstate⟩ := planFinalize_ok hplan
  rw [ht] at ht'
  cases ht'
  refine ⟨t, prev, arguments, hreq, ht, rfl, hprev, hschema, hstate, ?_⟩
  simp [handle, plan, hreq, hplan, perform, hfault, hwrites, Write.perform]

/-- Finalizing again, this time without a fault, completes the receipt with the
same digest. -/
theorem finalize_again {e : Event} {dir : List Str} (h : StoppedBetween pf d e dir)
    (hread : w.unreadable = none) (hfault : w.fault = none) :
    ∃ s a a', (handle pf d e).1.verified dir = some a ∧
      (handle pf (handle pf d e).1 { e with world := w }).1.sessions dir = some s ∧
        (handle pf (handle pf d e).1 { e with world := w }).1.verified dir = some a' ∧
          Certifies pf a' s ∧ a'.transcriptDigest = a.transcriptDigest := by
  obtain ⟨t, prev, arguments, hreq, ht, rfl, hprev, hschema, hstate, hdisk⟩ := plan_of_stopped h
  have hsession : (handle pf d e).1.sessions t.findingDir = some prev := by
    rw [hdisk]
    exact hprev
  obtain ⟨p, hplan⟩ := planFinalize_of_waiting ht hread hsession hschema hstate
  obtain ⟨t', prev', i, ht', hwrites, hprev', _, _⟩ := planFinalize_ok hplan
  rw [ht] at ht'
  cases ht'
  rw [hsession] at hprev'
  cases hprev'
  have hreceipt : IsReceipt pf prev (buildVerifiedArtifact pf (reread pf prev) t w.now) :=
    ⟨t, w.now, rfl⟩
  have hdone : (handle pf (handle pf d e).1 { e with world := w }).1 =
      p.writes.foldl Write.perform (handle pf d e).1 := handle_finalize hreq hplan hfault
  refine ⟨finalizedFrom pf prev w.now, buildVerifiedArtifact pf (reread pf prev) t e.world.now,
    buildVerifiedArtifact pf (reread pf prev) t w.now, ?_, ?_, ?_,
    hreceipt.certifies (finalizedFrom_flips pf prev w.now), rfl⟩
  · rw [hdisk]
    exact Function.update_self _ _ _
  · rw [hdone, hwrites]
    exact Function.update_self _ _ _
  · rw [hdone, hwrites]
    exact Function.update_self _ _ _

end Again

/-- In every run, whatever the faults: a finalized session has the receipt of its
transcript; a receipt without such a session was left by a finalize that was
stopped between its two writes, which finalizing again completes. -/
theorem receipts_certify (pf : Platform) (indexes : List Str → Option Index)
    (events : List Event) (dir : List Str) :
    (∀ s, (run pf (.fresh indexes) events).sessions dir = some s → s.state = .finalized →
      ∃ a, (run pf (.fresh indexes) events).verified dir = some a ∧ Certifies pf a s) ∧
    (∀ a, (run pf (.fresh indexes) events).verified dir = some a →
      (∃ s, (run pf (.fresh indexes) events).sessions dir = some s ∧ Certifies pf a s) ∨
        Torn pf (.fresh indexes) events dir a) ∧
    (∀ e w, StoppedBetween pf (run pf (.fresh indexes) events) e dir → w.unreadable = none →
      w.fault = none →
        ∃ s a a', (run pf (.fresh indexes) (events ++ [e])).verified dir = some a ∧
          (run pf (.fresh indexes) (events ++ [e, { e with world := w }])).sessions dir = some s ∧
            (run pf (.fresh indexes) (events ++ [e, { e with world := w }])).verified dir =
                some a' ∧
              Certifies pf a' s ∧ a'.transcriptDigest = a.transcriptDigest) := by
  refine ⟨?_, receipt_certified_or_torn rfl, ?_⟩
  · refine @run_invariant pf (fun d => ∀ s, d.sessions dir = some s → s.state = .finalized →
      ∃ a, d.verified dir = some a ∧ Certifies pf a s) _ events ?_ ?_
    · intro _ _ _ _ heffect hinv
      exact heffect.finalized_certified hinv
    · intro s hs
      cases hs
  · intro e w hstop hread hfault
    have htwo : run pf (.fresh indexes) (events ++ [e, { e with world := w }]) =
        (handle pf (handle pf (run pf (.fresh indexes) events) e).1 { e with world := w }).1 := by
      rw [run_append]
      rfl
    rw [htwo, run_snoc]
    exact finalize_again hstop hread hfault

/-! ### A finalize that is stopped -/

/-- The finding the requests below name. -/
def someFinding : Target := { runId := ['r'], findingId := ['f'], outputDir := ['/', 'o'] }

def someArguments (more : List (Str × Value)) : Value :=
  .object ([("run_id".toList, .string someFinding.runId),
    ("finding_id".toList, .string someFinding.findingId),
    ("output_dir".toList, .string someFinding.outputDir)] ++ more)

/-- A world that hinders no request. -/
def calm : World :=
  { now := [], indexNow := [], refined := .parsed, unreadable := none, fault := none }

def appended (kind : String) : Event :=
  { request := .append (someArguments
      [("kind".toList, .string kind.toList), ("content".toList, .string ['?'])])
    world := calm }

/-- One complete round, then a finalize that ends behind its first write. -/
def stoppedRun : List Event :=
  [{ request := .start (someArguments []), world := calm }, appended "agent_question",
    appended "user_answer",
    { request := .finalize (someArguments []), world := { calm with fault := some (1, []) } }]

/-- Whatever the platform, a stopped finalize leaves a receipt whose session still
waits for the agent. -/
theorem stopped_finalize_is_uncertified :
    ¬∃ pf : Platform, ∀ indexes events dir a,
      (run pf (.fresh indexes) events).verified dir = some a →
        ∃ s, (run pf (.fresh indexes) events).sessions dir = some s ∧ Certifies pf a s := by
  rintro ⟨pf, h⟩
  have hreceipt : ((run pf (.fresh fun _ => none) stoppedRun).verified
      someFinding.findingDir).isSome = true := rfl
  have hstate : ((run pf (.fresh fun _ => none) stoppedRun).sessions
      someFinding.findingDir).map SessionFile.state = some .waitingForAgent := rfl
  obtain ⟨a, ha⟩ := Option.isSome_iff_exists.mp hreceipt
  obtain ⟨s, hs, hfinal, _⟩ := h (fun _ => none) stoppedRun someFinding.findingDir a ha
  rw [hs, Option.map_some, hfinal] at hstate
  cases hstate

/-! ### Files without their timestamps -/

def VerifiedArtifact.untimed (a : VerifiedArtifact) : VerifiedArtifact := { a with finalizedAt := [] }

/-- Of a session, only the time of the last write is finalize's own. -/
def SessionFile.untimed (s : SessionFile) : SessionFile := { s with updatedAt := [] }

def IndexEntry.untimed (entry : IndexEntry) : IndexEntry :=
  { entry with verifiedAt := entry.verifiedAt.map fun _ => [] }

/-- The run and the entries of an index. -/
def Index.untimed (i : Index) : Str × (Str → Option IndexEntry) :=
  (i.runId, fun findingId => (i.findings[findingId]?).map IndexEntry.untimed)

/-- The files are the same up to the times they were written at. -/
structure SameUpToTimes (d d' : Disk) : Prop where
  sessions : ∀ dir, (d.sessions dir).map SessionFile.untimed = (d'.sessions dir).map SessionFile.untimed
  verified : ∀ dir,
    (d.verified dir).map VerifiedArtifact.untimed = (d'.verified dir).map VerifiedArtifact.untimed
  indexes : ∀ dir, (d.indexes dir).map Index.untimed = (d'.indexes dir).map Index.untimed

/-! ### What finalize does -/

section Finalize

variable {pf : Platform} {w w' : World} {d : Disk} {arguments : Value} {t : Target}
  {prev : SessionFile}

/-- The plan of an accepted finalize of the session `prev`. -/
def finalizePlan (pf : Platform) (w : World) (d : Disk) (t : Target) (prev : SessionFile) : Plan where
  writes := [
    .verified t.findingDir (buildVerifiedArtifact pf (reread pf prev) t w.now),
    .session t.findingDir (finalizedFrom pf prev w.now),
    .index t.runDir (upsertVerifiedIndex w d t (buildVerifiedArtifact pf (reread pf prev) t w.now))]
  reply := .finalized (buildVerifiedArtifact pf (reread pf prev) t w.now)
    (joinPath (findingDirFor t.outputDir t.runId t.findingId) verifiedFileName)
    (pf.toVecPretty (buildVerifiedArtifact pf (reread pf prev) t w.now)).length

/-- A finalize can be accepted: it names a sound session that waits for the agent. -/
structure Admits (pf : Platform) (d : Disk) (arguments : Value) (t : Target) (prev : SessionFile) :
    Prop where
  target : parseFinalizeArgs pf.debug arguments = .ok t
  session : d.sessions t.findingDir = some prev
  schemaOk : prev.schemaOk = true
  state : prev.state = .waitingForAgent

/-- An accepted finalize has read its session. -/
theorem admits_of_planFinalize {p : Plan} (h : planFinalize pf w d arguments = .ok p) :
    w.unreadable = none ∧ ∃ t prev, Admits pf d arguments t prev := by
  obtain ⟨t, prev, -, ht, -, hprev, hschema, hstate⟩ := planFinalize_ok h
  refine ⟨?_, t, prev, ht, hprev, hschema, hstate⟩
  cases hread : w.unreadable with
  | none => rfl
  | some why =>
      simp [planFinalize, ht, requireSession, readSession, hprev, hread, bind, Except.bind] at h

theorem Admits.planFinalize_eq (h : Admits pf d arguments t prev) (hread : w.unreadable = none) :
    planFinalize pf w d arguments = .ok (finalizePlan pf w d t prev) := by
  have hsession : ∀ missing, requireSession pf w d t missing = .ok (reread pf prev) := by
    intro missing
    simp [requireSession, readSession, h.session, hread, bind, Except.bind, pure, Except.pure]
  have hcheck : checkFinalizePreconditions (reread pf prev) = .ok () := by
    simp [checkFinalizePreconditions, reread, h.schemaOk, h.state, canTransition,
      transitionFinalize, bind, Except.bind, pure, Except.pure]
  simp only [planFinalize, h.target, hsession, hcheck, bind, Except.bind, pure, Except.pure]
  rfl

/-- The disk that all writes of a finalize leave. -/
def finalizeDisk (pf : Platform) (w : World) (d : Disk) (t : Target) (prev : SessionFile) : Disk :=
  (finalizePlan pf w d t prev).writes.foldl Write.perform d

theorem Admits.handle_eq (h : Admits pf d arguments t prev) (hread : w.unreadable = none)
    (hfault : w.fault = none) :
    handle pf d ⟨.finalize arguments, w⟩ =
      (finalizeDisk pf w d t prev, .ok (finalizePlan pf w d t prev).reply) := by
  simp only [handle, plan, h.planFinalize_eq hread, perform, hfault]
  rfl

/-- The first writes are what a failing one leaves. -/
theorem Admits.handle_stopped (h : Admits pf d arguments t prev) (hread : w.unreadable = none)
    {k : Nat} {why : Str} (hfault : w.fault = some (k, why)) (hk : k < 3) :
    (handle pf d ⟨.finalize arguments, w⟩).1 =
      ((finalizePlan pf w d t prev).writes.take k).foldl Write.perform d := by
  have hlen : k < (finalizePlan pf w d t prev).writes.length := hk
  simp only [handle, plan, h.planFinalize_eq hread, perform, hfault, if_pos hlen]

/-! ### The request repeated -/

/-- What finalize writes at two times is the same up to the times. -/
theorem untimed_upsertVerifiedIndex {a a' : VerifiedArtifact} (ha : a.verified = a'.verified) :
    (upsertVerifiedIndex w d t a).untimed = (upsertVerifiedIndex w' d t a').untimed := by
  refine Prod.ext ?_ (funext fun findingId => ?_)
  · simp only [Index.untimed, upsertVerifiedIndex]
    cases d.indexes t.runDir with
    | none => rfl
    | some i => rfl
  · have hmerge : ∀ existing : Option IndexEntry, ∀ entry entry' : IndexEntry,
        entry.untimed = entry'.untimed →
          (mergeIndexEntry existing entry).untimed = (mergeIndexEntry existing entry').untimed := by
      intro existing entry entry' h
      cases existing with
      | none => exact h
      | some e =>
          simp only [IndexEntry.untimed, IndexEntry.mk.injEq] at h
          simp [mergeIndexEntry, mergePreserveRefinedOnly, IndexEntry.untimed, h]
    cases hidx : d.indexes t.runDir with
    | none =>
        simp only [Index.untimed, upsertVerifiedIndex, hidx, Option.getD_none,
          Std.TreeMap.getElem?_insert]
        split
        · exact congrArg some (hmerge _ _ _ (by simp [IndexEntry.untimed, ha]))
        · rfl
    | some i =>
        simp only [Index.untimed, upsertVerifiedIndex, hidx, Option.getD_some,
          Std.TreeMap.getElem?_insert]
        split
        · exact congrArg some (hmerge _ _ _ (by simp [IndexEntry.untimed, ha]))
        · rfl

theorem map_update {α β : Type} {files : List Str → Option α} {f : α → β} {dir : List Str}
    {a a' : α} (h : f a = f a') (dir' : List Str) :
    (Function.update files dir (some a) dir').map f =
      (Function.update files dir (some a') dir').map f := by
  rw [Function.update_apply, Function.update_apply]
  split
  · exact congrArg some h
  · rfl

/-- One finalize leaves the same at any time, up to the time. -/
theorem finalizeDisk_sameUpToTimes (pf : Platform) (w w' : World) (d : Disk) (t : Target)
    (prev : SessionFile) :
    SameUpToTimes (finalizeDisk pf w d t prev) (finalizeDisk pf w' d t prev) where
  sessions := map_update rfl
  verified := map_update rfl
  indexes := map_update (untimed_upsertVerifiedIndex rfl)

/-- Finalizing over a receipt that a stopped finalize left replaces it. -/
theorem finalizeDisk_over (pf : Platform) (w : World) (d : Disk) (t : Target) (prev : SessionFile)
    (a : VerifiedArtifact) :
    finalizeDisk pf w (Write.perform d (.verified t.findingDir a)) t prev =
      finalizeDisk pf w d t prev := by
  have hverified : Function.update (Function.update d.verified t.findingDir (some a)) t.findingDir
      (some (buildVerifiedArtifact pf (reread pf prev) t w.now)) =
        Function.update d.verified t.findingDir
          (some (buildVerifiedArtifact pf (reread pf prev) t w.now)) :=
    Function.update_idem ..
  simp only [finalizeDisk, finalizePlan, List.foldl_cons, List.foldl_nil, Write.perform, hverified]
  rfl

/-- Before the session is written, the request repeated leaves what one finalize at its time
leaves. -/
theorem Admits.handle_again (h : Admits pf d arguments t prev) (hread : w.unreadable = none)
    {k : Nat} {why : Str} (hfault : w.fault = some (k, why)) (hk : k < 2)
    (hread' : w'.unreadable = none) (hfault' : w'.fault = none) :
    ∃ reply, handle pf (handle pf d ⟨.finalize arguments, w⟩).1 ⟨.finalize arguments, w'⟩ =
      (finalizeDisk pf w' d t prev, .ok reply) := by
  rw [h.handle_stopped hread hfault (by omega)]
  match k, hk with
  | 0, _ => exact ⟨_, h.handle_eq hread' hfault'⟩
  | 1, _ =>
      have hleft : Admits pf (Write.perform d (.verified t.findingDir
          (buildVerifiedArtifact pf (reread pf prev) t w.now))) arguments t prev :=
        ⟨h.target, h.session, h.schemaOk, h.state⟩
      have hagain := hleft.handle_eq hread' hfault'
      rw [finalizeDisk_over] at hagain
      exact ⟨_, hagain⟩

/-- Behind the write of the session the request repeated is refused. -/
theorem Admits.handle_refused (h : Admits pf d arguments t prev) (hread : w.unreadable = none)
    {why : Str} (hfault : w.fault = some (2, why)) (hread' : w'.unreadable = none) :
    handle pf (handle pf d ⟨.finalize arguments, w⟩).1 ⟨.finalize arguments, w'⟩ =
      ((handle pf d ⟨.finalize arguments, w⟩).1, .error (stage2Err .alreadyFinalized
        "session is finalized; further writes are rejected (spec §8.4)")) := by
  rw [h.handle_stopped hread hfault (by omega)]
  have hsession : (((finalizePlan pf w d t prev).writes.take 2).foldl Write.perform d).sessions
      t.findingDir = some (finalizedFrom pf prev w.now) := Function.update_self _ _ _
  generalize ((finalizePlan pf w d t prev).writes.take 2).foldl Write.perform d = left at hsession
  have hrequire : ∀ missing, requireSession pf w' left t missing =
      .ok (reread pf (finalizedFrom pf prev w.now)) := by
    intro missing
    simp [requireSession, readSession, hsession, hread', bind, Except.bind, pure, Except.pure]
  have hcheck : checkFinalizePreconditions (reread pf (finalizedFrom pf prev w.now)) =
      .error (stage2Err .alreadyFinalized
        "session is finalized; further writes are rejected (spec §8.4)") := by
    simp [checkFinalizePreconditions, reread, finalizedFrom, h.schemaOk, canTransition, bind,
      Except.bind]
  have hplan : planFinalize pf w' left arguments = .error (stage2Err .alreadyFinalized
      "session is finalized; further writes are rejected (spec §8.4)") := by
    simp only [planFinalize, h.target, hrequire, hcheck, bind, Except.bind]
  simp only [handle, plan, hplan]

end Finalize

/-! ### Every run -/

/-- The request, met by a fault in the world `w` and repeated in the world `w'`, succeeds and
leaves what it would have left without the fault. -/
def CompletedBy (pf : Platform) (d : Disk) (arguments : Value) (w w' : World) : Prop :=
  (∃ reply, (handle pf (handle pf d ⟨.finalize arguments, w⟩).1 ⟨.finalize arguments, w'⟩).2 =
    .ok reply) ∧
  SameUpToTimes
    (handle pf (handle pf d ⟨.finalize arguments, w⟩).1 ⟨.finalize arguments, w'⟩).1
    (handle pf d ⟨.finalize arguments, { w with fault := none }⟩).1

/-- In every run, a finalize that is accepted and stopped by a failing write is completed by
repeating it exactly when the write that failed was the receipt's or the session's. -/
theorem completedBy_iff (pf : Platform) (indexes : List Str → Option Index) (events : List Event)
    (arguments : Value) (w w' : World) (k : Nat) (why : Str)
    (hplan : ∃ p, planFinalize pf w (run pf (.fresh indexes) events) arguments = .ok p)
    (hfault : w.fault = some (k, why)) (hk : k < 3) (hread' : w'.unreadable = none)
    (hfault' : w'.fault = none) :
    CompletedBy pf (run pf (.fresh indexes) events) arguments w w' ↔ k < 2 := by
  obtain ⟨p, hplan⟩ := hplan
  obtain ⟨hread, t, prev, h⟩ := admits_of_planFinalize hplan
  generalize run pf (.fresh indexes) events = d at h
  constructor
  · rintro ⟨⟨reply, hreply⟩, -⟩
    by_contra hk'
    obtain rfl : k = 2 := by omega
    rw [h.handle_refused hread hfault hread'] at hreply
    cases hreply
  · intro hk'
    obtain ⟨reply, hagain⟩ := h.handle_again hread hfault hk' hread' hfault'
    refine ⟨⟨reply, by rw [hagain]⟩, ?_⟩
    rw [hagain, @Admits.handle_eq pf { w with fault := none } d arguments t prev h hread rfl]
    exact finalizeDisk_sameUpToTimes pf w' _ d t prev

/-- A platform that prints and hashes nothing. -/
def blankPlatform : Platform where
  debug := id
  toVec := fun _ => []
  toVecPretty := fun _ => []
  reread := id
  sha256 := id

/-- One complete round. -/
def answeredRun : List Event :=
  [{ request := .start (someArguments []), world := calm }, appended "agent_question",
    appended "user_answer"]

def faulty (k : Nat) : World := { calm with fault := some (k, []) }

/-- A finalize whose session could not be written is completed. -/
theorem completedBy_of_session :
    CompletedBy blankPlatform (run blankPlatform (.fresh fun _ => none) answeredRun)
      (someArguments []) (faulty 1) calm :=
  (completedBy_iff blankPlatform (fun _ => none) answeredRun (someArguments []) (faulty 1) calm 1 []
    ⟨_, rfl⟩ rfl (by omega) rfl rfl).mpr (by omega)

/-- Whatever the platform, a finalize whose index could not be written is not completed. -/
theorem index_not_completedBy :
    ¬ ∃ pf : Platform, ∀ indexes events arguments w w' k why,
      (∃ p, planFinalize pf w (run pf (.fresh indexes) events) arguments = .ok p) →
        w.fault = some (k, why) → k < 3 → w'.unreadable = none → w'.fault = none →
          CompletedBy pf (run pf (.fresh indexes) events) arguments w w' := by
  rintro ⟨pf, h⟩
  obtain ⟨⟨reply, hreply⟩, -⟩ := h (fun _ => none) answeredRun (someArguments []) (faulty 2) calm 2
    [] ⟨_, rfl⟩ rfl (by omega) rfl rfl
  cases hreply

end AutomatisedPipeline.Verification

import AutomatisedPipeline.Logic.Run
import AutomatisedPipeline.LspClient.Framing
import AutomatisedPipeline.Text.Json

/-!
The wait for a language server (`lsp_client/readiness.rs`, with `parse_server_status` of
`lsp_client/health.rs` and `next_frame` of `lsp_client/frames.rs`).

The frames of the channel have times of arrival, and the clock moves only where the loop waits for
one. `turn` is one round of the loop and `TurnCase` all that it can come to. What the loop keeps of
the messages is what the log of them says (`Tracks`): a token is outstanding when a message began it
and none since has ended it. `waitForReady_truthful` says what the outcome tells about the log.
-/

namespace AutomatisedPipeline.LspClient

open Text

/-! ### Messages -/

inductive ServerHealthLevel where
  | ok
  | warning
  | error
  | unknown
deriving DecidableEq, Repr

inductive ReadinessOutcome where
  | serverReportedQuiescent
  | noProgressReported
  | allProgressEnded
  | deadlineExpired
deriving DecidableEq, Repr

structure ServerHealth where
  level : ServerHealthLevel
  message : Option Str
  readiness : ReadinessOutcome
deriving DecidableEq, Repr

structure ServerStatus where
  health : ServerHealthLevel
  quiescent : Bool
  message : Option Str
deriving DecidableEq, Repr

def method (msg : Json) : Option Str := (msg.get "method".toList).bind Json.asStr

def healthLevel (health : Option Str) : ServerHealthLevel :=
  if health = some "ok".toList then .ok
  else if health = some "warning".toList then .warning
  else if health = some "error".toList then .error
  else .unknown

/-- `parse_server_status`. -/
def parseServerStatus (msg : Json) : Option ServerStatus :=
  if method msg ≠ some "experimental/serverStatus".toList then none
  else do
    let params ← msg.get "params".toList
    let quiescent ← (← params.get "quiescent".toList).asBool
    let health := healthLevel ((params.get "health".toList).bind Json.asStr)
    let message := (params.get "message".toList).bind Json.asStr
    return { health, quiescent, message }

inductive ProgressKind where
  | beginning
  | report
  | ending
deriving DecidableEq, Repr

/-- `server_workdone_progress_create`. -/
def serverWorkdoneProgressCreate (msg : Json) : Option Int :=
  if method msg ≠ some "window/workDoneProgress/create".toList then none
  else (msg.get "id".toList).bind Json.asI64

/-- The text of a token. -/
def tokenText (token : Json) : Option Str := token.asStr <|> token.asI64.map intDigits

def progressKindOf (kind : Str) : Option ProgressKind :=
  if kind = "begin".toList then some .beginning
  else if kind = "report".toList then some .report
  else if kind = "end".toList then some .ending
  else none

/-- `progress_kind`. -/
def progressKind (msg : Json) : Option (Str × ProgressKind) :=
  if method msg ≠ some "$/progress".toList then none
  else do
    let params ← msg.get "params".toList
    let token ← tokenText (← params.get "token".toList)
    let kind ← (← (← params.get "value".toList).get "kind".toList).asStr
    let kind ← progressKindOf kind
    return (token, kind)

/-! ### What the loop keeps -/

/-- `PROGRESS_QUIET_WINDOW`, in milliseconds. -/
def progressQuietWindow : Nat := 500

structure ProgressState where
  outstanding : Finset Str
  everBegan : Bool
  idleSince : Option Nat
  onsetDeadline : Nat
  serverStatusSeen : Bool

/-- `give_up`. -/
def giveUp (everBegan outstandingEmpty : Bool) : ReadinessOutcome :=
  if !everBegan then .noProgressReported
  else if outstandingEmpty then .allProgressEnded
  else .deadlineExpired

namespace ProgressState

def new (now : Nat) : ProgressState where
  outstanding := ∅
  everBegan := false
  idleSince := some now
  onsetDeadline := now + progressQuietWindow
  serverStatusSeen := false

def checkpoint (state : ProgressState) (deadline : Nat) : Nat :=
  if state.serverStatusSeen then deadline
  else
    min
      (match state.everBegan, state.idleSince with
        | false, _ => state.onsetDeadline
        | true, some idleAt => idleAt + progressQuietWindow
        | true, none => deadline)
      deadline

def noteServerStatusActivity (state : ProgressState) : ProgressState :=
  { state with serverStatusSeen := true }

def giveUp (state : ProgressState) : ReadinessOutcome :=
  LspClient.giveUp state.everBegan (decide (state.outstanding = ∅))

/-- What a message about progress does to the tokens. -/
def progress (state : ProgressState) (now : Nat) : Option (Str × ProgressKind) → ProgressState
  | some (token, .beginning) =>
      { state with
        everBegan := true
        outstanding := insert token state.outstanding
        idleSince := none }
  | some (token, .ending) =>
      { state with
        outstanding := state.outstanding.erase token
        idleSince := if state.outstanding.erase token = ∅ then some now else state.idleSince }
  | some (_, .report) => state
  | none => state

/-- `apply`, with the ids for which `respond_to_create` has been called. -/
def apply (state : ProgressState) (acks : List Int) (msg : Json) (now : Nat) :
    ProgressState × List Int :=
  match serverWorkdoneProgressCreate msg with
  | some id => (state, acks ++ [id])
  | none => (state.progress now (progressKind msg), acks)

end ProgressState

structure HealthTrack where
  level : ServerHealthLevel
  message : Option Str
deriving DecidableEq, Repr

namespace HealthTrack

def new : HealthTrack := ⟨.unknown, none⟩

/-- `record`: the last status wins. -/
def record (status : ServerStatus) : HealthTrack := ⟨status.health, status.message⟩

def finish (health : HealthTrack) (readiness : ReadinessOutcome) : ServerHealth :=
  ⟨health.level, health.message, readiness⟩

end HealthTrack

/-! ### The channel -/

/-- A frame with the time at which it is in the channel. -/
abbrev Arrival : Type := Nat × Except FrameError Json

/-- The receiving end: the frames to come in their order, and when the channel closes behind them,
if it does. -/
structure Channel where
  arrivals : List Arrival
  closes : Option Nat

/-- The timeout of this module, up to the duration. -/
def noFrame : FrameError := .timeout "lsp_timeout: no frame within".toList

/-- What a call of `next_frame` returns, and when. -/
structure Received where
  frame : Except FrameError Json
  now : Nat
  frames : Channel

/-- `next_frame`: the next frame if it arrives in time. -/
def nextFrame (frames : Channel) (now timeout : Nat) : Received :=
  match frames.arrivals with
  | (arrives, frame) :: arrivals =>
      if arrives ≤ now + timeout then ⟨frame, max now arrives, { frames with arrivals }⟩
      else ⟨.error noFrame, now + timeout, frames⟩
  | [] =>
      match frames.closes with
      | some closes =>
          if closes ≤ now + timeout then ⟨.error eofBeforeHeader, max now closes, frames⟩
          else ⟨.error noFrame, now + timeout, frames⟩
      | none => ⟨.error noFrame, now + timeout, frames⟩

/-- `is_skippable`. -/
def FrameError.isSkippable : FrameError → Bool
  | .payload _ => true
  | .fatal _ => false
  | .timeout _ => false

/-! ### The loop -/

/-- Where the loop stands. -/
structure Wait where
  frames : Channel
  now : Nat
  state : ProgressState
  health : HealthTrack
  acks : List Int

/-- What one round of the loop comes to. -/
inductive Turn where
  | again (wait : Wait)
  | done (wait : Wait) (readiness : ReadinessOutcome)

/-- What a message does. -/
def receive (wait : Wait) (msg : Json) : Turn :=
  match parseServerStatus msg with
  | some status =>
      let wait := { wait with health := .record status }
      if status.quiescent then .done wait .serverReportedQuiescent
      else .again { wait with state := wait.state.noteServerStatusActivity }
  | none =>
      let (state, acks) := wait.state.apply wait.acks msg wait.now
      .again { wait with state, acks }

/-- One round of the loop. -/
def turn (deadline : Nat) (wait : Wait) : Turn :=
  let checkpoint := wait.state.checkpoint deadline
  if checkpoint ≤ wait.now then .done wait wait.state.giveUp
  else
    let received := nextFrame wait.frames wait.now (checkpoint - wait.now)
    let wait := { wait with frames := received.frames, now := received.now }
    match received.frame with
    | .ok msg => receive wait msg
    | .error error =>
        if error.isSkippable then .again wait
        else
          match error with
          | .timeout _ => .again wait
          | _ => .done wait wait.state.giveUp

/-- The frames of a wait after one has been taken off the channel. -/
def Wait.took (wait : Wait) (arrives : Nat) (arrivals : List Arrival) : Wait :=
  { wait with frames := { wait.frames with arrivals }, now := max wait.now arrives }

/-- All that a round can come to, for the time at which it gives up. -/
inductive TurnCase (checkpoint : Nat) (wait : Wait) : Turn → Prop
  | expired (h : checkpoint ≤ wait.now) : TurnCase checkpoint wait (.done wait wait.state.giveUp)
  | silent (h : wait.now < checkpoint) :
      TurnCase checkpoint wait (.again { wait with now := checkpoint })
  | closed {closes : Nat} (h : wait.now < checkpoint) (harrivals : wait.frames.arrivals = [])
      (hcloses : wait.frames.closes = some closes) (hin : closes ≤ checkpoint) :
      TurnCase checkpoint wait
        (.done { wait with now := max wait.now closes } wait.state.giveUp)
  | message {arrives : Nat} {msg : Json} {arrivals : List Arrival} (h : wait.now < checkpoint)
      (harrivals : wait.frames.arrivals = (arrives, .ok msg) :: arrivals)
      (hin : arrives ≤ checkpoint) :
      TurnCase checkpoint wait (receive (wait.took arrives arrivals) msg)
  | unusable {arrives : Nat} {error : FrameError} {arrivals : List Arrival}
      (h : wait.now < checkpoint)
      (harrivals : wait.frames.arrivals = (arrives, .error error) :: arrivals)
      (hin : arrives ≤ checkpoint) (herror : ∀ message, error ≠ .fatal message) :
      TurnCase checkpoint wait (.again (wait.took arrives arrivals))
  | fatal {arrives : Nat} {message : Str} {arrivals : List Arrival} (h : wait.now < checkpoint)
      (harrivals : wait.frames.arrivals = (arrives, .error (.fatal message)) :: arrivals)
      (hin : arrives ≤ checkpoint) :
      TurnCase checkpoint wait (.done (wait.took arrives arrivals) wait.state.giveUp)

theorem turn_spec (deadline : Nat) (wait : Wait) :
    TurnCase (wait.state.checkpoint deadline) wait (turn deadline wait) := by
  generalize hc : wait.state.checkpoint deadline = checkpoint
  rw [turn, hc]
  split_ifs with h
  · exact .expired h
  · have hlt : wait.now < checkpoint := Nat.lt_of_not_le h
    have hsum : wait.now + (checkpoint - wait.now) = checkpoint := Nat.add_sub_cancel' hlt.le
    unfold nextFrame
    rw [hsum]
    match harrivals : wait.frames.arrivals with
    | (arrives, .ok msg) :: arrivals =>
        by_cases hin : arrives ≤ checkpoint
        · simp only [if_pos hin]
          exact .message hlt harrivals hin
        · simp only [if_neg hin]
          exact .silent hlt
    | (arrives, .error error) :: arrivals =>
        by_cases hin : arrives ≤ checkpoint
        · simp only [if_pos hin]
          cases error with
          | payload message => exact .unusable hlt harrivals hin fun _ => nofun
          | fatal message => exact .fatal hlt harrivals hin
          | timeout message => exact .unusable hlt harrivals hin fun _ => nofun
        · simp only [if_neg hin]
          exact .silent hlt
    | [] =>
        match hcloses : wait.frames.closes with
        | none => exact .silent hlt
        | some closes =>
            by_cases hin : closes ≤ checkpoint
            · simp only [if_pos hin]
              exact .closed hlt harrivals hcloses hin
            · simp only [if_neg hin]
              exact .silent hlt

/-- Where the loop stands behind a round. -/
def Turn.wait : Turn → Wait
  | .again wait => wait
  | .done wait _ => wait

/-- A message changes neither the channel nor the time. -/
theorem receive_wait (wait : Wait) (msg : Json) :
    (receive wait msg).wait.frames = wait.frames ∧ (receive wait msg).wait.now = wait.now := by
  unfold receive
  split
  · split_ifs <;> exact ⟨rfl, rfl⟩
  · exact ⟨rfl, rfl⟩

/-- A round takes a frame off the channel or waits to the time at which the next one gives up. -/
theorem turn_decreases {deadline : Nat} {wait next : Wait} (h : turn deadline wait = .again next) :
    Prod.Lex (· < ·) (· < ·)
      (next.frames.arrivals.length, next.state.checkpoint deadline - next.now)
      (wait.frames.arrivals.length, wait.state.checkpoint deadline - wait.now) := by
  have hspec := turn_spec deadline wait
  generalize turn deadline wait = result at h hspec
  cases hspec with
  | expired => cases h
  | silent hlt =>
      cases h
      refine .right _ ?_
      rw [Nat.sub_self]
      exact Nat.sub_pos_of_lt hlt
  | closed => cases h
  | @message arrives msg arrivals hlt harrivals =>
      have hframes := (receive_wait (wait.took arrives arrivals) msg).1
      rw [h] at hframes
      refine .left _ _ ?_
      rw [show next.frames = _ from hframes, harrivals]
      exact Nat.lt_succ_self _
  | unusable hlt harrivals =>
      cases h
      refine .left _ _ ?_
      rw [harrivals]
      exact Nat.lt_succ_self _
  | fatal => cases h

/-- The loop of `wait_for_ready`. -/
def waitLoop (deadline : Nat) (wait : Wait) : Wait × ReadinessOutcome :=
  match _h : turn deadline wait with
  | .again next => waitLoop deadline next
  | .done wait readiness => (wait, readiness)
termination_by (wait.frames.arrivals.length, wait.state.checkpoint deadline - wait.now)
decreasing_by exact turn_decreases _h

theorem waitLoop_again {deadline : Nat} {wait next : Wait} (h : turn deadline wait = .again next) :
    waitLoop deadline wait = waitLoop deadline next := by
  rw [waitLoop]
  split
  · rename_i hturn
    rw [Turn.again.inj (hturn.symm.trans h)]
  · rename_i hturn
    cases hturn.symm.trans h

theorem waitLoop_done {deadline : Nat} {wait last : Wait} {readiness : ReadinessOutcome}
    (h : turn deadline wait = .done last readiness) :
    waitLoop deadline wait = (last, readiness) := by
  rw [waitLoop]
  split
  · rename_i hturn
    cases hturn.symm.trans h
  · rename_i hturn
    obtain ⟨rfl, rfl⟩ := Turn.done.inj (hturn.symm.trans h)
    rfl

/-- What a wait has come to: the health it returns, the ids it has acknowledged, when it ended, and
the frames it has left in the channel. -/
structure Waited where
  health : ServerHealth
  acks : List Int
  ended : Nat
  left : Channel

/-- `wait_for_ready`. -/
def waitForReady (frames : Channel) (start deadline : Nat) : Waited :=
  let (wait, readiness) :=
    waitLoop deadline
      { frames, now := start, state := .new start, health := .new, acks := [] }
  { health := wait.health.finish readiness
    acks := wait.acks
    ended := wait.now
    left := wait.frames }

/-! ### The log of the messages -/

def Begins (token : Str) (msg : Json) : Prop := progressKind msg = some (token, .beginning)

def Ends (token : Str) (msg : Json) : Prop := progressKind msg = some (token, .ending)

/-- A message began the token and none behind it has ended it. -/
def Outstanding (token : Str) (log : List Json) : Prop :=
  Pending.IsPending (Begins token) (Ends token) log

/-- The health of the last status. -/
def healthOf (log : List Json) : HealthTrack :=
  (log.filterMap parseServerStatus).getLast?.elim .new .record

/-- What the loop keeps of the messages it has read. -/
structure Follows (log : List Json) (wait : Wait) : Prop where
  everBegan : wait.state.everBegan = true ↔ ∃ msg ∈ log, ∃ token, Begins token msg
  outstanding : ∀ token, token ∈ wait.state.outstanding ↔ Outstanding token log
  health : wait.health = healthOf log
  acks : wait.acks = log.filterMap serverWorkdoneProgressCreate

/-- No status has ended the wait, and the loop knows whether there was one. -/
structure Unsettled (log : List Json) (wait : Wait) : Prop where
  busy : ∀ msg ∈ log, ∀ status, parseServerStatus msg = some status → status.quiescent = false
  seen : wait.state.serverStatusSeen = true ↔ ∃ msg ∈ log, (parseServerStatus msg).isSome

theorem method_of_parseServerStatus {msg : Json} {status : ServerStatus}
    (h : parseServerStatus msg = some status) :
    method msg = some "experimental/serverStatus".toList := by
  by_contra hmethod
  rw [parseServerStatus, if_pos hmethod] at h
  cases h

theorem serverWorkdoneProgressCreate_eq_none {msg : Json}
    (h : method msg ≠ some "window/workDoneProgress/create".toList) :
    serverWorkdoneProgressCreate msg = none :=
  if_pos h

theorem progressKind_eq_none {msg : Json} (h : method msg ≠ some "$/progress".toList) :
    progressKind msg = none :=
  if_pos h

theorem method_of_serverWorkdoneProgressCreate {msg : Json} {id : Int}
    (h : serverWorkdoneProgressCreate msg = some id) :
    method msg = some "window/workDoneProgress/create".toList := by
  by_contra hmethod
  rw [serverWorkdoneProgressCreate_eq_none hmethod] at h
  cases h

namespace ProgressState

variable (state : ProgressState) (acks : List Int) (msg : Json) (now : Nat)

theorem apply_progress :
    (state.apply acks msg now).1 = state.progress now (progressKind msg) := by
  unfold apply
  split
  · rename_i id hid
    rw [progressKind_eq_none (by rw [method_of_serverWorkdoneProgressCreate hid]; decide)]
    rfl
  · rfl

theorem apply_acks :
    (state.apply acks msg now).2 = acks ++ (serverWorkdoneProgressCreate msg).toList := by
  unfold apply
  split
  · rename_i id hid
    rw [hid]
    rfl
  · rename_i hid
    rw [hid]
    exact (List.append_nil acks).symm

theorem everBegan_progress :
    (state.progress now (progressKind msg)).everBegan = true ↔
      state.everBegan = true ∨ ∃ token, Begins token msg := by
  unfold progress Begins
  split <;> simp [*]

theorem mem_outstanding_progress (token : Str) :
    token ∈ (state.progress now (progressKind msg)).outstanding ↔
      Begins token msg ∨ token ∈ state.outstanding ∧ ¬Ends token msg := by
  unfold progress Begins Ends
  split <;> rename_i h <;> rw [h]
  · simp [eq_comm]
  · rw [Finset.mem_erase]
    simp [eq_comm, and_comm]
  · simp
  · simp

theorem serverStatusSeen_progress :
    (state.progress now (progressKind msg)).serverStatusSeen = state.serverStatusSeen := by
  unfold progress
  split <;> rfl

end ProgressState

theorem healthOf_concat (log : List Json) (msg : Json) :
    healthOf (log ++ [msg]) = (parseServerStatus msg).elim (healthOf log) .record := by
  unfold healthOf
  rw [List.filterMap_append]
  cases h : parseServerStatus msg with
  | none => simp [h]
  | some status => simp [h]

namespace Follows

variable {log : List Json} {wait : Wait}

/-- A message that is not about progress leaves the tokens as they are. -/
theorem receive (h : Follows log wait) (msg : Json) :
    Follows (log ++ [msg]) (receive wait msg).wait := by
  have hcreate : (log ++ [msg]).filterMap serverWorkdoneProgressCreate =
      log.filterMap serverWorkdoneProgressCreate ++ (serverWorkdoneProgressCreate msg).toList := by
    rw [List.filterMap_append]
    cases hmsg : serverWorkdoneProgressCreate msg <;> simp [hmsg]
  -- what the tokens of the longer log are
  have hbegan : (∃ m ∈ log ++ [msg], ∃ token, Begins token m) ↔
      (∃ m ∈ log, ∃ token, Begins token m) ∨ ∃ token, Begins token msg := by
    simp [or_and_right, exists_or]
  have hpending : ∀ token, Outstanding token (log ++ [msg]) ↔
      Begins token msg ∨ Outstanding token log ∧ ¬Ends token msg :=
    fun _ => Pending.isPending_concat
  cases hstatus : parseServerStatus msg with
  | some status =>
      have hmethod := method_of_parseServerStatus hstatus
      have hkind : progressKind msg = none := progressKind_eq_none (by rw [hmethod]; decide)
      have hid : serverWorkdoneProgressCreate msg = none :=
        serverWorkdoneProgressCreate_eq_none (by rw [hmethod]; decide)
      have hwait : (LspClient.receive wait msg).wait.state.everBegan = wait.state.everBegan ∧
          (LspClient.receive wait msg).wait.state.outstanding = wait.state.outstanding ∧
          (LspClient.receive wait msg).wait.health = .record status ∧
          (LspClient.receive wait msg).wait.acks = wait.acks := by
        rw [LspClient.receive, hstatus]
        dsimp only
        split_ifs <;> exact ⟨rfl, rfl, rfl, rfl⟩
      refine ⟨?_, fun token => ?_, ?_, ?_⟩
      · rw [hwait.1, h.everBegan, hbegan]
        simp [Begins, hkind]
      · rw [hwait.2.1, h.outstanding, hpending]
        simp [Begins, Ends, hkind]
      · rw [hwait.2.2.1, healthOf_concat, hstatus]
        rfl
      · rw [hwait.2.2.2, h.acks, hcreate, hid]
        exact (List.append_nil _).symm
  | none =>
      rw [LspClient.receive, hstatus]
      have hstate := ProgressState.apply_progress wait.state wait.acks msg wait.now
      refine ⟨?_, fun token => ?_, ?_, ?_⟩
      · rw [hbegan, ← h.everBegan, ← ProgressState.everBegan_progress wait.state msg wait.now, ← hstate]
        rfl
      · rw [hpending, ← h.outstanding,
          ← ProgressState.mem_outstanding_progress wait.state msg wait.now, ← hstate]
        rfl
      · rw [healthOf_concat, hstatus]
        exact h.health
      · rw [hcreate, ← h.acks]
        exact ProgressState.apply_acks wait.state wait.acks msg wait.now

end Follows

/-- What a message that does not end the wait leaves. -/
theorem Unsettled.receive {log : List Json} {wait next : Wait} {msg : Json}
    (h : Unsettled log wait) (hnext : receive wait msg = .again next) :
    Unsettled (log ++ [msg]) next := by
  unfold LspClient.receive at hnext
  split at hnext
  · rename_i status hstatus
    dsimp only at hnext
    split_ifs at hnext with hquiescent
    cases hnext
    refine ⟨fun m hm s hs => ?_, iff_of_true rfl ⟨msg, by simp, by rw [hstatus]; rfl⟩⟩
    rcases List.mem_append.mp hm with hm | hm
    · exact h.busy m hm s hs
    · rw [List.mem_singleton.mp hm, hstatus] at hs
      cases hs
      simpa using hquiescent
  · rename_i hstatus
    cases hnext
    refine ⟨fun m hm s hs => ?_, ?_⟩
    · rcases List.mem_append.mp hm with hm | hm
      · exact h.busy m hm s hs
      · rw [List.mem_singleton.mp hm, hstatus] at hs
        cases hs
    · have hseen : (wait.state.apply wait.acks msg wait.now).1.serverStatusSeen =
          wait.state.serverStatusSeen := by
        rw [ProgressState.apply_progress, ProgressState.serverStatusSeen_progress]
      refine (iff_of_eq (congrArg (· = true) hseen)).trans ?_
      rw [h.seen]
      simp [or_and_right, exists_or, hstatus]

/-! ### Runs -/

/-- The messages among frames that have been read. -/
def messages (read : List Arrival) : List Json := read.filterMap fun arrival => arrival.2.toOption

/-- What has been read of a channel, and where the loop stands with it. -/
structure Tracks (frames : Channel) (latest : Nat) (read : List Arrival) (wait : Wait) : Prop where
  arrivals : frames.arrivals = read ++ wait.frames.arrivals
  closes : wait.frames.closes = frames.closes
  now : wait.now ≤ latest
  follows : Follows (messages read) wait

/-- The stream has ended: its last frame says so, or the channel has closed behind all of them. -/
def StreamEnded (frames : Channel) (read : List Arrival) (now : Nat) : Prop :=
  (∃ arrives message, read.getLast? = some (arrives, .error (.fatal message))) ∨
    read = frames.arrivals ∧ ∃ closes ∈ frames.closes, closes ≤ now

/-- How a wait ends. -/
inductive EndCase (frames : Channel) (deadline : Nat) (read : List Arrival) (wait : Wait) :
    ReadinessOutcome → Prop
  | quiescent {before : List Json} {msg : Json} {status : ServerStatus}
      (hread : messages read = before ++ [msg]) (hstatus : parseServerStatus msg = some status)
      (hquiescent : status.quiescent = true) :
      EndCase frames deadline read wait .serverReportedQuiescent
  | gaveUp (hunsettled : Unsettled (messages read) wait)
      (hend : wait.state.checkpoint deadline ≤ wait.now ∨ StreamEnded frames read wait.now) :
      EndCase frames deadline read wait wait.state.giveUp

theorem ProgressState.checkpoint_le (state : ProgressState) (deadline : Nat) :
    state.checkpoint deadline ≤ deadline := by
  unfold checkpoint
  split_ifs
  · exact le_rfl
  · exact min_le_right _ _

theorem messages_concat (read : List Arrival) (arrival : Arrival) :
    messages (read ++ [arrival]) = messages read ++ arrival.2.toOption.toList := by
  rw [messages, List.filterMap_append]
  cases h : arrival.2.toOption <;> simp [messages, h]

theorem Tracks.took {frames : Channel} {latest arrives : Nat} {read arrivals : List Arrival}
    {wait : Wait} {frame : Except FrameError Json} (h : Tracks frames latest read wait)
    (harrivals : wait.frames.arrivals = (arrives, frame) :: arrivals) (hin : arrives ≤ latest) :
    frames.arrivals = read ++ [(arrives, frame)] ++ (wait.took arrives arrivals).frames.arrivals ∧
      (wait.took arrives arrivals).frames.closes = frames.closes ∧
      (wait.took arrives arrivals).now ≤ latest ∧
      Follows (messages read) (wait.took arrives arrivals) := by
  refine ⟨?_, h.closes, max_le h.now hin, ⟨?_, ?_, ?_, ?_⟩⟩
  · rw [h.arrivals, harrivals, List.append_assoc]
    rfl
  · exact h.follows.everBegan
  · exact h.follows.outstanding
  · exact h.follows.health
  · exact h.follows.acks

/-- What a round says of the channel is what has been read of it, and either the wait is as
unsettled as before or it has ended in one of the two ways. -/
theorem Tracks.turn {frames : Channel} {latest deadline : Nat} {read : List Arrival} {wait : Wait}
    (h : Tracks frames latest read wait) (hunsettled : Unsettled (messages read) wait)
    (hdeadline : deadline ≤ latest) :
    ∃ read', Tracks frames latest read' (turn deadline wait).wait ∧
      match turn deadline wait with
      | .again next => Unsettled (messages read') next
      | .done wait readiness => EndCase frames deadline read' wait readiness := by
  have hspec := turn_spec deadline wait
  have hcheckpoint := (wait.state.checkpoint_le deadline).trans hdeadline
  generalize LspClient.turn deadline wait = result at hspec
  cases hspec with
  | expired hexpired => exact ⟨read, h, .gaveUp hunsettled (.inl hexpired)⟩
  | silent hlt =>
      refine ⟨read, ⟨h.arrivals, h.closes, hcheckpoint, ?_⟩, ⟨hunsettled.busy, hunsettled.seen⟩⟩
      exact ⟨h.follows.everBegan, h.follows.outstanding, h.follows.health, h.follows.acks⟩
  | @closed closes hlt harrivals hcloses hin =>
      have hread : read = frames.arrivals := by rw [h.arrivals, harrivals, List.append_nil]
      refine ⟨read, ⟨h.arrivals, h.closes, max_le h.now (hin.trans hcheckpoint), ?_⟩,
        .gaveUp ⟨hunsettled.busy, hunsettled.seen⟩ (.inr (.inr ⟨hread, closes, ?_, ?_⟩))⟩
      · exact ⟨h.follows.everBegan, h.follows.outstanding, h.follows.health, h.follows.acks⟩
      · rw [← h.closes]
        exact hcloses
      · exact le_max_right _ _
  | @message arrives msg arrivals hlt harrivals hin =>
      obtain ⟨harr, hclo, hnow, hfol⟩ := h.took harrivals (hin.trans hcheckpoint)
      have hmessages : messages (read ++ [(arrives, .ok msg)]) = messages read ++ [msg] :=
        messages_concat read _
      have hwait := receive_wait (wait.took arrives arrivals) msg
      have hunsettled' : Unsettled (messages read) (wait.took arrives arrivals) :=
        ⟨hunsettled.busy, hunsettled.seen⟩
      refine ⟨read ++ [(arrives, .ok msg)], ⟨?_, ?_, ?_, ?_⟩, ?_⟩
      · rwa [hwait.1]
      · rwa [hwait.1]
      · rwa [hwait.2]
      · rw [hmessages]
        exact hfol.receive msg
      · cases hresult : receive (wait.took arrives arrivals) msg with
        | again next =>
            dsimp only
            rw [hmessages]
            exact hunsettled'.receive hresult
        | done next readiness =>
            unfold receive at hresult
            split at hresult
            · rename_i status hstatus
              dsimp only at hresult
              split_ifs at hresult with hquiescent
              cases hresult
              exact .quiescent hmessages hstatus hquiescent
            · cases hresult
  | @unusable arrives error arrivals hlt harrivals hin herror =>
      obtain ⟨harr, hclo, hnow, hfol⟩ := h.took harrivals (hin.trans hcheckpoint)
      have hmessages : messages (read ++ [(arrives, .error error)]) = messages read :=
        (messages_concat read _).trans (List.append_nil _)
      refine ⟨read ++ [(arrives, .error error)], ⟨harr, hclo, hnow, ?_⟩, ?_⟩
      · rw [hmessages]
        exact hfol
      · dsimp only
        rw [hmessages]
        exact ⟨hunsettled.busy, hunsettled.seen⟩
  | @fatal arrives message arrivals hlt harrivals hin =>
      obtain ⟨harr, hclo, hnow, hfol⟩ := h.took harrivals (hin.trans hcheckpoint)
      have hmessages : messages (read ++ [(arrives, .error (.fatal message))]) = messages read :=
        (messages_concat read _).trans (List.append_nil _)
      refine ⟨read ++ [(arrives, .error (.fatal message))], ⟨harr, hclo, hnow, ?_⟩, ?_⟩
      · rw [hmessages]
        exact hfol
      · have hend : StreamEnded frames (read ++ [(arrives, .error (.fatal message))])
            (wait.took arrives arrivals).now := .inl ⟨arrives, message, List.getLast?_concat⟩
        have hunsettled' : Unsettled (messages read) (wait.took arrives arrivals) :=
          ⟨hunsettled.busy, hunsettled.seen⟩
        rw [← hmessages] at hunsettled'
        exact .gaveUp hunsettled' (.inr hend)

theorem waitLoop_spec {frames : Channel} {latest deadline : Nat} {read : List Arrival} {wait : Wait}
    (h : Tracks frames latest read wait) (hunsettled : Unsettled (messages read) wait)
    (hdeadline : deadline ≤ latest) :
    ∃ read', Tracks frames latest read' (waitLoop deadline wait).1 ∧
      EndCase frames deadline read' (waitLoop deadline wait).1 (waitLoop deadline wait).2 := by
  fun_induction waitLoop deadline wait generalizing read with
  | case1 wait next hturn ih =>
      obtain ⟨read', htracks, hnext⟩ := h.turn hunsettled hdeadline
      rw [hturn] at htracks hnext
      exact ih htracks hnext
  | case2 wait last readiness hturn =>
      obtain ⟨read', htracks, hend⟩ := h.turn hunsettled hdeadline
      rw [hturn] at htracks hend
      exact ⟨read', htracks, hend⟩

/-! ### What the outcome tells -/

/-- What is true of a wait for what it has read. -/
structure Truthful (frames : Channel) (start deadline : Nat) (read : List Arrival)
    (waited : Waited) : Prop where
  reads : frames.arrivals = read ++ waited.left.arrivals
  ended : waited.ended ≤ max start deadline
  quiescent : waited.health.readiness = .serverReportedQuiescent ↔
    ∃ before msg status, messages read = before ++ [msg] ∧ parseServerStatus msg = some status ∧
      status.quiescent = true
  noProgress : waited.health.readiness = .noProgressReported →
    ∀ msg ∈ messages read, ∀ token, ¬Begins token msg
  allEnded : waited.health.readiness = .allProgressEnded →
    ∀ token, ¬Outstanding token (messages read)
  outstanding : waited.health.readiness = .deadlineExpired →
    ∃ token, Outstanding token (messages read)
  waits : (∃ msg ∈ messages read, (parseServerStatus msg).isSome) →
    waited.health.readiness ≠ .serverReportedQuiescent →
      deadline ≤ waited.ended ∨ StreamEnded frames read waited.ended
  acknowledged : ((messages read).filterMap serverWorkdoneProgressCreate).Sublist waited.acks
  own : ∀ id ∈ waited.acks, ∃ msg ∈ messages read, serverWorkdoneProgressCreate msg = some id

theorem giveUp_ne_quiescent (everBegan outstandingEmpty : Bool) :
    giveUp everBegan outstandingEmpty ≠ .serverReportedQuiescent := by
  cases everBegan <;> cases outstandingEmpty <;> decide

namespace Follows

variable {log : List Json} {wait : Wait}

theorem not_begins (h : Follows log wait) (hgave : wait.state.giveUp = .noProgressReported) :
    ∀ msg ∈ log, ∀ token, ¬Begins token msg := by
  intro msg hmsg token hbegins
  have hbegan := h.everBegan.mpr ⟨msg, hmsg, token, hbegins⟩
  unfold ProgressState.giveUp giveUp at hgave
  rw [hbegan, Bool.not_true, if_neg Bool.false_ne_true] at hgave
  split_ifs at hgave

theorem not_outstanding (h : Follows log wait) (hgave : wait.state.giveUp = .allProgressEnded) :
    ∀ token, ¬Outstanding token log := by
  unfold ProgressState.giveUp giveUp at hgave
  split_ifs at hgave with hbegan hempty
  intro token htoken
  rw [← h.outstanding, of_decide_eq_true hempty] at htoken
  exact Finset.notMem_empty token htoken

theorem exists_outstanding (h : Follows log wait) (hgave : wait.state.giveUp = .deadlineExpired) :
    ∃ token, Outstanding token log := by
  unfold ProgressState.giveUp giveUp at hgave
  split_ifs at hgave with hbegan hempty
  have hne : wait.state.outstanding ≠ ∅ := of_decide_eq_false (by simpa using hempty)
  obtain ⟨token, htoken⟩ := Finset.nonempty_iff_ne_empty.mpr hne
  exact ⟨token, (h.outstanding token).mp htoken⟩

end Follows

/-- At the start nothing has been read. -/
theorem tracks_start (frames : Channel) (start latest : Nat) (h : start ≤ latest) :
    Tracks frames latest [] ⟨frames, start, .new start, .new, []⟩ ∧
      Unsettled (messages []) ⟨frames, start, .new start, .new, []⟩ := by
  refine ⟨⟨rfl, rfl, h, ⟨?_, fun token => ?_, rfl, rfl⟩⟩, ⟨nofun, ?_⟩⟩
  · exact iff_of_false nofun nofun
  · exact iff_of_false (Finset.notMem_empty token) Pending.not_isPending_nil
  · exact iff_of_false nofun nofun

/-- A wait ends by its deadline, reports a quiescent server exactly where the last message it has
read is a status that says so, and otherwise tells from the tokens alone: that nothing began, that
all that began has ended, or that some token is outstanding. Once it has read a status it gives up
no sooner than at the deadline or the end of the stream. It acknowledges each request to create a
token under its id. -/
theorem waitForReady_truthful (frames : Channel) (start deadline : Nat) :
    ∃ read, Truthful frames start deadline read (waitForReady frames start deadline) := by
  obtain ⟨htracks, hunsettled⟩ :=
    tracks_start frames start (max start deadline) (le_max_left _ _)
  obtain ⟨read, hread, hend⟩ := waitLoop_spec htracks hunsettled (le_max_right start deadline)
  have hacks := hread.follows.acks
  refine ⟨read, ?_⟩
  unfold waitForReady
  generalize waitLoop deadline ⟨frames, start, .new start, .new, []⟩ = result at hread hend hacks
  obtain ⟨wait, readiness⟩ := result
  dsimp only at hread hend hacks
  have hown : ∀ id ∈ wait.acks, ∃ msg ∈ messages read, serverWorkdoneProgressCreate msg = some id :=
    fun id hid => List.mem_filterMap.mp (hacks ▸ hid)
  cases hend with
  | @quiescent before msg status hmessages hstatus hquiescent =>
      exact {
        reads := hread.arrivals
        ended := hread.now
        quiescent := iff_of_true rfl ⟨before, msg, status, hmessages, hstatus, hquiescent⟩
        noProgress := nofun
        allEnded := nofun
        outstanding := nofun
        waits := fun _ hne => absurd rfl hne
        acknowledged := hacks ▸ List.Sublist.refl _
        own := hown }
  | gaveUp hunsettled hend =>
      have hne : wait.state.giveUp ≠ .serverReportedQuiescent := giveUp_ne_quiescent _ _
      exact {
        reads := hread.arrivals
        ended := hread.now
        quiescent := by
          refine iff_of_false hne ?_
          rintro ⟨before, msg, status, hmessages, hstatus, hquiescent⟩
          have hbusy := hunsettled.busy msg (by rw [hmessages]; simp) status hstatus
          rw [hquiescent] at hbusy
          cases hbusy
        noProgress := hread.follows.not_begins
        allEnded := hread.follows.not_outstanding
        outstanding := hread.follows.exists_outstanding
        waits := fun hstatus _ => by
          have hseen := hunsettled.seen.mpr hstatus
          rwa [ProgressState.checkpoint, if_pos hseen] at hend
        acknowledged := hacks ▸ List.Sublist.refl _
        own := hown }

/-- A status that says that the server is not quiescent. -/
private def busyStatus : Json :=
  .object [("method".toList, .string "experimental/serverStatus".toList),
    ("params".toList, .object [("health".toList, .string "ok".toList),
      ("quiescent".toList, .bool false)])]

/-- A server whose last status says that it is not quiescent, and which begins nothing, is reported
as one without progress. -/
theorem not_deadlineExpired_of_busy :
    ¬∀ (frames : Channel) (start deadline : Nat) (read : List Arrival),
      frames.arrivals = read ++ (waitForReady frames start deadline).left.arrivals →
        (∃ before msg status, messages read = before ++ [msg] ∧
          parseServerStatus msg = some status ∧ status.quiescent = false) →
          (waitForReady frames start deadline).health.readiness = .deadlineExpired := by
  intro h
  have hwait : waitForReady ⟨[(0, .ok busyStatus)], none⟩ 0 700 =
      ⟨⟨.ok, none, .noProgressReported⟩, [], 700, ⟨[], none⟩⟩ := by
    have hfirst : turn 700 ⟨⟨[(0, .ok busyStatus)], none⟩, 0, .new 0, .new, []⟩ =
        .again ⟨⟨[], none⟩, 0, (ProgressState.new 0).noteServerStatusActivity, ⟨.ok, none⟩, []⟩ :=
      rfl
    have hsecond : turn 700
        ⟨⟨[], none⟩, 0, (ProgressState.new 0).noteServerStatusActivity, ⟨.ok, none⟩, []⟩ =
        .again ⟨⟨[], none⟩, 700, (ProgressState.new 0).noteServerStatusActivity, ⟨.ok, none⟩, []⟩ :=
      rfl
    have hthird : turn 700
        ⟨⟨[], none⟩, 700, (ProgressState.new 0).noteServerStatusActivity, ⟨.ok, none⟩, []⟩ =
        .done ⟨⟨[], none⟩, 700, (ProgressState.new 0).noteServerStatusActivity, ⟨.ok, none⟩, []⟩
          .noProgressReported :=
      rfl
    rw [waitForReady, waitLoop_again hfirst, waitLoop_again hsecond, waitLoop_done hthird]
    rfl
  have hready := h ⟨[(0, .ok busyStatus)], none⟩ 0 700 [(0, .ok busyStatus)] (by rw [hwait]; rfl)
    ⟨[], busyStatus, ⟨.ok, false, none⟩, rfl, rfl, rfl⟩
  rw [hwait] at hready
  cases hready

end AutomatisedPipeline.LspClient

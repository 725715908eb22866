import AutomatisedPipeline.LspClient.Readiness

/-!
A session with a language server (`lsp_client.rs`, `lsp_client/frames.rs`).

The server writes frames, a thread reads them and puts them in a bounded queue, and the client takes
them from there: to drain the queue before it writes, to wait for readiness, or to look for the
response to its own request. Each party takes its steps when it likes, and the time of a call may run
out at any step.

Whatever the server writes, no frame is lost, doubled or overtaken on its way (`Flow`). A server is
honest when it responds to what it has been asked, and once. Then every call returns the response to
its own request, and while a call waits nobody has taken that response (`session_safe`). Unless the
time runs out, it comes (`response_delivered`).
-/

namespace AutomatisedPipeline.LspClient

open Text

/-! ### The loop over the frames -/

/-- What the reader thread sends. -/
abbrev Incoming : Type := Except FrameError Json

/-- `is_response_to`. -/
def isResponseTo (msg : Json) (targetId : Int) : Bool :=
  (msg.get "method".toList).isNone && (msg.get "id".toList).bind Json.asI64 = some targetId

/-- What a frame means whose payload would not parse. -/
inductive UnparseableFrame where
  | skip
  | failFast
deriving DecidableEq, Repr

def FrameError.message : FrameError → Str
  | .payload m => m
  | .fatal m => m
  | .timeout m => m

/-- What one frame comes to in `read_response`. -/
inductive Handled where
  | again
  | response (msg : Json)
  | failure (message : Str)

/-- The body of the loop in `read_response`, for a frame that has come in time. -/
def handle (targetId : Int) (policy : UnparseableFrame) : Incoming → Handled
  | .ok msg => if isResponseTo msg targetId then .response msg else .again
  | .error e => if e.isSkippable && policy = .skip then .again else .failure e.message

/-- The reader thread ends behind this frame. -/
def stops : Incoming → Bool
  | .error (.fatal _) => true
  | _ => false

/-! ### The parties -/

/-- `FRAME_QUEUE_DEPTH`. -/
def frameQueueDepth : Nat := 64

/-- What the client writes: a request with the policy of the wait for its response, a notification,
or the acknowledgement of a token. -/
inductive Outgoing where
  | request (id : Nat) (policy : UnparseableFrame)
  | notification
  | ack (id : Int)
deriving DecidableEq, Repr

def Outgoing.requestId? : Outgoing → Option Nat
  | .request id _ => some id
  | _ => none

/-- Where the client stands. -/
inductive Phase where
  | idle
  | draining (msg : Outgoing)
  | writing (msg : Outgoing)
  | waiting (id : Nat) (policy : UnparseableFrame)
  | listening
  | dropped
deriving DecidableEq, Repr

/-- Where the client stands after it has written a message. -/
def Outgoing.next : Outgoing → Phase
  | .request id policy => .waiting id policy
  | _ => .idle

/-- The frames on their way: written and not read, read and not sent, sent and not taken. What has
been written, sent to the server, taken and answered is kept as history. -/
structure Session where
  wire : List Incoming
  hand : Option Incoming
  reading : Bool
  queue : List Incoming
  client : Phase
  requestId : Nat
  written : List Incoming
  sent : List Outgoing
  taken : List Incoming
  answers : List (Nat × Json)

namespace Session

/-- A session as `start` leaves it. -/
def start : Session where
  wire := []
  hand := none
  reading := true
  queue := []
  client := .idle
  requestId := 1
  written := []
  sent := []
  taken := []
  answers := []

/-- The requests that the server has been sent. -/
def requested (s : Session) : List Nat := s.sent.filterMap Outgoing.requestId?

/-- The frames that have not been taken, the next one first. -/
def underway (s : Session) : List Incoming := s.queue ++ s.hand.toList ++ s.wire

/-- The client takes the next frame of the queue. -/
def take (s : Session) (frame : Incoming) (queue : List Incoming) : Session :=
  { s with queue, taken := s.taken ++ [frame] }

/-- The client takes a frame while it waits. -/
def receive (s : Session) (id : Nat) (policy : UnparseableFrame) (frame : Incoming)
    (queue : List Incoming) : Session :=
  match handle id policy frame with
  | .again => s.take frame queue
  | .response msg => { s.take frame queue with client := .idle, answers := s.answers ++ [(id, msg)] }
  | .failure _ => { s.take frame queue with client := .idle }

end Session

/-- Who takes a step; the clock lets a call run out of time. -/
inductive Party where
  | server
  | reader
  | client
  | clock
deriving DecidableEq, Repr

/-- One step of a session, for what the server may write. The ids of requests do not come round. -/
inductive Step (may : Session → Incoming → Prop) : Party → Session → Session → Prop
  | serverWrites {s : Session} {frame : Incoming} (hmay : may s frame) :
      Step may .server s { s with wire := s.wire ++ [frame], written := s.written ++ [frame] }
  | readerReads {s : Session} {frame : Incoming} {wire : List Incoming} (hreading : s.reading = true)
      (hhand : s.hand = none) (hwire : s.wire = frame :: wire) :
      Step may .reader s { s with hand := some frame, wire }
  | readerSends {s : Session} {frame : Incoming} (hhand : s.hand = some frame)
      (hclient : s.client ≠ .dropped) (hroom : s.queue.length < frameQueueDepth) :
      Step may .reader s
        { s with hand := none, queue := s.queue ++ [frame], reading := s.reading && !stops frame }
  | readerEnds {s : Session} {frame : Incoming} (hhand : s.hand = some frame)
      (hclient : s.client = .dropped) : Step may .reader s { s with reading := false }
  | calls {s : Session} {policy : UnparseableFrame} (hclient : s.client = .idle)
      (hid : s.requestId < 2 ^ 63) :
      Step may .client s
        { s with client := .draining (.request s.requestId policy), requestId := s.requestId + 1 }
  | notifies {s : Session} (hclient : s.client = .idle) :
      Step may .client s { s with client := .draining .notification }
  | drains {s : Session} {msg : Outgoing} {frame : Incoming} {queue : List Incoming}
      (hclient : s.client = .draining msg) (hqueue : s.queue = frame :: queue) :
      Step may .client s (s.take frame queue)
  | drained {s : Session} {msg : Outgoing} (hclient : s.client = .draining msg)
      (hqueue : s.queue = []) : Step may .client s { s with client := .writing msg }
  | writes {s : Session} {msg : Outgoing} (hclient : s.client = .writing msg) :
      Step may .client s { s with client := msg.next, sent := s.sent ++ [msg] }
  /-- A write may fail before or behind the last byte. -/
  | failsToWrite {s : Session} {msg : Outgoing} (arrived : Bool) (hclient : s.client = .writing msg) :
      Step may .client s
        { s with client := .idle, sent := if arrived then s.sent ++ [msg] else s.sent }
  | receives {s : Session} {id : Nat} {policy : UnparseableFrame} {frame : Incoming}
      {queue : List Incoming} (hclient : s.client = .waiting id policy)
      (hqueue : s.queue = frame :: queue) : Step may .client s (s.receive id policy frame queue)
  | disconnects {s : Session} {id : Nat} {policy : UnparseableFrame}
      (hclient : s.client = .waiting id policy) (hqueue : s.queue = []) (hhand : s.hand = none)
      (hreading : s.reading = false) : Step may .client s { s with client := .idle }
  | expires {s : Session} {id : Nat} {policy : UnparseableFrame}
      (hclient : s.client = .waiting id policy) : Step may .clock s { s with client := .idle }
  | listens {s : Session} (hclient : s.client = .idle) :
      Step may .client s { s with client := .listening }
  | hears {s : Session} {frame : Incoming} {queue : List Incoming} (hclient : s.client = .listening)
      (hqueue : s.queue = frame :: queue) : Step may .client s (s.take frame queue)
  | acknowledges {s : Session} (id : Int) (hclient : s.client = .listening) :
      Step may .client s { s with sent := s.sent ++ [.ack id] }
  | ready {s : Session} (hclient : s.client = .listening) :
      Step may .client s { s with client := .idle }
  | drops {s : Session} (hclient : s.client = .idle) :
      Step may .client s { s with client := .dropped }

/-- The states of the sessions with a server that writes what it may. -/
def Reached (may : Session → Incoming → Prop) : Session → Prop :=
  Run.Reachable (· = .start) fun s s' => ∃ party, Step may party s s'

/-! ### What comes through -/

section Flow

variable {may : Session → Incoming → Prop} {party : Party} {s s' : Session}

namespace Session

theorem receive_flow (id : Nat) (policy : UnparseableFrame) (frame : Incoming)
    (queue : List Incoming) :
    (s.receive id policy frame queue).taken = s.taken ++ [frame] ∧
      (s.receive id policy frame queue).queue = queue ∧
      (s.receive id policy frame queue).hand = s.hand ∧
      (s.receive id policy frame queue).wire = s.wire ∧
      (s.receive id policy frame queue).written = s.written ∧
      (s.receive id policy frame queue).sent = s.sent ∧
      (s.receive id policy frame queue).reading = s.reading ∧
      (s.receive id policy frame queue).requestId = s.requestId := by
  rw [receive]
  cases handle id policy frame <;> exact ⟨rfl, rfl, rfl, rfl, rfl, rfl, rfl, rfl⟩

end Session

/-- What has been written is what has been taken and what is underway, in this order. -/
def Conserved (s : Session) : Prop := s.written = s.taken ++ s.underway

theorem conserved_take {frame : Incoming} {queue : List Incoming} (h : Conserved s)
    (hqueue : s.queue = frame :: queue) :
    s.written = s.taken ++ [frame] ++ (queue ++ s.hand.toList ++ s.wire) := by
  rw [h, Session.underway, hqueue]
  simp

theorem Step.conserved (hstep : Step may party s s') (h : Conserved s) : Conserved s' := by
  cases hstep with
  | serverWrites _ =>
      rw [Conserved, Session.underway] at h ⊢
      simp only [h, List.append_assoc]
  | readerReads _ hhand hwire =>
      rw [Conserved, Session.underway, hhand, hwire] at h
      rw [Conserved, Session.underway, h]
      simp
  | readerSends hhand _ _ =>
      rw [Conserved, Session.underway, hhand] at h
      rw [Conserved, Session.underway, h]
      simp
  | drains _ hqueue => exact conserved_take h hqueue
  | hears _ hqueue => exact conserved_take h hqueue
  | @receives _ id policy frame queue _ hqueue =>
      obtain ⟨htaken, hqueue', hhand, hwire, hwritten, -⟩ := s.receive_flow id policy frame queue
      rw [Conserved, Session.underway, htaken, hqueue', hhand, hwire, hwritten]
      exact conserved_take h hqueue
  | _ => exact h

/-- The queue never holds more than its depth. -/
theorem Step.bounded (hstep : Step may party s s') (h : s.queue.length ≤ frameQueueDepth) :
    s'.queue.length ≤ frameQueueDepth := by
  have htake {frame : Incoming} {queue : List Incoming} (hqueue : s.queue = frame :: queue) :
      queue.length ≤ frameQueueDepth := by
    rw [hqueue, List.length_cons] at h
    exact Nat.le_of_succ_le h
  cases hstep with
  | readerSends _ _ hroom =>
      rw [List.length_append, List.length_singleton]
      exact hroom
  | drains _ hqueue => exact htake hqueue
  | hears _ hqueue => exact htake hqueue
  | @receives _ id policy frame queue _ hqueue =>
      rw [(s.receive_flow id policy frame queue).2.1]
      exact htake hqueue
  | _ => exact h

/-- A reader that has ended has delivered what ended it, or has lost its receiver. -/
def Ended (s : Session) : Prop :=
  s.reading = false → s.client = .dropped ∨ ∃ frame ∈ s.taken ++ s.queue, stops frame = true

theorem ended_take {frame : Incoming} {queue : List Incoming} (h : Ended s)
    (hclient : s.client ≠ .dropped) (hqueue : s.queue = frame :: queue)
    (hreading : s.reading = false) :
    ∃ f ∈ s.taken ++ [frame] ++ queue, stops f = true := by
  obtain ⟨f, hf, hstops⟩ := (h hreading).resolve_left hclient
  rw [hqueue] at hf
  exact ⟨f, by simpa using hf, hstops⟩

theorem Step.ended (hstep : Step may party s s') (h : Ended s) : Ended s' := by
  cases hstep with
  | readerReads hreading _ _ =>
      intro hended
      exact absurd (hreading.symm.trans hended) (by decide)
  | @readerSends _ frame _ _ _ =>
      intro hended
      simp only [Bool.and_eq_false_iff, Bool.not_eq_false'] at hended
      rcases hended with hended | hstops
      · refine (h hended).imp_right fun ⟨f, hf, hstops⟩ => ⟨f, ?_, hstops⟩
        rw [← List.append_assoc]
        exact List.mem_append_left _ hf
      · exact .inr ⟨frame, by simp, hstops⟩
  | readerEnds _ hclient => exact fun _ => .inl hclient
  | drains hclient hqueue =>
      exact fun hended => .inr (ended_take h (by simp [hclient]) hqueue hended)
  | hears hclient hqueue =>
      exact fun hended => .inr (ended_take h (by simp [hclient]) hqueue hended)
  | @receives _ id policy frame queue hclient hqueue =>
      obtain ⟨htaken, hqueue', -, -, -, -, hreading, -⟩ := s.receive_flow id policy frame queue
      rw [Ended, htaken, hqueue', hreading]
      exact fun hended => .inr (ended_take h (by simp [hclient]) hqueue hended)
  | drops _ => exact fun _ => .inl rfl
  | calls hclient _ => exact fun hended => .inr ((h hended).resolve_left (by simp [hclient]))
  | notifies hclient => exact fun hended => .inr ((h hended).resolve_left (by simp [hclient]))
  | drained hclient _ => exact fun hended => .inr ((h hended).resolve_left (by simp [hclient]))
  | writes hclient => exact fun hended => .inr ((h hended).resolve_left (by simp [hclient]))
  | failsToWrite _ hclient =>
      exact fun hended => .inr ((h hended).resolve_left (by simp [hclient]))
  | disconnects hclient _ _ _ =>
      exact fun hended => .inr ((h hended).resolve_left (by simp [hclient]))
  | expires hclient => exact fun hended => .inr ((h hended).resolve_left (by simp [hclient]))
  | listens hclient => exact fun hended => .inr ((h hended).resolve_left (by simp [hclient]))
  | ready hclient => exact fun hended => .inr ((h hended).resolve_left (by simp [hclient]))
  | serverWrites _ => exact h
  | acknowledges _ _ => exact h

/-- What holds of the frames in every session. -/
structure Flow (s : Session) : Prop where
  conserved : Conserved s
  bounded : s.queue.length ≤ frameQueueDepth
  ended : Ended s

theorem reached_flow (h : Reached may s) : Flow s := by
  refine h.invariant ?_ fun s s' hflow ⟨_, hstep⟩ => ?_
  · rintro _ rfl
    exact ⟨rfl, Nat.zero_le _, nofun⟩
  · exact ⟨hstep.conserved hflow.conserved, hstep.bounded hflow.bounded, hstep.ended hflow.ended⟩

end Flow

/-! ### Requests and answers -/

/-- The request that is about to be written. -/
def Phase.unsent : Phase → Option Nat
  | .draining msg => msg.requestId?
  | .writing msg => msg.requestId?
  | _ => none

/-- The request whose response the client waits for. -/
def Phase.awaits : Phase → Option Nat
  | .waiting id _ => some id
  | _ => none

section Asked

variable {may : Session → Incoming → Prop} {party : Party} {s s' : Session}

theorem handle_eq_response {id : Int} {policy : UnparseableFrame} {frame : Incoming} {msg : Json} :
    handle id policy frame = .response msg ↔ frame = .ok msg ∧ isResponseTo msg id = true := by
  cases frame with
  | ok other =>
      rw [handle]
      split
      · rename_i hresponse
        rw [Handled.response.injEq, Except.ok.injEq]
        exact ⟨fun h => ⟨h, h ▸ hresponse⟩, fun h => h.1⟩
      · rename_i hresponse
        refine ⟨fun h => Handled.noConfusion h, fun ⟨h, hmsg⟩ => ?_⟩
        rw [Except.ok.inj h] at hresponse
        exact absurd hmsg hresponse
  | error e =>
      rw [handle]
      split <;> simp

theorem Session.requested_concat (s : Session) (msg : Outgoing) :
    { s with sent := s.sent ++ [msg] }.requested = s.requested ++ msg.requestId?.toList := by
  rw [requested, List.filterMap_append]
  cases h : msg.requestId? <;> simp [requested, h]

/-- No id is used twice, a call waits for a request it has sent, and what it has returned is a
response to that request. -/
structure Asked (s : Session) : Prop where
  fresh : ∀ id ∈ s.requested, id < s.requestId
  unsent : ∀ id ∈ s.client.unsent, id < s.requestId ∧ id ∉ s.requested
  awaited : ∀ id ∈ s.client.awaits, id ∈ s.requested ∧ id ∉ s.answers.map Prod.fst
  answered : ∀ a ∈ s.answers,
    a.1 ∈ s.requested ∧ .ok a.2 ∈ s.taken ∧ isResponseTo a.2 a.1 = true
  once : (s.answers.map Prod.fst).Nodup

theorem Asked.keep (h : Asked s) (hrequested : s'.requested = s.requested)
    (hid : s'.requestId = s.requestId) (hanswers : s'.answers = s.answers)
    (htaken : s.taken ⊆ s'.taken)
    (hunsent : s'.client.unsent = none ∨ s'.client.unsent = s.client.unsent)
    (hawaits : s'.client.awaits = none ∨ s'.client.awaits = s.client.awaits) : Asked s' where
  fresh := by
    rw [hrequested, hid]
    exact h.fresh
  unsent := by
    rw [hrequested, hid]
    rcases hunsent with hnone | heq
    · rw [hnone]
      exact nofun
    · rw [heq]
      exact h.unsent
  awaited := by
    rw [hrequested, hanswers]
    rcases hawaits with hnone | heq
    · rw [hnone]
      exact nofun
    · rw [heq]
      exact h.awaited
  answered := by
    rw [hrequested, hanswers]
    exact fun a ha => (h.answered a ha).imp_right fun h => ⟨htaken h.1, h.2⟩
  once := hanswers ▸ h.once

/-- A request is sent. -/
theorem Asked.send {msg : Outgoing} {client : Phase} (h : Asked s)
    (hunsent : s.client.unsent = msg.requestId?) (hclient : client.unsent = none)
    (hawaits : ∀ id ∈ client.awaits, id ∈ msg.requestId?) :
    Asked { s with client, sent := s.sent ++ [msg] } := by
  have hrequested : { s with client, sent := s.sent ++ [msg] }.requested =
      s.requested ++ msg.requestId?.toList := s.requested_concat msg
  refine ⟨?_, ?_, ?_, ?_, h.once⟩
  · rw [hrequested]
    intro id hid
    rcases List.mem_append.mp hid with hid | hid
    · exact h.fresh id hid
    · exact (h.unsent id (hunsent ▸ Option.mem_toList.mp hid)).1
  · rw [show Phase.unsent client = none from hclient]
    exact nofun
  · rw [hrequested]
    intro id hid
    have hmsg := hawaits id hid
    refine ⟨List.mem_append_right _ (Option.mem_toList.mpr hmsg), fun hmem => ?_⟩
    obtain ⟨a, ha, rfl⟩ := List.mem_map.mp hmem
    exact (h.unsent a.1 (hunsent ▸ hmsg)).2 (h.answered a ha).1
  · rw [hrequested]
    exact fun a ha => (h.answered a ha).imp_left (List.mem_append_left _)

theorem Asked.receive {id : Nat} {policy : UnparseableFrame} (h : Asked s)
    (hclient : s.client = .waiting id policy) (frame : Incoming) (queue : List Incoming) :
    Asked (s.receive id policy frame queue) := by
  have hself : id ∈ s.client.awaits := by
    rw [hclient]
    rfl
  have htake : Asked (s.take frame queue) :=
    h.keep rfl rfl rfl (List.subset_append_left _ _) (.inr rfl) (.inr rfl)
  rw [Session.receive]
  cases hhandle : handle id policy frame with
  | again => exact htake
  | failure _ => exact htake.keep rfl rfl rfl (List.Subset.refl _) (.inl rfl) (.inl rfl)
  | response msg =>
      obtain ⟨rfl, hmsg⟩ := handle_eq_response.mp hhandle
      obtain ⟨hrequested, hfresh⟩ := h.awaited id hself
      refine ⟨htake.fresh, nofun, nofun, fun a ha => ?_, ?_⟩
      · rcases List.mem_append.mp ha with ha | ha
        · exact htake.answered a ha
        · obtain rfl := List.mem_singleton.mp ha
          exact ⟨hrequested, List.mem_append_right _ (List.mem_singleton_self _), hmsg⟩
      · rw [List.map_append, List.map_singleton, ← List.concat_eq_append]
        exact (List.nodup_concat _ _).mpr ⟨hfresh, h.once⟩

theorem Step.asked (hstep : Step may party s s') (h : Asked s) : Asked s' := by
  cases hstep with
  | calls hclient _ =>
      refine ⟨fun id hid => (h.fresh id hid).trans (Nat.lt_succ_self _), ?_, nofun, h.answered,
        h.once⟩
      rintro _ ⟨⟩
      exact ⟨Nat.lt_succ_self _, fun hmem => (h.fresh _ hmem).false⟩
  | @writes _ msg hclient =>
      refine h.send (by rw [hclient]; rfl) ?_ ?_
      · cases msg <;> rfl
      · cases msg with
        | request id policy => exact fun _ h => h
        | notification => exact nofun
        | ack _ => exact nofun
  | failsToWrite arrived hclient =>
      cases arrived with
      | true => exact h.send (by rw [hclient]; rfl) rfl nofun
      | false => exact h.keep rfl rfl rfl (List.Subset.refl _) (.inl rfl) (.inl rfl)
  | @receives _ id policy frame queue hclient _ => exact h.receive hclient frame queue
  | drains hclient _ => exact h.keep rfl rfl rfl (List.subset_append_left _ _) (.inr rfl) (.inr rfl)
  | hears hclient _ => exact h.keep rfl rfl rfl (List.subset_append_left _ _) (.inr rfl) (.inr rfl)
  | drained hclient _ =>
      exact h.keep rfl rfl rfl (List.Subset.refl _) (.inr (by rw [hclient]; rfl)) (.inl rfl)
  | acknowledges id hclient =>
      refine h.keep ?_ rfl rfl (List.Subset.refl _) (.inr rfl) (.inr rfl)
      exact (s.requested_concat (.ack id)).trans (List.append_nil _)
  | notifies _ => exact h.keep rfl rfl rfl (List.Subset.refl _) (.inl rfl) (.inl rfl)
  | disconnects _ _ _ _ => exact h.keep rfl rfl rfl (List.Subset.refl _) (.inl rfl) (.inl rfl)
  | expires _ => exact h.keep rfl rfl rfl (List.Subset.refl _) (.inl rfl) (.inl rfl)
  | listens _ => exact h.keep rfl rfl rfl (List.Subset.refl _) (.inl rfl) (.inl rfl)
  | ready _ => exact h.keep rfl rfl rfl (List.Subset.refl _) (.inl rfl) (.inl rfl)
  | drops _ => exact h.keep rfl rfl rfl (List.Subset.refl _) (.inl rfl) (.inl rfl)
  | serverWrites _ => exact h.keep rfl rfl rfl (List.Subset.refl _) (.inr rfl) (.inr rfl)
  | readerReads _ _ _ => exact h.keep rfl rfl rfl (List.Subset.refl _) (.inr rfl) (.inr rfl)
  | readerSends _ _ _ => exact h.keep rfl rfl rfl (List.Subset.refl _) (.inr rfl) (.inr rfl)
  | readerEnds _ _ => exact h.keep rfl rfl rfl (List.Subset.refl _) (.inr rfl) (.inr rfl)

theorem reached_asked (h : Reached may s) : Asked s := by
  refine h.invariant ?_ fun s s' hasked ⟨_, hstep⟩ => hstep.asked hasked
  rintro _ rfl
  exact ⟨nofun, nofun, nofun, nofun, List.nodup_nil⟩

end Asked

/-! ### An honest server -/

/-- The frame is a response to the request. -/
def Responds (frame : Incoming) (id : Int) : Prop :=
  ∃ msg, frame = .ok msg ∧ isResponseTo msg id = true

/-- The server responds to requests that it has been sent, and to each at most once. -/
def Honest (s : Session) (frame : Incoming) : Prop :=
  ∀ id, Responds frame id →
    (∃ n ∈ s.requested, (n : Int) = id) ∧ ∀ earlier ∈ s.written, ¬ Responds earlier id

/-- No request has both frames as responses. -/
def Unrelated (frame other : Incoming) : Prop := ∀ id, Responds frame id → ¬ Responds other id

instance : Std.Symm Unrelated := ⟨fun _ _ h id hother hframe => h id hframe hother⟩

section Served

variable {party : Party} {s s' : Session}

/-- What holds in addition with an honest server. -/
structure Served (s : Session) : Prop where
  asked : ∀ frame ∈ s.written, ∀ id, Responds frame id → ∃ n ∈ s.requested, (n : Int) = id
  once : s.written.Pairwise Unrelated
  untaken : ∀ id ∈ s.client.awaits, ∀ frame ∈ s.taken, ¬ Responds frame id

theorem Served.keep (h : Served s) (hwritten : s'.written = s.written)
    (hrequested : s.requested ⊆ s'.requested) (htaken : s'.taken = s.taken)
    (hawaits : s'.client.awaits = none ∨ s'.client.awaits = s.client.awaits) : Served s' where
  asked := by
    rw [hwritten]
    exact fun frame hframe id hid =>
      (h.asked frame hframe id hid).imp fun _ hn => hn.imp_left (hrequested ·)
  once := hwritten ▸ h.once
  untaken := by
    rw [htaken]
    rcases hawaits with hnone | heq
    · rw [hnone]
      exact nofun
    · rw [heq]
      exact h.untaken

theorem Served.take (h : Served s) {frame : Incoming} {queue : List Incoming}
    (hframe : ∀ id ∈ s.client.awaits, ¬ Responds frame id) : Served (s.take frame queue) where
  asked := h.asked
  once := h.once
  untaken := fun id hid f hf => by
    rcases List.mem_append.mp hf with hf | hf
    · exact h.untaken id hid f hf
    · rw [List.mem_singleton.mp hf]
      exact hframe id hid

/-- A frame that the loop passes over is no response. -/
theorem not_responds_of_again {id : Int} {policy : UnparseableFrame} {frame : Incoming}
    (h : handle id policy frame = .again) : ¬ Responds frame id := by
  rintro ⟨msg, rfl, hmsg⟩
  rw [handle, if_pos hmsg] at h
  cases h

theorem Served.receive {id : Nat} {policy : UnparseableFrame} (h : Served s)
    (hclient : s.client = .waiting id policy) (frame : Incoming) (queue : List Incoming) :
    Served (s.receive id policy frame queue) := by
  rw [Session.receive]
  cases hhandle : handle id policy frame with
  | again =>
      refine h.take fun n hn => ?_
      rw [hclient] at hn
      obtain rfl := Option.some.inj hn
      exact not_responds_of_again hhandle
  | failure _ => exact ⟨h.asked, h.once, nofun⟩
  | response msg => exact ⟨h.asked, h.once, nofun⟩

/-- What has been taken answers only what has been requested. -/
theorem not_responds_of_unsent (h : Served s) (hflow : Flow s) {id : Nat}
    (hid : id ∉ s.requested) {frame : Incoming} (hframe : frame ∈ s.taken) :
    ¬ Responds frame id := by
  intro hresponds
  have hwritten : frame ∈ s.written := by
    rw [hflow.conserved]
    exact List.mem_append_left _ hframe
  obtain ⟨n, hn, heq⟩ := h.asked frame hwritten id hresponds
  exact hid (Int.ofNat.inj heq ▸ hn)

theorem Step.served (hstep : Step Honest party s s') (h : Served s) (hflow : Flow s)
    (hasked : Asked s) : Served s' := by
  have hsends (msg : Outgoing) : Served { s with sent := s.sent ++ [msg] } := by
    refine h.keep rfl ?_ rfl (.inr rfl)
    rw [s.requested_concat]
    exact List.subset_append_left _ _
  cases hstep with
  | @serverWrites _ frame hhonest =>
      refine ⟨fun f hf id hid => ?_, ?_, h.untaken⟩
      · rcases List.mem_append.mp hf with hf | hf
        · exact h.asked f hf id hid
        · rw [List.mem_singleton.mp hf] at hid
          exact (hhonest id hid).1
      · refine List.pairwise_append.mpr ⟨h.once, List.pairwise_singleton _ _, ?_⟩
        intro earlier hearlier later hlater id hid hlater'
        rw [List.mem_singleton.mp hlater] at hlater'
        exact (hhonest id hlater').2 earlier hearlier hid
  | @writes _ msg hclient =>
      refine ⟨(hsends msg).asked, h.once, ?_⟩
      cases msg with
      | request id policy =>
          rintro _ ⟨⟩ frame hframe
          refine not_responds_of_unsent h hflow (hasked.unsent id ?_).2 hframe
          rw [hclient]
          rfl
      | notification => exact nofun
      | ack _ => exact nofun
  | @failsToWrite _ msg arrived _ =>
      cases arrived with
      | true => exact ⟨(hsends msg).asked, h.once, nofun⟩
      | false => exact h.keep rfl (List.Subset.refl _) rfl (.inl rfl)
  | drains hclient _ =>
      refine h.take ?_
      rw [hclient]
      exact nofun
  | hears hclient _ =>
      refine h.take ?_
      rw [hclient]
      exact nofun
  | @receives _ id policy frame queue hclient _ => exact h.receive hclient frame queue
  | acknowledges id _ => exact hsends (.ack id)
  | calls _ _ => exact h.keep rfl (List.Subset.refl _) rfl (.inl rfl)
  | notifies _ => exact h.keep rfl (List.Subset.refl _) rfl (.inl rfl)
  | drained _ _ => exact h.keep rfl (List.Subset.refl _) rfl (.inl rfl)
  | disconnects _ _ _ _ => exact h.keep rfl (List.Subset.refl _) rfl (.inl rfl)
  | expires _ => exact h.keep rfl (List.Subset.refl _) rfl (.inl rfl)
  | listens _ => exact h.keep rfl (List.Subset.refl _) rfl (.inl rfl)
  | ready _ => exact h.keep rfl (List.Subset.refl _) rfl (.inl rfl)
  | drops _ => exact h.keep rfl (List.Subset.refl _) rfl (.inl rfl)
  | readerReads _ _ _ => exact h.keep rfl (List.Subset.refl _) rfl (.inr rfl)
  | readerSends _ _ _ => exact h.keep rfl (List.Subset.refl _) rfl (.inr rfl)
  | readerEnds _ _ => exact h.keep rfl (List.Subset.refl _) rfl (.inr rfl)

theorem reached_served (h : Reached Honest s) : Served s := by
  have hall : Flow s ∧ Asked s ∧ Served s := by
    refine @Run.Reachable.invariant _ _ _ (fun s => Flow s ∧ Asked s ∧ Served s) ?_ ?_ s h
    · rintro _ rfl
      have hstart : Reached Honest Session.start := .start rfl
      exact ⟨reached_flow hstart, reached_asked hstart, nofun, List.Pairwise.nil, nofun⟩
    · rintro s s' ⟨hflow, hasked, hserved⟩ ⟨_, hstep⟩
      refine ⟨⟨hstep.conserved hflow.conserved, hstep.bounded hflow.bounded,
        hstep.ended hflow.ended⟩, hstep.asked hasked, hstep.served hserved hflow hasked⟩
  exact hall.2.2

/-- In every session with an honest server no frame is lost, doubled or overtaken, the queue is
bounded, the answer of a call is the one response to its request, no request is answered twice, and
no response has been taken while its call waits. -/
theorem session_safe (h : Reached Honest s) :
    s.written = s.taken ++ s.underway ∧ s.queue.length ≤ frameQueueDepth ∧
      (∀ a ∈ s.answers, a.1 ∈ s.requested ∧
        ∀ msg, .ok msg ∈ s.written → (isResponseTo msg a.1 = true ↔ msg = a.2)) ∧
      (s.answers.map Prod.fst).Nodup ∧
      ∀ id policy, s.client = .waiting id policy →
        ∀ frame ∈ s.written, Responds frame id → frame ∈ s.underway := by
  have hflow := reached_flow h
  have hasked := reached_asked h
  have hserved := reached_served h
  refine ⟨hflow.conserved, hflow.bounded, fun a ha => ?_, hasked.once, ?_⟩
  · obtain ⟨hrequested, htaken, hresponse⟩ := hasked.answered a ha
    refine ⟨hrequested, fun msg hmsg => ⟨fun hother => ?_, fun heq => heq ▸ hresponse⟩⟩
    have hwritten : .ok a.2 ∈ s.written := by
      rw [hflow.conserved]
      exact List.mem_append_left _ htaken
    by_contra hne
    exact hserved.once.forall hmsg hwritten (fun heq => hne (Except.ok.inj heq)) a.1
      ⟨msg, rfl, hother⟩ ⟨a.2, rfl, hresponse⟩
  · intro id policy hclient frame hframe hresponds
    rw [hflow.conserved] at hframe
    refine (List.mem_append.mp hframe).resolve_left fun htaken => ?_
    exact hserved.untaken id (by rw [hclient]; rfl) frame htaken hresponds

/-- A response to the first request. -/
def sampleResponse : Json := .object [("id".toList, .number ['1']), ("result".toList, .null)]

/-- The first call waits; a frame that does not parse and its response have been written. -/
def sampleSession : Session :=
  { Session.start with
    wire := [.error (.payload "parse JSON body".toList), .ok sampleResponse]
    client := .waiting 1 .skip
    requestId := 2
    written := [.error (.payload "parse JSON body".toList), .ok sampleResponse]
    sent := [.request 1 .skip] }

theorem eq_one_of_isResponseTo {id : Int} (h : isResponseTo sampleResponse id = true) : 1 = id := by
  rw [isResponseTo, Bool.and_eq_true, decide_eq_true_iff] at h
  have hid : (sampleResponse.get "id".toList).bind Json.asI64 = some 1 := by decide
  exact Option.some.inj (hid.symm.trans h.2)

theorem sampleSession_reached : Reached Honest sampleSession := by
  have hstart : Reached Honest Session.start := .start rfl
  have hcall := hstart.step ⟨.client, @Step.calls _ _ .skip rfl (by decide)⟩
  have hdrained := hcall.step ⟨.client, .drained rfl rfl⟩
  have hwritten := hdrained.step ⟨.client, .writes rfl⟩
  have hbroken := hwritten.step ⟨.server,
    @Step.serverWrites _ _ (.error (.payload "parse JSON body".toList))
      fun id ⟨_, h, _⟩ => by cases h⟩
  refine hbroken.step ⟨.server, @Step.serverWrites _ _ (.ok sampleResponse) ?_⟩
  rintro id ⟨msg, hmsg, hresponse⟩
  obtain rfl := Except.ok.inj hmsg
  refine ⟨⟨1, by decide, eq_one_of_isResponseTo hresponse⟩, ?_⟩
  rintro earlier hearlier ⟨other, rfl, -⟩
  rcases List.mem_singleton.mp hearlier with h
  cases h

theorem session_safe_sample : .ok sampleResponse ∈ sampleSession.underway :=
  (session_safe sampleSession_reached).2.2.2.2 1 .skip rfl (.ok sampleResponse)
    (by simp [sampleSession]) ⟨sampleResponse, rfl, by decide⟩

end Served

/-! ### The response comes -/

/-- Steps of the reader and of the client, as long as the client waits. -/
inductive Waits : Nat → Session → Session → Prop
  | here {s : Session} : Waits 0 s s
  | further {n : Nat} {party : Party} {id : Nat} {policy : UnparseableFrame} {s s' s'' : Session} :
      Waits n s s' → s'.client = .waiting id policy → (party = .reader ∨ party = .client) →
        Step Honest party s' s'' → Waits (n + 1) s s''

/-- How far the frames are from the client. -/
def Session.weight (s : Session) : Nat :=
  s.queue.length + 2 * s.hand.toList.length + 3 * s.wire.length

/-- The client waits for a response that is underway, and nothing in front of it stops the reader or
ends the call. -/
structure Delivering (id : Nat) (policy : UnparseableFrame) (msg : Json) (s : Session) : Prop where
  client : s.client = .waiting id policy
  response : isResponseTo msg id = true
  ahead : ∃ before after, s.underway = before ++ .ok msg :: after ∧
    (∀ frame ∈ before, handle id policy frame = .again) ∧
      (s.reading = true ∨ before.length < s.queue.length)

section Delivery

variable {party : Party} {s s' : Session} {id : Nat} {policy : UnparseableFrame} {msg : Json}

theorem stops_eq_false_of_again {frame : Incoming} (h : handle id policy frame = .again) :
    stops frame = false := by
  rcases frame with (e | e | e) | m
  · rfl
  · cases h
  · rfl
  · rfl

/-- A step brings the frames nearer and the response to the client. -/
theorem Delivering.step (h : Delivering id policy msg s) (hparty : party = .reader ∨ party = .client)
    (hstep : Step Honest party s s') :
    s'.weight < s.weight ∧
      (Delivering id policy msg s' ∨ s'.client = .idle ∧ (id, msg) ∈ s'.answers) := by
  obtain ⟨before, after, hunderway, hagain, hreads⟩ := h.ahead
  have hclient := h.client
  cases hstep with
  | readerReads hreading hhand hwire =>
      refine ⟨?_, .inl ⟨hclient, h.response, before, after, ?_, hagain, hreads⟩⟩
      · simp [Session.weight, hhand, hwire]
        omega
      · rw [← hunderway, Session.underway, Session.underway, hhand, hwire]
        simp
  | @readerSends _ frame hhand _ _ =>
      refine ⟨?_, .inl ⟨hclient, h.response, before, after, ?_, hagain, ?_⟩⟩
      · simp [Session.weight, hhand]
      · rw [← hunderway, Session.underway, Session.underway, hhand]
        simp
      · rw [List.length_append, List.length_singleton]
        rcases hreads with hreading | hshort
        · refine or_iff_not_imp_right.mpr fun hlong => ?_
          have hpre : s.queue ++ [frame] <+: before := by
            have hleft : s.queue ++ [frame] <+: s.underway := by
              rw [Session.underway, hhand]
              exact List.prefix_append _ _
            have hright : before <+: s.underway := by
              rw [hunderway]
              exact List.prefix_append _ _
            refine List.prefix_of_prefix_length_le hleft hright ?_
            rw [List.length_append, List.length_singleton]
            exact Nat.le_of_not_lt hlong
          have hmem : frame ∈ before := hpre.subset (by simp)
          rw [hreading, stops_eq_false_of_again (hagain frame hmem)]
          rfl
        · exact .inr (Nat.lt_succ_of_lt hshort)
  | @receives _ other policy' frame queue hclient' hqueue =>
      obtain ⟨rfl, rfl⟩ := Phase.waiting.inj (hclient.symm.trans hclient')
      have hweight : queue.length < s.queue.length := by simp [hqueue]
      obtain ⟨-, hqueue', hhand, hwire, -⟩ := s.receive_flow id policy frame queue
      refine ⟨?_, ?_⟩
      · rw [Session.weight, Session.weight, hqueue', hhand, hwire]
        omega
      · rw [Session.underway, hqueue, List.append_assoc, List.cons_append] at hunderway
        cases before with
        | nil =>
            obtain ⟨rfl, -⟩ := List.cons.inj hunderway
            right
            rw [Session.receive, handle_eq_response.mpr ⟨rfl, h.response⟩]
            exact ⟨rfl, List.mem_append_right _ (List.mem_singleton_self _)⟩
        | cons first before =>
            obtain ⟨rfl, hrest⟩ := List.cons.inj hunderway
            left
            rw [Session.receive, hagain frame List.mem_cons_self]
            refine ⟨hclient, h.response, before, after, ?_, ?_, hreads.imp_right fun hshort => ?_⟩
            · exact (List.append_assoc _ _ _).trans hrest
            · exact fun f hf => hagain f (List.mem_cons_of_mem _ hf)
            · rw [hqueue] at hshort
              exact Nat.lt_of_succ_lt_succ hshort
  | disconnects _ hqueue _ hreading =>
      rcases hreads with hreads | hshort
      · exact absurd (hreads.symm.trans hreading) (by decide)
      · rw [hqueue] at hshort
        exact absurd hshort (Nat.not_lt_zero _)
  | serverWrites _ => simp at hparty
  | expires _ => simp at hparty
  | readerEnds _ hdropped => exact absurd (hclient.symm.trans hdropped) (by simp)
  | calls hidle _ => exact absurd (hclient.symm.trans hidle) (by simp)
  | notifies hidle => exact absurd (hclient.symm.trans hidle) (by simp)
  | drains hdraining _ => exact absurd (hclient.symm.trans hdraining) (by simp)
  | drained hdraining _ => exact absurd (hclient.symm.trans hdraining) (by simp)
  | writes hwriting => exact absurd (hclient.symm.trans hwriting) (by simp)
  | failsToWrite _ hwriting => exact absurd (hclient.symm.trans hwriting) (by simp)
  | listens hidle => exact absurd (hclient.symm.trans hidle) (by simp)
  | hears hlistening _ => exact absurd (hclient.symm.trans hlistening) (by simp)
  | acknowledges _ hlistening => exact absurd (hclient.symm.trans hlistening) (by simp)
  | ready hlistening => exact absurd (hclient.symm.trans hlistening) (by simp)
  | drops hidle => exact absurd (hclient.symm.trans hidle) (by simp)

/-- Somebody can take a step. -/
theorem Delivering.progress (h : Delivering id policy msg s) :
    ∃ party s', (party = .reader ∨ party = .client) ∧ Step Honest party s s' := by
  obtain ⟨before, after, hunderway, -, hreads⟩ := h.ahead
  cases hqueue : s.queue with
  | cons frame queue => exact ⟨.client, _, .inr rfl, .receives h.client hqueue⟩
  | nil =>
      rw [hqueue, List.length_nil] at hreads
      have hreading := hreads.resolve_right (Nat.not_lt_zero _)
      cases hhand : s.hand with
      | some frame =>
          refine ⟨.reader, _, .inl rfl, .readerSends hhand (by simp [h.client]) ?_⟩
          rw [hqueue]
          decide
      | none =>
          cases hwire : s.wire with
          | cons frame wire => exact ⟨.reader, _, .inl rfl, .readerReads hreading hhand hwire⟩
          | nil =>
              rw [Session.underway, hqueue, hhand, hwire] at hunderway
              exact absurd hunderway.symm (by simp)

/-- A response behind an unbroken stretch of frames is on its way. -/
theorem delivering_of_written (h : Reached Honest s) (hclient : s.client = .waiting id policy)
    (hresponse : isResponseTo msg id = true) {front back : List Incoming}
    (hwritten : s.written = front ++ .ok msg :: back)
    (hfront : ∀ e, .error e ∈ front → e.isSkippable = true ∧ policy = .skip) :
    Delivering id policy msg s := by
  have hflow := reached_flow h
  have hserved := reached_served h
  have hawaits : id ∈ s.client.awaits := by
    rw [hclient]
    rfl
  have hsplit : s.taken ++ s.underway = front ++ .ok msg :: back :=
    hflow.conserved.symm.trans hwritten
  have hpre : s.taken <+: front := by
    rcases List.append_eq_append_iff.mp hsplit with ⟨mid, hfront', -⟩ | ⟨mid, htaken, hback⟩
    · exact ⟨mid, hfront'.symm⟩
    · cases mid with
      | nil => exact ⟨[], by rw [htaken, List.append_nil, List.append_nil]⟩
      | cons first mid =>
          obtain ⟨rfl, -⟩ := List.cons.inj hback
          refine absurd ⟨msg, rfl, hresponse⟩ (hserved.untaken id hawaits _ ?_)
          rw [htaken]
          simp
  obtain ⟨before, rfl⟩ := hpre
  rw [List.append_assoc] at hsplit
  have hunderway := List.append_cancel_left hsplit
  have hagain : ∀ frame ∈ before, handle id policy frame = .again := by
    intro frame hframe
    cases frame with
    | error e =>
        obtain ⟨hskippable, rfl⟩ := hfront e (List.mem_append_right _ hframe)
        rw [handle, hskippable]
        rfl
    | ok other =>
        rw [handle, if_neg]
        intro hother
        have hpairwise := hserved.once
        rw [hwritten] at hpairwise
        exact (List.pairwise_append.mp hpairwise).2.2 (.ok other) (List.mem_append_right _ hframe)
          (.ok msg) List.mem_cons_self id ⟨other, rfl, hother⟩ ⟨msg, rfl, hresponse⟩
  refine ⟨hclient, hresponse, before, back, hunderway, hagain, ?_⟩
  rw [← Bool.not_eq_false, or_iff_not_imp_left, not_not]
  intro hended
  obtain ⟨frame, hframe, hstops⟩ := (hflow.ended hended).resolve_left (by simp [hclient])
  have hnot : frame ∉ s.taken ++ before := by
    intro hmem
    rcases frame with (e | e | e) | m
    · cases hstops
    · cases (hfront _ hmem).1
    · cases hstops
    · cases hstops
  have hqueue : frame ∈ s.queue :=
    (List.mem_append.mp hframe).resolve_left fun hmem => hnot (List.mem_append_left _ hmem)
  by_contra hlong
  refine hnot (List.mem_append_right _ ?_)
  have hpre : s.queue <+: before := by
    have hleft : s.queue <+: s.underway := by
      rw [Session.underway, List.append_assoc]
      exact List.prefix_append _ _
    have hright : before <+: s.underway := by
      rw [hunderway]
      exact List.prefix_append _ _
    exact List.prefix_of_prefix_length_le hleft hright (Nat.le_of_not_lt hlong)
  exact hpre.subset hqueue

end Delivery

end AutomatisedPipeline.LspClient

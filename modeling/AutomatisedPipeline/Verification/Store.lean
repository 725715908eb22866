import AutomatisedPipeline.Verification.Session
import AutomatisedPipeline.Logic.Run

/-!
The four requests over the files they read and write. A request either is
refused before it writes anything, or performs its file writes one after
another; each replaces one file by a rename, so it is done or not done. An I/O
error, or a crash, ends the request between two of them.
-/

namespace AutomatisedPipeline.Verification

open Text

/-! ### Files -/

structure IndexEntry where
  artifactPath : Str
  extractorVersion : Str
  orchestratorVersion : Option Str
  refinedAt : Option Str
  verifiedAt : Option Str
  verified : Option Bool
  stage2Path : Option Str
deriving DecidableEq, Repr

structure Index where
  runId : Str
  startedAt : Str
  lastUpdatedAt : Str
  findings : Std.TreeMap Str IndexEntry compare

/-- The files of stage 2, by the components of their directory: the session and
the receipt of a finding, and the index of a run. -/
structure Disk where
  sessions : List Str → Option SessionFile
  verified : List Str → Option VerifiedArtifact
  indexes : List Str → Option Index

/-- No session has been started. -/
def Disk.fresh (indexes : List Str → Option Index) : Disk :=
  { sessions := fun _ => none, verified := fun _ => none, indexes := indexes }

/-- Where the files of the finding are. -/
def Target.findingDir (t : Target) : List Str :=
  components (findingDirFor t.outputDir t.runId t.findingId)

def Target.runDir (t : Target) : List Str := components (runDirFor t.outputDir t.runId)

/-- What stage 1 left of `stage-1.refined.json`, with the error text. -/
inductive Refined where
  | missing
  | unreadable (why : Str)
  | corrupt (why : Str)
  | parsed

/-- The functions the program takes from elsewhere: `{:?}` of a string, what
`serde_json` prints, what it reads back of a value it printed, and SHA-256. -/
structure Platform where
  debug : Str → Str
  toVec : List SessionTurn → List UInt8
  toVecPretty : VerifiedArtifact → List UInt8
  reread : Value → Value
  sha256 : List UInt8 → List UInt8

/-- The world around one request: its two clock readings, the refined artifact,
the error text where the session file cannot be read, and the number of file
operations it completes before one fails, with the error text. -/
structure World where
  now : Str
  indexNow : Str
  refined : Refined
  unreadable : Option Str
  fault : Option (Nat × Str)

section Requests

variable (pf : Platform)

/-- A field that holds `null` reads back as absent. -/
def rereadMeta (m : Option Value) : Option Value :=
  match m.map pf.reread with
  | some .null => none
  | other => other

def rereadTurn (t : SessionTurn) : SessionTurn := { t with «meta» := rereadMeta pf t.meta }

/-- The session as the program holds it after reading its file. -/
def reread (s : SessionFile) : SessionFile :=
  { s with transcript := s.transcript.map (rereadTurn pf) }

def readSession (w : World) (disk : Disk) (t : Target) : Except StageErr (Option SessionFile) :=
  match disk.sessions t.findingDir with
  | none => .ok none
  | some s =>
      match w.unreadable with
      | some why => .error (ioErr ("read session ".toList ++
          pf.debug (sessionPathFor t.outputDir t.runId t.findingId) ++ ": ".toList ++ why))
      | none => .ok (some (reread pf s))

/-- The session a request must find. -/
def requireSession (w : World) (disk : Disk) (t : Target) (missing : String) :
    Except StageErr SessionFile := do
  match ← readSession pf w disk t with
  | some s => return s
  | none => .error (stage2Err .noSession missing)

/-! ### Plans -/

inductive Write where
  | mkdir (dir : List Str)
  | session (dir : List Str) (s : SessionFile)
  | verified (dir : List Str) (a : VerifiedArtifact)
  | index (dir : List Str) (i : Index)

def Write.perform (disk : Disk) : Write → Disk
  | .mkdir _ => disk
  | .session dir s => { disk with sessions := Function.update disk.sessions dir (some s) }
  | .verified dir a => { disk with verified := Function.update disk.verified dir (some a) }
  | .index dir i => { disk with indexes := Function.update disk.indexes dir (some i) }

inductive Reply where
  | started (state : SessionState) (runId findingId startedAt sessionPath : Str)
  | appended (state : SessionState) (seq turnCount : Nat)
  | finalized (artifact : VerifiedArtifact) (verifiedPath : Str) (bytesWritten : Nat)
  | aborted (state : SessionState) (runId findingId : Str) (turnCount : Nat) (abortedAt : Str)

/-- What an accepted request does: its file writes in order, and its reply. -/
structure Plan where
  writes : List Write
  reply : Reply

/-! ### Start -/

def verifierVersion : Str := "1.0.0".toList

def checkStage1Refined (w : World) (t : Target) : Except StageErr Bool :=
  let refinedPath := pf.debug (joinPath (findingDirFor t.outputDir t.runId t.findingId)
    refinedFileName)
  match w.refined with
  | .missing => .error ⟨.noExtraction, "no stage-1.refined.json at ".toList ++ refinedPath ++
      " — call refine_finding first (spec §4 schema_ok, §7.1)".toList⟩
  | .unreadable why => .error (ioErr ("read ".toList ++ refinedPath ++ ": ".toList ++ why))
  | .corrupt why =>
      .error ⟨.corruptExtraction, "parse ".toList ++ refinedPath ++ ": ".toList ++ why⟩
  | .parsed => .ok true

def buildNewSession (t : Target) (schemaOk : Bool) (now : Str) : SessionFile :=
  { runId := t.runId
    findingId := t.findingId
    state := .opened
    turnCount := 0
    startedAt := now
    updatedAt := now
    schemaOk := schemaOk
    verifierVersion := verifierVersion
    transcript := []
    abortedAt := none
    abortReason := none }

def planStart (w : World) (disk : Disk) (arguments : Value) : Except StageErr Plan := do
  let t ← parseStartArgs pf.debug arguments
  let schemaOk ← checkStage1Refined pf w t
  match ← readSession pf w disk t with
  | some existing =>
      -- only an aborted session is restartable
      let _ ← canTransition existing.state .start
  | none => pure ()
  let session := buildNewSession t schemaOk w.now
  return {
    writes := [.mkdir t.findingDir, .session t.findingDir session]
    reply := .started session.state session.runId session.findingId session.startedAt
      (sessionPathFor t.outputDir t.runId t.findingId) }

/-! ### Append -/

def buildAppendedSession (prev : SessionFile) (args : AppendArgs) (now : Str) :
    Except StageErr SessionFile := do
  let newState ← canTransition prev.state args.kind.event
  let newTurn : SessionTurn :=
    { seq := prev.transcript.length
      kind := args.kind
      timestamp := now
      content := args.content
      «meta» := args.meta }
  let transcript := prev.transcript ++ [newTurn]
  return {
    runId := prev.runId
    findingId := prev.findingId
    state := newState
    turnCount := transcript.length
    startedAt := prev.startedAt
    updatedAt := now
    schemaOk := prev.schemaOk
    verifierVersion := prev.verifierVersion
    transcript := transcript
    abortedAt := none
    abortReason := none }

def planAppend (w : World) (disk : Disk) (arguments : Value) : Except StageErr Plan := do
  let args ← parseAppendArgs pf.debug arguments
  let prev ← requireSession pf w disk args.target
    "no stage-2.session.json — call start_verification first (spec §7.2)"
  let next ← buildAppendedSession prev args w.now
  return {
    writes := [.session args.target.findingDir next]
    reply := .appended next.state (next.transcript.length - 1) next.turnCount }

/-! ### Finalize -/

def checkFinalizePreconditions (session : SessionFile) : Except StageErr Unit :=
  if !session.schemaOk then
    .error (stage2Err .schemaNotOk
      "session.schema_ok is false; stage-1 artifact is broken (spec §7.3 (ii))")
  else do
    let _ ← canTransition session.state .finalize

def computeCompleteness (transcript : List SessionTurn) : Bool × List (Str × Bool) :=
  let hasQ := transcript.any fun t => t.kind = .agentQuestion
  let hasA := transcript.any fun t => t.kind = .userAnswer
  (hasQ && hasA, [("at_least_one_agent_question".toList, hasQ),
    ("at_least_one_user_answer".toList, hasA)])

/-- Two lower-case hexadecimal digits for each byte. -/
def hexLower (bytes : List UInt8) : Str :=
  bytes.flatMap fun b => [(b.toNat / 16).digitChar, (b.toNat % 16).digitChar]

def computeTranscriptDigest (transcript : List SessionTurn) : Str × Nat :=
  let bytes := pf.toVec transcript
  (hexLower (pf.sha256 bytes), bytes.length)

def buildVerifiedArtifact (session : SessionFile) (t : Target) (now : Str) : VerifiedArtifact :=
  let (completenessOk, checklist) := computeCompleteness session.transcript
  let (digestHex, digestInputLen) := computeTranscriptDigest pf session.transcript
  let userAcknowledged := true
  { runId := session.runId
    findingId := session.findingId
    verified := session.schemaOk && completenessOk && userAcknowledged
    verifiedKind := { schemaOk := session.schemaOk, completenessOk, userAcknowledged }
    finalizedAt := now
    stage1RefinedPath := findingsDirName ++ '/' :: (t.findingId ++ '/' :: refinedFileName)
    sessionPath := findingsDirName ++ '/' :: (t.findingId ++ '/' :: sessionFileName)
    transcriptDigest := digestHex
    digestAlgorithm := "sha256".toList
    transcriptBytesAtFinalize := digestInputLen
    turnCount := session.turnCount
    verifierVersion := verifierVersion
    completenessChecklist := checklist }

/-- Stage-2 fields come from the new entry, the others from the existing one. -/
def mergePreserveRefinedOnly (existing entry : IndexEntry) : IndexEntry :=
  { artifactPath := existing.artifactPath
    extractorVersion := existing.extractorVersion
    orchestratorVersion := existing.orchestratorVersion
    refinedAt := existing.refinedAt
    verifiedAt := entry.verifiedAt
    verified := entry.verified
    stage2Path := entry.stage2Path }

def mergeIndexEntry (existing : Option IndexEntry) (entry : IndexEntry) : IndexEntry :=
  match existing with
  | some e => mergePreserveRefinedOnly e entry
  | none => entry

def upsertVerifiedIndex (w : World) (disk : Disk) (t : Target) (artifact : VerifiedArtifact) :
    Index :=
  let entry : IndexEntry :=
    { artifactPath := []
      extractorVersion := "1.0.0".toList
      orchestratorVersion := none
      refinedAt := none
      verifiedAt := some w.now
      verified := some artifact.verified
      stage2Path := some (findingsDirName ++ '/' :: (t.findingId ++ '/' :: verifiedFileName)) }
  let idx := (disk.indexes t.runDir).getD
    { runId := t.runId, startedAt := w.indexNow, lastUpdatedAt := w.indexNow, findings := ∅ }
  { idx with
    lastUpdatedAt := w.indexNow
    findings := idx.findings.insert t.findingId
      (mergeIndexEntry (idx.findings[t.findingId]?) entry) }

def planFinalize (w : World) (disk : Disk) (arguments : Value) : Except StageErr Plan := do
  let t ← parseFinalizeArgs pf.debug arguments
  let session ← requireSession pf w disk t
    "no stage-2.session.json — call start_verification first (spec §7.3)"
  checkFinalizePreconditions session
  let artifact := buildVerifiedArtifact pf session t w.now
  let finalized := { session with state := .finalized, updatedAt := w.now }
  -- the index is not touched by the first two writes
  return {
    writes := [
      .verified t.findingDir artifact,
      .session t.findingDir finalized,
      .index t.runDir (upsertVerifiedIndex w disk t artifact)]
    reply := .finalized artifact
      (joinPath (findingDirFor t.outputDir t.runId t.findingId) verifiedFileName)
      (pf.toVecPretty artifact).length }

/-! ### Abort -/

def buildAbortedSession (prev : SessionFile) (reason : Option Str) (now : Str) :
    Except StageErr SessionFile := do
  let _ ← canTransition prev.state .abort
  return { prev with
    state := .aborted
    updatedAt := now
    abortedAt := some now
    abortReason := reason }

def planAbort (w : World) (disk : Disk) (arguments : Value) : Except StageErr Plan := do
  let args ← parseAbortArgs pf.debug arguments
  let prev ← requireSession pf w disk args.target
    "no stage-2.session.json to abort (spec §12.1)"
  let aborted ← buildAbortedSession prev args.reason w.now
  return {
    writes := [.session args.target.findingDir aborted]
    reply := .aborted aborted.state aborted.runId aborted.findingId aborted.turnCount w.now }

/-! ### Requests -/

inductive Request where
  | start (arguments : Value)
  | append (arguments : Value)
  | finalize (arguments : Value)
  | abort (arguments : Value)

structure Event where
  request : Request
  world : World

def plan (w : World) (disk : Disk) : Request → Except StageErr Plan
  | .start arguments => planStart pf w disk arguments
  | .append arguments => planAppend pf w disk arguments
  | .finalize arguments => planFinalize pf w disk arguments
  | .abort arguments => planAbort pf w disk arguments

/-- The writes, up to the one that fails. -/
def perform (fault : Option (Nat × Str)) (p : Plan) (disk : Disk) : Disk × Except StageErr Reply :=
  match fault with
  | some (done, why) =>
      if done < p.writes.length then
        ((p.writes.take done).foldl Write.perform disk, .error (ioErr why))
      else (p.writes.foldl Write.perform disk, .ok p.reply)
  | none => (p.writes.foldl Write.perform disk, .ok p.reply)

def handle (disk : Disk) (e : Event) : Disk × Except StageErr Reply :=
  match plan pf e.world disk e.request with
  | .error err => (disk, .error err)
  | .ok p => perform e.world.fault p disk

/-- The files after a sequence of requests. -/
def run (disk : Disk) (events : List Event) : Disk :=
  events.foldl (fun d e => (handle pf d e).1) disk

end Requests

end AutomatisedPipeline.Verification

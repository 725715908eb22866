import AutomatisedPipeline.Text.Find

/-!
The verification session of a finding: its record, the state machine over it,
and the arguments of the four requests that drive it (start, append, finalize,
abort).

A JSON value is what `serde_json` hands the program, an object being the list
of its fields. A path is its text; two texts name one file when they have the
same components.
-/

namespace AutomatisedPipeline.Verification

open Text

/-! ### Errors -/

/-- The machine-readable reason codes. -/
inductive ErrorCode where
  | badRequest
  | unsafeId
  | ioError
  | noExtraction
  | corruptExtraction
  | noSession
  | alreadyFinalized
  | alreadyAborted
  | illegalTransition
  | alternationViolation
  | noClarificationRound
  | unansweredQuestion
  | schemaNotOk
deriving DecidableEq, Repr

def ErrorCode.text : ErrorCode → Str
  | .badRequest => "bad_request".toList
  | .unsafeId => "unsafe_id".toList
  | .ioError => "io_error".toList
  | .noExtraction => "no_extraction".toList
  | .corruptExtraction => "corrupt_extraction".toList
  | .noSession => "no_session".toList
  | .alreadyFinalized => "already_finalized".toList
  | .alreadyAborted => "already_aborted".toList
  | .illegalTransition => "illegal_transition".toList
  | .alternationViolation => "alternation_violation".toList
  | .noClarificationRound => "no_clarification_round".toList
  | .unansweredQuestion => "unanswered_question".toList
  | .schemaNotOk => "schema_not_ok".toList

structure StageErr where
  code : ErrorCode
  message : Str
deriving DecidableEq, Repr

def stage2Err (code : ErrorCode) (msg : String) : StageErr := ⟨code, msg.toList⟩

def badRequest (msg : Str) : StageErr := ⟨.badRequest, msg⟩

def ioErr (msg : Str) : StageErr := ⟨.ioError, msg⟩

def unsafeIdErr (msg : Str) : StageErr := ⟨.unsafeId, msg⟩

/-! ### Records -/

inductive Value where
  | null
  | bool (b : Bool)
  | number (text : Str)
  | string (s : Str)
  | array (items : List Value)
  | object (fields : List (Str × Value))

inductive SessionState where
  | opened
  | waitingForUser
  | waitingForAgent
  | finalized
  | aborted
deriving DecidableEq, Repr

def SessionState.asStr : SessionState → Str
  | .opened => "open".toList
  | .waitingForUser => "waiting_for_user".toList
  | .waitingForAgent => "waiting_for_agent".toList
  | .finalized => "finalized".toList
  | .aborted => "aborted".toList

inductive TurnKind where
  | agentQuestion
  | userAnswer
deriving DecidableEq, Repr

structure SessionTurn where
  seq : Nat
  kind : TurnKind
  timestamp : Str
  content : Str
  «meta» : Option Value

structure SessionFile where
  runId : Str
  findingId : Str
  state : SessionState
  turnCount : Nat
  startedAt : Str
  updatedAt : Str
  schemaOk : Bool
  verifierVersion : Str
  transcript : List SessionTurn
  abortedAt : Option Str
  abortReason : Option Str

structure VerifiedKind where
  schemaOk : Bool
  completenessOk : Bool
  userAcknowledged : Bool
deriving DecidableEq, Repr

structure VerifiedArtifact where
  runId : Str
  findingId : Str
  verified : Bool
  verifiedKind : VerifiedKind
  finalizedAt : Str
  stage1RefinedPath : Str
  sessionPath : Str
  transcriptDigest : Str
  digestAlgorithm : Str
  transcriptBytesAtFinalize : Nat
  turnCount : Nat
  verifierVersion : Str
  completenessChecklist : List (Str × Bool)
deriving DecidableEq, Repr

/-! ### The state machine -/

inductive TransitionEvent where
  | start
  | agentQuestion
  | userAnswer
  | finalize
  | abort
deriving DecidableEq, Repr

def transitionStart : SessionState → Except StageErr SessionState
  | .aborted => .ok .opened
  | _ => .error (stage2Err .illegalTransition
      "start_verification requires no session or an aborted session (spec §7.1, §12.1)")

def transitionAppend : SessionState → TurnKind → Except StageErr SessionState
  | .opened, .agentQuestion => .ok .waitingForUser
  | .waitingForUser, .userAnswer => .ok .waitingForAgent
  | .waitingForAgent, .agentQuestion => .ok .waitingForUser
  | _, _ => .error (stage2Err .alternationViolation
      "two consecutive turns of the same kind are illegal (spec §3 alternation invariant, §12.2)")

def transitionFinalize : SessionState → Except StageErr SessionState
  | .waitingForAgent => .ok .finalized
  | .opened => .error (stage2Err .noClarificationRound
      "finalize requires ≥1 agent_question AND ≥1 user_answer before it (spec §12.2)")
  | .waitingForUser => .error (stage2Err .unansweredQuestion
      "cannot finalize while an agent_question is awaiting a user_answer (spec §7.3, §12.2)")
  | _ => .error (stage2Err .illegalTransition "finalize rejected (spec §12.2)")

def transitionAbort (_from : SessionState) : Except StageErr SessionState := .ok .aborted

def canTransition (fromState : SessionState) (event : TransitionEvent) :
    Except StageErr SessionState :=
  if fromState = .finalized then
    .error (stage2Err .alreadyFinalized "session is finalized; further writes are rejected (spec §8.4)")
  else if fromState = .aborted ∧ event ≠ .start then
    .error (stage2Err .alreadyAborted
      "session is aborted; only start_verification may restart it (spec §12.1)")
  else
    match event with
    | .start => transitionStart fromState
    | .agentQuestion => transitionAppend fromState .agentQuestion
    | .userAnswer => transitionAppend fromState .userAnswer
    | .finalize => transitionFinalize fromState
    | .abort => transitionAbort fromState

/-- The event of a turn. -/
def TurnKind.event : TurnKind → TransitionEvent
  | .agentQuestion => .agentQuestion
  | .userAnswer => .userAnswer

/-! ### Paths -/

def runsDirName : Str := "runs".toList
def findingsDirName : Str := "findings".toList
def indexFileName : Str := "index.json".toList
def refinedFileName : Str := "stage-1.refined.json".toList
def sessionFileName : Str := "stage-2.session.json".toList
def verifiedFileName : Str := "stage-2.verified.json".toList

/-- `Path::join` with a relative path. -/
def joinPath (dir name : Str) : Str :=
  if dir.getLast? = some '/' then dir ++ name else dir ++ '/' :: name

def runDirFor (outputDir runId : Str) : Str :=
  joinPath (joinPath outputDir runsDirName) runId

def findingDirFor (outputDir runId findingId : Str) : Str :=
  joinPath (joinPath (runDirFor outputDir runId) findingsDirName) findingId

def sessionPathFor (outputDir runId findingId : Str) : Str :=
  joinPath (findingDirFor outputDir runId findingId) sessionFileName

/-! ### Arguments -/

def safeIdMaxLen : Nat := 128

/-- `unsafe {kind} (spec §5.1.4, §9.3 Q4): {why}` -/
def unsafeId (kind why : Str) : Str :=
  "unsafe ".toList ++ kind ++ " (spec §5.1.4, §9.3 Q4): ".toList ++ why

def isSafeIdChar (c : Char) : Bool := c.isAlphanum || c == '.' || c == '_' || c == '-'

/-- Its length is counted in bytes. -/
def validateSafeId (kind id : Str) : Except Str Unit :=
  let len := (id.map Char.utf8Size).sum
  if id = [] then .error (unsafeId kind "must be non-empty".toList)
  else if safeIdMaxLen < len then
    .error (unsafeId kind
      ("length ".toList ++ Nat.toDigits 10 len ++ " exceeds max ".toList ++
        Nat.toDigits 10 safeIdMaxLen))
  else if ['.'].isPrefixOf id then .error (unsafeId kind "must not start with '.'".toList)
  else if (find ['.', '.'] id).isSome then
    .error (unsafeId kind "must not contain '..'".toList)
  else if id.all isSafeIdChar then .ok ()
  else .error (unsafeId kind "must match [A-Za-z0-9._-]+".toList)

section Arguments

-- `{:?}` of a string.
variable (debug : Str → Str)

def requireAbsolute (path field : Str) : Except Str Str :=
  if !(['/'].isPrefixOf path) then
    .error (field ++ " must be an absolute path (spec §3.1): got ".toList ++ debug path)
  else if ['.', '.'] ∈ components path then
    .error (field ++ " must not contain '..' (spec §5.1.4): got ".toList ++ debug path)
  else .ok path

abbrev Fields : Type := List (Str × Value)

def Value.asObject : Value → Option Fields
  | .object fields => some fields
  | _ => none

def Value.asStr : Value → Option Str
  | .string s => some s
  | _ => none

def Fields.get (args : Fields) (key : Str) : Option Value :=
  (args.find? fun field => field.1 = key).map Prod.snd

def requireStringArg (args : Fields) (key : Str) : Except StageErr Str :=
  match (args.get key).bind Value.asStr with
  | some s => .ok s
  | none => .error (badRequest
      ("missing required field '".toList ++ key ++ "' (spec §9.2)".toList))

/-- What every request names. -/
structure Target where
  runId : Str
  findingId : Str
  outputDir : Str
deriving DecidableEq, Repr

/-- The checks the four parsers share, `spec` being the section their first
message cites. -/
def parseTarget (spec : Str) (arguments : Value) : Except StageErr (Fields × Target) := do
  let args ← match arguments.asObject with
    | some args => .ok args
    | none => .error (badRequest ("arguments must be an object (spec ".toList ++ spec ++ [')']))
  let runId ← requireStringArg args "run_id".toList
  (validateSafeId "run_id".toList runId).mapError unsafeIdErr
  let findingId ← requireStringArg args "finding_id".toList
  (validateSafeId "finding_id".toList findingId).mapError unsafeIdErr
  let outputDirStr ← requireStringArg args "output_dir".toList
  let outputDir ← (requireAbsolute debug outputDirStr "output_dir".toList).mapError badRequest
  return (args, { runId, findingId, outputDir })

def parseStartArgs (arguments : Value) : Except StageErr Target := do
  let (_, target) ← parseTarget debug "§7.1".toList arguments
  return target

structure AppendArgs where
  target : Target
  kind : TurnKind
  content : Str
  «meta» : Option Value

def parseTurnKind (kind : Str) : Except StageErr TurnKind :=
  if kind = "agent_question".toList then .ok .agentQuestion
  else if kind = "user_answer".toList then .ok .userAnswer
  else .error (badRequest
    ("kind must be 'agent_question' or 'user_answer' (spec §5.2, §7.2): got ".toList ++ debug kind))

def parseAppendArgs (arguments : Value) : Except StageErr AppendArgs := do
  let (args, target) ← parseTarget debug "§7.2".toList arguments
  let kindStr ← requireStringArg args "kind".toList
  let kind ← parseTurnKind debug kindStr
  let content ← requireStringArg args "content".toList
  if content = [] then
    .error (badRequest "content must be non-empty (spec §5.2 minLength:1)".toList)
  else
    return { target, kind, content, «meta» := args.get "meta".toList }

def parseFinalizeArgs (arguments : Value) : Except StageErr Target := do
  let (_, target) ← parseTarget debug "§7.3".toList arguments
  return target

structure AbortArgs where
  target : Target
  reason : Option Str
deriving DecidableEq, Repr

def parseAbortArgs (arguments : Value) : Except StageErr AbortArgs := do
  let (args, target) ← parseTarget debug "§12.1".toList arguments
  return { target, reason := (args.get "reason".toList).bind Value.asStr }

end Arguments

end AutomatisedPipeline.Verification

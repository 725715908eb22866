import AutomatisedPipeline.Cochange.Log
import AutomatisedPipeline.Logic.Asks

/-!
Mining calls of `cochange.rs` (`mine`, `git_known`, `load_state`, `save_state`) one
after another.

A call asks git, the store and the disk, any of which may fail, and leaves the state it
saved in the sidecar file. `track` runs a list of calls and remembers which call mined
the window and which one saved last. The result of `rewrite_edges`, which writes derived
edges and leaves the state, is an answer of the store.
-/

namespace AutomatisedPipeline.Cochange

open Text

/-! ### The source's definitions -/

/-- `Mode`. -/
inductive Mode where
  | full | incremental
deriving DecidableEq

/-- What a mining call asks. -/
inductive Probe where
  /-- `git rev-parse HEAD`. -/
  | gitHead
  /-- `git rev-parse --show-prefix`. -/
  | showPrefix
  /-- `git cat-file -e <object>`. -/
  | catFile (object : Str)
  /-- `git log` with its arguments. -/
  | log (args : List Str)
  | rewriteEdges (state : CochangeState)
  | saveState (state : CochangeState)
deriving DecidableEq

/-- What it is answered. -/
inductive Reply where
  | failed (error : Str)
  | output (stdout : Str)
  | edges (written : Nat)
  | saved
deriving DecidableEq

/-- A program that asks git, the store and the disk. -/
abbrev MineM := Asks Probe Reply

/-- The output of a git command that succeeded: `git_output`. -/
def outputOf : Reply → Option Str
  | .output stdout => some stdout
  | _ => none

def gitOutput (probe : Probe) : MineM (Option Str) := do
  return outputOf (← Asks.question probe)

/-- The sha that `git_head` reads off the output of its command. -/
def headOf (out : Option Str) : Option Str := (out.map Indexer.trim).filter (· ≠ [])

/-- `char::is_ascii_hexdigit`. -/
def isAsciiHexdigit (c : Char) : Bool :=
  c.isDigit || ('a' ≤ c && c ≤ 'f') || ('A' ≤ c && c ≤ 'F')

/-- `git_known`. -/
def gitKnown (sha : Str) : MineM Bool := do
  if sha.all isAsciiHexdigit then
    return (← gitOutput (.catFile (sha ++ "^\x7bcommit\x7d".toList))).isSome
  else return false

/-- The arguments of every log that is read. -/
def logArgs (range : List Str) : List Str :=
  ["-c".toList, "core.quotepath=false".toList, "log".toList, "--no-merges".toList,
    "--name-only".toList,
    "--pretty=format:".toList ++ recordSeparator :: ("%H".toList ++ unitSeparator :: "%at".toList)] ++
    range

/-- The range of a full mining: the window. -/
def windowArgs : List Str := logArgs ["--since=1 year ago".toList, "--max-count=10000".toList]

/-- The range of a resumed mining: what `HEAD` has and `sha` has not. -/
def rangeArgs (sha : Str) : List Str := logArgs [sha ++ "..HEAD".toList]

/-- `MineResult`. -/
structure MineResult where
  mode : String
  commitsScanned : Nat
  edgesWritten : Nat
  minedToSha : Str

/-- The starting state and the range of `mine`. -/
def startOf (mode : Mode) (prior : Option CochangeState) :
    MineM (CochangeState × List Str × String) := do
  match mode, prior with
  | .incremental, some p =>
      if p.lastSha ≠ [] then
        if ← gitKnown p.lastSha then return (p, rangeArgs p.lastSha, "incremental")
        else return (CochangeState.new, windowArgs, "full")
      else return (CochangeState.new, windowArgs, "full")
  | _, _ => return (CochangeState.new, windowArgs, "full")

/-- `mine`. -/
def mine (mode : Mode) (prior : Option CochangeState) : MineM (Except Str (Option MineResult)) := do
  match headOf (← gitOutput .gitHead) with
  | none => return .ok none
  | some head =>
      let pathPrefix := ((← gitOutput .showPrefix).map Indexer.trim).getD []
      let (start, args, effectiveMode) ← startOf mode prior
      let commits := readCommitFiles (← gitOutput (.log args)) pathPrefix
      let state := { accumulate start commits with lastSha := head }
      match ← Asks.question (.rewriteEdges state) with
      | .edges edgesWritten =>
          match ← Asks.question (.saveState state) with
          | .saved =>
              return .ok (some
                { mode := effectiveMode
                  commitsScanned := commits.length
                  edgesWritten := edgesWritten
                  minedToSha := head })
          | .failed error => return .error error
          | _ => return .error "cochange: write".toList
      | .failed error => return .error error
      | _ => return .error "cochange: edges".toList

/-- `load_state` on what the sidecar holds: a newer schema is not read. -/
def loadState (sidecar : Option CochangeState) : Option CochangeState :=
  sidecar.filter fun state => decide (state.schemaVersion ≤ cochangeSchemaVersion)

/-! ### One call -/

/-- A call of `run_cochange`, with the HEAD of its repository, the commits that git has
in the window, whether the sidecar can be read, and what git, the store and the disk
answer. -/
structure Call (H : History) where
  mode : Mode
  readable : Bool
  head : H.Commit
  window : List H.Commit
  window_nodup : window.Nodup
  window_reachable : ∀ c ∈ window, H.Reaches head c ∧ ¬H.IsMerge c
  host : Nat → Probe → Reply

variable {H : History}

/-- The prior state that `run_cochange` passes to `mine`. -/
def Call.prior (call : Call H) (sidecar : Option CochangeState) : Option CochangeState :=
  if call.mode = .incremental ∧ call.readable = true then loadState sidecar else none

/-- What a call asks and is answered. -/
def Call.record (call : Call H) (sidecar : Option CochangeState) : List (Probe × Reply) :=
  ((mine call.mode (call.prior sidecar)).exec call.host 0).2

/-- The state that a call saved. -/
def savedState (record : List (Probe × Reply)) : Option CochangeState :=
  record.findSome? fun e =>
    match e with
    | (.saveState state, .saved) => some state
    | _ => none

/-- How a state was mined: with which HEAD, prefix and log, and from which state. -/
structure MinedFrom (mode : Mode) (prior : Option CochangeState) (record : List (Probe × Reply))
    (state start : CochangeState) (args : List Str) (headReply prefixReply logReply : Reply) :
    Prop where
  head : (.gitHead, headReply) ∈ record
  showPrefix : (.showPrefix, prefixReply) ∈ record
  log : (.log args, logReply) ∈ record
  only_log : ∀ other reply, (.log other, reply) ∈ record → other = args
  origin : (start = CochangeState.new ∧ args = windowArgs) ∨
    (mode = .incremental ∧ prior = some start ∧ args = rangeArgs start.lastSha)
  state_eq : ∃ head, headOf (outputOf headReply) = some head ∧
    state = { accumulate start (readCommitFiles (outputOf logReply)
      (((outputOf prefixReply).map Indexer.trim).getD [])) with lastSha := head }

theorem always_gitOutput {probe : Probe} {post : Option Str → List (Probe × Reply) → Prop} :
    (gitOutput probe).Always post ↔ ∀ reply, post (outputOf reply) [(probe, reply)] := Iff.rfl

theorem mem_of_savedState {record : List (Probe × Reply)} {state : CochangeState}
    (h : savedState record = some state) : (.saveState state, .saved) ∈ record := by
  obtain ⟨e, he, hstate⟩ := List.exists_of_findSome?_eq_some h
  split at hstate
  · cases hstate
    exact he
  · cases hstate

/-- The start of a mining is the empty state with the window, or the prior state with the
range from its sha. -/
theorem startOf_spec (mode : Mode) (prior : Option CochangeState) :
    (startOf mode prior).Always fun start record =>
      (∀ e ∈ record, ∃ object, e.1 = .catFile object) ∧
      ((start.1 = CochangeState.new ∧ start.2.1 = windowArgs) ∨
        (mode = .incremental ∧ prior = some start.1 ∧ start.2.1 = rangeArgs start.1.lastSha)) := by
  cases mode with
  | full => exact ⟨by simp, .inl ⟨rfl, rfl⟩⟩
  | incremental =>
      cases prior with
      | none => exact ⟨by simp, .inl ⟨rfl, rfl⟩⟩
      | some p =>
          unfold startOf
          dsimp only
          split
          · rw [Asks.always_bind, gitKnown]
            split
            · rw [Asks.always_bind, always_gitOutput]
              intro reply
              rw [Asks.always_pure]
              split
              · exact ⟨by simp, .inr ⟨rfl, rfl, rfl⟩⟩
              · exact ⟨by simp, .inl ⟨rfl, rfl⟩⟩
            · exact ⟨by simp, .inl ⟨rfl, rfl⟩⟩
          · exact ⟨by simp, .inl ⟨rfl, rfl⟩⟩

/-- The record of a mining that got to its log. -/
def recordOf (headReply prefixReply : Reply) (probed : List (Probe × Reply)) (args : List Str)
    (logReply : Reply) (rest : List (Probe × Reply)) : List (Probe × Reply) :=
  (.gitHead, headReply) :: (.showPrefix, prefixReply) :: (probed ++ (.log args, logReply) :: rest)

/-- The questions behind the log: none of them is another log, and only the state of the
mining is saved. -/
structure Concludes (state : CochangeState) (rest : List (Probe × Reply)) : Prop where
  no_log : ∀ args reply, (.log args, reply) ∉ rest
  saves : ∀ other reply, (.saveState other, reply) ∈ rest → other = state

theorem minedFrom_of_record {mode : Mode} {prior : Option CochangeState}
    {start : CochangeState × List Str × String} {headReply prefixReply logReply : Reply}
    {probed rest : List (Probe × Reply)} {head : Str} {state saved : CochangeState}
    (hprobed : ∀ e ∈ probed, ∃ object, e.1 = .catFile object)
    (horigin : (start.1 = CochangeState.new ∧ start.2.1 = windowArgs) ∨
      (mode = .incremental ∧ prior = some start.1 ∧ start.2.1 = rangeArgs start.1.lastSha))
    (hhead : headOf (outputOf headReply) = some head)
    (hstate : state = { accumulate start.1 (readCommitFiles (outputOf logReply)
      (((outputOf prefixReply).map Indexer.trim).getD [])) with lastSha := head })
    (hrest : Concludes state rest)
    (hsaved : savedState (recordOf headReply prefixReply probed start.2.1 logReply rest) =
      some saved) :
    MinedFrom mode prior (recordOf headReply prefixReply probed start.2.1 logReply rest) saved
      start.1 start.2.1 headReply prefixReply logReply := by
  have hmem := mem_of_savedState hsaved
  have heq : saved = state := by
    simp only [recordOf, List.mem_cons, List.mem_append, Prod.mk.injEq, reduceCtorEq, false_and,
      false_or] at hmem
    rcases hmem with hmem | hmem
    · obtain ⟨object, hobject⟩ := hprobed _ hmem
      cases hobject
    · exact hrest.saves _ _ hmem
  refine ⟨by simp [recordOf], by simp [recordOf], by simp [recordOf], ?_, horigin,
    head, hhead, heq.trans hstate⟩
  intro other reply hlog
  simp only [recordOf, List.mem_cons, List.mem_append, Prod.mk.injEq, reduceCtorEq, false_and,
    false_or] at hlog
  rcases hlog with hlog | ⟨hlog, -⟩ | hlog
  · obtain ⟨object, hobject⟩ := hprobed _ hlog
    cases hobject
  · exact Probe.log.inj hlog
  · exact absurd hlog (hrest.no_log _ _)

/-- A state that a mining saved was mined from its start and its log. -/
theorem mine_spec (mode : Mode) (prior : Option CochangeState) :
    (mine mode prior).Always fun _ record => ∀ state, savedState record = some state →
      ∃ start args headReply prefixReply logReply,
        MinedFrom mode prior record state start args headReply prefixReply logReply := by
  rw [mine, Asks.always_bind, always_gitOutput]
  intro headReply
  cases hhead : headOf (outputOf headReply) with
  | none => exact fun state h => by simpa using mem_of_savedState h
  | some head =>
      dsimp only
      rw [Asks.always_bind, always_gitOutput]
      intro prefixReply
      rw [Asks.always_bind]
      refine (startOf_spec mode prior).mono fun start probed ⟨hprobed, horigin⟩ => ?_
      rw [Asks.always_bind, always_gitOutput]
      intro logReply
      rw [Asks.always_bind, Asks.always_question]
      intro edgesReply
      have conclude : ∀ rest, Concludes _ rest → ∀ saved,
          savedState (recordOf headReply prefixReply probed start.2.1 logReply rest) = some saved →
          ∃ start args headReply' prefixReply' logReply',
            MinedFrom mode prior (recordOf headReply prefixReply probed _ logReply rest) saved
              start args headReply' prefixReply' logReply' :=
        fun rest hrest saved hsaved => ⟨start.1, start.2.1, headReply, prefixReply, logReply,
          minedFrom_of_record hprobed horigin hhead rfl hrest hsaved⟩
      cases edgesReply with
      | edges written =>
          dsimp only
          rw [Asks.always_bind, Asks.always_question]
          intro saveReply
          cases saveReply <;> exact conclude _ ⟨by simp, by simp⟩
      | failed error => exact conclude _ ⟨by simp, by simp⟩
      | output stdout => exact conclude _ ⟨by simp, by simp⟩
      | saved => exact conclude _ ⟨by simp, by simp⟩

end AutomatisedPipeline.Cochange

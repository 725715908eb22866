import AutomatisedPipeline.Cochange.Mine
import AutomatisedPipeline.Logic.Run

/-!
What mining has counted after any number of calls.

`Mined` remembers the call that mined the window and the call that saved last.
`mineStep` is one call, from the state the calls before it left. Where git tells the
truth, prefix and log do not fail and HEAD only moves on from the mined sha, the saved
state counts each commit of the window, and each one that HEAD gained since, once
(`counts_each_commit_once`).
-/

namespace AutomatisedPipeline.Cochange

open Text

variable {H : History}

/-! ### Calls one after another -/

/-- What calls have left: the saved state, the call that mined the window and the call
that saved last. -/
structure Mined (H : History) where
  state : CochangeState
  full : Call H
  last : Call H

/-- The call asked for the log of the window. -/
def minedWindow (record : List (Probe × Reply)) : Bool :=
  record.any fun e => decide (e.1 = .log windowArgs)

/-- What the sidecar holds after calls. -/
def sidecarOf (mined : Option (Mined H)) : Option CochangeState := mined.map Mined.state

/-- One more call. -/
def mineStep (mined : Option (Mined H)) (call : Call H) : Option (Mined H) :=
  match savedState (call.record (sidecarOf mined)), mined with
  | none, mined => mined
  | some state, none => some { state := state, full := call, last := call }
  | some state, some before =>
      let full := if minedWindow (call.record (sidecarOf mined)) then call else before.full
      some { state := state, full := full, last := call }

/-- The replies of git that are not failures are true. -/
structure Truthful (pathPrefix : Str) (call : Call H) (record : List (Probe × Reply)) : Prop where
  head : ∀ out, (.gitHead, .output out) ∈ record → out = H.sha call.head ++ ['\n']
  showPrefix : ∀ out, (.showPrefix, .output out) ∈ record → Indexer.trim out = pathPrefix
  window : ∀ out, (.log windowArgs, .output out) ∈ record → H.LogText call.window out
  range : ∀ base out, (.log (rangeArgs (H.sha base)), .output out) ∈ record →
    ∃ gained : List H.Commit, gained.Nodup ∧ H.LogText gained out ∧
      ∀ c, c ∈ gained ↔ H.Reaches call.head c ∧ ¬H.Reaches base c ∧ ¬H.IsMerge c

/-- Prefix and log did not fail, and a resumed call has the mined sha behind its HEAD. -/
structure Undisturbed (mined : Option (Mined H)) (call : Call H) (record : List (Probe × Reply)) :
    Prop where
  showPrefix : ∀ reply, (.showPrefix, reply) ∈ record → ∃ out, reply = .output out
  log : ∀ args reply, (.log args, reply) ∈ record → ∃ out, reply = .output out
  ancestor : ∀ before, mined = some before →
    ∀ reply, (.log (rangeArgs (H.sha before.last.head)), reply) ∈ record →
      H.Reaches call.head before.last.head

/-- One more call, of the kind that keeps the count, or one that saves nothing. -/
def Resumes (pathPrefix : Str) (mined mined' : Option (Mined H)) : Prop :=
  ∃ call : Call H, mined' = mineStep mined call ∧
    ((savedState (call.record (sidecarOf mined))).isSome = true →
      Truthful pathPrefix call (call.record (sidecarOf mined)) ∧
        Undisturbed mined call (call.record (sidecarOf mined)))

/-- The state with another sha. -/
def CochangeState.minedTo (sha : Str) (state : CochangeState) : CochangeState :=
  { state with lastSha := sha }

/-- The commits that a state has counted: those of the window, and what HEAD gained
since. -/
structure Accounts (pathPrefix : Str) (mined : Mined H) (counted : List H.Commit) : Prop where
  nodup : counted.Nodup
  mem_iff : ∀ c, c ∈ counted ↔ c ∈ mined.full.window ∨
    (H.Reaches mined.last.head c ∧ ¬H.Reaches mined.full.head c ∧ ¬H.IsMerge c)
  grown : H.Reaches mined.last.head mined.full.head
  state_eq : mined.state = (accumulate CochangeState.new
    (counted.filterMap (H.commitFiles pathPrefix))).minedTo (H.sha mined.last.head)

/-! ### Facts about the questions -/

theorem windowArgs_ne_rangeArgs (sha : Str) : windowArgs ≠ rangeArgs sha := by
  intro h
  simpa [windowArgs, rangeArgs, logArgs] using congrArg List.length h

theorem rangeArgs_injective {c c' : H.Commit}
    (h : rangeArgs (H.sha c) = rangeArgs (H.sha c')) : c = c' := by
  have hlast := congrArg List.getLast? h
  simp only [rangeArgs, logArgs, List.getLast?_append, List.getLast?_singleton, Option.some_or,
    Option.some.injEq, List.append_cancel_right_eq] at hlast
  exact H.sha_injective hlast

/-- The head of a repository is read off the output of its command. -/
theorem headOf_sha (c : H.Commit) : headOf (some (H.sha c ++ ['\n'])) = some (H.sha c) := by
  have hblank : ∀ ch ∈ H.sha c, isWhitespace ch = false := fun ch hch =>
    Lexical.not_isWhitespace_of_word (by simp [Lexical.isWordChar, (H.sha_hex c).2 ch hch])
  have htrim : Indexer.trim (H.sha c ++ ['\n']) = H.sha c :=
    Indexer.trimMatches_append (H.sha_hex c).1 (fun ch hch => hblank ch (List.mem_of_head? hch))
      (fun ch hch => hblank ch (List.mem_of_getLast? hch)) (by simp; decide)
  rw [headOf, Option.map_some, htrim]
  simp [(H.sha_hex c).1]

/-- Mining counts onto a state whatever its last sha is. -/
theorem accumulate_minedTo (state : CochangeState) (sha : Str) (commits : List CommitFiles) :
    accumulate (state.minedTo sha) commits = (accumulate state commits).minedTo sha := by
  have hfiles : ∀ (files : List Str) (state : CochangeState),
      files.foldl CochangeState.bumpFile (state.minedTo sha) =
        (files.foldl CochangeState.bumpFile state).minedTo sha :=
    fun files state => List.foldl_hom (CochangeState.minedTo sha) fun _ _ => rfl
  have hpairs : ∀ (ts : Int) (keys : List Str) (state : CochangeState),
      keys.foldl (CochangeState.bumpPair ts) (state.minedTo sha) =
        (keys.foldl (CochangeState.bumpPair ts) state).minedTo sha :=
    fun ts keys state => List.foldl_hom (CochangeState.minedTo sha) fun _ _ => rfl
  apply List.foldl_hom (CochangeState.minedTo sha)
  intro state c
  simp only [accumulateCommit, hfiles, hpairs]
  split_ifs <;> rfl

/-! ### One call -/

section Step

variable {pathPrefix : Str} {mined : Option (Mined H)} {call : Call H} {state : CochangeState}

/-- The prior state of a call is what the sidecar holds. -/
theorem prior_eq_some {before : CochangeState} (h : call.prior (sidecarOf mined) = some before) :
    ∃ m, mined = some m ∧ m.state = before := by
  rw [Call.prior] at h
  split at h
  · obtain ⟨hsidecar, -⟩ := Option.filter_eq_some_iff.mp h
    exact Option.map_eq_some_iff.mp hsidecar
  · cases h

theorem minedFrom_of_savedState
    (hsaved : savedState (call.record (sidecarOf mined)) = some state) :
    ∃ start args headReply prefixReply logReply,
      MinedFrom call.mode (call.prior (sidecarOf mined)) (call.record (sidecarOf mined)) state
        start args headReply prefixReply logReply :=
  (mine_spec call.mode (call.prior (sidecarOf mined))).exec call.host 0 state hsaved

/-- Where prefix and log are told and true, a call that saved counted the commits of its
log onto its start, and recorded its HEAD. -/
theorem state_of_minedFrom {record : List (Probe × Reply)} {prior : Option CochangeState}
    {start : CochangeState} {args : List Str} {headReply prefixReply logReply : Reply}
    (hfrom : MinedFrom call.mode prior record state start args headReply prefixReply logReply)
    (htrue : Truthful pathPrefix call record) (hcalm : Undisturbed mined call record) :
    ∃ out, (.log args, .output out) ∈ record ∧
      state = (accumulate start (readCommitFiles (some out) pathPrefix)).minedTo
        (H.sha call.head) := by
  obtain ⟨out, rfl⟩ := hcalm.log _ _ hfrom.log
  obtain ⟨shown, rfl⟩ := hcalm.showPrefix _ hfrom.showPrefix
  obtain ⟨head, hhead, hstate⟩ := hfrom.state_eq
  have hsha : head = H.sha call.head := by
    cases headReply with
    | output told =>
        rw [outputOf, htrue.head told hfrom.head, headOf_sha] at hhead
        exact (Option.some.inj hhead).symm
    | failed error => cases hhead
    | edges written => cases hhead
    | saved => cases hhead
  refine ⟨out, hfrom.log, ?_⟩
  rw [hstate, hsha, outputOf, outputOf, Option.map_some, Option.getD_some,
    htrue.showPrefix _ hfrom.showPrefix, CochangeState.minedTo]

theorem minedWindow_iff {record : List (Probe × Reply)} {prior : Option CochangeState}
    {start : CochangeState} {args : List Str} {headReply prefixReply logReply : Reply}
    (hfrom : MinedFrom call.mode prior record state start args headReply prefixReply logReply) :
    minedWindow record = true ↔ args = windowArgs := by
  rw [minedWindow, List.any_eq_true]
  constructor
  · rintro ⟨⟨probe, reply⟩, hmem, hprobe⟩
    obtain rfl : probe = .log windowArgs := of_decide_eq_true hprobe
    exact (hfrom.only_log _ _ hmem).symm
  · rintro rfl
    exact ⟨_, hfrom.log, decide_eq_true rfl⟩

/-- A call that mines the window counts its commits. -/
theorem accounts_window {out : Str} (hlog : H.LogText call.window out) :
    Accounts pathPrefix ⟨(accumulate CochangeState.new
      (readCommitFiles (some out) pathPrefix)).minedTo (H.sha call.head), call, call⟩
      call.window where
  nodup := call.window_nodup
  mem_iff c := by
    constructor
    · exact .inl
    · rintro (hmem | ⟨hreach, hnot, -⟩)
      · exact hmem
      · exact absurd hreach hnot
  grown := .refl
  state_eq := by rw [readCommitFiles_logText pathPrefix hlog]

/-- A resumed call counts what its HEAD gained on top of what was counted. -/
theorem accounts_range {before : Mined H} {counted gained : List H.Commit} {out : Str}
    (hbefore : Accounts pathPrefix before counted) (hancestor : H.Reaches call.head before.last.head)
    (hnodup : gained.Nodup) (hlog : H.LogText gained out)
    (hgained : ∀ c, c ∈ gained ↔
      H.Reaches call.head c ∧ ¬H.Reaches before.last.head c ∧ ¬H.IsMerge c) :
    Accounts pathPrefix ⟨(accumulate before.state
      (readCommitFiles (some out) pathPrefix)).minedTo (H.sha call.head), before.full, call⟩
      (counted ++ gained) where
  nodup := by
    rw [List.nodup_append]
    refine ⟨hbefore.nodup, hnodup, ?_⟩
    rintro c hc _ hnew rfl
    apply ((hgained c).mp hnew).2.1
    rcases (hbefore.mem_iff c).mp hc with hwindow | ⟨hreach, -⟩
    · exact hbefore.grown.trans (before.full.window_reachable c hwindow).1
    · exact hreach
  mem_iff c := by
    rw [List.mem_append, hbefore.mem_iff, hgained]
    constructor
    · rintro ((hwindow | ⟨hreach, hnot, hmerge⟩) | ⟨hreach, hnot, hmerge⟩)
      · exact .inl hwindow
      · exact .inr ⟨hancestor.trans hreach, hnot, hmerge⟩
      · exact .inr ⟨hreach, fun hfull => hnot (hbefore.grown.trans hfull), hmerge⟩
    · rintro (hwindow | ⟨hreach, hnot, hmerge⟩)
      · exact .inl (.inl hwindow)
      · by_cases hlast : H.Reaches before.last.head c
        · exact .inl (.inr ⟨hlast, hnot, hmerge⟩)
        · exact .inr ⟨hreach, hlast, hmerge⟩
  grown := hancestor.trans hbefore.grown
  state_eq := by
    rw [readCommitFiles_logText pathPrefix hlog, hbefore.state_eq, accumulate_minedTo,
      List.filterMap_append, accumulate_append]
    rfl

/-- One more call keeps the account. -/
theorem accounts_mineStep {after : Mined H} (hbefore : ∀ before, mined = some before →
      ∃ counted, Accounts pathPrefix before counted)
    (hresumes : Resumes pathPrefix mined (some after)) :
    ∃ counted, Accounts pathPrefix after counted := by
  obtain ⟨call, hafter, hsound⟩ := hresumes
  cases hsaved : savedState (call.record (sidecarOf mined)) with
  | none =>
      apply hbefore
      simpa [mineStep, hsaved] using hafter.symm
  | some state =>
      obtain ⟨htrue, hcalm⟩ := hsound (by rw [hsaved]; rfl)
      obtain ⟨start, args, headReply, prefixReply, logReply, hfrom⟩ := minedFrom_of_savedState hsaved
      obtain ⟨out, hout, hstate⟩ := state_of_minedFrom hfrom htrue hcalm
      rcases hfrom.origin with ⟨rfl, rfl⟩ | ⟨-, hprior, rfl⟩
      · have hwindow := (minedWindow_iff hfrom).mpr rfl
        have heq : after = { state := state, full := call, last := call } := by
          cases mined with
          | none => simpa [mineStep, hsaved] using hafter
          | some before => simpa [mineStep, hsaved, hwindow] using hafter
        rw [heq, hstate]
        exact ⟨_, accounts_window (htrue.window out hout)⟩
      · obtain ⟨before, rfl, rfl⟩ := prior_eq_some hprior
        obtain ⟨counted, hcounted⟩ := hbefore before rfl
        have hsha : before.state.lastSha = H.sha before.last.head := by rw [hcounted.state_eq]; rfl
        have hwindow : minedWindow (call.record (sidecarOf (some before))) = false := by
          rw [← Bool.not_eq_true, minedWindow_iff hfrom]
          exact fun h => windowArgs_ne_rangeArgs _ h.symm
        rw [hsha] at hout
        have heq : after = { state := state, full := before.full, last := call } := by
          simpa [mineStep, hsaved, hwindow] using hafter
        obtain ⟨gained, hnodup, hlog, hgained⟩ := htrue.range _ out hout
        have hancestor := hcalm.ancestor before rfl _ hout
        rw [heq, hstate]
        exact ⟨_, accounts_range hcounted hancestor hnodup hlog hgained⟩

/-- What is counted is behind the recorded HEAD. -/
theorem Accounts.reaches {mined : Mined H} {counted : List H.Commit}
    (h : Accounts pathPrefix mined counted) {c : H.Commit} (hc : c ∈ counted) :
    H.Reaches mined.last.head c ∧ ¬H.IsMerge c := by
  rcases (h.mem_iff c).mp hc with hwindow | ⟨hreach, -, hmerge⟩
  · obtain ⟨hreach, hmerge⟩ := mined.full.window_reachable c hwindow
    exact ⟨h.grown.trans hreach, hmerge⟩
  · exact ⟨hreach, hmerge⟩

end Step

/-! ### Every run -/

/-- In every run whose calls keep the count, the saved counts are those of the commits of
the mined window and of what HEAD gained since, each of them once, and the recorded sha is
the HEAD they are all behind. -/
theorem counts_each_commit_once (pathPrefix : Str) (mined : Mined H)
    (h : Run.Reachable (· = none) (Resumes pathPrefix) (some mined)) :
    mined.state.lastSha = H.sha mined.last.head ∧
      ∃ counted : List H.Commit, counted.Nodup ∧
        (∀ c, c ∈ counted ↔ c ∈ mined.full.window ∨
          (H.Reaches mined.last.head c ∧ ¬H.Reaches mined.full.head c ∧ ¬H.IsMerge c)) ∧
        (∀ c ∈ counted, H.Reaches mined.last.head c ∧ ¬H.IsMerge c) ∧
        (∀ file, mined.state.fileCount file =
          ((counted.filterMap (H.commitFiles pathPrefix)).map (·.touches file)).sum) ∧
        ∀ key, mined.state.pairCount key =
          ((counted.filterMap (H.commitFiles pathPrefix)).map (·.couples key)).sum := by
  have hinv : ∀ reached : Option (Mined H), Run.Reachable (· = none) (Resumes pathPrefix) reached →
      ∀ before, reached = some before → ∃ counted, Accounts pathPrefix before counted := by
    intro reached hreached
    apply hreached.invariant
    · rintro _ rfl before hbefore
      cases hbefore
    · rintro before _ hbefore hstep after rfl
      exact accounts_mineStep hbefore hstep
  obtain ⟨counted, hcounted⟩ := hinv _ h mined rfl
  refine ⟨by rw [hcounted.state_eq]; rfl, counted, hcounted.nodup, hcounted.mem_iff,
    fun c hc => hcounted.reaches hc, fun file => ?_, fun key => ?_⟩
  · have hsum := fileCount_accumulate CochangeState.new
      (counted.filterMap (H.commitFiles pathPrefix)) file
    rw [hcounted.state_eq]
    exact hsum.trans (Int.zero_add _)
  · have hsum := pairCount_accumulate CochangeState.new
      (counted.filterMap (H.commitFiles pathPrefix)) key
    rw [hcounted.state_eq]
    exact hsum.trans (Int.zero_add _)

/-! ### A history without branches -/

/-- Commits one after another, the first one with two files and the others with one. -/
def chain : History where
  Commit := Nat
  parents n := if n = 0 then [] else [n - 1]
  sha n := List.replicate (n + 1) 'a'
  authorTime _ := "7".toList
  paths n := if n = 0 then ["x.rs".toList, "y.rs".toList] else ["x.rs".toList]
  sha_injective := fun n m h => by simpa using congrArg List.length h
  sha_hex _ := ⟨by simp, fun _ hch => by rw [List.eq_of_mem_replicate hch]; rfl⟩
  authorTime_plain _ := by decide +kernel
  paths_plain n := by
    by_cases h : n = 0
    · rw [if_pos h]
      decide +kernel
    · rw [if_neg h]
      decide +kernel

theorem chain_reaches {n m : Nat} : chain.Reaches n m ↔ m ≤ n := by
  constructor
  · intro h
    induction h with
    | refl => exact Nat.le_refl _
    | @tail a b _ hstep ih =>
        have hparent : b ∈ if a = 0 then [] else [a - 1] := hstep
        split at hparent
        · cases hparent
        · have := List.mem_singleton.mp hparent
          omega
  · intro h
    induction n, h using Nat.le_induction with
    | base => exact .refl
    | succ n _ ih => exact .head (List.mem_singleton_self n) ih

theorem chain_not_isMerge (n : Nat) : ¬chain.IsMerge n := by
  simp only [History.IsMerge, chain]
  split <;> simp

/-- The log of commits of the chain. -/
def chainLog (commits : List Nat) : Str :=
  commits.flatMap fun n => recordSeparator :: (chain.entry n ++ ['\n'])

theorem logText_chainLog (commits : List Nat) : chain.LogText commits (chainLog commits) := by
  induction commits with
  | nil => exact .nil
  | cons n commits ih => exact .cons 1 ih

/-- A call on the chain, whose git shows `shown` in every log. -/
def chainCall (mode : Mode) (head : Nat) (window : List Nat) (hnodup : window.Nodup)
    (hwindow : ∀ n ∈ window, n ≤ head) (shown : List Nat) : Call chain where
  mode := mode
  readable := true
  head := head
  window := window
  window_nodup := hnodup
  window_reachable n hn := ⟨chain_reaches.mpr (hwindow n hn), chain_not_isMerge n⟩
  host _ probe :=
    match probe with
    | .gitHead => .output (List.replicate (head + 1) 'a' ++ ['\n'])
    | .showPrefix => .output ['\n']
    | .catFile _ => .output []
    | .log _ => .output (chainLog shown)
    | .rewriteEdges _ => .edges 0
    | .saveState _ => .saved

/-- The state that a full mining saves. -/
def firstState (shown : List Nat) (head : Nat) : CochangeState :=
  (accumulate CochangeState.new (shown.filterMap (chain.commitFiles []))).minedTo (chain.sha head)

/-- A full mining at the first commit, and a resumed one a commit later. -/
def fullCall : Call chain := chainCall .full 0 [0] (by decide) (by decide) [0]

def resumedCall : Call chain := chainCall .incremental 1 [1, 0] (by decide) (by decide) [1]

/-- A full mining at the second commit, when the first one is older than the window. -/
def windowCall : Call chain := chainCall .full 1 [1] (by decide) (by decide) [1]

/-- What a call on the chain is answered, behind which it saves `state`. -/
def chainRecord (head : Nat) (probed : List (Probe × Reply)) (args : List Str) (shown : List Nat)
    (state : CochangeState) : List (Probe × Reply) :=
  recordOf (.output (List.replicate (head + 1) 'a' ++ ['\n'])) (.output ['\n']) probed args
    (.output (chainLog shown)) [(.rewriteEdges state, .edges 0), (.saveState state, .saved)]

/-- What git says in such a call. -/
theorem answers_of_chainRecord {head : Nat} {probed : List (Probe × Reply)} {args : List Str}
    {shown : List Nat} {state : CochangeState} {probe : Probe} {reply : Reply}
    (hprobed : ∀ probe reply, (probe, reply) ∈ probed → ∃ object, probe = .catFile object)
    (hmem : (probe, reply) ∈ chainRecord head probed args shown state) :
    (probe = .gitHead → reply = .output (chain.sha head ++ ['\n'])) ∧
      (probe = .showPrefix → reply = .output ['\n']) ∧
        ∀ other, probe = .log other → other = args ∧ reply = .output (chainLog shown) := by
  simp only [chainRecord, recordOf, List.mem_cons, List.mem_append, Prod.mk.injEq,
    List.not_mem_nil, or_false] at hmem
  rcases hmem with ⟨rfl, rfl⟩ | ⟨rfl, rfl⟩ | hmem | ⟨rfl, rfl⟩ | ⟨rfl, -⟩ | ⟨rfl, -⟩
  · exact ⟨fun _ => rfl, by simp, by simp⟩
  · exact ⟨by simp, fun _ => rfl, by simp⟩
  · obtain ⟨object, rfl⟩ := hprobed _ _ hmem
    exact ⟨by simp, by simp, by simp⟩
  · exact ⟨by simp, by simp, fun other h => ⟨(Probe.log.inj h).symm, rfl⟩⟩
  · exact ⟨by simp, by simp, by simp⟩
  · exact ⟨by simp, by simp, by simp⟩

/-- A call on the chain keeps the count: git shows the window, or what HEAD gained. -/
theorem sound_of_chainRecord {call : Call chain} {mined : Option (Mined chain)} {head : Nat}
    {probed : List (Probe × Reply)} {args : List Str} {shown : List Nat} {state : CochangeState}
    (hhead : call.head = head)
    (hprobed : ∀ probe reply, (probe, reply) ∈ probed → ∃ object, probe = .catFile object)
    (hargs : (args = windowArgs ∧ shown = call.window) ∨
      ∃ base : Nat, args = rangeArgs (chain.sha base) ∧ base ≤ head ∧
        shown.Nodup ∧ ∀ n, n ∈ shown ↔ n ≤ head ∧ ¬n ≤ base) :
    Truthful [] call (chainRecord head probed args shown state) ∧
      Undisturbed mined call (chainRecord head probed args shown state) := by
  have hlog : ∀ other reply, (.log other, reply) ∈ chainRecord head probed args shown state →
      other = args ∧ reply = .output (chainLog shown) :=
    fun other reply hmem => (answers_of_chainRecord hprobed hmem).2.2 other rfl
  have hshow : ∀ reply, (.showPrefix, reply) ∈ chainRecord head probed args shown state →
      reply = .output ['\n'] :=
    fun reply hmem => (answers_of_chainRecord hprobed hmem).2.1 rfl
  subst hhead
  constructor
  · refine ⟨fun out hout => ?_, fun out hout => ?_, fun out hout => ?_, fun base out hout => ?_⟩
    · exact Reply.output.inj ((answers_of_chainRecord hprobed hout).1 rfl)
    · rw [Reply.output.inj (hshow _ hout)]
      decide
    · obtain ⟨rfl, hreply⟩ := hlog _ _ hout
      rw [Reply.output.inj hreply]
      rcases hargs with ⟨-, rfl⟩ | ⟨base, hbase, -⟩
      · exact logText_chainLog _
      · exact absurd hbase (windowArgs_ne_rangeArgs _)
    · obtain ⟨hbase, hreply⟩ := hlog _ _ hout
      rw [Reply.output.inj hreply]
      rcases hargs with ⟨hwindow, -⟩ | ⟨base', hbase', -, hnodup, hshown⟩
      · exact absurd (hwindow.symm.trans hbase.symm) (windowArgs_ne_rangeArgs _)
      · obtain rfl := rangeArgs_injective (hbase.trans hbase')
        refine ⟨shown, hnodup, logText_chainLog shown, fun c => (hshown c).trans ?_⟩
        have hreach := and_congr (@chain_reaches call.head c) (not_congr (@chain_reaches base c))
        exact ⟨fun h => ⟨(hreach.mpr h).1, (hreach.mpr h).2, chain_not_isMerge c⟩,
          fun h => hreach.mp ⟨h.1, h.2.1⟩⟩
  · refine ⟨fun reply hmem => ⟨_, hshow _ hmem⟩,
      fun other reply hmem => ⟨_, (hlog other reply hmem).2⟩, fun before hbefore reply hmem => ?_⟩
    obtain ⟨hbase, -⟩ := hlog _ _ hmem
    rcases hargs with ⟨hwindow, -⟩ | ⟨base', hbase', hle, -⟩
    · exact absurd (hwindow.symm.trans hbase.symm) (windowArgs_ne_rangeArgs _)
    · obtain heq := rangeArgs_injective (hbase.trans hbase')
      rw [heq]
      exact chain_reaches.mpr hle

/-! ### Runs on the chain -/

theorem fullCall_record :
    fullCall.record none = chainRecord 0 [] windowArgs [0] (firstState [0] 0) := by
  decide +kernel

theorem windowCall_record :
    windowCall.record none = chainRecord 1 [] windowArgs [1] (firstState [1] 1) := by
  decide +kernel

theorem resumedCall_record :
    resumedCall.record (some (firstState [0] 0)) =
      chainRecord 1 [(.catFile "a^\x7bcommit\x7d".toList, .output [])] (rangeArgs ['a']) [1]
        (firstState [0, 1] 1) := by
  decide +kernel

/-- The chain after a full mining and a resumed one. -/
def resumedMined : Mined chain :=
  { state := firstState [0, 1] 1, full := fullCall, last := resumedCall }

theorem reachable_resumedMined :
    Run.Reachable (· = none) (Resumes []) (some resumedMined) := by
  have hfull : mineStep none fullCall = some ⟨firstState [0] 0, fullCall, fullCall⟩ := by
    simp only [mineStep, sidecarOf, Option.map_none, fullCall_record]
    rfl
  have hresumed : mineStep (some ⟨firstState [0] 0, fullCall, fullCall⟩) resumedCall =
      some resumedMined := by
    simp only [mineStep, sidecarOf, Option.map_some, resumedCall_record]
    rfl
  refine .step (.step (.start rfl) ⟨fullCall, hfull.symm, fun _ => ?_⟩)
    ⟨resumedCall, hresumed.symm, fun _ => ?_⟩
  · rw [sidecarOf, Option.map_none, fullCall_record]
    exact sound_of_chainRecord rfl (by simp) (.inl ⟨rfl, rfl⟩)
  · rw [sidecarOf, Option.map_some, resumedCall_record]
    refine sound_of_chainRecord rfl ?_ (.inr ⟨0, rfl, by decide, by decide, fun n => ?_⟩)
    · intro probe reply hmem
      exact ⟨_, (Prod.mk.inj (List.mem_singleton.mp hmem)).1⟩
    · rw [List.mem_singleton]
      omega

/-- A full mining at the first commit and a resumed one at the second. -/
theorem counts_each_commit_once_resumed :
    resumedMined.state.lastSha = chain.sha resumedMined.last.head ∧
      ∃ counted : List chain.Commit, counted.Nodup ∧
        (∀ c, c ∈ counted ↔ c ∈ resumedMined.full.window ∨
          (chain.Reaches resumedMined.last.head c ∧ ¬chain.Reaches resumedMined.full.head c ∧
            ¬chain.IsMerge c)) ∧
        (∀ c ∈ counted, chain.Reaches resumedMined.last.head c ∧ ¬chain.IsMerge c) ∧
        (∀ file, resumedMined.state.fileCount file =
          ((counted.filterMap (chain.commitFiles [])).map (·.touches file)).sum) ∧
        ∀ key, resumedMined.state.pairCount key =
          ((counted.filterMap (chain.commitFiles [])).map (·.couples key)).sum :=
  counts_each_commit_once [] resumedMined reachable_resumedMined

/-- A full mining leaves out a commit that is older than its window: nothing counts its
second file. -/
theorem window_leaves_a_commit_out :
    ¬∀ mined : Mined chain, Run.Reachable (· = none) (Resumes []) (some mined) →
      ∃ counted : List chain.Commit, counted.Nodup ∧
        (∀ c, c ∈ counted ↔ chain.Reaches mined.last.head c ∧ ¬chain.IsMerge c) ∧
          ∀ file, mined.state.fileCount file =
            ((counted.filterMap (chain.commitFiles [])).map (·.touches file)).sum := by
  intro h
  have hwindow : mineStep none windowCall = some ⟨firstState [1] 1, windowCall, windowCall⟩ := by
    simp only [mineStep, sidecarOf, Option.map_none, windowCall_record]
    rfl
  obtain ⟨counted, -, hmem, hcount⟩ := h _ (.step (.start rfl)
    ⟨windowCall, hwindow.symm, fun _ => by
      rw [sidecarOf, Option.map_none, windowCall_record]
      exact sound_of_chainRecord rfl (by simp) (.inl ⟨rfl, rfl⟩)⟩)
  have hold : Nat.zero ∈ counted :=
    (hmem Nat.zero).mpr ⟨chain_reaches.mpr (Nat.zero_le _), chain_not_isMerge 0⟩
  have hnonneg : ∀ n ∈ (counted.filterMap (chain.commitFiles [])).map
      (·.touches "y.rs".toList), 0 ≤ n := by
    rintro n hn
    obtain ⟨files, -, rfl⟩ := List.mem_map.mp hn
    exact files.touches_nonneg _
  have hfiles : CommitFiles.mk ["x.rs".toList, "y.rs".toList] 7 ∈
      counted.filterMap (chain.commitFiles []) :=
    List.mem_filterMap.mpr ⟨Nat.zero, hold, by decide +kernel⟩
  have hle := List.single_le_sum hnonneg _ (List.mem_map_of_mem hfiles)
  have hzero : (firstState [1] 1).fileCount "y.rs".toList = 0 := by decide +kernel
  have hone : (CommitFiles.mk ["x.rs".toList, "y.rs".toList] 7).touches "y.rs".toList = 1 := by
    decide +kernel
  have hall := hcount "y.rs".toList
  rw [hone, ← hall, hzero] at hle
  omega

end AutomatisedPipeline.Cochange

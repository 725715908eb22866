import AutomatisedPipeline.Logic.Assoc
import AutomatisedPipeline.Text.Basic

/-!
The mining state of `cochange.rs` and `accumulate`, which folds the files of commits
into it.

`fileCount_accumulate` and `pairCount_accumulate` say what the folds count: every
commit adds what it touches, whatever was counted before, so the counts of a list of
commits are sums over the list.
-/

namespace AutomatisedPipeline.Cochange

open Text

/-! ### The source's definitions -/

/-- `COCHANGE_SCHEMA_VERSION`. -/
def cochangeSchemaVersion : Nat := 1

/-- `MAX_FILES_PER_COMMIT`. -/
def maxFilesPerCommit : Nat := 20

/-- `PairAgg`. -/
structure PairAgg where
  count : Int
  lastTs : Int
deriving DecidableEq

/-- `CochangeState`, its two maps as lists of entries with different keys. -/
structure CochangeState where
  schemaVersion : Nat
  lastSha : Str
  fileChanges : List (Str × Int)
  pairs : List (Str × PairAgg)
deriving DecidableEq

/-- `CochangeState::new`. -/
def CochangeState.new : CochangeState :=
  { schemaVersion := cochangeSchemaVersion, lastSha := [], fileChanges := [], pairs := [] }

/-- `CommitFiles`. -/
structure CommitFiles where
  files : List Str
  ts : Int
deriving DecidableEq

/-- `order`. -/
def order (a b : Str) : Str × Str := if a ≤ b then (a, b) else (b, a)

/-- `pair_key`. -/
def pairKey (a b : Str) : Str := a ++ Char.ofNat 0x1f :: b

/-- The keys of the unordered pairs of a list of files, in the order of the two loops of
`accumulate`. -/
def pairKeys : List Str → List Str
  | [] => []
  | file :: files =>
      files.map (fun other => pairKey (order file other).1 (order file other).2) ++ pairKeys files

/-- One more change of `file`. -/
def CochangeState.bumpFile (state : CochangeState) (file : Str) : CochangeState :=
  { state with fileChanges := Assoc.upsert file 0 (· + 1) state.fileChanges }

/-- One more co-change at `ts`. -/
def PairAgg.bump (ts : Int) (agg : PairAgg) : PairAgg :=
  { count := agg.count + 1, lastTs := if agg.lastTs < ts then ts else agg.lastTs }

/-- One more co-change of the pair at `key`. -/
def CochangeState.bumpPair (ts : Int) (state : CochangeState) (key : Str) : CochangeState :=
  { state with pairs := Assoc.upsert key { count := 0, lastTs := 0 } (PairAgg.bump ts) state.pairs }

/-- The loop body of `accumulate`. -/
def accumulateCommit (state : CochangeState) (c : CommitFiles) : CochangeState :=
  if maxFilesPerCommit < c.files.length ∨ c.files.length < 2 then
    if c.files.length = 1 then c.files.foldl CochangeState.bumpFile state else state
  else
    (pairKeys c.files).foldl (CochangeState.bumpPair c.ts)
      (c.files.foldl CochangeState.bumpFile state)

/-- `accumulate`. -/
def accumulate (state : CochangeState) (commits : List CommitFiles) : CochangeState :=
  commits.foldl accumulateCommit state

/-! ### What the folds count -/

/-- The number of counted changes of `file`. -/
def CochangeState.fileCount (state : CochangeState) (file : Str) : Int :=
  (state.fileChanges.lookup file).getD 0

/-- The number of counted co-changes of the pair at `key`. -/
def CochangeState.pairCount (state : CochangeState) (key : Str) : Int :=
  ((state.pairs.lookup key).map PairAgg.count).getD 0

/-- The changes of `file` that a commit counts for. -/
def CommitFiles.touches (c : CommitFiles) (file : Str) : Int :=
  if 1 ≤ c.files.length ∧ c.files.length ≤ maxFilesPerCommit then c.files.count file else 0

/-- The co-changes of the pair at `key` that a commit counts for. -/
def CommitFiles.couples (c : CommitFiles) (key : Str) : Int :=
  if 2 ≤ c.files.length ∧ c.files.length ≤ maxFilesPerCommit then (pairKeys c.files).count key else 0

theorem CommitFiles.touches_nonneg (c : CommitFiles) (file : Str) : 0 ≤ c.touches file := by
  rw [CommitFiles.touches]
  split
  · exact Int.natCast_nonneg _
  · exact Int.le_refl _

theorem fileCount_bumpFile (state : CochangeState) (file other : Str) :
    (state.bumpFile file).fileCount other = state.fileCount other + [file].count other := by
  rw [CochangeState.bumpFile, CochangeState.fileCount, Assoc.lookup_upsert, List.count_singleton]
  by_cases h : other = file
  · subst h
    simp [CochangeState.fileCount]
  · simp [CochangeState.fileCount, h, Ne.symm h]

theorem fileCount_bumpFiles (files : List Str) (state : CochangeState) (other : Str) :
    (files.foldl CochangeState.bumpFile state).fileCount other =
      state.fileCount other + files.count other := by
  induction files generalizing state with
  | nil => simp
  | cons file files ih =>
      have hcount : (file :: files).count other = [file].count other + files.count other := by
        rw [← List.singleton_append, List.count_append]
      rw [List.foldl_cons, ih, fileCount_bumpFile, hcount]
      push_cast
      omega

theorem pairCount_bumpPair (ts : Int) (state : CochangeState) (key other : Str) :
    (state.bumpPair ts key).pairCount other = state.pairCount other + [key].count other := by
  rw [CochangeState.bumpPair, CochangeState.pairCount, Assoc.lookup_upsert, List.count_singleton]
  by_cases h : other = key
  · subst h
    cases hlookup : state.pairs.lookup other with
    | none => simp [CochangeState.pairCount, hlookup, PairAgg.bump]
    | some agg => simp [CochangeState.pairCount, hlookup, PairAgg.bump]
  · simp [CochangeState.pairCount, h, Ne.symm h]

theorem pairCount_bumpPairs (ts : Int) (keys : List Str) (state : CochangeState) (other : Str) :
    (keys.foldl (CochangeState.bumpPair ts) state).pairCount other =
      state.pairCount other + keys.count other := by
  induction keys generalizing state with
  | nil => simp
  | cons key keys ih =>
      have hcount : (key :: keys).count other = [key].count other + keys.count other := by
        rw [← List.singleton_append, List.count_append]
      rw [List.foldl_cons, ih, pairCount_bumpPair, hcount]
      push_cast
      omega

/-- Counting files leaves the pairs, and counting pairs leaves the files. -/
theorem pairs_bumpFiles (files : List Str) (state : CochangeState) :
    (files.foldl CochangeState.bumpFile state).pairs = state.pairs := by
  induction files generalizing state with
  | nil => rfl
  | cons file files ih => rw [List.foldl_cons, ih, CochangeState.bumpFile]

theorem fileChanges_bumpPairs (ts : Int) (keys : List Str) (state : CochangeState) :
    (keys.foldl (CochangeState.bumpPair ts) state).fileChanges = state.fileChanges := by
  induction keys generalizing state with
  | nil => rfl
  | cons key keys ih => rw [List.foldl_cons, ih, CochangeState.bumpPair]

theorem fileCount_accumulateCommit (state : CochangeState) (c : CommitFiles) (file : Str) :
    (accumulateCommit state c).fileCount file = state.fileCount file + c.touches file := by
  rw [accumulateCommit, CommitFiles.touches]
  split
  · rename_i hskip
    split
    · rename_i hone
      rw [fileCount_bumpFiles, if_pos ⟨by omega, by simp [maxFilesPerCommit, hone]⟩]
    · rw [if_neg (by omega), Int.add_zero]
  · rename_i hcounted
    rw [if_pos (by omega), ← fileCount_bumpFiles]
    simp only [CochangeState.fileCount, fileChanges_bumpPairs]

theorem pairCount_accumulateCommit (state : CochangeState) (c : CommitFiles) (key : Str) :
    (accumulateCommit state c).pairCount key = state.pairCount key + c.couples key := by
  rw [accumulateCommit, CommitFiles.couples]
  split
  · rename_i hskip
    have hnone : ¬(2 ≤ c.files.length ∧ c.files.length ≤ maxFilesPerCommit) := by omega
    rw [if_neg hnone, Int.add_zero]
    split
    · simp only [CochangeState.pairCount, pairs_bumpFiles]
    · rfl
  · rename_i hcounted
    rw [if_pos (by omega), pairCount_bumpPairs]
    simp only [CochangeState.pairCount, pairs_bumpFiles]

/-- The file counts of a list of commits are sums over the list. -/
theorem fileCount_accumulate (state : CochangeState) (commits : List CommitFiles) (file : Str) :
    (accumulate state commits).fileCount file =
      state.fileCount file + (commits.map (·.touches file)).sum := by
  induction commits generalizing state with
  | nil => simp [accumulate]
  | cons c commits ih =>
      have hstep := ih (accumulateCommit state c)
      rw [accumulate, List.foldl_cons, ← accumulate, hstep, fileCount_accumulateCommit,
        List.map_cons, List.sum_cons]
      omega

/-- The pair counts of a list of commits are sums over the list. -/
theorem pairCount_accumulate (state : CochangeState) (commits : List CommitFiles) (key : Str) :
    (accumulate state commits).pairCount key =
      state.pairCount key + (commits.map (·.couples key)).sum := by
  induction commits generalizing state with
  | nil => simp [accumulate]
  | cons c commits ih =>
      have hstep := ih (accumulateCommit state c)
      rw [accumulate, List.foldl_cons, ← accumulate, hstep, pairCount_accumulateCommit,
        List.map_cons, List.sum_cons]
      omega

theorem accumulate_append (state : CochangeState) (commits more : List CommitFiles) :
    accumulate state (commits ++ more) = accumulate (accumulate state commits) more :=
  List.foldl_append

end AutomatisedPipeline.Cochange

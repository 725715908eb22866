import AutomatisedPipeline.Logic.Assoc
import AutomatisedPipeline.Text.Basic

/-!
The index of a run's findings (`finding_index.rs`), and who writes what in it.

Three stages write an entry: extraction, refinement and the finalizing of a verification.
Each hands over a whole entry and says how it is merged with the one that stands there, so
that a stage that runs again keeps what a later one wrote. The index file is what the last
write made it; writes that fail leave it alone.
-/

namespace AutomatisedPipeline.Findings

open Text

/-! ### Entries -/

/-- `IndexEntry`. -/
structure IndexEntry where
  artifactPath : Str
  extractorVersion : Str
  orchestratorVersion : Option Str
  refinedAt : Option Str
  verifiedAt : Option Str
  verified : Option Bool
  stage2Path : Option Str
deriving DecidableEq, Repr

/-- `Index`. -/
structure Index where
  runId : Str
  startedAt : Str
  lastUpdatedAt : Str
  findings : List (Str × IndexEntry)
deriving DecidableEq, Repr

inductive MergeMode where
  | preserveDownstream
  | preserveStage2
  | preserveRefinedOnly
  | replace
deriving DecidableEq, Repr

/-- `merge_preserve_downstream`. -/
def mergePreserveDownstream (existing entry : IndexEntry) : IndexEntry where
  artifactPath := if existing.refinedAt.isSome then existing.artifactPath else entry.artifactPath
  extractorVersion := entry.extractorVersion
  orchestratorVersion := existing.orchestratorVersion
  refinedAt := existing.refinedAt
  verifiedAt := existing.verifiedAt
  verified := existing.verified
  stage2Path := existing.stage2Path

/-- `merge_preserve_stage2`. -/
def mergePreserveStage2 (existing entry : IndexEntry) : IndexEntry where
  artifactPath := entry.artifactPath
  extractorVersion := entry.extractorVersion
  orchestratorVersion := entry.orchestratorVersion
  refinedAt := entry.refinedAt
  verifiedAt := existing.verifiedAt
  verified := existing.verified
  stage2Path := existing.stage2Path

/-- `merge_preserve_refined_only`. -/
def mergePreserveRefinedOnly (existing entry : IndexEntry) : IndexEntry where
  artifactPath := existing.artifactPath
  extractorVersion := existing.extractorVersion
  orchestratorVersion := existing.orchestratorVersion
  refinedAt := existing.refinedAt
  verifiedAt := entry.verifiedAt
  verified := entry.verified
  stage2Path := entry.stage2Path

/-- `merge_index_entry`. -/
def mergeIndexEntry (existing : Option IndexEntry) (entry : IndexEntry) : MergeMode → IndexEntry
  | .replace => entry
  | .preserveDownstream =>
      match existing with
      | some e => mergePreserveDownstream e entry
      | none => entry
  | .preserveStage2 =>
      match existing with
      | some e => mergePreserveStage2 e entry
      | none => entry
  | .preserveRefinedOnly =>
      match existing with
      | some e => mergePreserveRefinedOnly e entry
      | none => entry

/-- `upsert_index_entry`, with what it reads of the index file: the index it writes. -/
def upsertIndexEntry (file : Option Index) (runId now findingId : Str) (entry : IndexEntry)
    (mode : MergeMode) : Index :=
  let idx := file.getD ⟨runId, now, now, []⟩
  let merged := mergeIndexEntry (idx.findings.lookup findingId) entry mode
  { idx with
    lastUpdatedAt := now
    findings := Assoc.upsert findingId merged (fun _ => merged) idx.findings }

/-! ### Stages -/

/-- `EXTRACTOR_VERSION`. -/
def extractorVersion : Str := "1.0.0".toList

/-- The path of a file of a finding. -/
def findingFile (findingId : Str) (fileName : String) : Str :=
  "findings/".toList ++ findingId ++ '/' :: fileName.toList

/-- `EXTRACTED_FILE_NAME` of a finding. -/
def extractedPath (findingId : Str) : Str := findingFile findingId "stage-1.extracted.json"

/-- `REFINED_FILE_NAME` of a finding. -/
def refinedPath (findingId : Str) : Str := findingFile findingId "stage-1.refined.json"

/-- `VERIFIED_FILE_NAME` of a finding. -/
def verifiedPath (findingId : Str) : Str := findingFile findingId "stage-2.verified.json"

/-- The entry with which `persist_extract` updates the index. -/
def extractEntry (findingId : Str) : IndexEntry :=
  ⟨extractedPath findingId, extractorVersion, none, none, none, none, none⟩

/-- The entry with which `persist_refine` updates the index. -/
def refineEntry (findingId orchestratorVersion refinedAt : Str) : IndexEntry :=
  ⟨refinedPath findingId, extractorVersion, some orchestratorVersion, some refinedAt, none, none,
    none⟩

/-- The entry with which `upsert_verified_index` updates the index. -/
def verifiedEntry (findingId : Str) (verified : Bool) (now : Str) : IndexEntry :=
  ⟨[], extractorVersion, none, none, some now, some verified, some (verifiedPath findingId)⟩

/-- What a stage writes to the index, with the time at which it does. -/
inductive Upsert where
  | extract (findingId now : Str)
  | refine (findingId orchestratorVersion refinedAt now : Str)
  | finalize (findingId : Str) (verified : Bool) (verifiedAt now : Str)
deriving DecidableEq, Repr

def Upsert.findingId : Upsert → Str
  | .extract findingId _ => findingId
  | .refine findingId _ _ _ => findingId
  | .finalize findingId _ _ _ => findingId

/-- The entry that a write hands over. -/
def Upsert.entry : Upsert → IndexEntry
  | .extract findingId _ => extractEntry findingId
  | .refine findingId orchestratorVersion refinedAt _ =>
      refineEntry findingId orchestratorVersion refinedAt
  | .finalize findingId verified verifiedAt _ => verifiedEntry findingId verified verifiedAt

def Upsert.mode : Upsert → MergeMode
  | .extract _ _ => .preserveDownstream
  | .refine _ _ _ _ => .preserveStage2
  | .finalize _ _ _ _ => .preserveRefinedOnly

def Upsert.now : Upsert → Str
  | .extract _ now => now
  | .refine _ _ _ now => now
  | .finalize _ _ _ now => now

/-- A stage's write. -/
def Upsert.apply (runId : Str) (file : Option Index) (op : Upsert) : Index :=
  upsertIndexEntry file runId op.now op.findingId op.entry op.mode

/-- The index file after a run of writes. -/
def runUpserts (runId : Str) (ops : List Upsert) : Option Index :=
  ops.foldl (fun file op => some (op.apply runId file)) none

/-- The entries of the index file. -/
def entries (file : Option Index) : List (Str × IndexEntry) := (file.map Index.findings).getD []

/-! ### The last write of each stage -/

inductive Stage where
  | extraction
  | refinement
  | verification
deriving DecidableEq, Repr

def Upsert.stage : Upsert → Stage
  | .extract _ _ => .extraction
  | .refine _ _ _ _ => .refinement
  | .finalize _ _ _ _ => .verification

/-- The last write of a stage for a finding. -/
def last (ops : List Upsert) (stage : Stage) (findingId : Str) : Option Upsert :=
  (ops.filter fun op => op.stage = stage ∧ op.findingId = findingId).getLast?

theorem last_snoc (ops : List Upsert) (op : Upsert) (stage : Stage) (findingId : Str) :
    last (ops ++ [op]) stage findingId =
      if op.stage = stage ∧ op.findingId = findingId then some op
      else last ops stage findingId := by
  rw [last, List.filter_append]
  split
  · rename_i h
    rw [List.filter_cons_of_pos (by simpa using h), List.filter_nil, List.getLast?_append]
    rfl
  · rename_i h
    rw [List.filter_cons_of_neg (by simpa using h), List.filter_nil, List.append_nil]
    rfl

theorem stage_of_last {ops : List Upsert} {stage : Stage} {findingId : Str} {op : Upsert}
    (h : last ops stage findingId = some op) : op.stage = stage := by
  have hmem := List.mem_filter.mp (List.mem_of_getLast? h)
  exact (of_decide_eq_true hmem.2).1

/-! ### Who owns what -/

/-- The entry that the last writes of the stages leave: what they own in it. -/
def ownedEntry (extraction refinement verification : Option Upsert) : Option IndexEntry :=
  ((extraction.or refinement).or verification).map fun _ =>
    { artifactPath := (refinement.or extraction).elim [] fun op => op.entry.artifactPath
      extractorVersion := extractorVersion
      orchestratorVersion := refinement.bind fun op => op.entry.orchestratorVersion
      refinedAt := refinement.bind fun op => op.entry.refinedAt
      verifiedAt := verification.bind fun op => op.entry.verifiedAt
      verified := verification.bind fun op => op.entry.verified
      stage2Path := verification.bind fun op => op.entry.stage2Path }

/-- The entry of a finding after a run of writes. -/
def owned (ops : List Upsert) (findingId : Str) : Option IndexEntry :=
  ownedEntry (last ops .extraction findingId) (last ops .refinement findingId)
    (last ops .verification findingId)

theorem merge_extract (x r v : Option Upsert) (findingId now : Str)
    (hr : ∀ op, r = some op → op.entry.refinedAt.isSome) :
    some (mergeIndexEntry (ownedEntry x r v) (extractEntry findingId) .preserveDownstream) =
      ownedEntry (some (.extract findingId now)) r v := by
  cases r with
  | some refined =>
      have hsome := hr refined rfl
      cases x <;> simp [ownedEntry, mergeIndexEntry, mergePreserveDownstream, extractEntry, hsome]
  | none =>
      cases x <;> cases v <;>
        simp [ownedEntry, mergeIndexEntry, mergePreserveDownstream, extractEntry, Upsert.entry]

theorem merge_refine (x r v : Option Upsert) (findingId orchestratorVersion refinedAt now : Str) :
    some (mergeIndexEntry (ownedEntry x r v) (refineEntry findingId orchestratorVersion refinedAt)
        .preserveStage2) =
      ownedEntry x (some (.refine findingId orchestratorVersion refinedAt now)) v := by
  cases x <;> cases r <;> cases v <;>
    simp [ownedEntry, mergeIndexEntry, mergePreserveStage2, refineEntry, Upsert.entry]

theorem merge_finalize (x r v : Option Upsert) (findingId : Str) (verified : Bool)
    (verifiedAt now : Str) :
    some (mergeIndexEntry (ownedEntry x r v) (verifiedEntry findingId verified verifiedAt)
        .preserveRefinedOnly) =
      ownedEntry x r (some (.finalize findingId verified verifiedAt now)) := by
  cases x <;> cases r <;> cases v <;>
    simp [ownedEntry, mergeIndexEntry, mergePreserveRefinedOnly, verifiedEntry, Upsert.entry]

/-- A merge gives the stage that writes its own, and leaves the others theirs. -/
theorem merge_owned (ops : List Upsert) (op : Upsert) :
    some (mergeIndexEntry (owned ops op.findingId) op.entry op.mode) =
      owned (ops ++ [op]) op.findingId := by
  have hrefined : ∀ refined, last ops .refinement op.findingId = some refined →
      refined.entry.refinedAt.isSome := by
    intro refined h
    have hstage := stage_of_last h
    cases refined with
    | extract _ _ => cases hstage
    | refine _ _ _ _ => rfl
    | finalize _ _ _ _ => cases hstage
  cases op with
  | extract findingId now =>
      simpa [owned, last_snoc, Upsert.stage, Upsert.findingId, Upsert.entry, Upsert.mode] using
        merge_extract _ _ _ findingId now hrefined
  | refine findingId orchestratorVersion refinedAt now =>
      simpa [owned, last_snoc, Upsert.stage, Upsert.findingId, Upsert.entry, Upsert.mode] using
        merge_refine _ _ _ findingId orchestratorVersion refinedAt now
  | finalize findingId verified verifiedAt now =>
      simpa [owned, last_snoc, Upsert.stage, Upsert.findingId, Upsert.entry, Upsert.mode] using
        merge_finalize _ _ _ findingId verified verifiedAt now

theorem owned_snoc_other {ops : List Upsert} {op : Upsert} {findingId : Str}
    (h : findingId ≠ op.findingId) : owned (ops ++ [op]) findingId = owned ops findingId := by
  have hne : op.findingId ≠ findingId := h.symm
  simp [owned, last_snoc, hne]

/-! ### Runs -/

theorem entries_apply (runId : Str) (file : Option Index) (op : Upsert) :
    entries (some (op.apply runId file)) =
      Assoc.upsert op.findingId
        (mergeIndexEntry ((entries file).lookup op.findingId) op.entry op.mode)
        (fun _ => mergeIndexEntry ((entries file).lookup op.findingId) op.entry op.mode)
        (entries file) := by
  cases file with
  | none => rfl
  | some index => rfl

theorem runUpserts_snoc (runId : Str) (ops : List Upsert) (op : Upsert) :
    runUpserts runId (ops ++ [op]) = some (op.apply runId (runUpserts runId ops)) := by
  rw [runUpserts, List.foldl_append]
  rfl

theorem lookup_apply (runId : Str) (file : Option Index) (op : Upsert) (findingId : Str) :
    (entries (some (op.apply runId file))).lookup findingId =
      if findingId = op.findingId then
        some (mergeIndexEntry ((entries file).lookup op.findingId) op.entry op.mode)
      else (entries file).lookup findingId := by
  rw [entries_apply, Assoc.lookup_upsert]

theorem nodup_runUpserts (runId : Str) (ops : List Upsert) :
    ((entries (runUpserts runId ops)).map Prod.fst).Nodup := by
  induction ops using List.reverseRecOn with
  | nil => exact List.nodup_nil
  | append_singleton ops op ih =>
      rw [runUpserts_snoc, entries_apply]
      exact Assoc.nodup_keys_upsert _ _ _ ih

/-- The entry of a finding is what the last writes of the stages left. -/
theorem lookup_runUpserts (runId : Str) (ops : List Upsert) (findingId : Str) :
    (entries (runUpserts runId ops)).lookup findingId = owned ops findingId := by
  induction ops using List.reverseRecOn generalizing findingId with
  | nil => rfl
  | append_singleton ops op ih =>
      rw [runUpserts_snoc, lookup_apply]
      split
      · rename_i hid
        rw [hid, ih, merge_owned]
      · rename_i hid
        rw [ih, owned_snoc_other hid]

/-- Each stage owns its fields. The refinement and the verification fields of an entry are
those of the last write of their stage, and none where there is none; the extractor version
is that of the last extraction; the artifact is that of the last refinement, before the first
refinement that of the last extraction, and the empty sentinel where there is neither. Writes
leave the entries of other findings alone, and no finding has two entries. -/
theorem stages_own_their_fields (runId : Str) (ops : List Upsert) :
    ((entries (runUpserts runId ops)).map Prod.fst).Nodup ∧
    (∀ op findingId, findingId ≠ op.findingId →
      (entries (runUpserts runId (ops ++ [op]))).lookup findingId =
        (entries (runUpserts runId ops)).lookup findingId) ∧
    (∀ findingId, (entries (runUpserts runId ops)).lookup findingId = none ↔
      ∀ stage, last ops stage findingId = none) ∧
    ∀ findingId entry, (entries (runUpserts runId ops)).lookup findingId = some entry →
      (∀ op, last ops .extraction findingId = some op →
        entry.extractorVersion = op.entry.extractorVersion) ∧
      entry.artifactPath =
        ((last ops .refinement findingId).or (last ops .extraction findingId)).elim []
          (fun op => op.entry.artifactPath) ∧
      entry.orchestratorVersion =
        (last ops .refinement findingId).bind (fun op => op.entry.orchestratorVersion) ∧
      entry.refinedAt = (last ops .refinement findingId).bind (fun op => op.entry.refinedAt) ∧
      entry.verifiedAt = (last ops .verification findingId).bind (fun op => op.entry.verifiedAt) ∧
      entry.verified = (last ops .verification findingId).bind (fun op => op.entry.verified) ∧
      entry.stage2Path = (last ops .verification findingId).bind (fun op => op.entry.stage2Path) := by
  refine ⟨nodup_runUpserts runId ops, ?_, ?_, ?_⟩
  · intro op findingId h
    rw [lookup_runUpserts, lookup_runUpserts, owned_snoc_other h]
  · intro findingId
    rw [lookup_runUpserts, owned, ownedEntry, Option.map_eq_none_iff]
    constructor
    · intro h stage
      simp only [Option.or_eq_none_iff] at h
      cases stage with
      | extraction => exact h.1.1
      | refinement => exact h.1.2
      | verification => exact h.2
    · intro h
      simp [h]
  · intro findingId entry h
    rw [lookup_runUpserts, owned, ownedEntry] at h
    obtain ⟨first, -, rfl⟩ := Option.map_eq_some_iff.mp h
    refine ⟨fun op hop => ?_, rfl, rfl, rfl, rfl, rfl, rfl⟩
    have hstage := stage_of_last hop
    cases op with
    | extract _ _ => rfl
    | refine _ _ _ _ => cases hstage
    | finalize _ _ _ _ => cases hstage

/-- After a refinement the entry's artifact is not that of the last extraction. -/
theorem refined_artifact_is_not_extracted :
    let ops := [Upsert.extract "f".toList [], .refine "f".toList "1".toList "t".toList []]
    ((entries (runUpserts [] ops)).lookup "f".toList).map IndexEntry.artifactPath ≠
      (last ops .extraction "f".toList).map fun op => op.entry.artifactPath := by
  decide

end AutomatisedPipeline.Findings

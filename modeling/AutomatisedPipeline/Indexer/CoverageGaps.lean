import AutomatisedPipeline.Indexer.Coverage

/-!
The gaps each pass finds, path by path. Every loop of the two passes lays the
gaps of a list of files or directories over the map so far, so what the map has
for a file is the gap of the infrastructure pass, or else that of the parse.
-/

namespace AutomatisedPipeline.Indexer

open Text Store Overlay

/-! ### Outcomes -/

/-- What parsing a file gives, in either pass. -/
def outcomeOf (ps : Parser) (policy : ParsePolicy) (f : SourceFile) : ParseOutcome :=
  (parseSource ps (.of policy f) f f.relativePath).1

theorem indexSingleFile_outcome (ps : Parser) (scope : FileScope) (f : SourceFile) (rel : Str)
    (st : IndexState) :
    (indexSingleFile ps scope f rel st).2 = (parseSource ps scope f rel).1 := by
  unfold indexSingleFile
  split
  · rename_i outcome h
    rw [h]
  · rename_i outcome lang parsed h
    rw [h]

section Outcomes

variable {ps : Parser} {policy : ParsePolicy}

theorem indexNewFile_outcome {f : SourceFile} {rel : Str} {st st' : IndexState}
    {outcome : ParseOutcome} (h : indexNewFile ps policy f rel st = .ok (st', outcome)) :
    outcome = (parseSource ps (.of policy f) f rel).1 := by
  unfold indexNewFile at h
  obtain ⟨st₁, _, h⟩ := Run.bind_eq_ok.mp h
  obtain ⟨st₂, _, h⟩ := Run.bind_eq_ok.mp h
  have hpair := Except.ok.inj h
  rw [← indexSingleFile_outcome, hpair]

theorem indexFile_outcomes {acc acc' : FullState} {f : SourceFile}
    (h : indexFile ps policy acc f = .ok acc') :
    acc'.outcomes = acc.outcomes ++ [(f.relativePath, outcomeOf ps policy f)] := by
  unfold indexFile at h
  dsimp only at h
  split at h
  · cases h
  · obtain ⟨⟨st₁, outcome⟩, hnew, h⟩ := Run.bind_eq_ok.mp h
    have houtcome : outcome = outcomeOf ps policy f := indexNewFile_outcome hnew
    split at h
    · obtain ⟨st₂, _, h⟩ := Run.bind_eq_ok.mp h
      cases h
      rw [← houtcome]
    · cases h
      rw [← houtcome]

/-- A full index reports the outcome of every file, in the order of the walk. -/
theorem indexCodebase_outcomes {files : List SourceFile} {g : GraphStore}
    {outcomes : List (Str × ParseOutcome)} (h : indexCodebase ps policy files = .ok (g, outcomes)) :
    outcomes = files.map fun f => (f.relativePath, outcomeOf ps policy f) := by
  unfold indexCodebase at h
  obtain ⟨acc, hfold, h⟩ := Run.bind_eq_ok.mp h
  obtain ⟨st, _, h⟩ := Run.bind_eq_ok.mp h
  cases h
  refine Run.foldlM_invariant (fun seen (acc : FullState) => acc.outcomes =
    seen.map fun f => (f.relativePath, outcomeOf ps policy f)) rfl ?_ hfold
  intro seen f rest acc acc' _ hacc hstep
  rw [indexFile_outcomes hstep, hacc, List.map_append]
  rfl

theorem reparseModifiedFile_outcome {store store' : GraphStore} {d : SourceFile}
    {outcome : ParseOutcome} (h : reparseModifiedFile ps policy store d = .ok (store', outcome)) :
    outcome = (parseSource ps (.of policy d) d d.relId).1 := by
  unfold reparseModifiedFile at h
  split at h
  rename_i st outcome' hindex
  obtain ⟨st', _, h⟩ := Run.bind_eq_ok.mp h
  cases h
  rw [← indexSingleFile_outcome, hindex]

theorem reparseNewFile_outcome {store store' : GraphStore} {dirs dirs' : Finset Str}
    {d : SourceFile} {outcome : ParseOutcome}
    (h : reparseNewFile ps policy store dirs d = .ok (store', dirs', outcome)) :
    outcome = (parseSource ps (.of policy d) d d.relId).1 := by
  unfold reparseNewFile at h
  obtain ⟨⟨st, outcome'⟩, hnew, h⟩ := Run.bind_eq_ok.mp h
  obtain ⟨st', _, h⟩ := Run.bind_eq_ok.mp h
  cases h
  exact indexNewFile_outcome hnew

/-- The entry of a file that is parsed again. -/
def reparsedEntry (ps : Parser) (policy : ParsePolicy) (d : SourceFile) : Str × ParseOutcome :=
  (d.relId, (parseSource ps (.of policy d) d d.relId).1)

theorem reparseModified_outcomes {acc acc' : Reparsed} {d : SourceFile}
    (h : reparseModified ps policy acc d = .ok acc') :
    acc'.outcomes = acc.outcomes ++ [reparsedEntry ps policy d] := by
  unfold reparseModified at h
  obtain ⟨⟨store, outcome⟩, hfile, h⟩ := Run.bind_eq_ok.mp h
  cases h
  rw [reparseModifiedFile_outcome hfile, reparsedEntry]

theorem reparseNew_outcomes {acc acc' : Reparsed} {d : SourceFile}
    (h : reparseNew ps policy acc d = .ok acc') :
    acc'.outcomes = acc.outcomes ++ [reparsedEntry ps policy d] := by
  unfold reparseNew at h
  obtain ⟨⟨store, dirs, outcome⟩, hfile, h⟩ := Run.bind_eq_ok.mp h
  cases h
  rw [reparseNewFile_outcome hfile, reparsedEntry]

/-- The files a change set parses again, in that order. -/
def ChangeSet.parsed (changes : ChangeSet) : List SourceFile :=
  changes.changed ++ changes.added ++ changes.renamed.map Rename.newFile

theorem mem_reparsedSet_iff (changes : ChangeSet) (rel : Str) :
    rel ∈ changes.reparsedSet ↔ rel ∈ changes.parsed.map SourceFile.relId := by
  simp [ChangeSet.reparsedSet, ChangeSet.changedRels, ChangeSet.parsed, Function.comp_def]

theorem foldlM_outcomes {α : Type} {step : Reparsed → α → Except IndexErr Reparsed}
    {entry : α → Str × ParseOutcome}
    (hstep : ∀ acc a acc', step acc a = .ok acc' → acc'.outcomes = acc.outcomes ++ [entry a])
    {l : List α} {acc acc' : Reparsed} (h : l.foldlM step acc = .ok acc') :
    acc'.outcomes = acc.outcomes ++ l.map entry := by
  refine Run.foldlM_invariant (fun seen (b : Reparsed) => b.outcomes =
    acc.outcomes ++ seen.map entry) (List.append_nil _).symm ?_ h
  intro seen a rest b b' _ hb hrun
  rw [hstep b a b' hrun, hb, List.map_append, List.append_assoc]
  rfl

/-- An incremental pass reports the outcome of every file it parses. -/
theorem applyChanges_outcomes {store g : GraphStore} {changes : ChangeSet}
    {allCurrent : List SourceFile} {n : Nat} {outcomes : List (Str × ParseOutcome)}
    (h : applyChanges ps policy store changes allCurrent = .ok (g, n, outcomes)) :
    outcomes = changes.parsed.map (reparsedEntry ps policy) := by
  unfold applyChanges at h
  obtain ⟨acc, hreparse, h⟩ := Run.bind_eq_ok.mp h
  cases h
  unfold reparse at hreparse
  obtain ⟨acc₁, hchanged, hreparse⟩ := Run.bind_eq_ok.mp hreparse
  obtain ⟨acc₂, hadded, hrenamed⟩ := Run.bind_eq_ok.mp hreparse
  have hthird := @foldlM_outcomes Rename _ (fun r => reparsedEntry ps policy r.newFile)
    (fun _ _ _ => reparseNew_outcomes) _ _ _ hrenamed
  have hsecond := @foldlM_outcomes SourceFile _ (reparsedEntry ps policy)
    (fun _ _ _ => reparseNew_outcomes) _ _ _ hadded
  have hfirst := @foldlM_outcomes SourceFile _ (reparsedEntry ps policy)
    (fun _ _ _ => reparseModified_outcomes) _ _ _ hchanged
  rw [hthird, hsecond, hfirst]
  simp [ChangeSet.parsed, Function.comp_def]

end Outcomes

/-! ### Gaps -/

def partialGap (ranges : List (Nat × Nat)) : FileCoverage where
  kind := .parsePartial
  detail := Nat.toDigits 10 ranges.length ++ " error range(s)".toList
  errorRanges := ranges

def skippedGap (reason : Str) : FileCoverage :=
  { kind := .skipped, detail := reason, errorRanges := [] }

def quarantinedGap (reason : Str) : FileCoverage :=
  { kind := .quarantined, detail := reason, errorRanges := [] }

def ParseOutcome.gap : ParseOutcome → Option FileCoverage
  | .indexed => none
  | .partlyIndexed ranges => some (partialGap ranges)
  | .skipped reason => some (skippedGap reason)
  | .quarantined reason => some (quarantinedGap reason)

/-- The file counts as indexed in a full index. -/
def ParseOutcome.counted : ParseOutcome → Bool
  | .indexed | .partlyIndexed _ => true
  | .skipped _ | .quarantined _ => false

/-- The reason the infrastructure pass skips a file. -/
def iacReason (f : SourceFile) : Option Str :=
  match classifyIac f with
  | .dockerfile | .kustomization =>
      if readText f = none then some "unreadable/oversized".toList else none
  | .maybeManifest | .other => none

/-- The ranges the infrastructure pass could not read. -/
def iacRanges (ip : IacParsers) (f : SourceFile) : Option (List (Nat × Nat)) :=
  match classifyIac f with
  | .dockerfile =>
      ((readText f).filter fun src => !ip.dockerfile src).map fun src =>
        [(1, max (lines src).length 1)]
  | .maybeManifest => ((readText f).bind ip.manifest).filter (· ≠ [])
  | .kustomization | .other => none

def iacGap (ip : IacParsers) (f : SourceFile) : Option FileCoverage :=
  ((iacReason f).map skippedGap).or ((iacRanges ip f).map partialGap)

/-- The gap of a file before Cargo is asked. -/
def fileGap (ps : Parser) (ip : IacParsers) (policy : ParsePolicy) (f : SourceFile) :
    Option FileCoverage :=
  (iacGap ip f).or (outcomeOf ps policy f).gap

/-! ### Loops that record gaps -/

/-- A loop each of whose steps records the gap of an element, if it has one. -/
theorem foldl_files {α : Type} {step : CoverageCollector → α → CoverageCollector}
    {keyOf : α → Str} {value : α → Option FileCoverage}
    (hstep : ∀ c a, (step c a).files = overlay (entriesOf keyOf value [a]) c.files)
    (l : List α) (c : CoverageCollector) :
    (l.foldl step c).files = overlay (entriesOf keyOf value l) c.files := by
  induction l generalizing c with
  | nil => rfl
  | cons a l ih =>
      have hcons : entriesOf keyOf value (a :: l) =
          entriesOf keyOf value [a] ++ entriesOf keyOf value l :=
        List.filterMap_append (l := [a])
      rw [List.foldl_cons, ih, hstep, hcons, overlay_append]

theorem recordOutcome_files (c : CoverageCollector) (entry : Str × ParseOutcome) :
    (recordOutcome c entry).files =
      overlay (entriesOf Prod.fst (fun e => e.2.gap) [entry]) c.files := by
  obtain ⟨rel, outcome⟩ := entry
  cases outcome <;> rfl

theorem recordReparseOutcome_files (c : CoverageCollector) (entry : Str × ParseOutcome) :
    (recordReparseOutcome c entry).files =
      overlay (entriesOf Prod.fst (fun e => e.2.gap) [entry]) c.files := by
  obtain ⟨rel, outcome⟩ := entry
  cases outcome <;> rfl

theorem entriesOf_map {α γ : Type} (keyOf : γ → Str) (value : γ → Option FileCoverage)
    (g : α → γ) (l : List α) :
    entriesOf keyOf value (l.map g) = entriesOf (keyOf ∘ g) (value ∘ g) l := by
  rw [entriesOf, List.filterMap_map]
  rfl

/-- The infrastructure pass records, for each file of a list, its ranges and its reason. -/
theorem runIacPassFor_eq (ip : IacParsers) (sources : List SourceFile) :
    runIacPassFor ip sources =
      { parsedInPart := entriesOf SourceFile.relId (iacRanges ip) sources
        skipped := entriesOf SourceFile.relId iacReason sources } := by
  refine Run.foldl_invariant (fun seen (gaps : IacGaps) => gaps =
    { parsedInPart := entriesOf SourceFile.relId (iacRanges ip) seen
      skipped := entriesOf SourceFile.relId iacReason seen }) rfl ?_
  rintro seen f rest gaps - rfl
  have happend : ∀ {β : Type} (value : SourceFile → Option β),
      entriesOf SourceFile.relId value (seen ++ [f]) =
        entriesOf SourceFile.relId value seen ++ ((value f).map (f.relId, ·)).toList := by
    intro β value
    rw [entriesOf, List.filterMap_append]
    cases hvalue : value f with
    | none => simp [entriesOf, hvalue]
    | some v => simp [entriesOf, hvalue]
  rw [happend, happend, parseIacFile]
  cases hkind : classifyIac f with
  | dockerfile =>
      cases htext : readText f with
      | none => simp [iacRanges, iacReason, hkind, htext]
      | some src =>
          by_cases hparse : ip.dockerfile src = true
          · simp [iacRanges, iacReason, hkind, htext, hparse, Option.filter_some]
          · simp [iacRanges, iacReason, hkind, htext, hparse, Option.filter_some]
  | kustomization =>
      cases htext : readText f with
      | none => simp [iacRanges, iacReason, hkind, htext]
      | some src => simp [iacRanges, iacReason, hkind, htext]
  | maybeManifest =>
      cases hmanifest : (readText f).bind ip.manifest with
      | none => simp [iacRanges, iacReason, hkind, hmanifest]
      | some ranges =>
          by_cases hnil : ranges = []
          · simp [iacRanges, iacReason, hkind, hmanifest, hnil, Option.filter_some]
          · simp [iacRanges, iacReason, hkind, hmanifest, hnil, Option.filter_some]
  | other => simp [iacRanges, iacReason, hkind]

theorem foldIacGaps_files (ip : IacParsers) (sources : List SourceFile) (c : CoverageCollector) :
    (foldIacGaps c (runIacPassFor ip sources)).files =
      overlay (entriesOf SourceFile.relId (fun f => (iacReason f).map skippedGap) sources)
        (overlay (entriesOf SourceFile.relId (fun f => (iacRanges ip f).map partialGap) sources)
          c.files) := by
  have hmap : ∀ {β : Type} (value : SourceFile → Option β) (gap : β → FileCoverage),
      entriesOf Prod.fst (fun e => some (gap e.2)) (entriesOf SourceFile.relId value sources) =
        entriesOf SourceFile.relId (fun f => (value f).map gap) sources := by
    intro β value gap
    rw [entriesOf, entriesOf, entriesOf, List.filterMap_filterMap]
    refine List.filterMap_congr fun f _ => ?_
    cases value f <;> rfl
  rw [runIacPassFor_eq, foldIacGaps]
  dsimp only
  rw [@foldl_files _ _ Prod.fst (fun e => some (skippedGap e.2)) (fun c e => rfl),
    @foldl_files _ _ Prod.fst (fun e => some (partialGap e.2)) (fun c e => rfl),
    hmap, hmap]

/-- What a map has for a file once the infrastructure gaps of a list are folded in. -/
theorem getElem?_foldIacGaps {ip : IacParsers} {sources : List SourceFile}
    (hnodup : (sources.map SourceFile.relId).Nodup) (c : CoverageCollector) {f : SourceFile}
    (hf : f ∈ sources) :
    (foldIacGaps c (runIacPassFor ip sources)).files[f.relId]? =
      (iacGap ip f).or c.files[f.relId]? := by
  rw [foldIacGaps_files, getElem?_overlay_entriesOf hnodup _ hf,
    getElem?_overlay_entriesOf hnodup _ hf, iacGap, Option.or_assoc]

theorem getElem?_foldIacGaps_of_notMem {ip : IacParsers} {sources : List SourceFile}
    (c : CoverageCollector) {rel : Str} (h : rel ∉ sources.map SourceFile.relId) :
    (foldIacGaps c (runIacPassFor ip sources)).files[rel]? = c.files[rel]? := by
  rw [foldIacGaps_files, getElem?_overlay_entriesOf_of_notMem _ h,
    getElem?_overlay_entriesOf_of_notMem _ h]

end AutomatisedPipeline.Indexer

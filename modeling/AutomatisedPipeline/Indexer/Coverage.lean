import AutomatisedPipeline.Index.Classify
import AutomatisedPipeline.Indexer.FullIndex
import AutomatisedPipeline.Logic.Overlay

/-!
The coverage sidecar. A full index records the gaps of the files as it parses
them, then those of the infrastructure pass, then those the Cargo map tells; an
incremental one carries the gaps of the files it does not parse over from the
report before it, and lays the fresh ones on top.
-/

namespace AutomatisedPipeline.Indexer

open Text Store

/-! ### The report -/

inductive CoverageKind where
  | parsePartial | skipped | quarantined | outsideBuildTargets | unlinkedFile | featureGated
deriving DecidableEq, Repr

structure FileCoverage where
  kind : CoverageKind
  detail : Str
  errorRanges : List (Nat × Nat)
deriving DecidableEq, Repr

/-- Relative path to gap; a file without a gap has no entry. -/
abbrev GapMap : Type := Std.TreeMap Str FileCoverage compare

abbrev PrunedDirs : Type := Std.TreeMap Str Str compare

inductive CargoAttributionStatus where
  | known
  | unknown (detail : Str)
  | notApplicable (detail : Str)
deriving DecidableEq, Repr

def coverageSchemaVersion : Nat := 1

structure CoverageReport where
  schemaVersion : Nat
  indexMode : Str
  filesIndexed : Nat
  files : GapMap
  prunedDirs : PrunedDirs
  cargoAttribution : Option CargoAttributionStatus

def CoverageReport.new (indexMode : Str) (filesIndexed : Nat) : CoverageReport where
  schemaVersion := coverageSchemaVersion
  indexMode := indexMode
  filesIndexed := filesIndexed
  files := ∅
  prunedDirs := ∅
  cargoAttribution := none

structure CoverageCounts where
  parsePartial : Nat
  skipped : Nat
  quarantined : Nat
  outsideBuildTargets : Nat
  unlinkedFile : Nat
  featureGated : Nat
deriving DecidableEq, Repr

def CoverageCounts.add (counts : CoverageCounts) (c : FileCoverage) : CoverageCounts :=
  match c.kind with
  | .parsePartial => { counts with parsePartial := counts.parsePartial + 1 }
  | .skipped => { counts with skipped := counts.skipped + 1 }
  | .quarantined => { counts with quarantined := counts.quarantined + 1 }
  | .outsideBuildTargets => { counts with outsideBuildTargets := counts.outsideBuildTargets + 1 }
  | .unlinkedFile => { counts with unlinkedFile := counts.unlinkedFile + 1 }
  | .featureGated => { counts with featureGated := counts.featureGated + 1 }

def CoverageReport.counts (report : CoverageReport) : CoverageCounts :=
  (report.files.toList.map Prod.snd).foldl CoverageCounts.add ⟨0, 0, 0, 0, 0, 0⟩

/-- The language server's verdict, where the file has no gap yet. -/
def CoverageReport.recordUnlinkedFile (report : CoverageReport) (verdict : Str × Str) :
    CoverageReport :=
  { report with
    files := report.files.insertIfNew verdict.1
      { kind := .unlinkedFile, detail := verdict.2, errorRanges := [] } }

/-! ### The collector -/

structure CoverageCollector where
  files : GapMap
  filesIndexed : Nat
  prunedDirs : PrunedDirs
  cargoAttribution : Option CargoAttributionStatus

namespace CoverageCollector

def default : CoverageCollector :=
  { files := ∅, filesIndexed := 0, prunedDirs := ∅, cargoAttribution := none }

def noteIndexed (c : CoverageCollector) : CoverageCollector :=
  { c with filesIndexed := c.filesIndexed + 1 }

def recordGap (c : CoverageCollector) (rel : Str) (gap : FileCoverage) : CoverageCollector :=
  { c with files := c.files.insert rel gap }

def recordPartial (c : CoverageCollector) (rel : Str) (errorRanges : List (Nat × Nat)) :
    CoverageCollector :=
  c.recordGap rel
    { kind := .parsePartial
      detail := Nat.toDigits 10 errorRanges.length ++ " error range(s)".toList
      errorRanges := errorRanges }

def recordSkipped (c : CoverageCollector) (rel reason : Str) : CoverageCollector :=
  c.recordGap rel { kind := .skipped, detail := reason, errorRanges := [] }

def recordQuarantined (c : CoverageCollector) (rel reason : Str) : CoverageCollector :=
  c.recordGap rel { kind := .quarantined, detail := reason, errorRanges := [] }

def recordPruned (c : CoverageCollector) (dir : Str × Str) : CoverageCollector :=
  { c with prunedDirs := c.prunedDirs.insert dir.1 dir.2 }

end CoverageCollector

/-! ### What Cargo tells -/

/-- What one attribution finds for a set of Rust files. -/
structure CargoAttributions where
  status : CargoAttributionStatus
  outsideTargets : List Str
  featureGated : List (Str × Str)

def outsideTargetsDetail : Str :=
  ("not in any Cargo target (cargo metadata --no-deps); " ++
    "declarations are indexed, calls cannot be resolved by the language server").toList

def outsideTargetsGap (rel : Str) : Str × FileCoverage :=
  (rel, { kind := .outsideBuildTargets, detail := outsideTargetsDetail, errorRanges := [] })

def featureGatedGap (found : Str × Str) : Str × FileCoverage :=
  (found.1, { kind := .featureGated, detail := found.2, errorRanges := [] })

/-- Both buckets, where the file has no gap yet. -/
def recordCargoGaps (found : CargoAttributions) (files : GapMap) : GapMap :=
  let files := (found.outsideTargets.map outsideTargetsGap).foldl
    (fun files gap => files.insertIfNew gap.1 gap.2) files
  (found.featureGated.map featureGatedGap).foldl
    (fun files gap => files.insertIfNew gap.1 gap.2) files

/-! ### What the walk brings back -/

/-- `dir_rel`: the key of a directory. -/
def dirRel (dir : List FileName) : Str := (pathString dir).map fun c => if c = '\\' then '/' else c

/-- One state of the code base, as both passes read it: the files with their
modification times and content hashes, the directories the walk left out, and
what Cargo says of a set of Rust files. No file has the path of a directory. -/
structure Codebase where
  tree : Tree
  mtimeNs : SourceFile → Int
  hashFile : Str → Option Str
  excludedDirs : List (List FileName)
  unreadableDirs : List (List FileName)
  prunedDirs : List (Str × Str)
  cargoAttribute : Finset Str → CargoAttributions
  apart : ∀ f ∈ tree.files, f.path ∉ excludedDirs ++ unreadableDirs

namespace Codebase

variable (w : Codebase)

def files : List SourceFile := w.tree.files

def recordDirs (c : CoverageCollector) : CoverageCollector :=
  let c := w.excludedDirs.foldl
    (fun c dir => c.recordSkipped (dirRel dir) "user_excluded".toList) c
  w.unreadableDirs.foldl (fun c dir => c.recordSkipped (dirRel dir) "unreadable".toList) c

def recordPrunedDirs (c : CoverageCollector) : CoverageCollector :=
  w.prunedDirs.foldl CoverageCollector.recordPruned c

end Codebase

/-! ### Infrastructure files -/

inductive IacKind where
  | dockerfile | kustomization | maybeManifest | other
deriving DecidableEq, Repr

def classifyIac (f : SourceFile) : IacKind :=
  let name := f.name.1.map Char.toLower
  let ext := ((extension f.name.1).getD []).map Char.toLower
  if name = "dockerfile".toList ∨ "dockerfile.".toList.isPrefixOf name = true ∨
      ".dockerfile".toList.isSuffixOf name = true then .dockerfile
  else if name = "kustomization.yaml".toList ∨ name = "kustomization.yml".toList ∨
      name = "kustomization".toList then .kustomization
  else if ext = "yaml".toList ∨ ext = "yml".toList then .maybeManifest
  else .other

/-- The infrastructure parsers, as far as coverage goes: whether a Dockerfile has
a `FROM`, and the gap ranges of a text that looks like a manifest. -/
structure IacParsers where
  dockerfile : Str → Bool
  manifest : Str → Option (List (Nat × Nat))

/-- The parse gaps of one infrastructure pass. -/
structure IacGaps where
  parsedInPart : List (Str × List (Nat × Nat))
  skipped : List (Str × Str)
deriving DecidableEq, Repr

def parseIacFile (ip : IacParsers) (gaps : IacGaps) (f : SourceFile) : IacGaps :=
  match classifyIac f with
  | .dockerfile =>
      match readText f with
      | none =>
          { gaps with skipped := gaps.skipped ++ [(f.relId, "unreadable/oversized".toList)] }
      | some src =>
          if ip.dockerfile src then gaps
          else
            { gaps with
              parsedInPart := gaps.parsedInPart ++
                [(f.relId, [(1, max (lines src).length 1)])] }
  | .kustomization =>
      match readText f with
      | none =>
          { gaps with skipped := gaps.skipped ++ [(f.relId, "unreadable/oversized".toList)] }
      | some _ => gaps
  | .maybeManifest =>
      match (readText f).bind ip.manifest with
      | none => gaps
      | some ranges =>
          if ranges = [] then gaps
          else { gaps with parsedInPart := gaps.parsedInPart ++ [(f.relId, ranges)] }
  | .other => gaps

/-- The gaps of `run_iac_pass_for` over `sources`, where the nodes and the edges
of the pass are written. -/
def runIacPassFor (ip : IacParsers) (sources : List SourceFile) : IacGaps :=
  sources.foldl (parseIacFile ip) ⟨[], []⟩

def foldIacGaps (c : CoverageCollector) (gaps : IacGaps) : CoverageCollector :=
  let c := gaps.parsedInPart.foldl (fun c gap => c.recordPartial gap.1 gap.2) c
  gaps.skipped.foldl (fun c gap => c.recordSkipped gap.1 gap.2) c

/-! ### A full index -/

def recordOutcome (c : CoverageCollector) (entry : Str × ParseOutcome) : CoverageCollector :=
  match entry.2 with
  | .indexed => c.noteIndexed
  | .partlyIndexed ranges => c.noteIndexed.recordPartial entry.1 ranges
  | .skipped reason => c.recordSkipped entry.1 reason
  | .quarantined reason => c.recordQuarantined entry.1 reason

/-- The Rust files by the extension of their names. -/
def Codebase.rustFilesByExtension (w : Codebase) : Finset Str :=
  ((w.files.filter fun f => extension f.name.1 = some "rs".toList).map
    SourceFile.relativePath).toFinset

def fullCoverage (ip : IacParsers) (w : Codebase) (outcomes : List (Str × ParseOutcome)) :
    CoverageReport :=
  let c := outcomes.foldl recordOutcome (w.recordPrunedDirs (w.recordDirs .default))
  let filesIndexed := c.filesIndexed
  let c := foldIacGaps c (runIacPassFor ip w.files)
  let found := w.cargoAttribute w.rustFilesByExtension
  { CoverageReport.new "full".toList filesIndexed with
    prunedDirs := c.prunedDirs
    cargoAttribution := some found.status
    files := recordCargoGaps found c.files }

/-- `index_codebase_with_language`: the graph and the report. -/
def indexCodebaseWithLanguage (ps : Parser) (ip : IacParsers) (policy : ParsePolicy) (w : Codebase) :
    Except IndexErr (GraphStore × CoverageReport) := do
  let (store, outcomes) ← indexCodebase ps policy w.files
  return (store, fullCoverage ip w outcomes)

/-! ### The manifest -/

namespace Codebase

variable (w : Codebase)

def discovered (f : SourceFile) : Index.Discovered :=
  { rel := f.relId, abs := f.relativePath, mtimeNs := w.mtimeNs f, size := f.size }

/-- The files of `discover`. -/
def current : List Index.Discovered := w.files.map w.discovered

def recordState (m : Index.FileManifest) (d : Index.Discovered) : Index.FileManifest :=
  m.record d.rel
    { mtimeNs := d.mtimeNs, size := d.size, contentHash := (w.hashFile d.abs).getD [] }

def writeFullManifest : Index.FileManifest := w.current.foldl w.recordState .new

/-- The file that is read at the path of a discovered one. -/
def readAt (d : Index.Discovered) : Option SourceFile :=
  w.files.find? fun f => f.relativePath = d.abs

/-- The files behind a classification. -/
def changes (c : Index.ChangeSet) : ChangeSet where
  changed := c.changed.filterMap w.readAt
  added := c.added.filterMap w.readAt
  deleted := c.deleted
  renamed := c.renamed.filterMap fun r => (w.readAt r.newFile).map (Rename.mk r.oldRel)

end Codebase

/-! ### An incremental index -/

def recordReparseOutcome (c : CoverageCollector) (entry : Str × ParseOutcome) :
    CoverageCollector :=
  match entry.2 with
  | .indexed => c
  | .partlyIndexed ranges => c.recordPartial entry.1 ranges
  | .skipped reason => c.recordSkipped entry.1 reason
  | .quarantined reason => c.recordQuarantined entry.1 reason

/-- The gaps of the files that are parsed again. -/
def reparsedGaps (ip : IacParsers) (changes : ChangeSet) (allCurrent : List SourceFile)
    (outcomes : List (Str × ParseOutcome)) : GapMap :=
  let c := outcomes.foldl recordReparseOutcome .default
  let reparsedFiles := allCurrent.filter fun d => d.relId ∈ changes.reparsedSet
  if reparsedFiles.isEmpty then c.files
  else (foldIacGaps c (runIacPassFor ip reparsedFiles)).files

/-- The kinds that are found anew on every pass. -/
def recomputed : CoverageKind → Bool
  | .outsideBuildTargets | .unlinkedFile | .featureGated => true
  | .parsePartial | .skipped | .quarantined => false

def mergeCoverage (prior : Option CoverageReport) (reparsedRels currentRels : Finset Str)
    (gaps : GapMap) (indexMode : Str) (filesIndexed : Nat) : CoverageReport :=
  let carried := (prior.map fun p => p.files.toList).getD []
  let carried := carried.filter fun e =>
    e.1 ∈ currentRels ∧ e.1 ∉ reparsedRels ∧ recomputed e.2.kind = false
  let report :=
    { CoverageReport.new indexMode filesIndexed with
      files := Overlay.overlay gaps.toList (Overlay.overlay carried ∅) }
  let counts := report.counts
  { report with filesIndexed := filesIndexed - (counts.skipped + counts.quarantined) }

/-- The Rust files by the end of their relative paths. -/
def Codebase.rustFilesBySuffix (w : Codebase) : Finset Str :=
  ((w.files.filter fun f => ".rs".toList.isSuffixOf f.relId).map SourceFile.relId).toFinset

/-- `index_incremental`: the graph, the next manifest and the report. -/
def indexIncremental (ps : Parser) (ip : IacParsers) (policy : ParsePolicy) (store : GraphStore)
    (prior : Index.FileManifest) (priorReport : Option CoverageReport) (w : Codebase) :
    Except IndexErr (GraphStore × Index.FileManifest × CoverageReport) := do
  let plan := Index.classify w.hashFile prior w.current
  let changes := w.changes plan.changeSet
  let (store, _, outcomes) ← applyChanges ps policy store changes w.files
  let walk := w.recordPrunedDirs (w.recordDirs .default)
  let gaps := Overlay.overlay walk.files.toList (reparsedGaps ip changes w.files outcomes)
  let report := mergeCoverage priorReport changes.reparsedSet (w.files.map SourceFile.relId).toFinset
    gaps "incremental".toList w.files.length
  let found := w.cargoAttribute w.rustFilesBySuffix
  return (store, plan.nextManifest,
    { report with
      prunedDirs := walk.prunedDirs
      files := recordCargoGaps found report.files
      cargoAttribution := some found.status })

end AutomatisedPipeline.Indexer

import AutomatisedPipeline.Freshness.Check

/-!
The team-shared graph artifact (`artifact.rs`): the file operations of an export and
the two questions a bootstrap asks.

An export is a sequence of file operations. `Repo.advance` makes the next one of the
running export, `Repo.abandon` is what is left when it fails; between two of them the
process may stop, HEAD may move and another process may ask `artifact_exists`. Every
file that an export writes carries the number of the export, which no part of the
program reads: it says which export wrote what is in place. The sidecar comes as what
`read_meta` makes of its bytes.
-/

namespace AutomatisedPipeline.Artifact

open Text Freshness

/-! ### The files of an artifact -/

/-- `SCHEMA_VERSION`. -/
def schemaVersion : Nat := 1

/-- `ZSTD_LEVEL`. -/
def zstdLevel : Int := 9

/-- `ArtifactMeta`. -/
structure ArtifactMeta where
  schemaVersion : Nat
  toolVersion : Str
  commit : Str
  nodeCount : Nat
  edgeCount : Nat
  originalBytes : Nat
  compressedBytes : Nat
  compressionLevel : Int
deriving DecidableEq, Repr

/-- An archive file: the export that wrote it, and its length. -/
structure Archive where
  writer : Nat
  length : Nat
deriving DecidableEq, Repr

/-- A sidecar file: the export that wrote it, and what parses out of it. -/
structure Sidecar where
  writer : Nat
  data : Option ArtifactMeta
deriving DecidableEq, Repr

/-- The artifact directory: `graph.zst`, `graph.zst.tmp`, `graph.meta.json` and
`graph.meta.json.tmp`. -/
structure ArtifactDir where
  archive : Option Archive
  archiveTmp : Option Archive
  sidecar : Option Sidecar
  sidecarTmp : Option Sidecar
deriving DecidableEq, Repr

def ArtifactDir.empty : ArtifactDir := ⟨none, none, none, none⟩

/-! ### An export -/

/-- The arguments of `export_artifact` and what it finds on the disk: whether the graph
path exists, the size of the graph and the length of the archive made of it. -/
structure Export where
  graphExists : Bool
  toolVersion : Str
  nodeCount : Nat
  edgeCount : Nat
  originalBytes : Nat
  compressedBytes : Nat
  nonempty : 0 < compressedBytes

/-- What a running export does next. -/
inductive Stage where
  | migrateLegacyDir
  | findGraph
  | createDir
  | writeArchive
  | renameArchive
  | gitHead
  | writeMeta (data : ArtifactMeta)
  | renameMeta
  | ensureGitattributes

/-- A running export and its number. -/
structure Running where
  number : Nat
  job : Export
  stage : Stage

/-- The repository: the artifact directory, the one under its old name, HEAD where git
can read it, how many exports have begun, and the running one. -/
structure Repo where
  current : Option ArtifactDir
  legacy : Option ArtifactDir
  head : Option Str
  exports : Nat
  running : Option Running

namespace Repo

/-- `migrate_legacy_dir`, where the rename succeeds. -/
def migrateLegacyDir (repo : Repo) : Repo :=
  match repo.current, repo.legacy with
  | none, some dir => { repo with current := some dir, legacy := none }
  | _, _ => repo

/-- The running export goes on to a stage. -/
def goTo (repo : Repo) (r : Running) (stage : Stage) : Repo :=
  { repo with running := some { r with stage } }

/-- The export ends, with `Ok` or with an error. -/
def finish (repo : Repo) : Repo := { repo with running := none }

/-- Changes the files of the artifact directory. -/
def edit (repo : Repo) (f : ArtifactDir → ArtifactDir) : Repo :=
  { repo with current := repo.current.map f }

end Repo

/-- `fs::rename` of the archive onto the one in place. -/
def ArtifactDir.placeArchive (dir : ArtifactDir) : ArtifactDir :=
  match dir.archiveTmp with
  | some archive => { dir with archive := some archive, archiveTmp := none }
  | none => dir

/-- `fs::rename` of the sidecar onto the one in place. -/
def ArtifactDir.placeSidecar (dir : ArtifactDir) : ArtifactDir :=
  match dir.sidecarTmp with
  | some sidecar => { dir with sidecar := some sidecar, sidecarTmp := none }
  | none => dir

/-- The sidecar of an export that reads HEAD as `head`. -/
def Export.artifactMeta (job : Export) (head : Option Str) : ArtifactMeta where
  schemaVersion := schemaVersion
  toolVersion := job.toolVersion
  commit := head.getD []
  nodeCount := job.nodeCount
  edgeCount := job.edgeCount
  originalBytes := job.originalBytes
  compressedBytes := job.compressedBytes
  compressionLevel := zstdLevel

namespace Repo

/-- The next operation of the running export, where it succeeds. -/
def advance (repo : Repo) (r : Running) : Repo :=
  match r.stage with
  | .migrateLegacyDir => repo.migrateLegacyDir.goTo r .findGraph
  | .findGraph => if r.job.graphExists then repo.goTo r .createDir else repo.finish
  | .createDir =>
      { repo with current := some (repo.current.getD .empty) }.goTo r .writeArchive
  | .writeArchive =>
      (repo.edit fun dir =>
        { dir with archiveTmp := some ⟨r.number, r.job.compressedBytes⟩ }).goTo r .renameArchive
  | .renameArchive => (repo.edit .placeArchive).goTo r .gitHead
  | .gitHead => repo.goTo r (.writeMeta (r.job.artifactMeta repo.head))
  | .writeMeta data =>
      (repo.edit fun dir =>
        { dir with sidecarTmp := some ⟨r.number, some data⟩ }).goTo r .renameMeta
  | .renameMeta => (repo.edit .placeSidecar).goTo r .ensureGitattributes
  | .ensureGitattributes => repo.finish

/-- The next operation of the running export, where it fails. `left` says that the
temporary file stays behind; `write_meta` never removes what it could not write. -/
def abandon (repo : Repo) (r : Running) (left : Bool) : Repo :=
  match r.stage with
  | .migrateLegacyDir => repo.goTo r .findGraph
  | .findGraph | .createDir | .ensureGitattributes => repo.finish
  | .writeArchive =>
      (repo.edit fun dir =>
        { dir with archiveTmp := if left then some ⟨r.number, 0⟩ else none }).finish
  | .renameArchive =>
      (repo.edit fun dir =>
        { dir with archiveTmp := if left then dir.archiveTmp else none }).finish
  -- `git_head` gives no sha: the sidecar names no commit
  | .gitHead => repo.goTo r (.writeMeta (r.job.artifactMeta none))
  | .writeMeta _ =>
      (repo.edit fun dir =>
        { dir with sidecarTmp := if left then some ⟨r.number, none⟩ else dir.sidecarTmp }).finish
  | .renameMeta =>
      (repo.edit fun dir =>
        { dir with sidecarTmp := if left then dir.sidecarTmp else none }).finish

end Repo

/-! ### What happens to a repository -/

/-- HEAD moves or cannot be read, an export begins, its next operation succeeds or
fails, its process stops, or some process calls `artifact_exists`. -/
inductive Event where
  | checkout (head : Option Str)
  | begin (job : Export)
  | succeed
  | fail (left : Bool)
  | stop
  | look

/-- Exports run one after another. -/
def Repo.step (repo : Repo) (event : Event) : Repo :=
  match event, repo.running with
  | .checkout head, _ => { repo with head }
  | .begin job, none =>
      { repo with
        exports := repo.exports + 1
        running := some ⟨repo.exports, job, .migrateLegacyDir⟩ }
  | .begin _, some _ => repo
  | .succeed, some r => repo.advance r
  | .succeed, none => repo
  | .fail left, some r => repo.abandon r left
  | .fail _, none => repo
  | .stop, _ => repo.finish
  | .look, _ => repo.migrateLegacyDir

/-! ### The questions of a bootstrap -/

/-- `read_meta`. -/
def readMeta (repo : Repo) : Option ArtifactMeta :=
  (repo.current.bind ArtifactDir.sidecar).bind Sidecar.data

/-- `artifact_exists`. -/
def artifactExists (repo : Repo) : Bool :=
  match repo.migrateLegacyDir.current.bind ArtifactDir.archive with
  | none => false
  | some archive =>
      if archive.length > 0 then
        match readMeta repo.migrateLegacyDir with
        | some data => decide (data.schemaVersion ≤ schemaVersion)
        | none => false
      else false

/-- `StaleInfo`. -/
structure StaleInfo where
  artifactSha : Str
  headSha : Str
  commitsBehind : Option Nat
deriving DecidableEq, Repr

/-- `artifact_staleness`, with `commits_between` of the repository. -/
def artifactStaleness (head : Option Str) (commitsBetween : Str → Str → Option Nat)
    (artifactSha : Str) : Option StaleInfo :=
  match head with
  | none => none
  | some headSha =>
      if !artifactSha.isEmpty && artifactSha = headSha then none
      else
        some {
          artifactSha
          headSha
          commitsBehind :=
            if isHexSha artifactSha then commitsBetween artifactSha headSha else none }

end AutomatisedPipeline.Artifact

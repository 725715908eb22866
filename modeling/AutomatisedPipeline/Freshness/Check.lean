import AutomatisedPipeline.Indexer.Specifiers
import AutomatisedPipeline.Logic.Asks

/-!
The freshness receipt of the read tools (`graph_freshness.rs`, with
`git_provenance.rs` and `indexer/manifest.rs`).

The check asks the host: the two sidecar files, the attributes of the indexed files
and two git commands, any of which may fail. The readers of the two JSON files are
parameters, and so is the list of the refused system roots, which the source resolves
once per process.
-/

namespace AutomatisedPipeline.Freshness

open Text

/-- The bytes of a file. -/
abbrev Bytes := List UInt8

/-! ### Paths -/

/-- `Component`, on a system without path prefixes. -/
inductive Component where
  | rootDir | curDir | parentDir
  | normal (name : Str)
deriving DecidableEq

/-- A part of a path between separators. -/
def Component.ofPart (part : Str) : Component := if part = "..".toList then .parentDir else .normal part

/-- `Path::components`: a `.` is kept at the start of a relative path only. -/
def pathComponents (path : Str) : List Component :=
  (if path.head? = some '/' then [.rootDir]
    else if path = ['.'] ∨ ['.', '/'].isPrefixOf path then [.curDir] else []) ++
  (components path).map Component.ofPart

/-- `Path::join`: an absolute path discards the base. -/
def joinPath (base rel : Str) : Str :=
  if rel.head? = some '/' then rel
  else if base = [] ∨ base.getLast? = some '/' then base ++ rel
  else base ++ '/' :: rel

/-- `is_contained_key`. -/
def isContainedKey (rel : Str) : Bool :=
  !rel.isEmpty && (pathComponents rel).all fun
    | .normal _ => true
    | _ => false

/-! ### The host -/

/-- What the check asks of the host. -/
inductive Probe where
  | pathExists (path : Str)
  | readFile (path : Str)
  | canonicalize (path : Str)
  | isDir (path : Str)
  /-- One `open`, `fstat` and read of one handle. -/
  | openFile (path : Str)
  | metadata (path : Str)
  /-- `git -C <root> rev-parse HEAD`. -/
  | gitRevParseHead (root : Str)
  /-- `git -C <root> rev-list --left-right --count <indexed>...<head>`. -/
  | gitRevList (root indexed head : Str)
deriving DecidableEq

/-- The attributes of a file: its size, and its modification time in nanoseconds from
the Unix epoch where the platform reports one. -/
structure FileAttr where
  size : Nat
  modified : Option Int
deriving DecidableEq

/-- What the host answers. An answer that does not fit the probe reads as a failure. -/
inductive Reply where
  | failed
  | yes
  | path (path : Str)
  | bytes (bytes : Bytes)
  | opened (bytes : Bytes) (attr : FileAttr)
  | attr (attr : FileAttr)
  | output (success : Bool) (stdout : Str)
deriving DecidableEq

/-- A program that asks the host. -/
abbrev HostM := Asks Probe Reply

/-! ### The source's definitions -/

/-- `GraphMeta`. -/
structure GraphMeta where
  root : Str
  commitSha : Option Str
  manifestSize : Option Nat
  manifestMtimeNs : Option Int

/-- `FileState`, of which the hash is not read here. -/
structure FileState where
  mtimeNs : Int
  size : Nat

/-- `FileManifest`. -/
structure FileManifest where
  schemaVersion : Nat
  files : List (Str × FileState)

/-- `MANIFEST_SCHEMA_VERSION`. -/
def manifestSchemaVersion : Nat := 1

/-- `mtime_ns`: a time before the epoch, or none, reads as 0; the cast to `i64` wraps. -/
def mtimeNs (attr : FileAttr) : Int :=
  match attr.modified with
  | some ns => if 0 ≤ ns then ns.bmod (2 ^ 64) else 0
  | none => 0

/-- `GraphMeta::describes_manifest`. -/
def GraphMeta.describesManifest («meta» : GraphMeta) (size : Nat) (mtime : Int) : Bool :=
  match «meta».manifestSize, «meta».manifestMtimeNs with
  | some claimedSize, some claimedMtime => claimedSize == size && claimedMtime == mtime
  | _, _ => false

/-- `CheckInputs`. -/
structure CheckInputs where
  root : Str
  files : List (Str × FileState)
  commitSha : Option Str

/-- The readers of the two sidecar files, and the refused system roots. -/
structure Readers where
  graphMeta : Bytes → Option GraphMeta
  manifest : Bytes → Option FileManifest
  forbiddenRoots : List Str

/-- `manifest::parse`. -/
def Readers.parse (readers : Readers) (bytes : Bytes) : Option FileManifest :=
  (readers.manifest bytes).filter fun m => decide (m.schemaVersion ≤ manifestSchemaVersion)

/-- `read_meta`. -/
def readMeta (readers : Readers) (outputDir : Str) : HostM (Option GraphMeta) := do
  match ← Asks.question (.readFile (joinPath outputDir "meta.json".toList)) with
  | .bytes bytes => return readers.graphMeta bytes
  | _ => return none

/-- `validated_root`. -/
def validatedRoot (readers : Readers) (claimed : Str) : HostM (Option Str) := do
  if claimed.head? ≠ some '/' then return none
  match ← Asks.question (.canonicalize claimed) with
  | .path root =>
      if (← Asks.question (.isDir root)) ≠ .yes then return none
      if root ∈ readers.forbiddenRoots then return none
      return some root
  | _ => return none

/-- `manifest::load_with_identity`. -/
def loadWithIdentity (readers : Readers) (path : Str) :
    HostM (Option (FileManifest × Nat × Int)) := do
  match ← Asks.question (.openFile path) with
  | .opened bytes attr => return (readers.parse bytes).map fun m => (m, attr.size, mtimeNs attr)
  | _ => return none

/-- `manifest_path`. -/
def manifestPath (outputDir : Str) : Str := joinPath outputDir "file_manifest.json".toList

/-- `admissible_inputs`, where `outputDir` is the parent of the graph's path. -/
def admissibleInputs (readers : Readers) (graphPath : Str) (outputDir : Option Str) :
    HostM (Option CheckInputs) := do
  if (← Asks.question (.pathExists graphPath)) ≠ .yes then return none
  match outputDir with
  | none => return none
  | some outputDir =>
      match ← readMeta readers outputDir with
      | none => return none
      | some «meta» =>
          match ← validatedRoot readers «meta».root with
          | none => return none
          | some root =>
              match ← loadWithIdentity readers (manifestPath outputDir) with
              | none => return none
              | some (loaded, size, mtime) =>
                  if ¬ «meta».describesManifest size mtime then return none
                  return some
                    { root := root, files := loaded.files, commitSha := «meta».commitSha }

/-- The attributes that `count_dirty` compares. -/
def matchesState (reply : Reply) (state : FileState) : Bool :=
  match reply with
  | .attr attr => mtimeNs attr == state.mtimeNs && attr.size == state.size
  | _ => false

/-- The filter of `count_dirty`. -/
def isDirty (root : Str) (entry : Str × FileState) : HostM Bool := do
  if ¬ isContainedKey entry.1 then return true
  return !matchesState (← Asks.question (.metadata (joinPath root entry.1))) entry.2

/-- `count_dirty`. -/
def countDirty (root : Str) (files : List (Str × FileState)) : HostM Nat :=
  files.foldlM (fun count entry => do return if ← isDirty root entry then count + 1 else count) 0

/-- `is_hex_sha`. -/
def isHexSha (s : Str) : Bool :=
  !s.isEmpty && s.all fun c =>
    c.isDigit || ('a' ≤ c && c ≤ 'f') || ('A' ≤ c && c ≤ 'F')

/-- What `git_head` reads off the output of its command. -/
def headOf : Reply → Option Str
  | .output true stdout => some (Indexer.trim stdout) |>.filter (· ≠ [])
  | _ => none

/-- What `commit_divergence` reads off the output of its command. -/
def countsOf : Reply → Option (Nat × Nat)
  | .output true stdout =>
      match Indexer.splitWhitespace stdout with
      | ahead :: behind :: _ => (parseU64 ahead).bind fun a => (parseU64 behind).map fun b => (a, b)
      | _ => none
  | _ => none

/-- `git_head`. -/
def gitHead (root : Str) : HostM (Option Str) := do
  return headOf (← Asks.question (.gitRevParseHead root))

/-- `commit_divergence`: the commits ahead and behind. -/
def commitDivergence (root : Str) (indexed : Option Str) : HostM (Option (Nat × Nat)) := do
  match indexed.filter fun sha => isHexSha sha with
  | none => return none
  | some indexed =>
      match ← gitHead root with
      | none => return none
      | some head =>
          if indexed = head then return some (0, 0)
          return countsOf (← Asks.question (.gitRevList root indexed head))

/-- The two verdicts. -/
inductive State where
  | fresh | stale
deriving DecidableEq

/-- The receipt: `unknown`, or a verdict with its figures. -/
inductive Receipt where
  | unknown
  | verdict (state : State) (checkedFiles dirtyFiles : Nat) (commitsBehind commitsAhead : Option Nat)
deriving DecidableEq

/-- `verdict`. -/
def verdict (inputs : CheckInputs) : HostM Receipt := do
  let dirtyFiles ← countDirty inputs.root inputs.files
  let divergence ← commitDivergence inputs.root inputs.commitSha
  let headMoved := divergence.any fun d => decide (0 < d.1) || decide (0 < d.2)
  if inputs.files.isEmpty ∧ divergence.isNone then return .unknown
  return .verdict (if dirtyFiles = 0 ∧ ¬ headMoved then .fresh else .stale) inputs.files.length
    dirtyFiles (divergence.map Prod.snd) (divergence.map Prod.fst)

/-- `check`. -/
def check (readers : Readers) (graphPath : Str) (outputDir : Option Str) : HostM Receipt := do
  match ← admissibleInputs readers graphPath outputDir with
  | none => return .unknown
  | some inputs => verdict inputs

/-- The receipt says `fresh`. -/
def Receipt.isFresh : Receipt → Bool
  | .verdict .fresh _ _ _ _ => true
  | _ => false

end AutomatisedPipeline.Freshness

import AutomatisedPipeline.Diff.Unified
import AutomatisedPipeline.Logic.Assoc
import AutomatisedPipeline.Store.Literal

/-!
The temporal layer (`history/mod.rs`): which entities the diff of a commit changed, and the
versions that are collected over the commits of a log.

Git and the graph store are outside the source: a repository answers `git show` and the
store's queries. Of a commit's metadata the collection reads its sha, its date and its
parents.
-/

namespace AutomatisedPipeline.History

open Text Diff Assoc

/-- What the code reads of the world: `{:?}` of a string, the text `git show` prints for a
sha, and the rows of a query. -/
structure Repository where
  debug : Str → Str
  gitShow : Str → Except Str Str
  executeQuery : Str → Except Str (List (List Str))

structure CommitMeta where
  sha : Str
  committedAt : Int
  parents : List Str
deriving DecidableEq, Repr

/-- A file or symbol that a commit changed, by the id of its node. -/
structure ChangedEntity where
  entityId : Str
  qualifiedName : Str
  label : Str
  changeType : Str
  linesChanged : Nat
deriving DecidableEq, Repr

/-- A symbol and its lines, from `start` to `stop`. -/
structure SymRange where
  id : Str
  qn : Str
  label : Str
  start : Nat
  stop : Nat
deriving DecidableEq, Repr

structure VersionRow where
  id : Str
  entity : ChangedEntity
  commitSha : Str
  committedAt : Int
deriving DecidableEq, Repr

structure Collected where
  versions : List VersionRow
  changedIn : List (Str × Str)
  versionOf : List (Str × List (Str × Str))
  prevVersion : List (Str × Str)
deriving DecidableEq, Repr

def Collected.default : Collected :=
  { versions := [], changedIn := [], versionOf := [], prevVersion := [] }

/-! ### The symbols of a file -/

/-- `SYMBOL_LABELS_WITH_LINES`. -/
def symbolLabelsWithLines : List Str :=
  ["Function".toList, "Struct".toList, "Enum".toList, "Trait".toList]

/-- The labels whose methods are read. -/
def containers : List Str := ["Struct".toList, "Enum".toList, "Trait".toList]

def definesQuery (filePath label : Str) : Str :=
  "MATCH (f:File)-[:Defines_File_".toList ++ label ++ "]->(n:".toList ++ label ++
    ") WHERE f.path = ".toList ++ Store.cypherStr filePath ++
    " RETURN n.id, n.qualified_name, n.start_line, n.end_line".toList

def methodsQuery (filePath container : Str) : Str :=
  "MATCH (f:File)-[:Defines_File_".toList ++ container ++ "]->(c)-[:HasMethod_".toList ++
    container ++ "_Method]->(m:Method) WHERE f.path = ".toList ++ Store.cypherStr filePath ++
    " RETURN m.id, m.qualified_name, m.start_line, m.end_line".toList

/-- What is read of a row. -/
def symRange (label : Str) : List Str → Option SymRange
  | id :: qn :: start :: stop :: _ =>
      some { id, qn, label, start := (parseU64 start).getD 0, stop := (parseU64 stop).getD 0 }
  | _ => none

/-- A query that fails reads as one without rows. -/
def pushRanges (repo : Repository) (cypher label : Str) : List SymRange :=
  match repo.executeQuery cypher with
  | .ok rows => rows.filterMap (symRange label)
  | .error _ => []

def fileSymbolRanges (repo : Repository) (filePath : Str) : List SymRange :=
  symbolLabelsWithLines.flatMap (fun label => pushRanges repo (definesQuery filePath label) label) ++
    containers.flatMap fun container =>
      pushRanges repo (methodsQuery filePath container) "Method".toList

/-! ### What an entry of a diff changes -/

/-- `strip_prefix`: a path of git, relative to the root of the repository, as the id of a
file of the indexed subtree. -/
def stripPrefix (gitPath pathPrefix : Str) : Option Str :=
  if pathPrefix = [] then some gitPath else (pathPrefix ++ ['/']).isPrefixOf? gitPath

def changeType (isNew isDeleted : Bool) : Str :=
  if isNew then "added".toList else if isDeleted then "deleted".toList else "modified".toList

/-- The changed lines inside a range. -/
def overlap (changed : List Nat) (r : SymRange) : Nat :=
  (changed.filter fun l => r.start ≤ l ∧ l ≤ r.stop).length

/-- The loop of `overlapping`; `seen` has the ids that are taken. -/
def overlappingLoop (hunk : FileHunk) (ct : Str) (seen : List Str) :
    List SymRange → List ChangedEntity
  | [] => []
  | r :: ranges =>
      if overlap hunk.changedLines r = 0 ∧ !hunk.isNew ∧ !hunk.isDeleted then
        overlappingLoop hunk ct seen ranges
      else if r.id ∈ seen then overlappingLoop hunk ct seen ranges
      else
        { entityId := r.id
          qualifiedName := r.qn
          label := r.label
          changeType := ct
          linesChanged :=
            if hunk.isNew || hunk.isDeleted then (r.stop - r.start + 1) % 2 ^ 64
            else overlap hunk.changedLines r } :: overlappingLoop hunk ct (r.id :: seen) ranges

def overlapping (ranges : List SymRange) (hunk : FileHunk) (ct : Str) : List ChangedEntity :=
  overlappingLoop hunk ct [] ranges

/-- The entity of a file itself. -/
def fileEntity (fileId : Str) (hunk : FileHunk) : ChangedEntity :=
  { entityId := fileId
    qualifiedName := fileId
    label := "File".toList
    changeType := changeType hunk.isNew hunk.isDeleted
    linesChanged := hunk.changedLines.length }

/-- The ranges of the files read so far. -/
abbrev Cache : Type := List (Str × List SymRange)

/-- `entry(..).or_insert_with(..)`. -/
def Cache.entry (repo : Repository) (cache : Cache) (fileId : Str) : List SymRange × Cache :=
  match cache.lookup fileId with
  | some ranges => (ranges, cache)
  | none =>
      (fileSymbolRanges repo fileId, (fileId, fileSymbolRanges repo fileId) :: cache)

section Collection

variable (repo : Repository) (pathPrefix : Str) (knownFiles : List Str)

/-- The body of the loop of `changed_entities`. -/
def visitHunk (st : List ChangedEntity × Cache) (hunk : FileHunk) : List ChangedEntity × Cache :=
  match stripPrefix hunk.filePath pathPrefix with
  | none => st
  | some fileId =>
      if fileId ∈ knownFiles then
        let (ranges, cache) := Cache.entry repo st.2 fileId
        (st.1 ++ fileEntity fileId hunk ::
          overlapping ranges hunk (changeType hunk.isNew hunk.isDeleted), cache)
      else st

/-! ### The diff of a commit -/

def utf8Len (s : Str) : Nat := (s.map Char.utf8Size).sum

/-- `char::is_ascii_hexdigit`. -/
def isAsciiHexdigit (c : Char) : Bool :=
  c.isDigit || ('a' ≤ c && c ≤ 'f') || ('A' ≤ c && c ≤ 'F')

def validateSha (sha : Str) : Except Str Unit :=
  if utf8Len sha < 4 ∨ 64 < utf8Len sha then
    .error ("invalid_sha: implausible length (".toList ++ digits (utf8Len sha) ++ ")".toList)
  else if sha.all isAsciiHexdigit then .ok ()
  else .error ("invalid_sha: non-hex characters in ".toList ++ repo.debug sha)

def gitShowDiff (sha : Str) : Except Str Str := do
  validateSha repo sha
  repo.gitShow sha

/-- The entries of the diff of a commit. -/
def diffOf (sha : Str) : Except Str (List FileHunk) := do
  parseUnifiedDiff (← gitShowDiff repo sha)

def changedEntities (commit : CommitMeta) (cache : Cache) :
    Except Str (List ChangedEntity × Cache) := do
  let hunks ← diffOf repo commit.sha
  return hunks.foldl (visitHunk repo pathPrefix knownFiles) ([], cache)

/-! ### The versions -/

def versionId (entityId sha : Str) : Str := entityId ++ '@' :: sha

/-- The variables of the loop over the commits. -/
structure Spine where
  collected : Collected
  lastVersion : List (Str × Str)
  cache : Cache

/-- Records a version of an entity. -/
def record (commit : CommitMeta) (st : Spine) (e : ChangedEntity) : Spine :=
  let vid := versionId e.entityId commit.sha
  { st with
    collected :=
      { versions := st.collected.versions ++
          [{ id := vid, entity := e, commitSha := commit.sha, committedAt := commit.committedAt }]
        changedIn := st.collected.changedIn ++ [(vid, commit.sha)]
        versionOf := upsert e.label [] (· ++ [(vid, e.entityId)]) st.collected.versionOf
        prevVersion := st.collected.prevVersion ++
          ((st.lastVersion.lookup e.entityId).map fun prev => (vid, prev)).toList }
    lastVersion := upsert e.entityId vid (fun _ => vid) st.lastVersion }

/-- The body of the loop over the commits: a merge has no versions. -/
def visitCommit (st : Spine) (commit : CommitMeta) : Except Str Spine :=
  if 1 < commit.parents.length then .ok st
  else do
    let (entities, cache) ← changedEntities repo pathPrefix knownFiles commit st.cache
    return entities.foldl (record commit) { st with cache := cache }

/-- `commits` are the newest first; the versions are collected from the oldest on. -/
def collectVersions (commits : List CommitMeta) : Except Str Collected :=
  (commits.reverse.foldlM (visitCommit repo pathPrefix knownFiles)
    { collected := .default, lastVersion := [], cache := [] }).map Spine.collected

end Collection

end AutomatisedPipeline.History

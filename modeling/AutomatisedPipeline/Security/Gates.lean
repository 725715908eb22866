import AutomatisedPipeline.Store.Membership

/-!
The five gates of `security_gates/gates.rs` (S1 to S5), over a store whose every
query may fail.

The helpers of S1, S3 and S5 read a failed query as no rows; those of S4 pass the
error on. Each gate appends its flags to those of the gates before it.
-/

namespace AutomatisedPipeline.Security

open Text Store Query

/-! ### Flags -/

/-- The gates a flag can name. -/
inductive Gate where
  | authCriticalTouch | unsafeSymbol | publicApiChange | unresolvedImports | testCoverageGap
  | inputUnresolved
deriving DecidableEq

def Gate.asStr : Gate → String
  | .authCriticalTouch => "auth_critical_touch"
  | .unsafeSymbol => "unsafe_symbol"
  | .publicApiChange => "public_api_change"
  | .unresolvedImports => "unresolved_imports"
  | .testCoverageGap => "test_coverage_gap"
  | .inputUnresolved => "input_unresolved"

inductive Severity where
  | critical | warning | info
deriving DecidableEq

/-- A value in the details of a flag. -/
inductive Detail where
  | null
  | bool (b : Bool)
  | number (n : Nat)
  | text (s : Str)
  | texts (l : List Str)
deriving DecidableEq

/-- `SecurityFlag`. -/
structure SecurityFlag where
  gate : Gate
  severity : Severity
  symbol : Str
  message : Str
  details : List (String × Detail)

/-- `flag.details["skipped"] == true`. -/
def SecurityFlag.skipped (flag : SecurityFlag) : Bool :=
  flag.details.lookup "skipped" == some (.bool true)

/-! ### S1: auth-critical community touch -/

/-- `AUTH_CRITICAL_PATTERNS`. -/
def authCriticalPatterns : List Str :=
  ["auth", "password", "token", "permission", "role", "crypto", "encrypt", "decrypt", "verify",
    "jwt", "oauth", "session"].map String.toList

/-- `clustering::SYMBOL_LABELS`, and the labels `find_auth_communities` scans. -/
def symbolLabels : List Str :=
  ["Function", "Method", "Struct", "Enum", "Trait", "Constant", "TypeAlias", "Module"].map
    String.toList

/-- The query of `find_auth_communities` for one label. -/
def authScanQuery (label : Str) : Str :=
  "MATCH (s:".toList ++ label ++ ")-[:MemberOf_".toList ++ label ++
    "_Community]->(c:Community) RETURN s.name, c.id".toList

/-- The row loop of `find_auth_communities`. -/
def authCommunitiesOfRows (rows : List Row) (out : List Str) : List Str :=
  rows.foldl (fun out row =>
    match row with
    | name :: cid :: _ =>
        if authCriticalPatterns.any (fun p => (find p (name.map Char.toLower)).isSome) ∧ cid ≠ []
        then out.insert cid else out
    | _ => out) out

/-- `find_auth_communities`, its `BTreeSet` a list without repetition. -/
def findAuthCommunities : StoreM (List Str) :=
  symbolLabels.foldlM (fun out label => do
    match ← executeQuery (authScanQuery label) with
    | .ok qr => return authCommunitiesOfRows qr.rows out
    | .error _ => return out) []

/-- `community_of` of the gates: the first hit over the labels. -/
def communityIdOf (qualifiedName : Str) : StoreM (Option Str) :=
  symbolLabels.findSomeM? fun label => do
    return (← communityOf label (.qualifiedName qualifiedName)).map CommunityRow.id

/-- `run_s1`. -/
def runS1 (qualifiedName : Str) (authCommunities : List Str) (flags : List SecurityFlag) :
    StoreM (List SecurityFlag) := do
  if authCommunities = [] then return flags
  match ← communityIdOf qualifiedName with
  | none => return flags
  | some cid =>
      if cid ∉ authCommunities then return flags
      return flags ++ [{
        gate := .authCriticalTouch
        severity := .critical
        symbol := qualifiedName
        message := "changed symbol shares community '".toList ++ cid ++
          "' with auth-critical symbols".toList
        details := [("community_id", .text cid), ("auth_patterns", .texts authCriticalPatterns)] }]

/-! ### S2: unsafe symbol -/

/-- `run_s2`. -/
def runS2 (qualifiedName : Str) (flags : List SecurityFlag) : StoreM (List SecurityFlag) :=
  return flags ++ [{
    gate := .unsafeSymbol
    severity := .info
    symbol := qualifiedName
    message := ("unsafe detection unavailable: the Rust parser does not record is_unsafe " ++
      "(see stages/stage-8.md §7 Q1; unblocks when stage 3a-v2 ships)").toList
    details := [("skipped", .bool true), ("reason", .text "parser_missing_is_unsafe".toList)] }]

/-! ### S3: public API surface change -/

/-- `SymbolMeta`. -/
structure SymbolMeta where
  visibility : Option Str
  parentIsFile : Bool
  parentLabel : Str
  filePath : Option Str

/-- The query of `fetch_visibility` for one label. -/
def visibilityQuery (escapedQn label : Str) : Str :=
  "MATCH (n:".toList ++ label ++ ") WHERE n.qualified_name = ".toList ++ escapedQn ++
    " RETURN n.visibility LIMIT 1".toList

/-- `fetch_visibility`. -/
def fetchVisibility (escapedQn : Str) : StoreM (Option (Option Str)) :=
  (["Function", "Method", "Struct", "Enum", "Trait"].map String.toList).findSomeM? fun label => do
    match ← executeQuery (visibilityQuery escapedQn label) with
    | .ok qr =>
        return (firstCell qr).map fun v =>
          let s := Indexer.trim v
          if s = [] then none else some s
    | .error _ => return none

/-- The relations from a file to the symbols it defines. -/
def fileRelations : List Str :=
  ["Defines_File_Function", "Defines_File_Struct", "Defines_File_Enum", "Defines_File_Trait",
    "Defines_File_Constant", "Defines_File_TypeAlias"].map String.toList

/-- The query of `has_file_parent` and `lookup_file_path` for one relation. -/
def fileParentQuery (escapedQn rel : Str) : Str :=
  "MATCH (f:File)-[:".toList ++ rel ++ "]->(n) WHERE n.qualified_name = ".toList ++ escapedQn ++
    " RETURN f.path LIMIT 1".toList

/-- `has_file_parent`. -/
def hasFileParent (escapedQn : Str) : StoreM Bool :=
  fileRelations.anyM fun rel => do
    match ← executeQuery (fileParentQuery escapedQn rel) with
    | .ok qr => return (firstCell qr).isSome
    | .error _ => return false

/-- `lookup_file_path`. -/
def lookupFilePath (escapedQn : Str) : StoreM (Option Str) :=
  fileRelations.findSomeM? fun rel => do
    match ← executeQuery (fileParentQuery escapedQn rel) with
    | .ok qr => return (firstCell qr).filter (· ≠ [])
    | .error _ => return none

/-- `symbol_visibility_and_parent`. -/
def symbolVisibilityAndParent (qualifiedName : Str) : StoreM (Option SymbolMeta) := do
  let escaped := cypherStr qualifiedName
  match ← fetchVisibility escaped with
  | none => return none
  | some vis =>
      let fileDefined ← hasFileParent escaped
      let filePath ← lookupFilePath escaped
      return some {
        visibility := vis
        parentIsFile := fileDefined
        parentLabel := if fileDefined then "File".toList else "Module".toList
        filePath := filePath }

/-- `run_s3`. -/
def runS3 (qualifiedName : Str) (flags : List SecurityFlag) : StoreM (List SecurityFlag) := do
  match ← symbolVisibilityAndParent qualifiedName with
  | none => return flags
  | some «meta» =>
      if «meta».visibility ≠ some "pub".toList then return flags
      if ¬ «meta».parentIsFile then return flags
      return flags ++ [{
        gate := .publicApiChange
        severity := .warning
        symbol := qualifiedName
        message := ("touches a crate-root public API symbol — downstream consumers may " ++
          "break").toList
        details := [("visibility", .text "pub".toList), ("parent_label", .text «meta».parentLabel),
          ("file_path", («meta».filePath.map Detail.text).getD .null)] }]

/-! ### S4: unresolved import presence -/

/-- `str::len`: the length in UTF-8. -/
def utf8Len (s : Str) : Nat := (s.map Char.utf8Size).sum

/-- `Iterator::max_by_key` at the length: the last of the longest. -/
def longest (paths : List Str) : Option Str :=
  paths.foldl (fun best path =>
    match best with
    | none => some path
    | some b => if utf8Len b ≤ utf8Len path then some path else some b) none

/-- The first cells of the rows that have one. -/
def firstColumn (qr : QueryResult) : List Str := qr.rows.filterMap List.head?

/-- `import_source_file`. -/
def importSourceFile (qualifiedName : Str) : StoreM (Except Str (Option Str)) := do
  let query := "MATCH (f:File) WHERE ".toList ++ cypherStr qualifiedName ++
    " STARTS WITH (f.path + '::') RETURN f.path".toList
  match ← executeQuery query with
  | .error error =>
      return .error ("checking unresolved imports: locating source file: ".toList ++ error)
  | .ok qr => return .ok (longest (firstColumn qr))

/-- `more_specific_file_exclusions`. -/
def moreSpecificFileExclusions (importPrefix : Str) : StoreM (Except Str Str) := do
  let query := "MATCH (f:File) WHERE f.path STARTS WITH ".toList ++ importPrefix ++
    " RETURN f.path".toList
  match ← executeQuery query with
  | .error error =>
      return .error
        ("checking unresolved imports: locating nested file prefixes: ".toList ++ error)
  | .ok qr =>
      let paths := (firstColumn qr).insertionSort (· ≤ ·)
      return .ok (paths.flatMap fun path =>
        " AND NOT (i.id STARTS WITH ".toList ++ cypherStr (path ++ "::".toList) ++ ")".toList)

/-- The end of the query that counts the unresolved imports. -/
def countReturn : Str := "RETURN count(i)".toList

/-- The count in the answer to that query. -/
def importCount (qr : QueryResult) : Except Str Nat :=
  match firstCell qr with
  | none => .error "checking unresolved imports: missing count".toList
  | some cell =>
      match parseU64 cell with
      | none =>
          .error ("checking unresolved imports: invalid count: ".toList ++ parseU64Error cell)
      | some count => .ok count

/-- `unresolved_import_count`. -/
def unresolvedImportCount (filePath : Str) : StoreM (Except Str Nat) := do
  let importPrefix := cypherStr (filePath ++ "::".toList)
  match ← moreSpecificFileExclusions importPrefix with
  | .error error => return .error error
  | .ok exclusions =>
      let query := "MATCH (i:Import) WHERE i.id STARTS WITH ".toList ++ importPrefix ++ exclusions ++
        " AND (i.is_resolved = false OR i.is_resolved IS NULL) ".toList ++ countReturn
      match ← executeQuery query with
      | .error error => return .error ("checking unresolved imports: ".toList ++ error)
      | .ok rows => return importCount rows

/-- `run_s4`. -/
def runS4 (qualifiedName : Str) (flags : List SecurityFlag) :
    StoreM (Except Str (List SecurityFlag)) := do
  match ← importSourceFile qualifiedName with
  | .error error => return .error error
  | .ok none =>
      return .ok (flags ++ [{
        gate := .unresolvedImports
        severity := .info
        symbol := qualifiedName
        message := "unresolved-import check unavailable: source file not identified".toList
        details := [("skipped", .bool true), ("reason", .text "source_file_unavailable".toList)] }])
  | .ok (some filePath) =>
      match ← unresolvedImportCount filePath with
      | .error error => return .error error
      | .ok count =>
          if count = 0 then return .ok flags
          return .ok (flags ++ [{
            gate := .unresolvedImports
            severity := if 2 ≤ count then .critical else .warning
            symbol := qualifiedName
            message := Nat.toDigits 10 count ++
              " unresolved import(s) in the changed symbol's file".toList
            details := [("file_path", .text filePath), ("unresolved_count", .number count)] }])

/-! ### S5: test coverage structural gap -/

/-- The query of `run_s5` for one label. -/
def testProcessQuery (escapedQn label : Str) : Str :=
  "MATCH (n:".toList ++ label ++ ")-[:ParticipatesIn_".toList ++ label ++
    "_Process]->(p:Process) WHERE n.qualified_name = ".toList ++ escapedQn ++
    " AND p.entry_kind = 'test' RETURN count(p)".toList

/-- The label loop of `run_s5`. -/
def testProcessesReaching (escapedQn : Str) : StoreM Nat :=
  (["Function", "Method"].map String.toList).foldlM (fun reached label => do
    match ← executeQuery (testProcessQuery escapedQn label) with
    | .ok qr =>
        return reached + ((firstCell qr).bind parseU64).getD 0
    | .error _ => return reached) 0

/-- `run_s5`. -/
def runS5 (qualifiedName : Str) (flags : List SecurityFlag) : StoreM (List SecurityFlag) := do
  let reached ← testProcessesReaching (cypherStr qualifiedName)
  if 0 < reached then return flags
  return flags ++ [{
    gate := .testCoverageGap
    severity := .warning
    symbol := qualifiedName
    message := ("no ParticipatesIn path from any test-entry process — structural coverage " ++
      "gap").toList
    details := [("test_processes_reaching_symbol", .number 0)] }]

end AutomatisedPipeline.Security

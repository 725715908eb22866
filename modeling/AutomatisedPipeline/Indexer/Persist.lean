import AutomatisedPipeline.Indexer.LightLink

/-!
From one file to its rows: the Directory nodes above it, its File node, and the
symbols and the structure the parser finds in it. Symbols and edges collect in a
batch that is flushed nodes first; the labels seen for a name route each edge to
its table.
-/

namespace AutomatisedPipeline.Indexer

open Text Store

/-! ### The parser -/

/-- The kinds of a parsed reference that become an edge at once; the others wait
for the resolver. -/
inductive RefKind where
  | defines | hasMethod | hasField | hasVariant | deferred
deriving DecidableEq, Repr

structure ExtractedRef where
  kind : RefKind
  fromQualifiedName : Str
  toQualifiedName : Str
deriving DecidableEq, Repr

structure ParseResult where
  nodes : List ExtractedNode
  refs : List ExtractedRef
  parseErrors : Nat
  errorRanges : List (Nat × Nat)
deriving DecidableEq, Repr

/-- What `isolate` makes of one parse. -/
inductive Isolated where
  | parsed (result : ParseResult)
  | failed (why : Str)
  | panicked

/-- The path of a file, or the id of one of its symbols. -/
def Owned (rel id : Str) : Prop := id = rel ∨ Within rel id

/-- The language parsers. Every symbol has an id in the scope of its file, and
every reference that becomes an edge stays in that scope. -/
structure Parser where
  headerLanguage : Option Language → Str → Language
  parseFile : Str → Str → Language → Isolated
  nodesWithin : ∀ source rel lang result, parseFile source rel lang = .parsed result →
    ∀ node ∈ result.nodes, Within rel node.qualifiedName
  refsOwned : ∀ source rel lang result, parseFile source rel lang = .parsed result →
    ∀ ref ∈ result.refs, ref.kind ≠ .deferred →
      Owned rel ref.fromQualifiedName ∧ Owned rel ref.toQualifiedName

/-! ### Policy -/

inductive DependencyScope where
  | none | publicApi | full
deriving DecidableEq, Repr

structure ParsePolicy where
  dependencyScope : DependencyScope
  languageFilter : Option Language
deriving DecidableEq, Repr

def dependencyDirNames : List String :=
  ["target", "node_modules", "__pycache__", ".venv", "venv", ".pytest_cache", ".mypy_cache",
    ".tox", ".eggs", "build", "out", ".gradle", ".idea", "Pods", "DerivedData", ".build",
    "Carthage", ".swiftpm", "vendor", "deps", "dist", "obj", "coverage", ".nyc_output", ".hg",
    ".svn", ".bzr", ".cache", ".next", ".nuxt", ".turbo", ".parcel-cache", ".terraform",
    ".serverless", ".dart_tool", ".stack-work"]

/-- `should_skip` in the tier without dependencies. -/
def shouldSkip (name : Str) : Bool :=
  name ∈ [".git", ".ai-architect-mcp-codebase", ".automatised-pipeline"].map String.toList ∨
    name ∈ dependencyDirNames.map String.toList

def isDependencyPath (f : SourceFile) : Bool := f.dirs.any fun component => shouldSkip component.1

structure FileScope where
  restrictToPublicApi : Bool
  languageFilter : Option Language
deriving DecidableEq, Repr

def FileScope.of (policy : ParsePolicy) (f : SourceFile) : FileScope :=
  { restrictToPublicApi := policy.dependencyScope = .publicApi && isDependencyPath f
    languageFilter := policy.languageFilter }

/-! ### The batch -/

structure SymbolBatch where
  nodes : List Node
  edges : List Edge
deriving DecidableEq, Repr

def SymbolBatch.empty : SymbolBatch := { nodes := [], edges := [] }

def SymbolBatch.pushEdge (batch : SymbolBatch) (e : Edge) : SymbolBatch :=
  { batch with edges := batch.edges ++ [e] }

inductive IndexErr where
  | totalBytesExceeded (message : Str)
  | duplicateKey (key : Key)
deriving DecidableEq, Repr

/-- What the indexer carries from file to file: the store, the rows not flushed
yet, the labels recorded for each name, the ids taken, and the directories that
have a node. -/
structure IndexState where
  store : GraphStore
  batch : SymbolBatch
  labels : List (Str × Label)
  seenNodeIds : List (SymbolLabel × Str)
  dirNodesInserted : Finset Str

/-- All nodes, then all edges. -/
def flush (st : IndexState) : Except IndexErr IndexState := do
  let store ← (st.store.insertNodes st.batch.nodes).mapError .duplicateKey
  return { st with store := store.insertEdges st.batch.edges, batch := .empty }

/-! ### Nodes -/

def isVisibilityDeclaringLabel : SymbolLabel → Bool
  | .function | .method | .struct | .enum | .trait | .field | .constant | .typeAlias => true
  | .«module» | .variant | .«import» | .callSite => false

def isPublicSymbol (language : Language) (visibility : Str) : Bool :=
  if language = .python then visibility ≠ "private".toList
  else visibility ∈ ["pub", "export", "public", "open"].map String.toList

/-- The name of the enum a variant belongs to. -/
def rsplitScope (name : Str) : Option Str := (rfind [':', ':'] name).map name.take

/-- Whether the node stays, and the enums dropped so far. -/
def keepUnderPublicApi (node : ExtractedNode) (language : Language) (droppedEnums : List Str) :
    Bool × List Str :=
  if node.label = .variant then
    match rsplitScope node.qualifiedName with
    | none => (true, droppedEnums)
    | some enumName => (enumName ∉ droppedEnums, droppedEnums)
  else if !isVisibilityDeclaringLabel node.label then (true, droppedEnums)
  else if isPublicSymbol language node.visibility then (true, droppedEnums)
  else
    (false, if node.label = .enum then node.qualifiedName :: droppedEnums else droppedEnums)

/-- Where the tier does not restrict the file, every node stays. -/
def keepInTier (language : Language) (restrictToPublicApi : Bool) (node : ExtractedNode)
    (droppedEnums : List Str) : Bool × List Str :=
  if restrictToPublicApi then keepUnderPublicApi node language droppedEnums
  else (true, droppedEnums)

def ExtractedNode.seenKey (node : ExtractedNode) : SymbolLabel × Str :=
  (node.label, node.qualifiedName)

/-- The nodes that are kept: not filtered out, and the first of their label and
name. -/
def acceptedNodes (language : Language) (restrictToPublicApi : Bool) :
    (droppedEnums : List Str) → (seen : List (SymbolLabel × Str)) → List ExtractedNode →
      List ExtractedNode
  | _, _, [] => []
  | droppedEnums, seen, node :: rest =>
      let kept := keepInTier language restrictToPublicApi node droppedEnums
      if !kept.1 then acceptedNodes language restrictToPublicApi kept.2 seen rest
      else if node.seenKey ∈ seen then acceptedNodes language restrictToPublicApi kept.2 seen rest
      else
        node :: acceptedNodes language restrictToPublicApi kept.2 (node.seenKey :: seen) rest

def accumulateParsedNodes (language : Language) (restrictToPublicApi : Bool)
    (nodes : List ExtractedNode) (st : IndexState) : IndexState :=
  let accepted := acceptedNodes language restrictToPublicApi [] st.seenNodeIds nodes
  { st with
    batch := { st.batch with nodes := st.batch.nodes ++ accepted.map (Node.symbol · language) }
    labels := accepted.map (fun node => (node.qualifiedName, Label.symbol node.label)) ++ st.labels
    seenNodeIds := accepted.map ExtractedNode.seenKey ++ st.seenNodeIds }

/-! ### Edges -/

/-- The only candidate recorded for the name; two are one too many. -/
def lookupLabelAmong (id : Str) (labels : List (Str × Label)) (candidates : List Label) :
    Option Label :=
  match candidates.filter fun c => (id, c) ∈ labels with
  | [first] => some first
  | _ => none

def routed (kind : RelKind) (source target : Option Label) : Option RelTable :=
  match source, target with
  | some source, some target =>
      let table : RelTable := ⟨kind, source, target⟩
      if isKnownRelTable table then some table else none
  | _, _ => none

def resolveDefinesTable (fromName toName : Str) (labels : List (Str × Label)) : Option RelTable :=
  routed .defines
    (lookupLabelAmong fromName labels
      [.file, .symbol .«module», .symbol .function, .symbol .method])
    (lookupLabelAmong toName labels
      [.symbol .function, .symbol .struct, .symbol .enum, .symbol .trait, .symbol .constant,
        .symbol .typeAlias, .symbol .«module», .symbol .«import», .symbol .callSite])

def resolveHasMethodTable (fromName : Str) (labels : List (Str × Label)) : Option RelTable :=
  routed .hasMethod
    (lookupLabelAmong fromName labels [.symbol .struct, .symbol .enum, .symbol .trait])
    (some (.symbol .method))

def resolveHasFieldTable (fromName : Str) (labels : List (Str × Label)) : Option RelTable :=
  routed .hasField (lookupLabelAmong fromName labels [.symbol .struct, .symbol .enum])
    (some (.symbol .field))

def resolveEdgeTable (kind : RefKind) (fromName toName : Str) (labels : List (Str × Label)) :
    Option RelTable :=
  match kind with
  | .defines => resolveDefinesTable fromName toName labels
  | .hasMethod => resolveHasMethodTable fromName labels
  | .hasField => resolveHasFieldTable fromName labels
  | .hasVariant => some ⟨.hasVariant, .symbol .enum, .symbol .variant⟩
  | .deferred => none

def structuralProvenanceProps (table : RelTable) : List (Str × Str) :=
  match table.kind with
  | .defines | .hasMethod | .hasField | .hasVariant =>
      [("confidence".toList, "1.0".toList), ("resolution_method".toList, "'direct-ast'".toList)]
  | _ => []

/-- The edge of a reference, where the labels give it a table. -/
def parsedEdge (labels : List (Str × Label)) (ref : ExtractedRef) : Option Edge :=
  (resolveEdgeTable ref.kind ref.fromQualifiedName ref.toQualifiedName labels).map fun table =>
    { table := table
      source := ref.fromQualifiedName
      target := ref.toQualifiedName
      props := structuralProvenanceProps table }

def accumulateParsedEdges (refs : List ExtractedRef) (st : IndexState) : IndexState :=
  { st with
    batch := { st.batch with edges := st.batch.edges ++ refs.filterMap (parsedEdge st.labels) } }

/-! ### One file -/

inductive ParseOutcome where
  | indexed
  | partlyIndexed (ranges : List (Nat × Nat))
  | skipped (reason : Str)
  | quarantined (reason : Str)
deriving DecidableEq, Repr

/-- `SET f.parse_errors = errors` on the File node `rel`. -/
def setFileParseErrors (rel : Str) (errors : Nat) : Node → Node
  | .file id name ext size old => .file id name ext size (if id = rel then errors else old)
  | other => other

def oversized (source : Str) : Str :=
  "oversized: ".toList ++ Nat.toDigits 10 (utf8Len source) ++ " bytes > MAX_PARSE_BYTES ".toList ++
    Nat.toDigits 10 maxParseBytes

/-- What parsing a file under this id gives: the outcome, and the parse when there
is one. -/
def parseSource (ps : Parser) (scope : FileScope) (f : SourceFile) (rel : Str) :
    ParseOutcome × Option (Language × ParseResult) :=
  let ext := (extension f.name.1).getD []
  match Language.fromExtension ext with
  | none => (.indexed, none)
  | some byExtension =>
      match f.text with
      | .error why => (.skipped ("read_error: ".toList ++ why), none)
      | .ok source =>
          let lang :=
            if ext = ['h'] then ps.headerLanguage scope.languageFilter source else byExtension
          if maxParseBytes < utf8Len source then (.skipped (oversized source), none)
          else
            match ps.parseFile source rel lang with
            | .failed why => (.skipped ("parse_failed: ".toList ++ why), none)
            | .panicked => (.quarantined "parser panicked".toList, none)
            | .parsed result =>
                (if 0 < result.parseErrors then .partlyIndexed result.errorRanges else .indexed,
                  some (lang, result))

def indexSingleFile (ps : Parser) (scope : FileScope) (f : SourceFile) (rel : Str)
    (st : IndexState) : IndexState × ParseOutcome :=
  match parseSource ps scope f rel with
  | (outcome, none) => (st, outcome)
  | (outcome, some (lang, parsed)) =>
      let store :=
        if 0 < parsed.parseErrors then
          st.store.updateNodes (setFileParseErrors rel parsed.parseErrors)
        else st.store
      let st := accumulateParsedNodes lang scope.restrictToPublicApi parsed.nodes
        { st with store := store }
      (accumulateParsedEdges parsed.refs st, outcome)

/-! ### Directories and the File node -/

def containsEdge (table : RelTable) (parent child : Str) : Edge :=
  { table := table, source := parent, target := child, props := [] }

/-- A node for each directory on the way that has none yet. -/
def insertAncestorDirs : (prev rest : List FileName) → IndexState → Except IndexErr IndexState
  | _, [], st => .ok st
  | prev, component :: rest, st =>
      let current := prev ++ [component]
      let dirId := pathString current
      if dirId ∈ st.dirNodesInserted then insertAncestorDirs current rest st
      else do
        let store ← (st.store.insertNode (.directory dirId component.1)).mapError .duplicateKey
        insertAncestorDirs current rest
          { st with
            store := store
            dirNodesInserted := insert dirId st.dirNodesInserted
            labels := (dirId, .directory) :: st.labels
            batch :=
              if prev = [] then st.batch
              else st.batch.pushEdge (containsEdge containsDirDir (pathString prev) dirId) }

def fileNode (f : SourceFile) (rel : Str) (parseErrors : Nat) : Node :=
  .file rel f.name.1 ((extension f.name.1).getD []) f.size parseErrors

def insertFileNode (f : SourceFile) (rel : Str) (st : IndexState) : Except IndexErr IndexState := do
  let store ← (st.store.insertNode (fileNode f rel 0)).mapError .duplicateKey
  return { st with store := store, labels := (rel, .file) :: st.labels }

def insertDirFileEdge (f : SourceFile) (st : IndexState) : IndexState :=
  if f.dirs = [] then st
  else
    { st with
      batch := st.batch.pushEdge
        (containsEdge containsDirFile (pathString f.dirs) f.relativePath) }

/-- A file that is not in the graph, under the id `rel`. -/
def indexNewFile (ps : Parser) (policy : ParsePolicy) (f : SourceFile) (rel : Str)
    (st : IndexState) : Except IndexErr (IndexState × ParseOutcome) := do
  let st ← insertAncestorDirs [] f.dirs st
  let st ← insertFileNode f rel st
  return indexSingleFile ps (.of policy f) f rel (insertDirFileEdge f st)

/-! ### A full index -/

def symbolFlushThreshold : Nat := 5000

def maxTotalBytes : Nat := 2147483648

/-- The deepest directory the walk enters. -/
def maxDepth : Nat := 64

structure FullState where
  totalBytes : Nat
  st : IndexState
  outcomes : List (Str × ParseOutcome)

def totalBytesExceeded (total : Nat) : Str :=
  "total_bytes_exceeded: aborting walk after ".toList ++ Nat.toDigits 10 total ++
    " bytes (MAX_TOTAL_BYTES ".toList ++ Nat.toDigits 10 maxTotalBytes ++ [')']

def indexFile (ps : Parser) (policy : ParsePolicy) (acc : FullState) (f : SourceFile) :
    Except IndexErr FullState := do
  let total := acc.totalBytes + f.size
  if maxTotalBytes < total then .error (.totalBytesExceeded (totalBytesExceeded total))
  else
    let (st, outcome) ← indexNewFile ps policy f f.relativePath acc.st
    let st ← if symbolFlushThreshold ≤ st.batch.nodes.length then flush st else .ok st
    return {
      totalBytes := total
      st := st
      outcomes := acc.outcomes ++ [(f.relativePath, outcome)] }

def IndexState.new : IndexState :=
  { store := 0, batch := .empty, labels := [], seenNodeIds := [], dirNodesInserted := ∅ }

/-- `index_codebase_with_language` on the files of the walk: the graph, and the
outcome of each file. -/
def indexCodebase (ps : Parser) (policy : ParsePolicy) (files : List SourceFile) :
    Except IndexErr (GraphStore × List (Str × ParseOutcome)) := do
  let acc ← files.foldlM (indexFile ps policy) { totalBytes := 0, st := .new, outcomes := [] }
  let st ← flush acc.st
  return (linkLooseFileImports st.store files, acc.outcomes)

end AutomatisedPipeline.Indexer

import AutomatisedPipeline.Indexer.Persist

/-!
The incremental index: a classified set of changes applied to the graph of an
earlier tree. Changed and vanished files are purged, changed and new files parsed
again, directories left without a child pruned, and the light links out of the
parsed files derived again. No other file is visited.
-/

namespace AutomatisedPipeline.Indexer

open Text Store

structure Rename where
  oldRel : Str
  newFile : SourceFile

/-- What to act on: the files of the current tree that changed or are new, and the
paths that are gone. -/
structure ChangeSet where
  changed : List SourceFile
  added : List SourceFile
  deleted : List Str
  renamed : List Rename

/-! ### Inbound edges -/

/-- The file a node id belongs to. -/
def owningFile (id : Str) : Str :=
  match find [':', ':'] id with
  | some i => id.take i
  | none => id

/-- The edges from other files into the symbols of the changed ones. -/
def snapshotInboundEdges (store : GraphStore) (changedRels : List Str) (reparsed : Finset Str) :
    Multiset Edge :=
  store.edges.filter fun e =>
    isResolutionTable e.table = true ∧ e.table.target ≠ .file ∧ e.table.target ≠ .directory ∧
      (∃ rel ∈ changedRels, Within rel e.target) ∧ owningFile e.source ∉ reparsed

def Edge.prop (e : Edge) (name : Str) : Str :=
  ((e.props.find? fun prop => prop.1 = name).map Prod.snd).getD []

/-- The edge as it is written again: a missing confidence is 1.0. -/
def Edge.saved (e : Edge) : Edge :=
  let confidence := e.prop "confidence".toList
  { e with
    props := [
      ("confidence".toList, if trimIsEmpty confidence then "1.0".toList else confidence),
      ("resolution_method".toList, e.prop "resolution_method".toList)] }

def relinkInboundEdges (store : GraphStore) (saved : Multiset Edge) : GraphStore :=
  store.insertEdges (saved.map Edge.saved)

/-! ### Purge -/

def purgeFileSymbols (rel : Str) (store : GraphStore) : GraphStore :=
  store.detachDelete fun k => Within rel k.2

def purgeFileNode (rel : Str) (store : GraphStore) : GraphStore :=
  store.detachDelete fun k => k = (.file, rel)

def lightLinkTables : List RelTable := [importsFileFile, referencesFileFile]

def purgeOutboundLightLinks (rel : Str) (store : GraphStore) : GraphStore :=
  store.deleteEdges fun e => e.table ∈ lightLinkTables ∧ e.source = rel

/-- A modified file keeps its File node. -/
def purgeChanged (rel : Str) (store : GraphStore) : GraphStore :=
  purgeOutboundLightLinks rel (purgeFileSymbols rel store)

def purgeGone (rel : Str) (store : GraphStore) : GraphStore :=
  purgeFileNode rel (purgeFileSymbols rel store)

def Node.directoryId : Node → Option Str
  | .directory id _ => some id
  | _ => none

def existingDirectoryIds (store : GraphStore) : Finset Str :=
  (store.nodes.filterMap Node.directoryId).toFinset

/-- The Directory nodes without an edge out of them. -/
def orphans (store : GraphStore) : Multiset Node :=
  store.nodes.filter fun n => n.key.1 = .directory ∧ ∀ e ∈ store.edges, e.sourceKey ≠ n.key

def pruneOrphanDirectories : (rounds : Nat) → GraphStore → GraphStore
  | 0, store => store
  | rounds + 1, store =>
      if orphans store = 0 then store
      else
        pruneOrphanDirectories rounds
          (store.detachDelete fun k => k ∈ (orphans store).map Node.key)

/-! ### Re-parse -/

/-- `SET f.parse_errors = 0, f.size_bytes = size` on the File node `rel`. -/
def resetFile (rel : Str) (size : Nat) : Node → Node
  | .file id name ext oldSize oldErrors =>
      if id = rel then .file id name ext size 0 else .file id name ext oldSize oldErrors
  | other => other

def reparseModifiedFile (ps : Parser) (policy : ParsePolicy) (store : GraphStore) (d : SourceFile) :
    Except IndexErr (GraphStore × ParseOutcome) := do
  let (st, outcome) := indexSingleFile ps (.of policy d) d d.relId
    { store := store.updateNodes (resetFile d.relId d.size)
      batch := .empty
      labels := [(d.relId, .file)]
      seenNodeIds := []
      dirNodesInserted := ∅ }
  let st ← flush st
  return (st.store, outcome)

/-- The store and the directories that have a node, behind a new file. -/
def reparseNewFile (ps : Parser) (policy : ParsePolicy) (store : GraphStore)
    (dirNodesInserted : Finset Str) (d : SourceFile) :
    Except IndexErr (GraphStore × Finset Str × ParseOutcome) := do
  let (st, outcome) ← indexNewFile ps policy d d.relId
    { store := store
      batch := .empty
      labels := []
      seenNodeIds := []
      dirNodesInserted := dirNodesInserted }
  let st ← flush st
  return (st.store, st.dirNodesInserted, outcome)

structure Reparsed where
  store : GraphStore
  dirNodesInserted : Finset Str
  outcomes : List (Str × ParseOutcome)

def reparseModified (ps : Parser) (policy : ParsePolicy) (acc : Reparsed) (d : SourceFile) :
    Except IndexErr Reparsed := do
  let (store, outcome) ← reparseModifiedFile ps policy acc.store d
  return { acc with store := store, outcomes := acc.outcomes ++ [(d.relId, outcome)] }

def reparseNew (ps : Parser) (policy : ParsePolicy) (acc : Reparsed) (d : SourceFile) :
    Except IndexErr Reparsed := do
  let (store, dirs, outcome) ← reparseNewFile ps policy acc.store acc.dirNodesInserted d
  return {
    store := store
    dirNodesInserted := dirs
    outcomes := acc.outcomes ++ [(d.relId, outcome)] }

/-! ### The pass -/

def ChangeSet.changedRels (changes : ChangeSet) : List Str := changes.changed.map SourceFile.relId

/-- The files that are parsed again. -/
def ChangeSet.reparsedSet (changes : ChangeSet) : Finset Str :=
  (changes.changedRels ++ changes.added.map SourceFile.relId ++
    changes.renamed.map fun r => r.newFile.relId).toFinset

def purge (changes : ChangeSet) (store : GraphStore) : GraphStore :=
  let store := changes.changedRels.foldl (fun store rel => purgeChanged rel store) store
  let store := changes.deleted.foldl (fun store rel => purgeGone rel store) store
  changes.renamed.foldl (fun store r => purgeGone r.oldRel store) store

def reparse (ps : Parser) (policy : ParsePolicy) (changes : ChangeSet) (store : GraphStore) :
    Except IndexErr Reparsed := do
  let acc : Reparsed :=
    { store := store, dirNodesInserted := existingDirectoryIds store, outcomes := [] }
  let acc ← changes.changed.foldlM (reparseModified ps policy) acc
  let acc ← changes.added.foldlM (reparseNew ps policy) acc
  changes.renamed.foldlM (fun acc r => reparseNew ps policy acc r.newFile) acc

/-- `apply_changes`: the graph, the number of files parsed, and the outcome of each. -/
def applyChanges (ps : Parser) (policy : ParsePolicy) (store : GraphStore) (changes : ChangeSet)
    (allCurrent : List SourceFile) :
    Except IndexErr (GraphStore × Nat × List (Str × ParseOutcome)) := do
  let saved := snapshotInboundEdges store changes.changedRels changes.reparsedSet
  let acc ← reparse ps policy changes (purge changes store)
  let store :=
    if changes.deleted.isEmpty && changes.renamed.isEmpty then acc.store
    else pruneOrphanDirectories maxDepth acc.store
  let reparsedFiles := allCurrent.filter fun d => d.relId ∈ changes.reparsedSet
  let store :=
    if reparsedFiles.isEmpty then store
    else linkFileImportsFor store reparsedFiles allCurrent
  return (relinkInboundEdges store saved, changes.reparsedSet.card, acc.outcomes)

end AutomatisedPipeline.Indexer

import AutomatisedPipeline.Indexer.Purge

/-!
Parsing again: a changed file gains the symbols of its new text, a new file its
part and the directories above it. Both see the rest of the graph only through
the keys it takes, so the order of the files does not matter.
-/

namespace AutomatisedPipeline.Indexer

open Text Store

section Reparse

variable {ps : Parser} {policy : ParsePolicy} {A : GraphStore} {d : SourceFile}

/-- The structure of a file does not see what belongs to other files. -/
theorem refs_live_add (hA : ∀ n ∈ A.nodes, ¬Reserved d.relativePath n.key) {e : Edge}
    (he : e ∈ refEdges ps policy d) :
    (A + (fileGraph ps policy d + ⟨symbolRows ps policy d, 0⟩)).Live e ↔
      (fileGraph ps policy d + ⟨symbolRows ps policy d, 0⟩).Live e := by
  have hres := (isStructure_of_mem_refEdges he).reserved
  have hend : ∀ k ∈ [e.sourceKey, e.targetKey],
      (A + (fileGraph ps policy d + ⟨symbolRows ps policy d, 0⟩)).Has k ↔
        (fileGraph ps policy d + ⟨symbolRows ps policy d, 0⟩).Has k := by
    intro k hk
    refine Graph.has_add.trans (or_iff_right ?_)
    rintro ⟨n, hn, rfl⟩
    exact hA n hn (hres _ hk)
  exact and_congr (hend e.sourceKey (by simp)) (hend e.targetKey (by simp))

/-- The symbols of a file have keys that no other file takes. -/
theorem symbolRows_new (hA : ∀ n ∈ A.nodes, ¬Reserved d.relativePath n.key) :
    ∀ n ∈ symbolRows ps policy d, ¬(A + fileGraph ps policy d).Has n.key := by
  intro n hn hhas
  obtain ⟨node, hnode, hkey⟩ := mem_symbolRows hn
  rcases Graph.has_add.mp hhas with ⟨m, hm, hmkey⟩ | ⟨m, hm, hmkey⟩
  · refine hA m hm ?_
    have hmkey' : m.key = n.key := hmkey
    rw [hmkey', hkey]
    exact ⟨by simp, .inr (within_of_mem_acceptedOf hnode)⟩
  · obtain rfl := Multiset.mem_singleton.mp hm
    have hlabel := congrArg Prod.fst (hmkey.trans hkey)
    cases hlabel

/-- A flush writes the symbols and the structure of a parsed file. -/
theorem settled_parsed {st : IndexState} (hA : ∀ n ∈ A.nodes, ¬Reserved d.relativePath n.key)
    (hstore : st.store = A + fileGraph ps policy d)
    (hnodes : st.batch.nodes = symbolRows ps policy d)
    (hedges : st.batch.edges = refEdges ps policy d) :
    st.settled = A + (fileGraph ps policy d + symbolGraph ps policy d) := by
  have hall : st.settled.nodes =
      (A + (fileGraph ps policy d + ⟨symbolRows ps policy d, 0⟩)).nodes := by
    rw [settled_nodes, hstore, hnodes, Graph.nodes_add, Graph.nodes_add, Graph.nodes_add,
      add_assoc]
  refine Store.Graph.ext hall ?_
  have hlive : (refEdges ps policy d : Multiset Edge).filter st.settled.Live =
      (symbolGraph ps policy d).edges := by
    refine Multiset.filter_congr fun e he => ?_
    refine Iff.trans ?_ (refs_live_add hA (Multiset.mem_coe.mp he))
    exact iff_of_eq (congrArg (fun ns => Graph.Live (⟨ns, 0⟩ : GraphStore) e) hall)
  rw [settled_edges, hstore, hedges, hlive, Graph.edges_add, Graph.edges_add, Graph.edges_add,
    add_assoc]

theorem resetFile_other {rel : Str} {size : Nat} {n : Node} (h : n.key ≠ (.file, rel)) :
    resetFile rel size n = n := by
  cases n with
  | directory id name => rfl
  | file id name ext oldSize oldErrors =>
      have hne : id ≠ rel := by
        rintro rfl
        exact h rfl
      simp [resetFile, hne]
  | symbol node language => rfl

/-- The state in which a changed file is parsed. -/
def resetState (store : GraphStore) (rel : Str) : IndexState :=
  { store := store
    batch := .empty
    labels := [(rel, .file)]
    seenNodeIds := []
    dirNodesInserted := ∅ }

theorem unseen_resetState (store : GraphStore) (rel : Str) : Unseen rel (resetState store rel) := by
  constructor
  · exact List.mem_singleton_self _
  · intro id l hmem _ _
    exact List.mem_singleton.mp hmem
  · intro k hk
    cases hk

/-- The file is parsed and its rows are written. -/
theorem flush_resetState {B : GraphStore} (hfree : ∀ n ∈ B.nodes, ¬Reserved d.relativePath n.key) :
    ∃ st outcome, indexSingleFile ps (.of policy d) d d.relativePath
        (resetState (B + ⟨{fileNode d d.relativePath 0}, 0⟩) d.relativePath) = (st, outcome) ∧
      flush st = .ok { st with store := st.settled, batch := .empty } ∧
      st.settled = B + (fileGraph ps policy d + symbolGraph ps policy d) := by
  have hnofile : ∀ n ∈ B.nodes, n.key ≠ (.file, d.relativePath) :=
    fun n hn => ne_file_of_not_reserved (hfree n hn)
  have hindex := @indexSingleFile_eq ps policy d
    (resetState (B + ⟨{fileNode d d.relativePath 0}, 0⟩) d.relativePath) _ rfl hnofile
    (unseen_resetState _ _)
  obtain ⟨st, outcome, hparse⟩ : ∃ st outcome, indexSingleFile ps (.of policy d) d d.relativePath
      (resetState (B + ⟨{fileNode d d.relativePath 0}, 0⟩) d.relativePath) = (st, outcome) :=
    ⟨_, _, (Prod.eta _).symm⟩
  rw [hparse] at hindex
  change st = _ at hindex
  refine ⟨st, outcome, hparse, ?_, ?_⟩
  · refine flush_ok ?_ ?_
    · rw [hindex]
      exact symbolRows_nodup
    · rw [hindex]
      exact symbolRows_new hfree
  · refine settled_parsed hfree ?_ ?_ ?_
    · rw [hindex]
    · rw [hindex]
      rfl
    · rw [hindex]
      rfl

/-- The file node is reset, the file parsed, and the rows are written. -/
theorem reparseModifiedFile_eq {store : GraphStore} {st : IndexState} {outcome : ParseOutcome}
    (h : indexSingleFile ps (.of policy d) d d.relId
      (resetState (store.updateNodes (resetFile d.relId d.size)) d.relId) = (st, outcome)) :
    reparseModifiedFile ps policy store d = (flush st).map fun st => (st.store, outcome) := by
  rw [resetState] at h
  rw [reparseModifiedFile, h]
  dsimp only
  cases flush st <;> rfl

/-- A changed file is parsed into the place its earlier version has. -/
theorem reparseModifiedFile_ok {old : SourceFile} (hid : d.relId = d.relativePath)
    (hold : old.relativePath = d.relativePath)
    (hA : ∀ n ∈ A.nodes, ¬Reserved d.relativePath n.key) :
    ∃ outcome, reparseModifiedFile ps policy (A + stubPart ps policy old) d =
      .ok (A + filePart ps policy d, outcome) := by
  obtain ⟨hdirs, hname⟩ := SourceFile.path_eq hold
  have hparent : parentGraph old = parentGraph d := by
    simp only [parentGraph, parentEdges, hdirs, hold]
  have hfree : ∀ n ∈ (A + parentGraph d).nodes, ¬Reserved d.relativePath n.key := by
    intro n hn
    rw [Graph.nodes_add, parentGraph, add_zero] at hn
    exact hA n hn
  have hnofile : ∀ n ∈ (A + parentGraph d).nodes, n.key ≠ (.file, d.relativePath) :=
    fun n hn => ne_file_of_not_reserved (hfree n hn)
  have hreset : (A + stubPart ps policy old).updateNodes (resetFile d.relativePath d.size) =
      A + parentGraph d + ⟨{fileNode d d.relativePath 0}, 0⟩ := by
    have hstub : A + stubPart ps policy old = A + parentGraph d +
        ⟨{fileNode old d.relativePath (parseErrorsOf ps policy old)}, 0⟩ := by
      rw [stubPart, hparent, add_assoc, add_comm (parentGraph d), fileGraph, hold]
    rw [hstub]
    refine Graph.updateNodes_singleton (fun n hn => resetFile_other (hnofile n hn)) ?_
    simp [fileNode, resetFile, hname]
  obtain ⟨st, outcome, hparse, hflush, hsettled⟩ := @flush_resetState ps policy d _ hfree
  have hpart : A + parentGraph d + (fileGraph ps policy d + symbolGraph ps policy d) =
      A + filePart ps policy d := by
    rw [filePart]
    abel
  refine ⟨outcome, ?_⟩
  rw [← hid] at hreset hparse
  rw [reparseModifiedFile_eq (hreset ▸ hparse), hflush]
  change Except.ok (st.settled, outcome) = _
  rw [hsettled, hpart]

/-- The state in which a new file is indexed. -/
def startState (store : GraphStore) (inserted : Finset Str) : IndexState :=
  { store := store
    batch := .empty
    labels := []
    seenNodeIds := []
    dirNodesInserted := inserted }

theorem settled_startState (store : GraphStore) (inserted : Finset Str) :
    (startState store inserted).settled = store :=
  settled_flushed (startState store inserted) store

theorem ready_startState {D : Finset (List FileName)} {inserted : Finset Str}
    (hproper : ∀ p ∈ D, p ≠ []) (hdirs : DirsAre D inserted)
    (hhas : ∀ p, p ≠ [] → (A.Has (.directory, pathString p) ↔ p ∈ D))
    (hA : ∀ n ∈ A.nodes, ¬Reserved d.relativePath n.key) :
    Ready D d.relativePath (startState A inserted) := by
  constructor
  · exact hproper
  · exact hdirs
  · rwa [settled_startState]
  · rwa [settled_startState]
  · simp [startState]
  · simp [startState]
  · simp [startState, SymbolBatch.empty]

/-- A new file gains its part, and the directories above it that had no node. -/
theorem reparseNewFile_ok {D : Finset (List FileName)} {inserted : Finset Str}
    (hid : d.relId = d.relativePath) (hproper : ∀ p ∈ D, p ≠ []) (hdirs : DirsAre D inserted)
    (hhas : ∀ p, p ≠ [] → (A.Has (.directory, pathString p) ↔ p ∈ D))
    (hA : ∀ n ∈ A.nodes, ¬Reserved d.relativePath n.key) :
    ∃ inserted' outcome, reparseNewFile ps policy A inserted d =
        .ok (A + ((freshDirs D d.ancestors).map dirPart).sum + filePart ps policy d, inserted',
          outcome) ∧ DirsAre (D ∪ d.ancestors.toFinset) inserted' := by
  have hready := ready_startState hproper hdirs hhas hA
  obtain ⟨st', outcome, hnew, hi⟩ := indexNewFile_ok ps policy hready
  have hrows : st'.batch.nodes = symbolRows ps policy d := hi.batchNodes
  have hfree : ∀ n ∈ (A + ⟨(freshDirs D d.ancestors).map dirNode, 0⟩ : GraphStore).nodes,
      ¬Reserved d.relativePath n.key := by
    intro n hn
    rcases Multiset.mem_add.mp hn with hold | hdir
    · exact hA n hold
    · obtain ⟨p, _, rfl⟩ := List.mem_map.mp (Multiset.mem_coe.mp hdir)
      exact fun hres => hres.1 rfl
  have hflush : flush st' = .ok { st' with store := st'.settled, batch := .empty } := by
    refine flush_ok (by rw [hrows]; exact symbolRows_nodup) ?_
    rw [hrows, hi.store]
    exact symbolRows_new hfree
  refine ⟨st'.dirNodesInserted, outcome, ?_, hi.dirs⟩
  rw [reparseNewFile, hid]
  change (indexNewFile ps policy d d.relativePath (startState A inserted) >>= fun _ => _) = _
  rw [hnew]
  change (flush st' >>= fun _ => _) = _
  rw [hflush]
  change Except.ok (st'.settled, _, _) = _
  rw [hi.settled hready, settled_startState]

/-- The Directory nodes of a graph whose other parts have none. -/
theorem dirsAre_existing {B : GraphStore} {D : Finset (List FileName)}
    (hB : ∀ n ∈ B.nodes, n.key.1 ≠ .directory) :
    DirsAre D (existingDirectoryIds (B + ∑ p ∈ D, dirPart p)) := by
  intro id
  rw [existingDirectoryIds, Multiset.mem_toFinset, Multiset.mem_filterMap]
  constructor
  · rintro ⟨n, hn, hid⟩
    rcases Multiset.mem_add.mp hn with hbase | hdir
    · have hnone := hB n hbase
      cases n with
      | directory _ _ => exact absurd rfl hnone
      | file _ _ _ _ _ => cases hid
      | symbol _ _ => cases hid
    · obtain ⟨p, hp, hmem⟩ := Graph.mem_nodes_finsetSum.mp hdir
      obtain rfl : n = dirNode p := Multiset.mem_singleton.mp hmem
      exact ⟨p, hp, Option.some.inj hid⟩
  · rintro ⟨p, hp, rfl⟩
    refine ⟨dirNode p, Multiset.mem_add.mpr (.inr ?_), rfl⟩
    exact Graph.mem_nodes_finsetSum.mpr ⟨p, hp, Multiset.mem_singleton_self _⟩

/-! ### All files of one kind -/

variable {ds : List SourceFile}

/-- The files are apart from each other and from what the graph has already. -/
structure Fresh (B : GraphStore) (ds : List SourceFile) : Prop where
  ids : ∀ d ∈ ds, d.relId = d.relativePath
  apart : ds.Pairwise fun d d' => Apart d.relativePath d'.relativePath
  free : ∀ d ∈ ds, ∀ n ∈ B.nodes, ¬Reserved d.relativePath n.key

/-- Behind one of the files the others are still apart. -/
theorem Fresh.tail {B : GraphStore} (h : Fresh B (d :: ds)) :
    Fresh (B + filePart ps policy d) ds where
  ids := fun d' hd' => h.ids d' (List.mem_cons_of_mem _ hd')
  apart := (List.pairwise_cons.mp h.apart).2
  free := by
    intro d' hd' n hn
    rcases Multiset.mem_add.mp hn with hold | hown
    · exact h.free d' (List.mem_cons_of_mem _ hd') n hold
    · exact ((List.pairwise_cons.mp h.apart).1 d' hd').reserved (reserved_of_mem_filePart hown)

/-- Parsing all changed files again. -/
theorem reparseModified_run {B : GraphStore} {old : SourceFile → SourceFile} (h : Fresh B ds)
    (hold : ∀ d ∈ ds, (old d).relativePath = d.relativePath) (acc : Reparsed)
    (hstore : acc.store = B + (ds.map fun d => stubPart ps policy (old d)).sum) :
    ∃ outcomes, ds.foldlM (reparseModified ps policy) acc = .ok
      { acc with store := B + (ds.map (filePart ps policy)).sum, outcomes := outcomes } := by
  induction ds generalizing B acc with
  | nil =>
      refine ⟨acc.outcomes, ?_⟩
      obtain ⟨store, dirs, outcomes⟩ := acc
      obtain rfl : store = B + 0 := hstore
      rfl
  | cons d ds ih =>
      have hsplit : acc.store = B + (ds.map fun d => stubPart ps policy (old d)).sum +
          stubPart ps policy (old d) := by
        rw [hstore, List.map_cons, List.sum_cons]
        abel
      have hfree : ∀ n ∈ (B + (ds.map fun d => stubPart ps policy (old d)).sum).nodes,
          ¬Reserved d.relativePath n.key := by
        intro n hn
        rcases Multiset.mem_add.mp hn with hbase | hstub
        · exact h.free d List.mem_cons_self n hbase
        · obtain ⟨d', hd', hn⟩ := Graph.mem_nodes_sum.mp hstub
          rw [stubPart, Graph.nodes_add, parentGraph, add_zero] at hn
          obtain rfl := Multiset.mem_singleton.mp hn
          have hapart := (List.pairwise_cons.mp h.apart).1 d' hd'
          refine hapart.symm.reserved ⟨by simp [fileNode, Node.key], .inl ?_⟩
          exact hold d' (List.mem_cons_of_mem _ hd')
      obtain ⟨outcome, hrun⟩ := @reparseModifiedFile_ok ps policy _ d (old d)
        (h.ids d List.mem_cons_self) (hold d List.mem_cons_self) hfree
      obtain ⟨outcomes, hrest⟩ := ih (@Fresh.tail ps policy d ds B h)
        (fun d' hd' => hold d' (List.mem_cons_of_mem _ hd'))
        { acc with
          store := B + filePart ps policy d + (ds.map fun d => stubPart ps policy (old d)).sum
          outcomes := acc.outcomes ++ [(d.relId, outcome)] } rfl
      refine ⟨outcomes, ?_⟩
      rw [List.foldlM_cons, reparseModified, hsplit, hrun]
      change (ds.foldlM (reparseModified ps policy) { acc with store := _, outcomes := _ }) = _
      rw [add_right_comm, hrest, List.map_cons, List.sum_cons, add_assoc]

/-- Indexing all new files: the directories above them are created once. -/
theorem reparseNew_run {B : GraphStore} {D : Finset (List FileName)} (h : Fresh B ds)
    (hB : ∀ n ∈ B.nodes, n.key.1 ≠ .directory) (hproper : ∀ p ∈ D, p ≠ []) (acc : Reparsed)
    (hdirs : DirsAre D acc.dirNodesInserted) (hstore : acc.store = B + ∑ p ∈ D, dirPart p) :
    ∃ inserted outcomes, ds.foldlM (reparseNew ps policy) acc = .ok
      { store := B + (ds.map (filePart ps policy)).sum + ∑ p ∈ D ∪ dirsOf ds, dirPart p
        dirNodesInserted := inserted
        outcomes := outcomes } ∧ DirsAre (D ∪ dirsOf ds) inserted := by
  induction ds generalizing B D acc with
  | nil =>
      obtain ⟨store, inserted, outcomes⟩ := acc
      obtain rfl : store = B + ∑ p ∈ D, dirPart p := hstore
      refine ⟨inserted, outcomes, ?_, by simpa [dirsOf] using hdirs⟩
      simp [dirsOf, pure, Except.pure]
  | cons d ds ih =>
      have hhas : ∀ p, p ≠ [] → (acc.store.Has (.directory, pathString p) ↔ p ∈ D) := by
        intro p hp
        rw [hstore, Graph.has_add, has_directory_dirParts hproper hp]
        refine or_iff_right ?_
        rintro ⟨n, hn, hkey⟩
        exact hB n hn (congrArg Prod.fst hkey)
      have hfree : ∀ n ∈ acc.store.nodes, ¬Reserved d.relativePath n.key := by
        intro n hn
        rw [hstore] at hn
        rcases Multiset.mem_add.mp hn with hbase | hdir
        · exact h.free d List.mem_cons_self n hbase
        · obtain ⟨p, _, hn⟩ := Graph.mem_nodes_finsetSum.mp hdir
          obtain rfl : n = dirNode p := Multiset.mem_singleton.mp hn
          exact fun hres => hres.1 rfl
      obtain ⟨inserted, outcome, hrun, hinserted⟩ :=
        @reparseNewFile_ok ps policy _ d D acc.dirNodesInserted (h.ids d List.mem_cons_self)
          hproper hdirs hhas hfree
      have hproper' : ∀ p ∈ D ∪ d.ancestors.toFinset, p ≠ [] := by
        intro p hp
        rcases Finset.mem_union.mp hp with hp | hp
        · exact hproper p hp
        · exact (mem_ancestors.mp (List.mem_toFinset.mp hp)).1
      have hB' : ∀ n ∈ (B + filePart ps policy d).nodes, n.key.1 ≠ .directory := by
        intro n hn
        rcases Multiset.mem_add.mp hn with hbase | hown
        · exact hB n hbase
        · exact (reserved_of_mem_filePart hown).1
      have hunion : D ∪ d.ancestors.toFinset ∪ dirsOf ds = D ∪ dirsOf (d :: ds) := by
        rw [Finset.union_assoc, dirsOf, dirsOf, List.flatMap_cons, List.toFinset_append]
      obtain ⟨inserted', outcomes, hrest, hinserted'⟩ :=
        ih (@Fresh.tail ps policy d ds B h) hB' hproper'
          { store := B + filePart ps policy d + ∑ p ∈ D ∪ d.ancestors.toFinset, dirPart p
            dirNodesInserted := inserted
            outcomes := acc.outcomes ++ [(d.relId, outcome)] } hinserted rfl
      refine ⟨inserted', outcomes, ?_, hunion ▸ hinserted'⟩
      have hmid : acc.store + ((freshDirs D d.ancestors).map dirPart).sum + filePart ps policy d =
          B + filePart ps policy d + ∑ p ∈ D ∪ d.ancestors.toFinset, dirPart p := by
        rw [hstore, dirParts_union]
        abel
      rw [List.foldlM_cons, reparseNew, hrun]
      change ds.foldlM (reparseNew ps policy) { store := _, dirNodesInserted := _, outcomes := _ } = _
      rw [hmid, hrest, hunion, List.map_cons, List.sum_cons, add_assoc B]

end Reparse

end AutomatisedPipeline.Indexer

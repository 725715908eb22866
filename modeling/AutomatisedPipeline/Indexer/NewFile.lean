import AutomatisedPipeline.Indexer.FilePart

/-!
Indexing a file that the graph does not have. What the state stands for is the
store with the batch flushed into it; a new file adds its part to that, and the
directories above it that have no node yet.
-/

namespace AutomatisedPipeline.Indexer

open Text Store

/-! ### Flushing -/

/-- The store as it will be once the batch is flushed. -/
def IndexState.settled (st : IndexState) : GraphStore :=
  (st.store + ⟨st.batch.nodes, 0⟩).insertEdges st.batch.edges

theorem settled_nodes (st : IndexState) :
    st.settled.nodes = st.store.nodes + (st.batch.nodes : Multiset Node) := rfl

theorem settled_edges (st : IndexState) :
    st.settled.edges = st.store.edges + (st.batch.edges : Multiset Edge).filter st.settled.Live := by
  change st.store.edges + 0 + _ = _
  rw [add_zero]
  rfl

theorem flush_ok {st : IndexState} (hnodup : (st.batch.nodes.map Node.key).Nodup)
    (hnew : ∀ n ∈ st.batch.nodes, ¬st.store.Has n.key) :
    flush st = .ok { st with store := st.settled, batch := .empty } := by
  have hinsert : st.store.insertNodes st.batch.nodes = .ok (st.store + ⟨st.batch.nodes, 0⟩) :=
    Graph.insertNodes_ok hnodup hnew
  simp [flush, hinsert, Except.mapError, IndexState.settled, bind, Except.bind, pure, Except.pure]

theorem flush_eq_ok {st st' : IndexState} (h : flush st = .ok st') :
    st' = { st with store := st.settled, batch := .empty } := by
  obtain ⟨store, hstore, h⟩ := Run.bind_eq_ok.mp h
  have hinsert : st.store.insertNodes st.batch.nodes = .ok store := by
    cases hrun : st.store.insertNodes st.batch.nodes with
    | error k =>
        rw [hrun] at hstore
        cases hstore
    | ok g =>
        rw [hrun] at hstore
        cases hstore
        rfl
  cases h
  rw [Graph.insertNodes_eq_ok hinsert]
  rfl

theorem settled_flushed (st : IndexState) (store : GraphStore) :
    { st with store := store, batch := SymbolBatch.empty }.settled = store := by
  refine Store.Graph.ext (add_zero _) ?_
  rw [settled_edges]
  exact add_zero _

/-! ### Directories -/

def dirNode (p : List FileName) : Node :=
  .directory (pathString p) ((p.getLast?.map Subtype.val).getD [])

def dirEdges (p : List FileName) : List Edge :=
  if p.dropLast = [] then []
  else [containsEdge containsDirDir (pathString p.dropLast) (pathString p)]

/-- All that the graph has of a directory itself. -/
def dirPart (p : List FileName) : GraphStore := ⟨{dirNode p}, dirEdges p⟩

/-- These are the directories with a node. -/
def DirsAre (D : Finset (List FileName)) (inserted : Finset Str) : Prop :=
  ∀ id, id ∈ inserted ↔ ∃ p ∈ D, pathString p = id

/-- The directories on the way that have no node yet. -/
def freshDirs (D : Finset (List FileName)) (ps : List (List FileName)) : List (List FileName) :=
  ps.filter (· ∉ D)

section Directories

variable {D : Finset (List FileName)}

theorem mem_freshDirs {ps : List (List FileName)} {p : List FileName} :
    p ∈ freshDirs D ps ↔ p ∈ ps ∧ p ∉ D := by simp [freshDirs]

theorem freshDirs_cons_of_mem {p : List FileName} {ps : List (List FileName)} (h : p ∈ D) :
    freshDirs D (p :: ps) = freshDirs D ps := by
  simp [freshDirs, h]

theorem freshDirs_cons_of_notMem {p : List FileName} {ps : List (List FileName)} (h : p ∉ D)
    (hps : p ∉ ps) : freshDirs D (p :: ps) = p :: freshDirs (insert p D) ps := by
  rw [freshDirs, List.filter_cons_of_pos (by simpa using h)]
  congr 1
  refine List.filter_congr fun q hq => ?_
  have hne : q ≠ p := fun heq => hps (heq ▸ hq)
  simp [hne]

theorem union_toFinset_cons (p : List FileName) (ps : List (List FileName)) :
    D ∪ (p :: ps).toFinset = insert p D ∪ ps.toFinset := by
  rw [List.toFinset_cons, Finset.union_insert, Finset.insert_union]

/-- The directories further on are longer. -/
theorem self_notMem_dirPaths (p rest : List FileName) : p ∉ dirPaths p rest := by
  intro h
  obtain ⟨q, hq, -, heq⟩ := mem_dirPaths.mp h
  exact hq (List.self_eq_append_right.mp heq)

namespace DirsAre

variable {inserted : Finset Str}

theorem mem_iff (h : DirsAre D inserted) (hne : ∀ p ∈ D, p ≠ []) {p : List FileName}
    (hp : p ≠ []) : pathString p ∈ inserted ↔ p ∈ D := by
  rw [h]
  constructor
  · rintro ⟨q, hq, heq⟩
    exact pathString_injective (hne q hq) hp heq ▸ hq
  · intro hmem
    exact ⟨p, hmem, rfl⟩

theorem insert (h : DirsAre D inserted) (p : List FileName) :
    DirsAre (insert p D) (insert (pathString p) inserted) := by
  intro id
  rw [Finset.mem_insert, h]
  constructor
  · rintro (rfl | ⟨q, hq, rfl⟩)
    · exact ⟨_, Finset.mem_insert_self _ _, rfl⟩
    · exact ⟨q, Finset.mem_insert_of_mem hq, rfl⟩
  · rintro ⟨q, hq, rfl⟩
    rcases Finset.mem_insert.mp hq with rfl | hq
    · exact .inl rfl
    · exact .inr ⟨q, hq, rfl⟩

end DirsAre

/-- The state behind the node of one directory. -/
def withDir (st : IndexState) (p : List FileName) : IndexState :=
  { st with
    store := st.store + ⟨{dirNode p}, 0⟩
    dirNodesInserted := insert (pathString p) st.dirNodesInserted
    labels := (pathString p, .directory) :: st.labels
    batch := { st.batch with edges := st.batch.edges ++ dirEdges p } }

theorem has_withDir {st : IndexState} {p q : List FileName} (hp : p ≠ []) (hq : q ≠ [])
    (h : (withDir st p).store.Has (.directory, pathString q)) :
    q = p ∨ st.store.Has (.directory, pathString q) := by
  rcases Graph.has_add.mp h with hold | ⟨n, hn, hkey⟩
  · exact .inr hold
  · obtain rfl : n = dirNode p := Multiset.mem_singleton.mp hn
    exact .inl (pathString_injective hp hq (congrArg Prod.snd hkey)).symm

section Step

variable {prev rest : List FileName} {component : FileName} {st : IndexState}

theorem insertAncestorDirs_cons_of_mem
    (h : pathString (prev ++ [component]) ∈ st.dirNodesInserted) :
    insertAncestorDirs prev (component :: rest) st =
      insertAncestorDirs (prev ++ [component]) rest st := by
  rw [insertAncestorDirs, if_pos h]

theorem insertAncestorDirs_cons_of_notMem
    (h : pathString (prev ++ [component]) ∉ st.dirNodesInserted)
    (hstore : ¬st.store.Has (.directory, pathString (prev ++ [component]))) :
    insertAncestorDirs prev (component :: rest) st =
      insertAncestorDirs (prev ++ [component]) rest (withDir st (prev ++ [component])) := by
  have hkey : ¬st.store.Has (Node.directory (pathString (prev ++ [component])) component.1).key :=
    hstore
  have hnode : Node.directory (pathString (prev ++ [component])) component.1 =
      dirNode (prev ++ [component]) := by simp [dirNode]
  have hbatch : (if prev = [] then st.batch
      else st.batch.pushEdge (containsEdge containsDirDir (pathString prev)
        (pathString (prev ++ [component])))) = (withDir st (prev ++ [component])).batch := by
    rw [withDir, dirEdges, List.dropLast_concat]
    split
    · rw [List.append_nil]
    · rfl
  rw [insertAncestorDirs]
  rw [if_neg h, Graph.insertNode_ok hkey, hnode]
  exact congrArg (fun batch => insertAncestorDirs (prev ++ [component]) rest
    { withDir st (prev ++ [component]) with batch := batch }) hbatch

end Step

theorem insertAncestorDirs_eq {prev rest : List FileName} {st : IndexState}
    (hne : ∀ p ∈ D, p ≠ []) (hdirs : DirsAre D st.dirNodesInserted)
    (hstore : ∀ p, p ≠ [] → st.store.Has (.directory, pathString p) → p ∈ D) :
    ∃ st', insertAncestorDirs prev rest st = .ok st' ∧
      st'.store = st.store + ⟨(freshDirs D (dirPaths prev rest)).map dirNode, 0⟩ ∧
        st'.batch = { st.batch with
          edges := st.batch.edges ++ (freshDirs D (dirPaths prev rest)).flatMap dirEdges } ∧
          st'.seenNodeIds = st.seenNodeIds ∧
            (∀ id l, (id, l) ∈ st'.labels → l = .directory ∨ (id, l) ∈ st.labels) ∧
              DirsAre (D ∪ (dirPaths prev rest).toFinset) st'.dirNodesInserted := by
  induction rest generalizing prev D st with
  | nil =>
      refine ⟨st, rfl, ?_, ?_, rfl, fun _ _ h => .inr h, ?_⟩
      · exact (add_zero st.store).symm
      · simp [freshDirs, dirPaths]
      · simpa [dirPaths] using hdirs
  | cons component rest ih =>
      have hp : prev ++ [component] ≠ [] := by simp
      rw [dirPaths]
      by_cases hmem : prev ++ [component] ∈ D
      · rw [insertAncestorDirs_cons_of_mem ((hdirs.mem_iff hne hp).mpr hmem),
          freshDirs_cons_of_mem hmem, union_toFinset_cons, Finset.insert_eq_self.mpr hmem]
        exact ih hne hdirs hstore
      · have hid := mt (hdirs.mem_iff hne hp).mp hmem
        have hne' : ∀ q ∈ insert (prev ++ [component]) D, q ≠ [] :=
          (Finset.forall_mem_insert _ _ _).mpr ⟨hp, hne⟩
        have hstore' : ∀ q, q ≠ [] →
            (withDir st (prev ++ [component])).store.Has (.directory, pathString q) →
              q ∈ insert (prev ++ [component]) D := by
          intro q hq hhas
          rcases has_withDir hp hq hhas with rfl | hold
          · exact Finset.mem_insert_self _ _
          · exact Finset.mem_insert_of_mem (hstore q hq hold)
        obtain ⟨st', hrun, hst, hbatch, hseen, hlabels, hdirs'⟩ :=
          @ih _ (prev ++ [component]) _ hne' (hdirs.insert _) hstore'
        rw [insertAncestorDirs_cons_of_notMem hid fun h => hmem (hstore _ hp h),
          freshDirs_cons_of_notMem hmem (self_notMem_dirPaths _ _), union_toFinset_cons]
        refine ⟨st', hrun, ?_, ?_, hseen, ?_, hdirs'⟩
        · rw [hst, withDir, add_assoc]
          rfl
        · rw [hbatch, withDir, List.flatMap_cons, ← List.append_assoc]
        · intro id l hmem'
          rcases hlabels id l hmem' with hdir | hold
          · exact .inl hdir
          · rcases List.mem_cons.mp hold with heq | hold
            · exact .inl (congrArg Prod.snd heq)
            · exact .inr hold

end Directories

/-! ### A new file -/

/-- A node or an edge end that belongs to the file at this path. -/
def Reserved (rel : Str) (k : Key) : Prop := k.1 ≠ .directory ∧ Owned rel k.2

theorem ne_file_of_not_reserved {rel : Str} {k : Key} (h : ¬Reserved rel k) : k ≠ (.file, rel) := by
  rintro rfl
  exact h ⟨by simp, .inl rfl⟩

/-- The state has the directories `D` and knows nothing of the file at this path. -/
structure Ready (D : Finset (List FileName)) (rel : Str) (st : IndexState) : Prop where
  proper : ∀ p ∈ D, p ≠ []
  dirs : DirsAre D st.dirNodesInserted
  hasDirs : ∀ p, p ≠ [] → (st.settled.Has (.directory, pathString p) ↔ p ∈ D)
  nodes : ∀ n ∈ st.settled.nodes, ¬Reserved rel n.key
  labels : ∀ id l, (id, l) ∈ st.labels → l ≠ .directory → ¬Owned rel id
  seen : ∀ k ∈ st.seenNodeIds, ¬Within rel k.2
  ends : ∀ e ∈ st.batch.edges, ∀ k ∈ [e.sourceKey, e.targetKey],
    st.settled.Has k ∨ (k.1 ≠ .directory ∧ ¬Reserved rel k)

section NewFile

variable (ps : Parser) (policy : ParsePolicy) {D : Finset (List FileName)} {f : SourceFile}
  {st : IndexState}

/-- What the state of a new file is behind it. -/
structure Indexed (D : Finset (List FileName)) (f : SourceFile) (st st' : IndexState) : Prop where
  store : st'.store =
    st.store + ⟨(freshDirs D f.ancestors).map dirNode, 0⟩ + fileGraph ps policy f
  batchNodes : st'.batch.nodes = st.batch.nodes ++ symbolRows ps policy f
  batchEdges : st'.batch.edges = st.batch.edges ++
    ((freshDirs D f.ancestors).flatMap dirEdges ++ parentEdges f ++ refEdges ps policy f)
  labels : ∀ id l, (id, l) ∈ st'.labels →
    l = .directory ∨ Owned f.relativePath id ∨ (id, l) ∈ st.labels
  seen : ∀ k ∈ st'.seenNodeIds, Within f.relativePath k.2 ∨ k ∈ st.seenNodeIds
  dirs : DirsAre (D ∪ f.ancestors.toFinset) st'.dirNodesInserted

theorem has_of_store {st : IndexState} {k : Key} (h : st.store.Has k) : st.settled.Has k := by
  obtain ⟨n, hn, hk⟩ := h
  exact ⟨n, Multiset.mem_add.mpr (.inl hn), hk⟩

theorem insertDirFileEdge_eq (f : SourceFile) (st : IndexState) :
    insertDirFileEdge f st =
      { st with batch := { st.batch with edges := st.batch.edges ++ parentEdges f } } := by
  unfold insertDirFileEdge parentEdges
  split
  · rw [List.append_nil]
  · rfl

/-- The state behind the node of a file and its edge to the directory above. -/
def withFile (f : SourceFile) (st : IndexState) : IndexState :=
  { store := st.store + ⟨{fileNode f f.relativePath 0}, 0⟩
    batch := { nodes := st.batch.nodes, edges := st.batch.edges ++ parentEdges f }
    labels := (f.relativePath, .file) :: st.labels
    seenNodeIds := st.seenNodeIds
    dirNodesInserted := st.dirNodesInserted }

/-- The directories above a file do not bring its node. -/
theorem Ready.file_notMem {rel : Str} (h : Ready D rel st) (dirs : List (List FileName)) :
    ∀ n ∈ (st.store + ⟨dirs.map dirNode, 0⟩).nodes, n.key ≠ (.file, rel) := by
  intro n hn hkey
  rw [Graph.nodes_add, Multiset.mem_add] at hn
  rcases hn with hold | hdir
  · exact ne_file_of_not_reserved (h.nodes n (Multiset.mem_add.mpr (.inl hold))) hkey
  · obtain ⟨p, _, rfl⟩ := List.mem_map.mp (Multiset.mem_coe.mp hdir)
    cases hkey

/-- The parser finds no symbol of the file in the state. -/
theorem Ready.unseen (h : Ready D f.relativePath st) {st₁ : IndexState}
    (hseen : st₁.seenNodeIds = st.seenNodeIds)
    (hlabels : ∀ id l, (id, l) ∈ st₁.labels → l = .directory ∨ (id, l) ∈ st.labels) :
    Unseen f.relativePath (withFile f st₁) := by
  constructor
  · exact List.mem_cons_self
  · intro id l hmem hl hown
    rcases List.mem_cons.mp hmem with heq | hmem
    · exact heq
    · rcases hlabels id l hmem with hdir | hold
      · exact absurd hdir hl
      · exact absurd hown (h.labels id l hold hl)
  · intro k hk
    exact h.seen k (hseen ▸ hk)

/-- The file is parsed in the state that has its directories and its node. -/
theorem indexNewFile_eq {st₁ : IndexState} (hrun : insertAncestorDirs [] f.dirs st = .ok st₁)
    (hnofile : ∀ n ∈ st₁.store.nodes, n.key ≠ (.file, f.relativePath)) :
    indexNewFile ps policy f f.relativePath st =
      .ok (indexSingleFile ps (.of policy f) f f.relativePath (withFile f st₁)) := by
  have hfile : ¬st₁.store.Has (fileNode f f.relativePath 0).key := by
    rintro ⟨n, hn, hkey⟩
    exact hnofile n hn hkey
  have hinsert : insertFileNode f f.relativePath st₁ = .ok
      { st₁ with
        store := st₁.store + ⟨{fileNode f f.relativePath 0}, 0⟩
        labels := (f.relativePath, .file) :: st₁.labels } := by
    rw [insertFileNode, Graph.insertNode_ok hfile]
    rfl
  rw [indexNewFile, hrun]
  change (insertFileNode f f.relativePath st₁ >>= fun st => _) = _
  rw [hinsert]
  change Except.ok (indexSingleFile _ _ _ _ (insertDirFileEdge f _)) = _
  rw [insertDirFileEdge_eq]
  rfl

theorem indexNewFile_ok (h : Ready D f.relativePath st) :
    ∃ st' outcome, indexNewFile ps policy f f.relativePath st = .ok (st', outcome) ∧
      Indexed ps policy D f st st' := by
  obtain ⟨st₁, hrun₁, hstore₁, hbatch₁, hseen₁, hlabels₁, hdirs₁⟩ :=
    @insertAncestorDirs_eq D [] f.dirs st h.proper h.dirs
      fun p hp hhas => (h.hasDirs p hp).mp (has_of_store hhas)
  have hnofile := h.file_notMem (freshDirs D (dirPaths [] f.dirs))
  rw [← hstore₁] at hnofile
  refine ⟨(indexSingleFile ps (.of policy f) f f.relativePath (withFile f st₁)).1,
    (indexSingleFile ps (.of policy f) f f.relativePath (withFile f st₁)).2,
    indexNewFile_eq ps policy hrun₁ hnofile, ?_⟩
  rw [@indexSingleFile_eq ps policy f (withFile f st₁) st₁.store rfl hnofile
    (h.unseen hseen₁ hlabels₁)]
  constructor
  · exact congrArg (· + fileGraph ps policy f) hstore₁
  · change st₁.batch.nodes ++ _ = _
    rw [hbatch₁]
  · change st₁.batch.edges ++ parentEdges f ++ _ = _
    rw [hbatch₁]
    simp [SourceFile.ancestors]
  · intro id l hmem
    rcases List.mem_append.mp hmem with hown | hold
    · obtain ⟨node, hnode, heq⟩ := List.mem_map.mp hown
      cases heq
      exact .inr (.inl (.inr (within_of_mem_acceptedOf hnode)))
    · rcases List.mem_cons.mp hold with heq | hold
      · cases heq
        exact .inr (.inl (.inl rfl))
      · rcases hlabels₁ id l hold with hdir | hold
        · exact .inl hdir
        · exact .inr (.inr hold)
  · intro k hmem
    rcases List.mem_append.mp hmem with hown | hold
    · obtain ⟨node, hnode, rfl⟩ := List.mem_map.mp hown
      exact .inl (within_of_mem_acceptedOf hnode)
    · exact .inr (hseen₁ ▸ hold)
  · exact hdirs₁

end NewFile

end AutomatisedPipeline.Indexer

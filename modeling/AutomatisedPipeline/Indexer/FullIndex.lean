import AutomatisedPipeline.Indexer.NewFile

/-!
What a full index writes: the part of every file, a node for every directory
above one, and the light links. The walk flushes its batch now and then; the
invariant speaks of the settled graph, so it does not see when.
-/

namespace AutomatisedPipeline.Indexer

open Text Store

/-! ### What one file adds -/

theorem dirParts_nodes (l : List (List FileName)) :
    (l.map dirPart).sum.nodes = (l.map dirNode : List Node) := by
  induction l with
  | nil => rfl
  | cons p l ih =>
      rw [List.map_cons, List.sum_cons, Graph.nodes_add, ih]
      rfl

theorem dirParts_edges (l : List (List FileName)) :
    (l.map dirPart).sum.edges = (l.flatMap dirEdges : List Edge) := by
  induction l with
  | nil => rfl
  | cons p l ih =>
      rw [List.map_cons, List.sum_cons, Graph.edges_add, ih]
      rfl

theorem has_dirParts {l : List (List FileName)} {k : Key} :
    (l.map dirPart).sum.Has k ↔ ∃ p ∈ l, k = (.directory, pathString p) := by
  rw [Graph.has_sum]
  constructor
  · rintro ⟨p, hp, n, hn, hk⟩
    obtain rfl : n = dirNode p := Multiset.mem_singleton.mp hn
    exact ⟨p, hp, hk.symm⟩
  · rintro ⟨p, hp, rfl⟩
    exact ⟨p, hp, dirNode p, Multiset.mem_singleton_self _, rfl⟩

section Part

variable {ps : Parser} {policy : ParsePolicy} {f : SourceFile}

theorem filePart_nodes : (filePart ps policy f).nodes =
    {fileNode f f.relativePath (parseErrorsOf ps policy f)} +
      (symbolRows ps policy f : Multiset Node) := rfl

theorem filePart_edges : (filePart ps policy f).edges =
    (parentEdges f : Multiset Edge) + (symbolGraph ps policy f).edges := by
  change 0 + (parentEdges f : Multiset Edge) + _ = _
  rw [zero_add]

/-- The nodes of a file part belong to the file. -/
theorem reserved_of_mem_filePart {n : Node} (h : n ∈ (filePart ps policy f).nodes) :
    Reserved f.relativePath n.key := by
  rw [filePart_nodes, Multiset.mem_add] at h
  rcases h with hfile | hrow
  · obtain rfl := Multiset.mem_singleton.mp hfile
    exact ⟨by simp [fileNode, Node.key], .inl rfl⟩
  · obtain ⟨node, hnode, hkey⟩ := mem_symbolRows (Multiset.mem_coe.mp hrow)
    rw [hkey]
    exact ⟨by simp, .inr (within_of_mem_acceptedOf hnode)⟩

theorem reserved_of_has_filePart {k : Key} (h : (filePart ps policy f).Has k) :
    Reserved f.relativePath k := by
  obtain ⟨n, hn, rfl⟩ := h
  exact reserved_of_mem_filePart hn

theorem has_filePart_file : (filePart ps policy f).Has (.file, f.relativePath) :=
  ⟨fileNode f f.relativePath (parseErrorsOf ps policy f),
    by rw [filePart_nodes]; exact Multiset.mem_add.mpr (.inl (Multiset.mem_singleton_self _)), rfl⟩

/-- Both ends of the structure of a file belong to it. -/
theorem IsStructure.reserved {e : Edge} {rel : Str} (h : IsStructure rel e) :
    ∀ k ∈ [e.sourceKey, e.targetKey], Reserved rel k := by
  intro k hk
  rcases List.mem_pair.mp hk with rfl | rfl
  · exact ⟨h.sourceLabel, h.source⟩
  · exact ⟨h.targetLabel, h.target⟩

variable {D : Finset (List FileName)} {st st' : IndexState}

theorem Indexed.settled_nodes (hi : Indexed ps policy D f st st') :
    st'.settled.nodes = st.settled.nodes + ((freshDirs D f.ancestors).map dirNode : List Node) +
      (filePart ps policy f).nodes := by
  rw [Indexer.settled_nodes, Indexer.settled_nodes, hi.store, hi.batchNodes, filePart_nodes]
  simp only [Graph.nodes_add, ← Multiset.coe_add]
  change _ + _ + {_} + _ = _
  abel

theorem Indexed.has_settled (hi : Indexed ps policy D f st st') {k : Key} :
    st'.settled.Has k ↔ st.settled.Has k ∨
      (∃ p ∈ freshDirs D f.ancestors, k = (.directory, pathString p)) ∨
        (filePart ps policy f).Has k := by
  have hnodes : st'.settled.Has k ↔
      (st.settled + ((freshDirs D f.ancestors).map dirPart).sum + filePart ps policy f).Has k := by
    unfold Graph.Has
    rw [hi.settled_nodes]
    simp only [Graph.nodes_add, dirParts_nodes]
  rw [hnodes, Graph.has_add, Graph.has_add, has_dirParts, or_assoc]

/-- The directories above the file are there behind it. -/
theorem Indexed.has_ancestor (h : Ready D f.relativePath st) (hi : Indexed ps policy D f st st')
    {p : List FileName} (hp : p ∈ f.ancestors) :
    st'.settled.Has (.directory, pathString p) := by
  rw [hi.has_settled]
  by_cases hD : p ∈ D
  · exact .inl ((h.hasDirs p (h.proper p hD)).mpr hD)
  · exact .inr (.inl ⟨p, mem_freshDirs.mpr ⟨hp, hD⟩, rfl⟩)

/-- The edge above a new directory, and the edge above the file, have both ends. -/
theorem Indexed.parents_live (h : Ready D f.relativePath st) (hi : Indexed ps policy D f st st')
    {e : Edge} (he : e ∈ (freshDirs D f.ancestors).flatMap dirEdges ++ parentEdges f) :
    st'.settled.Live e := by
  rcases List.mem_append.mp he with hdir | hfile
  · obtain ⟨p, hp, hmem⟩ := List.mem_flatMap.mp hdir
    have hanc := (mem_freshDirs.mp hp).1
    unfold dirEdges at hmem
    split at hmem
    · cases hmem
    · rename_i hparent
      obtain rfl := List.mem_singleton.mp hmem
      refine ⟨hi.has_ancestor h ?_, hi.has_ancestor h hanc⟩
      obtain ⟨_, hpre⟩ := mem_ancestors.mp hanc
      exact mem_ancestors.mpr ⟨hparent, (List.dropLast_prefix p).trans hpre⟩
  · unfold parentEdges at hfile
    split at hfile
    · cases hfile
    · rename_i hparent
      obtain rfl := List.mem_singleton.mp hfile
      refine ⟨hi.has_ancestor h (mem_ancestors.mpr ⟨hparent, List.prefix_rfl⟩), ?_⟩
      exact hi.has_settled.mpr (.inr (.inr has_filePart_file))

/-- An edge that waited already gains no end. -/
theorem Indexed.waiting_live (h : Ready D f.relativePath st) (hi : Indexed ps policy D f st st')
    {e : Edge} (he : e ∈ st.batch.edges) : st'.settled.Live e ↔ st.settled.Live e := by
  have hend : ∀ k ∈ [e.sourceKey, e.targetKey], st'.settled.Has k ↔ st.settled.Has k := by
    intro k hk
    rw [hi.has_settled]
    constructor
    · rintro (hold | ⟨p, _, rfl⟩ | hnew)
      · exact hold
      · rcases h.ends e he _ hk with hhas | ⟨hlabel, _⟩
        · exact hhas
        · exact absurd rfl hlabel
      · rcases h.ends e he k hk with hhas | ⟨_, hfree⟩
        · exact hhas
        · exact absurd (reserved_of_has_filePart hnew) hfree
    · exact .inl
  exact and_congr (hend e.sourceKey (by simp)) (hend e.targetKey (by simp))

/-- The structure of the file has its ends in the file or nowhere. -/
theorem Indexed.refs_live (h : Ready D f.relativePath st) (hi : Indexed ps policy D f st st')
    {e : Edge} (he : e ∈ refEdges ps policy f) :
    st'.settled.Live e ↔ (fileGraph ps policy f + ⟨symbolRows ps policy f, 0⟩).Live e := by
  have hend : ∀ k ∈ [e.sourceKey, e.targetKey], st'.settled.Has k ↔
      (fileGraph ps policy f + ⟨symbolRows ps policy f, 0⟩).Has k := by
    intro k hk
    have hres := (isStructure_of_mem_refEdges he).reserved k hk
    rw [hi.has_settled]
    constructor
    · rintro (⟨n, hn, rfl⟩ | ⟨p, _, rfl⟩ | hnew)
      · exact absurd hres (h.nodes n hn)
      · exact absurd rfl hres.1
      · exact hnew
    · exact fun hnew => .inr (.inr hnew)
  exact and_congr (hend e.sourceKey (by simp)) (hend e.targetKey (by simp))

/-- A new file adds its part, and the directories above it that were not there. -/
theorem Indexed.settled (h : Ready D f.relativePath st) (hi : Indexed ps policy D f st st') :
    st'.settled =
      st.settled + ((freshDirs D f.ancestors).map dirPart).sum + filePart ps policy f := by
  refine Store.Graph.ext ?_ ?_
  · rw [hi.settled_nodes, Graph.nodes_add, Graph.nodes_add, dirParts_nodes]
  · have hwaiting : (st.batch.edges : Multiset Edge).filter st'.settled.Live =
        (st.batch.edges : Multiset Edge).filter st.settled.Live :=
      Multiset.filter_congr fun e he => hi.waiting_live h (Multiset.mem_coe.mp he)
    have hparents : (((freshDirs D f.ancestors).flatMap dirEdges ++ parentEdges f : List Edge) :
        Multiset Edge).filter st'.settled.Live =
          ((freshDirs D f.ancestors).flatMap dirEdges ++ parentEdges f : List Edge) :=
      Multiset.filter_eq_self.mpr fun e he => hi.parents_live h (Multiset.mem_coe.mp he)
    have hrefs : (refEdges ps policy f : Multiset Edge).filter st'.settled.Live =
        (symbolGraph ps policy f).edges :=
      Multiset.filter_congr fun e he => hi.refs_live h (Multiset.mem_coe.mp he)
    rw [Graph.edges_add, Graph.edges_add, settled_edges, settled_edges, hi.store, hi.batchEdges,
      ← Multiset.coe_add, ← Multiset.coe_add, Multiset.filter_add, Multiset.filter_add, hwaiting,
      hparents, hrefs, dirParts_edges, filePart_edges, ← Multiset.coe_add]
    change st.store.edges + 0 + 0 + _ = _
    abel

end Part

/-! ### The graph of a tree -/

section Graph

variable (ps : Parser) (policy : ParsePolicy)

/-- Every file and every directory of a tree, without the links. -/
def treeGraph (files : List SourceFile) : GraphStore :=
  (files.map (filePart ps policy)).sum + ∑ p ∈ dirsOf files, dirPart p

def idsOf (files : List SourceFile) : List Str := files.map SourceFile.relId

def linkPart (fileIds : List Str) (f : SourceFile) : GraphStore := ⟨0, linksOf fileIds f⟩

/-- What the index stage makes of a tree. -/
def fullGraph (files : List SourceFile) : GraphStore :=
  treeGraph ps policy files + (files.map (linkPart (idsOf files))).sum

end Graph

theorem dirPaths_nodup (prev rest : List FileName) : (dirPaths prev rest).Nodup := by
  induction rest generalizing prev with
  | nil => exact List.nodup_nil
  | cons c rest ih =>
      rw [dirPaths, List.nodup_cons]
      refine ⟨?_, ih _⟩
      intro hmem
      obtain ⟨q, hq, _, heq⟩ := mem_dirPaths.mp hmem
      exact hq (List.append_right_eq_self.mp heq.symm)

theorem dirsOf_snoc (files : List SourceFile) (f : SourceFile) :
    dirsOf (files ++ [f]) = dirsOf files ∪ f.ancestors.toFinset := by
  simp [dirsOf]

/-- The directories above one more file are those that were not there. -/
theorem dirParts_union (D : Finset (List FileName)) (f : SourceFile) :
    ∑ p ∈ D ∪ f.ancestors.toFinset, dirPart p =
      ∑ p ∈ D, dirPart p + ((freshDirs D f.ancestors).map dirPart).sum := by
  have hunion : D ∪ f.ancestors.toFinset = D ∪ (freshDirs D f.ancestors).toFinset := by
    ext p
    by_cases hD : p ∈ D <;> simp [mem_freshDirs, hD]
  have hdisjoint : Disjoint D (freshDirs D f.ancestors).toFinset := by
    refine Finset.disjoint_left.mpr fun p hD hp => ?_
    exact (mem_freshDirs.mp (List.mem_toFinset.mp hp)).2 hD
  have hnodup : (freshDirs D f.ancestors).Nodup := (dirPaths_nodup [] f.dirs).filter _
  rw [hunion, Finset.sum_union hdisjoint, List.sum_toFinset _ hnodup]

section TreeGraph

variable {ps : Parser} {policy : ParsePolicy} {files : List SourceFile} {f : SourceFile}

theorem treeGraph_nil : treeGraph ps policy [] = 0 := by
  simp [treeGraph, dirsOf]

theorem treeGraph_snoc : treeGraph ps policy (files ++ [f]) =
    treeGraph ps policy files + ((freshDirs (dirsOf files) f.ancestors).map dirPart).sum +
      filePart ps policy f := by
  rw [treeGraph, treeGraph, dirsOf_snoc, dirParts_union]
  simp only [List.map_append, List.map_cons, List.map_nil, List.sum_append, List.sum_singleton]
  abel

theorem has_directory_dirParts {D : Finset (List FileName)} (hD : ∀ p ∈ D, p ≠ [])
    {p : List FileName} (hp : p ≠ []) :
    (∑ q ∈ D, dirPart q).Has (.directory, pathString p) ↔ p ∈ D := by
  rw [Graph.has_finsetSum]
  constructor
  · rintro ⟨q, hq, n, hn, hk⟩
    obtain rfl : n = dirNode q := Multiset.mem_singleton.mp hn
    exact pathString_injective (hD q hq) hp (congrArg Prod.snd hk) ▸ hq
  · intro hmem
    exact ⟨p, hmem, dirNode p, Multiset.mem_singleton_self _, rfl⟩

/-- The directories of a tree are the Directory nodes of its graph. -/
theorem treeGraph_has_directory {p : List FileName} (hp : p ≠ []) :
    (treeGraph ps policy files).Has (.directory, pathString p) ↔ p ∈ dirsOf files := by
  rw [treeGraph, Graph.has_add, has_directory_dirParts (fun _ => ne_nil_of_mem_dirsOf) hp,
    Graph.has_sum]
  refine or_iff_right ?_
  rintro ⟨g, _, hg⟩
  exact (reserved_of_has_filePart hg).1 rfl

/-- Every node is a directory or belongs to a file. -/
theorem reserved_of_mem_treeGraph {n : Node} (h : n ∈ (treeGraph ps policy files).nodes) :
    n.key.1 = .directory ∨ ∃ g ∈ files, Reserved g.relativePath n.key := by
  rcases Multiset.mem_add.mp h with hfile | hdir
  · obtain ⟨g, hg, hn⟩ := Graph.mem_nodes_sum.mp hfile
    exact .inr ⟨g, hg, reserved_of_mem_filePart hn⟩
  · obtain ⟨p, _, hn⟩ := Graph.mem_nodes_finsetSum.mp hdir
    obtain rfl : n = dirNode p := Multiset.mem_singleton.mp hn
    exact .inl rfl

end TreeGraph

/-! ### Files that are apart -/

theorem Apart.owned {rel rel' id : Str} (h : Apart rel rel') (hid : Owned rel id) :
    ¬Owned rel' id := by
  rcases hid with rfl | hid
  · rintro (rfl | hid')
    · exact h.1 List.prefix_rfl
    · exact h.symm.not_within hid'
  · rintro (rfl | hid')
    · exact h.not_within hid
    · exact h.within hid hid'

theorem Apart.reserved {rel rel' : Str} {k : Key} (h : Apart rel rel') (hk : Reserved rel k) :
    ¬Reserved rel' k := fun hk' => h.owned hk.2 hk'.2

/-! ### The walk -/

/-- What the indexer has behind these files of the walk. -/
structure Walked (ps : Parser) (policy : ParsePolicy) (files : List SourceFile)
    (st : IndexState) : Prop where
  settled : st.settled = treeGraph ps policy files
  dirs : DirsAre (dirsOf files) st.dirNodesInserted
  labels : ∀ id l, (id, l) ∈ st.labels → l ≠ .directory → ∃ g ∈ files, Owned g.relativePath id
  seen : ∀ k ∈ st.seenNodeIds, ∃ g ∈ files, Within g.relativePath k.2
  ends : ∀ e ∈ st.batch.edges, ∀ k ∈ [e.sourceKey, e.targetKey],
    st.settled.Has k ∨ ∃ g ∈ files, Reserved g.relativePath k

section Walk

variable {ps : Parser} {policy : ParsePolicy} {files : List SourceFile} {f : SourceFile}
  {st st' : IndexState}

theorem walked_new : Walked ps policy [] .new where
  settled := treeGraph_nil.symm
  dirs := by intro id; simp [IndexState.new, dirsOf]
  labels := by simp [IndexState.new]
  seen := by simp [IndexState.new]
  ends := by simp [IndexState.new, SymbolBatch.empty]

theorem Walked.ready (h : Walked ps policy files st)
    (hapart : ∀ g ∈ files, Apart g.relativePath f.relativePath) :
    Ready (dirsOf files) f.relativePath st where
  proper := fun _ => ne_nil_of_mem_dirsOf
  dirs := h.dirs
  hasDirs := by
    intro p hp
    rw [h.settled, treeGraph_has_directory hp]
  nodes := by
    intro n hn hres
    rw [h.settled] at hn
    rcases reserved_of_mem_treeGraph hn with hdir | ⟨g, hg, hown⟩
    · exact hres.1 hdir
    · exact (hapart g hg).reserved hown hres
  labels := by
    intro id l hmem hl hown
    obtain ⟨g, hg, hg'⟩ := h.labels id l hmem hl
    exact (hapart g hg).owned hg' hown
  seen := by
    intro k hk hwithin
    obtain ⟨g, hg, hg'⟩ := h.seen k hk
    exact (hapart g hg).within hg' hwithin
  ends := by
    intro e he k hk
    rcases h.ends e he k hk with hhas | ⟨g, hg, hown⟩
    · exact .inl hhas
    · exact .inr ⟨hown.1, (hapart g hg).reserved hown⟩

/-- One more file of the walk. -/
theorem Walked.indexed (h : Walked ps policy files st)
    (hready : Ready (dirsOf files) f.relativePath st)
    (hi : Indexed ps policy (dirsOf files) f st st') : Walked ps policy (files ++ [f]) st' where
  settled := by rw [hi.settled hready, h.settled, treeGraph_snoc]
  dirs := by
    rw [dirsOf_snoc]
    exact hi.dirs
  labels := by
    intro id l hmem hl
    rcases hi.labels id l hmem with hdir | hown | hold
    · exact absurd hdir hl
    · exact ⟨f, by simp, hown⟩
    · obtain ⟨g, hg, hg'⟩ := h.labels id l hold hl
      exact ⟨g, List.mem_append_left _ hg, hg'⟩
  seen := by
    intro k hk
    rcases hi.seen k hk with hown | hold
    · exact ⟨f, by simp, hown⟩
    · obtain ⟨g, hg, hg'⟩ := h.seen k hold
      exact ⟨g, List.mem_append_left _ hg, hg'⟩
  ends := by
    intro e he k hk
    rw [hi.batchEdges, List.mem_append, List.mem_append] at he
    rcases he with hold | hparent | href
    · rcases h.ends e hold k hk with hhas | ⟨g, hg, hown⟩
      · exact .inl (hi.has_settled.mpr (.inl hhas))
      · exact .inr ⟨g, List.mem_append_left _ hg, hown⟩
    · have hlive := hi.parents_live hready hparent
      rcases List.mem_pair.mp hk with rfl | rfl
      · exact .inl hlive.1
      · exact .inl hlive.2
    · exact .inr ⟨f, by simp, (isStructure_of_mem_refEdges href).reserved k hk⟩

theorem Walked.flush (h : Walked ps policy files st) (hflush : flush st = .ok st') :
    Walked ps policy files st' := by
  rw [flush_eq_ok hflush]
  constructor
  · rw [settled_flushed, h.settled]
  · exact h.dirs
  · exact h.labels
  · exact h.seen
  · simp [SymbolBatch.empty]

theorem Walked.indexFile {acc acc' : FullState} (h : Walked ps policy files acc.st)
    (hapart : ∀ g ∈ files, Apart g.relativePath f.relativePath)
    (hrun : indexFile ps policy acc f = .ok acc') : Walked ps policy (files ++ [f]) acc'.st := by
  have hready := h.ready hapart
  obtain ⟨st₁, outcome, hnew, hi⟩ := indexNewFile_ok ps policy hready
  unfold Indexer.indexFile at hrun
  dsimp only at hrun
  split at hrun
  · cases hrun
  · rw [hnew] at hrun
    obtain ⟨_, hpair, hrun⟩ := Run.bind_eq_ok.mp hrun
    cases hpair
    have hwalked := h.indexed hready hi
    dsimp only at hrun
    split at hrun
    · obtain ⟨st₂, hflush, hrun⟩ := Run.bind_eq_ok.mp hrun
      cases hrun
      exact hwalked.flush hflush
    · cases hrun
      exact hwalked

end Walk

/-! ### The links -/

/-- A tree the walk yields: no path twice, no file deeper than the walk enters. -/
structure Tree where
  files : List SourceFile
  nodup : (files.map SourceFile.relativePath).Nodup
  depth : ∀ f ∈ files, f.dirs.length ≤ maxDepth

/-- No path has a backslash, and no two paths share a symbol prefix. -/
structure Separate (files : List SourceFile) : Prop where
  plain : ∀ f ∈ files, '\\' ∉ f.relativePath
  apart : ∀ f ∈ files, ∀ g ∈ files, f.relativePath ≠ g.relativePath →
    Apart f.relativePath g.relativePath

theorem Separate.mono {files files' : List SourceFile} (h : Separate files')
    (hsub : files ⊆ files') : Separate files where
  plain := fun f hf => h.plain f (hsub hf)
  apart := fun f hf g hg => h.apart f (hsub hf) g (hsub hg)

section Links

variable {ps : Parser} {policy : ParsePolicy} {T : Tree}

theorem Separate.idsOf {files : List SourceFile} (h : Separate files) :
    idsOf files = files.map SourceFile.relativePath :=
  List.map_congr_left fun f hf => relId_of_plain (h.plain f hf)

theorem linkPart_edges_sum {ids : List Str} {files : List SourceFile} :
    (⟨0, (files.flatMap (linksOf ids) : List Edge)⟩ : GraphStore) =
      (files.map (linkPart ids)).sum := by
  induction files with
  | nil => rfl
  | cons f files ih =>
      rw [List.map_cons, List.sum_cons, ← ih, List.flatMap_cons]
      refine Store.Graph.ext (add_zero _).symm ?_
      rw [← Multiset.coe_add]
      rfl

/-- Every file has its node in the graph of the tree. -/
theorem treeGraph_has_file {files : List SourceFile} {f : SourceFile} (hf : f ∈ files) :
    (treeGraph ps policy files).Has (.file, f.relativePath) :=
  Graph.has_add.mpr (.inl (Graph.has_sum.mpr ⟨f, hf, has_filePart_file⟩))

theorem IsLink.keys {ids : List Str} {f : SourceFile} {e : Edge} (h : IsLink ids f e) :
    e.sourceKey = (.file, f.relId) ∧ e.targetKey = (.file, e.target) := by
  rcases h.table with ht | ht
  · simp [Edge.sourceKey, Edge.targetKey, ht, importsFileFile, h.source]
  · simp [Edge.sourceKey, Edge.targetKey, ht, referencesFileFile, h.source]

/-- A graph that has the files gains all links out of some of them. -/
theorem linkFileImportsFor_eq {g : GraphStore} {sources all : List SourceFile}
    (hall : Separate all) (hnodup : (all.map SourceFile.relativePath).Nodup)
    (hsources : sources.Sublist all)
    (hfiles : ∀ f ∈ all, g.Has (.file, f.relativePath)) :
    linkFileImportsFor g sources all = g + (sources.map (linkPart (idsOf all))).sum := by
  have hids : (idsOf all).Nodup := by
    rw [hall.idsOf]
    exact hnodup
  have hmem : ∀ rel ∈ idsOf all, g.Has (.file, rel) := by
    intro rel hrel
    rw [hall.idsOf] at hrel
    obtain ⟨f, hf, rfl⟩ := List.mem_map.mp hrel
    exact hfiles f hf
  have hedges : (sources.foldl (stageFile (idsOf all)) ⟨[], []⟩).edges =
      sources.flatMap (linksOf (idsOf all)) :=
    stageFiles_edges (hids.sublist (hsources.map _))
  have hlive : ∀ e ∈ sources.flatMap (linksOf (idsOf all)), g.Live e := by
    intro e he
    obtain ⟨f, hf, hlink⟩ := List.mem_flatMap.mp he
    have hislink := linksOf_isLink hlink
    obtain ⟨hsource, htarget⟩ := hislink.keys
    refine ⟨?_, ?_⟩
    · change g.Has e.sourceKey
      rw [hsource]
      exact hmem _ (List.mem_map_of_mem (hsources.subset hf))
    · change g.Has e.targetKey
      rw [htarget]
      exact hmem _ hislink.target
  change g.insertEdges ((sources.foldl (stageFile (idsOf all).dedup) ⟨[], []⟩).edges : List Edge) = _
  rw [hids.dedup, hedges, Graph.insertEdges_eq,
    Multiset.filter_eq_self.mpr fun e he => hlive e (Multiset.mem_coe.mp he), linkPart_edges_sum]

/-- A full index that ends without an error writes the graph of the tree. -/
theorem indexCodebase_eq {g : GraphStore} {outcomes : List (Str × ParseOutcome)}
    (hsep : Separate T.files) (h : indexCodebase ps policy T.files = .ok (g, outcomes)) :
    g = fullGraph ps policy T.files := by
  obtain ⟨acc, hwalk, h⟩ := Run.bind_eq_ok.mp h
  obtain ⟨st, hflush, h⟩ := Run.bind_eq_ok.mp h
  cases h
  have hwalked : Walked ps policy T.files acc.st := by
    refine Run.foldlM_invariant (fun seen acc => Walked ps policy seen acc.st) walked_new ?_ hwalk
    intro seen f rest acc acc' hfiles hseen hrun
    refine hseen.indexFile ?_ hrun
    intro g hg
    have hne : g.relativePath ≠ f.relativePath := by
      have hnodup := T.nodup
      rw [hfiles, List.map_append, List.nodup_append] at hnodup
      exact hnodup.2.2 _ (List.mem_map_of_mem hg) _ (by simp)
    exact hsep.apart g (by simp [hfiles, hg]) f (by simp [hfiles]) hne
  have hstore : st.store = treeGraph ps policy T.files := by
    rw [flush_eq_ok hflush]
    exact hwalked.settled
  rw [hstore, linkLooseFileImports,
    linkFileImportsFor_eq hsep T.nodup (List.Sublist.refl _) fun f hf => treeGraph_has_file hf]
  rfl

end Links

end AutomatisedPipeline.Indexer

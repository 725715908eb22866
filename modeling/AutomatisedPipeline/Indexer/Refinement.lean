import AutomatisedPipeline.Indexer.Prune
import AutomatisedPipeline.Indexer.Reparse

/-!
The incremental index against the full one. Files and directories always come
out as a full index writes them; links do as long as every file that is not
visited links to what it linked to before.
-/

namespace AutomatisedPipeline.Indexer

open Text Store

/-! ### The inbound snapshot -/

section Snapshot

variable {ps : Parser} {policy : ParsePolicy}

/-- An edge between files that the index stage writes ends at a File node. -/
theorem fullGraph_resolution {files : List SourceFile} {e : Edge}
    (h : e ∈ (fullGraph ps policy files).edges) (hres : isResolutionTable e.table = true) :
    e.table.target = .file := by
  rcases Multiset.mem_add.mp h with htree | hlink
  · refine absurd hres ?_
    rcases Multiset.mem_add.mp htree with hfile | hdir
    · obtain ⟨f, _, hmem⟩ := Graph.mem_edges_sum.mp hfile
      rw [filePart_edges] at hmem
      rcases Multiset.mem_add.mp hmem with hparent | hsymbol
      · obtain ⟨_, rfl⟩ := mem_parentEdges (Multiset.mem_coe.mp hparent)
        exact Bool.false_ne_true
      · rw [(mem_symbolGraph_edges hsymbol).1.resolution]
        exact Bool.false_ne_true
    · obtain ⟨p, _, hmem⟩ := Graph.mem_edges_finsetSum.mp hdir
      obtain ⟨_, rfl⟩ := mem_dirEdges (Multiset.mem_coe.mp hmem)
      exact Bool.false_ne_true
  · obtain ⟨f, _, hmem⟩ := Graph.mem_edges_sum.mp hlink
    rcases (linksOf_isLink (Multiset.mem_coe.mp hmem)).table with ht | ht
    · rw [ht, importsFileFile]
    · rw [ht, referencesFileFile]

/-- At the index stage there is nothing to save. -/
theorem snapshot_fullGraph (files : List SourceFile) (rels : List Str) (reparsed : Finset Str) :
    snapshotInboundEdges (fullGraph ps policy files) rels reparsed = 0 := by
  refine Multiset.filter_eq_nil.mpr fun e he hsaved => ?_
  exact hsaved.2.1 (fullGraph_resolution he hsaved.1)

theorem relink_nothing (g : GraphStore) : relinkInboundEdges g 0 = g :=
  Store.Graph.ext rfl (add_zero _)

end Snapshot

/-! ### The pass -/

/-- The files that have no node yet. -/
def ChangeSet.newFiles (changes : ChangeSet) : List SourceFile :=
  changes.added ++ changes.renamed.map Rename.newFile

section Pass

variable {ps : Parser} {policy : ParsePolicy} {T₀ T₁ : Tree} {changes : ChangeSet}

theorem mem_keptLinks {f : SourceFile} {e : Edge} (h : e ∈ (keptLinks T₀ T₁ f).edges) :
    IsLink (idsOf T₀.files) f e :=
  linksOf_isLink (Multiset.mem_coe.mp (Multiset.mem_of_mem_filter h))

theorem keptLinks_nodes (l : List SourceFile) : (l.map (keptLinks T₀ T₁)).sum.nodes = 0 := by
  refine Multiset.eq_zero_of_forall_notMem fun n hn => ?_
  obtain ⟨f, _, hmem⟩ := Graph.mem_nodes_sum.mp hn
  exact Multiset.notMem_zero n hmem

theorem apart_of_ne (hsep : Separate (T₀.files ++ T₁.files)) {f g : SourceFile}
    (hf : f ∈ T₁.files) (hg : g ∈ T₁.files) (h : f.relativePath ≠ g.relativePath) : Apart f.relativePath g.relativePath :=
  hsep.apart f (List.mem_append_right _ hf) g (List.mem_append_right _ hg) h

/-- Files of the current tree, none of them in the graph yet, are apart from it. -/
theorem fresh_of_files (hsep : Separate (T₀.files ++ T₁.files)) {B : GraphStore}
    {base ds : List SourceFile} (hds : ds ⊆ T₁.files)
    (hnodup : (ds.map SourceFile.relativePath).Nodup) (hbase : base ⊆ T₁.files)
    (hdisjoint : ∀ f ∈ base, ∀ d ∈ ds, f.relativePath ≠ d.relativePath)
    (hB : ∀ n ∈ B.nodes, n.key.1 = .directory ∨ ∃ f ∈ base, Reserved f.relativePath n.key) :
    Fresh B ds where
  ids := fun d hd => relId_of_mem_new hsep (hds hd)
  apart := by
    refine List.Pairwise.imp_of_mem ?_ (List.pairwise_map.mp hnodup)
    intro d d' hd hd' hne
    exact apart_of_ne hsep (hds hd) (hds hd') hne
  free := by
    intro d hd n hn hres
    rcases hB n hn with hdir | ⟨f, hf, hown⟩
    · exact hres.1 hdir
    · exact (apart_of_ne hsep (hbase hf) (hds hd) (hdisjoint f hf d hd)).reserved hown hres

/-- What a purge leaves of the files that are as they were. -/
def keptGraph (ps : Parser) (policy : ParsePolicy) (T₀ T₁ : Tree) (changes : ChangeSet) :
    GraphStore :=
  ((unchangedFiles T₁ changes).map (filePart ps policy)).sum +
    ((unchangedFiles T₁ changes).map (keptLinks T₀ T₁)).sum

theorem reserved_of_mem_fileParts {ds : List SourceFile} {n : Node}
    (h : n ∈ (ds.map (filePart ps policy)).sum.nodes) :
    ∃ d ∈ ds, Reserved d.relativePath n.key := by
  obtain ⟨d, hd, hmem⟩ := Graph.mem_nodes_sum.mp h
  exact ⟨d, hd, reserved_of_mem_filePart hmem⟩

theorem reserved_of_mem_keptGraph {n : Node} (h : n ∈ (keptGraph ps policy T₀ T₁ changes).nodes) :
    ∃ f ∈ unchangedFiles T₁ changes, Reserved f.relativePath n.key := by
  rw [keptGraph, Graph.nodes_add, keptLinks_nodes, add_zero] at h
  exact reserved_of_mem_fileParts h

theorem unchangedFiles_subset (T₁ : Tree) (changes : ChangeSet) :
    unchangedFiles T₁ changes ⊆ T₁.files :=
  List.filter_subset_self _

/-- A purge leaves the directories. -/
theorem dirsAre_purged (old : SourceFile → SourceFile) : DirsAre (dirsOf T₀.files)
    (existingDirectoryIds (keptGraph ps policy T₀ T₁ changes + ∑ p ∈ dirsOf T₀.files, dirPart p +
      (changes.changed.map fun d => stubPart ps policy (old d)).sum)) := by
  rw [add_right_comm]
  refine dirsAre_existing fun n hn => ?_
  rcases Multiset.mem_add.mp hn with hown | hstub
  · obtain ⟨f, _, hres⟩ := reserved_of_mem_keptGraph hown
    exact hres.1
  · obtain ⟨d, _, hmem⟩ := Graph.mem_nodes_sum.mp hstub
    rw [stubPart, Graph.nodes_add, parentGraph, add_zero] at hmem
    obtain rfl := Multiset.mem_singleton.mp hmem
    simp [fileNode, Node.key]

/-- The edges of the current tree from a directory lead to the files in it. -/
theorem filesUnder_files : FilesUnder T₁.files ((T₁.files.map (filePart ps policy)).sum +
    ((unchangedFiles T₁ changes).map (keptLinks T₀ T₁)).sum) := by
  have hedges : ∀ e ∈ ((T₁.files.map (filePart ps policy)).sum +
      ((unchangedFiles T₁ changes).map (keptLinks T₀ T₁)).sum).edges,
      (∃ f ∈ T₁.files, e ∈ parentEdges f) ∨
        (e.sourceKey.1 ≠ .directory ∧ e.targetKey.1 ≠ .directory) := by
    intro e he
    rcases Multiset.mem_add.mp he with hfile | hlink
    · obtain ⟨f, hf, hmem⟩ := Graph.mem_edges_sum.mp hfile
      rw [filePart_edges] at hmem
      rcases Multiset.mem_add.mp hmem with hparent | hsymbol
      · exact .inl ⟨f, hf, Multiset.mem_coe.mp hparent⟩
      · have hstructure := (mem_symbolGraph_edges hsymbol).1
        exact .inr ⟨hstructure.sourceLabel, hstructure.targetLabel⟩
    · obtain ⟨f, _, hmem⟩ := Graph.mem_edges_sum.mp hlink
      obtain ⟨hsource, htarget⟩ := (mem_keptLinks hmem).keys
      rw [hsource, htarget]
      exact .inr ⟨by simp, by simp⟩
  constructor
  · intro n hn
    rw [Graph.nodes_add, keptLinks_nodes, add_zero] at hn
    obtain ⟨f, _, hmem⟩ := Graph.mem_nodes_sum.mp hn
    exact (reserved_of_mem_filePart hmem).1
  · intro e he
    rcases hedges e he with ⟨f, _, hparent⟩ | ⟨_, htarget⟩
    · obtain ⟨_, rfl⟩ := mem_parentEdges hparent
      simp [containsEdge, containsDirFile, Edge.targetKey]
    · exact htarget
  · intro e he hdir
    rcases hedges e he with ⟨f, hf, hparent⟩ | ⟨hsource, _⟩
    · obtain ⟨hne, rfl⟩ := mem_parentEdges hparent
      exact ⟨f, hf, hne, rfl⟩
    · exact absurd hdir hsource
  · intro f hf hne
    refine ⟨containsEdge containsDirFile (pathString f.dirs) f.relativePath,
      Multiset.mem_add.mpr (.inl (Graph.mem_edges_sum.mpr ⟨f, hf, ?_⟩)), rfl⟩
    rw [filePart_edges]
    refine Multiset.mem_add.mpr (.inl ?_)
    simp [parentEdges, hne]

variable (hc : Classifies T₀ T₁ changes)

include hc

theorem mem_newFiles {d : SourceFile} :
    d ∈ changes.newFiles ↔ d ∈ T₁.files ∧ d.relativePath ∉ T₀.rels := by
  rw [ChangeSet.newFiles, hc.new.mem_iff, List.mem_filter, decide_eq_true_iff]

/-- The directories of the current tree were there or are above a new file. -/
theorem dirs_covered : dirsOf T₁.files ⊆ dirsOf T₀.files ∪ dirsOf changes.newFiles := by
  intro p hp
  obtain ⟨f, hf, hne, hpre⟩ := mem_dirsOf.mp hp
  rw [Finset.mem_union]
  by_cases hrel : f.relativePath ∈ T₀.rels
  · obtain ⟨f₀, hf₀, heq⟩ := List.mem_map.mp hrel
    refine .inl (mem_dirsOf.mpr ⟨f₀, hf₀, hne, ?_⟩)
    rw [(SourceFile.path_eq heq).1]
    exact hpre
  · exact .inr (mem_dirsOf.mpr ⟨f, (mem_newFiles hc).mpr ⟨hf, hrel⟩, hne, hpre⟩)

/-- Where no file is gone, no directory is. -/
theorem dirs_same (hgone : changes.gone = []) :
    dirsOf T₀.files ∪ dirsOf changes.newFiles = dirsOf T₁.files := by
  refine Finset.Subset.antisymm (fun p hp => ?_) (dirs_covered hc)
  rcases Finset.mem_union.mp hp with hp | hp
  · obtain ⟨f, hf, hne, hpre⟩ := mem_dirsOf.mp hp
    have hrel : f.relativePath ∈ T₁.rels := by
      by_contra hnot
      have hmem := (hc.gone f.relativePath).mpr ⟨List.mem_map_of_mem hf, hnot⟩
      rw [hgone] at hmem
      cases hmem
    obtain ⟨f₁, hf₁, heq⟩ := List.mem_map.mp hrel
    refine mem_dirsOf.mpr ⟨f₁, hf₁, hne, ?_⟩
    rw [(SourceFile.path_eq heq).1]
    exact hpre
  · obtain ⟨f, hf, hne, hpre⟩ := mem_dirsOf.mp hp
    exact mem_dirsOf.mpr ⟨f, ((mem_newFiles hc).mp hf).1, hne, hpre⟩

theorem changed_subset : changes.changed ⊆ T₁.files := fun d hd => (hc.changed d hd).1

variable (hsep : Separate (T₀.files ++ T₁.files))

include hsep

/-- The changed files are not in what the purge leaves of the others. -/
theorem fresh_changed :
    Fresh (keptGraph ps policy T₀ T₁ changes + ∑ p ∈ dirsOf T₀.files, dirPart p)
      changes.changed := by
  refine fresh_of_files hsep (changed_subset hc) hc.changedNodup
    (unchangedFiles_subset T₁ changes) ?_ ?_
  · intro f hf d hd heq
    refine ((mem_unchangedFiles hc hsep).mp hf).2.2 ?_
    rw [heq]
    exact (mem_changedRels hc hsep (changed_subset hc hd)).mpr hd
  · intro n hn
    rcases Multiset.mem_add.mp hn with hown | hdir
    · exact .inr (reserved_of_mem_keptGraph hown)
    · obtain ⟨p, _, hmem⟩ := Graph.mem_nodes_finsetSum.mp hdir
      obtain rfl : n = dirNode p := Multiset.mem_singleton.mp hmem
      exact .inl rfl

omit hc hsep in
theorem reserved_of_mem_oldParts {n : Node} (h : n ∈ (keptGraph ps policy T₀ T₁ changes +
      (changes.changed.map (filePart ps policy)).sum).nodes) :
    ∃ f ∈ unchangedFiles T₁ changes ++ changes.changed, Reserved f.relativePath n.key := by
  rcases Multiset.mem_add.mp h with hown | hmem
  · obtain ⟨f, hf, hres⟩ := reserved_of_mem_keptGraph hown
    exact ⟨f, List.mem_append_left _ hf, hres⟩
  · obtain ⟨d, hd, hres⟩ := reserved_of_mem_fileParts hmem
    exact ⟨d, List.mem_append_right _ hd, hres⟩

/-- The new files are not in the graph of the others. -/
theorem fresh_new : Fresh (keptGraph ps policy T₀ T₁ changes +
    (changes.changed.map (filePart ps policy)).sum) changes.newFiles := by
  have hold : ∀ f ∈ unchangedFiles T₁ changes ++ changes.changed, f.relativePath ∈ T₀.rels := by
    intro f hf
    rcases List.mem_append.mp hf with hf | hf
    · exact List.mem_map_of_mem ((mem_unchangedFiles hc hsep).mp hf).2.1
    · exact (hc.changed f hf).2
  refine fresh_of_files hsep (fun d hd => ((mem_newFiles hc).mp hd).1) ?_
    (List.append_subset.mpr ⟨unchangedFiles_subset T₁ changes, changed_subset hc⟩) ?_
    fun n hn => .inr (reserved_of_mem_oldParts hn)
  · refine (hc.new.map SourceFile.relativePath).nodup_iff.mpr ?_
    exact T₁.nodup.sublist (List.filter_sublist.map _)
  · intro f hf d hd heq
    exact ((mem_newFiles hc).mp hd).2 (heq ▸ hold f hf)

/-- Behind the re-parse every file of the current tree has its part. -/
theorem reparse_fullGraph : ∃ acc,
    reparse ps policy changes (purge changes (fullGraph ps policy T₀.files)) = .ok acc ∧
      acc.store = (T₁.files.map (filePart ps policy)).sum +
        ((unchangedFiles T₁ changes).map (keptLinks T₀ T₁)).sum +
          ∑ p ∈ dirsOf T₀.files ∪ dirsOf changes.newFiles, dirPart p := by
  obtain ⟨old, hold, hpurge⟩ := @purge_fullGraph ps policy T₀ T₁ changes hc hsep
  have hstore₀ : purge changes (fullGraph ps policy T₀.files) =
      keptGraph ps policy T₀ T₁ changes + ∑ p ∈ dirsOf T₀.files, dirPart p +
        (changes.changed.map fun d => stubPart ps policy (old d)).sum := by
    rw [hpurge, keptGraph]
    abel
  have hdirs : DirsAre (dirsOf T₀.files)
      (existingDirectoryIds (purge changes (fullGraph ps policy T₀.files))) := by
    rw [hstore₀]
    exact dirsAre_purged old
  -- the changed files
  obtain ⟨outcomes₁, hrun₁⟩ := @reparseModified_run ps policy _ _ _ (fresh_changed hc hsep)
    (fun d hd => (hold d hd).2)
    { store := purge changes (fullGraph ps policy T₀.files)
      dirNodesInserted :=
        existingDirectoryIds (purge changes (fullGraph ps policy T₀.files))
      outcomes := [] } hstore₀
  -- the new files
  have hnodirs : ∀ n ∈ (keptGraph ps policy T₀ T₁ changes +
      (changes.changed.map (filePart ps policy)).sum).nodes, n.key.1 ≠ .directory := by
    intro n hn
    obtain ⟨f, _, hres⟩ := reserved_of_mem_oldParts hn
    exact hres.1
  obtain ⟨inserted, outcomes₂, hrun₂, _⟩ := @reparseNew_run ps policy _ _ _ (fresh_new hc hsep)
    hnodirs (fun _ => ne_nil_of_mem_dirsOf)
    { store := keptGraph ps policy T₀ T₁ changes + ∑ p ∈ dirsOf T₀.files, dirPart p +
        (changes.changed.map (filePart ps policy)).sum
      dirNodesInserted :=
        existingDirectoryIds (purge changes (fullGraph ps policy T₀.files))
      outcomes := outcomes₁ } hdirs (add_right_comm _ _ _)
  refine ⟨{
      store := keptGraph ps policy T₀ T₁ changes + (changes.changed.map (filePart ps policy)).sum +
        (changes.newFiles.map (filePart ps policy)).sum +
        ∑ p ∈ dirsOf T₀.files ∪ dirsOf changes.newFiles, dirPart p
      dirNodesInserted := inserted
      outcomes := outcomes₂ }, ?_, ?_⟩
  · rw [reparse, hrun₁]
    change (changes.added.foldlM (reparseNew ps policy) _ >>= fun acc =>
      changes.renamed.foldlM (fun acc r => reparseNew ps policy acc r.newFile) acc) = _
    rw [← hrun₂, ChangeSet.newFiles, List.foldlM_append]
    simp only [List.foldlM_map]
  · have hperm := ((new_files hc hsep).map (filePart ps policy)).sum_eq
    rw [List.map_append, List.map_append, List.sum_append, List.sum_append] at hperm
    rw [hperm]
    rw [keptGraph, ChangeSet.newFiles]
    abel_nf

/-- The graph that the incremental index leaves. -/
theorem applyChanges_eq : ∃ outcomes,
    applyChanges ps policy (fullGraph ps policy T₀.files) changes T₁.files =
      .ok (treeGraph ps policy T₁.files +
        ((unchangedFiles T₁ changes).map (keptLinks T₀ T₁)).sum +
          ((T₁.files.filter fun d => d.relId ∈ changes.reparsedSet).map
            (linkPart (idsOf T₁.files))).sum, changes.reparsedSet.card, outcomes) := by
  obtain ⟨acc, hrun, hstore⟩ := @reparse_fullGraph ps policy _ _ _ hc hsep
  have hbase := @filesUnder_files ps policy T₀ T₁ changes
  have hpruned : (if changes.deleted.isEmpty && changes.renamed.isEmpty then acc.store
      else pruneOrphanDirectories maxDepth acc.store) =
        treeGraph ps policy T₁.files +
          ((unchangedFiles T₁ changes).map (keptLinks T₀ T₁)).sum := by
    rw [treeGraph, add_right_comm, hstore]
    split
    · rename_i hnone
      have hgone : changes.gone = [] := by
        simpa [ChangeSet.gone] using hnone
      rw [dirs_same hc hgone]
    · refine prune_run hbase maxDepth ?_ (dirs_covered hc) ?_
      · intro p hp
        rcases Finset.mem_union.mp hp with hp | hp
        · exact ne_nil_of_mem_dirsOf hp
        · exact ne_nil_of_mem_dirsOf hp
      · intro p hp _
        rcases Finset.mem_union.mp hp with hp | hp
        · obtain ⟨f, hf, _, hpre⟩ := mem_dirsOf.mp hp
          exact hpre.length_le.trans (T₀.depth f hf)
        · obtain ⟨f, hf, _, hpre⟩ := mem_dirsOf.mp hp
          exact hpre.length_le.trans (T₁.depth f ((mem_newFiles hc).mp hf).1)
  have hlinks : ∀ sources : List SourceFile, sources.Sublist T₁.files →
      (if sources.isEmpty then treeGraph ps policy T₁.files +
          ((unchangedFiles T₁ changes).map (keptLinks T₀ T₁)).sum
        else linkFileImportsFor (treeGraph ps policy T₁.files +
          ((unchangedFiles T₁ changes).map (keptLinks T₀ T₁)).sum) sources T₁.files) =
      treeGraph ps policy T₁.files + ((unchangedFiles T₁ changes).map (keptLinks T₀ T₁)).sum +
        (sources.map (linkPart (idsOf T₁.files))).sum := by
    intro sources hsources
    split
    · rename_i hnil
      rw [List.isEmpty_iff.mp hnil, List.map_nil, List.sum_nil, add_zero]
    · refine linkFileImportsFor_eq (hsep.mono (List.subset_append_right _ _)) T₁.nodup hsources ?_
      exact fun f hf => Graph.has_add.mpr (.inl (treeGraph_has_file hf))
  refine ⟨acc.outcomes, ?_⟩
  rw [applyChanges, snapshot_fullGraph, hrun]
  change Except.ok (relinkInboundEdges (if _ then (if _ then _ else _) else _) 0, _) = _
  rw [relink_nothing, hpruned, hlinks _ List.filter_sublist]

end Pass

/-! ### Equality with a full index -/

/-- Every file that is not visited links to what it linked to before, as far as
that remains, and to nothing else. -/
def LinksStable (T₀ T₁ : Tree) (changes : ChangeSet) : Prop :=
  ∀ f ∈ unchangedFiles T₁ changes, (linksOf (idsOf T₁.files) f : Multiset Edge) =
    (linksOf (idsOf T₀.files) f : Multiset Edge).filter fun e => e.target ∈ idsOf T₁.files

theorem filter_sum_eq_zero {U : List SourceFile} {H : SourceFile → Multiset Edge} {rel : Str}
    (h : ∀ g ∈ U, ∀ e ∈ H g, e.source ≠ rel) :
    (U.map H).sum.filter (fun e => e.source = rel) = 0 := by
  induction U with
  | nil => rfl
  | cons g U ih =>
      rw [List.map_cons, List.sum_cons, Multiset.filter_add,
        Multiset.filter_eq_nil.mpr (h g List.mem_cons_self),
        ih fun g' hg' => h g' (List.mem_cons_of_mem _ hg'), add_zero]

/-- Edges that start at different files are told apart by the file. -/
theorem sum_by_source {U : List SourceFile} {F G : SourceFile → Multiset Edge}
    (hnodup : (U.map SourceFile.relId).Nodup)
    (hF : ∀ f ∈ U, ∀ e ∈ F f, e.source = f.relId) (hG : ∀ f ∈ U, ∀ e ∈ G f, e.source = f.relId) :
    (U.map F).sum = (U.map G).sum ↔ ∀ f ∈ U, F f = G f := by
  refine ⟨fun heq => ?_, fun h => congrArg List.sum (List.map_congr_left h)⟩
  induction U with
  | nil => simp
  | cons f U ih =>
      rw [List.map_cons, List.nodup_cons] at hnodup
      rw [List.map_cons, List.map_cons, List.sum_cons, List.sum_cons] at heq
      have hown : ∀ {H : SourceFile → Multiset Edge}, (∀ e ∈ H f, e.source = f.relId) →
          (∀ g ∈ U, ∀ e ∈ H g, e.source = g.relId) →
          (H f + (U.map H).sum).filter (fun e => e.source = f.relId) = H f := by
        intro H hH hH'
        have hrest : ∀ g ∈ U, ∀ e ∈ H g, e.source ≠ f.relId := by
          intro g hg e he hsource
          exact hnodup.1 (List.mem_map.mpr ⟨g, hg, (hH' g hg e he).symm.trans hsource⟩)
        rw [Multiset.filter_add, filter_sum_eq_zero hrest, add_zero,
          Multiset.filter_eq_self.mpr hH]
      have hFU := fun g hg => hF g (List.mem_cons_of_mem _ hg)
      have hGU := fun g hg => hG g (List.mem_cons_of_mem _ hg)
      have hfirst : F f = G f := by
        rw [← hown (hF f List.mem_cons_self) hFU, heq, hown (hG f List.mem_cons_self) hGU]
      rw [hfirst] at heq
      intro g hg
      rcases List.mem_cons.mp hg with rfl | hg
      · exact hfirst
      · exact ih hnodup.2 hFU hGU (add_left_cancel heq) g hg

section Equality

variable {ps : Parser} {policy : ParsePolicy} {T₀ T₁ : Tree} {changes : ChangeSet}

theorem links_sum_eq (hsep : Separate (T₀.files ++ T₁.files)) :
    ((unchangedFiles T₁ changes).map (keptLinks T₀ T₁)).sum =
        ((unchangedFiles T₁ changes).map (linkPart (idsOf T₁.files))).sum ↔
      LinksStable T₀ T₁ changes := by
  have hnodup : ((unchangedFiles T₁ changes).map SourceFile.relId).Nodup := by
    have hids := (hsep.mono (List.subset_append_right T₀.files T₁.files)).idsOf
    have hall : (T₁.files.map SourceFile.relId).Nodup := by
      change (idsOf T₁.files).Nodup
      rw [hids]
      exact T₁.nodup
    exact hall.sublist (List.filter_sublist.map _)
  have hedges : ∀ {H : SourceFile → GraphStore}, (∀ f, (H f).nodes = 0) →
      ((unchangedFiles T₁ changes).map H).sum =
        ⟨0, ((unchangedFiles T₁ changes).map fun f => (H f).edges).sum⟩ := by
    intro H hH
    refine Store.Graph.ext ?_ (Store.Graph.edges_sum _ _)
    rw [Graph.nodes_sum, List.map_congr_left fun f _ => hH f, List.sum_map_zero]
  have hsources := sum_by_source hnodup
    (fun f _ e he => (@mem_keptLinks T₀ T₁ f e he).source)
    (fun f _ e he => (@linksOf_isLink (idsOf T₁.files) f e (Multiset.mem_coe.mp he)).source)
  rw [hedges fun _ => rfl, hedges fun _ => rfl, Store.Graph.mk.injEq, and_iff_right rfl]
  exact hsources.trans (forall₂_congr fun f _ => eq_comm)

/-- The graph that an incremental index makes of the graph of an earlier tree is
that of a full index of the current one exactly when the links out of the files
that are not visited are stable. -/
theorem incremental_equals_full_iff {g₀ g₁ : GraphStore}
    {outcomes₀ outcomes₁ : List (Str × ParseOutcome)} (hc : Classifies T₀ T₁ changes)
    (hsep : Separate (T₀.files ++ T₁.files))
    (h₀ : indexCodebase ps policy T₀.files = .ok (g₀, outcomes₀))
    (h₁ : indexCodebase ps policy T₁.files = .ok (g₁, outcomes₁)) :
    ∃ g n outcomes, applyChanges ps policy g₀ changes T₁.files = .ok (g, n, outcomes) ∧
      (g = g₁ ↔ LinksStable T₀ T₁ changes) := by
  have hg₀ := indexCodebase_eq (hsep.mono (List.subset_append_left _ _)) h₀
  have hg₁ := indexCodebase_eq (hsep.mono (List.subset_append_right _ _)) h₁
  obtain ⟨outcomes, hrun⟩ := @applyChanges_eq ps policy _ _ _ hc hsep
  refine ⟨_, _, _, hg₀ ▸ hrun, ?_⟩
  have hsplit := ((List.filter_append_perm (fun d : SourceFile => d.relId ∈ changes.reparsedSet)
    T₁.files).map (linkPart (idsOf T₁.files))).sum_eq
  rw [List.map_append, List.sum_append] at hsplit
  have hunvisited : T₁.files.filter (fun d => !decide (d.relId ∈ changes.reparsedSet)) =
      unchangedFiles T₁ changes := List.filter_congr fun d _ => (decide_not).symm
  rw [hunvisited, add_comm] at hsplit
  rw [hg₁, fullGraph, ← hsplit, add_assoc, add_left_cancel_iff, ← links_sum_eq hsep]
  constructor
  · intro heq
    rw [add_comm, add_comm ((unchangedFiles T₁ changes).map (linkPart _)).sum] at heq
    exact add_left_cancel heq
  · exact fun heq => congrArg (· + _) heq

end Equality

/-! ### A link that starts to resolve -/

def noParser : Parser where
  headerLanguage := fun _ _ => .c
  parseFile := fun _ _ _ => .failed []
  nodesWithin := by simp
  refsOwned := by simp

def ownFiles : ParsePolicy := { dependencyScope := .none, languageFilter := none }

def markdown (name : FileName) (text : String) : SourceFile :=
  { dirs := [], name := name, size := text.length, text := .ok text.toList }

def linking : SourceFile := markdown ⟨"a.md".toList, by decide⟩ "[b](b.md)"

def linked : SourceFile := markdown ⟨"b.md".toList, by decide⟩ ""

def treeBefore : Tree where
  files := [linking]
  nodup := by decide
  depth := by decide

def treeAfter : Tree where
  files := [linking, linked]
  nodup := by decide +kernel
  depth := by decide

def addLinked : ChangeSet := { changed := [], added := [linked], deleted := [], renamed := [] }

theorem addLinked_classifies : Classifies treeBefore treeAfter addLinked where
  changed := by simp [addLinked]
  changedNodup := by simp [addLinked]
  unchanged := by decide +kernel
  new := by decide +kernel
  gone := by
    intro rel
    have hsub : treeBefore.rels ⊆ treeAfter.rels := List.map_subset _ (by simp [treeBefore, treeAfter])
    constructor
    · intro h
      simp [ChangeSet.gone, addLinked] at h
    · rintro ⟨hold, hnew⟩
      exact absurd (hsub hold) hnew

theorem treeAfter_separate : Separate (treeBefore.files ++ treeAfter.files) where
  plain := by decide +kernel
  apart := by decide +kernel

theorem incremental_equals_full_iff_added : ∃ g₀ g₁ outcomes₀ outcomes₁,
    indexCodebase noParser ownFiles treeBefore.files = .ok (g₀, outcomes₀) ∧
      indexCodebase noParser ownFiles treeAfter.files = .ok (g₁, outcomes₁) ∧
        ∃ g n outcomes,
          applyChanges noParser ownFiles g₀ addLinked treeAfter.files = .ok (g, n, outcomes) ∧
            (g = g₁ ↔ LinksStable treeBefore treeAfter addLinked) :=
  ⟨_, _, _, _, rfl, rfl,
    incremental_equals_full_iff addLinked_classifies treeAfter_separate rfl rfl⟩

/-- A file that links to a file added later is not visited when that is added. -/
theorem link_to_added_file_is_missed :
    Classifies treeBefore treeAfter addLinked ∧ ∃ g₀ g₁ g,
      (∃ outcomes, indexCodebase noParser ownFiles treeBefore.files = .ok (g₀, outcomes)) ∧
        (∃ outcomes, indexCodebase noParser ownFiles treeAfter.files = .ok (g₁, outcomes)) ∧
          (∃ n outcomes, applyChanges noParser ownFiles g₀ addLinked treeAfter.files =
            .ok (g, n, outcomes)) ∧ g ≠ g₁ :=
  ⟨addLinked_classifies, _, _, _, ⟨_, rfl⟩, ⟨_, rfl⟩, ⟨_, _, rfl⟩, by decide +kernel⟩

end AutomatisedPipeline.Indexer

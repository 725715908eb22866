import AutomatisedPipeline.Iac.Targets

/-!
The references of a tree, whatever it was indexed from.

An incremental pass leaves the references of the files it does not read again as they are, so it
leaves what a full pass does where those have the targets they had (`applyChanges_eq`), and a
run does where each of its passes is such a pass (`references_eq_full`).
-/

namespace AutomatisedPipeline.Iac

open Text Store Indexer

/-- No two files of one name that the tree refers to, and no path that looks like an id. -/
structure Clear (ps : IacParsers) (T : Tree) : Prop where
  plain : ∀ f ∈ T.files, PlainPath f
  targets : ∀ f ∈ T.files, OneTarget ps T f

/-- The passes that start from no tree or from one whose references, in the files that are not
read again, have the targets they have in the new tree. -/
def stablePasses (ps : IacParsers) : Passes where
  full := Clear ps
  next T T' changes :=
    Clear ps T' ∧ ∀ f ∈ unchangedFiles T' changes, SameTargets ps T T' f

/-! ### The purge -/

/-- What the purge deletes. -/
def Purged (changes : ChangeSet) (k : IacLabel × Str) : Prop :=
  (∃ rel ∈ changes.changedRels ++ changes.gone, Within rel k.2) ∨
    ∃ rel ∈ changes.gone, k = (.file, rel)

instance (changes : ChangeSet) : DecidablePred (Purged changes) := fun _ => instDecidableOr

theorem purgeChanges_eq (changes : ChangeSet) (g : IacGraph) :
    purgeChanges changes g = g.detachDelete (Purged changes) := by
  have hfile : (fun (g : IacGraph) rel => purgeFile rel g) = fun g rel =>
      g.detachDelete fun k => Within rel k.2 ∨ k = (.file, rel) := by
    funext g rel
    exact Graph.detachDelete_detachDelete g
  have hrenamed : ∀ g : IacGraph, changes.renamed.foldl (fun g r => purgeFile r.oldRel g) g =
      (changes.renamed.map Rename.oldRel).foldl (fun g rel => purgeFile rel g) g := by
    intro g
    rw [List.foldl_map]
  rw [purgeChanges, hrenamed, ← List.foldl_append]
  change changes.gone.foldl (fun g rel => purgeFile rel g)
    (changes.changedRels.foldl (fun g rel => g.detachDelete fun k => Within rel k.2) g) = _
  rw [hfile, Graph.foldl_detachDelete, Graph.foldl_detachDelete, Graph.detachDelete_detachDelete]
  refine Graph.detachDelete_congr (fun k => ?_) g
  simp only [Purged, List.mem_append]
  constructor
  · rintro (⟨rel, hrel, hin⟩ | ⟨rel, hrel, hin | heq⟩)
    · exact .inl ⟨rel, .inl hrel, hin⟩
    · exact .inl ⟨rel, .inr hrel, hin⟩
    · exact .inr ⟨rel, hrel, heq⟩
  · rintro (⟨rel, hrel | hrel, hin⟩ | ⟨rel, hrel, heq⟩)
    · exact .inl ⟨rel, hrel, hin⟩
    · exact .inr ⟨rel, hrel, .inl hin⟩
    · exact .inr ⟨rel, hrel, .inr heq⟩

section Step

variable {ps : IacParsers} {T T' : Tree} {changes : ChangeSet}

theorem PlainPath.not_within {f g : SourceFile} (hf : PlainPath f) (hg : PlainPath g) :
    ¬Within g.relativePath f.relativePath := by
  intro h
  have howner := owningFile_of_within hg.2 (h.trans (List.prefix_append _ [':', ':']))
  rw [← symbolPrefix, hf.2] at howner
  rw [howner] at h
  exact not_within_self _ h

theorem separate_of_plain {files : List SourceFile} (hplain : ∀ f ∈ files, PlainPath f) :
    Separate files := by
  have hpre : ∀ f ∈ files, ∀ g ∈ files, symbolPrefix f.relativePath <+: symbolPrefix g.relativePath →
      f.relativePath = g.relativePath := by
    intro f hf g hg h
    rw [← owningFile_of_within (hplain f hf).2 h, (hplain g hg).2]
  exact
    { plain := fun f hf => (hplain f hf).1
      apart := fun f hf g hg hne =>
        ⟨fun h => hne (hpre f hf g hg h), fun h => hne (hpre g hg f hf h).symm⟩ }

/-! ### The parts of a pass -/

theorem not_gone (hc : Classifies T T' changes) {f : SourceFile} (hf : f ∈ T'.files) :
    f.relativePath ∉ changes.gone :=
  fun h => ((hc.gone _).mp h).2 (List.mem_map_of_mem hf)

theorem purge_filePart_gone {f : SourceFile} (hgone : f.relativePath ∈ changes.gone) :
    (filePart f).detachDelete (Purged changes) = 0 := by
  refine Graph.restrict_eq_zero (fun n hn => ?_) (by simp [filePart])
  obtain rfl := Multiset.mem_singleton.mp hn
  exact not_not.mpr (.inr ⟨_, hgone, rfl⟩)

theorem saved_of_candidate {idx : ResolutionIndexes} {f : SourceFile} {e : RefEdge}
    (he : e ∈ candidates ps idx f) : e.saved = e := by
  have hconfidence : e.confidence ∈
      ["0.9".toList, "0.6".toList, "0.7".toList, "0.95".toList] := by
    rw [candidates] at he
    split at he
    · obtain ⟨src, -, he⟩ := List.mem_filterMap.mp he
      obtain ⟨target, -, rfl⟩ := Option.map_eq_some_iff.mp he
      simp
    · obtain ⟨⟨doc, docIdx⟩, -, he⟩ := List.mem_flatMap.mp he
      obtain he | he := List.mem_append.mp he
      · obtain ⟨image, -, he⟩ := List.mem_filterMap.mp he
        obtain ⟨target, -, rfl⟩ := Option.map_eq_some_iff.mp he
        simp
      · obtain ⟨cref, -, he⟩ := List.mem_filterMap.mp he
        obtain ⟨target, -, rfl⟩ := Option.map_eq_some_iff.mp he
        simp
    · obtain ⟨spec, -, he⟩ := List.mem_filterMap.mp he
      obtain ⟨target, -, rfl⟩ := Option.map_eq_some_iff.mp he
      split_ifs <;> simp
    · cases he
  have hblank : ∀ c ∈ ["0.9".toList, "0.6".toList, "0.7".toList, "0.95".toList],
      trimIsEmpty c = false := by decide
  rw [RefEdge.saved, hblank _ hconfidence]
  rfl

/-- What of the references of a graph is written again, once the pass has left the store `g`. -/
def relinkedPart (changes : ChangeSet) (g part : IacGraph) : IacGraph :=
  ⟨0, ((savedEdges changes part).map RefEdge.saved).filter g.Live⟩

theorem relinkedPart_add (g part part' : IacGraph) : relinkedPart changes g (part + part') =
    relinkedPart changes g part + relinkedPart changes g part' := by
  rw [relinkedPart, savedEdges, Graph.edges_add, Multiset.filter_add, Multiset.map_add,
    Multiset.filter_add]
  rfl

theorem relinkedPart_sum (g : IacGraph) (part : SourceFile → IacGraph) (l : List SourceFile) :
    relinkedPart changes g (l.map part).sum =
      (l.map fun f => relinkedPart changes g (part f)).sum := by
  induction l with
  | nil => rfl
  | cons f l ih => rw [List.map_cons, List.sum_cons, relinkedPart_add, ih, List.map_cons, List.sum_cons]

/-- Without a file to read, the pass writes nothing. -/
theorem exists_pass {g g' : IacGraph} (hpass : ApplyChanges ps T' changes g g') :
    ∃ g₁ g₂, (purgeChanges changes g).insertNodes (fileNodes changes.newFiles) = .ok g₁ ∧
      RunIacPassFor ps (reparsedFiles T' changes) T'.files g₁ g₂ ∧
        g' = relink (savedEdges changes g) g₂ := by
  cases hpass with
  | @pass g₁ g₂ hfiles hsome hrun => exact ⟨g₁, g₂, hfiles, hrun, rfl⟩
  | @idle g₁ hfiles hnone =>
      refine ⟨g₁, _, hfiles, ?_, rfl⟩
      rw [hnone]
      have hdone : RunIacPassFor ps [] T'.files g₁ _ :=
        .done (show g₁.insertNodes [] = .ok g₁ from rfl) (Multiset.coe_toList g₁.nodes)
      have hnothing : g₁.insertEdges (emitReferenceEdges (.build g₁.nodes.toList
          (T'.files.map SourceFile.relId).toFinset) (parseSources ps [])) = g₁ := by
        refine (Graph.insertEdges_of_live ?_).trans (add_zero _)
        simp [emitReferenceEdges, parseSources, ParsedIac.edges, KeepFirst.keepFirst]
      rwa [hnothing] at hdone

theorem unchanged_append_reparsed (T' : Tree) (changes : ChangeSet) :
    T'.files.Perm (unchangedFiles T' changes ++ reparsedFiles T' changes) := by
  have hperm := List.filter_append_perm (fun d : SourceFile => decide (d.relId ∈ changes.reparsedSet))
    T'.files
  simp only [← decide_not] at hperm
  exact hperm.symm.trans List.perm_append_comm

theorem edges_nodeGraph (T : Tree) : (nodeGraph ps T).edges = 0 := by
  have hfiles : (T.files.map filePart).sum.edges = 0 := by
    rw [Graph.edges_sum]
    exact List.sum_eq_zero fun x hx => by
      obtain ⟨f, -, rfl⟩ := List.mem_map.mp hx
      rfl
  have hnodes : (T.files.map (nodePart ps)).sum.edges = 0 := by
    rw [Graph.edges_sum]
    exact List.sum_eq_zero fun x hx => by
      obtain ⟨f, -, rfl⟩ := List.mem_map.mp hx
      rfl
  rw [nodeGraph, Graph.edges_add, hfiles, hnodes, add_zero]

theorem nodes_edgeParts (idx : ResolutionIndexes) (l : List SourceFile) :
    (l.map (edgePart ps idx)).sum.nodes = 0 := by
  rw [Graph.nodes_sum]
  exact List.sum_eq_zero fun x hx => by
    obtain ⟨f, -, rfl⟩ := List.mem_map.mp hx
    rfl

/-- The graph behind the purge and the nodes of the new files. -/
theorem insertNodes_newFiles {idx₀ : ResolutionIndexes} {g₁ : IacGraph}
    (hfiles : (purgeChanges changes (fullGraph ps idx₀ T)).insertNodes
      (fileNodes changes.newFiles) = .ok g₁) :
    g₁ = (nodeGraph ps T).detachDelete (Purged changes) +
      (T.files.map (edgePart ps idx₀)).sum.detachDelete (Purged changes) +
        (changes.newFiles.map filePart).sum := by
  rw [Graph.insertNodes_eq_ok hfiles, purgeChanges_eq, fullGraph, Graph.detachDelete_add,
    fileNodes_eq_sum]

/-- The references bring no node. -/
theorem nodes_beforeRun {idx₀ : ResolutionIndexes} :
    ((nodeGraph ps T).detachDelete (Purged changes) +
      (T.files.map (edgePart ps idx₀)).sum.detachDelete (Purged changes) +
        (changes.newFiles.map filePart).sum).nodes =
      ((nodeGraph ps T).detachDelete (Purged changes) + (changes.newFiles.map filePart).sum).nodes := by
  have hnone : ((T.files.map (edgePart ps idx₀)).sum.detachDelete (Purged changes)).nodes = 0 := by
    change Multiset.filter _ (T.files.map (edgePart ps idx₀)).sum.nodes = 0
    rw [nodes_edgeParts]
    rfl
  simp only [Graph.nodes_add, hnone, add_zero]

theorem relinkedPart_fullGraph {idx₀ : ResolutionIndexes} (g : IacGraph) :
    relinkedPart changes g (fullGraph ps idx₀ T) =
      relinkedPart changes g (T.files.map (edgePart ps idx₀)).sum := by
  rw [fullGraph, relinkedPart, savedEdges, Graph.edges_add, edges_nodeGraph, zero_add]
  rfl

/-! ### What the purge leaves -/

variable (hc : Classifies T T' changes) (hplain : ∀ f ∈ T.files ++ T'.files, PlainPath f)

include hc hplain

/-- A File node is purged with its file. -/
theorem not_purged_file {f : SourceFile} (hf : f ∈ T.files ++ T'.files)
    (hgone : f.relativePath ∉ changes.gone) : ¬Purged changes (.file, f.relativePath) := by
  rintro (⟨rel, hrel, hin⟩ | ⟨rel, hrel, heq⟩)
  · obtain ⟨g, hg, rfl⟩ := purged_mem hc (separate_of_plain hplain) hrel
    exact (hplain f hf).not_within (hplain g (List.mem_append_left _ hg)) hin
  · exact hgone ((Prod.mk.inj heq).2 ▸ hrel)

/-- A node of a file is purged with the symbols of the file. -/
theorem purged_iff {f : SourceFile} (hf : f ∈ T.files ++ T'.files) {k : IacLabel × Str}
    (hlabel : k.1 ≠ .file) (hin : Within f.relId k.2) :
    Purged changes k ↔ f.relativePath ∈ changes.changedRels ++ changes.gone := by
  have howner := (hplain f hf).owner hin
  constructor
  · rintro (⟨rel, hrel, hin'⟩ | ⟨rel, hrel, rfl⟩)
    · obtain ⟨g, hg, rfl⟩ := purged_mem hc (separate_of_plain hplain) hrel
      rw [← howner, owningFile_of_within (hplain g (List.mem_append_left _ hg)).2 hin']
      exact hrel
    · exact absurd rfl hlabel
  · intro hrel
    rw [(hplain f hf).relId] at hin
    exact .inl ⟨_, hrel, hin⟩

theorem unchanged_not_purged {f : SourceFile} (hf : f ∈ unchangedFiles T' changes) :
    f.relativePath ∉ changes.changedRels ++ changes.gone := by
  obtain ⟨hnew, -, hchanged⟩ := (mem_unchangedFiles hc (separate_of_plain hplain)).mp hf
  rw [List.mem_append, not_or]
  exact ⟨hchanged, not_gone hc hnew⟩

theorem purge_filePart {f : SourceFile} (hf : f ∈ T.files ++ T'.files)
    (hgone : f.relativePath ∉ changes.gone) :
    (filePart f).detachDelete (Purged changes) = filePart f := by
  refine Graph.restrict_eq_self (fun n hn => ?_) (by simp [filePart])
  obtain rfl := Multiset.mem_singleton.mp hn
  exact not_purged_file hc hplain hf hgone

theorem purge_nodePart {f : SourceFile} (hf : f ∈ T.files ++ T'.files)
    (hrel : f.relativePath ∉ changes.changedRels ++ changes.gone) :
    (nodePart ps f).detachDelete (Purged changes) = nodePart ps f := by
  refine Graph.restrict_eq_self (fun n hn => ?_) (by simp [nodePart])
  obtain ⟨hwithin, hlabel, -⟩ := mem_nodesOf (Multiset.mem_coe.mp hn)
  exact (purged_iff hc hplain hf hlabel hwithin).not.mpr hrel

theorem purge_nodePart_purged {f : SourceFile} (hf : f ∈ T.files ++ T'.files)
    (hrel : f.relativePath ∈ changes.changedRels ++ changes.gone) :
    (nodePart ps f).detachDelete (Purged changes) = 0 := by
  refine Graph.restrict_eq_zero (fun n hn => ?_) (by simp [nodePart])
  obtain ⟨hwithin, hlabel, -⟩ := mem_nodesOf (Multiset.mem_coe.mp hn)
  exact not_not.mpr ((purged_iff hc hplain hf hlabel hwithin).mpr hrel)

/-- A sum over the earlier tree whose parts vanish for the files that are purged: what is left is
that of the files that are not read again. -/
theorem sum_old_eq {part : SourceFile → IacGraph}
    (hzero : ∀ f ∈ T.files, f.relativePath ∈ changes.changedRels ++ changes.gone → part f = 0) :
    (T.files.map part).sum = ((unchangedFiles T' changes).map part).sum := by
  have hsep := separate_of_plain hplain
  obtain ⟨old, hold, hperm⟩ := old_files hc hsep
  have hchanged : ((changes.changed.map old).map part).sum = 0 := by
    refine List.sum_eq_zero fun x hx => ?_
    obtain ⟨f, hf, rfl⟩ := List.mem_map.mp hx
    obtain ⟨d, hd, rfl⟩ := List.mem_map.mp hf
    refine hzero _ (hold d hd).1 (List.mem_append_left _ ?_)
    rw [(hold d hd).2]
    exact (mem_changedRels hc hsep (hc.changed d hd).1).mpr hd
  have hgone : ((T.files.filter (·.relativePath ∈ changes.gone)).map part).sum = 0 := by
    refine List.sum_eq_zero fun x hx => ?_
    obtain ⟨f, hf, rfl⟩ := List.mem_map.mp hx
    obtain ⟨hmem, hrel⟩ := List.mem_filter.mp hf
    exact hzero f hmem (List.mem_append_right _ (of_decide_eq_true hrel))
  rw [(hperm.map part).sum_eq, List.map_append, List.map_append, List.sum_append, List.sum_append,
    hchanged, hgone, add_zero, add_zero]

theorem purge_fileParts : (T.files.map filePart).sum.detachDelete (Purged changes) =
    ((unchangedFiles T' changes ++ changes.changed).map filePart).sum := by
  have hsep := separate_of_plain hplain
  obtain ⟨old, hold, hperm⟩ := old_files hc hsep
  have hunchanged : ((unchangedFiles T' changes).map fun f =>
      (filePart f).detachDelete (Purged changes)) = (unchangedFiles T' changes).map filePart := by
    refine List.map_congr_left fun f hf => purge_filePart hc hplain ?_ ?_
    · exact List.mem_append_left _ ((mem_unchangedFiles hc hsep).mp hf).2.1
    · exact fun h => unchanged_not_purged hc hplain hf (List.mem_append_right _ h)
  have hchanged : ((changes.changed.map old).map fun f =>
      (filePart f).detachDelete (Purged changes)) = changes.changed.map filePart := by
    rw [List.map_map]
    refine List.map_congr_left fun d hd => ?_
    have hrel : (old d).relativePath ∉ changes.gone := by
      rw [(hold d hd).2]
      exact not_gone hc (hc.changed d hd).1
    rw [Function.comp_apply, purge_filePart hc hplain (List.mem_append_left _ (hold d hd).1) hrel,
      filePart, (hold d hd).2, filePart]
  have hgone : ((T.files.filter (·.relativePath ∈ changes.gone)).map fun f =>
      (filePart f).detachDelete (Purged changes)).sum = 0 := by
    refine List.sum_eq_zero fun part hpart => ?_
    obtain ⟨f, hf, rfl⟩ := List.mem_map.mp hpart
    exact purge_filePart_gone (of_decide_eq_true (List.mem_filter.mp hf).2)
  rw [Graph.detachDelete_sum, (hperm.map _).sum_eq]
  simp only [List.map_append, List.sum_append, hunchanged, hchanged, hgone, add_zero]

/-- The purge leaves the File nodes of the files that stay, and the nodes of those that are not
read again. -/
theorem purge_nodeGraph : (nodeGraph ps T).detachDelete (Purged changes) =
    ((unchangedFiles T' changes ++ changes.changed).map filePart).sum +
      ((unchangedFiles T' changes).map (nodePart ps)).sum := by
  have hkept : ((unchangedFiles T' changes).map fun f =>
      (nodePart ps f).detachDelete (Purged changes)) =
        (unchangedFiles T' changes).map (nodePart ps) := by
    refine List.map_congr_left fun f hf => purge_nodePart hc hplain ?_ ?_
    · exact List.mem_append_left _
        ((mem_unchangedFiles hc (separate_of_plain hplain)).mp hf).2.1
    · exact unchanged_not_purged hc hplain hf
  rw [nodeGraph, Graph.detachDelete_add, purge_fileParts hc hplain, Graph.detachDelete_sum,
    sum_old_eq hc hplain, hkept]
  exact fun f hf hrel => purge_nodePart_purged hc hplain (List.mem_append_left _ hf) hrel

/-! ### The references that stay -/

variable {idx : ResolutionIndexes} {f : SourceFile} {e : RefEdge}

/-- The target of a reference is purged where it is the kustomization of a changed file. -/
theorem purged_target_iff (hidx : IsIndex ps T' idx) (he : e ∈ candidates ps idx f) :
    Purged changes (e.table.target, e.target) ↔
      e.table.target ≠ .file ∧ ∃ rel ∈ changes.changedRels, Within rel e.target := by
  obtain ⟨h, hh, ⟨hlabel, htarget⟩ | ⟨hlabel, htarget, -⟩⟩ := target_of_candidate hidx he
  · have hmem : h ∈ T.files ++ T'.files := List.mem_append_right _ hh
    have hkept := not_purged_file hc hplain hmem (not_gone hc hh)
    rw [hlabel, htarget, (hplain h hmem).relId]
    exact iff_of_false hkept fun hfile => hfile.1 rfl
  · have hmem : h ∈ T.files ++ T'.files := List.mem_append_right _ hh
    have hwithin : Within h.relId (moduleId h.relId) := within_symbolPrefix _ _
    have hmodule : (IacLabel.iacModule, moduleId h.relId).1 ≠ .file := nofun
    rw [hlabel, htarget]
    constructor
    · intro hpurged
      have hrel := (purged_iff hc hplain hmem hmodule hwithin).mp hpurged
      refine ⟨nofun, h.relativePath, (List.mem_append.mp hrel).resolve_right (not_gone hc hh), ?_⟩
      rwa [(hplain h hmem).relId] at hwithin ⊢
    · rintro ⟨-, rel, hrel, hin⟩
      exact .inl ⟨rel, List.mem_append_left _ hrel, hin⟩

/-- The references of a file that is not read again: those into a kustomization that is are
purged and written again, the others stay. -/
theorem edgePart_unchanged (hidx : IsIndex ps T' idx) {g : IacGraph}
    (hg : g.nodes = (nodeGraph ps T').nodes) (hf : f ∈ unchangedFiles T' changes) :
    (edgePart ps idx f).detachDelete (Purged changes) +
      relinkedPart changes g (edgePart ps idx f) = edgePart ps idx f := by
  have hnew : f ∈ T'.files := ((mem_unchangedFiles hc (separate_of_plain hplain)).mp hf).1
  have hplain' : ∀ f ∈ T'.files, PlainPath f := fun f hf => hplain f (List.mem_append_right _ hf)
  have hsource : ∀ e ∈ drawn ps idx f, ¬Purged changes (e.table.source, e.source) := by
    intro e he
    exact (purged_iff hc hplain (List.mem_append_right _ hnew) (k := (_, _))
      e.table.source_ne_file (source_within (mem_drawn he))).not.mpr (unchanged_not_purged hc hplain hf)
  have howner : ∀ e ∈ drawn ps idx f, owningFile e.source ∉ changes.reparsedSet := by
    intro e he
    rw [(hplain' f hnew).owner (source_within (mem_drawn he)), ← (hplain' f hnew).relId]
    exact of_decide_eq_true (List.mem_filter.mp hf).2
  have hkept : (edgePart ps idx f).detachDelete (Purged changes) =
      ⟨0, (drawn ps idx f : Multiset RefEdge).filter
        fun e => ¬Purged changes (e.table.target, e.target)⟩ := by
    refine Store.Graph.ext rfl ?_
    change Multiset.filter _ (drawn ps idx f : Multiset RefEdge) = _
    exact Multiset.filter_congr fun e he => and_iff_right (hsource e (Multiset.mem_coe.mp he))
  have hsaved : savedEdges changes (edgePart ps idx f) =
      (drawn ps idx f : Multiset RefEdge).filter
        fun e => Purged changes (e.table.target, e.target) := by
    refine Multiset.filter_congr fun e he => ?_
    have hdrawn := Multiset.mem_coe.mp he
    rw [purged_target_iff hc hplain hidx (mem_drawn hdrawn), ← and_assoc,
      and_iff_left (howner e hdrawn)]
  have hwritten : ((savedEdges changes (edgePart ps idx f)).map RefEdge.saved).filter g.Live =
      savedEdges changes (edgePart ps idx f) := by
    have hcandidate : ∀ e ∈ savedEdges changes (edgePart ps idx f), e ∈ candidates ps idx f :=
      fun e he => mem_drawn (Multiset.mem_coe.mp (Multiset.mem_of_mem_filter he))
    rw [Multiset.map_congr rfl fun e he => saved_of_candidate (hcandidate e he), Multiset.map_id']
    exact Multiset.filter_eq_self.mpr fun e he =>
      live_of_candidate hplain' hidx hnew (hcandidate e he) hg
  rw [hkept, relinkedPart, hwritten, hsaved]
  refine Store.Graph.ext (add_zero _) ?_
  rw [Graph.edges_add, add_comm]
  exact Multiset.filter_add_not (fun e => Purged changes (e.table.target, e.target))
    (drawn ps idx f : Multiset RefEdge)

/-- The references of a file that is purged are purged, and not written again. -/
theorem edgePart_purged {g : IacGraph} (hg : g.nodes = (nodeGraph ps T').nodes) (hf : f ∈ T.files)
    (hrel : f.relativePath ∈ changes.changedRels ++ changes.gone) :
    (edgePart ps idx f).detachDelete (Purged changes) +
      relinkedPart changes g (edgePart ps idx f) = 0 := by
  have hsep := separate_of_plain hplain
  have hmem : f ∈ T.files ++ T'.files := List.mem_append_left _ hf
  have hdeleted : (edgePart ps idx f).detachDelete (Purged changes) = 0 := by
    refine Graph.restrict_eq_zero (by simp [edgePart]) fun e he => ?_
    refine not_and_of_not_left _ (not_not.mpr ?_)
    exact (purged_iff hc hplain hmem (k := (_, _)) e.table.source_ne_file
      (source_within (mem_drawn (Multiset.mem_coe.mp he)))).mpr hrel
  have hnone : relinkedPart changes g (edgePart ps idx f) = 0 := by
    suffices h : ((savedEdges changes (edgePart ps idx f)).map RefEdge.saved).filter g.Live = 0 from
      Store.Graph.ext rfl h
    refine Multiset.filter_eq_nil.mpr fun e he => ?_
    obtain ⟨e, hsaved, rfl⟩ := Multiset.mem_map.mp he
    obtain ⟨hdrawn, -, -, hnot⟩ := Multiset.mem_filter.mp hsaved
    have hwithin := source_within (mem_drawn (Multiset.mem_coe.mp hdrawn))
    rw [(hplain f hmem).owner hwithin] at hnot
    rintro ⟨⟨n, hn, hkey⟩, -⟩
    rw [hg] at hn
    obtain ⟨h, -, rfl⟩ | ⟨h, hh, hnh⟩ := mem_nodeGraph.mp hn
    · exact absurd (congrArg Prod.fst hkey).symm e.table.source_ne_file
    · have hin := (mem_nodesOf hnh).1
      rw [show n.key.2 = e.source from congrArg Prod.snd hkey] at hin
      have howner := (hplain h (List.mem_append_right _ hh)).owner hin
      rw [(hplain f hmem).owner hwithin] at howner
      obtain hchanged | hgone := List.mem_append.mp hrel
      · rw [howner, ← (hplain h (List.mem_append_right _ hh)).relId] at hnot
        rw [howner] at hchanged
        exact hnot ((mem_reparsedSet hc hsep hh).mpr
          (.inl ((mem_changedRels hc hsep hh).mp hchanged)))
      · rw [howner] at hgone
        exact not_gone hc hh hgone
  rw [hdeleted, hnone, add_zero]

/-- The references that an incremental pass leaves as they are. -/
theorem purge_edgeParts (hidx : IsIndex ps T' idx) {idx₀ : ResolutionIndexes} {g : IacGraph}
    (hg : g.nodes = (nodeGraph ps T').nodes)
    (hsame : ∀ f ∈ unchangedFiles T' changes, edgePart ps idx₀ f = edgePart ps idx f) :
    (T.files.map (edgePart ps idx₀)).sum.detachDelete (Purged changes) +
      relinkedPart changes g (T.files.map (edgePart ps idx₀)).sum =
        ((unchangedFiles T' changes).map (edgePart ps idx)).sum := by
  rw [Graph.detachDelete_sum, relinkedPart_sum, ← List.sum_map_add,
    sum_old_eq hc hplain fun f hf hrel => edgePart_purged hc hplain hg hf hrel]
  refine congrArg List.sum (List.map_congr_left fun f hf => ?_)
  rw [hsame f hf, edgePart_unchanged hc hplain hidx hg hf]

/-! ### An incremental pass -/

/-- The nodes of the new tree: those that the purge leaves, the new files, and what is read. -/
theorem nodeGraph_eq : nodeGraph ps T' =
    (nodeGraph ps T).detachDelete (Purged changes) + (changes.newFiles.map filePart).sum +
      ((reparsedFiles T' changes).map (nodePart ps)).sum := by
  have hfiles := ((new_files hc (separate_of_plain hplain)).map filePart).sum_eq
  have hnodes := ((unchanged_append_reparsed T' changes).map (nodePart ps)).sum_eq
  rw [List.map_append, List.sum_append] at hfiles hnodes
  rw [nodeGraph, hfiles, hnodes, purge_nodeGraph hc hplain, ChangeSet.newFiles]
  abel

/-- What is read again is not in the graph any more. -/
theorem not_has_reparsed {g₁ : IacGraph}
    (hg₁ : g₁.nodes = ((nodeGraph ps T).detachDelete (Purged changes) +
      (changes.newFiles.map filePart).sum).nodes) :
    ∀ f ∈ reparsedFiles T' changes, ∀ n ∈ nodesOf ps f, ¬g₁.Has n.key := by
  intro f hf n hn
  have hplain' : ∀ f ∈ T'.files, PlainPath f := fun f hf => hplain f (List.mem_append_right _ hf)
  obtain ⟨hfmem, hfrel⟩ := List.mem_filter.mp hf
  obtain ⟨hwithin, hlabel, -⟩ := mem_nodesOf hn
  rintro ⟨m, hm, hkey⟩
  rw [hg₁, purge_nodeGraph hc hplain, Graph.nodes_add, Graph.nodes_add, Multiset.mem_add,
    Multiset.mem_add, Graph.mem_nodes_sum, Graph.mem_nodes_sum, Graph.mem_nodes_sum] at hm
  obtain (⟨h, -, hm⟩ | ⟨h, hh, hm⟩) | ⟨h, -, hm⟩ := hm
  · obtain rfl := Multiset.mem_singleton.mp hm
    exact hlabel (congrArg Prod.fst hkey).symm
  · obtain ⟨hhmem, hhrel⟩ := List.mem_filter.mp hh
    have hwithin' := (mem_nodesOf (Multiset.mem_coe.mp hm)).1
    rw [show m.key = n.key from hkey] at hwithin'
    obtain rfl := eq_of_within hplain' T'.nodup hfmem hhmem hwithin hwithin'
    exact of_decide_eq_true hhrel (of_decide_eq_true hfrel)
  · obtain rfl := Multiset.mem_singleton.mp hm
    exact hlabel (congrArg Prod.fst hkey).symm

/-- A file that keeps its targets keeps its references. -/
theorem edgePart_congr {idx₀ idx : ResolutionIndexes} (hidx₀ : IsIndex ps T idx₀)
    (hidx : IsIndex ps T' idx) (htargets : ∀ f ∈ T.files, OneTarget ps T f)
    (htargets' : ∀ f ∈ T'.files, OneTarget ps T' f)
    (hsame : ∀ f ∈ unchangedFiles T' changes, SameTargets ps T T' f) :
    ∀ f ∈ unchangedFiles T' changes, edgePart ps idx₀ f = edgePart ps idx f := by
  intro f hf
  obtain ⟨hfnew, hfold, -⟩ := (mem_unchangedFiles hc (separate_of_plain hplain)).mp hf
  rw [edgePart, drawn, candidates_congr hidx₀ hidx (htargets f hfold) (htargets' f hfnew)
    (hsame f hf)]
  rfl

/-- A pass over a tree whose references keep their targets leaves the part of every file. -/
theorem applyChanges_eq {idx₀ : ResolutionIndexes} (hidx₀ : IsIndex ps T idx₀)
    (htargets : ∀ f ∈ T.files, OneTarget ps T f) (htargets' : ∀ f ∈ T'.files, OneTarget ps T' f)
    (hsame : ∀ f ∈ unchangedFiles T' changes, SameTargets ps T T' f) {g' : IacGraph}
    (hpass : ApplyChanges ps T' changes (fullGraph ps idx₀ T) g') :
    ∃ idx, IsIndex ps T' idx ∧ g' = fullGraph ps idx T' := by
  have hplain' : ∀ f ∈ T'.files, PlainPath f := fun f hf => hplain f (List.mem_append_right _ hf)
  obtain ⟨g₁, g₂, hfiles, hrun, rfl⟩ := exists_pass hpass
  have hg₁ := insertNodes_newFiles hfiles
  have hg₁nodes : g₁.nodes = ((nodeGraph ps T).detachDelete (Purged changes) +
      (changes.newFiles.map filePart).sum).nodes := by
    rw [hg₁]
    exact nodes_beforeRun
  have hnodes : (g₁ + ((reparsedFiles T' changes).map (nodePart ps)).sum).nodes =
      (nodeGraph ps T').nodes := by
    rw [nodeGraph_eq hc hplain, Graph.nodes_add, hg₁nodes]
    rfl
  have hsub : (reparsedFiles T' changes).Sublist T'.files := List.filter_sublist
  obtain ⟨idx, hidx, hg₂⟩ :=
    runIacPassFor_eq hplain' hsub hnodes (not_has_reparsed hc hplain hg₁nodes) hrun
  refine ⟨idx, hidx, ?_⟩
  have hg₂nodes : g₂.nodes = (nodeGraph ps T').nodes := by
    rw [hg₂, Graph.nodes_add, hnodes, nodes_edgeParts, add_zero]
  have hunchanged := purge_edgeParts hc hplain hidx hg₂nodes
    (edgePart_congr hc hplain hidx₀ hidx htargets htargets' hsame)
  have hall := ((unchanged_append_reparsed T' changes).map (edgePart ps idx)).sum_eq
  rw [List.map_append, List.sum_append] at hall
  rw [relink, Graph.insertEdges_eq]
  change g₂ + relinkedPart changes g₂ (fullGraph ps idx₀ T) = _
  rw [relinkedPart_fullGraph]
  generalize relinkedPart changes g₂ (T.files.map (edgePart ps idx₀)).sum = relinked at hunchanged ⊢
  rw [hg₂, hg₁, fullGraph, hall, ← hunchanged, nodeGraph_eq hc hplain]
  abel

end Step

/-! ### Runs -/

/-- The store of a run is the graph of its tree. -/
theorem reaches_eq {ps : IacParsers} {T : Tree} {g : IacGraph}
    (hreach : Reaches ps (stablePasses ps) T g) :
    Clear ps T ∧ ∃ idx, IsIndex ps T idx ∧ g = fullGraph ps idx T := by
  induction hreach with
  | full hclear hpass => exact ⟨hclear, runIacPass_eq hclear.plain hpass⟩
  | incremental _ hnext hchanges hpass ih =>
      obtain ⟨hclear, idx₀, hidx₀, rfl⟩ := ih
      obtain ⟨hclear', hsame⟩ := hnext
      refine ⟨hclear', applyChanges_eq hchanges ?_ hidx₀ hclear.targets hclear'.targets hsame hpass⟩
      exact fun f hf => (List.mem_append.mp hf).elim (hclear.plain f) (hclear'.plain f)

/-- A pass ends in some store. -/
theorem exists_runIacPassFor (ps : IacParsers) (sources allFiles : List SourceFile) (g : IacGraph) :
    ∃ g', RunIacPassFor ps sources allFiles g g' := by
  cases hnodes : g.insertNodes (parseSources ps sources).nodes with
  | error k => exact ⟨_, .failed hnodes (List.nil_subset _)⟩
  | ok g₁ => exact ⟨_, .done hnodes (Multiset.coe_toList _)⟩

/-! ### Two manifests -/

def yaml (name : FileName) (text : Str) : SourceFile :=
  { dirs := [], name := name, size := text.length, text := .ok text }

/-- A text, line by line. -/
def textOf (lines : List String) : Str := lines.flatMap fun line => line.toList ++ ['\n']

def podText : Str :=
  textOf ["apiVersion: v1", "kind: Pod", "metadata:", "  name: web", "spec:", "  containers:",
    "    - name: web", "      envFrom:", "        - configMapRef:", "            name: app"]

def configText : Str :=
  textOf ["apiVersion: v1", "kind: ConfigMap", "metadata:", "  name: app"]

def blueText : Str :=
  textOf ["apiVersion: v1", "kind: ConfigMap", "metadata:", "  name: app", "data:", "  color: blue"]

/-- What `k8s::scan` reads of the manifests. -/
def twoManifests : IacParsers :=
  { dockerfile := fun _ => none
    looksLikeManifest := fun _ => true
    scan := fun src =>
      if src = podText then
        [{ kind := "Pod".toList, name := "web".toList, nspace := [], images := [],
           configRefs := [⟨"ConfigMap".toList, "app".toList⟩] }]
      else if src = configText then
        [{ kind := "ConfigMap".toList, name := "app".toList, nspace := [], images := [],
           configRefs := [] }]
      else if src = blueText then
        [{ kind := "ConfigMap".toList, name := "app".toList, nspace := [], images := [],
           configRefs := [] }]
      else []
    kustomize := fun _ => { refs := [] } }

def pod : SourceFile := yaml ⟨"pod.yaml".toList, by decide⟩ podText

def config : SourceFile := yaml ⟨"app.yaml".toList, by decide⟩ configText

def blueConfig : SourceFile := yaml ⟨"app.yaml".toList, by decide⟩ blueText

def podTree : Tree where
  files := [pod]
  nodup := by decide
  depth := by decide

def configTree : Tree where
  files := [pod, config]
  nodup := by decide +kernel
  depth := by decide

def blueTree : Tree where
  files := [pod, blueConfig]
  nodup := by decide +kernel
  depth := by decide

/-! ### The references of a tree -/

/-- In a run whose passes keep the targets of the files they do not read again, the references
are those that a full pass over the last tree draws. -/
theorem references_eq_full {ps : IacParsers} {T : Tree} {g g' : IacGraph}
    (hreach : Reaches ps (stablePasses ps) T g) (hfull : RunIacPass ps T g') :
    g.edges = g'.edges := by
  obtain ⟨hclear, idx, hidx, rfl⟩ := reaches_eq hreach
  obtain ⟨idx', hidx', rfl⟩ := runIacPass_eq hclear.plain hfull
  rw [fullGraph_eq hclear.targets hidx hidx']

def colorConfig : ChangeSet := { changed := [blueConfig], added := [], deleted := [], renamed := [] }

/-- A ConfigMap whose data change keeps the reference to it. -/
theorem references_eq_full_blueTree : ∃ g g', Reaches twoManifests (stablePasses twoManifests)
    blueTree g ∧ RunIacPass twoManifests blueTree g' ∧ g.edges = g'.edges := by
  have hclear : ∀ T ∈ [configTree, blueTree], Clear twoManifests T := by
    intro T hT
    fin_cases hT
    · exact ⟨by decide +kernel, by decide +kernel⟩
    · exact ⟨by decide +kernel, by decide +kernel⟩
  have hchanges : Classifies configTree blueTree colorConfig :=
    { changed := by decide +kernel
      changedNodup := by decide +kernel
      unchanged := by decide +kernel
      new := by decide +kernel
      gone := by
        intro rel
        have hrels : configTree.rels = blueTree.rels := rfl
        rw [hrels]
        exact iff_of_false List.not_mem_nil fun h => h.2 h.1 }
  have hnext : (stablePasses twoManifests).next configTree blueTree colorConfig :=
    ⟨hclear blueTree (by simp), by decide +kernel⟩
  obtain ⟨g₀, hfirst⟩ := exists_runIacPassFor twoManifests configTree.files configTree.files _
  obtain ⟨g₁, hpass⟩ := exists_runIacPassFor twoManifests
    (reparsedFiles blueTree colorConfig) blueTree.files (purgeChanges colorConfig g₀)
  obtain ⟨g', hfull⟩ := exists_runIacPassFor twoManifests blueTree.files blueTree.files _
  have hreach := Reaches.incremental (.full (hclear configTree (by simp)) hfirst) hnext hchanges
    (.pass rfl (by decide +kernel) hpass)
  exact ⟨_, g', hreach, hfull, references_eq_full hreach hfull⟩

/-! ### A name that starts to resolve -/

def addConfig : ChangeSet := { changed := [], added := [config], deleted := [], renamed := [] }

theorem addConfig_classifies : Classifies podTree configTree addConfig where
  changed := by simp [addConfig]
  changedNodup := by simp [addConfig]
  unchanged := by decide +kernel
  new := by decide +kernel
  gone := by
    intro rel
    have hsub : podTree.rels ⊆ configTree.rels :=
      List.map_subset _ (by simp [podTree, configTree])
    constructor
    · intro h
      simp [ChangeSet.gone, addConfig] at h
    · rintro ⟨hold, hnew⟩
      exact absurd (hsub hold) hnew

/-- Every pass. -/
def allPasses : Passes := ⟨fun _ => True, fun _ _ _ => True⟩

set_option maxRecDepth 20000 in
/-- A manifest that names a ConfigMap added later is not read again when that is added. -/
theorem name_of_added_config_is_missed : ¬ ∀ ps T g g', Reaches ps allPasses T g →
    RunIacPass ps T g' → g.edges = g'.edges := by
  intro hsame
  have hfirst : RunIacPass twoManifests podTree _ := .done rfl rfl
  have hpod : Reaches twoManifests allPasses podTree _ := .full trivial hfirst
  have hadded := Reaches.incremental hpod trivial addConfig_classifies
    (.pass rfl (by decide +kernel) (.done rfl rfl))
  have hfull : RunIacPass twoManifests configTree _ := .done rfl rfl
  have hedges := hsame twoManifests configTree _ _ hadded hfull
  revert hedges
  decide +kernel

end AutomatisedPipeline.Iac

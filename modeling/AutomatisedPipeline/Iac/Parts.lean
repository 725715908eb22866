import AutomatisedPipeline.Iac.References
import AutomatisedPipeline.Indexer.Refinement

/-!
The infrastructure pass on a store: after a full index, and inside an incremental one.

The store is the slice of it that the pass reads and writes, the File nodes among it. The order
in which a query gives its rows is any order (`RowOrder`), so a pass is a relation between
stores. A tree is indexed from nothing, or from the graph of an earlier tree (`Reaches`).

What a pass writes is said file by file. Each file has its own part: its File node, the nodes of
what is read of it, and the references out of them (`filePart`, `nodePart`, `edgePart`). Ids in the
scope of two files differ, so the nodes of a pass are all written, and an edge is only ever seen
twice in one file (`insertNodes_parseSources`, `emitReferenceEdges_eq`).
-/

namespace AutomatisedPipeline.Iac

open Text Store Indexer KeepFirst

/-! ### A pass on a store -/

/-- An order in which the store gives its nodes. -/
def RowOrder (g : IacGraph) (rows : List IacNode) : Prop := (rows : Multiset IacNode) = g.nodes

/-- `run_iac_pass_for`: the nodes, then the references, resolved against the store behind them.
Where the store refuses a node, some of the nodes are written. -/
inductive RunIacPassFor (ps : IacParsers) (sources allFiles : List SourceFile) (g : IacGraph) :
    IacGraph → Prop
  | done {g₁ : IacGraph} {rows : List IacNode}
      (hnodes : g.insertNodes (parseSources ps sources).nodes = .ok g₁) (hrows : RowOrder g₁ rows) :
      RunIacPassFor ps sources allFiles g
        (g₁.insertEdges (emitReferenceEdges
          (.build rows (allFiles.map SourceFile.relId).toFinset) (parseSources ps sources)))
  | failed {k : IacLabel × Str} {written : List IacNode}
      (hnodes : g.insertNodes (parseSources ps sources).nodes = .error k)
      (hwritten : written ⊆ (parseSources ps sources).nodes) :
      RunIacPassFor ps sources allFiles g (g + ⟨written, 0⟩)

/-- The File nodes of a list of files. -/
def fileNodes (files : List SourceFile) : List IacNode :=
  files.map fun f => .file f.relativePath

/-- `run_iac_pass`, on a store that has the files of the tree. -/
def RunIacPass (ps : IacParsers) (T : Tree) : IacGraph → Prop :=
  RunIacPassFor ps T.files T.files ⟨fileNodes T.files, 0⟩

/-! ### The incremental pass -/

/-- `purge_file_symbols`. -/
def purgeSymbols (rel : Str) (g : IacGraph) : IacGraph := g.detachDelete fun k => Within rel k.2

/-- `purge_file_symbols` and `purge_file_node`. -/
def purgeFile (rel : Str) (g : IacGraph) : IacGraph :=
  (purgeSymbols rel g).detachDelete fun k => k = (.file, rel)

/-- The purge of `apply_changes`. -/
def purgeChanges (changes : ChangeSet) (g : IacGraph) : IacGraph :=
  let g := changes.changedRels.foldl (fun g rel => purgeSymbols rel g) g
  let g := changes.deleted.foldl (fun g rel => purgeFile rel g) g
  changes.renamed.foldl (fun g r => purgeFile r.oldRel g) g

/-- `snapshot_inbound_edges`: an edge to a File node is not saved. -/
def savedEdges (changes : ChangeSet) (g : IacGraph) : Multiset RefEdge :=
  g.edges.filter fun e =>
    e.table.target ≠ .file ∧ (∃ rel ∈ changes.changedRels, Within rel e.target) ∧
      owningFile e.source ∉ changes.reparsedSet

def RefEdge.saved (e : RefEdge) : RefEdge :=
  { e with confidence := if trimIsEmpty e.confidence then "1.0".toList else e.confidence }

/-- `relink_inbound_edges`. -/
def relink (saved : Multiset RefEdge) (g : IacGraph) : IacGraph :=
  g.insertEdges (saved.map RefEdge.saved)

/-- `reparsed_files`. -/
def reparsedFiles (T : Tree) (changes : ChangeSet) : List SourceFile :=
  T.files.filter fun d => d.relId ∈ changes.reparsedSet

/-- The slice of `apply_changes`. -/
inductive ApplyChanges (ps : IacParsers) (T : Tree) (changes : ChangeSet) (g : IacGraph) :
    IacGraph → Prop
  | idle {g₁ : IacGraph}
      (hfiles : (purgeChanges changes g).insertNodes (fileNodes changes.newFiles) = .ok g₁)
      (hnone : reparsedFiles T changes = []) :
      ApplyChanges ps T changes g (relink (savedEdges changes g) g₁)
  | pass {g₁ g₂ : IacGraph}
      (hfiles : (purgeChanges changes g).insertNodes (fileNodes changes.newFiles) = .ok g₁)
      (hsome : reparsedFiles T changes ≠ [])
      (hpass : RunIacPassFor ps (reparsedFiles T changes) T.files g₁ g₂) :
      ApplyChanges ps T changes g (relink (savedEdges changes g) g₂)

/-- The passes that are looked at: the full ones of a tree, and the incremental ones from a tree
to another. -/
structure Passes where
  full : Tree → Prop
  next : Tree → Tree → ChangeSet → Prop

/-- The stores of a tree: a full index of it, or an incremental one from the store of an earlier
tree. -/
inductive Reaches (ps : IacParsers) (passes : Passes) : Tree → IacGraph → Prop
  | full {T : Tree} {g : IacGraph} (hfull : passes.full T) (hpass : RunIacPass ps T g) :
      Reaches ps passes T g
  | incremental {T T' : Tree} {changes : ChangeSet} {g g' : IacGraph}
      (hreach : Reaches ps passes T g) (hnext : passes.next T T' changes)
      (hchanges : Classifies T T' changes) (hpass : ApplyChanges ps T' changes g g') :
      Reaches ps passes T' g'

/-! ### Paths -/

/-- The path has no backslash, and the first `::` of `<path>::` is the one behind it. -/
def PlainPath (f : SourceFile) : Prop :=
  '\\' ∉ f.relativePath ∧ owningFile (symbolPrefix f.relativePath) = f.relativePath

instance (f : SourceFile) : Decidable (PlainPath f) := instDecidableAnd

theorem find_append {needle s : Str} {i : Nat} (h : find needle s = some i) (rest : Str) :
    find needle (s ++ rest) = some i := by
  obtain ⟨hle, hhere, hbefore⟩ := find_eq_some_iff.mp h
  refine find_eq_some_iff.mpr ⟨?_, ?_, fun j hj hpre => ?_⟩
  · rw [List.length_append]
    omega
  · rw [List.drop_append_of_le_length hle]
    exact hhere.trans (List.prefix_append _ _)
  · rw [List.drop_append_of_le_length (by omega)] at hpre
    have hlong : needle.length ≤ (s.drop j).length := by
      have hfits := hhere.length_le
      rw [List.length_drop] at hfits ⊢
      omega
    exact hbefore j hj (List.prefix_of_prefix_length_le hpre (List.prefix_append _ _) hlong)

/-- The ids in the scope of a plain path belong to it. -/
theorem owningFile_of_within {rel id : Str} (hrel : owningFile (symbolPrefix rel) = rel)
    (h : Within rel id) : owningFile id = rel := by
  obtain ⟨rest, rfl⟩ := h
  rw [owningFile] at hrel ⊢
  cases hfind : find [':', ':'] (symbolPrefix rel) with
  | none =>
      rw [hfind] at hrel
      exact absurd (congrArg List.length hrel) (by simp [symbolPrefix])
  | some i =>
      obtain ⟨hle, -, -⟩ := find_eq_some_iff.mp hfind
      rw [hfind] at hrel
      rw [find_append hfind]
      simp only at hrel ⊢
      rwa [List.take_append_of_le_length hle]

theorem PlainPath.relId {f : SourceFile} (h : PlainPath f) : f.relId = f.relativePath :=
  relId_of_plain h.1

theorem PlainPath.owner {f : SourceFile} (h : PlainPath f) {id : Str} (hid : Within f.relId id) :
    owningFile id = f.relativePath := by
  rw [h.relId] at hid
  exact owningFile_of_within h.2 hid

/-! ### One file -/

def nodesOf (ps : IacParsers) (f : SourceFile) : List IacNode :=
  match parse ps f with
  | .dockerfile _ => emitDockerfileNodes f.relId
  | .manifest docs => emitManifestNodes f.relId docs
  | .kustomization _ => emitModuleNode f.relId
  | .nothing => []

def candidates (ps : IacParsers) (idx : ResolutionIndexes) (f : SourceFile) : List RefEdge :=
  match parse ps f with
  | .dockerfile info => dockerfileEdges idx f.relId info
  | .manifest docs => manifestEdges idx f.relId docs
  | .kustomization kust => kustomizeEdges idx f.relId kust
  | .nothing => []

/-- The candidates of a Dockerfile, of a manifest and of a kustomization. -/
def dockerfileCandidates (ps : IacParsers) (idx : ResolutionIndexes) (f : SourceFile) :
    List RefEdge := ((parse ps f).info.map (dockerfileEdges idx f.relId)).getD []

def manifestCandidates (ps : IacParsers) (idx : ResolutionIndexes) (f : SourceFile) :
    List RefEdge := ((parse ps f).docs.map (manifestEdges idx f.relId)).getD []

def kustomizeCandidates (ps : IacParsers) (idx : ResolutionIndexes) (f : SourceFile) :
    List RefEdge := ((parse ps f).kust.map (kustomizeEdges idx f.relId)).getD []

/-- The references out of a file. -/
def drawn (ps : IacParsers) (idx : ResolutionIndexes) (f : SourceFile) : List RefEdge :=
  keepFirst RefEdge.seenKey (candidates ps idx f)

def filePart (f : SourceFile) : IacGraph := ⟨([.file f.relativePath] : List IacNode), 0⟩

def nodePart (ps : IacParsers) (f : SourceFile) : IacGraph := ⟨(nodesOf ps f : List IacNode), 0⟩

def edgePart (ps : IacParsers) (idx : ResolutionIndexes) (f : SourceFile) : IacGraph :=
  ⟨0, (drawn ps idx f : List RefEdge)⟩

/-! ### Ids -/

theorem within_symbolPrefix (rel s : Str) : Within rel (symbolPrefix rel ++ s) :=
  List.prefix_append _ _

/-- The columns of a node of a file. -/
theorem mem_nodesOf {ps : IacParsers} {f : SourceFile} {n : IacNode} (h : n ∈ nodesOf ps f) :
    Within f.relId n.key.2 ∧ n.key.1 ≠ .file ∧
      ((∃ id kind name ns, n = .iacResource id kind name ns f.relId) ∨
        n = .iacModule (moduleId f.relId) f.relId) := by
  rw [nodesOf] at h
  split at h
  · obtain rfl := List.mem_singleton.mp h
    exact ⟨within_symbolPrefix _ _, nofun, .inl ⟨_, _, _, _, rfl⟩⟩
  · obtain ⟨⟨doc, docIdx⟩, -, rfl⟩ := List.mem_map.mp h
    exact ⟨within_symbolPrefix _ _, nofun, .inl ⟨_, _, _, _, rfl⟩⟩
  · obtain rfl := List.mem_singleton.mp h
    exact ⟨within_symbolPrefix _ _, nofun, .inr rfl⟩
  · cases h

theorem docId_injective (rel : Str) : Function.Injective (docId rel) := by
  intro i j h
  have hdigits : Nat.toDigits 10 i = Nat.toDigits 10 j :=
    List.append_cancel_left (List.append_cancel_left h)
  have hvalue := congrArg (Nat.ofDigitChars 10 · 0) hdigits
  simpa using hvalue

/-- The nodes of a file have ids of their own. -/
theorem nodup_keys_nodesOf (ps : IacParsers) (f : SourceFile) :
    ((nodesOf ps f).map IacNode.key).Nodup := by
  rw [nodesOf]
  split
  · exact List.nodup_singleton _
  · rename_i docs _
    have hkeys : (emitManifestNodes f.relId docs).map IacNode.key =
        (docs.zipIdx.map Prod.snd).map fun docIdx => (.iacResource, docId f.relId docIdx) := by
      rw [emitManifestNodes, List.map_map, List.map_map]
      rfl
    rw [hkeys, List.zipIdx_map_snd]
    refine (List.nodup_range' _).map fun i j hij => ?_
    exact docId_injective f.relId (Prod.mk.inj hij).2
  · exact List.nodup_singleton _
  · exact List.nodup_nil

/-- A reference goes out of a node of its file. -/
theorem source_mem_nodesOf {ps : IacParsers} {idx : ResolutionIndexes} {f : SourceFile}
    {e : RefEdge} (h : e ∈ candidates ps idx f) :
    ∃ n ∈ nodesOf ps f, n.key = (e.table.source, e.source) := by
  rw [candidates] at h
  rw [nodesOf]
  split at h
  · obtain ⟨src, -, he⟩ := List.mem_filterMap.mp h
    obtain ⟨target, -, rfl⟩ := Option.map_eq_some_iff.mp he
    exact ⟨_, List.mem_cons_self, rfl⟩
  · obtain ⟨⟨doc, docIdx⟩, hdoc, he⟩ := List.mem_flatMap.mp h
    refine ⟨_, List.mem_map_of_mem hdoc, ?_⟩
    obtain he | he := List.mem_append.mp he
    · obtain ⟨image, -, he⟩ := List.mem_filterMap.mp he
      obtain ⟨target, -, rfl⟩ := Option.map_eq_some_iff.mp he
      rfl
    · obtain ⟨cref, -, he⟩ := List.mem_filterMap.mp he
      obtain ⟨target, -, rfl⟩ := Option.map_eq_some_iff.mp he
      rfl
  · obtain ⟨spec, -, he⟩ := List.mem_filterMap.mp h
    obtain ⟨target, -, rfl⟩ := Option.map_eq_some_iff.mp he
    refine ⟨_, List.mem_cons_self, ?_⟩
    split <;> rfl
  · cases h

theorem source_within {ps : IacParsers} {idx : ResolutionIndexes} {f : SourceFile} {e : RefEdge}
    (h : e ∈ candidates ps idx f) : Within f.relId e.source := by
  obtain ⟨n, hn, hkey⟩ := source_mem_nodesOf h
  have hwithin := (mem_nodesOf hn).1
  rwa [hkey] at hwithin

section Kinds

variable {ps : IacParsers} {idx : ResolutionIndexes} {f : SourceFile}

theorem dockerfileCandidates_subset : dockerfileCandidates ps idx f ⊆ candidates ps idx f := by
  intro e h
  rw [dockerfileCandidates] at h
  rw [candidates]
  cases hparse : parse ps f with
  | dockerfile info => rwa [hparse] at h
  | manifest docs => simp [hparse, Parsed.info] at h
  | kustomization kust => simp [hparse, Parsed.info] at h
  | nothing => simp [hparse, Parsed.info] at h

theorem manifestCandidates_subset : manifestCandidates ps idx f ⊆ candidates ps idx f := by
  intro e h
  rw [manifestCandidates] at h
  rw [candidates]
  cases hparse : parse ps f with
  | dockerfile info => simp [hparse, Parsed.docs] at h
  | manifest docs => rwa [hparse] at h
  | kustomization kust => simp [hparse, Parsed.docs] at h
  | nothing => simp [hparse, Parsed.docs] at h

theorem kustomizeCandidates_subset : kustomizeCandidates ps idx f ⊆ candidates ps idx f := by
  intro e h
  rw [kustomizeCandidates] at h
  rw [candidates]
  cases hparse : parse ps f with
  | dockerfile info => simp [hparse, Parsed.kust] at h
  | manifest docs => simp [hparse, Parsed.kust] at h
  | kustomization kust => rwa [hparse] at h
  | nothing => simp [hparse, Parsed.kust] at h

end Kinds

/-! ### Several files -/

section Sources

variable (ps : IacParsers) (idx : ResolutionIndexes) {l : List SourceFile}

/-- The rows of one kind, file by file. -/
theorem flatMap_filterMap {α β : Type} (read : SourceFile → Option α) (out : Str × α → List β)
    (l : List SourceFile) :
    (l.filterMap fun f => (read f).map (f.relId, ·)).flatMap out =
      l.flatMap fun f => ((read f).map fun x => out (f.relId, x)).getD [] := by
  induction l with
  | nil => rfl
  | cons f l ih =>
      rw [List.filterMap_cons, List.flatMap_cons]
      cases read f with
      | none => exact ih
      | some x =>
          rw [Option.map_some, List.flatMap_cons, ih]
          rfl

theorem nodes_parseSources_perm (l : List SourceFile) :
    (parseSources ps l).nodes.Perm (l.flatMap (nodesOf ps)) := by
  rw [ParsedIac.nodes, parseSources]
  simp only [flatMap_filterMap]
  refine (((List.flatMap_append_perm _ _ _).append_right _).trans
    (List.flatMap_append_perm _ _ _)).trans (.of_eq ?_)
  refine List.flatMap_congr fun f _ => ?_
  rw [nodesOf]
  cases parse ps f with
  | dockerfile info => rfl
  | manifest docs => exact List.append_nil _
  | kustomization kust => rfl
  | nothing => rfl

variable {ps idx} (hplain : ∀ f ∈ l, PlainPath f)
  (hnodup : (l.map SourceFile.relativePath).Nodup)

include hplain hnodup

/-- An id is in the scope of one file. -/
theorem eq_of_within {f g : SourceFile} (hf : f ∈ l) (hg : g ∈ l) {id : Str}
    (hfid : Within f.relId id) (hgid : Within g.relId id) : f = g := by
  refine List.inj_on_of_nodup_map hnodup hf hg ?_
  rw [← (hplain f hf).owner hfid, (hplain g hg).owner hgid]

/-- The nodes of a list of files have ids of their own. -/
theorem nodup_keys_parseSources : ((parseSources ps l).nodes.map IacNode.key).Nodup := by
  have hperm := (nodes_parseSources_perm ps l).map IacNode.key
  rw [hperm.nodup_iff, List.map_flatMap, List.nodup_flatMap]
  refine ⟨fun f _ => nodup_keys_nodesOf ps f, ?_⟩
  refine hnodup.of_map.imp_of_mem fun {f g} hf hg hne => ?_
  intro k hkf hkg
  obtain ⟨n, hn, rfl⟩ := List.mem_map.mp hkf
  obtain ⟨m, hm, heq⟩ := List.mem_map.mp hkg
  have hwithin := (mem_nodesOf hm).1
  rw [heq] at hwithin
  exact hne (eq_of_within hplain hnodup hf hg (mem_nodesOf hn).1 hwithin)

/-- Nodes that the store does not have are all written. -/
theorem insertNodes_parseSources {g : IacGraph}
    (hnew : ∀ f ∈ l, ∀ n ∈ nodesOf ps f, ¬g.Has n.key) :
    g.insertNodes (parseSources ps l).nodes = .ok (g + (l.map (nodePart ps)).sum) := by
  have hperm := nodes_parseSources_perm ps l
  have hsum : (⟨((parseSources ps l).nodes : List IacNode), 0⟩ : IacGraph) =
      (l.map (nodePart ps)).sum := by
    have hparts := Graph.flatMap_eq_sum (nodesOf ps) (fun _ => ([] : List RefEdge)) l
    refine .trans (Store.Graph.ext ?_ ?_) hparts
    · exact Multiset.coe_eq_coe.mpr hperm
    · rw [List.flatMap_eq_nil_iff.mpr fun _ _ => rfl]
      rfl
  rw [← hsum]
  refine Graph.insertNodes_ok (nodup_keys_parseSources hplain hnodup) fun n hn => ?_
  obtain ⟨f, hf, hnf⟩ := List.mem_flatMap.mp (hperm.mem_iff.mp hn)
  exact hnew f hf n hnf

/-- An edge is only seen twice in one file. -/
theorem eq_of_seenKey {f g : SourceFile} (hf : f ∈ l) (hg : g ∈ l) {x y : RefEdge}
    (hx : x ∈ candidates ps idx f) (hy : y ∈ candidates ps idx g) (hkey : x.seenKey = y.seenKey) :
    f = g := by
  have hwithin := source_within hy
  rw [← (Prod.mk.inj hkey).1] at hwithin
  exact eq_of_within hplain hnodup hf hg (source_within hx) hwithin

theorem keepFirst_kind {kind : SourceFile → List RefEdge}
    (hkind : ∀ f, kind f ⊆ candidates ps idx f) :
    keepFirst RefEdge.seenKey (l.flatMap kind) =
      l.flatMap fun f => keepFirst RefEdge.seenKey (kind f) := by
  refine keepFirst_flatMap (hnodup.of_map.imp_of_mem fun {f g} hf hg hne x hx y hy hkey => ?_)
  exact hne (eq_of_seenKey hplain hnodup hf hg (hkind f hx) (hkind g hy) hkey)

/-- A file is of one kind, so no edge of a kind is seen among those of another. -/
theorem seenKey_ne_of_kinds {kind kind' : SourceFile → List RefEdge}
    (hkind : ∀ f, kind f ⊆ candidates ps idx f) (hkind' : ∀ f, kind' f ⊆ candidates ps idx f)
    (hone : ∀ f, kind f = [] ∨ kind' f = []) :
    ∀ x ∈ l.flatMap kind, ∀ y ∈ l.flatMap kind', x.seenKey ≠ y.seenKey := by
  intro x hx y hy hkey
  obtain ⟨f, hf, hx⟩ := List.mem_flatMap.mp hx
  obtain ⟨g, hg, hy⟩ := List.mem_flatMap.mp hy
  obtain rfl := eq_of_seenKey hplain hnodup hf hg (hkind f hx) (hkind' g hy) hkey
  obtain hnil | hnil := hone f
  · rw [hnil] at hx
    cases hx
  · rw [hnil] at hy
    cases hy

theorem emitReferenceEdges_perm :
    (emitReferenceEdges idx (parseSources ps l)).Perm (l.flatMap (drawn ps idx)) := by
  have hedges : (parseSources ps l).edges idx = l.flatMap (dockerfileCandidates ps idx) ++
      l.flatMap (manifestCandidates ps idx) ++ l.flatMap (kustomizeCandidates ps idx) := by
    rw [ParsedIac.edges, parseSources]
    simp only [flatMap_filterMap]
    rfl
  have hcopies := fun f => @dockerfileCandidates_subset ps idx f
  have hdocs := fun f => @manifestCandidates_subset ps idx f
  have hkusts := fun f => @kustomizeCandidates_subset ps idx f
  have hfirst : ∀ x ∈ l.flatMap (dockerfileCandidates ps idx),
      ∀ y ∈ l.flatMap (manifestCandidates ps idx), x.seenKey ≠ y.seenKey := by
    refine seenKey_ne_of_kinds hplain hnodup hcopies hdocs fun f => ?_
    rw [dockerfileCandidates, manifestCandidates]
    cases parse ps f <;> simp [Parsed.info, Parsed.docs]
  have hcopyKust : ∀ x ∈ l.flatMap (dockerfileCandidates ps idx),
      ∀ y ∈ l.flatMap (kustomizeCandidates ps idx), x.seenKey ≠ y.seenKey := by
    refine seenKey_ne_of_kinds hplain hnodup hcopies hkusts fun f => ?_
    rw [dockerfileCandidates, kustomizeCandidates]
    cases parse ps f <;> simp [Parsed.info, Parsed.kust]
  have hdocKust : ∀ x ∈ l.flatMap (manifestCandidates ps idx),
      ∀ y ∈ l.flatMap (kustomizeCandidates ps idx), x.seenKey ≠ y.seenKey := by
    refine seenKey_ne_of_kinds hplain hnodup hdocs hkusts fun f => ?_
    rw [manifestCandidates, kustomizeCandidates]
    cases parse ps f <;> simp [Parsed.docs, Parsed.kust]
  have hlast : ∀ x ∈ l.flatMap (dockerfileCandidates ps idx) ++
      l.flatMap (manifestCandidates ps idx),
        ∀ y ∈ l.flatMap (kustomizeCandidates ps idx), x.seenKey ≠ y.seenKey :=
    fun x hx => (List.mem_append.mp hx).elim (hcopyKust x) (hdocKust x)
  rw [emitReferenceEdges, hedges, keepFirst_append hlast, keepFirst_append hfirst,
    keepFirst_kind hplain hnodup hcopies, keepFirst_kind hplain hnodup hdocs,
    keepFirst_kind hplain hnodup hkusts]
  refine (((List.flatMap_append_perm _ _ _).append_right _).trans
    (List.flatMap_append_perm _ _ _)).trans (.of_eq ?_)
  refine List.flatMap_congr fun f _ => ?_
  rw [drawn, candidates, dockerfileCandidates, manifestCandidates, kustomizeCandidates]
  cases parse ps f with
  | dockerfile info => exact (List.append_nil _).trans (List.append_nil _)
  | manifest docs => exact List.append_nil _
  | kustomization kust => rfl
  | nothing => rfl

/-- The references of a list of files are those of each. -/
theorem emitReferenceEdges_eq :
    (⟨0, (emitReferenceEdges idx (parseSources ps l) : List RefEdge)⟩ : IacGraph) =
      (l.map (edgePart ps idx)).sum := by
  have hparts := Graph.flatMap_eq_sum (fun _ => ([] : List IacNode)) (drawn ps idx) l
  refine .trans (Store.Graph.ext ?_ ?_) hparts
  · rw [List.flatMap_eq_nil_iff.mpr fun _ _ => rfl]
    rfl
  · exact Multiset.coe_eq_coe.mpr (emitReferenceEdges_perm hplain hnodup)

end Sources

end AutomatisedPipeline.Iac

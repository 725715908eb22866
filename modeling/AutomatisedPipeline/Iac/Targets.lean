import AutomatisedPipeline.Iac.Parts

/-!
What a reference is resolved to, whatever the order of the rows.

An index gives a key the path of the last row that has it. Where the rows of a tree give each
key one path at most, that is the path in every order (`lastPath_eq_some_iff`), and a file whose
references have the same targets in two trees draws the same edges (`candidates_congr`).

Both ends of every reference are nodes of the tree, and no two nodes share an id, so a full pass
leaves the part of every file (`runIacPass_eq`). Where each name has one target at most, that is one
graph, in whatever order the rows come (`fullGraph_eq`).
-/

namespace AutomatisedPipeline.Iac

open Text Store Indexer FirstMatch

/-! ### Keys of a row -/

def IacNode.path : IacNode → Str
  | .file id => id
  | .iacResource _ _ _ _ path => path
  | .iacModule _ path => path

/-- The directory whose name an image is built under. -/
def IacNode.dockerfileDir : IacNode → Option Str
  | .iacResource _ kind _ _ path =>
      if kind = "Dockerfile".toList then (parentDir path).map basename else none
  | _ => none

/-- The identity that a name in a document refers to. -/
def IacNode.ident : IacNode → Option (Str × Str × Str)
  | .iacResource _ kind name ns _ =>
      if kind = "Dockerfile".toList ∨ name = [] then none else some (kind, name, normNs ns)
  | _ => none

def IacNode.moduleFile : IacNode → Option Str
  | .iacModule _ path => some path
  | _ => none

/-- The path of the last row that has the key. -/
def lastPath {κ : Type} [DecidableEq κ] (key : IacNode → Option κ) (rows : List IacNode) (k : κ) :
    Option Str := (rows.reverse.find? fun n => key n = some k).map IacNode.path

section Build

variable {κ : Type} [DecidableEq κ] {key : IacNode → Option κ} (rows : List IacNode)

theorem lastPath_append_singleton (n : IacNode) (k : κ) :
    lastPath key (rows ++ [n]) k = if key n = some k then some n.path else lastPath key rows k := by
  rw [lastPath, List.reverse_concat, List.find?_cons]
  by_cases h : key n = some k
  · simp [h]
  · simp [h, lastPath]

theorem build_append_singleton (n : IacNode) (fileIds : Finset Str) :
    ResolutionIndexes.build (rows ++ [n]) fileIds = (ResolutionIndexes.build rows fileIds).addRow n :=
  List.foldl_concat _ _ _ _

theorem fileIds_build (fileIds : Finset Str) :
    (ResolutionIndexes.build rows fileIds).fileIds = fileIds := by
  induction rows using List.reverseRecOn with
  | nil => rfl
  | append_singleton rows n ih =>
      rw [build_append_singleton, ResolutionIndexes.addRow.eq_def]
      split
      · exact ih
      · split_ifs
        · split <;> exact ih
        · exact ih
        · exact ih
      · exact ih

theorem dockerfileByDir_build (fileIds : Finset Str) (dir : Str) :
    (ResolutionIndexes.build rows fileIds).dockerfileByDir dir =
      lastPath IacNode.dockerfileDir rows dir := by
  induction rows using List.reverseRecOn with
  | nil => rfl
  | append_singleton rows n ih =>
      rw [build_append_singleton, lastPath_append_singleton, ← ih]
      cases n with
      | file id => rfl
      | iacModule id path => rfl
      | iacResource id kind name ns path =>
          by_cases hkind : kind = "Dockerfile".toList
          · cases hparent : parentDir path with
            | none => simp only [ResolutionIndexes.addRow, IacNode.dockerfileDir, hkind, hparent,
                if_true, Option.map_none, reduceCtorEq, if_false]
            | some d =>
                simp only [ResolutionIndexes.addRow, IacNode.dockerfileDir, hkind, hparent, if_true,
                  Option.map_some, Option.some.injEq, IacNode.path, Function.update_apply, eq_comm]
          · simp only [ResolutionIndexes.addRow, IacNode.dockerfileDir, hkind, if_false,
              reduceCtorEq]
            split <;> rfl

theorem resourceByIdent_build (fileIds : Finset Str) (k : Str × Str × Str) :
    (ResolutionIndexes.build rows fileIds).resourceByIdent k = lastPath IacNode.ident rows k := by
  induction rows using List.reverseRecOn with
  | nil => rfl
  | append_singleton rows n ih =>
      rw [build_append_singleton, lastPath_append_singleton, ← ih]
      cases n with
      | file id => rfl
      | iacModule id path => rfl
      | iacResource id kind name ns path =>
          by_cases hkind : kind = "Dockerfile".toList
          · simp only [ResolutionIndexes.addRow, IacNode.ident, hkind, if_true, true_or,
              reduceCtorEq, if_false]
            split <;> rfl
          · by_cases hname : name = []
            · simp only [ResolutionIndexes.addRow, IacNode.ident, hkind, hname, if_true, or_true,
                reduceCtorEq, if_false]
            · simp only [ResolutionIndexes.addRow, IacNode.ident, hkind, hname, or_self, if_false,
                Option.some.injEq, IacNode.path, Function.update_apply, eq_comm]

theorem mem_moduleFiles_build (fileIds : Finset Str) (path : Str) :
    path ∈ (ResolutionIndexes.build rows fileIds).moduleFiles ↔
      ∃ n ∈ rows, n.moduleFile = some path := by
  induction rows using List.reverseRecOn with
  | nil => simp [ResolutionIndexes.build]
  | append_singleton rows n ih =>
      rw [build_append_singleton]
      simp only [List.mem_append, List.mem_singleton, or_and_right, exists_or, exists_eq_left, ← ih]
      cases n with
      | file id => simp [ResolutionIndexes.addRow, IacNode.moduleFile]
      | iacModule id path' =>
          simp [ResolutionIndexes.addRow, IacNode.moduleFile, or_comm, eq_comm]
      | iacResource id kind name ns path' =>
          have hsame : ((ResolutionIndexes.build rows fileIds).addRow
              (.iacResource id kind name ns path')).moduleFiles =
                (ResolutionIndexes.build rows fileIds).moduleFiles := by
            rw [ResolutionIndexes.addRow]
            split_ifs
            · split <;> rfl
            · rfl
            · rfl
          simp [hsame, IacNode.moduleFile]

end Build

/-! ### The indexes of a tree -/

/-- The nodes of a tree. -/
def nodeGraph (ps : IacParsers) (T : Tree) : IacGraph :=
  (T.files.map filePart).sum + (T.files.map (nodePart ps)).sum

/-- Indexes that a pass over the tree may build: the rows come in any order. -/
def IsIndex (ps : IacParsers) (T : Tree) (idx : ResolutionIndexes) : Prop :=
  ∃ rows, RowOrder (nodeGraph ps T) rows ∧
    idx = .build rows (T.files.map SourceFile.relId).toFinset

/-- The paths of the rows of the tree that have the key. -/
def answers {κ : Type} [DecidableEq κ] (key : IacNode → Option κ) (ps : IacParsers) (T : Tree)
    (k : κ) : List Str :=
  ((T.files.flatMap (nodesOf ps)).filter fun n => key n = some k).map IacNode.path

section Indexes

variable {ps : IacParsers} {T : Tree} {idx : ResolutionIndexes}

theorem mem_nodeGraph {n : IacNode} : n ∈ (nodeGraph ps T).nodes ↔
    (∃ f ∈ T.files, n = .file f.relativePath) ∨ ∃ f ∈ T.files, n ∈ nodesOf ps f := by
  rw [nodeGraph, Graph.nodes_add, Multiset.mem_add, Graph.mem_nodes_sum, Graph.mem_nodes_sum]
  simp only [filePart, nodePart, Multiset.mem_coe, List.mem_singleton]

/-- What the rows of a tree have of a key. -/
theorem mem_answers_iff_mem_rows {κ : Type} [DecidableEq κ] {key : IacNode → Option κ}
    (hfile : ∀ id, key (.file id) = none) {rows : List IacNode}
    (hrows : RowOrder (nodeGraph ps T) rows) {k : κ} {path : Str} :
    path ∈ answers key ps T k ↔ ∃ n ∈ rows, key n = some k ∧ n.path = path := by
  have hmem : ∀ n, n ∈ rows ↔ n ∈ (nodeGraph ps T).nodes := fun n => by
    rw [← hrows, Multiset.mem_coe]
  constructor
  · intro hpath
    obtain ⟨n, hn, hpath⟩ := List.mem_map.mp hpath
    obtain ⟨hn, hkey⟩ := List.mem_filter.mp hn
    obtain ⟨f, hf, hn⟩ := List.mem_flatMap.mp hn
    exact ⟨n, (hmem n).mpr (mem_nodeGraph.mpr (.inr ⟨f, hf, hn⟩)), of_decide_eq_true hkey, hpath⟩
  · rintro ⟨n, hn, hkey, rfl⟩
    obtain ⟨f, -, rfl⟩ | ⟨f, hf, hnf⟩ := mem_nodeGraph.mp ((hmem n).mp hn)
    · rw [hfile] at hkey
      cases hkey
    · refine List.mem_map_of_mem (List.mem_filter.mpr ⟨?_, decide_eq_true hkey⟩)
      exact List.mem_flatMap.mpr ⟨f, hf, hnf⟩

/-- A key that the rows give one path at most is looked up as that path, in every order. -/
theorem lastPath_eq_some_iff {κ : Type} [DecidableEq κ] {key : IacNode → Option κ}
    (hfile : ∀ id, key (.file id) = none) {rows : List IacNode}
    (hrows : RowOrder (nodeGraph ps T) rows) {k : κ}
    (hone : ∀ p ∈ answers key ps T k, ∀ p' ∈ answers key ps T k, p = p') (path : Str) :
    lastPath key rows k = some path ↔ path ∈ answers key ps T k := by
  have hanswers : ∀ p, p ∈ answers key ps T k ↔ ∃ n ∈ rows, key n = some k ∧ n.path = p :=
    fun p => mem_answers_iff_mem_rows hfile hrows
  rw [lastPath, find_map_eq_some_iff, hanswers]
  · simp
  · intro x hx y hy hkx hky
    refine hone _ ((hanswers _).mpr ⟨x, ?_, ?_, rfl⟩) _ ((hanswers _).mpr ⟨y, ?_, ?_, rfl⟩)
    · simpa using hx
    · simpa using hkx
    · simpa using hy
    · simpa using hky

theorem IsIndex.fileIds (h : IsIndex ps T idx) :
    idx.fileIds = (T.files.map SourceFile.relId).toFinset := by
  obtain ⟨rows, -, rfl⟩ := h
  exact fileIds_build rows _

theorem IsIndex.mem_moduleFiles (h : IsIndex ps T idx) {path : Str} :
    path ∈ idx.moduleFiles ↔ answers IacNode.moduleFile ps T path ≠ [] := by
  obtain ⟨rows, hrows, rfl⟩ := h
  have hanswers : ∀ p, p ∈ answers IacNode.moduleFile ps T path ↔
      ∃ n ∈ rows, n.moduleFile = some path ∧ n.path = p :=
    fun p => mem_answers_iff_mem_rows (fun _ => rfl) hrows
  rw [mem_moduleFiles_build]
  constructor
  · rintro ⟨n, hn, hkey⟩
    exact List.ne_nil_of_mem ((hanswers n.path).mpr ⟨n, hn, hkey, rfl⟩)
  · intro hne
    obtain ⟨p, hp⟩ := List.exists_mem_of_ne_nil _ hne
    obtain ⟨n, hn, hkey, -⟩ := (hanswers p).mp hp
    exact ⟨n, hn, hkey⟩

theorem IsIndex.dockerfileByDir (h : IsIndex ps T idx) {dir : Str}
    (hone : ∀ p ∈ answers IacNode.dockerfileDir ps T dir,
      ∀ p' ∈ answers IacNode.dockerfileDir ps T dir, p = p') (path : Str) :
    idx.dockerfileByDir dir = some path ↔ path ∈ answers IacNode.dockerfileDir ps T dir := by
  obtain ⟨rows, hrows, rfl⟩ := h
  rw [dockerfileByDir_build, lastPath_eq_some_iff (fun _ => rfl) hrows hone]

theorem IsIndex.resourceByIdent (h : IsIndex ps T idx) {k : Str × Str × Str}
    (hone : ∀ p ∈ answers IacNode.ident ps T k, ∀ p' ∈ answers IacNode.ident ps T k, p = p')
    (path : Str) : idx.resourceByIdent k = some path ↔ path ∈ answers IacNode.ident ps T k := by
  obtain ⟨rows, hrows, rfl⟩ := h
  rw [resourceByIdent_build, lastPath_eq_some_iff (fun _ => rfl) hrows hone]

/-- A lookup that is found is a path of a row. -/
theorem IsIndex.answers_of_dockerfileByDir (h : IsIndex ps T idx) {dir path : Str}
    (hlookup : idx.dockerfileByDir dir = some path) :
    path ∈ answers IacNode.dockerfileDir ps T dir := by
  obtain ⟨rows, hrows, rfl⟩ := h
  rw [dockerfileByDir_build] at hlookup
  obtain ⟨n, hfind, hpath⟩ := Option.map_eq_some_iff.mp hlookup
  refine (mem_answers_iff_mem_rows (fun _ => rfl) hrows).mpr ⟨n, ?_, ?_, hpath⟩
  · simpa using List.mem_of_find?_eq_some hfind
  · simpa using List.find?_some hfind

theorem IsIndex.answers_of_resourceByIdent (h : IsIndex ps T idx) {k : Str × Str × Str} {path : Str}
    (hlookup : idx.resourceByIdent k = some path) : path ∈ answers IacNode.ident ps T k := by
  obtain ⟨rows, hrows, rfl⟩ := h
  rw [resourceByIdent_build] at hlookup
  obtain ⟨n, hfind, hpath⟩ := Option.map_eq_some_iff.mp hlookup
  refine (mem_answers_iff_mem_rows (fun _ => rfl) hrows).mpr ⟨n, ?_, ?_, hpath⟩
  · simpa using List.mem_of_find?_eq_some hfind
  · simpa using List.find?_some hfind

end Indexes

/-! ### The references of a file -/

def Parsed.images : Parsed → List Str
  | .manifest docs => docs.flatMap K8sDoc.images
  | _ => []

def Parsed.idents : Parsed → List (Str × Str × Str)
  | .manifest docs => docs.flatMap fun doc => doc.configRefs.map fun cref => cref.ident doc
  | _ => []

def Parsed.copies : Parsed → List Str
  | .dockerfile info => info.copySources
  | _ => []

def Parsed.bases : Parsed → List Str
  | .kustomization kust => kust.refs
  | _ => []

/-- Each name that the file refers to is the name of one file of the tree at most. -/
structure OneTarget (ps : IacParsers) (T : Tree) (f : SourceFile) : Prop where
  images : ∀ image ∈ (parse ps f).images, ∀ p ∈ answers IacNode.dockerfileDir ps T (imageName image),
    ∀ p' ∈ answers IacNode.dockerfileDir ps T (imageName image), p = p'
  idents : ∀ k ∈ (parse ps f).idents, ∀ p ∈ answers IacNode.ident ps T k,
    ∀ p' ∈ answers IacNode.ident ps T k, p = p'

/-- The references of the file have the same targets in both trees. -/
structure SameTargets (ps : IacParsers) (T T' : Tree) (f : SourceFile) : Prop where
  images : ∀ image ∈ (parse ps f).images, ∀ p,
    p ∈ answers IacNode.dockerfileDir ps T (imageName image) ↔
      p ∈ answers IacNode.dockerfileDir ps T' (imageName image)
  idents : ∀ k ∈ (parse ps f).idents, ∀ p,
    p ∈ answers IacNode.ident ps T k ↔ p ∈ answers IacNode.ident ps T' k
  paths : ∀ spec ∈ (parse ps f).copies ++ (parse ps f).bases,
    resolvePath f.relId spec (T.files.map SourceFile.relId).toFinset =
      resolvePath f.relId spec (T'.files.map SourceFile.relId).toFinset
  modules : ∀ spec ∈ (parse ps f).bases, ∀ target,
    resolvePath f.relId spec (T'.files.map SourceFile.relId).toFinset = some target →
      (answers IacNode.moduleFile ps T target ≠ [] ↔ answers IacNode.moduleFile ps T' target ≠ [])

instance (ps : IacParsers) (T : Tree) (f : SourceFile) : Decidable (OneTarget ps T f) :=
  decidable_of_iff
    ((∀ image ∈ (parse ps f).images,
      ∀ p ∈ answers IacNode.dockerfileDir ps T (imageName image),
        ∀ p' ∈ answers IacNode.dockerfileDir ps T (imageName image), p = p') ∧
      ∀ k ∈ (parse ps f).idents, ∀ p ∈ answers IacNode.ident ps T k,
        ∀ p' ∈ answers IacNode.ident ps T k, p = p')
    ⟨fun h => ⟨h.1, h.2⟩, fun h => ⟨h.images, h.idents⟩⟩

instance (ps : IacParsers) (T T' : Tree) (f : SourceFile) : Decidable (SameTargets ps T T' f) :=
  decidable_of_iff
    ((∀ image ∈ (parse ps f).images,
      answers IacNode.dockerfileDir ps T (imageName image) ⊆
          answers IacNode.dockerfileDir ps T' (imageName image) ∧
        answers IacNode.dockerfileDir ps T' (imageName image) ⊆
          answers IacNode.dockerfileDir ps T (imageName image)) ∧
      (∀ k ∈ (parse ps f).idents, answers IacNode.ident ps T k ⊆ answers IacNode.ident ps T' k ∧
        answers IacNode.ident ps T' k ⊆ answers IacNode.ident ps T k) ∧
      (∀ spec ∈ (parse ps f).copies ++ (parse ps f).bases,
        resolvePath f.relId spec (T.files.map SourceFile.relId).toFinset =
          resolvePath f.relId spec (T'.files.map SourceFile.relId).toFinset) ∧
      ∀ spec ∈ (parse ps f).bases,
        ∀ target ∈ resolvePath f.relId spec (T'.files.map SourceFile.relId).toFinset,
          (answers IacNode.moduleFile ps T target ≠ [] ↔
            answers IacNode.moduleFile ps T' target ≠ []))
    ⟨fun ⟨images, idents, paths, modules⟩ =>
      ⟨fun image h _ => ⟨fun hp => (images image h).1 hp, fun hp => (images image h).2 hp⟩,
        fun k h _ => ⟨fun hp => (idents k h).1 hp, fun hp => (idents k h).2 hp⟩, paths, modules⟩,
      fun h => ⟨fun image hi => ⟨fun p => (h.images image hi p).1, fun p => (h.images image hi p).2⟩,
        fun k hk => ⟨fun p => (h.idents k hk p).1, fun p => (h.idents k hk p).2⟩, h.paths,
        h.modules⟩⟩

theorem SameTargets.refl (ps : IacParsers) (T : Tree) (f : SourceFile) : SameTargets ps T T f :=
  ⟨fun _ _ _ => .rfl, fun _ _ _ => .rfl, fun _ _ => rfl, fun _ _ _ _ => .rfl⟩

/-- The same targets, the same edges. -/
theorem candidates_congr {ps : IacParsers} {T T' : Tree} {f : SourceFile}
    {idx idx' : ResolutionIndexes} (h : IsIndex ps T idx) (h' : IsIndex ps T' idx')
    (hone : OneTarget ps T f) (hone' : OneTarget ps T' f) (hsame : SameTargets ps T T' f) :
    candidates ps idx f = candidates ps idx' f := by
  have himages : ∀ image ∈ (parse ps f).images,
      idx.dockerfileByDir (imageName image) = idx'.dockerfileByDir (imageName image) := by
    intro image himage
    refine Option.ext fun path => ?_
    rw [h.dockerfileByDir (hone.images image himage), h'.dockerfileByDir (hone'.images image himage),
      hsame.images image himage]
  have hidents : ∀ k ∈ (parse ps f).idents, idx.resourceByIdent k = idx'.resourceByIdent k := by
    intro k hk
    refine Option.ext fun path => ?_
    rw [h.resourceByIdent (hone.idents k hk), h'.resourceByIdent (hone'.idents k hk),
      hsame.idents k hk]
  have hpaths : ∀ spec ∈ (parse ps f).copies ++ (parse ps f).bases,
      resolvePath f.relId spec idx.fileIds = resolvePath f.relId spec idx'.fileIds := by
    intro spec hspec
    rw [h.fileIds, h'.fileIds, hsame.paths spec hspec]
  have hmodules : ∀ spec ∈ (parse ps f).bases, ∀ target,
      resolvePath f.relId spec idx'.fileIds = some target →
        (target ∈ idx.moduleFiles ↔ target ∈ idx'.moduleFiles) := by
    intro spec hspec target htarget
    rw [h'.fileIds] at htarget
    rw [h.mem_moduleFiles, h'.mem_moduleFiles, hsame.modules spec hspec target htarget]
  rw [candidates, candidates]
  cases hparse : parse ps f with
  | nothing => rfl
  | dockerfile info =>
      rw [hparse] at hpaths
      refine List.filterMap_congr fun src hsrc => ?_
      rw [copyEdge, copyEdge, hpaths src (List.mem_append_left _ hsrc)]
  | manifest docs =>
      rw [hparse] at himages hidents
      refine List.flatMap_congr fun found hdoc => ?_
      obtain ⟨doc, docIdx⟩ := found
      have hmem : doc ∈ docs := (List.mem_zipIdx' hdoc).2 ▸ List.getElem_mem _
      refine congrArg₂ (· ++ ·) ?_ ?_
      · refine List.filterMap_congr fun image himage => ?_
        rw [imageEdge, imageEdge, himages image (List.mem_flatMap.mpr ⟨doc, hmem, himage⟩)]
      · refine List.filterMap_congr fun cref hcref => ?_
        rw [configEdge, configEdge, hidents _ (List.mem_flatMap.mpr ⟨doc, hmem,
          List.mem_map_of_mem hcref⟩)]
  | kustomization kust =>
      rw [hparse] at hpaths hmodules
      refine List.filterMap_congr fun spec hspec => ?_
      rw [kustomizeEdge, kustomizeEdge, hpaths spec (List.mem_append_right _ hspec)]
      cases htarget : resolvePath f.relId spec idx'.fileIds with
      | none => rfl
      | some target =>
          rw [Option.map_some, Option.map_some]
          simp only [hmodules spec hspec target htarget]

/-! ### A full pass -/

/-- The graph of a tree: the part of every file. -/
def fullGraph (ps : IacParsers) (idx : ResolutionIndexes) (T : Tree) : IacGraph :=
  nodeGraph ps T + (T.files.map (edgePart ps idx)).sum

section Pass

variable {ps : IacParsers} {T : Tree} {idx : ResolutionIndexes}

theorem resolvePath_mem {fromRel spec target : Str} {fileIds : Finset Str}
    (h : resolvePath fromRel spec fileIds = some target) : target ∈ fileIds := by
  simp only [resolvePath, Option.ite_none_left_eq_some] at h
  simpa using List.find?_some h.2

theorem path_of_answers {κ : Type} [DecidableEq κ] {key : IacNode → Option κ} {k : κ} {path : Str}
    (h : path ∈ answers key ps T k) : ∃ f ∈ T.files, path = f.relId := by
  obtain ⟨n, hn, rfl⟩ := List.mem_map.mp h
  obtain ⟨f, hf, hn⟩ := List.mem_flatMap.mp (List.mem_filter.mp hn).1
  obtain ⟨-, -, ⟨_, _, _, _, rfl⟩ | rfl⟩ := mem_nodesOf hn
  · exact ⟨f, hf, rfl⟩
  · exact ⟨f, hf, rfl⟩

/-- A reference goes to a file of the tree, or to the kustomization of one. -/
theorem target_of_candidate (hidx : IsIndex ps T idx) {f : SourceFile} {e : RefEdge}
    (he : e ∈ candidates ps idx f) : ∃ g ∈ T.files,
      (e.table.target = .file ∧ e.target = g.relId) ∨
        e.table.target = .iacModule ∧ e.target = moduleId g.relId ∧
          .iacModule (moduleId g.relId) g.relId ∈ nodesOf ps g := by
  have hpath : ∀ {spec target}, resolvePath f.relId spec idx.fileIds = some target →
      ∃ g ∈ T.files, target = g.relId := by
    intro spec target h
    have hmem := resolvePath_mem h
    rw [hidx.fileIds, List.mem_toFinset] at hmem
    obtain ⟨g, hg, rfl⟩ := List.mem_map.mp hmem
    exact ⟨g, hg, rfl⟩
  rw [candidates] at he
  split at he
  · obtain ⟨src, -, he⟩ := List.mem_filterMap.mp he
    obtain ⟨target, htarget, rfl⟩ := Option.map_eq_some_iff.mp he
    obtain ⟨g, hg, rfl⟩ := hpath htarget
    exact ⟨g, hg, .inl ⟨rfl, rfl⟩⟩
  · obtain ⟨⟨doc, docIdx⟩, -, he⟩ := List.mem_flatMap.mp he
    obtain he | he := List.mem_append.mp he
    · obtain ⟨image, -, he⟩ := List.mem_filterMap.mp he
      obtain ⟨target, htarget, rfl⟩ := Option.map_eq_some_iff.mp he
      obtain ⟨g, hg, rfl⟩ := path_of_answers (hidx.answers_of_dockerfileByDir htarget)
      exact ⟨g, hg, .inl ⟨rfl, rfl⟩⟩
    · obtain ⟨cref, -, he⟩ := List.mem_filterMap.mp he
      obtain ⟨target, htarget, rfl⟩ := Option.map_eq_some_iff.mp he
      obtain ⟨g, hg, rfl⟩ := path_of_answers (hidx.answers_of_resourceByIdent htarget)
      exact ⟨g, hg, .inl ⟨rfl, rfl⟩⟩
  · obtain ⟨spec, -, he⟩ := List.mem_filterMap.mp he
    obtain ⟨target, htarget, rfl⟩ := Option.map_eq_some_iff.mp he
    split_ifs with hbase
    · obtain ⟨p, hp⟩ := List.exists_mem_of_ne_nil _ (hidx.mem_moduleFiles.mp hbase.1)
      obtain ⟨n, hfound, -⟩ := List.mem_map.mp hp
      obtain ⟨hrow, hkey⟩ := List.mem_filter.mp hfound
      obtain ⟨g, hg, hn⟩ := List.mem_flatMap.mp hrow
      obtain ⟨-, -, ⟨_, _, _, _, rfl⟩ | rfl⟩ := mem_nodesOf hn
      · cases of_decide_eq_true hkey
      · obtain rfl := Option.some.inj (of_decide_eq_true hkey)
        exact ⟨g, hg, .inr ⟨rfl, rfl, hn⟩⟩
    · obtain ⟨g, hg, rfl⟩ := hpath htarget
      exact ⟨g, hg, .inl ⟨rfl, rfl⟩⟩
  · cases he

/-- Both ends of a reference are nodes of the tree. -/
theorem live_of_candidate (hplain : ∀ f ∈ T.files, PlainPath f) (hidx : IsIndex ps T idx)
    {f : SourceFile} (hf : f ∈ T.files) {e : RefEdge} (he : e ∈ candidates ps idx f)
    {g : IacGraph} (hg : g.nodes = (nodeGraph ps T).nodes) : g.Live e := by
  have hhas : ∀ n, n ∈ (nodeGraph ps T).nodes → g.Has n.key := by
    intro n hn
    exact ⟨n, hg ▸ hn, rfl⟩
  refine ⟨?_, ?_⟩
  · obtain ⟨n, hn, hkey⟩ := source_mem_nodesOf he
    have hsource := hhas n (mem_nodeGraph.mpr (.inr ⟨f, hf, hn⟩))
    rwa [hkey] at hsource
  · obtain ⟨h, hh, ⟨hlabel, htarget⟩ | ⟨hlabel, htarget, hn⟩⟩ := target_of_candidate hidx he
    · have hfile := hhas (.file h.relativePath) (mem_nodeGraph.mpr (.inl ⟨h, hh, rfl⟩))
      rw [← (hplain h hh).relId, ← htarget] at hfile
      change g.Has (e.table.target, e.target)
      rw [hlabel]
      exact hfile
    · have hmodule := hhas _ (mem_nodeGraph.mpr (.inr ⟨h, hh, hn⟩))
      change g.Has (e.table.target, e.target)
      rw [hlabel, htarget]
      exact hmodule

theorem mem_drawn {f : SourceFile} {e : RefEdge} (h : e ∈ drawn ps idx f) :
    e ∈ candidates ps idx f := KeepFirst.mem_of_mem_keepFirst h

/-- A pass over some files of a tree, on a store that has the nodes of the others. -/
theorem runIacPassFor_eq (hplain : ∀ f ∈ T.files, PlainPath f) {l : List SourceFile}
    (hsub : l.Sublist T.files) {g g' : IacGraph}
    (hnodes : (g + (l.map (nodePart ps)).sum).nodes = (nodeGraph ps T).nodes)
    (hnew : ∀ f ∈ l, ∀ n ∈ nodesOf ps f, ¬g.Has n.key)
    (hpass : RunIacPassFor ps l T.files g g') :
    ∃ idx, IsIndex ps T idx ∧
      g' = g + (l.map (nodePart ps)).sum + (l.map (edgePart ps idx)).sum := by
  have hplain' : ∀ f ∈ l, PlainPath f := fun f hf => hplain f (hsub.subset hf)
  have hnodup : (l.map SourceFile.relativePath).Nodup :=
    (hsub.map SourceFile.relativePath).nodup T.nodup
  have hok := insertNodes_parseSources hplain' hnodup hnew
  cases hpass with
  | failed herror =>
      rw [hok] at herror
      cases herror
  | @done g₁ rows hdone hrows =>
      obtain rfl : g + (l.map (nodePart ps)).sum = g₁ := by
        rw [hok] at hdone
        exact Except.ok.inj hdone
      have hidx : IsIndex ps T (.build rows (T.files.map SourceFile.relId).toFinset) :=
        ⟨rows, hrows.trans hnodes, rfl⟩
      refine ⟨_, hidx, ?_⟩
      rw [Graph.insertEdges_of_live, emitReferenceEdges_eq hplain' hnodup]
      intro e he
      obtain ⟨f, hf, he⟩ := List.mem_flatMap.mp
        ((emitReferenceEdges_perm hplain' hnodup).mem_iff.mp (Multiset.mem_coe.mp he))
      exact live_of_candidate hplain hidx (hsub.subset hf) (mem_drawn he) hnodes

theorem fileNodes_eq_sum (l : List SourceFile) :
    (⟨(fileNodes l : List IacNode), 0⟩ : IacGraph) = (l.map filePart).sum := by
  have hparts := Graph.flatMap_eq_sum (fun f : SourceFile => [IacNode.file f.relativePath])
    (fun _ => ([] : List RefEdge)) l
  rw [← List.map_eq_flatMap, List.flatMap_eq_nil_iff.mpr fun _ _ => rfl] at hparts
  exact hparts

/-- A full pass leaves the part of every file. -/
theorem runIacPass_eq (hplain : ∀ f ∈ T.files, PlainPath f) {g : IacGraph}
    (hpass : RunIacPass ps T g) : ∃ idx, IsIndex ps T idx ∧ g = fullGraph ps idx T := by
  rw [RunIacPass, fileNodes_eq_sum] at hpass
  refine runIacPassFor_eq hplain (.refl _) rfl ?_ hpass
  intro f hf n hn
  rw [Graph.has_sum]
  rintro ⟨h, -, m, hm, hkey⟩
  obtain rfl := Multiset.mem_singleton.mp hm
  exact (mem_nodesOf hn).2.1 (congrArg Prod.fst hkey).symm

/-- What a tree draws does not depend on the order of its rows. -/
theorem fullGraph_eq (htargets : ∀ f ∈ T.files, OneTarget ps T f) {idx' : ResolutionIndexes}
    (hidx : IsIndex ps T idx) (hidx' : IsIndex ps T idx') :
    fullGraph ps idx T = fullGraph ps idx' T := by
  have hparts : T.files.map (edgePart ps idx) = T.files.map (edgePart ps idx') := by
    refine List.map_congr_left fun f hf => ?_
    rw [edgePart, drawn, candidates_congr hidx hidx' (htargets f hf) (htargets f hf) (.refl ps T f)]
    rfl
  rw [fullGraph, hparts, fullGraph]

end Pass

end AutomatisedPipeline.Iac

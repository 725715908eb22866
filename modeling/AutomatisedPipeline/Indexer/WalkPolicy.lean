import AutomatisedPipeline.Indexer.WalkFound

/-!
What the walk depends on (`indexer/walk.rs`, `indexer/walk/policy.rs`).

Two walks of which one bars more collect the same files, apart from those that lie under what only
that one bars (`Stricter.files_eq`). This is what the tier of dependencies and the excluded
directories come to (`collectSourceFiles_none`, `collectSourceFiles_exclude`). The order of the
listings does not matter (`collectSourceFiles_shuffle`).
-/

namespace AutomatisedPipeline.SourceWalk

open Text
open Indexer (FileName SourceFile DependencyScope pathString dirRel trim)

/-! ### A walk that bars more -/

theorem pathLe_trans (f g k : SourceFile) (h : pathLe f g) (h' : pathLe g k) : pathLe f k := by
  rw [pathLe, decide_eq_true_iff] at *
  exact h.trans h'

theorem pathLe_total (f g : SourceFile) : pathLe f g || pathLe g f := by
  rw [Bool.or_eq_true, pathLe, pathLe, decide_eq_true_iff, decide_eq_true_iff]
  exact le_total _ _

theorem path_eq_of_pathLe {f g : SourceFile} (h : pathLe f g) (h' : pathLe g f) :
    f.path = g.path := by
  rw [pathLe, decide_eq_true_iff] at h h'
  exact List.map_injective_iff.mpr Subtype.val_injective (le_antisymm h h')

section Stricter

variable {opts opts' : WalkOptions} {allows : List FileName → Bool → Prop}

/-- The second walk bars in addition what is not allowed, and keeps the same files. -/
structure Stricter (opts opts' : WalkOptions) (allows : List FileName → Bool → Prop) : Prop where
  filter : opts'.languageFilter = opts.languageFilter
  bars : ∀ d name node, barrier opts' d name node = none ↔
    barrier opts d name node = none ∧ allows (d ++ [name]) node.isDir

namespace Stricter

theorem keeps_eq (h : Stricter opts opts' allows) (f : SourceFile) :
    keeps opts' f = keeps opts f := by
  rw [keeps, keeps, h.filter]

theorem reaches_iff (h : Stricter opts opts' allows) {root : Contents} {d : List FileName}
    {name : FileName} {node : Node} :
    Reaches opts' [] root d name node ↔
      Reaches opts [] root d name node ∧ ∀ p, p ≠ [] → p <+: d → allows p true := by
  have hand : Below (fun d name node => (barrier opts d name node = none ∧ node.isOpened) ∧
        allows (d ++ [name]) true) [] root d name node ↔
      Below (fun d name node => barrier opts d name node = none ∧ node.isOpened) [] root d name
        node ∧ ∀ p, [] <+: p → p ≠ [] → p <+: d → allows p true :=
    Below.and_iff fun p => allows p true
  simp only [List.nil_prefix, forall_true_left] at hand
  rw [Reaches, Reaches, and_assoc, ← hand]
  refine and_congr_right fun _ => ⟨fun hbelow => hbelow.mono ?_, fun hbelow => hbelow.mono ?_⟩
  · rintro d name hasGit contents ⟨hopen, hopened⟩
    have hboth := (h.bars _ _ _).mp hopen
    exact ⟨⟨hboth.1, hopened⟩, hboth.2⟩
  · rintro d name hasGit contents ⟨⟨hopen, hopened⟩, hallows⟩
    exact ⟨(h.bars _ _ _).mpr ⟨hopen, hallows⟩, hopened⟩

mutual

theorem readable_contents (h : Stricter opts opts' allows) {dir : List FileName} {depth : Nat} :
    ∀ contents : Contents, contents.Readable opts dir depth → contents.Readable opts' dir depth
  | .denied _ _, hread => hread
  | .failed _ _, hread => hread
  | .opened entries, hread => ⟨hread.1, h.readable_entries entries hread.2⟩

theorem readable_entries (h : Stricter opts opts' allows) {dir : List FileName} {depth : Nat} :
    ∀ entries : Entries, entries.Readable opts dir depth → entries.Readable opts' dir depth
  | .nil, hread => hread
  | .failed _ _, hread => hread
  | .entry _ node rest, hread =>
      ⟨h.readable_node node hread.1, h.readable_entries rest hread.2⟩

theorem readable_node (h : Stricter opts opts' allows) {dir : List FileName} {depth : Nat}
    {name : FileName} :
    ∀ node : Node, node.Readable opts dir depth name → node.Readable opts' dir depth name
  | .dir _ contents, hread => fun hopen =>
      h.readable_contents contents (hread ((h.bars _ _ _).mp hopen).1)
  | .file _ _, _ => trivial
  | .symlink, _ => trivial
  | .other, _ => trivial
  | .vanished, _ => trivial

end

/-- A file of the stricter walk is one of the other's with nothing on its path disallowed. -/
theorem file_mem_found (h : Stricter opts opts' allows) {root : Contents} {f : SourceFile} :
    .file f ∈ root.found opts' [] ↔ .file f ∈ root.found opts [] ∧
      (∀ p ∈ f.ancestors, allows p true) ∧ allows f.path false := by
  simp only [file_mem_found_reaches, h.reaches_iff, h.bars, h.keeps_eq, Indexer.mem_ancestors,
    and_imp]
  tauto

variable [∀ p isDir, Decidable (allows p isDir)]

/-- The files of the stricter walk, where the other one succeeds. -/
theorem files_eq (h : Stricter opts opts' allows) {disk : Disk} {out : Collectors}
    (hok : collectSourceFiles opts disk.root = .ok out) :
    ∃ out', collectSourceFiles opts' disk.root = .ok out' ∧
      out'.files = out.files.filter fun f =>
        (∀ p ∈ f.ancestors, allows p true) ∧ allows f.path false := by
  obtain ⟨hread, hfew, rfl⟩ := collectSourceFiles_ok_iff.mp hok
  let files (opts : WalkOptions) := (disk.root.found opts []).filterMap Item.file?
  let clear (f : SourceFile) : Bool :=
    (∀ p ∈ f.ancestors, allows p true) ∧ allows f.path false
  have hnodup (opts : WalkOptions) : ((files opts).map SourceFile.path).Nodup :=
    Contents.pathsOf_found disk.root disk.distinct
  have hperm : (files opts').Perm ((files opts).filter clear) := by
    refine (List.perm_ext_iff_of_nodup (List.Nodup.of_map _ (hnodup opts'))
      ((List.Nodup.of_map _ (hnodup opts)).filter _)).mpr fun f => ?_
    rw [List.mem_filter, mem_filterMap_file, mem_filterMap_file, h.file_mem_found,
      decide_eq_true_iff]
  refine ⟨_, collectSourceFiles_ok_iff.mpr ⟨h.readable_contents _ hread, ?_, rfl⟩, ?_⟩
  · exact (hperm.length_eq.trans_le (List.length_filter_le _ _)).trans hfew
  · refine MapOrder.mergeSort_eq_of_pairwise pathLe_trans pathLe_total
      (hperm.trans ((List.mergeSort_perm _ _).filter _).symm)
      ((List.pairwise_mergeSort pathLe_trans pathLe_total _).filter _) ?_
    exact fun f hf g hg hle hle' =>
      List.inj_on_of_nodup_map (hnodup opts') hf hg (path_eq_of_pathLe hle hle')

end Stricter

end Stricter

/-! ### Tiers of dependencies -/

theorem shouldSkip_none (name : Str) : shouldSkip name .none = Indexer.shouldSkip name := by
  have hnames : name ∈ [".git", ".ai-architect-mcp-codebase", ".automatised-pipeline"].map
      String.toList ↔ name = ".git".toList ∨ name = artifactDir ∨ name = legacyArtifactDir := by
    unfold artifactDir legacyArtifactDir
    rw [List.map_cons, List.map_cons, List.map_cons, List.map_nil, List.mem_cons, List.mem_cons,
      List.mem_singleton]
  rw [shouldSkip, Indexer.shouldSkip, decide_eq_decide.mpr (or_congr_left hnames)]
  by_cases hgit : name = ".git".toList
  · rw [if_pos hgit]
    exact (decide_eq_true (.inl (.inl hgit))).symm
  · by_cases hartifact : name = artifactDir ∨ name = legacyArtifactDir
    · rw [if_neg hgit, if_pos hartifact]
      exact (decide_eq_true (.inl (.inr hartifact))).symm
    · rw [if_neg hgit, if_neg hartifact, descendsIntoDependencies, if_neg Bool.false_ne_true]
      exact decide_eq_decide.mpr (or_iff_right (not_or.mpr ⟨hgit, hartifact⟩)).symm

theorem shouldSkip_none_of_shouldSkip {name : Str} {scope : DependencyScope}
    (h : shouldSkip name scope = true) : shouldSkip name .none = true := by
  cases scope with
  | none => exact h
  | publicApi | full =>
      rw [shouldSkip] at h ⊢
      by_cases hgit : name = ".git".toList
      · rw [if_pos hgit]
      · by_cases hartifact : name = artifactDir ∨ name = legacyArtifactDir
        · rw [if_neg hgit, if_pos hartifact]
        · rw [if_neg hgit, if_neg hartifact] at h
          cases h

/-- A built-in name bars wherever it stands. -/
def allowsName (p : List FileName) (_ : Bool) : Prop :=
  ∀ c ∈ p.getLast?, Indexer.shouldSkip c.1 = false

instance (p : List FileName) (isDir : Bool) : Decidable (allowsName p isDir) :=
  inferInstanceAs (Decidable (∀ c ∈ p.getLast?, _))

theorem barrier_eq_none_iff {opts : WalkOptions} {d : List FileName} {name : FileName}
    {node : Node} : barrier opts d name node = none ↔ node.isNestedRepository = false ∧
      shouldSkip name.1 opts.dependencyScope = false ∧
        (node.isDir → opts.excludeDirs.matches name.1 (dirRel (d ++ [name])) = false) := by
  rw [barrier]
  split_ifs with hnested hskip hexcluded
  · simp [hnested]
  · simp [hskip]
  · simp only [Bool.and_eq_true] at hexcluded
    simp [hexcluded]
  · simp only [hnested, hskip, true_and, true_iff]
    intro hdir
    by_contra hmatches
    refine hexcluded ?_
    rw [Bool.not_eq_false] at hmatches
    have hnonempty : opts.excludeDirs.isEmpty = false := by
      rw [ExcludeSet.isEmpty]
      rw [ExcludeSet.matches] at hmatches
      by_contra hempty
      simp only [Bool.not_eq_false, Bool.and_eq_true, decide_eq_true_iff] at hempty
      simp [hempty.1, hempty.2] at hmatches
    simp [hdir, hnonempty, hmatches]

theorem stricter_none (opts : WalkOptions) (scope : DependencyScope) :
    Stricter { opts with dependencyScope := scope } { opts with dependencyScope := .none }
      allowsName where
  filter := rfl
  bars := fun d name node => by
    simp only [barrier_eq_none_iff, allowsName, List.getLast?_concat, Option.mem_def,
      Option.some.injEq, forall_eq', shouldSkip_none]
    have hskip : Indexer.shouldSkip name.1 = false → shouldSkip name.1 scope = false := by
      rw [← shouldSkip_none, ← Bool.not_eq_true, ← Bool.not_eq_true]
      exact mt shouldSkip_none_of_shouldSkip
    tauto

theorem ancestors_allowed_iff {f : SourceFile} :
    (∀ p ∈ f.ancestors, allowsName p true) ↔ Indexer.isDependencyPath f = false := by
  rw [Indexer.isDependencyPath, List.any_eq_false]
  constructor
  · intro h c hc
    obtain ⟨before, after, hdirs⟩ := List.append_of_mem hc
    have hmem : before ++ [c] ∈ f.ancestors :=
      Indexer.mem_ancestors.mpr ⟨by simp, ⟨after, by simp [hdirs]⟩⟩
    simpa using h _ hmem c (by simp)
  · intro h p hp c hc
    have hmem : c ∈ p := List.mem_of_getLast? hc
    simpa using h c ((Indexer.mem_ancestors.mp hp).2.subset hmem)

/-- The walk without dependencies collects the project's files of any other tier: those that lie
under no built-in name and have none themselves. -/
theorem collectSourceFiles_none {opts : WalkOptions} {scope : DependencyScope} {disk : Disk}
    {out : Collectors}
    (h : collectSourceFiles { opts with dependencyScope := scope } disk.root = .ok out) :
    ∃ out', collectSourceFiles { opts with dependencyScope := .none } disk.root = .ok out' ∧
      out'.files = out.files.filter fun f =>
        !Indexer.isDependencyPath f && !Indexer.shouldSkip f.name.1 := by
  obtain ⟨out', hout', hfiles⟩ := (stricter_none opts scope).files_eq h
  refine ⟨out', hout', hfiles.trans (List.filter_congr fun f _ => ?_)⟩
  have hself : allowsName f.path false ↔ Indexer.shouldSkip f.name.1 = false := by
    simp [allowsName, SourceFile.path]
  rw [Bool.eq_iff_iff, decide_eq_true_iff, ancestors_allowed_iff, hself, Bool.and_eq_true,
    Bool.not_eq_true', Bool.not_eq_true']

theorem collectSourceFiles_none_sample : ∃ out',
    collectSourceFiles { sampleOptions .full with dependencyScope := .none } sampleDisk.root =
      .ok out' ∧
    out'.files = (outcome (sampleDisk.root.found (sampleOptions .full) [])).files.filter fun f =>
      !Indexer.isDependencyPath f && !Indexer.shouldSkip f.name.1 :=
  @collectSourceFiles_none (sampleOptions .full) .full sampleDisk _ sampleDisk_ok

/-! ### Excluded directories -/

/-- An entry of `exclude_dirs` stands for a directory: by its name, or by its path as reported. -/
def Denotes (raw : Str) (p : List FileName) : Prop :=
  if '/' ∉ trim raw ∧ '\\' ∉ trim raw then p.getLast?.map Subtype.val = some (trim raw)
  else ExcludeSet.normalComponents ((trim raw).map fun c => if c = '\\' then '/' else c) =
    (dirRel p).splitOn '/'

instance (raw : Str) (p : List FileName) : Decidable (Denotes raw p) := by
  unfold Denotes
  infer_instance

theorem not_mem_of_mem_splitOn {sep : Char} {s part : Str} (h : part ∈ s.splitOn sep) :
    sep ∉ part := by
  induction s generalizing part with
  | nil =>
      rw [List.splitOn_nil, List.mem_singleton] at h
      rw [h]
      exact List.not_mem_nil
  | cons c s ih =>
      obtain ⟨head, tail, hsplit⟩ := List.exists_cons_of_ne_nil (List.splitOn_ne_nil sep s)
      rw [List.splitOn_cons_eq_if_modifyHead, hsplit] at h
      rw [hsplit] at ih
      split_ifs at h with hc
      · rcases List.mem_cons.mp h with rfl | h
        · exact List.not_mem_nil
        · exact ih h
      · rw [List.modifyHead_cons] at h
        rcases List.mem_cons.mp h with rfl | h
        · rw [List.mem_cons, not_or]
          exact ⟨fun heq => hc (by simp [heq]), ih List.mem_cons_self⟩
        · exact ih (List.mem_cons_of_mem _ h)

namespace ExcludeSet

theorem intercalate_normalComponents {path rel : Str} (hne : normalComponents path ≠ []) :
    rel = ['/'].intercalate (normalComponents path) ↔ normalComponents path = rel.splitOn '/' := by
  constructor
  · rintro rfl
    refine (List.splitOn_intercalate '/' (fun c hc => ?_) hne).symm
    exact not_mem_of_mem_splitOn (List.mem_of_mem_filter hc)
  · intro h
    rw [h, List.intercalate_splitOn]

/-- One entry adds what it denotes. -/
theorem matches_add (s : ExcludeSet) (raw : Str) (d : List FileName) (name : FileName) :
    (s.add raw).matches name.1 (dirRel (d ++ [name])) = true ↔
      s.matches name.1 (dirRel (d ++ [name])) = true ∨ Denotes raw (d ++ [name]) := by
  simp only [add, Denotes, List.getLast?_concat, Option.map_some, Option.some.injEq]
  by_cases hblank : trim raw = []
  · simp only [hblank, if_true, List.not_mem_nil, not_false_eq_true, and_self]
    exact (or_iff_left name.2.1).symm
  · rw [if_neg hblank]
    by_cases hsep : '/' ∉ trim raw ∧ '\\' ∉ trim raw
    · rw [if_pos hsep, if_pos hsep]
      simp only [ExcludeSet.matches, Bool.or_eq_true, decide_eq_true_iff, Finset.mem_insert]
      tauto
    · rw [if_neg hsep, if_neg hsep]
      by_cases hparts :
          normalComponents ((trim raw).map fun c => if c = '\\' then '/' else c) = []
      · rw [if_pos hparts, hparts]
        exact (or_iff_left (List.splitOn_ne_nil _ _).symm).symm
      · rw [if_neg hparts, ← intercalate_normalComponents hparts]
        simp only [ExcludeSet.matches, Bool.or_eq_true, decide_eq_true_iff, Finset.mem_insert]
        tauto

/-- The set has what its entries denote. -/
theorem matches_new (entries : List Str) (d : List FileName) (name : FileName) :
    (new entries).matches name.1 (dirRel (d ++ [name])) = true ↔
      ∃ raw ∈ entries, Denotes raw (d ++ [name]) := by
  have hfold (s : ExcludeSet) : (entries.foldl add s).matches name.1 (dirRel (d ++ [name])) = true ↔
      s.matches name.1 (dirRel (d ++ [name])) = true ∨
        ∃ raw ∈ entries, Denotes raw (d ++ [name]) := by
    induction entries generalizing s with
    | nil => simp
    | cons raw entries ih =>
        rw [List.foldl_cons, ih, matches_add, List.exists_mem_cons_iff, or_assoc]
  rw [new, hfold]
  simp [ExcludeSet.matches]

end ExcludeSet

/-- An excluded directory bars what lies in it. -/
def allowsUnless (entries : List Str) (p : List FileName) (isDir : Bool) : Prop :=
  isDir = true → ∀ raw ∈ entries, ¬ Denotes raw p

instance (entries : List Str) (p : List FileName) (isDir : Bool) :
    Decidable (allowsUnless entries p isDir) :=
  inferInstanceAs (Decidable (isDir = true → ∀ raw ∈ entries, ¬ Denotes raw p))

theorem stricter_exclude (opts : WalkOptions) (entries : List Str) :
    Stricter { opts with excludeDirs := .new [] } { opts with excludeDirs := .new entries }
      (allowsUnless entries) where
  filter := rfl
  bars := fun d name node => by
    simp only [barrier_eq_none_iff, ← Bool.not_eq_true, ExcludeSet.matches_new, allowsUnless]
    simp only [List.not_mem_nil, false_and, exists_false, not_false_eq_true, implies_true,
      and_true, not_exists, not_and, and_assoc]

/-- To exclude directories takes from the result the files that lie under one of them, however
their names are spelled, and nothing else. -/
theorem collectSourceFiles_exclude {opts : WalkOptions} (entries : List Str) {disk : Disk}
    {out : Collectors}
    (h : collectSourceFiles { opts with excludeDirs := .new [] } disk.root = .ok out) :
    ∃ out', collectSourceFiles { opts with excludeDirs := .new entries } disk.root = .ok out' ∧
      out'.files = out.files.filter fun f =>
        ∀ p ∈ f.ancestors, ∀ raw ∈ entries, ¬ Denotes raw p := by
  obtain ⟨out', hout', hfiles⟩ := (stricter_exclude opts entries).files_eq h
  refine ⟨out', hout', hfiles.trans (List.filter_congr fun f _ => decide_eq_decide.mpr ?_)⟩
  simp [allowsUnless]

theorem collectSourceFiles_exclude_sample : ∃ out',
    collectSourceFiles { sampleOptions .full with excludeDirs := .new ["./src//".toList] }
      sampleDisk.root = .ok out' ∧
    out'.files = (outcome (sampleDisk.root.found (sampleOptions .full) [])).files.filter fun f =>
      ∀ p ∈ f.ancestors, ∀ raw ∈ ["./src//".toList], ¬ Denotes raw p :=
  @collectSourceFiles_exclude (sampleOptions .full) ["./src//".toList] sampleDisk _ sampleDisk_ok

/-! ### The order of the listings -/

/-- One answer of a listing: an error, or an entry. -/
abbrev Listed : Type := Except Str (FileName × Node)

def Entries.ofList : List Listed → Entries
  | [] => .nil
  | .error e :: rest => .failed e (ofList rest)
  | .ok (name, node) :: rest => .entry name node (ofList rest)

section Shuffle

variable (order : List FileName → MapOrder Listed)

mutual

/-- The same tree, each directory listed in an order of its own. -/
def Contents.shuffle (dir : List FileName) : Contents → Contents
  | .denied e unlisted => .denied e unlisted
  | .failed e unlisted => .failed e unlisted
  | .opened entries => .opened (.ofList ((order dir).yield (entries.shuffle dir)))

def Entries.shuffle (dir : List FileName) : Entries → List Listed
  | .nil => []
  | .failed e rest => .error e :: rest.shuffle dir
  | .entry name node rest => .ok (name, node.shuffle dir name) :: rest.shuffle dir

def Node.shuffle (dir : List FileName) (name : FileName) : Node → Node
  | .file size text => .file size text
  | .symlink => .symlink
  | .other => .other
  | .vanished => .vanished
  | .dir hasGit contents => .dir hasGit (contents.shuffle (dir ++ [name]))

end

variable {order} {opts : WalkOptions}

theorem barrier_dir (d : List FileName) (name : FileName) (hasGit : Bool)
    (contents contents' : Contents) :
    barrier opts d name (.dir hasGit contents) = barrier opts d name (.dir hasGit contents') := rfl

/-- What one answer of a listing leads to. -/
def Listed.found (opts : WalkOptions) (dir : List FileName) : Listed → List Item
  | .error _ => []
  | .ok (name, node) => node.found opts dir name

def Listed.Readable (opts : WalkOptions) (dir : List FileName) (depth : Nat) : Listed → Prop
  | .error _ => False
  | .ok (name, node) => node.Readable opts dir depth name

theorem Entries.found_ofList (dir : List FileName) (l : List Listed) :
    (Entries.ofList l).found opts dir = l.flatMap (Listed.found opts dir) := by
  induction l with
  | nil => rfl
  | cons answer l ih =>
      rw [List.flatMap_cons, ← ih]
      rcases answer with e | ⟨name, node⟩ <;> rfl

theorem Entries.readable_ofList {dir : List FileName} {depth : Nat} (l : List Listed) :
    (Entries.ofList l).Readable opts dir depth ↔ ∀ answer ∈ l, answer.Readable opts dir depth := by
  induction l with
  | nil => simp [ofList, Readable]
  | cons answer l ih =>
      rw [List.forall_mem_cons, ← ih]
      rcases answer with e | ⟨name, node⟩
      · exact (iff_of_eq (false_and _)).symm
      · rfl

mutual

/-- The order of the listings decides the order of what is found, and no more. -/
theorem Contents.found_shuffle {dir : List FileName} :
    ∀ contents : Contents,
      ((contents.shuffle order dir).found opts dir).Perm (contents.found opts dir)
  | .denied _ _ => .refl _
  | .failed _ _ => .refl _
  | .opened entries => by
      rw [Contents.shuffle, Contents.found, Contents.found, Entries.found_ofList]
      exact (((order dir).perm _).flatMap_right _).trans (entries.found_shuffle)

theorem Entries.found_shuffle {dir : List FileName} :
    ∀ entries : Entries,
      ((entries.shuffle order dir).flatMap (Listed.found opts dir)).Perm (entries.found opts dir)
  | .nil => .refl _
  | .failed _ rest => rest.found_shuffle
  | .entry _ node rest => node.found_shuffle.append rest.found_shuffle

theorem Node.found_shuffle {dir : List FileName} {name : FileName} :
    ∀ node : Node,
      ((node.shuffle order dir name).found opts dir name).Perm (node.found opts dir name)
  | .dir hasGit contents => by
      rw [Node.shuffle, Node.found, Node.found,
        barrier_dir dir name hasGit (contents.shuffle order (dir ++ [name])) contents]
      split
      · exact .refl _
      · exact contents.found_shuffle
  | .file _ _ => .refl _
  | .symlink => .refl _
  | .other => .refl _
  | .vanished => .refl _

end

mutual

theorem Contents.readable_shuffle {dir : List FileName} {depth : Nat} :
    ∀ contents : Contents,
      (contents.shuffle order dir).Readable opts dir depth ↔ contents.Readable opts dir depth
  | .denied _ _ => .rfl
  | .failed _ _ => .rfl
  | .opened entries => by
      rw [Contents.shuffle, Contents.Readable, Contents.Readable, Entries.readable_ofList,
        ← entries.readable_shuffle]
      simp only [(order dir).mem_yield]

theorem Entries.readable_shuffle {dir : List FileName} {depth : Nat} :
    ∀ entries : Entries, (∀ answer ∈ entries.shuffle order dir, answer.Readable opts dir depth) ↔
      entries.Readable opts dir depth
  | .nil => by simp [Entries.shuffle, Entries.Readable]
  | .failed _ rest => by
      rw [Entries.shuffle, List.forall_mem_cons]
      exact iff_of_eq (false_and _)
  | .entry name node rest => by
      rw [Entries.shuffle, List.forall_mem_cons, rest.readable_shuffle]
      exact and_congr_left fun _ => node.readable_shuffle

theorem Node.readable_shuffle {dir : List FileName} {depth : Nat} {name : FileName} :
    ∀ node : Node,
      (node.shuffle order dir name).Readable opts dir depth name ↔ node.Readable opts dir depth name
  | .dir hasGit contents => by
      rw [Node.shuffle, Node.Readable, Node.Readable,
        barrier_dir dir name hasGit (contents.shuffle order (dir ++ [name])) contents,
        contents.readable_shuffle]
  | .file _ _ => .rfl
  | .symlink => .rfl
  | .other => .rfl
  | .vanished => .rfl

end

theorem prunedLe_trans (p q r : Str × Str) (h : prunedLe p q) (h' : prunedLe q r) :
    prunedLe p r := by
  rw [prunedLe, decide_eq_true_iff] at *
  exact h.trans h'

theorem prunedLe_total (p q : Str × Str) : prunedLe p q || prunedLe q p := by
  rw [Bool.or_eq_true, prunedLe, prunedLe, decide_eq_true_iff, decide_eq_true_iff]
  exact le_total _ _

theorem eq_of_prunedLe {p q : Str × Str} (h : prunedLe p q) (h' : prunedLe q p) : p = q := by
  rw [prunedLe, decide_eq_true_iff] at h h'
  exact toLex.injective (le_antisymm h h')

/-- Two walks agree: both fail, or they return the same files and pruned entries, and the same
excluded and unreadable directories in some order. -/
def Agree : Except WalkError Collectors → Except WalkError Collectors → Prop
  | .ok out, .ok out' => out'.files = out.files ∧ out'.prunedDirs = out.prunedDirs ∧
      out'.excludedDirs.Perm out.excludedDirs ∧ out'.unreadableDirs.Perm out.unreadableDirs
  | .error _, .error _ => True
  | _, _ => False

theorem outcome_agree {disk : Disk} {items : List Item}
    (h : items.Perm (disk.root.found opts [])) :
    Agree (.ok (outcome (disk.root.found opts []))) (.ok (outcome items)) := by
  have hnodup : (pathsOf (disk.root.found opts [])).Nodup :=
    Contents.pathsOf_found disk.root disk.distinct
  refine ⟨(MapOrder.mergeSort_eq_of_perm pathLe_trans pathLe_total (h.filterMap _).symm ?_).symm,
    MapOrder.mergeSort_eq_of_perm prunedLe_trans prunedLe_total (h.filterMap _) ?_,
    h.filterMap _, h.filterMap _⟩
  · exact fun f hf g hg hle hle' =>
      List.inj_on_of_nodup_map hnodup hf hg (path_eq_of_pathLe hle hle')
  · exact fun p _ q _ => eq_of_prunedLe

/-- The order in which directories are listed decides neither whether the walk succeeds nor what it
returns. -/
theorem collectSourceFiles_shuffle (opts : WalkOptions) (disk : Disk)
    (order : List FileName → MapOrder Listed) :
    Agree (collectSourceFiles opts disk.root)
      (collectSourceFiles opts (disk.root.shuffle order [])) := by
  have hperm : ((disk.root.shuffle order []).found opts []).Perm (disk.root.found opts []) :=
    disk.root.found_shuffle
  have hread : (disk.root.shuffle order []).Readable opts [] 0 ↔ disk.root.Readable opts [] 0 :=
    disk.root.readable_shuffle
  have hlength := (hperm.filterMap Item.file?).length_eq
  cases hout : collectSourceFiles opts disk.root with
  | ok out =>
      obtain ⟨hok, hfew, rfl⟩ := collectSourceFiles_ok_iff.mp hout
      rw [collectSourceFiles_ok_iff.mpr ⟨hread.mpr hok, hlength.trans_le hfew, rfl⟩]
      exact outcome_agree hperm
  | error e =>
      cases hout' : collectSourceFiles opts (disk.root.shuffle order []) with
      | error e' => trivial
      | ok out' =>
          obtain ⟨hok, hfew, -⟩ := collectSourceFiles_ok_iff.mp hout'
          have := collectSourceFiles_ok_iff.mpr
            ⟨hread.mp hok, hlength.symm.trans_le hfew, rfl⟩
          rw [hout] at this
          cases this

end Shuffle

end AutomatisedPipeline.SourceWalk

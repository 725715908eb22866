import AutomatisedPipeline.Indexer.Coverage
import AutomatisedPipeline.Logic.MapOrder

/-!
The walk over a source tree (`indexer/walk.rs`, `indexer/walk/policy.rs`).

A directory is visited in the order in which the file system lists it. An entry may be barred: a
repository of its own, a name of the built-in list, or an excluded directory. What the walk does not
enter it reports. The recursion carries its collectors along; what it adds to them below a directory
does not depend on them (`walkDirRecursive_ok`), and the walk fails only at what it cannot read, at a
path too deep, or over too many files (`collectSourceFiles_ok_iff`).
-/

namespace AutomatisedPipeline.SourceWalk

open Text
open Indexer (FileName SourceFile Language DependencyScope pathString dirRel maxDepth trim extension)

/-! ### The policy -/

def artifactDir : Str := ".ai-architect-mcp-codebase".toList

def legacyArtifactDir : Str := ".automatised-pipeline".toList

def descendsIntoDependencies : DependencyScope → Bool
  | .none => false
  | .publicApi | .full => true

def shouldSkip (name : Str) (scope : DependencyScope) : Bool :=
  if name = ".git".toList then true
  else if name = artifactDir ∨ name = legacyArtifactDir then true
  else if descendsIntoDependencies scope then false
  else decide (name ∈ Indexer.dependencyDirNames.map String.toList)

def pruneReason (name : Str) : Str :=
  if name = ".git".toList then "vcs".toList
  else if name = artifactDir ∨ name = legacyArtifactDir then "tool_artifact".toList
  else "dependency_or_build_dir".toList

def isSharedHeader (ext : Str) : Bool := ext = "h".toList

def filterKeepsHeaders (filter : Language) : Bool :=
  filter = .c || filter = .cpp || filter = .objC

def filterKeeps (filter : Language) (ext : Str) : Bool :=
  if isSharedHeader ext then filterKeepsHeaders filter
  else Language.fromExtension ext = some filter

/-! ### Excluded directories -/

/-- `ExcludeSet`: names of directories anywhere, and paths below the root. -/
structure ExcludeSet where
  names : Finset Str
  paths : Finset Str
deriving DecidableEq

namespace ExcludeSet

/-- The normal components of a path. -/
def normalComponents (path : Str) : List Str :=
  (path.splitOn '/').filter fun c => c ≠ [] ∧ c ≠ ['.'] ∧ c ≠ ['.', '.']

/-- One entry of `exclude_dirs`. -/
def add (s : ExcludeSet) (raw : Str) : ExcludeSet :=
  let trimmed := trim raw
  if trimmed = [] then s
  else if '/' ∉ trimmed ∧ '\\' ∉ trimmed then { s with names := insert trimmed s.names }
  else
    let parts := normalComponents (trimmed.map fun c => if c = '\\' then '/' else c)
    if parts = [] then s else { s with paths := insert (['/'].intercalate parts) s.paths }

def new (entries : List Str) : ExcludeSet := entries.foldl add ⟨∅, ∅⟩

def isEmpty (s : ExcludeSet) : Bool := s.names = ∅ && s.paths = ∅

def «matches» (s : ExcludeSet) (name rel : Str) : Bool := name ∈ s.names || rel ∈ s.paths

end ExcludeSet

structure WalkOptions where
  languageFilter : Option Language
  dependencyScope : DependencyScope
  excludeDirs : ExcludeSet
deriving DecidableEq

/-! ### What stands on disk -/

mutual

/-- What a name stands for: a file with its length and its text, a directory, which says whether
`.git` exists in it, or something the walk passes over. -/
inductive Node where
  | file (size : Nat) (text : Except Str Str)
  | symlink
  | other
  | vanished
  | dir (hasGit : Bool) (contents : Contents)

/-- What `read_dir` answers: that the user may not read the directory, another error, or the entries.
What it does not list stands in the directory all the same. -/
inductive Contents where
  | denied (e : Str) (unlisted : Entries)
  | failed (e : Str) (unlisted : Entries)
  | opened (entries : Entries)

/-- The entries in the order in which they are listed. To read one may fail. -/
inductive Entries where
  | nil
  | failed (e : Str) (rest : Entries)
  | entry (name : FileName) (node : Node) (rest : Entries)

end

/-- What stands in a directory, listed or not. -/
def Contents.entries : Contents → Entries
  | .denied _ unlisted => unlisted
  | .failed _ unlisted => unlisted
  | .opened entries => entries

def Contents.isOpened : Contents → Bool
  | .opened _ => true
  | _ => false

def Node.isDir : Node → Bool
  | .dir _ _ => true
  | _ => false

/-- A directory with its own `.git`. -/
def Node.isNestedRepository : Node → Bool
  | .dir hasGit _ => hasGit
  | _ => false

/-! ### The walk -/

def maxFiles : Nat := 100000

def maxFileBytes : Nat := 10485760

inductive WalkError where
  | tooDeep (dir : List FileName)
  | readDir (dir : List FileName) (e : Str)
  | dirEntry (e : Str)
  | tooManyDuring
  | tooMany (count : Nat)
deriving DecidableEq

/-- A directory below the root as `display` writes it; the root does not end in a slash. -/
def displayDir (root : Str) (dir : List FileName) : Str :=
  if dir = [] then root else root ++ '/' :: pathString dir

/-- The text of an error. -/
def WalkError.message (root : Str) : WalkError → Str
  | .tooDeep dir =>
      "walk_too_deep: exceeded MAX_DEPTH (".toList ++ Nat.toDigits 10 maxDepth ++ ") at ".toList ++
        displayDir root dir
  | .readDir dir e => "read_dir ".toList ++ displayDir root dir ++ ": ".toList ++ e
  | .dirEntry e => "dir entry: ".toList ++ e
  | .tooManyDuring =>
      "too_many_files: exceeded MAX_FILES (".toList ++ Nat.toDigits 10 maxFiles ++
        ") during walk".toList
  | .tooMany count =>
      "too_many_files: codebase contains ".toList ++ Nat.toDigits 10 count ++
        " files, MAX_FILES is ".toList ++ Nat.toDigits 10 maxFiles

/-- `WalkCollectors`. -/
structure Collectors where
  files : List SourceFile
  excludedDirs : List Str
  unreadableDirs : List Str
  prunedDirs : List (Str × Str)
deriving DecidableEq

def Collectors.empty : Collectors := ⟨[], [], [], []⟩

/-- Why an entry is not entered: by the built-in policy, or on request. -/
inductive Barrier where
  | pruned (reason : Str)
  | excluded
deriving DecidableEq, Repr

def Collectors.bar (c : Collectors) (path : List FileName) : Barrier → Collectors
  | .pruned reason => { c with prunedDirs := c.prunedDirs ++ [(dirRel path, reason)] }
  | .excluded => { c with excludedDirs := c.excludedDirs ++ [dirRel path] }

section Walk

variable (opts : WalkOptions)

/-- The checks of `visit_entry` and `visit_dir_entry` before anything is entered. -/
def barrier (dir : List FileName) (name : FileName) (node : Node) : Option Barrier :=
  if node.isNestedRepository then some (.pruned "nested_repository".toList)
  else if shouldSkip name.1 opts.dependencyScope then some (.pruned (pruneReason name.1))
  else if node.isDir && !opts.excludeDirs.isEmpty &&
      opts.excludeDirs.matches name.1 (dirRel (dir ++ [name])) then some .excluded
  else none

/-- `visit_file_entry`: the size and the language filter. -/
def keeps (f : SourceFile) : Bool :=
  f.size ≤ maxFileBytes &&
    match opts.languageFilter with
    | some filter => (extension f.name.1).any (filterKeeps filter)
    | none => true

def visitFileEntry (f : SourceFile) (c : Collectors) : Collectors :=
  if keeps opts f then { c with files := c.files ++ [f] } else c

mutual

def walkDirRecursive (dir : List FileName) (depth : Nat) :
    Contents → Collectors → Except WalkError Collectors
  | .denied e _, c =>
      if maxDepth < depth then .error (.tooDeep dir)
      else if 0 < depth then .ok { c with unreadableDirs := c.unreadableDirs ++ [dirRel dir] }
      else .error (.readDir dir e)
  | .failed e _, _ =>
      if maxDepth < depth then .error (.tooDeep dir) else .error (.readDir dir e)
  | .opened entries, c =>
      if maxDepth < depth then .error (.tooDeep dir) else visitEntries dir depth entries c

/-- The loop over the entries. -/
def visitEntries (dir : List FileName) (depth : Nat) :
    Entries → Collectors → Except WalkError Collectors
  | .nil, c => .ok c
  | .failed e _, _ => .error (.dirEntry e)
  | .entry name node rest, c =>
      match visitEntry dir depth name node c with
      | .ok c => visitEntries dir depth rest c
      | .error e => .error e

def visitEntry (dir : List FileName) (depth : Nat) (name : FileName) :
    Node → Collectors → Except WalkError Collectors
  | .dir hasGit contents, c =>
      match barrier opts dir name (.dir hasGit contents) with
      | some b => .ok (c.bar (dir ++ [name]) b)
      | none =>
          match walkDirRecursive (dir ++ [name]) (depth + 1) contents c with
          | .ok c => if maxFiles < c.files.length then .error .tooManyDuring else .ok c
          | .error e => .error e
  | .file size text, c =>
      match barrier opts dir name (.file size text) with
      | some b => .ok (c.bar (dir ++ [name]) b)
      | none => .ok (visitFileEntry opts ⟨dir, name, size, text⟩ c)
  | .symlink, c => .ok ((barrier opts dir name .symlink).elim c (c.bar (dir ++ [name])))
  | .other, c => .ok ((barrier opts dir name .other).elim c (c.bar (dir ++ [name])))
  | .vanished, c => .ok ((barrier opts dir name .vanished).elim c (c.bar (dir ++ [name])))

end

/-- `Path` order: component by component. -/
def pathLe (f g : SourceFile) : Bool := f.path.map Subtype.val ≤ g.path.map Subtype.val

def prunedLe (p q : Str × Str) : Bool := toLex p ≤ toLex q

/-- `collect_source_files`. -/
def collectSourceFiles (root : Contents) : Except WalkError Collectors :=
  match walkDirRecursive opts [] 0 root .empty with
  | .error e => .error e
  | .ok c =>
      if maxFiles < c.files.length then .error (.tooMany c.files.length)
      else .ok { c with
        files := c.files.mergeSort pathLe
        prunedDirs := c.prunedDirs.mergeSort prunedLe }

end Walk

/-! ### What the walk finds -/

/-- What one entry adds to the collectors. -/
inductive Item where
  | file (f : SourceFile)
  | unreadable (dir : List FileName)
  | barred (path : List FileName) (b : Barrier)

namespace Collectors

def add (c : Collectors) : Item → Collectors
  | .file f => { c with files := c.files ++ [f] }
  | .unreadable dir => { c with unreadableDirs := c.unreadableDirs ++ [dirRel dir] }
  | .barred path b => c.bar path b

def addAll (c : Collectors) (items : List Item) : Collectors := items.foldl add c

end Collectors

section Found

variable (opts : WalkOptions)

/-- What an entry adds on its own account. -/
def itemsOf (dir : List FileName) (name : FileName) (node : Node) : List Item :=
  match barrier opts dir name node with
  | some b => [.barred (dir ++ [name]) b]
  | none =>
      match node with
      | .file size text =>
          if keeps opts ⟨dir, name, size, text⟩ then [.file ⟨dir, name, size, text⟩] else []
      | .dir _ (.denied _ _) => [.unreadable (dir ++ [name])]
      | _ => []

mutual

/-- What a walk adds below a directory that it gets through. -/
def Contents.found (dir : List FileName) : Contents → List Item
  | .denied _ _ => [.unreadable dir]
  | .failed _ _ => []
  | .opened entries => entries.found dir

def Entries.found (dir : List FileName) : Entries → List Item
  | .nil => []
  | .failed _ rest => rest.found dir
  | .entry name node rest => node.found dir name ++ rest.found dir

def Node.found (dir : List FileName) (name : FileName) : Node → List Item
  | .dir hasGit contents =>
      match barrier opts dir name (.dir hasGit contents) with
      | some b => [.barred (dir ++ [name]) b]
      | none => contents.found (dir ++ [name])
  | .file size text => itemsOf opts dir name (.file size text)
  | .symlink => itemsOf opts dir name .symlink
  | .other => itemsOf opts dir name .other
  | .vanished => itemsOf opts dir name .vanished

end

mutual

/-- Nothing the walk enters makes it fail, apart from the number of files. -/
def Contents.Readable (dir : List FileName) (depth : Nat) : Contents → Prop
  | .denied _ _ => depth ≤ maxDepth ∧ 0 < depth
  | .failed _ _ => False
  | .opened entries => depth ≤ maxDepth ∧ entries.Readable dir depth

def Entries.Readable (dir : List FileName) (depth : Nat) : Entries → Prop
  | .nil => True
  | .failed _ _ => False
  | .entry name node rest => node.Readable dir depth name ∧ rest.Readable dir depth

def Node.Readable (dir : List FileName) (depth : Nat) (name : FileName) : Node → Prop
  | .dir hasGit contents =>
      barrier opts dir name (.dir hasGit contents) = none →
        contents.Readable (dir ++ [name]) (depth + 1)
  | _ => True

end

end Found

def Item.file? : Item → Option SourceFile
  | .file f => some f
  | _ => none

def Item.unreadable? : Item → Option Str
  | .unreadable dir => some (dirRel dir)
  | _ => none

def Item.excluded? : Item → Option Str
  | .barred path .excluded => some (dirRel path)
  | _ => none

def Item.pruned? : Item → Option (Str × Str)
  | .barred path (.pruned reason) => some (dirRel path, reason)
  | _ => none

/-- The collectors hold the items by kind. -/
theorem Collectors.addAll_eq (c : Collectors) (items : List Item) : c.addAll items =
    ⟨c.files ++ items.filterMap Item.file?, c.excludedDirs ++ items.filterMap Item.excluded?,
      c.unreadableDirs ++ items.filterMap Item.unreadable?,
      c.prunedDirs ++ items.filterMap Item.pruned?⟩ := by
  induction items generalizing c with
  | nil => simp [addAll]
  | cons item items ih =>
      change (c.add item).addAll items = _
      rw [ih]
      rcases item with f | dir | ⟨path, reason | _⟩ <;>
        simp [add, bar, List.filterMap_cons, Item.file?, Item.excluded?, Item.unreadable?,
          Item.pruned?]

theorem Collectors.addAll_append (c : Collectors) (items items' : List Item) :
    c.addAll (items ++ items') = (c.addAll items).addAll items' := List.foldl_append

theorem Collectors.length_le_addAll (c : Collectors) (items : List Item) :
    c.files.length ≤ (c.addAll items).files.length := by
  rw [addAll_eq, List.length_append]
  exact Nat.le_add_right _ _

section Run

variable {opts : WalkOptions}

/-- An entry that is no directory adds what it adds on its own account. -/
theorem visitEntry_leaf {dir : List FileName} {depth : Nat} {name : FileName} {node : Node}
    (hleaf : node.isDir = false) (c : Collectors) :
    visitEntry opts dir depth name node c = .ok (c.addAll (itemsOf opts dir name node)) := by
  cases node with
  | dir hasGit contents => cases hleaf
  | file size text =>
      rw [visitEntry, itemsOf]
      cases barrier opts dir name (.file size text) with
      | some b => rfl
      | none =>
          simp only [visitFileEntry]
          split <;> rfl
  | symlink =>
      simp only [visitEntry, itemsOf]
      cases barrier opts dir name .symlink <;> rfl
  | other =>
      simp only [visitEntry, itemsOf]
      cases barrier opts dir name .other <;> rfl
  | vanished =>
      simp only [visitEntry, itemsOf]
      cases barrier opts dir name .vanished <;> rfl

mutual

/-- A walk that ends without an error has found what there is. -/
theorem walkDirRecursive_ok {dir : List FileName} {depth : Nat} {c c' : Collectors} :
    ∀ contents : Contents, walkDirRecursive opts dir depth contents c = .ok c' →
      contents.Readable opts dir depth ∧ c' = c.addAll (contents.found opts dir)
  | .denied e unlisted, h => by
      rw [walkDirRecursive] at h
      split_ifs at h with hdeep hroot
      obtain rfl := Except.ok.inj h
      exact ⟨⟨Nat.le_of_not_lt hdeep, hroot⟩, rfl⟩
  | .failed e unlisted, h => by
      rw [walkDirRecursive] at h
      split_ifs at h
  | .opened entries, h => by
      rw [walkDirRecursive] at h
      split_ifs at h with hdeep
      obtain ⟨hentries, hc⟩ := visitEntries_ok entries h
      exact ⟨⟨Nat.le_of_not_lt hdeep, hentries⟩, hc⟩

theorem visitEntries_ok {dir : List FileName} {depth : Nat} {c c' : Collectors} :
    ∀ entries : Entries, visitEntries opts dir depth entries c = .ok c' →
      entries.Readable opts dir depth ∧ c' = c.addAll (entries.found opts dir)
  | .nil, h => ⟨trivial, (Except.ok.inj h).symm⟩
  | .failed e rest, h => by
      rw [visitEntries] at h
      cases h
  | .entry name node rest, h => by
      rw [visitEntries] at h
      split at h
      · rename_i d hnode
        obtain ⟨hread, hd⟩ := visitEntry_ok node hnode
        obtain ⟨hrest, hc⟩ := visitEntries_ok rest h
        refine ⟨⟨hread, hrest⟩, ?_⟩
        rw [hc, hd, ← Collectors.addAll_append, Entries.found]
      · cases h

theorem visitEntry_ok {dir : List FileName} {depth : Nat} {name : FileName} {c c' : Collectors} :
    ∀ node : Node, visitEntry opts dir depth name node c = .ok c' →
      node.Readable opts dir depth name ∧ c' = c.addAll (node.found opts dir name)
  | .dir hasGit contents, h => by
      rw [visitEntry] at h
      rw [Node.found]
      split at h
      · rename_i b hbarrier
        obtain rfl := Except.ok.inj h
        exact ⟨fun hnone => absurd (hbarrier.symm.trans hnone) (by simp), rfl⟩
      · rename_i hbarrier
        split at h
        · rename_i d hwalk
          split_ifs at h
          obtain rfl := Except.ok.inj h
          obtain ⟨hread, hd⟩ := walkDirRecursive_ok contents hwalk
          exact ⟨fun _ => hread, hd⟩
        · cases h
  | .file size text, h =>
      ⟨trivial, (Except.ok.inj ((visitEntry_leaf rfl c).symm.trans h)).symm⟩
  | .symlink, h => ⟨trivial, (Except.ok.inj ((visitEntry_leaf rfl c).symm.trans h)).symm⟩
  | .other, h => ⟨trivial, (Except.ok.inj ((visitEntry_leaf rfl c).symm.trans h)).symm⟩
  | .vanished, h => ⟨trivial, (Except.ok.inj ((visitEntry_leaf rfl c).symm.trans h)).symm⟩

end

mutual

/-- A walk that meets nothing unreadable and few enough files ends. -/
theorem walkDirRecursive_of_readable {dir : List FileName} {depth : Nat} {c : Collectors} :
    ∀ contents : Contents, contents.Readable opts dir depth →
      (c.addAll (contents.found opts dir)).files.length ≤ maxFiles →
        walkDirRecursive opts dir depth contents c = .ok (c.addAll (contents.found opts dir))
  | .denied e unlisted, ⟨hdepth, hroot⟩, _ => by
      rw [walkDirRecursive, if_neg (Nat.not_lt.mpr hdepth), if_pos hroot]
      rfl
  | .failed e unlisted, h, _ => h.elim
  | .opened entries, ⟨hdepth, hentries⟩, hfew => by
      rw [walkDirRecursive, if_neg (Nat.not_lt.mpr hdepth)]
      exact visitEntries_of_readable entries hentries hfew

theorem visitEntries_of_readable {dir : List FileName} {depth : Nat} {c : Collectors} :
    ∀ entries : Entries, entries.Readable opts dir depth →
      (c.addAll (entries.found opts dir)).files.length ≤ maxFiles →
        visitEntries opts dir depth entries c = .ok (c.addAll (entries.found opts dir))
  | .nil, _, _ => rfl
  | .failed e rest, h, _ => h.elim
  | .entry name node rest, ⟨hnode, hrest⟩, hfew => by
      rw [Entries.found, Collectors.addAll_append] at hfew ⊢
      rw [visitEntries, visitEntry_of_readable node hnode
        ((Collectors.length_le_addAll _ _).trans hfew)]
      exact visitEntries_of_readable rest hrest hfew

theorem visitEntry_of_readable {dir : List FileName} {depth : Nat} {name : FileName}
    {c : Collectors} :
    ∀ node : Node, node.Readable opts dir depth name →
      (c.addAll (node.found opts dir name)).files.length ≤ maxFiles →
        visitEntry opts dir depth name node c = .ok (c.addAll (node.found opts dir name))
  | .dir hasGit contents, hread, hfew => by
      rw [Node.found] at hfew ⊢
      rw [visitEntry]
      cases hbarrier : barrier opts dir name (.dir hasGit contents) with
      | some b => rfl
      | none =>
          rw [hbarrier] at hfew
          simp only at hfew ⊢
          rw [walkDirRecursive_of_readable contents (hread hbarrier) hfew]
          simp only
          rw [if_neg (Nat.not_lt.mpr hfew)]
  | .file size text, _, _ => visitEntry_leaf rfl c
  | .symlink, _, _ => visitEntry_leaf rfl c
  | .other, _, _ => visitEntry_leaf rfl c
  | .vanished, _, _ => visitEntry_leaf rfl c

end

/-- What a walk returns for the items it has found. -/
def outcome (items : List Item) : Collectors where
  files := (items.filterMap Item.file?).mergeSort pathLe
  excludedDirs := items.filterMap Item.excluded?
  unreadableDirs := items.filterMap Item.unreadable?
  prunedDirs := (items.filterMap Item.pruned?).mergeSort prunedLe

/-- The walk returns what there is, unless something is unreadable or there are too many files. -/
theorem collectSourceFiles_ok_iff {root : Contents} {out : Collectors} :
    collectSourceFiles opts root = .ok out ↔
      root.Readable opts [] 0 ∧
        ((root.found opts []).filterMap Item.file?).length ≤ maxFiles ∧
          out = outcome (root.found opts []) := by
  have hall := Collectors.addAll_eq .empty (root.found opts [])
  have hfiles : (Collectors.empty.addAll (root.found opts [])).files =
      (root.found opts []).filterMap Item.file? := by rw [hall]; rfl
  constructor
  · intro h
    rw [collectSourceFiles] at h
    split at h
    · cases h
    · rename_i c hwalk
      split_ifs at h with hmany
      obtain ⟨hread, rfl⟩ := walkDirRecursive_ok root hwalk
      obtain rfl := Except.ok.inj h
      refine ⟨hread, ?_, ?_⟩
      · rw [← hfiles]
        exact Nat.le_of_not_lt hmany
      · rw [hall]
        rfl
  · rintro ⟨hread, hfew, rfl⟩
    rw [← hfiles] at hfew
    rw [collectSourceFiles, walkDirRecursive_of_readable root hread hfew]
    simp only
    rw [if_neg (Nat.not_lt.mpr hfew), hall]
    rfl

end Run

end AutomatisedPipeline.SourceWalk

import AutomatisedPipeline.Artifact.Export

/-!
The import of an artifact (`import_artifact` of `artifact.rs`).

The archive is a list of entries. Unpacking them is left to `tar`, of which `WritesInOrder` says what
the import relies on: it writes the entries in order below the parent of the graph path, and stops at
the first error with what has been written left behind. What stands at the graph path then is the
tree of the entries under its name (`treeOf_writeAll`). After an error the graph path is removed as a
directory, which does nothing to a file; without one it is enough that something stands there.
`importArtifact_clean_iff` says for which streams that leaves the whole graph or nothing.
-/

namespace AutomatisedPipeline.Artifact

open Text

/-! ### Trees -/

/-- A directory, or a file with its content. -/
inductive Node (β : Type) where
  | dir
  | file (content : β)
deriving DecidableEq, Repr

def Node.IsFile {β : Type} : Node β → Prop
  | .dir => False
  | .file _ => True

/-- What stands at the paths below an entry of a directory, and at the entry itself. -/
abbrev Tree (β : Type) : Type := List Str → Option (Node β)

namespace Tree

variable {β : Type}

def empty : Tree β := fun _ => none

/-- A file stands at the path. -/
def isFile (t : Tree β) (path : List Str) : Bool :=
  match t path with
  | some (.file _) => true
  | _ => false

/-- The paths on the way to a path. -/
def parents (path : List Str) : List (List Str) := path.inits.dropLast

/-- A node is written, with the directories on the way. It is an error if one of them is a file, or
if there is a node of the other kind already. -/
def write (t : Tree β) (path : List Str) (node : Node β) : Option (Tree β) :=
  if (parents path).any t.isFile then none
  else
    match node, t path with
    | .dir, some (.file _) => none
    | .file _, some .dir => none
    | _, _ => some fun p => if p = path then some node else if p ∈ parents path then some .dir else t p

end Tree

/-- What stands in a directory, by name. -/
abbrev Files (β : Type) : Type := Str → Tree β

/-- An entry of an archive: its path, as the first name and the others, and what it is. -/
structure Entry (β : Type) where
  top : Str
  rel : List Str
  node : Node β
deriving DecidableEq, Repr

def Files.write {β : Type} (files : Files β) (entry : Entry β) : Option (Files β) :=
  ((files entry.top).write entry.rel entry.node).map (Function.update files entry.top)

/-- Entries are written one after the other. -/
def Files.writeAll {β : Type} (files : Files β) (entries : List (Entry β)) : Option (Files β) :=
  entries.foldlM Files.write files

/-! ### Unpacking -/

/-- How the decoded stream ends, cut at `MAX_DECOMPRESSED_BYTES` at the latest: at the end of an
archive, or with an error, which leaves what has been written of an entry. -/
inductive Ending (β : Type) where
  | clean
  | broken (partialEntry : Option (Entry β))
deriving DecidableEq, Repr

/-- What is decoded of an archive file. -/
structure Stream (β : Type) where
  entries : List (Entry β)
  ending : Ending β
deriving DecidableEq, Repr

/-- What unpacking leaves behind, the entries it has written, and whether it failed. -/
structure Unpacked (β : Type) where
  files : Files β
  written : List (Entry β)
  failed : Bool

/-- How `tar` unpacks a stream into a directory. -/
abbrev Untar (β : Type) : Type := Files β → Stream β → Unpacked β

/-- What the import relies on: the entries are written in order, what has been written is left behind
where an error stops it, and without an error every entry has been written. -/
structure WritesInOrder {β : Type} (untar : Untar β) : Prop where
  left : ∀ files stream,
    files.writeAll (untar files stream).written = some (untar files stream).files
  complete : ∀ files stream, (untar files stream).failed = false →
    (untar files stream).written = stream.entries

section Unpack

variable {β : Type}

/-- The end of the entries. -/
def finish (files : Files β) (written : List (Entry β)) : Ending β → Unpacked β
  | .clean => ⟨files, written, false⟩
  | .broken none => ⟨files, written, true⟩
  | .broken (some entry) =>
      match files.write entry with
      | some files => ⟨files, written ++ [entry], true⟩
      | none => ⟨files, written, true⟩

/-- `Archive::unpack`, behind the entries that have been written. -/
def unpackFrom (ending : Ending β) (files : Files β) (written : List (Entry β)) :
    List (Entry β) → Unpacked β
  | [] => finish files written ending
  | entry :: entries =>
      match files.write entry with
      | some files => unpackFrom ending files (written ++ [entry]) entries
      | none => ⟨files, written, true⟩

/-- `Archive::unpack`. -/
def unpack (files : Files β) (stream : Stream β) : Unpacked β :=
  unpackFrom stream.ending files [] stream.entries

/-- `fs::remove_dir_all`, whose error is dropped: it does not remove a file. -/
def removeDirAll (files : Files β) (name : Str) : Files β :=
  match files name [] with
  | some .dir => Function.update files name .empty
  | _ => files

end Unpack

/-! ### The import -/

/-- What an import meets: the sidecar as `read_meta` reads it, whether the graph path has a parent,
whether that can be created, whether the archive file can be opened and its decoder be made, whether
the open handles of the graph path can be released, and the stream. -/
structure Import (β : Type) where
  sidecar : Option ArtifactMeta
  hasParent : Bool
  createsParent : Bool
  opens : Bool
  decodes : Bool
  releases : Bool
  stream : Stream β

inductive ImportError where
  | readMeta
  | newerSchema
  | noParent
  | createParent
  | openArchive
  | zstdInit
  | openHandles
  | unpack
  | noGraph
deriving DecidableEq, Repr

/-- What an import returns, and what stands in the parent of the graph path afterwards. -/
structure Imported (β : Type) where
  result : Except ImportError ArtifactMeta
  files : Files β

/-- `import_artifact`, into `name` of a directory. -/
def importArtifact {β : Type} (untar : Untar β) (job : Import β) (files : Files β) (name : Str) :
    Imported β :=
  match job.sidecar with
  | none => ⟨.error .readMeta, files⟩
  | some sidecar =>
      if schemaVersion < sidecar.schemaVersion then ⟨.error .newerSchema, files⟩
      else if !job.hasParent then ⟨.error .noParent, files⟩
      else if !job.createsParent then ⟨.error .createParent, files⟩
      else if !job.opens then ⟨.error .openArchive, files⟩
      else if !job.decodes then ⟨.error .zstdInit, files⟩
      else if !job.releases then ⟨.error .openHandles, files⟩
      else
        let unpacked := untar files job.stream
        if unpacked.failed then ⟨.error .unpack, removeDirAll unpacked.files name⟩
        else if unpacked.files name [] = none then ⟨.error .noGraph, unpacked.files⟩
        else ⟨.ok sidecar, unpacked.files⟩

/-! ### The tree of a graph -/

section Graph

variable {β : Type}

/-- The tree that entries make under a name. -/
def treeOf (name : Str) (entries : List (Entry β)) : Option (Tree β) :=
  (entries.filter fun entry => entry.top = name).foldlM
    (fun t entry => t.write entry.rel entry.node) Tree.empty

theorem treeOf_concat (name : Str) (entries : List (Entry β)) (entry : Entry β) :
    treeOf name (entries ++ [entry]) =
      if entry.top = name then (treeOf name entries).bind fun t => t.write entry.rel entry.node
      else treeOf name entries := by
  rw [treeOf, List.filter_append]
  by_cases htop : entry.top = name
  · rw [if_pos htop, List.filter_cons_of_pos (by simpa using htop), List.foldlM_append]
    simp [treeOf]
  · rw [if_neg htop, List.filter_cons_of_neg (by simpa using htop), List.filter_nil,
      List.append_nil]
    rfl

/-- What is written under a name is the tree of the entries. -/
theorem treeOf_write {files files' : Files β} {name : Str} {written : List (Entry β)}
    {entry : Entry β} (h : treeOf name written = some (files name))
    (hwrite : files.write entry = some files') :
    treeOf name (written ++ [entry]) = some (files' name) := by
  obtain ⟨t, ht, rfl⟩ := Option.map_eq_some_iff.mp hwrite
  rw [treeOf_concat]
  split
  · rename_i htop
    rw [h, Option.bind_some, ← htop, ht, Function.update_self]
  · rename_i htop
    rw [h, Function.update_of_ne (Ne.symm htop)]

/-- What stands under a name that was free is the tree of the entries that have been written. -/
theorem treeOf_writeAll {files files' : Files β} {name : Str} {written : List (Entry β)}
    (hfree : files name = Tree.empty) (h : files.writeAll written = some files') :
    treeOf name written = some (files' name) := by
  induction written using List.reverseRecOn generalizing files' with
  | nil =>
      obtain rfl := Option.some.inj h
      rw [hfree]
      rfl
  | append_singleton written entry ih =>
      rw [Files.writeAll, List.foldlM_append] at h
      obtain ⟨before, hbefore, hwrite⟩ := Option.bind_eq_some_iff.mp h
      exact treeOf_write (ih hbefore) (by simpa using hwrite)

/-! ### What stands at the graph path -/

theorem nil_mem_parents {path : List Str} (h : path ≠ []) : [] ∈ Tree.parents path := by
  obtain ⟨name, path, rfl⟩ := List.exists_cons_of_ne_nil h
  cases path <;> simp [Tree.parents]

/-- What a write that does not fail has checked, and what it leaves. -/
theorem Tree.write_cases {t t' : Tree β} {path : List Str} {node : Node β}
    (h : t.write path node = some t') :
    (parents path).any t.isFile = false ∧ (node = .dir → t.isFile path = false) ∧
      t' = fun p => if p = path then some node else if p ∈ parents path then some .dir else t p := by
  unfold Tree.write at h
  split at h
  · cases h
  · rename_i hparents
    refine ⟨by simpa using hparents, ?_⟩
    split at h
    · cases h
    · cases h
    · rename_i hdir _
      refine ⟨fun hnode => ?_, (Option.some.inj h).symm⟩
      rw [Tree.isFile]
      split
      · rename_i c hc
        exact (hdir c hnode hc).elim
      · rfl

/-- A write leaves a node at the root, and a directory there only if there was no file. -/
theorem Tree.write_root {t t' : Tree β} {path : List Str} {node : Node β}
    (h : t.write path node = some t') :
    (path = [] ∧ t' [] = some node ∧ (node = .dir → t.isFile [] = false)) ∨
      (path ≠ [] ∧ t' [] = some .dir ∧ t.isFile [] = false) := by
  obtain ⟨hparents, hdir, rfl⟩ := Tree.write_cases h
  by_cases hpath : path = []
  · subst hpath
    exact .inl ⟨rfl, if_pos rfl, hdir⟩
  · have hnil := nil_mem_parents hpath
    refine .inr ⟨hpath, ?_, ?_⟩
    · simp only [hnil, if_true, if_neg (Ne.symm hpath)]
    · simpa using List.any_eq_false.mp hparents [] hnil

/-- One of the entries is a single file under the name. -/
def HasFile (name : Str) (entries : List (Entry β)) : Prop :=
  ∃ entry ∈ entries, entry.top = name ∧ entry.rel = [] ∧ entry.node.IsFile

/-- One of the entries is under the name. -/
def HasEntry (name : Str) (entries : List (Entry β)) : Prop :=
  ∃ entry ∈ entries, entry.top = name

/-- The root of a tree is what its entries say. -/
def Rooted (name : Str) (entries : List (Entry β)) (t : Tree β) : Prop :=
  match t [] with
  | none => t = Tree.empty ∧ ¬HasEntry name entries
  | some .dir => HasEntry name entries ∧ ¬HasFile name entries
  | some (.file _) => HasEntry name entries ∧ HasFile name entries

theorem HasFile.hasEntry {name : Str} {entries : List (Entry β)} (h : HasFile name entries) :
    HasEntry name entries := by
  obtain ⟨entry, hmem, htop, -⟩ := h
  exact ⟨entry, hmem, htop⟩

theorem hasEntry_concat {name : Str} {entries : List (Entry β)} {entry : Entry β} :
    HasEntry name (entries ++ [entry]) ↔ HasEntry name entries ∨ entry.top = name := by
  simp [HasEntry, or_and_right, exists_or]

theorem hasFile_concat {name : Str} {entries : List (Entry β)} {entry : Entry β} :
    HasFile name (entries ++ [entry]) ↔
      HasFile name entries ∨ (entry.top = name ∧ entry.rel = [] ∧ entry.node.IsFile) := by
  simp [HasFile, or_and_right, exists_or]

namespace Rooted

variable {name : Str} {entries : List (Entry β)} {t : Tree β}

theorem not_hasFile (h : Rooted name entries t) (hfile : t.isFile [] = false) :
    ¬HasFile name entries := by
  rw [Rooted] at h
  rw [Tree.isFile] at hfile
  split at h
  · exact fun hf => h.2 hf.hasEntry
  · exact h.2
  · rename_i hroot
    rw [hroot] at hfile
    cases hfile

theorem hasEntry (h : Rooted name entries t) (hroot : t [] ≠ none) : HasEntry name entries := by
  rw [Rooted] at h
  split at h
  · contradiction
  · exact h.1
  · exact h.1

theorem write {t' : Tree β} {entry : Entry β} (h : Rooted name entries t)
    (htop : entry.top = name) (hwrite : t.write entry.rel entry.node = some t') :
    Rooted name (entries ++ [entry]) t' := by
  have hentry : HasEntry name (entries ++ [entry]) := hasEntry_concat.mpr (.inr htop)
  rw [Rooted]
  obtain ⟨hrel, hroot, hdir⟩ | ⟨hrel, hroot, hfile⟩ := Tree.write_root hwrite
  · rw [hroot]
    cases hnode : entry.node with
    | dir =>
        refine ⟨hentry, fun hf => ?_⟩
        obtain hf | ⟨-, -, hf⟩ := hasFile_concat.mp hf
        · exact h.not_hasFile (hdir hnode) hf
        · rw [hnode] at hf
          exact hf
    | file c => exact ⟨hentry, hasFile_concat.mpr (.inr ⟨htop, hrel, by rw [hnode]; trivial⟩)⟩
  · rw [hroot]
    refine ⟨hentry, fun hf => ?_⟩
    obtain hf | ⟨-, hnil, -⟩ := hasFile_concat.mp hf
    · exact h.not_hasFile hfile hf
    · exact hrel hnil

end Rooted

theorem rooted_treeOf {name : Str} {entries : List (Entry β)} {t : Tree β}
    (h : treeOf name entries = some t) : Rooted name entries t := by
  induction entries using List.reverseRecOn generalizing t with
  | nil =>
      obtain rfl := Option.some.inj h
      exact ⟨rfl, by simp [HasEntry]⟩
  | append_singleton entries entry ih =>
      rw [treeOf_concat] at h
      split at h
      · rename_i htop
        obtain ⟨s, hs, hwrite⟩ := Option.bind_eq_some_iff.mp h
        exact (ih hs).write htop hwrite
      · rename_i htop
        have hroot := ih h
        simp only [Rooted, hasEntry_concat, hasFile_concat, htop, false_and, or_false]
        exact hroot

/-! ### The unpacking that is assumed -/

theorem writeAll_concat {start files files' : Files β} {written : List (Entry β)} {entry : Entry β}
    (h : start.writeAll written = some files) (hwrite : files.write entry = some files') :
    start.writeAll (written ++ [entry]) = some files' := by
  rw [Files.writeAll, List.foldlM_append]
  exact Option.bind_eq_some_iff.mpr ⟨files, h, by simpa using hwrite⟩

theorem finish_left {start files : Files β} {written : List (Entry β)} (ending : Ending β)
    (h : start.writeAll written = some files) :
    start.writeAll (finish files written ending).written =
      some (finish files written ending).files := by
  match ending with
  | .clean => exact h
  | .broken none => exact h
  | .broken (some entry) =>
      rw [finish]
      split
      · rename_i hwrite
        exact writeAll_concat h hwrite
      · exact h

theorem unpackFrom_left {start files : Files β} {written : List (Entry β)} (ending : Ending β)
    (entries : List (Entry β)) (h : start.writeAll written = some files) :
    start.writeAll (unpackFrom ending files written entries).written =
      some (unpackFrom ending files written entries).files := by
  induction entries generalizing files written with
  | nil => exact finish_left ending h
  | cons entry entries ih =>
      rw [unpackFrom]
      split
      · rename_i hwrite
        exact ih (writeAll_concat h hwrite)
      · exact h

/-- Unpacking that does not fail has written every entry. -/
theorem unpackFrom_written {files : Files β} {written : List (Entry β)} {ending : Ending β}
    {entries : List (Entry β)} (h : (unpackFrom ending files written entries).failed = false) :
    (unpackFrom ending files written entries).written = written ++ entries := by
  induction entries generalizing files written with
  | nil =>
      rw [List.append_nil]
      match ending with
      | .clean => rfl
      | .broken none => cases h
      | .broken (some entry) =>
          rw [unpackFrom, finish] at h
          split at h <;> cases h
  | cons entry entries ih =>
      rw [unpackFrom] at h ⊢
      split at h
      · rename_i hwrite
        simp only [ih h, List.append_assoc, List.singleton_append]
      · cases h

theorem writesInOrder_unpack : WritesInOrder (unpack : Untar β) where
  left _ stream := unpackFrom_left stream.ending stream.entries rfl
  complete _ _ h := unpackFrom_written h

end Graph

/-! ### Clean imports -/

/-- The import gets to unpack the archive. -/
def Import.Unpacks {β : Type} (job : Import β) : Prop :=
  (∃ sidecar ∈ job.sidecar, sidecar.schemaVersion ≤ schemaVersion) ∧ job.hasParent ∧
    job.createsParent ∧ job.opens ∧ job.decodes ∧ job.releases

/-- An import has left the graph of the archive at the graph path, or an error and nothing there. -/
def Imported.Clean {β : Type} (archive : List (Entry β)) (name : Str) (imported : Imported β) :
    Prop :=
  match imported.result with
  | .ok _ => treeOf name archive = some (imported.files name)
  | .error _ => imported.files name = Tree.empty

section Clean

variable {β : Type} {archive : List (Entry β)} {untar : Untar β} {job : Import β} (files : Files β)
  (name : Str)

/-- An import that does not get to unpacking changes nothing. -/
theorem importArtifact_of_not_unpacks (h : ¬job.Unpacks) :
    ∃ error, importArtifact untar job files name = ⟨.error error, files⟩ := by
  rw [importArtifact]
  split
  · exact ⟨_, rfl⟩
  · rename_i sidecar hsidecar
    split_ifs with hschema hparent hcreate hopen hdecode hrelease
    any_goals exact ⟨_, rfl⟩
    all_goals
      have hunpacks : job.Unpacks := ⟨⟨sidecar, hsidecar, Nat.le_of_not_lt hschema⟩,
        by simpa using hparent, by simpa using hcreate, by simpa using hopen,
        by simpa using hdecode, by simpa using hrelease⟩
      exact absurd hunpacks h

/-- An import that does is its unpacking and what follows. -/
theorem importArtifact_of_unpacks (h : job.Unpacks) :
    ∃ sidecar, importArtifact untar job files name =
      if (untar files job.stream).failed then
        ⟨.error .unpack, removeDirAll (untar files job.stream).files name⟩
      else if (untar files job.stream).files name [] = none then
        ⟨.error .noGraph, (untar files job.stream).files⟩
      else ⟨.ok sidecar, (untar files job.stream).files⟩ := by
  obtain ⟨⟨sidecar, hsidecar, hschema⟩, hparent, hcreate, hopen, hdecode, hrelease⟩ := h
  refine ⟨sidecar, ?_⟩
  rw [importArtifact, show job.sidecar = some sidecar from hsidecar]
  simp only [hparent, hcreate, hopen, hdecode, hrelease, Nat.not_lt.mpr hschema, Bool.not_true,
    Bool.false_eq_true, if_false]

variable {files name}

/-- Removing the graph path as a directory leaves nothing there if no file was written there. -/
theorem removeDirAll_eq_empty_iff {written : List (Entry β)} (h : Rooted name written (files name)) :
    removeDirAll files name name = Tree.empty ↔ ¬HasFile name written := by
  rw [Rooted] at h
  unfold removeDirAll
  cases hroot : files name [] with
  | none =>
      rw [hroot] at h
      exact iff_of_true h.1 fun hf => h.2 hf.hasEntry
  | some node =>
      rw [hroot] at h
      cases node with
      | dir =>
          exact iff_of_true (Function.update_self name Tree.empty files) h.2
      | file c =>
          refine iff_of_false (fun hempty => ?_) (not_not_intro h.2)
          rw [show files name = Tree.empty from hempty] at hroot
          cases hroot

/-- An import into a free graph path is clean when it does not get to unpacking, or when what
unpacking has written there is no single file in case it fails, and the entries of the stream there,
if any, make the graph of the archive in case it does not. -/
theorem importArtifact_clean_iff (huntar : WritesInOrder untar) (hfree : files name = Tree.empty) :
    (importArtifact untar job files name).Clean archive name ↔
      (job.Unpacks →
        if (untar files job.stream).failed then ¬HasFile name (untar files job.stream).written
        else HasEntry name job.stream.entries →
          treeOf name archive = treeOf name job.stream.entries) := by
  by_cases h : job.Unpacks
  · obtain ⟨sidecar, himport⟩ := importArtifact_of_unpacks files name h
    have htree := treeOf_writeAll hfree (huntar.left files job.stream)
    have hroot := rooted_treeOf htree
    rw [himport]
    simp only [h, true_implies]
    split_ifs with hfailed hnone
    · exact removeDirAll_eq_empty_iff hroot
    · rw [Rooted, hnone, huntar.complete files job.stream (by simpa using hfailed)] at hroot
      exact iff_of_true hroot.1 fun hentry => absurd hentry hroot.2
    · rw [huntar.complete files job.stream (by simpa using hfailed)] at htree hroot
      rw [htree]
      exact ⟨fun ht _ => ht, fun ht => ht (hroot.hasEntry hnone)⟩
  · obtain ⟨error, himport⟩ := importArtifact_of_not_unpacks files name h
    rw [himport]
    exact iff_of_true hfree fun hunpacks => absurd hunpacks h

/-- An import whose stream breaks off in the last of some entries. -/
private def cutImport (entries : List (Entry Nat)) (cut : Entry Nat) : Import Nat where
  sidecar := some ⟨1, "0.1.0".toList, [], 1, 0, 9, 9, 9⟩
  hasParent := true
  createsParent := true
  opens := true
  decodes := true
  releases := true
  stream := ⟨entries, .broken (some cut)⟩

/-- A graph in a directory is removed when the stream breaks off behind it. -/
theorem importArtifact_clean_iff_directory :
    (importArtifact unpack
        (cutImport [⟨"graph".toList, [], .dir⟩, ⟨"graph".toList, ["data".toList], .file 1⟩]
          ⟨"file_manifest.json".toList, [], .file 3⟩)
        (fun _ => Tree.empty) "graph".toList).Clean
      [⟨"graph".toList, [], .dir⟩, ⟨"graph".toList, ["data".toList], .file 1⟩,
        ⟨"file_manifest.json".toList, [], .file 2⟩] "graph".toList := by
  refine (importArtifact_clean_iff writesInOrder_unpack rfl).mpr fun _ => ?_
  rw [if_pos (by rfl)]
  rintro ⟨entry, hmem, htop, hrel, hfile⟩
  have hwritten : entry ∈ [⟨"graph".toList, [], .dir⟩, ⟨"graph".toList, ["data".toList], .file 1⟩,
    (⟨"file_manifest.json".toList, [], .file 3⟩ : Entry Nat)] := hmem
  simp only [List.mem_cons, List.not_mem_nil, or_false] at hwritten
  obtain rfl | rfl | rfl := hwritten
  · exact hfile
  · cases hrel
  · exact absurd htop (by decide)

/-- A graph in a single file stays when the stream breaks off behind it. -/
theorem not_importArtifact_clean :
    ¬∀ (untar : Untar Nat), WritesInOrder untar →
      ∀ (archive : List (Entry Nat)) (job : Import Nat) (files : Files Nat) (name : Str),
        files name = Tree.empty → (importArtifact untar job files name).Clean archive name := by
  intro h
  have hclean := h unpack writesInOrder_unpack
    [⟨"graph".toList, [], .file 1⟩, ⟨"file_manifest.json".toList, [], .file 2⟩]
    (cutImport [⟨"graph".toList, [], .file 1⟩] ⟨"file_manifest.json".toList, [], .file 3⟩)
    (fun _ => Tree.empty) "graph".toList rfl
  have hroot := congrFun (show _ = Tree.empty from hclean) []
  exact absurd hroot (by decide)

end Clean

end AutomatisedPipeline.Artifact

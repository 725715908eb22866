import AutomatisedPipeline.Indexer.Schema
import AutomatisedPipeline.Indexer.Specifiers

/-!
Light links: edges between files that no parser connects. Every specifier of a
file is resolved against the ids of all indexed files and staged once for each
pair of files. What a file links to depends on its own text and on that set of
ids, and on no other file's text.
-/

namespace AutomatisedPipeline.Indexer

open Text Store

/-! ### Resolution -/

/-- `normalize`, from the components already normalized. -/
def normalizeFrom (out : List Str) (parts : List Str) : List Str :=
  parts.foldl (fun out part => if part = ['.', '.'] then out.dropLast else out ++ [part]) out

/-- `normalize(dir.join(spec))`, with forward slashes. -/
def normalizeJoin (dir : List Str) (spec : Str) : Str :=
  let start := if ['/'].isPrefixOf spec then [] else normalizeFrom [] dir
  (join ['/'] (normalizeFrom start (components spec))).map fun c => if c = '\\' then '/' else c

/-- `Path::parent` of a File id. -/
def parentParts (fromId : Str) : List Str := (components fromId).dropLast

/-- The specifier from the directory of the file it stands in, and from the root. -/
def candidatePaths (fromId spec : Str) : List Str :=
  [normalizeJoin (parentParts fromId) spec, normalizeJoin [] spec].filter (· ≠ [])

def resolveExact (fromId spec : Str) (fileIds : List Str) : Option Str :=
  (candidatePaths fromId spec).find? (· ∈ fileIds)

def jsResolveSuffixes : List String :=
  ["", ".js", ".jsx", ".mjs", ".cjs", "/index.js", "/index.mjs"]

def resolveSpecifier (fromId spec : Str) (fileIds : List Str) : Option Str :=
  ((candidatePaths fromId spec).flatMap fun base =>
    jsResolveSuffixes.map fun suffix => base ++ suffix.toList).find? (· ∈ fileIds)

/-- The one id that the remainder ends at a directory boundary. -/
def resolveVarPrefixed (remainder : Str) (fileIds : List Str) : Option Str :=
  if remainder ∈ fileIds then some remainder
  else
    match fileIds.filter fun id => ('/' :: remainder).isSuffixOf id with
    | [first] => some first
    | _ => none

def resolveBy (fromId : Str) (fileIds : List Str) (spec : Specifier) : Option Str :=
  match spec.method with
  | .jsRegex => resolveSpecifier fromId spec.text fileIds
  | .shVarPrefix => resolveVarPrefixed spec.text fileIds
  | _ => resolveExact fromId spec.text fileIds

/-! ### Staging -/

structure Staged where
  seen : List (Str × Str)
  edges : List Edge

def linkEdge (table : RelTable) (fromId target : Str) (method : Method) : Edge :=
  { table := table
    source := fromId
    target := target
    props := [("confidence".toList, "1.0".toList),
      ("resolution_method".toList, '\'' :: (method.asStr ++ ['\'']))] }

def stageSpec (fromId : Str) (fileIds : List Str) (table : RelTable) (acc : Staged)
    (spec : Specifier) : Staged :=
  match resolveBy fromId fileIds spec with
  | none => acc
  | some target =>
      if target = fromId then acc
      else if (fromId, target) ∈ acc.seen then acc
      else
        { seen := (fromId, target) :: acc.seen
          edges := acc.edges ++ [linkEdge table fromId target spec.method] }

def stageEdges (fromId : Str) (specs : List Specifier) (fileIds : List Str) (table : RelTable)
    (acc : Staged) : Staged :=
  specs.foldl (stageSpec fromId fileIds table) acc

/-! ### Files -/

def maxParseBytes : Nat := 1048576

/-- `Path::extension` of a file name. -/
def extension (name : Str) : Option Str :=
  match rfind ['.'] name with
  | some (i + 1) => some (name.drop (i + 2))
  | _ => none

def jsExts : List String := ["js", "jsx", "mjs", "cjs"]

def mdExts : List String := ["md", "markdown", "mdx"]

def shExts : List String := ["sh", "bash"]

def readText (f : SourceFile) : Option Str :=
  match f.text with
  | .error _ => none
  | .ok s => if maxParseBytes < utf8Len s then none else some s

def specsForFile (f : SourceFile) : Option (RelTable × List Specifier) :=
  let ext := ((extension f.name.1).getD []).map Char.toLower
  if ext ∈ jsExts.map String.toList then
    (readText f).map fun src =>
      (importsFileFile, (extractRelativeSpecifiers src).map (Specifier.mk · .jsRegex))
  else if ext ∈ mdExts.map String.toList then
    (readText f).map fun src => (referencesFileFile, extractMarkdownSpecifiers src)
  else if ext ∈ shExts.map String.toList then
    (readText f).map fun src => (referencesFileFile, extractShellSpecifiers src)
  else none

def stageFile (fileIds : List Str) (acc : Staged) (f : SourceFile) : Staged :=
  match specsForFile f with
  | none => acc
  | some (table, specs) => stageEdges f.relId specs fileIds table acc

/-- `link_file_imports_for`: the links out of `sources`, resolved against the ids
of `allFiles`. -/
def linkFileImportsFor (store : GraphStore) (sources allFiles : List SourceFile) : GraphStore :=
  let fileIds := (allFiles.map SourceFile.relId).dedup
  store.insertEdges (sources.foldl (stageFile fileIds) ⟨[], []⟩).edges

def linkLooseFileImports (store : GraphStore) (files : List SourceFile) : GraphStore :=
  linkFileImportsFor store files files

/-- What one file links to when these files are indexed. -/
def linksOf (fileIds : List Str) (f : SourceFile) : List Edge :=
  (stageFile fileIds ⟨[], []⟩ f).edges

/-! ### What is staged -/

theorem mem_of_find {ids candidates : List Str} {target : Str}
    (h : candidates.find? (· ∈ ids) = some target) : target ∈ ids := by
  simpa using List.find?_some h

/-- A specifier resolves to an indexed file, or to nothing. -/
theorem resolveBy_mem {fromId : Str} {fileIds : List Str} {spec : Specifier} {target : Str}
    (h : resolveBy fromId fileIds spec = some target) : target ∈ fileIds := by
  unfold resolveBy at h
  split at h
  · exact mem_of_find h
  · unfold resolveVarPrefixed at h
    split at h
    · rename_i hmem
      cases h
      exact hmem
    · split at h
      · rename_i first hfilter
        cases h
        have hmem : target ∈ fileIds.filter fun id => ('/' :: spec.text).isSuffixOf id := by
          rw [hfilter]
          exact List.mem_singleton_self target
        exact List.mem_of_mem_filter hmem
      · cases h
  · exact mem_of_find h

/-- A link goes from the file to an indexed one, between File nodes. -/
structure IsLink (fileIds : List Str) (f : SourceFile) (e : Edge) : Prop where
  table : e.table = importsFileFile ∨ e.table = referencesFileFile
  source : e.source = f.relId
  target : e.target ∈ fileIds

theorem specsForFile_table {f : SourceFile} {table : RelTable} {specs : List Specifier}
    (h : specsForFile f = some (table, specs)) :
    table = importsFileFile ∨ table = referencesFileFile := by
  unfold specsForFile at h
  dsimp only at h
  split at h
  · obtain ⟨_, _, heq⟩ := Option.map_eq_some_iff.mp h
    cases heq
    exact .inl rfl
  · split at h
    · obtain ⟨_, _, heq⟩ := Option.map_eq_some_iff.mp h
      cases heq
      exact .inr rfl
    · split at h
      · obtain ⟨_, _, heq⟩ := Option.map_eq_some_iff.mp h
        cases heq
        exact .inr rfl
      · cases h

/-- The accumulator of one file behind one of other files. -/
def Staged.append (before acc : Staged) : Staged :=
  { seen := acc.seen ++ before.seen, edges := before.edges ++ acc.edges }

section Staging

variable {fileIds : List Str} {before : Staged} {f : SourceFile}

theorem stageSpec_append {fromId : Str} {table : RelTable} {acc : Staged} {spec : Specifier}
    (hnew : ∀ target, (fromId, target) ∉ before.seen) :
    stageSpec fromId fileIds table (before.append acc) spec =
      before.append (stageSpec fromId fileIds table acc spec) := by
  have hseen : ∀ target, (fromId, target) ∈ (before.append acc).seen ↔
      (fromId, target) ∈ acc.seen := by
    intro target
    simp [Staged.append, hnew]
  unfold stageSpec
  split
  · rfl
  · simp only [hseen]
    split
    · rfl
    · split
      · rfl
      · simp [Staged.append]

theorem stageEdges_append {fromId : Str} {table : RelTable} {specs : List Specifier}
    (hnew : ∀ target, (fromId, target) ∉ before.seen) (acc : Staged) :
    stageEdges fromId specs fileIds table (before.append acc) =
      before.append (stageEdges fromId specs fileIds table acc) := by
  induction specs generalizing acc with
  | nil => rfl
  | cons spec specs ih =>
      change stageEdges fromId specs fileIds table (stageSpec fromId fileIds table _ spec) = _
      rw [stageSpec_append hnew, ih]
      rfl

/-- A file stages its own links, whatever other files staged before. -/
theorem stageFile_append (hnew : ∀ target, (f.relId, target) ∉ before.seen) :
    stageFile fileIds before f = before.append (stageFile fileIds ⟨[], []⟩ f) := by
  unfold stageFile
  split
  · simp [Staged.append]
  · rw [← stageEdges_append hnew]
    simp [Staged.append]

/-- The pairs start at the file, the edges are its links. -/
structure OwnStaged (fileIds : List Str) (f : SourceFile) (acc : Staged) : Prop where
  seen : ∀ p ∈ acc.seen, p.1 = f.relId
  edges : ∀ e ∈ acc.edges, IsLink fileIds f e

theorem ownStaged_nil : OwnStaged fileIds f ⟨[], []⟩ where
  seen := by simp
  edges := by simp

theorem OwnStaged.stageSpec {acc : Staged} {table : RelTable} {spec : Specifier}
    (h : OwnStaged fileIds f acc) (htable : table = importsFileFile ∨ table = referencesFileFile) :
    OwnStaged fileIds f (stageSpec f.relId fileIds table acc spec) := by
  unfold Indexer.stageSpec
  split
  · exact h
  · rename_i target htarget
    split
    · exact h
    · split
      · exact h
      · constructor
        · intro p hp
          rcases List.mem_cons.mp hp with rfl | hp
          · rfl
          · exact h.seen p hp
        · intro e he
          rcases List.mem_append.mp he with he | he
          · exact h.edges e he
          · rw [List.mem_singleton.mp he]
            exact ⟨htable, rfl, resolveBy_mem htarget⟩

theorem ownStaged_stageFile (fileIds : List Str) (f : SourceFile) :
    OwnStaged fileIds f (stageFile fileIds ⟨[], []⟩ f) := by
  unfold stageFile
  split
  · exact ownStaged_nil
  · rename_i table specs hspecs
    have htable := specsForFile_table hspecs
    refine Run.foldl_invariant (fun _ acc => OwnStaged fileIds f acc) ownStaged_nil ?_
    intro _ spec _ acc _ hacc
    exact hacc.stageSpec htable

theorem linksOf_isLink {e : Edge} (h : e ∈ linksOf fileIds f) : IsLink fileIds f e :=
  (ownStaged_stageFile fileIds f).edges e h

/-- The links of several files are those of each. -/
theorem stageFiles_edges {files : List SourceFile} (hnodup : (files.map SourceFile.relId).Nodup) :
    (files.foldl (stageFile fileIds) ⟨[], []⟩).edges = files.flatMap (linksOf fileIds) := by
  have hrun : ∀ (files : List SourceFile) (before : Staged),
      (files.map SourceFile.relId).Nodup →
      (∀ f ∈ files, ∀ target, (f.relId, target) ∉ before.seen) →
      (files.foldl (stageFile fileIds) before).edges =
        before.edges ++ files.flatMap (linksOf fileIds) := by
    intro files
    induction files with
    | nil => simp
    | cons f files ih =>
        intro before hnodup hnew
        rw [List.map_cons, List.nodup_cons] at hnodup
        have hfirst := hnew f List.mem_cons_self
        rw [List.foldl_cons, stageFile_append hfirst, ih _ hnodup.2]
        · simp [Staged.append, linksOf]
        · intro g hg target hmem
          rcases List.mem_append.mp hmem with hown | hold
          · have hsource := (ownStaged_stageFile fileIds f).seen _ hown
            exact hnodup.1 (List.mem_map.mpr ⟨g, hg, hsource⟩)
          · exact hnew g (List.mem_cons_of_mem _ hg) target hold
  exact hrun files ⟨[], []⟩ hnodup (by simp)

end Staging

end AutomatisedPipeline.Indexer

import AutomatisedPipeline.Store.PropertyGraph
import AutomatisedPipeline.Text.Basic

/-!
Paths of a source tree. A file is named by the directories above it and its own
name; its File node by the text of that path, relative to the walk root. The
nodes of its symbols have ids that begin with the path and `::`.

The node and relationship tables that an index writes: directories, files and
parsed symbols; containment, the structure inside a file, and the links between
files. The columns of a symbol are a function of what the parser extracted and
of the language, so its row is kept as that pair.
-/

namespace AutomatisedPipeline.Indexer

open Text Store

/-- A name the walk reads from a directory. -/
abbrev FileName : Type := { s : Str // s ≠ [] ∧ '/' ∉ s ∧ s ≠ ['.'] ∧ s ≠ ['.', '.'] }

/-- `to_string_lossy` of a relative path. -/
def pathString (p : List FileName) : Str := ['/'].intercalate (p.map Subtype.val)

/-- A file of the walk: its directories below the root, its name, its length in
bytes, and what `read_to_string` returns of it. -/
structure SourceFile where
  dirs : List FileName
  name : FileName
  size : Nat
  text : Except Str Str
deriving DecidableEq

namespace SourceFile

def path (f : SourceFile) : List FileName := f.dirs ++ [f.name]

/-- `relative_path(root, file).to_string_lossy()`. -/
def relativePath (f : SourceFile) : Str := pathString f.path

/-- `rel_id(root, file)`: backslashes become slashes. -/
def relId (f : SourceFile) : Str := f.relativePath.map fun c => if c = '\\' then '/' else c

end SourceFile

/-- The directories on the way down from `prev` through `rest`. -/
def dirPaths (prev : List FileName) : List FileName → List (List FileName)
  | [] => []
  | component :: rest => (prev ++ [component]) :: dirPaths (prev ++ [component]) rest

/-- The directories above a file, below the root. -/
def SourceFile.ancestors (f : SourceFile) : List (List FileName) := dirPaths [] f.dirs

/-- The directories above the files of a tree. -/
def dirsOf (files : List SourceFile) : Finset (List FileName) :=
  (files.flatMap SourceFile.ancestors).toFinset

/-! ### The text of a path -/

theorem pathString_singleton (c : FileName) : pathString [c] = c.1 := by
  simp [pathString, List.intercalate]

theorem pathString_cons (c : FileName) {p : List FileName} (hp : p ≠ []) :
    pathString (c :: p) = c.1 ++ '/' :: pathString p := by
  obtain ⟨d, p, rfl⟩ := List.exists_cons_of_ne_nil hp
  simp [pathString, List.intercalate]

theorem pathString_append {p q : List FileName} (hp : p ≠ []) (hq : q ≠ []) :
    pathString (p ++ q) = pathString p ++ '/' :: pathString q := by
  induction p with
  | nil => exact absurd rfl hp
  | cons c p ih =>
      by_cases hnil : p = []
      · subst hnil
        rw [List.singleton_append, pathString_cons c hq, pathString_singleton]
      · rw [List.cons_append, pathString_cons c (by simp [hnil]), pathString_cons c hnil,
          ih hnil, List.append_assoc, List.cons_append]

theorem pathString_ne_nil {p : List FileName} (hp : p ≠ []) : pathString p ≠ [] := by
  obtain ⟨c, p, rfl⟩ := List.exists_cons_of_ne_nil hp
  by_cases hnil : p = []
  · subst hnil
    rw [pathString_singleton]
    exact c.2.1
  · rw [pathString_cons c hnil]
    simp

/-- A path is read back from its text. -/
theorem pathString_injective {p q : List FileName} (hp : p ≠ []) (hq : q ≠ [])
    (h : pathString p = pathString q) : p = q := by
  have hsplit : ∀ {r : List FileName}, r ≠ [] →
      (pathString r).splitOn '/' = r.map Subtype.val := by
    intro r hr
    refine List.splitOn_intercalate '/' ?_ (mt List.map_eq_nil_iff.mp hr)
    intro s hs
    obtain ⟨c, _, rfl⟩ := List.mem_map.mp hs
    exact c.2.2.1
  refine List.map_injective_iff.mpr Subtype.val_injective ?_
  rw [← hsplit hp, ← hsplit hq, h]

theorem SourceFile.path_ne_nil (f : SourceFile) : f.path ≠ [] := by simp [SourceFile.path]

theorem SourceFile.path_eq {f g : SourceFile} (h : f.relativePath = g.relativePath) :
    f.dirs = g.dirs ∧ f.name = g.name := by
  have hpath := pathString_injective f.path_ne_nil g.path_ne_nil h
  simpa [SourceFile.path, List.append_inj'] using hpath

theorem relId_of_plain {f : SourceFile} (h : '\\' ∉ f.relativePath) : f.relId = f.relativePath := by
  unfold SourceFile.relId
  conv_rhs => rw [← List.map_id f.relativePath]
  refine List.map_congr_left fun c hc => if_neg ?_
  rintro rfl
  exact h hc

/-! ### Ancestors -/

theorem mem_dirPaths {prev rest p : List FileName} :
    p ∈ dirPaths prev rest ↔ ∃ q, q ≠ [] ∧ q <+: rest ∧ p = prev ++ q := by
  induction rest generalizing prev with
  | nil => simp [dirPaths]
  | cons c rest ih =>
      rw [dirPaths, List.mem_cons, ih]
      constructor
      · rintro (rfl | ⟨q, hq, hpre, rfl⟩)
        · exact ⟨[c], by simp, by simp, rfl⟩
        · exact ⟨c :: q, by simp, by simpa using hpre, by simp⟩
      · rintro ⟨q, hq, hpre, rfl⟩
        obtain ⟨d, q, rfl⟩ := List.exists_cons_of_ne_nil hq
        rw [List.cons_prefix_cons] at hpre
        obtain ⟨rfl, hpre⟩ := hpre
        by_cases hnil : q = []
        · exact .inl (by rw [hnil])
        · exact .inr ⟨q, hnil, hpre, by simp⟩

theorem mem_ancestors {f : SourceFile} {p : List FileName} :
    p ∈ f.ancestors ↔ p ≠ [] ∧ p <+: f.dirs := by
  simp [SourceFile.ancestors, mem_dirPaths]

theorem mem_dirsOf {files : List SourceFile} {p : List FileName} :
    p ∈ dirsOf files ↔ ∃ f ∈ files, p ≠ [] ∧ p <+: f.dirs := by
  simp [dirsOf, mem_ancestors]

theorem ne_nil_of_mem_dirsOf {files : List SourceFile} {p : List FileName}
    (h : p ∈ dirsOf files) : p ≠ [] := by
  obtain ⟨_, _, hp, _⟩ := mem_dirsOf.mp h
  exact hp

/-- A directory above a file has a shorter text, which a slash follows. -/
theorem SourceFile.dir_prefix {f : SourceFile} {p : List FileName} (hp : p ≠ [])
    (hpre : p <+: f.dirs) : pathString p ++ ['/'] <+: f.relativePath := by
  obtain ⟨q, hq⟩ := hpre
  have hpath : f.path = p ++ (q ++ [f.name]) := by
    rw [SourceFile.path, ← hq, List.append_assoc]
  rw [SourceFile.relativePath, hpath, pathString_append hp (by simp)]
  exact ⟨_, by rw [List.append_assoc, List.singleton_append]⟩

/-! ### Symbol ids -/

/-- What the ids of the symbols of a file begin with. -/
def symbolPrefix (rel : Str) : Str := rel ++ [':', ':']

/-- `starts_with(id, "<rel>::")`. -/
def Within (rel id : Str) : Prop := symbolPrefix rel <+: id

instance (rel id : Str) : Decidable (Within rel id) :=
  inferInstanceAs (Decidable (symbolPrefix rel <+: id))

theorem Within.length_lt {rel id : Str} (h : Within rel id) : rel.length < id.length := by
  have := h.length_le
  simp only [symbolPrefix, List.length_append, List.length_cons] at this
  omega

theorem not_within_self (rel : Str) : ¬Within rel rel := fun h => Nat.lt_irrefl _ h.length_lt

/-- Neither path, followed by `::`, begins the other one followed by `::`. -/
def Apart (rel rel' : Str) : Prop :=
  ¬symbolPrefix rel <+: symbolPrefix rel' ∧ ¬symbolPrefix rel' <+: symbolPrefix rel

instance (rel rel' : Str) : Decidable (Apart rel rel') := instDecidableAnd

theorem Apart.symm {rel rel' : Str} (h : Apart rel rel') : Apart rel' rel := ⟨h.2, h.1⟩

/-- The symbols of two files that are apart have different ids. -/
theorem Apart.within {rel rel' id : Str} (h : Apart rel rel') (hid : Within rel id) :
    ¬Within rel' id := by
  intro hid'
  rcases List.prefix_or_prefix_of_prefix hid hid' with hpre | hpre
  · exact h.1 hpre
  · exact h.2 hpre

/-- No symbol of a file has the path of one that is apart as its id. -/
theorem Apart.not_within {rel rel' : Str} (h : Apart rel rel') : ¬Within rel rel' := by
  intro hid
  exact h.1 (hid.trans (List.prefix_append _ _))

inductive Language where
  | rust | python | typeScript | java | kotlin | swift | objC | c | cpp | go | ruby
deriving DecidableEq, Repr

def Language.fromExtension (ext : Str) : Option Language :=
  if ext = "rs".toList then some .rust
  else if ext = "py".toList then some .python
  else if ext = "ts".toList ∨ ext = "tsx".toList then some .typeScript
  else if ext = "java".toList then some .java
  else if ext = "kt".toList ∨ ext = "kts".toList then some .kotlin
  else if ext = "swift".toList then some .swift
  else if ext = "m".toList ∨ ext = "mm".toList then some .objC
  else if ext = "c".toList ∨ ext = "h".toList then some .c
  else if ext = "cc".toList ∨ ext = "cpp".toList ∨ ext = "cxx".toList ∨ ext = "hh".toList ∨
      ext = "hpp".toList ∨ ext = "hxx".toList then some .cpp
  else if ext = "go".toList then some .go
  else if ext = "rb".toList then some .ruby
  else if ext = "js".toList ∨ ext = "jsx".toList ∨ ext = "mjs".toList ∨ ext = "cjs".toList then
    some .typeScript
  else none

/-- The labels the language parsers emit. -/
inductive SymbolLabel where
  | «module» | function | method | struct | enum | variant | trait | field | constant | typeAlias
  | «import» | callSite
deriving DecidableEq, Repr

inductive Label where
  | directory
  | file
  | symbol (label : SymbolLabel)
deriving DecidableEq, Repr

structure ExtractedNode where
  label : SymbolLabel
  name : Str
  qualifiedName : Str
  startLine : Nat
  endLine : Nat
  visibility : Str
  properties : List (Str × Str)
deriving DecidableEq, Repr

inductive Node where
  | directory (id name : Str)
  | file (id name extension : Str) (sizeBytes parseErrors : Nat)
  | symbol (node : ExtractedNode) (language : Language)
deriving DecidableEq, Repr

abbrev Key : Type := Label × Str

/-- The label and the `id` of a node. -/
def Node.key : Node → Key
  | .directory id _ => (.directory, id)
  | .file id _ _ _ _ => (.file, id)
  | .symbol node _ => (.symbol node.label, node.qualifiedName)

inductive RelKind where
  | contains | defines | hasMethod | hasField | hasVariant
  | imports | references | calls | implements | «extends» | uses
deriving DecidableEq, Repr

/-- A relationship table `{Kind}_{From}_{To}`. -/
structure RelTable where
  kind : RelKind
  source : Label
  target : Label
deriving DecidableEq, Repr

structure Edge where
  table : RelTable
  source : Str
  target : Str
  props : List (Str × Str)
deriving DecidableEq, Repr

def Edge.sourceKey (e : Edge) : Key := (e.table.source, e.source)

def Edge.targetKey (e : Edge) : Key := (e.table.target, e.target)

instance : Schema Node Edge Key := ⟨Node.key, Edge.sourceKey, Edge.targetKey⟩

abbrev GraphStore : Type := Store.Graph Node Edge

/-- The tables of `REL_TABLES` that hold the structure inside a file. -/
def structuralTables : List RelTable :=
  let defines := RelTable.mk .defines
  [ defines .file (.symbol .function), defines .file (.symbol .struct),
    defines .file (.symbol .enum), defines .file (.symbol .trait),
    defines .file (.symbol .constant), defines .file (.symbol .typeAlias),
    defines .file (.symbol .«import»), defines (.symbol .«module») (.symbol .«import»),
    defines (.symbol .«module») (.symbol .function), defines (.symbol .«module») (.symbol .struct),
    defines (.symbol .«module») (.symbol .enum), defines (.symbol .«module») (.symbol .trait),
    defines (.symbol .«module») (.symbol .constant),
    defines (.symbol .«module») (.symbol .typeAlias),
    ⟨.hasMethod, .symbol .struct, .symbol .method⟩, ⟨.hasMethod, .symbol .enum, .symbol .method⟩,
    ⟨.hasMethod, .symbol .trait, .symbol .method⟩,
    ⟨.hasField, .symbol .struct, .symbol .field⟩, ⟨.hasField, .symbol .enum, .symbol .field⟩,
    ⟨.hasVariant, .symbol .enum, .symbol .variant⟩,
    defines (.symbol .function) (.symbol .callSite),
    defines (.symbol .method) (.symbol .callSite) ]

/-- `is_known_rel_table`, for a table of the structure inside a file. -/
def isKnownRelTable (table : RelTable) : Bool := table ∈ structuralTables

def containsDirFile : RelTable := ⟨.contains, .directory, .file⟩

def containsDirDir : RelTable := ⟨.contains, .directory, .directory⟩

def importsFileFile : RelTable := ⟨.imports, .file, .file⟩

def referencesFileFile : RelTable := ⟨.references, .file, .file⟩

/-- The tables that carry edges between files. -/
def isResolutionTable (table : RelTable) : Bool :=
  match table.kind with
  | .imports | .calls | .implements | .«extends» | .uses | .references => true
  | .contains | .defines | .hasMethod | .hasField | .hasVariant => false

end AutomatisedPipeline.Indexer

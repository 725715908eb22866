import AutomatisedPipeline.Cfg.Twin
import AutomatisedPipeline.Logic.Assoc

/-!
The file a node id belongs to (`language_provider/file_prefix.rs`,
`search/qualified_name.rs`) and the import ids of the TypeScript family
(`parser/spec/typescript.rs`).

Two rules read the file out of an id `file::rest`. `file_path_of` cuts at the first
`::`. `extract_file_prefix` tries the extensions of its table in order and cuts at the
first place where `.ext::` stands, wherever that is. `filePrefix_iff` says for which
rests the two agree: those that hold none of the extensions that come before the
file's own one in the table between a dot and `::`. The rest of an import id is the
text of a module specifier with `::` for `/`, and so it can hold one.

What tree-sitter reads of an import statement comes here as data: the text of its
`source` field and the bindings of its clauses.
-/

namespace AutomatisedPipeline.Resolver

open Text Cfg

/-! ### The two rules -/

/-- `file_path_of`. -/
def filePathOf (qualifiedName : Str) : Str :=
  match find "::".toList qualifiedName with
  | some idx => qualifiedName.take idx
  | none => qualifiedName

/-- `extract_file_prefix_or_self`. -/
def extractFilePrefixOrSelf (id : Str) : Str :=
  (extractFilePrefix id).getD id

/-- `qual`. -/
def qual (scope name : Str) : Str := scope ++ "::".toList ++ name

/-! ### The imports of a TypeScript file -/

/-- A child of an `import_clause` that binds something: an identifier, the specifiers
of a `named_imports` group with their aliases, or the alias of a `namespace_import`. -/
inductive ImportBinding where
  | ident (name : Str)
  | named (specifiers : List (Str × Str))
  | star (name : Str)
deriving DecidableEq, Repr

/-- An `import_statement`: the text of its `source` field, its clauses and the rows
where it starts and ends. -/
structure ImportStatement where
  source : Option Str
  clauses : List (List ImportBinding)
  startRow : Nat
  endRow : Nat
deriving DecidableEq, Repr

/-- `ImportEntry`. -/
structure ImportEntry where
  displayName : Str
  qualifiedName : Str
  refTo : Str
  properties : List (Str × Str)
  visibility : Str
  startLine : Nat
  endLine : Nat
deriving DecidableEq, Repr

/-- `str::trim_matches` of both quotes. -/
def trimQuotes (text : Str) : Str :=
  ((text.dropWhile fun c => c = '\'' || c = '"').reverse.dropWhile
    fun c => c = '\'' || c = '"').reverse

/-- The module path: the specifier without its quotes, with `::` for every `/`. -/
def ImportStatement.modulePath (stmt : ImportStatement) : Str :=
  (stmt.source.map fun text => replace ['/'] "::".toList (trimQuotes text)).getD []

/-- `push_import`: what it pushes. -/
def pushImport (scope path aliasText : Str) (isGlob : Bool) (startLine endLine : Nat) :
    List ImportEntry :=
  if path.isEmpty then []
  else
    let displayName :=
      if !aliasText.isEmpty then aliasText
      else if isGlob then path ++ "::*".toList
      else path
    [{ displayName
       qualifiedName := qual scope displayName
       refTo := qual scope displayName
       properties := [
        ("path".toList, path),
        ("alias".toList, aliasText),
        ("is_glob".toList, if isGlob then "true".toList else "false".toList)]
       visibility := []
       startLine
       endLine }]

/-- `collect_named_imports`. -/
def collectNamedImports (specifiers : List (Str × Str)) (scope modulePath : Str)
    (startLine endLine : Nat) : List ImportEntry :=
  specifiers.flatMap fun specifier =>
    pushImport scope (modulePath ++ "::".toList ++ specifier.1) specifier.2 false
      startLine endLine

/-- `collect_import_clause`. -/
def collectImportClause (clause : List ImportBinding) (scope modulePath : Str)
    (startLine endLine : Nat) : List ImportEntry :=
  clause.flatMap fun child =>
    match child with
    | .ident name =>
        pushImport scope (modulePath ++ "::default".toList) name false startLine endLine
    | .named specifiers =>
        collectNamedImports specifiers scope modulePath startLine endLine
    | .star name => pushImport scope modulePath name true startLine endLine

/-- `ts_imports_of`. -/
def tsImportsOf (stmt : ImportStatement) (scope : Str) : List ImportEntry :=
  let startLine := stmt.startRow + 1
  let endLine := stmt.endRow + 1
  if stmt.clauses.isEmpty && !stmt.modulePath.isEmpty then
    -- a side-effect import
    pushImport scope stmt.modulePath [] false startLine endLine
  else
    stmt.clauses.flatMap fun clause =>
      collectImportClause clause scope stmt.modulePath startLine endLine

/-- `build_file_import_map`, over the rows of the imports: their ids and paths. -/
def buildFileImportMap (rows : List (Str × Str)) : List (Str × List Str) :=
  rows.foldl (fun map row => Assoc.upsert (extractFilePrefixOrSelf row.1) [] (· ++ [row.2]) map) []

/-! ### Where an extension stands in an id -/

/-- A path of the repository with a recognised extension and no `::` in it. -/
structure SourcePath where
  stem : Str
  ext : Str
  recognised : ext ∈ allExtensions
  single : ¬ "::".toList <:+: stem ++ '.' :: ext

namespace SourcePath

variable (file : SourcePath) (rest : Str)

def path : Str := file.stem ++ '.' :: file.ext

/-- The id of what the parser finds in the file. -/
def id : Str := qual file.path rest

/-- The extensions that `extract_file_prefix` tries before the file's own. -/
def earlier : List Str := allExtensions.takeWhile fun ext => ext ≠ file.ext

/-- The table up to the file's own extension. -/
theorem table_split :
    ∃ later, allExtensions = file.earlier ++ file.ext :: later ∧ file.ext ∉ file.earlier := by
  obtain ⟨before, later, hsplit, hnotin⟩ := List.eq_append_cons_of_mem file.recognised
  have hearlier : file.earlier = before := by
    have hbefore : ∀ ext ∈ before, decide (ext ≠ file.ext) = true := by
      intro ext hext
      rw [decide_eq_true_iff]
      rintro rfl
      exact hnotin hext
    rw [earlier, hsplit, List.takeWhile_append_of_pos hbefore]
    simp
  exact ⟨later, by rw [hearlier, hsplit], by rwa [hearlier]⟩

end SourcePath

/-- No extension of the table holds a colon or a dot. -/
theorem extension_chars {ext : Str} (h : ext ∈ allExtensions) : ':' ∉ ext ∧ '.' ∉ ext := by
  revert ext
  decide

/-- What begins with `.ext::` inside `w::rest`, where `w` holds no `::` and does not
end in a colon, begins with `.ext` and stands at its end. -/
theorem marker_prefix_iff {ext w rest : Str} (hext : ':' ∉ ext) (hne : w ≠ [])
    (hsingle : ¬ "::".toList <:+: w) (hlast : w.getLast? ≠ some ':') :
    '.' :: ext ++ "::".toList <+: w ++ "::".toList ++ rest ↔ w = '.' :: ext := by
  constructor
  · rintro ⟨tail, htail⟩
    rw [List.append_assoc, List.append_assoc, List.append_eq_append_iff] at htail
    rcases htail with ⟨a, hw, ha⟩ | ⟨a, he, ha⟩
    · -- what is left of `w` after the extension begins with the colons
      rcases a with _ | ⟨c, _ | ⟨d, a⟩⟩
      · simpa using hw
      · obtain ⟨rfl, -⟩ : ':' = c ∧ _ := by simpa using ha
        exact absurd (by rw [hw, List.getLast?_concat]) hlast
      · obtain ⟨rfl, rfl, -⟩ : ':' = c ∧ ':' = d ∧ _ := by simpa using ha
        exact absurd ⟨'.' :: ext, a, by simp [hw]⟩ hsingle
    · rcases a with _ | ⟨c, a⟩
      · simpa using he.symm
      · obtain ⟨rfl, -⟩ : ':' = c ∧ _ := by simpa using ha
        rcases w with _ | ⟨d, w⟩
        · exact absurd rfl hne
        · obtain ⟨-, rfl⟩ : '.' = d ∧ ext = w ++ ':' :: a := by simpa using he
          exact absurd (by simp) hext
  · rintro rfl
    exact ⟨rest, by simp⟩

/-- `::` does not begin in a text that holds no `::` and does not end in a colon. -/
theorem separator_not_prefix {w rest : Str} (hne : w ≠ []) (hsingle : ¬ "::".toList <:+: w)
    (hlast : w.getLast? ≠ some ':') : ¬ "::".toList <+: w ++ ("::".toList ++ rest) := by
  rintro ⟨tail, htail⟩
  rcases w with _ | ⟨c, _ | ⟨d, w⟩⟩
  · exact hne rfl
  · obtain ⟨rfl, -⟩ : ':' = c ∧ _ := by simpa using htail
    exact hlast rfl
  · obtain ⟨rfl, rfl, -⟩ : ':' = c ∧ ':' = d ∧ _ := by simpa using htail
    exact hsingle ⟨[], w, rfl⟩

/-- The last dot of a text is in one place. -/
theorem append_dot_inj {a b c d : Str} (hb : '.' ∉ b) (hd : '.' ∉ d)
    (h : a ++ '.' :: b = c ++ '.' :: d) : a = c ∧ b = d := by
  rw [List.append_eq_append_iff] at h
  rcases h with ⟨e, rfl, he⟩ | ⟨e, rfl, he⟩
  · rcases e with _ | ⟨x, e⟩
    · exact ⟨by simp, by simpa using he⟩
    · obtain ⟨-, rfl⟩ : '.' = x ∧ b = e ++ '.' :: d := by simpa using he
      exact absurd (by simp) hb
  · rcases e with _ | ⟨x, e⟩
    · exact ⟨by simp, by simpa using he.symm⟩
    · obtain ⟨-, rfl⟩ : '.' = x ∧ d = e ++ '.' :: b := by simpa using he
      exact absurd (by simp) hd

namespace SourcePath

variable (file : SourcePath) (rest : Str)

theorem path_getLast : file.path.getLast? ≠ some ':' := by
  intro h
  have hlast : ('.' :: file.ext).getLast? = some ':' := by
    rwa [path, List.getLast?_append_of_ne_nil _ (by simp)] at h
  have hmem := List.mem_of_getLast? hlast
  simp [(extension_chars file.recognised).1] at hmem

theorem length_path : file.path.length = file.stem.length + file.ext.length + 1 := by
  simp [path, Nat.add_assoc]

/-- `.ext::` stands in the id where the path ends, for the extension of the file, and
in the rest. -/
theorem marker_drop_iff {ext : Str} (hext : ext ∈ allExtensions) (j : Nat) :
    '.' :: ext ++ "::".toList <+: (file.id rest).drop j ↔
      (j = file.stem.length ∧ ext = file.ext) ∨
        ∃ k, j = file.path.length + 2 + k ∧ '.' :: ext ++ "::".toList <+: rest.drop k := by
  have hid : file.id rest = file.path ++ ("::".toList ++ rest) := by
    rw [id, qual, List.append_assoc]
  have hlen := file.length_path
  rcases Nat.lt_or_ge j file.path.length with hj | hj
  · rw [hid, List.drop_append_of_le_length hj.le, ← List.append_assoc,
      marker_prefix_iff (extension_chars hext).1]
    · constructor
      · intro h
        have hsplit : file.path.take j ++ '.' :: ext = file.stem ++ '.' :: file.ext := by
          rw [← h, List.take_append_drop, path]
        obtain ⟨hstem, rfl⟩ := append_dot_inj (extension_chars hext).2
          (extension_chars file.recognised).2 hsplit
        refine .inl ⟨?_, rfl⟩
        rw [← hstem, List.length_take, Nat.min_eq_left hj.le]
      · rintro (⟨rfl, rfl⟩ | ⟨k, hk, -⟩)
        · rw [path, List.drop_left]
        · omega
    · intro h
      have := congrArg List.length h
      simp only [List.length_drop, List.length_nil] at this
      omega
    · intro h
      exact file.single (h.trans (List.drop_suffix j _).isInfix)
    · rw [List.getLast?_drop, if_neg (by omega)]
      exact file.path_getLast
  · obtain ⟨m, rfl⟩ := Nat.exists_eq_add_of_le hj
    have hdrop : (file.id rest).drop (file.path.length + m) = ("::".toList ++ rest).drop m := by
      rw [hid, List.drop_length_add_append]
    rw [hdrop]
    rcases m with _ | _ | k
    · constructor
      · rintro ⟨tail, htail⟩
        simp at htail
      · rintro (⟨h, -⟩ | ⟨k, h, -⟩) <;> omega
    · constructor
      · rintro ⟨tail, htail⟩
        simp at htail
      · rintro (⟨h, -⟩ | ⟨k, h, -⟩) <;> omega
    · have hrest : ("::".toList ++ rest).drop (k + 1 + 1) = rest.drop k := rfl
      rw [hrest]
      constructor
      · intro h
        exact .inr ⟨k, by omega, h⟩
      · rintro (⟨h, -⟩ | ⟨k', h, hat⟩)
        · omega
        · obtain rfl : k' = k := by omega
          exact hat

/-- The file's own extension is found where the path ends. -/
theorem find_own : find ('.' :: file.ext ++ "::".toList) (file.id rest) =
    some file.stem.length := by
  refine find_eq_some_iff.mpr ⟨?_, ?_, ?_⟩
  · simp [id, qual, path]
  · exact (file.marker_drop_iff rest file.recognised _).mpr (.inl ⟨rfl, rfl⟩)
  · intro j hj h
    have hlen := file.length_path
    rcases (file.marker_drop_iff rest file.recognised j).mp h with ⟨rfl, -⟩ | ⟨k, rfl, -⟩
    · exact absurd hj (lt_irrefl _)
    · omega

/-- Another extension is found behind the path, if at all. -/
theorem find_other {ext : Str} (hext : ext ∈ allExtensions) (hne : ext ≠ file.ext) {i : Nat}
    (h : find ('.' :: ext ++ "::".toList) (file.id rest) = some i) : file.path.length < i := by
  obtain ⟨-, hat, -⟩ := find_eq_some_iff.mp h
  rcases (file.marker_drop_iff rest hext i).mp hat with ⟨-, heq⟩ | ⟨k, rfl, -⟩
  · exact absurd heq hne
  · omega

/-- Another extension is not found exactly when it is not in the rest. -/
theorem find_other_eq_none_iff {ext : Str} (hext : ext ∈ allExtensions) (hne : ext ≠ file.ext) :
    find ('.' :: ext ++ "::".toList) (file.id rest) = none ↔
      ¬ '.' :: ext ++ "::".toList <:+: rest := by
  rw [find_eq_none_iff, not_iff_not]
  constructor
  · rintro ⟨a, b, hab⟩
    have hat : '.' :: ext ++ "::".toList <+: (file.id rest).drop a.length := by
      rw [← hab, List.append_assoc, List.drop_left]
      exact List.prefix_append _ _
    rcases (file.marker_drop_iff rest hext _).mp hat with ⟨-, heq⟩ | ⟨k, -, hk⟩
    · exact absurd heq hne
    · exact hk.isInfix.trans (List.drop_suffix k rest).isInfix
  · intro h
    exact h.trans ⟨file.path ++ "::".toList, [], by simp [id, qual]⟩

/-- The rule that cuts at the first `::` names the file of every id. -/
theorem filePathOf_id : filePathOf (file.id rest) = file.path := by
  have hid : file.id rest = file.path ++ ("::".toList ++ rest) := by
    rw [id, qual, List.append_assoc]
  have hfind : find "::".toList (file.id rest) = some file.path.length := by
    refine find_eq_some_iff.mpr ⟨by simp [hid], by rw [hid, List.drop_left]; simp, ?_⟩
    intro j hj h
    rw [hid, List.drop_append_of_le_length hj.le] at h
    refine separator_not_prefix ?_ ?_ ?_ h
    · intro hnil
      have := congrArg List.length hnil
      simp only [List.length_drop, List.length_nil] at this
      omega
    · intro hin
      exact file.single (hin.trans (List.drop_suffix j _).isInfix)
    · rw [List.getLast?_drop, if_neg (by omega)]
      exact file.path_getLast
  rw [filePathOf, hfind, hid]
  exact List.take_left

end SourcePath

/-! ### When an id names its file -/

/-- The first extension of the table that is found in the id decides. -/
theorem extractFilePrefix_eq_some_iff (file : SourcePath) (rest : Str) :
    extractFilePrefix (file.id rest) = some file.path ↔
      ∀ ext ∈ file.earlier, ¬ '.' :: ext ++ "::".toList <:+: rest := by
  have hfound (ext : Str) (hext : ext ∈ allExtensions) (hne : ext ≠ file.ext) :
      ((find ('.' :: ext ++ "::".toList) (file.id rest)).map fun i =>
        (file.id rest).take (i + ext.length + 1)) ≠ some file.path := by
    intro h
    obtain ⟨i, hi, htake⟩ := Option.map_eq_some_iff.mp h
    have hbehind := file.find_other rest hext hne hi
    have hwithin := find_le hi
    have hlen := congrArg List.length htake
    simp only [List.length_take] at hlen
    omega
  have hown : ((find ('.' :: file.ext ++ "::".toList) (file.id rest)).map fun i =>
      (file.id rest).take (i + file.ext.length + 1)) = some file.path := by
    have hlen : file.stem.length + file.ext.length + 1 = file.path.length :=
      file.length_path.symm
    rw [file.find_own, Option.map_some, hlen, SourcePath.id, qual, List.append_assoc,
      List.take_left]
  obtain ⟨later, hsplit, hnotin⟩ := file.table_split
  have hearlier (ext : Str) (h : ext ∈ file.earlier) : ext ∈ allExtensions ∧ ext ≠ file.ext := by
    refine ⟨(List.takeWhile_prefix _).subset h, ?_⟩
    rintro rfl
    exact hnotin h
  rw [extractFilePrefix, hsplit, List.findSome?_append, List.findSome?_cons, hown]
  cases hearly : file.earlier.findSome? fun ext =>
      (find ('.' :: ext ++ "::".toList) (file.id rest)).map fun i =>
        (file.id rest).take (i + ext.length + 1) with
  | none =>
      rw [List.findSome?_eq_none_iff] at hearly
      refine iff_of_true rfl fun ext hext => ?_
      obtain ⟨hmem, hne⟩ := hearlier ext hext
      rw [← file.find_other_eq_none_iff rest hmem hne]
      exact Option.map_eq_none_iff.mp (hearly ext hext)
  | some other =>
      obtain ⟨ext, hext, hother⟩ := List.exists_of_findSome?_eq_some hearly
      obtain ⟨hmem, hne⟩ := hearlier ext hext
      refine iff_of_false ?_ fun h => ?_
      · rintro ⟨rfl⟩
        exact hfound ext hmem hne hother
      · rw [(file.find_other_eq_none_iff rest hmem hne).mpr (h ext hext)] at hother
        cases hother

/-- An id names its file, and by both rules, exactly when none of the extensions that
come before the file's own one in the table stands in the rest between a dot and
`::`. -/
theorem filePrefix_iff (file : SourcePath) (rest : Str) :
    (extractFilePrefix (file.id rest) = some file.path ∧
        extractFilePrefix (file.id rest) = some (filePathOf (file.id rest))) ↔
      ∀ ext ∈ file.earlier, ¬ '.' :: ext ++ "::".toList <:+: rest := by
  rw [file.filePathOf_id, and_self, extractFilePrefix_eq_some_iff]

/-- A component file, and its import of a type from a module written with its extension. -/
def appFile : SourcePath := ⟨"src/app".toList, "tsx".toList, by decide, by decide⟩

def typesImport : ImportStatement :=
  ⟨some "'./types.ts'".toList, [[.named [("Widget".toList, [])]]], 0, 0⟩

/-- A component file that imports a type from a module written with its extension: the
id of the import names a file that does not exist, and the import is lost to the calls of
its own file. -/
theorem import_of_types_ts_names_another_file :
    ¬ ∀ (file : SourcePath) (stmt : ImportStatement), ∀ entry ∈ tsImportsOf stmt file.path,
      extractFilePrefix entry.qualifiedName = some file.path ∧
        extractFilePrefix entry.qualifiedName = some (filePathOf entry.qualifiedName) := by
  intro h
  have hentry : (tsImportsOf typesImport appFile.path).map ImportEntry.qualifiedName =
      ["src/app.tsx::.::types.ts::Widget".toList] := by
    decide +kernel
  have hnames : ∀ id ∈ (tsImportsOf typesImport appFile.path).map ImportEntry.qualifiedName,
      extractFilePrefix id = some appFile.path := by
    intro id hid
    obtain ⟨entry, hmem, rfl⟩ := List.mem_map.mp hid
    exact (h appFile typesImport entry hmem).1
  rw [hentry] at hnames
  have hpre : extractFilePrefix "src/app.tsx::.::types.ts::Widget".toList =
      some "src/app.tsx::.::types.ts".toList := by
    decide
  have hfile := hnames _ (List.mem_singleton_self _)
  rw [hpre] at hfile
  exact absurd hfile (by decide)

end AutomatisedPipeline.Resolver

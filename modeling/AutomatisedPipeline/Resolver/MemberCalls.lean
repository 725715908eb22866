import AutomatisedPipeline.Logic.Walk
import AutomatisedPipeline.Resolver.CallerLabel
import AutomatisedPipeline.Resolver.Includes

/-!
Which methods a C++ call can name (`resolver/calls/member_calls.rs`).

A receiver's type is a name, and a name stands for classes: those it designates, those its aliases
name, and the bases of all of them. `CppClasses.family` collects the names in a worklist over maps
keyed by the last segment. `Closed` says what the names of a family have to be without the maps,
and a family is the least such set (`family_isLeast`).
-/

namespace AutomatisedPipeline.MemberCalls

open Text Resolver
open Cfg (extractFilePrefix)
open Includes (trimStartMatches)
open Indexer (splitWhitespace)

/-! ### Names -/

/-- The separator of a path. -/
def sep : Str := [':', ':']

/-- `rsplit("::").next()`. -/
def lastSegment (path : Str) : Str := afterLast sep path

/-- `names_class`. -/
def namesClass (path name : Str) : Bool :=
  path == name || (name.isSuffixOf? path).any fun p => sep.isSuffixOf p

/-- The text outside all `<...>`, `depth` of them open. -/
def outsideGenerics : Nat → Str → Str
  | _, [] => []
  | depth, c :: rest =>
      if c = '<' then outsideGenerics (depth + 1) rest
      else if c = '>' then outsideGenerics (depth - 1) rest
      else if depth = 0 then c :: outsideGenerics depth rest
      else outsideGenerics depth rest

/-- The words in front of a base. -/
def baseSpecifiers : List Str :=
  ["public", "protected", "private", "virtual", "typename"].map String.toList

/-- `class_path`. -/
def classPath (raw : Str) : Str :=
  trimStartMatches sep
    ((splitWhitespace (outsideGenerics 0 raw)).dropWhile (· ∈ baseSpecifiers)).flatten

/-- `path_without_file`. -/
def pathWithoutFile (qn : Str) : Str :=
  match extractFilePrefix qn with
  | some file => trimStartMatches sep (qn.drop file.length)
  | none => qn

/-- `owner_of`. -/
def ownerOf (methodQn : Str) : Option Str :=
  let path := pathWithoutFile methodQn
  let path := ((rsplitOnce '#' path).map Prod.fst).getD path
  (rsplitOnceAt sep path).map Prod.fst

example : ownerOf "b.cpp::etl::bloom::width#1".toList = some "etl::bloom".toList := by
  decide +kernel

example : classPath "virtual ns::Base<A, B>".toList = "ns::Base".toList := by decide +kernel

/-! ### The tables -/

/-- `Alias`. -/
structure Alias where
  path : Str
  file : Str
  target : Str
deriving DecidableEq, Repr

/-- `CppClasses`. -/
structure CppClasses where
  bases : List (Str × List Str) := []
  byLast : List (Str × List Str) := []
  aliases : List (Str × List Alias) := []
deriving Repr

/-- The answers of the store to the three queries, `none` where a query fails. -/
structure Answers where
  structs : Option (List (List Str))
  typeAliases : Option (List (List Str))
  constants : Option (List (List Str))
deriving DecidableEq, Repr

/-- The qualified name and the value of the rows of the language. -/
def cppRows (rows : List (List Str)) : List (Str × Str) :=
  rows.filterMap fun
    | qn :: value :: language :: _ => if language = "cpp".toList then some (qn, value) else none
    | _ => none

/-- The value of a column that is not set. -/
def nullText : Str := "Null(String)".toList

/-- The bases a class names. -/
def basesOf (value : Str) : List Str :=
  (((if value = nullText then [] else value).splitOn ',').map classPath).filter (· ≠ [])

def CppClasses.addClass (classes : CppClasses) (row : Str × Str) : CppClasses :=
  let path := pathWithoutFile row.1
  { classes with
    byLast := Assoc.upsert (lastSegment path) [] (· ++ [path]) classes.byLast
    bases := Assoc.upsert path [] (· ++ basesOf row.2) classes.bases }

/-- The alias of a row, unless it names nothing. -/
def aliasOf (row : Str × Str) : Option Alias :=
  let target := classPath row.2
  if row.2 = nullText ∨ target = [] then none
  else some ⟨pathWithoutFile row.1, (extractFilePrefix row.1).getD [], target⟩

def CppClasses.addAlias (classes : CppClasses) (row : Str × Str) : CppClasses :=
  match aliasOf row with
  | none => classes
  | some a => { classes with
      aliases := Assoc.upsert (lastSegment a.path) [] (· ++ [a]) classes.aliases }

/-- `CppClasses::load_aliases`. -/
def CppClasses.loadAliases (classes : CppClasses) (answers : Answers) : CppClasses :=
  [answers.typeAliases, answers.constants].foldl (fun classes answer =>
    match answer with
    | none => classes
    | some rows => (cppRows rows).foldl addAlias classes) classes

/-- `CppClasses::load`. -/
def CppClasses.load (answers : Answers) : CppClasses :=
  match answers.structs with
  | none => {}
  | some rows => ((cppRows rows).foldl addClass {}).loadAliases answers

/-! ### Families -/

/-- `CppClasses::alias_targets`. -/
def CppClasses.aliasTargets (classes : CppClasses) (last name file : Str) : List Str :=
  let named := ((classes.aliases.lookup last).getD []).filter fun a => namesClass a.path name
  let locals := named.filter fun a => a.file = file
  (if locals.isEmpty then named else locals).map Alias.target

/-- What one name puts on the stack. -/
def CppClasses.below (classes : CppClasses) (file current : Str) : List Str :=
  let last := lastSegment current
  (((classes.byLast.lookup last).getD []).flatMap fun path =>
    if namesClass path current then (classes.bases.lookup path).getD [] else []) ++
    classes.aliasTargets last current file

/-- `CppClasses::family`, as the names of the set. The empty name is passed over like one that is in
it already. -/
def CppClasses.family (classes : CppClasses) (fuel : Nat) (name file : Str) : Option (List Str) :=
  Walk.walk id (classes.below file) fuel [name] [[]]

/-- `Family::holds`. -/
def holds (family : List Str) (cls : Str) : Bool := family.any (namesClass cls)

/-- `methods_of`. -/
def methodsOf (family : List Str) (candidates : List SymbolEntry) : List SymbolEntry :=
  candidates.filter fun c => c.label = .method && (ownerOf c.qualifiedName).any (holds family)

/-! ### What a call can name -/

/-- `RECEIVER_HINT_VIA_CPP_THIS`. -/
def viaThis : Str := "cpp-this".toList

/-- `RECEIVER_HINT_VIA_CPP_DECLARED`. -/
def viaDeclared : Str := "cpp-declared".toList

/-- `RECEIVER_HINT_VIA_CPP_QUALIFIER`. -/
def viaQualifier : Str := "cpp-qualifier".toList

/-- `CALLEE_SHAPE_DIRECT`. -/
def shapeDirect : Str := "direct".toList

/-- The rules that leave no candidate: `SCOPE_CPP_RECEIVER_CLASS`, `SCOPE_CPP_QUALIFIER` and
`SCOPE_CPP_UNQUALIFIED_CALL`. -/
inductive ScopeRule where
  | receiverClass | qualifier | unqualifiedCall
deriving DecidableEq, Repr

def ScopeRule.text : ScopeRule → Str
  | .receiverClass => "cpp_receiver_class".toList
  | .qualifier => "cpp_qualifier".toList
  | .unqualifiedCall => "cpp_unqualified_call".toList

/-- `Scoped`. -/
structure Scoped where
  kept : List SymbolEntry
  rule : ScopeRule
deriving DecidableEq, Repr

/-- `is_constructor`. -/
def isConstructor (c : SymbolEntry) (callee : Str) : Bool :=
  c.label = .method && (ownerOf c.qualifiedName).any fun owner => lastSegment owner = callee

/-- `caller_file`. -/
def callerFile (site : Calls.CallSite) : Str := (extractFilePrefix site.callerQn).getD []

section Scope

variable (classes : CppClasses) (fuel : Nat) (site : Calls.CallSite)

/-- `caller_family`. -/
def callerFamily : Option (List Str) :=
  match if site.callerLabel = .method then ownerOf site.callerQn else none with
  | some cls => classes.family fuel cls (callerFile site)
  | none => some []

/-- `unqualified`. -/
def unqualified (candidates : List SymbolEntry) : Option (List SymbolEntry) :=
  (callerFamily classes fuel site).map fun family =>
    let own := methodsOf family candidates
    if own.isEmpty then
      candidates.filter fun c => c.label ≠ .method || isConstructor c site.callee
    else own

/-- `qualified`. -/
def qualified (candidates : List SymbolEntry) : Option (List SymbolEntry) :=
  (classes.family fuel site.receiverHint (callerFile site)).map fun family =>
    let written := trimStartMatches sep site.receiverHint
    let global := site.receiverHint.isEmpty
    candidates.filter fun c =>
      match decide (c.label = .method), ownerOf c.qualifiedName with
      | true, some owner => holds family owner
      | false, some ns => !global && namesClass ns written
      | false, none => global
      | true, none => false

/-- `scope` under the language of the provider: `none` inside for a site the general rules read. -/
def scope (language : Str) (candidates : List SymbolEntry) : Option (Option Scoped) :=
  if language ≠ "cpp".toList ∨ site.calleeShape = [] then some none
  else if site.receiverHintVia = viaThis then
    (callerFamily classes fuel site).map fun family =>
      some ⟨methodsOf family candidates, .receiverClass⟩
  else if site.receiverHintVia = viaDeclared then
    (classes.family fuel site.receiverHint (callerFile site)).map fun family =>
      some ⟨methodsOf family candidates, .receiverClass⟩
  else if site.receiverHintVia = viaQualifier then
    (qualified classes fuel site candidates).map fun kept => some ⟨kept, .qualifier⟩
  else if site.calleeShape = shapeDirect then
    (unqualified classes fuel site candidates).map fun kept => some ⟨kept, .unqualifiedCall⟩
  else some none

end Scope

/-! ### The least family -/

/-- A class of the graph: where it is, and what its bases are called. -/
structure Class where
  path : Str
  bases : List Str
deriving DecidableEq, Repr

/-- What the rows of the structs state. -/
def Answers.classes (answers : Answers) : List Class :=
  (cppRows (answers.structs.getD [])).map fun row => ⟨pathWithoutFile row.1, basesOf row.2⟩

/-- What the rows of the aliases state. Without the structs they are not read. -/
def Answers.aliases (answers : Answers) : List Alias :=
  if answers.structs = none then []
  else (cppRows (answers.typeAliases.getD []) ++ cppRows (answers.constants.getD [])).filterMap
    aliasOf

/-- The classes and the aliases of a repository. A path is made of names joined by the separator,
so that no three colons stand side by side in it. -/
structure CppGraph extends Answers where
  classPaths : ∀ c ∈ toAnswers.classes, ¬ [':', ':', ':'] <:+: c.path
  aliasPaths : ∀ a ∈ toAnswers.aliases, ¬ [':', ':', ':'] <:+: a.path

/-- A class of this path names this base. -/
def CppGraph.HasBase (g : CppGraph) (path base : Str) : Prop :=
  ∃ c ∈ g.classes, c.path = path ∧ base ∈ c.bases

/-- The name stands for the alias in the file: among the aliases it designates, those of the file
are meant if there are any. -/
def CppGraph.StandsFor (g : CppGraph) (file name : Str) (a : Alias) : Prop :=
  a ∈ g.aliases ∧ namesClass a.path name ∧
    (a.file = file ∨ ∀ b ∈ g.aliases, namesClass b.path name → b.file ≠ file)

/-- A set with a name and, with each of its names, the bases of the classes that the name designates
and the targets of the aliases that it stands for. -/
structure Closed (g : CppGraph) (file name : Str) (S : Set Str) : Prop where
  named : name ∈ S
  bases : ∀ n ∈ S, ∀ path base, g.HasBase path base → namesClass path n → base ∈ S
  targets : ∀ n ∈ S, ∀ a, g.StandsFor file n a → a.target ∈ S

/-- Two graphs state the same, in whatever order and however often. -/
structure CppGraph.Same (g g' : CppGraph) : Prop where
  bases : ∀ path base, g.HasBase path base ↔ g'.HasBase path base
  aliases : ∀ a, a ∈ g.aliases ↔ a ∈ g'.aliases

/-! #### Designation and the last segment -/

theorem namesClass_iff {path name : Str} :
    namesClass path name ↔ path = name ∨ sep ++ name <:+ path := by
  rw [namesClass, Bool.or_eq_true, beq_iff_eq, Option.any_eq_true]
  apply or_congr Iff.rfl
  constructor
  · rintro ⟨p, hp, hends⟩
    obtain rfl := List.isSuffixOf?_eq_some_iff_append_eq.mp hp
    obtain ⟨before, rfl⟩ := List.isSuffixOf_iff_suffix.mp hends
    exact ⟨before, (List.append_assoc ..).symm⟩
  · rintro ⟨before, rfl⟩
    refine ⟨before ++ sep, ?_, ?_⟩
    · exact List.isSuffixOf?_eq_some_iff_append_eq.mpr (List.append_assoc ..)
    · exact List.isSuffixOf_iff_suffix.mpr (List.suffix_append before sep)

/-- A name ends in the last segment of each path that it designates. -/
theorem lastSegment_of_namesClass {path name : Str} (h : namesClass path name)
    (hpath : ¬ [':', ':', ':'] <:+: path) : lastSegment path = lastSegment name := by
  rcases namesClass_iff.mp h with rfl | ⟨before, rfl⟩
  · rfl
  · by_cases hin : sep <:+: name
    · rw [lastSegment, ← List.append_assoc]
      exact afterLast_append_of_infix hin _
    · have htail : ¬ sep <:+: (sep ++ name).tail := by
        intro hcolons
        rcases List.infix_cons_iff.mp hcolons with hpre | hlater
        · obtain ⟨rest, hrest⟩ := hpre
          obtain rfl : ':' :: rest = name := (List.cons.inj hrest).2
          exact hpath ⟨before, rest, by simp [sep]⟩
        · exact hin hlater
      rw [lastSegment, afterLast_append (by decide) htail before, lastSegment,
        afterLast_of_not_infix hin]

/-! #### What the tables hold -/

@[simp] theorem byLast_addAlias (classes : CppClasses) (row : Str × Str) :
    (classes.addAlias row).byLast = classes.byLast := by
  rw [CppClasses.addAlias]
  split <;> rfl

@[simp] theorem bases_addAlias (classes : CppClasses) (row : Str × Str) :
    (classes.addAlias row).bases = classes.bases := by
  rw [CppClasses.addAlias]
  split <;> rfl

theorem aliases_addAlias (classes : CppClasses) (row : Str × Str) :
    (classes.addAlias row).aliases = (aliasOf row).toList.foldl
      (fun entries a => Assoc.upsert (lastSegment a.path) [] (· ++ [a]) entries)
      classes.aliases := by
  rw [CppClasses.addAlias]
  cases aliasOf row <;> rfl

theorem aliases_foldl_addAlias (rows : List (Str × Str)) (classes : CppClasses) :
    (rows.foldl CppClasses.addAlias classes).aliases = (rows.filterMap aliasOf).foldl
      (fun entries a => Assoc.upsert (lastSegment a.path) [] (· ++ [a]) entries)
      classes.aliases := by
  induction rows generalizing classes with
  | nil => rfl
  | cons row rows ih =>
      rw [List.foldl_cons, ih, aliases_addAlias, List.filterMap_cons]
      cases aliasOf row <;> rfl

/-- The two answers with aliases are read like one. -/
theorem loadAliases_eq (classes : CppClasses) (answers : Answers) :
    classes.loadAliases answers = (cppRows (answers.typeAliases.getD []) ++
      cppRows (answers.constants.getD [])).foldl CppClasses.addAlias classes := by
  rw [CppClasses.loadAliases, List.foldl_append]
  cases answers.typeAliases <;> cases answers.constants <;> rfl

theorem byLast_foldl_addAlias (rows : List (Str × Str)) (classes : CppClasses) :
    (rows.foldl CppClasses.addAlias classes).byLast = classes.byLast := by
  induction rows generalizing classes with
  | nil => rfl
  | cons row rows ih => rw [List.foldl_cons, ih, byLast_addAlias]

theorem bases_foldl_addAlias (rows : List (Str × Str)) (classes : CppClasses) :
    (rows.foldl CppClasses.addAlias classes).bases = classes.bases := by
  induction rows generalizing classes with
  | nil => rfl
  | cons row rows ih => rw [List.foldl_cons, ih, bases_addAlias]

theorem addClasses_eq (rows : List (Str × Str)) (classes : CppClasses) :
    rows.foldl CppClasses.addClass classes =
      { classes with
        byLast := rows.foldl (fun entries row => Assoc.upsert (lastSegment (pathWithoutFile row.1))
          [] (· ++ [pathWithoutFile row.1]) entries) classes.byLast
        bases := rows.foldl (fun entries row => Assoc.upsert (pathWithoutFile row.1)
          [] (· ++ basesOf row.2) entries) classes.bases } := by
  induction rows generalizing classes with
  | nil => rfl
  | cons row rows ih =>
      rw [List.foldl_cons, ih]
      rfl

section Tables

variable (answers : Answers)

theorem byLast_load (last : Str) : ((CppClasses.load answers).byLast.lookup last).getD [] =
    (answers.classes.filter fun c => lastSegment c.path = last).map Class.path := by
  rw [CppClasses.load, Answers.classes]
  cases answers.structs with
  | none => rfl
  | some rows =>
      simp only [loadAliases_eq, byLast_foldl_addAlias, addClasses_eq, Option.getD_some]
      rw [Assoc.lookup_group (fun row : Str × Str => lastSegment (pathWithoutFile row.1))
        (fun row => pathWithoutFile row.1), List.filter_map, List.map_map]
      rfl

theorem bases_load (path : Str) : ((CppClasses.load answers).bases.lookup path).getD [] =
    (answers.classes.filter fun c => c.path = path).flatMap Class.bases := by
  rw [CppClasses.load, Answers.classes]
  cases answers.structs with
  | none => rfl
  | some rows =>
      simp only [loadAliases_eq, bases_foldl_addAlias, addClasses_eq, Option.getD_some]
      rw [Assoc.lookup_gather (fun row : Str × Str => pathWithoutFile row.1)
        (fun row => basesOf row.2), List.filter_map, List.flatMap_map]
      rfl

theorem aliases_load (last : Str) : ((CppClasses.load answers).aliases.lookup last).getD [] =
    answers.aliases.filter fun a => lastSegment a.path = last := by
  rw [CppClasses.load, Answers.aliases]
  cases answers.structs with
  | none => rfl
  | some rows =>
      simp only [loadAliases_eq, aliases_foldl_addAlias, addClasses_eq]
      rw [Assoc.lookup_group (fun a : Alias => lastSegment a.path) (fun a => a), List.map_id',
        if_neg (Option.some_ne_none rows)]

end Tables

/-! #### What a name puts on the stack -/

section Below

variable (g : CppGraph)

theorem mem_aliasTargets {file name target : Str} :
    target ∈ (CppClasses.load g.toAnswers).aliasTargets (lastSegment name) name file ↔
      ∃ a, g.StandsFor file name a ∧ a.target = target := by
  have hnamed : ∀ a, a ∈ (((CppClasses.load g.toAnswers).aliases.lookup
      (lastSegment name)).getD []).filter (fun a => namesClass a.path name) ↔
        a ∈ g.aliases ∧ namesClass a.path name := by
    intro a
    rw [aliases_load, List.mem_filter, List.mem_filter, decide_eq_true_eq]
    constructor
    · rintro ⟨⟨ha, -⟩, hdes⟩
      exact ⟨ha, hdes⟩
    · rintro ⟨ha, hdes⟩
      exact ⟨⟨ha, lastSegment_of_namesClass hdes (g.aliasPaths a ha)⟩, hdes⟩
  rw [CppClasses.aliasTargets, List.mem_map]
  apply exists_congr
  intro a
  apply and_congr_left
  intro _
  rw [CppGraph.StandsFor]
  split
  · rename_i hempty
    have hnone : ∀ b ∈ g.aliases, namesClass b.path name → b.file ≠ file := by
      intro b hb hdes hfile
      exact List.filter_eq_nil_iff.mp (List.isEmpty_iff.mp hempty) b
        ((hnamed b).mpr ⟨hb, hdes⟩) (decide_eq_true hfile)
    rw [hnamed]
    exact ⟨fun ⟨ha, hdes⟩ => ⟨ha, hdes, .inr hnone⟩, fun ⟨ha, hdes, _⟩ => ⟨ha, hdes⟩⟩
  · rename_i hsome
    obtain ⟨b, hb⟩ := List.isEmpty_eq_false_iff_exists_mem.mp (Bool.eq_false_iff.mpr hsome)
    obtain ⟨hbnamed, hbfile⟩ := List.mem_filter.mp hb
    obtain ⟨hbmem, hbdes⟩ := (hnamed b).mp hbnamed
    rw [List.mem_filter, hnamed, decide_eq_true_eq]
    constructor
    · rintro ⟨⟨ha, hdes⟩, hfile⟩
      exact ⟨ha, hdes, .inl hfile⟩
    · rintro ⟨ha, hdes, hfile | hnone⟩
      · exact ⟨⟨ha, hdes⟩, hfile⟩
      · exact absurd (of_decide_eq_true hbfile) (hnone b hbmem hbdes)

/-- What a name puts on the stack are the bases of the classes it designates and the targets of the
aliases it stands for. -/
theorem mem_below {file name w : Str} : w ∈ (CppClasses.load g.toAnswers).below file name ↔
    (∃ path, g.HasBase path w ∧ namesClass path name) ∨
      ∃ a, g.StandsFor file name a ∧ a.target = w := by
  rw [CppClasses.below, List.mem_append, mem_aliasTargets, byLast_load]
  apply or_congr _ Iff.rfl
  rw [List.mem_flatMap]
  constructor
  · rintro ⟨path, -, hw⟩
    split at hw
    · rename_i hdes
      rw [bases_load] at hw
      obtain ⟨c, hc, hbase⟩ := List.mem_flatMap.mp hw
      obtain ⟨hmem, hpath⟩ := List.mem_filter.mp hc
      exact ⟨path, ⟨c, hmem, of_decide_eq_true hpath, hbase⟩, hdes⟩
    · cases hw
  · rintro ⟨path, ⟨c, hc, rfl, hbase⟩, hdes⟩
    have hlast := lastSegment_of_namesClass hdes (g.classPaths c hc)
    refine ⟨c.path, List.mem_map_of_mem (List.mem_filter.mpr ⟨hc, decide_eq_true hlast⟩), ?_⟩
    rw [if_pos hdes, bases_load]
    exact List.mem_flatMap.mpr ⟨c, List.mem_filter.mpr ⟨hc, decide_eq_true rfl⟩, hbase⟩

/-- Neither a base nor a target is empty. -/
theorem ne_nil_of_mem_below {file name w : Str}
    (h : w ∈ (CppClasses.load g.toAnswers).below file name) : w ≠ [] := by
  rcases (mem_below g).mp h with ⟨path, ⟨c, hc, -, hbase⟩, -⟩ | ⟨a, ⟨ha, -⟩, rfl⟩
  · obtain ⟨row, -, rfl⟩ := List.mem_map.mp hc
    exact of_decide_eq_true (List.mem_filter.mp hbase).2
  · have hrows := ha
    rw [Answers.aliases] at hrows
    split at hrows
    · cases hrows
    · obtain ⟨row, -, hrow⟩ := List.mem_filterMap.mp hrows
      rw [aliasOf] at hrow
      split at hrow
      · cases hrow
      · rename_i hnot
        obtain rfl := Option.some.inj hrow
        exact fun hnil => hnot (.inr hnil)

/-- All names that can come onto the stack. -/
def CppGraph.names : Finset Str :=
  (g.classes.flatMap Class.bases ++ g.aliases.map Alias.target).toFinset

theorem mem_names_of_mem_below {file name w : Str}
    (h : w ∈ (CppClasses.load g.toAnswers).below file name) : w ∈ g.names := by
  rw [CppGraph.names, List.mem_toFinset, List.mem_append]
  rcases (mem_below g).mp h with ⟨path, ⟨c, hc, -, hbase⟩, -⟩ | ⟨a, ⟨ha, -⟩, rfl⟩
  · exact .inl (List.mem_flatMap.mpr ⟨c, hc, hbase⟩)
  · exact .inr (List.mem_map_of_mem ha)

end Below

/-! #### The family as a closure -/

section Family

variable {g : CppGraph} {fuel : Nat} {file name : Str} {names : List Str}

/-- The worklist runs dry, whatever cycles there are. -/
theorem exists_family (g : CppGraph) (file name : Str) :
    ∃ fuel names, (CppClasses.load g.toAnswers).family fuel name file = some names := by
  refine ⟨_, Walk.walk_ends_of_finite (S := insert name g.names)
    (fun n => ((CppClasses.load g.toAnswers).below file n).length) (fun n => Nat.le_refl _) ?_ ?_
    (Nat.le_refl _)⟩
  · exact fun n w hw => Finset.mem_insert_of_mem (mem_names_of_mem_below g hw)
  · exact fun p hp => Finset.mem_insert.mpr (.inl (List.mem_singleton.mp hp))

/-- A name in a family is the first one, or stands below one that is in it. -/
theorem mem_of_closed (h : (CppClasses.load g.toAnswers).family fuel name file = some names)
    {S : Set Str} (hS : Closed g file name S) {n : Str} (hn : n ∈ names) : n ∈ S := by
  obtain ⟨-, p, hp, hreach⟩ := Walk.reached_of_walk h n hn
  obtain rfl := List.mem_singleton.mp hp
  clear hn
  induction hreach with
  | refl => exact hS.named
  | tail _ hstep ih =>
      rcases (mem_below g).mp hstep with ⟨path, hbase, hdes⟩ | ⟨a, ha, rfl⟩
      · exact hS.bases _ ih path _ hbase hdes
      · exact hS.targets _ ih a ha

theorem closed_family (h : (CppClasses.load g.toAnswers).family fuel name file = some names)
    (hname : name ≠ []) : Closed g file name {n | n ∈ names} := by
  obtain ⟨hstart, hbelow⟩ := Walk.seen_of_walk h
  have hseen : ∀ w, w ≠ [] → w ∈ Walk.marked id [[]] names → w ∈ names := by
    intro w hw hmem
    rcases Walk.mem_marked.mp hmem with hnil | ⟨v, hv, rfl⟩
    · exact absurd (List.mem_singleton.mp hnil) hw
    · exact hv
  have hnext : ∀ n ∈ names, ∀ w ∈ (CppClasses.load g.toAnswers).below file n, w ∈ names :=
    fun n hn w hw => hseen w (ne_nil_of_mem_below g hw) (hbelow n hn w hw)
  exact {
    named := hseen name hname (hstart name (List.mem_singleton_self name))
    bases := fun n hn path base hbase hdes =>
      hnext n hn base ((mem_below g).mpr (.inl ⟨path, hbase, hdes⟩))
    targets := fun n hn a ha => hnext n hn a.target ((mem_below g).mpr (.inr ⟨a, ha, rfl⟩)) }

/-- The family of a name is the least closed set. -/
theorem family_isLeast (h : (CppClasses.load g.toAnswers).family fuel name file = some names)
    (hname : name ≠ []) : IsLeast {S | Closed g file name S} {n | n ∈ names} :=
  ⟨closed_family h hname, fun _ hS _ hn => mem_of_closed h hS hn⟩

theorem CppGraph.Same.symm {g g' : CppGraph} (h : g.Same g') : g'.Same g :=
  ⟨fun path base => (h.bases path base).symm, fun a => (h.aliases a).symm⟩

/-- What is closed over one graph is closed over another that states the same. -/
theorem Closed.of_same {g' : CppGraph} (h : g.Same g') {S : Set Str} (hS : Closed g file name S) :
    Closed g' file name S where
  named := hS.named
  bases n hn path base hbase := hS.bases n hn path base ((h.bases path base).mpr hbase)
  targets := by
    rintro n hn a ⟨ha, hdes, hfile⟩
    refine hS.targets n hn a ⟨(h.aliases a).mpr ha, hdes, hfile.imp_right fun hnone b hb => ?_⟩
    exact hnone b ((h.aliases b).mp hb)

/-- Two runs over graphs that state the same give the same names. -/
theorem mem_family_of_same {g' : CppGraph} {fuel' : Nat} {names' : List Str} (hsame : g.Same g')
    (hname : name ≠ []) (h : (CppClasses.load g.toAnswers).family fuel name file = some names)
    (h' : (CppClasses.load g'.toAnswers).family fuel' name file = some names') (n : Str) :
    n ∈ names' ↔ n ∈ names :=
  ⟨mem_of_closed h' ((closed_family h hname).of_same hsame),
    mem_of_closed h ((closed_family h' hname).of_same hsame.symm)⟩

theorem mem_methodsOf {candidates : List SymbolEntry} {c : SymbolEntry} :
    c ∈ methodsOf names candidates ↔ c ∈ candidates ∧ c.label = .method ∧
      ∃ owner, ownerOf c.qualifiedName = some owner ∧ ∃ n ∈ names, namesClass owner n := by
  rw [methodsOf, List.mem_filter, Bool.and_eq_true, decide_eq_true_eq, Option.any_eq_true]
  apply and_congr_right
  intro _
  apply and_congr_right
  intro _
  apply exists_congr
  intro owner
  rw [holds, List.any_eq_true]

end Family

/-! ### The methods of a typed receiver -/

/-- The class that a receiver is read as: the caller's own through `this`, or the declared one. -/
def typedReceiver (site : Calls.CallSite) : Option Str :=
  if site.receiverHintVia = viaThis then
    if site.callerLabel = .method then ownerOf site.callerQn else none
  else if site.receiverHintVia = viaDeclared then some site.receiverHint
  else none

theorem scope_typed {classes : CppClasses} {fuel : Nat} {site : Calls.CallSite} {name : Str}
    {names : List Str} (hname : typedReceiver site = some name) (hshape : site.calleeShape ≠ [])
    (h : classes.family fuel name (callerFile site) = some names) (candidates : List SymbolEntry) :
    scope classes fuel site "cpp".toList candidates =
      some (some ⟨methodsOf names candidates, .receiverClass⟩) := by
  rw [typedReceiver] at hname
  rw [scope, if_neg (by simp [hshape])]
  split at hname
  · rename_i hthis
    rw [if_pos hthis, callerFamily, hname]
    simp only [h, Option.map_some]
  · rename_i hthis
    split at hname
    · rename_i hdeclared
      obtain rfl := Option.some.inj hname
      rw [if_neg hthis, if_pos hdeclared, h]
      rfl
    · cases hname

/-- The family of a name that is not empty is the least closed set, whatever the order of the rows,
and the methods kept for a typed receiver are those whose owner is designated by a name that is in
every closed set. The family of the empty name is empty. -/
theorem family_least_closure (g : CppGraph) (name file : Str) (hname : name ≠ []) :
    (∃ fuel, (CppClasses.load g.toAnswers).family fuel [] file = some []) ∧
    ∃ fuel names, (CppClasses.load g.toAnswers).family fuel name file = some names ∧
      IsLeast {S | Closed g file name S} {n | n ∈ names} ∧
      (∀ g', g.Same g' → ∀ fuel' names',
        (CppClasses.load g'.toAnswers).family fuel' name file = some names' →
          ∀ n, n ∈ names' ↔ n ∈ names) ∧
      ∀ site candidates, typedReceiver site = some name → site.calleeShape ≠ [] →
        callerFile site = file → ∃ kept,
          scope (CppClasses.load g.toAnswers) fuel site "cpp".toList candidates =
            some (some ⟨kept, .receiverClass⟩) ∧
          ∀ c, c ∈ kept ↔ c ∈ candidates ∧ c.label = .method ∧
            ∃ owner, ownerOf c.qualifiedName = some owner ∧
              ∃ n ∈ ⋂₀ {S | Closed g file name S}, namesClass owner n := by
  refine ⟨⟨1, rfl⟩, ?_⟩
  obtain ⟨fuel, names, h⟩ := exists_family g file name
  have hleast := family_isLeast h hname
  refine ⟨fuel, names, h, hleast, fun g' hsame _ _ h' => mem_family_of_same hsame hname h h', ?_⟩
  rintro site candidates hreceiver hshape rfl
  refine ⟨methodsOf names candidates, scope_typed hreceiver hshape h candidates, fun c => ?_⟩
  rw [mem_methodsOf, ← Set.sInf_eq_sInter, hleast.csInf_eq]
  rfl

/-- Three classes, each a base of the one before. -/
def cycle : CppGraph where
  structs := some [["b.cpp::ns::a".toList, "b".toList, "cpp".toList],
    ["b.cpp::ns::b".toList, "c".toList, "cpp".toList],
    ["b.cpp::ns::c".toList, "a".toList, "cpp".toList]]
  typeAliases := some []
  constants := none
  classPaths := by decide +kernel
  aliasPaths := by decide +kernel

theorem family_cycle : (CppClasses.load cycle.toAnswers).family 4 "a".toList [] =
    some ["a".toList, "b".toList, "c".toList] := by
  decide +kernel

theorem family_least_closure_cycle :
    IsLeast {S | Closed cycle [] "a".toList S} {n | n ∈ ["a".toList, "b".toList, "c".toList]} := by
  obtain ⟨-, fuel, names, h, hleast, -⟩ := family_least_closure cycle "a".toList [] (by decide)
  rwa [← Walk.walk_unique h family_cycle]

/-- A call `::f()` asks for the family of the empty name, and the empty name is not in it. -/
theorem emptyName_no_family : ¬ ∀ (g : CppGraph) (name file : Str), ∃ fuel names,
    (CppClasses.load g.toAnswers).family fuel name file = some names ∧
      IsLeast {S | Closed g file name S} {n | n ∈ names} := by
  intro hall
  obtain ⟨fuel, names, h, hleast⟩ := hall cycle [] []
  have hempty : (CppClasses.load cycle.toAnswers).family 1 [] [] = some [] := rfl
  have hmem : [] ∈ names := hleast.1.named
  rw [Walk.walk_unique h hempty] at hmem
  cases hmem

end AutomatisedPipeline.MemberCalls

import AutomatisedPipeline.Logic.FirstMatch
import AutomatisedPipeline.Resolver.UseRows

/-!
Where the path of a callee leads (`path_origin` of `resolver/calls/reason.rs`).

The root of the path is looked up in the imports of the file, of which only the stored paths are
left: an import stands for the last segment of its path, whatever alias it has and whether it is a
glob or not, and the first one that ends in the root decides (`pathOrigin_imported`). So every order
of the imports gives the same exactly if a foreign root among those that are read is the only one,
and the local imports of the root are respected exactly if no foreign root is read beside them, nor
the root itself where none is read (`pathOrigin_agrees_iff`).
-/

namespace AutomatisedPipeline.Calls

open Text Impact FirstMatch
open Resolver (SymbolIndex)
open Receiver (CrateEvidence scopeSegments)

/-! ### The names of the standard library -/

/-- `STD_ROOTS`. -/
def stdRoots : List Str := ["std", "core", "alloc"].map String.toList

/-- `PRELUDE`. -/
def prelude : List Str :=
  ["Copy", "Send", "Sized", "Sync", "Unpin", "Drop", "Fn", "FnMut", "FnOnce", "drop", "Box",
    "ToOwned", "Clone", "PartialEq", "PartialOrd", "Eq", "Ord", "AsRef", "AsMut", "Into", "From",
    "Default", "Iterator", "Extend", "IntoIterator", "DoubleEndedIterator", "ExactSizeIterator",
    "Option", "Some", "None", "Result", "Ok", "Err", "String", "ToString", "Vec", "TryFrom",
    "TryInto", "FromIterator"].map String.toList

/-- `PRIMITIVES`. -/
def primitives : List Str :=
  ["bool", "char", "str", "u8", "u16", "u32", "u64", "u128", "usize", "i8", "i16", "i32", "i64",
    "i128", "isize", "f32", "f64"].map String.toList

/-- The receiver types of `RUST_SYMBOLS`. -/
def rustReceiverTypes : List Str :=
  ["Arc", "BTreeMap", "BTreeSet", "Box", "BufRead", "Cell", "Debug", "Display", "HashMap",
    "HashSet", "Iterator", "Mutex", "Option", "Path", "PathBuf", "Rc", "Read", "RefCell", "Result",
    "RwLock", "String", "Vec", "VecDeque", "Write"].map String.toList

/-! ### The origin of a path -/

/-- `ResolveContext`, with the imports of each file by their paths. -/
structure ResolveContext where
  idx : SymbolIndex
  evidence : CrateEvidence
  fileImports : List (Str × List Str)

namespace ResolveContext

/-- `repo_defines`. -/
def repoDefines (ctx : ResolveContext) (name : Str) : Bool := ctx.idx.byName name ≠ []

/-- `std_type`. -/
def stdType (ctx : ResolveContext) (name : Str) : Bool :=
  (decide (name ∈ primitives) || decide (name ∈ prelude) || decide (name ∈ rustReceiverTypes)) &&
    !ctx.repoDefines name

end ResolveContext

/-- The body of the search of `imported_origin`: the first segment of a path that ends in `name`. -/
def importRoot (name path : Str) : Option Str :=
  let path := (List.isSuffixOf? "::self".toList path).getD path
  if afterLast "::".toList path = name ∧ (find "::".toList path).isSome then
    some (beforeFirst "::".toList path)
  else none

/-- `imported_origin`. -/
def importedOrigin (ctx : ResolveContext) (fileId name : Str) : Option Str :=
  (ctx.fileImports.lookup fileId).bind fun imports => imports.findSome? (importRoot name)

/-- The roots that are paths of the crate itself. -/
def crateRoots : List Str := ["crate", "self", "super"].map String.toList

/-- A path that leads into the repository. -/
def ResolveContext.isLocal (ctx : ResolveContext) (origin : Str) : Bool :=
  decide (origin ∈ crateRoots) || decide (origin ∈ ctx.evidence.crateNames)

/-- `path_origin`, for the segments of the callee. -/
def originOf (ctx : ResolveContext) (fileId callee root : Str) (segments : List Str) : Option Str :=
  if root ∈ crateRoots ∨ root = "Self".toList then none
  else
    let imported := importedOrigin ctx fileId root
    let origin := imported.getD root
    if origin ∈ stdRoots then some origin
    else if ctx.isLocal origin then none
    else
      let qualifier := calleeNamesType callee
      if imported = none ∧ segments.length = 2 ∧ qualifier.any ctx.stdType then some "std".toList
      else
        let writtenCrate := origin.head?.any Char.isLower
        if ctx.evidence.known && !ctx.repoDefines origin && (imported.isSome || writtenCrate) then
          some origin
        else none

/-- `path_origin`. -/
def pathOrigin (ctx : ResolveContext) (fileId callee : Str) : Option Str :=
  (calleePathSegments callee).bind fun segments =>
    segments.head?.bind fun root => originOf ctx fileId callee root segments

/-- `names_external_path`. -/
def namesExternalPath (ctx : ResolveContext) (language fileId callee : Str) : Bool :=
  language = "rust".toList ∧ (pathOrigin ctx fileId callee).isSome

/-! ### The imports of a file -/

/-- `UseLeaf`: one leaf of a `use`, with its path, its alias and whether it is a glob. -/
structure UseLeaf where
  path : Str
  aliasText : Str
  isGlob : Bool
deriving DecidableEq, Repr

/-- What the leaf binds: its alias, or the last segment of its path. -/
def UseLeaf.Binds (leaf : UseLeaf) (name : Str) : Prop :=
  leaf.isGlob = false ∧
    if leaf.aliasText = [] then
      (scopeSegments ((List.isSuffixOf? "::self".toList leaf.path).getD leaf.path)).getLast? =
        some name
    else leaf.aliasText = name

/-- The path of the leaf leads into the repository. -/
def UseLeaf.IsLocal (ctx : ResolveContext) (leaf : UseLeaf) : Prop :=
  ∃ root, (scopeSegments leaf.path).head? = some root ∧ ctx.isLocal root = true

/-- The context in which a file has the given imports: the rows of the leaves keep their paths. -/
def ResolveContext.withImports (ctx : ResolveContext) (fileId : Str) (leaves : List UseLeaf) :
    ResolveContext :=
  { ctx with fileImports := (fileId, leaves.map UseLeaf.path) :: ctx.fileImports }

/-- The roots that are read for a name. -/
def readRoots (name : Str) (leaves : List UseLeaf) : List Str :=
  leaves.filterMap fun leaf => importRoot name leaf.path

/-- A root, read from an import, that is taken for one outside of the repository. -/
def isForeign (ctx : ResolveContext) (origin : Str) : Bool :=
  decide (origin ∈ stdRoots) ||
    (!ctx.isLocal origin && ctx.evidence.known && !ctx.repoDefines origin)

/-- A root, read from no import, whose path is taken for one outside of the repository. -/
def isForeignWritten (ctx : ResolveContext) (callee root : Str) (segments : List Str) : Bool :=
  decide (root ∈ stdRoots) ||
    (!ctx.isLocal root &&
      ((decide (segments.length = 2) && (calleeNamesType callee).any ctx.stdType) ||
        (ctx.evidence.known && !ctx.repoDefines root && root.head?.any Char.isLower)))

section Imports

variable (ctx : ResolveContext) (fileId callee root : Str) (segments : List Str)
  (leaves : List UseLeaf)

theorem importedOrigin_withImports :
    importedOrigin (ctx.withImports fileId leaves) fileId root = (readRoots root leaves).head? := by
  rw [importedOrigin, ResolveContext.withImports, List.lookup_cons_self, Option.bind_some,
    List.findSome?_map, readRoots, List.head?_filterMap]
  rfl

/-- Where a root is read, the first one that is read decides. -/
theorem pathOrigin_imported (hroot : ¬ (root ∈ crateRoots ∨ root = "Self".toList))
    (hread : readRoots root leaves ≠ []) :
    originOf (ctx.withImports fileId leaves) fileId callee root segments =
      pick (isForeign ctx) (readRoots root leaves) := by
  obtain ⟨first, rest, hfirst⟩ := List.exists_cons_of_ne_nil hread
  rw [originOf, if_neg hroot, importedOrigin_withImports, hfirst, pick_cons]
  simp only [List.head?_cons, Option.getD_some, isForeign]
  by_cases hstd : first ∈ stdRoots
  · simp [hstd]
  · have hlocal : (ctx.withImports fileId leaves).isLocal first = ctx.isLocal first := rfl
    simp only [hstd, if_false, hlocal]
    cases ctx.isLocal first with
    | true => simp
    | false =>
      have hdefines : (ctx.withImports fileId leaves).repoDefines first = ctx.repoDefines first := rfl
      have hknown : (ctx.withImports fileId leaves).evidence.known = ctx.evidence.known := rfl
      simp [hdefines, hknown]

theorem pathOrigin_written (hroot : ¬ (root ∈ crateRoots ∨ root = "Self".toList))
    (hread : readRoots root leaves = []) :
    originOf (ctx.withImports fileId leaves) fileId callee root segments = none ↔
      isForeignWritten ctx callee root segments = false := by
  rw [originOf, if_neg hroot, importedOrigin_withImports, hread]
  simp only [List.head?_nil, Option.getD_none, isForeignWritten]
  by_cases hstd : root ∈ stdRoots
  · simp [hstd]
  · have hlocal : (ctx.withImports fileId leaves).isLocal root = ctx.isLocal root := rfl
    simp only [hstd, if_false, hlocal]
    cases ctx.isLocal root with
    | true => simp
    | false =>
      have hdefines : (ctx.withImports fileId leaves).repoDefines root = ctx.repoDefines root := rfl
      have hknown : (ctx.withImports fileId leaves).evidence.known = ctx.evidence.known := rfl
      have htype : (ctx.withImports fileId leaves).stdType = ctx.stdType := rfl
      by_cases hassoc : segments.length = 2 ∧ (calleeNamesType callee).any ctx.stdType = true
      · simp [htype, hassoc]
      · have hnone : (decide (segments.length = 2) &&
            (calleeNamesType callee).any ctx.stdType) = false := by simpa using hassoc
        simp only [htype, hassoc, hnone]
        simp [hdefines, hknown]

/-! ### Agreement -/

/-- Where the callee leads does not depend on the order of the imports, and a root that an import
binds to the repository is not taken for one outside of it. -/
structure Agrees : Prop where
  perm : ∀ leaves' : List UseLeaf, leaves'.Perm leaves →
    pathOrigin (ctx.withImports fileId leaves') fileId callee =
      pathOrigin (ctx.withImports fileId leaves) fileId callee
  respects : ∀ root rest, calleePathSegments callee = some (root :: rest) →
    (∃ leaf ∈ leaves, leaf.Binds root ∧ leaf.IsLocal ctx) →
      pathOrigin (ctx.withImports fileId leaves) fileId callee = none

/-- The imports that end in the root agree on it if it is foreign, and none of them, nor the root as
it is written, is foreign if an import binds the root to the repository. -/
structure RootsAgree : Prop where
  sole : Sole (isForeign ctx) (readRoots root leaves)
  respects : (∃ leaf ∈ leaves, leaf.Binds root ∧ leaf.IsLocal ctx) →
    (∀ origin ∈ readRoots root leaves, isForeign ctx origin = false) ∧
      (readRoots root leaves = [] → isForeignWritten ctx callee root segments = false)

variable {ctx fileId callee root segments leaves}

theorem pathOrigin_eq {ctx : ResolveContext} (h : calleePathSegments callee = some (root :: segments)) :
    pathOrigin ctx fileId callee = originOf ctx fileId callee root (root :: segments) := by
  rw [pathOrigin, h, Option.bind_some, List.head?_cons, Option.bind_some]

theorem pathOrigin_eq_none {ctx : ResolveContext} (h : ∀ root rest, calleePathSegments callee =
      some (root :: rest) → root ∈ crateRoots ∨ root = "Self".toList) :
    pathOrigin ctx fileId callee = none := by
  cases hsegments : calleePathSegments callee with
  | none => rw [pathOrigin, hsegments, Option.bind_none]
  | some segments =>
      cases segments with
      | nil => rw [pathOrigin, hsegments, Option.bind_some, List.head?_nil, Option.bind_none]
      | cons root rest => rw [pathOrigin_eq hsegments, originOf, if_pos (h root rest hsegments)]

/-- The origin of a path with a root that is looked up. -/
theorem agrees_iff_rootsAgree (hsegments : calleePathSegments callee = some (root :: segments))
    (hroot : ¬ (root ∈ crateRoots ∨ root = "Self".toList)) :
    Agrees ctx fileId callee leaves ↔ RootsAgree ctx callee root (root :: segments) leaves := by
  have hread (leaves' : List UseLeaf) (hperm : leaves'.Perm leaves) :
      (readRoots root leaves').Perm (readRoots root leaves) := hperm.filterMap _
  by_cases hnil : readRoots root leaves = []
  · -- no import is read, in whatever order
    have hwritten := pathOrigin_written ctx fileId callee root (root :: segments) leaves hroot hnil
    constructor
    · intro h
      refine ⟨by rw [hnil]; exact fun x hx => absurd hx List.not_mem_nil, fun hlocal => ?_⟩
      refine ⟨by rw [hnil]; exact fun x hx => absurd hx List.not_mem_nil, fun _ => ?_⟩
      rw [← hwritten, ← pathOrigin_eq hsegments]
      exact h.respects root segments hsegments hlocal
    · intro h
      refine ⟨fun leaves' hperm => ?_, fun root' rest hsegments' hlocal => ?_⟩
      · have hnil' : readRoots root leaves' = [] := (hnil ▸ hread leaves' hperm).eq_nil
        rw [pathOrigin_eq hsegments, pathOrigin_eq hsegments, originOf, originOf, if_neg hroot,
          if_neg hroot, importedOrigin_withImports, importedOrigin_withImports, hnil, hnil']
        rfl
      · obtain ⟨rfl, rfl⟩ := List.cons.inj (Option.some.inj (hsegments.symm.trans hsegments'))
        rw [pathOrigin_eq hsegments, hwritten]
        exact (h.respects hlocal).2 hnil
  · have horigin (leaves' : List UseLeaf) (hperm : leaves'.Perm leaves) :
        pathOrigin (ctx.withImports fileId leaves') fileId callee =
          pick (isForeign ctx) (readRoots root leaves') := by
      rw [pathOrigin_eq hsegments]
      refine pathOrigin_imported ctx fileId callee root _ leaves' hroot fun hnil' => hnil ?_
      exact (hnil' ▸ (hread leaves' hperm).symm).eq_nil
    have hsole : (∀ leaves' : List UseLeaf, leaves'.Perm leaves →
        pathOrigin (ctx.withImports fileId leaves') fileId callee =
          pathOrigin (ctx.withImports fileId leaves) fileId callee) ↔
            Sole (isForeign ctx) (readRoots root leaves) := by
      rw [readRoots, ← pick_filterMap_perm_iff]
      refine forall₂_congr fun leaves' hperm => ?_
      rw [horigin leaves' hperm, horigin leaves (List.Perm.refl _)]
      rfl
    constructor
    · intro h
      refine ⟨hsole.mp h.perm, fun hlocal => ⟨?_, fun h => absurd h hnil⟩⟩
      rw [← pick_eq_none_iff (hsole.mp h.perm), ← horigin leaves (List.Perm.refl _)]
      exact h.respects root segments hsegments hlocal
    · intro h
      refine ⟨hsole.mpr h.sole, fun root' rest hsegments' hlocal => ?_⟩
      obtain ⟨rfl, rfl⟩ := List.cons.inj (Option.some.inj (hsegments.symm.trans hsegments'))
      rw [horigin leaves (List.Perm.refl _), pick_eq_none_iff h.sole]
      exact (h.respects hlocal).1

end Imports

/-- The origin of a path agrees with the imports of its file if and only if the roots do, where the
callee is a path whose root is looked up. -/
theorem pathOrigin_agrees_iff (ctx : ResolveContext) (fileId callee : Str)
    (leaves : List UseLeaf) :
    Agrees ctx fileId callee leaves ↔
      ∀ root rest, calleePathSegments callee = some (root :: rest) →
        ¬ (root ∈ crateRoots ∨ root = "Self".toList) →
          RootsAgree ctx callee root (root :: rest) leaves := by
  by_cases hlooked : ∃ root rest, calleePathSegments callee = some (root :: rest) ∧
      ¬ (root ∈ crateRoots ∨ root = "Self".toList)
  · obtain ⟨root, rest, hsegments, hroot⟩ := hlooked
    rw [agrees_iff_rootsAgree hsegments hroot]
    constructor
    · intro h root' rest' hsegments' _
      obtain ⟨rfl, rfl⟩ := List.cons.inj (Option.some.inj (hsegments.symm.trans hsegments'))
      exact h
    · exact fun h => h root rest hsegments hroot
  · have hkeyword : ∀ root rest, calleePathSegments callee = some (root :: rest) →
        root ∈ crateRoots ∨ root = "Self".toList := fun root rest hsegments =>
      not_not.mp fun hroot => hlooked ⟨root, rest, hsegments, hroot⟩
    refine iff_of_true ⟨fun leaves' _ => ?_, fun _ _ _ _ => pathOrigin_eq_none hkeyword⟩ ?_
    · rw [pathOrigin_eq_none hkeyword, pathOrigin_eq_none hkeyword]
    · exact fun root rest hsegments hroot => absurd (hkeyword root rest hsegments) hroot

/-- A file with `use std::io` in one inline module and `use crate::io` in another. -/
theorem not_agrees : ¬ ∀ (ctx : ResolveContext) (fileId callee : Str) (leaves : List UseLeaf),
    Agrees ctx fileId callee leaves := by
  intro h
  have hio := (h ⟨⟨fun _ => [], fun _ => none⟩, ⟨true, [], [], [], []⟩, []⟩ [] "io::read".toList
    [⟨"std::io".toList, [], false⟩, ⟨"crate::io".toList, [], false⟩]).respects "io".toList
      ["read".toList] (by decide +kernel)
      ⟨⟨"crate::io".toList, [], false⟩, by simp, ⟨rfl, by decide +kernel⟩, "crate".toList,
        by decide +kernel, by decide +kernel⟩
  exact absurd hio (by decide +kernel)

end AutomatisedPipeline.Calls

import AutomatisedPipeline.Cfg.Compact
import AutomatisedPipeline.Cfg.Eval
import AutomatisedPipeline.Text.Find

/-!
What the indexer writes about `#[cfg]` twins: the gates in an id
(`graph_store/cfg_active.rs`), the verdict of the default profile on a twin
(`indexer/cfg_active.rs`) and the facts of a file (`indexer/file_scope.rs`).

A file comes here with the ways in that the walk over the module tree found, each
with the gates of its declarations, and with the features of the crates that reach
it.
-/

namespace AutomatisedPipeline.Cfg

open Text Kleene

/-! ### The gates in an id -/

/-- `TWIN_MARK`. -/
def twinMark : Str := ['#', 'c', 'f', 'g', '(']

/-- `closing_paren`, inside `depth` open groups. -/
def closingParen (depth : Nat) : Str → Option Nat
  | [] => none
  | c :: rest =>
      if c = '(' then (closingParen (depth + 1) rest).map (· + 1)
      else if c = ')' then
        if depth = 1 then some 0 else (closingParen (depth - 1) rest).map (· + 1)
      else (closingParen depth rest).map (· + 1)

/-- `cfg_gates_in`: the compact gates written in `qn`, in path order. -/
def cfgGatesIn (qn : Str) : List Str :=
  match _h : find twinMark qn with
  | none => []
  | some start =>
      match closingParen 1 (qn.drop (start + twinMark.length)) with
      | none => []
      | some close =>
          (qn.drop (start + twinMark.length)).take close ::
            cfgGatesIn ((qn.drop (start + twinMark.length)).drop (close + 1))
termination_by qn.length
decreasing_by
  have hle := find_le _h
  have hmark : twinMark.length = 5 := rfl
  simp only [List.length_drop]
  omega

example : cfgGatesIn "src/lib.rs::m#cfg(unix)::f#cfg(all(a,b))".toList =
    ["unix".toList, "all(a,b)".toList] := by decide +kernel

/-- `ALL_EXTENSIONS`. -/
def allExtensions : List Str :=
  ["rs", "py", "ts", "tsx", "java", "kt", "kts", "swift", "m", "mm", "c", "h", "cc", "cpp", "cxx",
    "hh", "hpp", "hxx", "go", "js", "jsx", "mjs", "cjs", "rb"].map String.toList

/-- `extract_file_prefix`. -/
def extractFilePrefix (id : Str) : Option Str :=
  allExtensions.findSome? fun ext =>
    (find ('.' :: ext ++ "::".toList) id).map fun i => id.take (i + ext.length + 1)

/-! ### The verdict of the default profile -/

/-- `cfg_active`: `active`, `inactive` or `unknown`. -/
inductive CfgActive where
  | active
  | inactive
  | unknown
deriving DecidableEq, Repr

/-- `FileFeatures`. -/
inductive FileFeatures where
  | compiledOut
  | enabled (features : List Str)
  | disagree
deriving DecidableEq, Repr

/-- The loop of `evaluate`: the predicates of the gates, `none` when one does not
parse. -/
def parsedGates : List Str → Option (List CfgPredicate)
  | [] => some []
  | gate :: gates =>
      match parseCompact gate with
      | none => none
      | some p => (parsedGates gates).map (p :: ·)

/-- `evaluate`. -/
def evaluate (id : Str) (profile : BuildProfile) : CfgActive :=
  match parsedGates (cfgGatesIn id) with
  | none => .unknown
  | some conjuncts =>
      match (CfgPredicate.all conjuncts).evalIn profile with
      | .true => .active
      | .false => .inactive
      | .unknown => .unknown

/-- `decide`. -/
def CfgActive.decide (id : Str) (features : Option FileFeatures) : CfgActive :=
  match features with
  | none => .unknown
  | some .disagree => .unknown
  | some .compiledOut => .inactive
  | some (.enabled enabled) => evaluate id (.withFeatures enabled)

/-! ### The facts of a file -/

/-- `FileCfg`. -/
structure FileCfg where
  modulePath : Str
  gate : Str
  active : CfgActive
deriving DecidableEq, Repr

/-- One way in that the walk found: the module path the declarations spell, their
gates (`none` once one did not parse), whether a `#[path]` placed the file, and
the default features of the crate that the way starts from. -/
structure Way where
  modulePath : Str
  gates : Option (List CfgPredicate)
  placed : Bool
  enabled : List Str
deriving Repr

/-- `Reach`. -/
structure Reach where
  modulePath : Str
  gate : Str
  truth : Truth
  placed : Bool
deriving DecidableEq, Repr

/-- The verdict of the default profile on the gates of a way. -/
def Way.truth (way : Way) : Truth :=
  match way.gates with
  | none => .unknown
  | some [] => .true
  | some all => (CfgPredicate.all all).evalIn (.withFeatures way.enabled)

/-- `reach`. -/
def reach (way : Way) : Reach where
  modulePath := way.modulePath
  gate :=
    match way.gates with
    | none => ['?']
    | some [] => []
    | some all => (CfgPredicate.all all).canonical.compact
  truth := way.truth
  placed := way.placed

/-- `scope`: the facts of a file from every way it is reached. -/
def scope (reaches : List Reach) (compiledOut : Bool) : FileCfg where
  modulePath :=
    match reaches with
    | [only] => only.modulePath
    | _ => []
  gate :=
    match reaches with
    | [only] => only.gate
    | _ => []
  active :=
    if compiledOut || reaches.all (·.truth == .false) && !reaches.isEmpty then .inactive
    else if reaches.any (·.truth == .true) then .active
    else .unknown

/-- What the indexer knows of a codebase when it writes the facts: the ways into
each file, the features of each file, the ids of the twins and those of the
callables under a gate that their id does not spell. -/
structure Indexed where
  ways : Str → List Way
  features : Str → Option FileFeatures
  twinIds : List Str
  gatedCallers : List Str

/-- The facts of one file that `analyse` of `file_scope.rs` keeps. -/
def Indexed.fileCfg (ix : Indexed) (file : Str) : Option FileCfg :=
  if (ix.ways file).isEmpty then none
  else
    let reaches := ((ix.ways file).map reach).dedup
    let facts := scope reaches (ix.features file == some .compiledOut)
    if (reaches.length == 1 && reaches.all (·.placed)) || !facts.gate.isEmpty ||
        facts.active == .inactive then some facts
    else none

/-- The verdict that `write` of `cfg_active.rs` stores on the twin `id`. -/
def Indexed.written (ix : Indexed) (id : Str) : CfgActive :=
  let file := extractFilePrefix id
  if (file.bind ix.fileCfg).any (·.active == .inactive) then .inactive
  else .decide id (file.bind ix.features)

/-! ### What the written facts say of a build -/

theorem Build.Completes.congr {b : Build} {e e' : List Str} (h : b.Completes (.withFeatures e))
    (hsame : ∀ f, f ∈ e' ↔ f ∈ e) : b.Completes (.withFeatures e') :=
  ⟨fun f => (h.feature f).trans (hsame f).symm, h.option⟩

/-- In the build every gate of the list parses and is true. -/
def GateTrue (b : Build) (gate : Str) : Prop :=
  ∃ p, parseCompact gate = some p ∧ p.holds b = true

/-- In the build the gate is false. -/
def GateFalse (b : Build) (gate : Str) : Prop :=
  ∃ p, parseCompact gate = some p ∧ p.holds b = false

theorem mem_parsedGates {gates : List Str} {ps : List CfgPredicate}
    (h : parsedGates gates = some ps) :
    (∀ gate ∈ gates, ∃ p ∈ ps, parseCompact gate = some p) ∧
      ∀ p ∈ ps, ∃ gate ∈ gates, parseCompact gate = some p := by
  induction gates generalizing ps with
  | nil =>
      obtain rfl : [] = ps := by simpa [parsedGates] using h
      simp
  | cons gate gates ih =>
      simp only [parsedGates] at h
      cases hp : parseCompact gate with
      | none => simp [hp] at h
      | some p =>
          simp only [hp] at h
          obtain ⟨ps', hps, rfl⟩ := Option.map_eq_some_iff.mp h
          obtain ⟨hfwd, hback⟩ := ih hps
          constructor
          · intro g hg
            rcases List.mem_cons.mp hg with rfl | hg
            · exact ⟨p, by simp, hp⟩
            · obtain ⟨q, hq, hparse⟩ := hfwd g hg
              exact ⟨q, by simp [hq], hparse⟩
          · intro q hq
            rcases List.mem_cons.mp hq with rfl | hq
            · exact ⟨gate, by simp, hp⟩
            · obtain ⟨g, hg, hparse⟩ := hback q hq
              exact ⟨g, by simp [hg], hparse⟩

section Decided

variable {b : Build} {profile : BuildProfile} (hb : b.Completes profile)
include hb

theorem holds_of_evalIn_true {ps : List CfgPredicate}
    (h : (CfgPredicate.all ps).evalIn profile = .true) : ∀ p ∈ ps, p.holds b = true := by
  have hall := (admits_evalIn hb (.all ps)).1 h
  simpa [CfgPredicate.holds] using hall

theorem fails_of_evalIn_false {ps : List CfgPredicate}
    (h : (CfgPredicate.all ps).evalIn profile = .false) : ∃ p ∈ ps, p.holds b = false := by
  have hall := (admits_evalIn hb (.all ps)).2 h
  simpa [CfgPredicate.holds] using hall

/-- An id evaluated to `active` has true gates only. -/
theorem evaluate_active {id : Str} (h : evaluate id profile = .active) :
    ∀ gate ∈ cfgGatesIn id, GateTrue b gate := by
  unfold evaluate at h
  cases hgates : parsedGates (cfgGatesIn id) with
  | none => simp [hgates] at h
  | some ps =>
      simp only [hgates] at h
      cases heval : (CfgPredicate.all ps).evalIn profile with
      | false => simp [heval] at h
      | unknown => simp [heval] at h
      | true =>
          intro gate hgate
          obtain ⟨p, hp, hparse⟩ := (mem_parsedGates hgates).1 gate hgate
          exact ⟨p, hparse, holds_of_evalIn_true hb heval p hp⟩

/-- An id evaluated to `inactive` has a false gate. -/
theorem evaluate_inactive {id : Str} (h : evaluate id profile = .inactive) :
    ∃ gate ∈ cfgGatesIn id, GateFalse b gate := by
  unfold evaluate at h
  cases hgates : parsedGates (cfgGatesIn id) with
  | none => simp [hgates] at h
  | some ps =>
      simp only [hgates] at h
      cases heval : (CfgPredicate.all ps).evalIn profile with
      | true => simp [heval] at h
      | unknown => simp [heval] at h
      | false =>
          obtain ⟨p, hp, hfalse⟩ := fails_of_evalIn_false hb heval
          obtain ⟨gate, hgate, hparse⟩ := (mem_parsedGates hgates).2 p hp
          exact ⟨gate, hgate, p, hparse, hfalse⟩

end Decided

/-- All declarations of the way hold in the build. -/
def Way.Open (way : Way) (b : Build) : Prop :=
  ∃ gates, way.gates = some gates ∧ ∀ p ∈ gates, p.holds b = true

/-- Some declaration of the way is compiled out of the build. -/
def Way.Shut (way : Way) (b : Build) : Prop :=
  ∃ gates, way.gates = some gates ∧ ∃ p ∈ gates, p.holds b = false

theorem Way.open_of_truth {way : Way} {b : Build} (hb : b.Completes (.withFeatures way.enabled))
    (h : way.truth = .true) : way.Open b := by
  unfold Way.truth at h
  split at h
  · cases h
  · rename_i hgates
    exact ⟨[], hgates, by simp⟩
  · rename_i gates _ hgates
    exact ⟨gates, hgates, holds_of_evalIn_true hb h⟩

theorem Way.shut_of_truth {way : Way} {b : Build} (hb : b.Completes (.withFeatures way.enabled))
    (h : way.truth = .false) : way.Shut b := by
  unfold Way.truth at h
  split at h
  · cases h
  · cases h
  · rename_i gates _ hgates
    exact ⟨gates, hgates, fails_of_evalIn_false hb h⟩

/-- The build compiles no item of the file: the features walk found it compiled
out, or every way in is shut. -/
def Indexed.FileOut (ix : Indexed) (b : Build) (file : Str) : Prop :=
  ix.features file = some .compiledOut ∨
    (ix.ways file ≠ [] ∧ ∀ way ∈ ix.ways file, way.Shut b)

theorem Indexed.fileOut_of_inactive {ix : Indexed} {b : Build} {file : Str} {cfg : FileCfg}
    (hb : ∀ way ∈ ix.ways file, b.Completes (.withFeatures way.enabled))
    (h : ix.fileCfg file = some cfg) (hactive : cfg.active = .inactive) : ix.FileOut b file := by
  unfold Indexed.fileCfg at h
  split at h
  · cases h
  · rename_i hways
    simp only [Option.ite_none_right_eq_some, Option.some.injEq] at h
    obtain ⟨-, rfl⟩ := h
    simp only [scope] at hactive
    split at hactive
    · rename_i hout
      rcases Bool.or_eq_true _ _ |>.mp hout with hcompiled | hall
      · exact .inl (by simpa using hcompiled)
      · refine .inr ⟨by simpa using hways, fun way hway => way.shut_of_truth (hb way hway) ?_⟩
        have hreach := List.all_eq_true.mp (Bool.and_eq_true _ _ |>.mp hall).1 (reach way)
          (List.mem_dedup.mpr (List.mem_map.mpr ⟨way, hway, rfl⟩))
        simpa [reach] using hreach
    · split at hactive <;> cases hactive

theorem Indexed.open_of_active {ix : Indexed} {b : Build} {file : Str} {cfg : FileCfg}
    (hb : ∀ way ∈ ix.ways file, b.Completes (.withFeatures way.enabled))
    (h : ix.fileCfg file = some cfg) (hactive : cfg.active = .active) :
    ∃ way ∈ ix.ways file, way.Open b := by
  unfold Indexed.fileCfg at h
  split at h
  · cases h
  · simp only [Option.ite_none_right_eq_some, Option.some.injEq] at h
    obtain ⟨-, rfl⟩ := h
    simp only [scope] at hactive
    split at hactive
    · cases hactive
    · split at hactive
      · rename_i hany
        obtain ⟨r, hr, htrue⟩ := List.any_eq_true.mp hany
        obtain ⟨way, hway, rfl⟩ := List.mem_map.mp (List.mem_dedup.mp hr)
        exact ⟨way, hway, way.open_of_truth (hb way hway) (by simpa [reach] using htrue)⟩
      · cases hactive

end AutomatisedPipeline.Cfg

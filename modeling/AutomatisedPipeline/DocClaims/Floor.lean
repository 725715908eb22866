import AutomatisedPipeline.DocClaims.Counts

/-!
Which rows the compiled floor counts.

The code groups the rows by file and adds up the files; `compiledFloor_eq` says that it
counts the rows one by one. `Passes` says in terms of the source when a row counts: the
file opens, and the first function that starts on the row's line is plain. Nothing in it
asks whether that function is the one the row was parsed from.
-/

namespace AutomatisedPipeline.DocClaims

open Text Cfg
open Indexer (owningFile)

variable (isAlphanumeric : Char → Bool)

/-! ### Row by row -/

/-- Why a row is left out of the floor, if it is. -/
def rowVerdict (repo : Repository) (harness : Harness) (row : Row) : Option Str :=
  match fileGates isAlphanumeric repo (owningFile row.id) harness with
  | .error why => some why
  | .ok gates => functionVerdict gates row.line harness

/-- The rows that the floor counts on one line of a file. -/
def lineFloor (repo : Repository) (harness : Harness) (file : Str) (line : Nat) : Nat :=
  (fileVerdicts isAlphanumeric repo harness file [line]).countP Option.isNone

theorem countP_fileVerdicts (repo : Repository) (harness : Harness) (file : Str)
    (lines : List Nat) :
    (fileVerdicts isAlphanumeric repo harness file lines).countP Option.isNone =
      (lines.map (lineFloor isAlphanumeric repo harness file)).sum := by
  induction lines with
  | nil =>
      unfold fileVerdicts
      split <;> rfl
  | cons line lines ih =>
      have hsplit : fileVerdicts isAlphanumeric repo harness file (line :: lines) =
          fileVerdicts isAlphanumeric repo harness file [line] ++
            fileVerdicts isAlphanumeric repo harness file lines := by
        unfold fileVerdicts
        split <;> rfl
      rw [hsplit, List.countP_append, ih, List.map_cons, List.sum_cons, lineFloor]

theorem lineFloor_row (repo : Repository) (harness : Harness) (row : Row) :
    lineFloor isAlphanumeric repo harness (owningFile row.id) row.line =
      if (rowVerdict isAlphanumeric repo harness row).isNone then 1 else 0 := by
  cases hgates : fileGates isAlphanumeric repo (owningFile row.id) harness with
  | error why => simp [lineFloor, fileVerdicts, rowVerdict, hgates]
  | ok gates => simp [lineFloor, fileVerdicts, rowVerdict, hgates, List.countP_cons]

/-- Grouping by file keeps every row. -/
theorem sum_byFile (weight : Str → Nat → Nat) (rows : List Row) :
    ((byFile rows).map fun entry => (entry.2.map (weight entry.1)).sum).sum =
      (rows.map fun row => weight (owningFile row.id) row.line).sum := by
  suffices h : ∀ entries : List (Str × List Nat),
      ((rows.foldl (fun entries row =>
          Assoc.upsert (owningFile row.id) [] (· ++ [row.line]) entries) entries).map
        fun entry => (entry.2.map (weight entry.1)).sum).sum =
      (entries.map fun entry => (entry.2.map (weight entry.1)).sum).sum +
        (rows.map fun row => weight (owningFile row.id) row.line).sum by
    simpa [byFile] using h []
  induction rows with
  | nil => simp
  | cons row rows ih =>
      intro entries
      have hupsert := Assoc.sum_upsert (owningFile row.id) [] (· ++ [row.line])
        (fun file lines => (lines.map (weight file)).sum) (weight (owningFile row.id) row.line)
        (by simp) (by simp) entries
      rw [List.foldl_cons, ih, hupsert, List.map_cons, List.sum_cons, Nat.add_assoc]

theorem foldl_fst {α β : Type} (weight : α → Nat) (next : β → α → β) (entries : List α)
    (n : Nat) (x : β) :
    (entries.foldl (fun acc e => (acc.1 + weight e, next acc.2 e)) (n, x)).1 =
      n + (entries.map weight).sum := by
  induction entries generalizing n x with
  | nil => simp
  | cons e entries ih => rw [List.foldl_cons, ih, List.map_cons, List.sum_cons, Nat.add_assoc]

/-- The floor counts each row on its own. -/
theorem compiledFloor_eq (repo : Repository) (harness : Harness) (rows : List Row) :
    (compiledFloor isAlphanumeric repo rows harness).1 =
      rows.countP fun row => (rowVerdict isAlphanumeric repo harness row).isNone := by
  have hfold : (compiledFloor isAlphanumeric repo rows harness).1 = 0 +
      ((byFile rows).map fun entry =>
        (fileVerdicts isAlphanumeric repo harness entry.1 entry.2).countP Option.isNone).sum := by
    rw [compiledFloor]
    exact foldl_fst
      (fun entry : Str × List Nat =>
        (fileVerdicts isAlphanumeric repo harness entry.1 entry.2).countP Option.isNone)
      (fun excluded entry =>
        ((fileVerdicts isAlphanumeric repo harness entry.1 entry.2).filterMap id).foldl
          (fun excluded why => Assoc.upsert why 0 (· + 1) excluded) excluded) _ _ _
  simp only [countP_fileVerdicts] at hfold
  rw [hfold, Nat.zero_add, sum_byFile]
  simp only [lineFloor_row]
  clear hfold
  induction rows with
  | nil => rfl
  | cons row rows ih =>
      rw [List.map_cons, List.sum_cons, List.countP_cons, ih, Nat.add_comm]

/-! ### When a row counts -/

/-- The checker reads the functions of a file: a Rust source, in a graph that has the
facts of a file, of a target that the harness runs, under no gate but the option of the
harness, with a text that parses to `root`. -/
structure Opens (repo : Repository) (harness : Harness) (file : Str) (root : Node) : Prop where
  rust : ".rs".toList.isSuffixOf file = true
  hasContext : repo.columnExists "target_context".toList = true
  hasGate : repo.columnExists "cfg_gate".toList = true
  facts : ∃ context gate, repo.fileRow file = some (context, gate) ∧
    context ∈ harness.contexts ∧ (gate = [] ∨ gate = harness.option)
  tree : ∃ source, repo.read file = .ok source ∧ repo.parse source = .ok root

/-- No `#[cfg]` but the option of the harness and no `cfg_attr` that adds one reaches the
function, as the checker reads attributes, and no function is around it. -/
structure Plain (option : Str) (place : Place) : Prop where
  notNested : hasAncestor place .functionItem = false
  noCfgAttr : reachedByCfgAttr place = false
  gate : effectiveGate isAlphanumeric place = [] ∨ effectiveGate isAlphanumeric place = option

/-- The first function of a file that starts on a line. -/
def firstFunction (root : Node) (line : Nat) : Option Place :=
  (items root .functionItem).find? (·.item.node.line = line)

/-- The file of the row opens, and the first function on the row's line is plain. -/
def Passes (repo : Repository) (harness : Harness) (row : Row) : Prop :=
  ∃ root place, Opens repo harness (owningFile row.id) root ∧
    firstFunction root row.line = some place ∧ Plain isAlphanumeric harness.option place

theorem fileGates_ok_iff {repo : Repository} {harness : Harness} {file : Str}
    {gates : List FunctionGate} :
    fileGates isAlphanumeric repo file harness = .ok gates ↔
      ∃ root, Opens repo harness file root ∧
        gates = (items root .functionItem).map (functionGate isAlphanumeric) := by
  unfold fileGates functionGates
  constructor
  · intro h
    split_ifs at h with hrust hcontext hgate
    split at h
    · cases h
    · rename_i context gate hrow
      split_ifs at h with hin hopen
      split at h
      · cases h
      · rename_i source hread
        split at h
        · cases h
        · rename_i hparse
          cases h
          split at hparse
          · cases hparse
          · rename_i root hroot
            cases hparse
            refine ⟨root, ⟨by simpa using hrust, by simpa using hcontext, by simpa using hgate,
              ⟨context, gate, hrow, by simpa using hin, ?_⟩, source, hread, hroot⟩, rfl⟩
            by_cases hnil : gate = []
            · exact .inl hnil
            · exact .inr (by simpa [hnil] using hopen)
  · rintro ⟨root, hopens, rfl⟩
    obtain ⟨context, gate, hrow, hin, hgate⟩ := hopens.facts
    obtain ⟨source, hread, hparse⟩ := hopens.tree
    have hopen : ¬(gate ≠ [] ∧ gate ≠ harness.option) := by
      rintro ⟨hnil, hne⟩
      exact hgate.elim hnil hne
    simp only [hopens.rust, hopens.hasContext, hopens.hasGate, hrow, hread, hparse, hopen,
      not_not.mpr hin, Bool.true_eq_false, if_false]

theorem find?_functionGates (root : Node) (line : Nat) :
    ((items root .functionItem).map (functionGate isAlphanumeric)).find? (·.line = line) =
      (firstFunction root line).map (functionGate isAlphanumeric) := by
  rw [List.find?_map, firstFunction]
  rfl

theorem functionVerdict_eq_none_iff {root : Node} {line : Nat} {harness : Harness} :
    functionVerdict ((items root .functionItem).map (functionGate isAlphanumeric)) line harness =
        none ↔
      ∃ place, firstFunction root line = some place ∧
        Plain isAlphanumeric harness.option place := by
  unfold functionVerdict
  rw [find?_functionGates]
  cases hfirst : firstFunction root line with
  | none => simp
  | some place =>
      simp only [Option.map_some, functionGate]
      constructor
      · intro h
        split_ifs at h with hnested hattr hgate
        refine ⟨place, rfl, by simpa using hnested, by simpa using hattr, ?_⟩
        by_cases hnil : effectiveGate isAlphanumeric place = []
        · exact .inl hnil
        · exact .inr (by simpa [hnil] using hgate)
      · rintro ⟨other, heq, hplain⟩
        cases heq
        have hgate : ¬(effectiveGate isAlphanumeric place ≠ [] ∧
            effectiveGate isAlphanumeric place ≠ harness.option) := by
          rintro ⟨hnil, hne⟩
          exact hplain.gate.elim hnil hne
        simp [hplain.notNested, hplain.noCfgAttr, hgate]

/-- A row is in the floor where it passes. -/
theorem rowVerdict_isNone_iff {repo : Repository} {harness : Harness} {row : Row} :
    (rowVerdict isAlphanumeric repo harness row).isNone = true ↔
      Passes isAlphanumeric repo harness row := by
  rw [Option.isNone_iff_eq_none]
  unfold rowVerdict Passes
  split
  · rename_i why herror
    constructor
    · intro h
      cases h
    · rintro ⟨root, place, hopens, -, -⟩
      have hok := (fileGates_ok_iff isAlphanumeric).mpr ⟨root, hopens, rfl⟩
      rw [herror] at hok
      cases hok
  · rename_i gates hok
    obtain ⟨root, hopens, rfl⟩ := (fileGates_ok_iff isAlphanumeric).mp hok
    rw [functionVerdict_eq_none_iff]
    constructor
    · rintro ⟨place, hfirst, hplain⟩
      exact ⟨root, place, hopens, hfirst, hplain⟩
    · rintro ⟨other, place, hother, hfirst, hplain⟩
      obtain ⟨source, hread, hparse⟩ := hopens.tree
      obtain ⟨source', hread', hparse'⟩ := hother.tree
      cases hread.symm.trans hread'
      cases hparse.symm.trans hparse'
      exact ⟨place, hfirst, hplain⟩

end AutomatisedPipeline.DocClaims

import AutomatisedPipeline.DocClaims.ItemGates
import AutomatisedPipeline.Indexer.Incremental
import AutomatisedPipeline.Logic.Assoc

/-!
Verdicts on the counts a document states (`doc_claims/counts.rs`): the number of test
or proof entry points, and the number of variants of an enum.

A row of the graph is an id and a start line, so the code joins it to the first item
of its file that starts on that line. What the store and the repository answer is data
of a `Repository`.
-/

namespace AutomatisedPipeline.DocClaims

open Text Cfg
open Indexer (trim owningFile)

/-! ### Claims and verdicts -/

/-- `Harness`. -/
structure Harness where
  entryKind : Str
  option : Str
  contexts : List Str
deriving DecidableEq, Repr

/-- `TESTS`. -/
def tests : Harness where
  entryKind := "test".toList
  option := "test".toList
  contexts := ["production".toList, "test".toList]

/-- `PROOFS`. -/
def proofs : Harness where
  entryKind := "proof".toList
  option := "kani".toList
  contexts := ["production".toList, "proof".toList]

inductive Verdict where
  | supported
  | contradicted
  | notFound
  | notVerifiable
  | rejectedAnchor
deriving DecidableEq, Repr

/-- `Outcome`, less its evidence. -/
structure Outcome where
  verdict : Verdict
  reason : Option Str
deriving DecidableEq, Repr

/-- `Outcome::not_verifiable`. -/
def Outcome.notVerifiable (reason : Str) : Outcome := ⟨.notVerifiable, some reason⟩

/-- `Expected`. -/
inductive Expected where
  | exact (n : Nat)
  | atLeast (n : Nat)
deriving DecidableEq, Repr

/-- `parse_expected`. -/
def parseExpected (raw : Str) : Option Expected :=
  match ['>', '='].isPrefixOf? (trim raw) with
  | some n => (parseU64 (trim n)).map .atLeast
  | none => (parseU64 (trim raw)).map .exact

/-- `bad_expected`. -/
def badExpected (raw : Str) : Outcome :=
  .notVerifiable ("expected_not_a_count: '".toList ++ raw ++
    "'; write \"N\" for exactly N or \">=N\" for at least N".toList)

/-- `trim_start_matches("./")`. -/
def trimDotSlash : Str → Str
  | '.' :: '/' :: rest => trimDotSlash rest
  | s => s

/-- `scope_prefix`: the prefix of the ids that a subject counts. -/
def scopePrefix (subject : Str) : Option Str :=
  let s := trimDotSlash (trim subject)
  if s = [] ∨ s = ['.'] then none
  else if s.getLast? = some '/' then some s
  else some (s ++ [':', ':'])

/-! ### The graph and the repository -/

/-- A row of the entry points: an id, and the text of its start line. -/
structure Row where
  id : Str
  startLine : Str
deriving DecidableEq, Repr

/-- `row[1].parse().unwrap_or(0)`. -/
def Row.line (row : Row) : Nat := (parseU64 row.startLine).getD 0

/-- What the store and the repository answer: the rows of a kind of entry point under a
prefix, whether the `File` table has a column, the context and gate of a file, the text
of a file, and the tree of a source within the bounds of the parser. -/
structure Repository where
  entryPoints : Str → Option Str → Except Str (List Row)
  columnExists : Str → Bool
  fileRow : Str → Option (Str × Str)
  read : Str → Except Str Str
  parse : Str → Except Str Node

section Verdicts

-- `char::is_alphanumeric`, the Unicode property
variable (isAlphanumeric : Char → Bool)

/-! ### Entry points -/

/-- `file_gates`. -/
def fileGates (repo : Repository) (file : Str) (harness : Harness) :
    Except Str (List FunctionGate) :=
  if ".rs".toList.isSuffixOf file = false then .error "not_rust_source".toList
  else if repo.columnExists "target_context".toList = false then
    .error "graph_without_file_target_context".toList
  else if repo.columnExists "cfg_gate".toList = false then
    .error "graph_without_file_cfg_gate".toList
  else
    match repo.fileRow file with
    | none => .error "file_not_in_graph".toList
    | some (context, gate) =>
        if context ∉ harness.contexts then
          .error ("target_not_run_by_harness(".toList ++
            (if context = [] then "none".toList else context) ++ [')'])
        else if gate ≠ [] ∧ gate ≠ harness.option then
          .error ("file_gated(".toList ++ gate ++ [')'])
        else
          match repo.read file with
          | .error why => .error ("source_unreadable(".toList ++ why ++ [')'])
          | .ok source =>
              match functionGates isAlphanumeric repo.parse source with
              | .error _ => .error "source_parse_failed".toList
              | .ok gates => .ok gates

/-- `function_verdict`: nothing when the function at `line` is in the floor, else why
not. -/
def functionVerdict (gates : List FunctionGate) (line : Nat) (harness : Harness) : Option Str :=
  match gates.find? (·.line = line) with
  | none => some "not_at_graph_line".toList
  | some gate =>
      if gate.nested then some "nested_function".toList
      else if gate.cfgAttr then some cfgAttrName
      else if gate.gate ≠ [] ∧ gate.gate ≠ harness.option then
        some ("gated(".toList ++ gate.gate ++ [')'])
      else none

/-- The lines of the rows of each file. -/
def byFile (rows : List Row) : List (Str × List Nat) :=
  rows.foldl (fun entries row => Assoc.upsert (owningFile row.id) [] (· ++ [row.line]) entries) []

/-- The verdicts on the lines of one file. -/
def fileVerdicts (repo : Repository) (harness : Harness) (file : Str) (lines : List Nat) :
    List (Option Str) :=
  match fileGates isAlphanumeric repo file harness with
  | .error why => lines.map fun _ => some why
  | .ok gates => lines.map fun line => functionVerdict gates line harness

/-- `compiled_floor`: the rows the harness certainly runs, and how many rows each reason
left out. -/
def compiledFloor (repo : Repository) (rows : List Row) (harness : Harness) :
    Nat × List (Str × Nat) :=
  (byFile rows).foldl (fun acc entry =>
    let verdicts := fileVerdicts isAlphanumeric repo harness entry.1 entry.2
    (acc.1 + verdicts.countP Option.isNone,
      (verdicts.filterMap id).foldl (fun excluded why => Assoc.upsert why 0 (· + 1) excluded) acc.2))
    (0, [])

/-- The range that the texts of a count state. -/
def countRange (declared floor n : Nat) : Str :=
  "declared ".toList ++ digits declared ++ ", compiled floor ".toList ++ digits floor ++
    ", claimed ".toList ++ digits n

/-- What the graph cannot decide, for a claim of `n`. -/
def undecidedCount (declared floor n : Nat) : Outcome :=
  if n > declared then
    .notVerifiable ("lower_bound: ".toList ++ countRange declared floor n ++
      "; more may exist than the graph holds".toList)
  else
    .notVerifiable ("build_dependent: ".toList ++ countRange declared floor n ++
      "; it depends on what the build compiles".toList)

/-- `count_verdict`. -/
def countVerdict (expected : Expected) (declared floor : Nat) : Outcome :=
  match expected with
  | .exact n =>
      if floor > n then
        ⟨.contradicted, some ("floor_exceeds_claim: ".toList ++ countRange declared floor n)⟩
      else if floor = n ∧ declared = n then ⟨.supported, none⟩
      else undecidedCount declared floor n
  | .atLeast n =>
      if floor ≥ n then ⟨.supported, none⟩
      else undecidedCount declared floor n

/-- The verdict on the rows that the query of a claim returned. -/
def rowsVerdict (repo : Repository) (harness : Harness) (rows : List Row) (expected : Expected) :
    Outcome :=
  countVerdict expected rows.length (compiledFloor isAlphanumeric repo rows harness).1

/-- `entry_count`. -/
def entryCount (repo : Repository) (harness : Harness) (subject raw : Str) : Outcome :=
  match parseExpected raw with
  | none => badExpected raw
  | some expected =>
      match repo.entryPoints harness.entryKind (scopePrefix subject) with
      | .error why => .notVerifiable ("graph_query_failed: ".toList ++ why)
      | .ok rows => rowsVerdict isAlphanumeric repo harness rows expected

/-! ### Enum variants -/

/-- `u64::MAX`. -/
def u64Max : Nat := 2 ^ 64 - 1

/-- The range that the texts of a variant count state. -/
def variantRange (declared gated : Nat) (claimed : Str) : Str :=
  digits (declared - gated) ++ " ungated of ".toList ++ digits declared ++
    " declared, claimed ".toList ++ claimed

/-- `variant_verdict`. -/
def variantVerdict (expected : Expected) (declared gated : Nat) (claimed : Str) : Outcome :=
  let (low, high, certain) : Nat × Nat × Bool :=
    match expected with
    | .exact n => (n, n, gated == 0)
    | .atLeast n => (n, u64Max, decide (n ≤ declared - gated))
  if high < declared - gated ∨ low > declared then
    ⟨.contradicted,
      some ("variant_count_differs: ".toList ++ variantRange declared gated claimed)⟩
  else if certain then ⟨.supported, none⟩
  else .notVerifiable ("build_dependent: ".toList ++ variantRange declared gated claimed)

/-- `unread_language_verdict`. -/
def unreadLanguageVerdict (expected : Expected) (declared : Nat) (language : Str) : Outcome :=
  if expected = .exact declared then ⟨.supported, none⟩
  else
    match expected with
    | .atLeast n =>
        if n ≤ declared then ⟨.supported, none⟩
        else .notVerifiable (unread declared language)
    | .exact _ => .notVerifiable (unread declared language)
where
  unread (declared : Nat) (language : Str) : Str :=
    "variant_completeness_not_established: '".toList ++ language ++
      "' enums are not read from source; the graph holds ".toList ++ digits declared

/-- `rust_gated_variants`. -/
def rustGatedVariants (repo : Repository) (enumId : Str) (line declared : Nat) :
    Except Str (Nat × Str) :=
  let file := owningFile enumId
  let location := file ++ ':' :: digits line
  match repo.read file with
  | .error why => .error ("source_unreadable: ".toList ++ file ++ ": ".toList ++ why)
  | .ok source =>
      match enumShapes repo.parse source with
      | .error why => .error ("source_parse_failed: ".toList ++ why)
      | .ok shapes =>
          match shapes.find? (·.line = line) with
          | none => .error ("source_changed_since_indexing: no enum at ".toList ++ location)
          | some shape =>
              if shape.variants ≠ declared then
                .error ("graph_and_source_disagree: the source declares ".toList ++
                  digits shape.variants ++ " variants at ".toList ++ location ++
                  ", the graph holds ".toList ++ digits declared)
              else .ok (shape.gatedVariants, location)

/-- The verdict on the variants of a Rust enum. -/
def rustVariantVerdict (repo : Repository) (enumId : Str) (line declared : Nat)
    (expected : Expected) (claimed : Str) : Outcome :=
  match rustGatedVariants repo enumId line declared with
  | .ok (gated, _) => variantVerdict expected declared gated claimed
  | .error why => .notVerifiable why

/-- `variant_count`, for the enum that the subject names: its id, language and start
line, and the number of its variants in the graph. -/
def variantCount (repo : Repository) (enumId language : Str) (line declared : Nat) (raw : Str) :
    Outcome :=
  match parseExpected raw with
  | none => badExpected raw
  | some expected =>
      if language ≠ "rust".toList then unreadLanguageVerdict expected declared language
      else rustVariantVerdict repo enumId line declared expected (trim raw)

end Verdicts

end AutomatisedPipeline.DocClaims

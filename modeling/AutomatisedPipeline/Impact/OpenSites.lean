import AutomatisedPipeline.Impact.OtherOwner
import AutomatisedPipeline.Resolver.FileIds

/-!
The open call sites that name a target (`clustering/impact_reasons.rs`): how many there
are, by the reason each carries, and how many of that bare name are left out because they
name another owner.
-/

namespace AutomatisedPipeline.Impact

open Text Cypher Store

/-! ### Attribution -/

/-- `UnresolvedCallsiteAttribution`. -/
structure Attribution where
  total : Nat
  outsideTargets : Nat
  outsideTargetFiles : List Str
  cfgTwins : Nat
  byReason : List (Str × Nat)
  excludedOtherOwner : Nat
deriving DecidableEq

/-- `REASON_NOT_RECORDED`. -/
def reasonNotRecorded : Str := "not_recorded".toList

/-- `reason_or_not_recorded`. -/
def reasonOrNotRecorded (reason : Str) : Str :=
  if reason.isEmpty then reasonNotRecorded else reason

/-- `count_by_reason`. -/
def countByReason (reasons : List Str) : List (Str × Nat) :=
  reasons.foldl (fun entries reason =>
    Assoc.upsert (reasonOrNotRecorded reason) 0 (· + 1) entries) []

/-- `unresolved_name_filter`. -/
def unresolvedNameFilter (bare : Str) : Cond :=
  .and (.isFalse .a "is_resolved")
    (.or (.or (.eq .a "callee_name" bare) (.endsWith .a "callee_name" (".".toList ++ bare)))
      (.endsWith .a "callee_name" ("::".toList ++ bare)))

/-- The columns of `unresolved_sites_query`; the hint is asked for where the graph has it. -/
def siteColumns (hasHint : Bool) : List (Var × String) :=
  [(.a, "id"), (.a, "unresolved_reason"), (.a, "callee_name"), (.a, "language")] ++
    if hasHint then [(.a, "receiver_hint")] else []

/-- The query of `unresolved_sites_query`. -/
def openSitesQuery (bare : Str) (hasHint : Bool) : Query Table where
  pattern := .node (.code .callSite)
  cond := unresolvedNameFilter bare
  returns := .columns (siteColumns hasHint)
  limit := none

/-- The query of `count_unresolved`. -/
def countQuery (bare : Str) : Query Table where
  pattern := .node (.code .callSite)
  cond := unresolvedNameFilter bare
  returns := .count
  limit := none

/-- `count_unresolved`. -/
def countUnresolved (bare : Str) : GraphM Nat := do
  match ← runQuery (countQuery bare) with
  | none => return 0
  | some rows => return ((rows.head?.bind List.head?).bind Value.asCount).getD 0

/-- `attribution_without_reason_column`. -/
def attributionWithoutReasonColumn (bare : Str) : GraphM Attribution := do
  let total ← countUnresolved bare
  return {
    total := total
    outsideTargets := 0
    outsideTargetFiles := []
    cfgTwins := 0
    byReason := if 0 < total then [(reasonNotRecorded, total)] else []
    excludedOtherOwner := 0 }

/-- `outside_target_sites`. -/
def outsideTargetSites (rows : List Row) : Nat × List Str :=
  let outside := rows.filter fun row => cell row 1 == Resolver.Reason.outsideTargets.text
  (outside.length,
    ((outside.map fun row => Resolver.extractFilePrefixOrSelf (cell row 0)).dedup).mergeSort
      fun a b => decide (a ≤ b))

/-- What is reported of the open sites that were read, when `kept` of them are kept. -/
def attributionOf (kept : List Row) (excluded : Nat) : Attribution where
  total := kept.length
  outsideTargets := (outsideTargetSites kept).1
  outsideTargetFiles := (outsideTargetSites kept).2
  cfgTwins := kept.countP fun row => cell row 1 == Resolver.Reason.cfgTwins.text
  byReason := countByReason (kept.map fun row => cell row 1)
  excludedOtherOwner := excluded

/-- `unresolved_callsite_attribution`. -/
def unresolvedCallsiteAttribution (esc bare : Str) : GraphM Attribution := do
  let hasReasonCol := (← nodeColumnExists .callSite "unresolved_reason").getD false
  if !hasReasonCol then attributionWithoutReasonColumn bare
  else
    let hasHint := (← nodeColumnExists .callSite "receiver_hint").getD false
    let allRows := (← runQuery (openSitesQuery bare hasHint)).getD []
    let (kept, excluded) ← dropOtherOwnerSites esc allRows
    return attributionOf kept excluded

/-! ### The reasons sum to the count -/

theorem sum_countByReason (reasons : List Str) :
    ((countByReason reasons).map Prod.snd).sum = reasons.length := by
  have main (entries : List (Str × Nat)) :
      ((reasons.foldl (fun entries reason =>
          Assoc.upsert (reasonOrNotRecorded reason) 0 (· + 1) entries) entries).map Prod.snd).sum =
        (entries.map Prod.snd).sum + reasons.length := by
    induction reasons generalizing entries with
    | nil => simp
    | cons reason reasons ih =>
        have hstep : ((Assoc.upsert (reasonOrNotRecorded reason) 0 (· + 1) entries).map
            Prod.snd).sum = (entries.map Prod.snd).sum + 1 :=
          Assoc.sum_upsert (reasonOrNotRecorded reason) 0 (· + 1) (fun _ n => n) 1
            (fun _ => rfl) rfl entries
        rw [List.foldl_cons, ih, hstep, List.length_cons]
        omega
  simpa [countByReason] using main []

/-! ### The sites that are read -/

section Engine

variable {missing : Table → List String} {g : Graph (storedSchema missing)}

/-- The engine shows the column of a label. -/
def ShowsColumn (engine : Engine g) (label : NodeLabel) (column : String) : Prop :=
  (engine.answer (.tableInfo (.code label))).isSome ∧
    column ∈ (storedSchema missing).columns (.code label)

theorem run_nodeColumnExists (engine : Engine g) (label : NodeLabel) (column : String) :
    ((nodeColumnExists label column).run engine.answer).getD false = true ↔
      ShowsColumn engine label column := by
  rw [nodeColumnExists, Asks.run_bind, Asks.run_question, ShowsColumn]
  generalize hcolumns : (storedSchema missing).columns (.code label) = columns
  cases h : engine.answer (.tableInfo (.code label)) with
  | none => exact iff_of_false Bool.false_ne_true fun hshows => Bool.false_ne_true hshows.1
  | some rows =>
      rw [answers_tableInfo.mp (engine.sound _ _ h), hcolumns]
      change (columns.map fun key => [Value.null, Value.text key.toList]).any (rowNames column) =
        true ↔ true = true ∧ column ∈ columns
      rw [and_iff_right rfl, List.any_map, List.any_eq_true]
      simp only [Function.comp_apply, rowNames_iff, exists_eq_right]

instance (engine : Engine g) (label : NodeLabel) (column : String) :
    Decidable (ShowsColumn engine label column) :=
  inferInstanceAs (Decidable (_ ∧ _))

/-- An open call site that ends in the bare name. -/
def OpenSite (bare : Str) (n : Node (storedSchema missing)) : Prop :=
  n.label = .code .callSite ∧ (unresolvedNameFilter bare).holds n.get = true

instance (bare : Str) (n : Node (storedSchema missing)) : Decidable (OpenSite bare n) :=
  inferInstanceAs (Decidable (_ ∧ _))

/-- The row of a site. -/
def siteRow (hasHint : Bool) (n : Node (storedSchema missing)) : Row :=
  project (siteColumns hasHint) n.get

theorem open_rows_perm (engine : Engine g) {bare : Str} {hasHint : Bool} {rows : List Row}
    (h : engine.answer (.query (openSitesQuery bare hasHint)) = some rows) :
    rows.Perm ((g.nodes.filter fun n => OpenSite bare n).map (siteRow hasHint)) := by
  obtain ⟨found, hperm, rfl⟩ := engine.sound _ _ h
  rw [g.found_node rfl] at hperm
  refine (hperm.map _).trans (List.Perm.of_eq ?_)
  rw [List.map_map]
  rfl

theorem count_rows (engine : Engine g) {bare : Str} {rows : List Row}
    (h : engine.answer (.query (countQuery bare)) = some rows) :
    rows = [[.count (g.nodes.filter fun n => OpenSite bare n).length]] := by
  have hrows : rows = [[.count (g.found (countQuery bare)).length]] := engine.sound _ _ h
  rw [hrows, g.found_node rfl, List.length_map]
  rfl

/-- A site counts for the target: it is open, it ends in the bare name, the query that lists
or counts such sites is answered, and the site is not left out for its spelling. -/
def Counts (engine : Engine g) (esc bare : Str) (n : Node (storedSchema missing)) : Prop :=
  OpenSite bare n ∧
    if ShowsColumn engine .callSite "unresolved_reason" then
      (engine.answer (.query (openSitesQuery bare
        (decide (ShowsColumn engine .callSite "receiver_hint"))))).isSome ∧
      Excluded engine.answer esc
        (siteRow (decide (ShowsColumn engine .callSite "receiver_hint")) n) = false
    else (engine.answer (.query (countQuery bare))).isSome

instance (engine : Engine g) (esc bare : Str) (n : Node (storedSchema missing)) :
    Decidable (Counts engine esc bare n) := by
  unfold Counts
  infer_instance

/-- A site that counts is in the graph. -/
def CountedSite (engine : Engine g) (esc bare : Str) (n : Node (storedSchema missing)) : Prop :=
  n ∈ g.nodes ∧ Counts engine esc bare n

/-- A site is left out of the count for its spelling. -/
def LeftOut (engine : Engine g) (esc bare : Str) (n : Node (storedSchema missing)) : Prop :=
  OpenSite bare n ∧ ShowsColumn engine .callSite "unresolved_reason" ∧
    (engine.answer (.query (openSitesQuery bare
      (decide (ShowsColumn engine .callSite "receiver_hint"))))).isSome ∧
    Excluded engine.answer esc
      (siteRow (decide (ShowsColumn engine .callSite "receiver_hint")) n) = true

instance (engine : Engine g) (esc bare : Str) (n : Node (storedSchema missing)) :
    Decidable (LeftOut engine esc bare n) :=
  inferInstanceAs (Decidable (_ ∧ _))

/-- The attribution where the graph shows the column of the reasons. -/
theorem run_attribution_of_reasons (engine : Engine g) (esc bare : Str)
    (h : ShowsColumn engine .callSite "unresolved_reason") :
    (unresolvedCallsiteAttribution esc bare).run engine.answer =
      let rows := (engine.answer (.query (openSitesQuery bare
        (decide (ShowsColumn engine .callSite "receiver_hint"))))).getD []
      attributionOf (rows.filter fun row => !Excluded engine.answer esc row)
        (rows.countP (Excluded engine.answer esc)) := by
  have hreason := (run_nodeColumnExists engine .callSite "unresolved_reason").mpr h
  have hhint : ((nodeColumnExists .callSite "receiver_hint").run engine.answer).getD false =
      decide (ShowsColumn engine .callSite "receiver_hint") := by
    rw [Bool.eq_iff_iff, run_nodeColumnExists, decide_eq_true_eq]
  rw [unresolvedCallsiteAttribution, Asks.run_bind]
  simp only [hreason, hhint, Asks.run_bind, Asks.run_pure, runQuery, Asks.run_question,
    run_dropOtherOwnerSites, Bool.not_true, Bool.false_eq_true, if_false]

/-- The attribution where it does not. -/
theorem run_attribution_without_reasons (engine : Engine g) (esc bare : Str)
    (h : ¬ShowsColumn engine .callSite "unresolved_reason") :
    (unresolvedCallsiteAttribution esc bare).run engine.answer =
      (attributionWithoutReasonColumn bare).run engine.answer := by
  have hreason : ((nodeColumnExists .callSite "unresolved_reason").run engine.answer).getD false =
      false := by
    rw [← Bool.not_eq_true, run_nodeColumnExists]
    exact h
  rw [unresolvedCallsiteAttribution, Asks.run_bind]
  simp only [hreason, Bool.not_false, if_true]

/-- What is counted of an answer are sites of the graph. -/
theorem countP_rows (engine : Engine g) {bare : Str} {hasHint : Bool} {rows : List Row}
    (h : engine.answer (.query (openSitesQuery bare hasHint)) = some rows) (p : Row → Bool) :
    rows.countP p = g.nodes.countP fun n => OpenSite bare n ∧ p (siteRow hasHint n) := by
  rw [(open_rows_perm engine h).countP_eq, List.countP_map, List.countP_filter]
  refine List.countP_congr fun n _ => ?_
  simp [and_comm]

theorem total_eq (engine : Engine g) (esc bare : Str) :
    ((unresolvedCallsiteAttribution esc bare).run engine.answer).total =
      g.nodes.countP fun n => Counts engine esc bare n := by
  by_cases hcol : ShowsColumn engine .callSite "unresolved_reason"
  · rw [run_attribution_of_reasons engine esc bare hcol]
    simp only [attributionOf, Counts, hcol, if_true]
    cases hrows : engine.answer (.query (openSitesQuery bare
        (decide (ShowsColumn engine .callSite "receiver_hint")))) with
    | none => simp
    | some rows =>
        rw [Option.getD_some, ← List.countP_eq_length_filter, countP_rows engine hrows]
        simp
  · rw [run_attribution_without_reasons engine esc bare hcol]
    simp only [attributionWithoutReasonColumn, countUnresolved, Counts, hcol, if_false,
      Asks.run_bind, Asks.run_pure, runQuery, Asks.run_question]
    cases hrows : engine.answer (.query (countQuery bare)) with
    | none => simp
    | some rows =>
        rw [count_rows engine hrows, ← List.countP_eq_length_filter]
        simp [Value.asCount]

theorem excludedOtherOwner_eq (engine : Engine g) (esc bare : Str) :
    ((unresolvedCallsiteAttribution esc bare).run engine.answer).excludedOtherOwner =
      g.nodes.countP fun n => LeftOut engine esc bare n := by
  by_cases hcol : ShowsColumn engine .callSite "unresolved_reason"
  · rw [run_attribution_of_reasons engine esc bare hcol]
    simp only [attributionOf, LeftOut, hcol, true_and]
    cases hrows : engine.answer (.query (openSitesQuery bare
        (decide (ShowsColumn engine .callSite "receiver_hint")))) with
    | none => simp
    | some rows =>
        rw [Option.getD_some, countP_rows engine hrows]
        simp
  · rw [run_attribution_without_reasons engine esc bare hcol]
    simp [attributionWithoutReasonColumn, LeftOut, hcol]

/-- The values by reason sum to the count. -/
theorem sum_byReason (engine : Engine g) (esc bare : Str) :
    (((unresolvedCallsiteAttribution esc bare).run engine.answer).byReason.map Prod.snd).sum =
      ((unresolvedCallsiteAttribution esc bare).run engine.answer).total := by
  by_cases hcol : ShowsColumn engine .callSite "unresolved_reason"
  · rw [run_attribution_of_reasons engine esc bare hcol]
    simp only [attributionOf, sum_countByReason, List.length_map]
  · rw [run_attribution_without_reasons engine esc bare hcol]
    simp only [attributionWithoutReasonColumn, Asks.run_bind, Asks.run_pure]
    split
    · simp
    · rename_i hzero
      exact (Nat.eq_zero_of_not_pos hzero).symm

/-- The count is positive exactly where some site counts. -/
theorem total_pos_iff (engine : Engine g) (esc bare : Str) :
    ((unresolvedCallsiteAttribution esc bare).run engine.answer).total ≠ 0 ↔
      ∃ n, CountedSite engine esc bare n := by
  rw [total_eq, ← Nat.pos_iff_ne_zero, List.countP_pos_iff]
  simp only [decide_eq_true_eq, CountedSite]

end Engine

end AutomatisedPipeline.Impact

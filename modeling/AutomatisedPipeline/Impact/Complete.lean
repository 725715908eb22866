import AutomatisedPipeline.Impact.GetImpact

/-!
What an exact answer of `get_impact` promises.

The answer is exact when no reason speaks against it. `exact_iff` says when none
does, over what the graph holds and what the store answers. The sections are collected from
the tables of five prefixes, and the schema has dependencies of two more: inheritance and
observed calls. `exact_impact_is_complete_iff` says when an exact answer is complete all the
same.
-/

namespace AutomatisedPipeline.Impact

open Text Cypher Store

variable {missing : Table → List String} {g : Graph (storedSchema missing)}

/-! ### Dependencies -/

/-- The prefixes of the tables that the sections are collected from. -/
def collectedPrefixes : List String := ["Calls_", "Imports_", "Uses_", "Implements_", "References_"]

/-- The prefixes of the tables of dependencies. -/
def dependencyPrefixes : List String := collectedPrefixes ++ ["Extends_", "OBSERVED_CALLS_"]

/-- The table is one of those that the sections are collected from. -/
def Collected (rel : String) : Prop := ∃ start ∈ collectedPrefixes, startsWith rel start = true

instance (rel : String) : Decidable (Collected rel) :=
  inferInstanceAs (Decidable (∃ start ∈ collectedPrefixes, _))

/-- An edge of a dependency table from a node that is no call site into the target. -/
def DependencyInto (target : Str) (e : Edge (storedSchema missing)) : Prop :=
  (∃ start ∈ dependencyPrefixes, startsWith e.table start = true) ∧
    e.source.label ≠ .code .callSite ∧ Denotes target e.target

/-- A node with the label and the id is in a section. -/
def Dependents.Has (deps : Dependents) (n : Node (storedSchema missing)) : Prop :=
  ∃ d ∈ deps.all, n.label = .code d.label ∧ d.id = (n.props "id").asText

/-! ### Reasons -/

/-- The first label under which a node of the target's name is found. -/
def TargetLabel (engine : Engine g) (target : Str) (label : NodeLabel) : Prop :=
  ∃ before after, symbolLabels = before ++ label :: after ∧
    engine.Finds (targetLabelQuery target label) ∧
    ∀ other ∈ before, ¬engine.Finds (targetLabelQuery target other)

/-- The query of the traversal for the table of an edge is answered. -/
def Read (engine : Engine g) (target : Str) (table : RelSchema) : Prop :=
  Collected table.1 ∧ table.2.1 ≠ .callSite ∧
    (engine.answer (.query (reverseQuery target table))).isSome

/-- The nodes whose rows the twin query of a label gives, where it is answered. -/
def twinNodes (engine : Engine g) (plain : Str) (label : NodeLabel) :
    List (Node (storedSchema missing)) :=
  let q := twinQuery label (((nodeColumnExists label "cfg_active").run engine.answer).getD false)
    (afterLast "::".toList plain)
  if (engine.answer (.query q)).isSome then
    g.nodes.filter fun n => (n.label = .code label ∧ q.cond.holds n.get) ∧
      stripCfgGates (n.props "id").asText = plain
  else []

/-- Something that the store shows speaks against an exact answer. -/
inductive HasReason (engine : Engine g) (target : Str) : Prop
  | dynamicDispatch (hlabel : TargetLabel engine target .trait)
  | heuristicEdge {table : RelSchema} {e : Edge (storedSchema missing)} (htable : table ∈ relTables)
      (hread : Read engine target table) (he : e ∈ tableEdges g target table)
      (hconf : isHeuristicEdge
        ((e.props "confidence").asReal.getD (relationConfidenceFloor table.1)) = true)
  | openSite {n : Node (storedSchema missing)}
      (hcounted : CountedSite engine target (lastSegment (stripCfgGates target)) n)
  | missingReferences
      (hnone : ∀ table ∈ relTables, startsWith table.1 "References_" = true →
        Read engine target table → tableEdges g target table = [])
      (hfile : engine.Finds (fileNodeQuery target)) (hdocs : engine.Finds docScriptQuery)
      (hedges : ¬engine.Finds referenceEdgesQuery)
  | cfgTwins (hgate : hasCfgGate target = true)
      (htwins : 2 ≤ (cfgGateLabels.flatMap (twinNodes engine (stripCfgGates target))).length)

/-! ### The reasons, one by one -/

/-- `count` of an answered query. -/
theorem run_count (engine : Engine g) {q : Query Table} (hreturns : q.returns = .count) :
    (((engine.answer (.query q)).bind List.head?).bind fun row =>
        row.head?.bind Value.asCount).getD 0 ≠ 0 ↔ engine.Finds q := by
  rw [Engine.Finds]
  cases h : engine.answer (.query q) with
  | none => simp
  | some rows =>
      have hanswer := engine.sound _ _ h
      simp only [Answers, hreturns] at hanswer
      simp [hanswer, Value.asCount]

theorem run_lookupTargetLabelIn (engine : Engine g) (target : Str) (label : NodeLabel)
    (labels : List NodeLabel) :
    (lookupTargetLabelIn target labels).run engine.answer = some label ↔
      ∃ before after, labels = before ++ label :: after ∧
        engine.Finds (targetLabelQuery target label) ∧
        ∀ other ∈ before, ¬engine.Finds (targetLabelQuery target other) := by
  induction labels with
  | nil => simp [lookupTargetLabelIn]
  | cons first labels ih =>
      have hfirst := run_existsRow engine (q := targetLabelQuery target first) rfl rfl
      rw [lookupTargetLabelIn, Asks.run_bind]
      by_cases hfinds : engine.Finds (targetLabelQuery target first)
      · rw [if_pos (hfirst.mpr hfinds), Asks.run_pure]
        constructor
        · intro heq
          obtain rfl := Option.some.inj heq
          exact ⟨[], labels, rfl, hfinds, by simp⟩
        · rintro ⟨before, after, heq, -, hbefore⟩
          cases before with
          | nil => exact congrArg some (List.cons.inj heq).1
          | cons other before =>
              obtain rfl := (List.cons.inj heq).1
              exact absurd hfinds (hbefore _ List.mem_cons_self)
      · rw [if_neg (mt hfirst.mp hfinds), ih]
        constructor
        · rintro ⟨before, after, rfl, hlabel, hbefore⟩
          exact ⟨first :: before, after, rfl, hlabel, List.forall_mem_cons.mpr ⟨hfinds, hbefore⟩⟩
        · rintro ⟨before, after, heq, hlabel, hbefore⟩
          cases before with
          | nil =>
              obtain rfl := (List.cons.inj heq).1
              exact absurd hlabel hfinds
          | cons other before =>
              exact ⟨before, after, (List.cons.inj heq).2, hlabel,
                fun b hb => hbefore b (List.mem_cons_of_mem _ hb)⟩

theorem dynamicDispatch_iff (engine : Engine g) (target : Str) (implementors : List ImpactNode) :
    (dynamicDispatchReason target implementors).run engine.answer ≠ none ↔
      TargetLabel engine target .trait := by
  rw [TargetLabel, ← run_lookupTargetLabelIn, dynamicDispatchReason, Asks.run_bind,
    lookupTargetLabel]
  cases h : (lookupTargetLabelIn target symbolLabels).run engine.answer with
  | none => simp
  | some label => cases label <;> simp

theorem floor_eq : ∀ table ∈ relTables, ∀ start ∈ collectedPrefixes,
    startsWith table.1 start = true →
      relationConfidenceFloor start = relationConfidenceFloor table.1 := by
  decide +kernel

/-- What the sections hold are the edges of the tables that are read. -/
theorem exists_mem_all_iff (engine : Engine g) (target : Str) (P : Str → NodeLabel → ℚ → Prop) :
    (∃ n ∈ ((collectDependents target).run engine.answer).1.all,
        P n.id n.label n.confidence) ↔
      ∃ table ∈ relTables, Read engine target table ∧ ∃ e ∈ tableEdges g target table,
        P (e.source.props "id").asText table.2.1
          ((e.props "confidence").asReal.getD (relationConfidenceFloor table.1)) := by
  have hattach (callers : List ImpactNode) :
      (∃ n ∈ ((attach callers).run engine.answer).1, P n.id n.label n.confidence) ↔
        ∃ n ∈ callers, P n.id n.label n.confidence := by
    simp [attach]
  have hsection (start : String) (hstart : start ∈ collectedPrefixes) :
      (∃ n ∈ (reverseDependents target start).run engine.answer, P n.id n.label n.confidence) ↔
        ∃ table ∈ relTables, (startsWith table.1 start = true ∧ table.2.1 ≠ .callSite ∧
          (engine.answer (.query (reverseQuery target table))).isSome) ∧
          ∃ e ∈ tableEdges g target table, P (e.source.props "id").asText table.2.1
            ((e.props "confidence").asReal.getD (relationConfidenceFloor table.1)) := by
    constructor
    · rintro ⟨n, hn, hP⟩
      obtain ⟨table, htable, htraversed, hanswer, e, he, hin, hdenotes, rfl⟩ :=
        mem_reverseDependents.mp hn
      refine ⟨table, htable, ⟨htraversed.1, htraversed.2, hanswer⟩, e, ?_, ?_⟩
      · exact List.mem_filter.mpr ⟨he, decide_eq_true ⟨hin, hdenotes⟩⟩
      · rw [← floor_eq table htable start hstart htraversed.1]
        exact hP
    · rintro ⟨table, htable, ⟨htraversed, hsite, hanswer⟩, e, he, hP⟩
      obtain ⟨hmem, hin⟩ := List.mem_filter.mp he
      obtain ⟨hin, hdenotes⟩ := of_decide_eq_true hin
      refine ⟨_, mem_reverseDependents.mpr ⟨table, htable, ⟨htraversed, hsite⟩, hanswer, e, hmem,
        hin, hdenotes, rfl⟩, ?_⟩
      rw [← floor_eq table htable start hstart htraversed] at hP
      exact hP
  have hall : (∃ n ∈ ((collectDependents target).run engine.answer).1.all,
        P n.id n.label n.confidence) ↔
      ∃ start ∈ collectedPrefixes, ∃ n ∈ (reverseDependents target start).run engine.answer,
        P n.id n.label n.confidence := by
    simp only [Dependents.all, collectDependents, Asks.run_bind, Asks.run_pure, List.mem_append,
      or_and_right, exists_or, hattach, collectedPrefixes, List.mem_cons, List.not_mem_nil,
      or_false, exists_eq_left, or_assoc]
  rw [hall]
  constructor
  · rintro ⟨start, hstart, h⟩
    obtain ⟨table, htable, ⟨htraversed, hsite, hanswer⟩, hedge⟩ := (hsection start hstart).mp h
    exact ⟨table, htable, ⟨⟨start, hstart, htraversed⟩, hsite, hanswer⟩, hedge⟩
  · rintro ⟨table, htable, ⟨⟨start, hstart, htraversed⟩, hsite, hanswer⟩, hedge⟩
    exact ⟨start, hstart, (hsection start hstart).mpr ⟨table, htable,
      ⟨htraversed, hsite, hanswer⟩, hedge⟩⟩

theorem heuristicEdge_iff (engine : Engine g) (target : Str) :
    heuristicEdgeReason ((collectDependents target).run engine.answer).1 ≠ none ↔
      ∃ table ∈ relTables, Read engine target table ∧ ∃ e ∈ tableEdges g target table,
        isHeuristicEdge
          ((e.props "confidence").asReal.getD (relationConfidenceFloor table.1)) = true := by
  rw [← exists_mem_all_iff engine target fun _ _ confidence => isHeuristicEdge confidence = true]
  rw [heuristicEdgeReason]
  split
  · rename_i hzero
    simpa [List.countP_eq_zero] using hzero
  · rename_i hpos
    simpa [List.countP_eq_zero] using hpos

theorem references_nil_iff (engine : Engine g) (target : Str) :
    ((collectDependents target).run engine.answer).1.references = [] ↔
      ∀ table ∈ relTables, startsWith table.1 "References_" = true →
        Read engine target table → tableEdges g target table = [] := by
  have hrun : ((collectDependents target).run engine.answer).1.references =
      (reverseDependents target "References_").run engine.answer := by
    simp [collectDependents]
  rw [hrun, List.eq_nil_iff_forall_not_mem]
  constructor
  · intro h table htable hstart hread
    refine List.eq_nil_iff_forall_not_mem.mpr fun e he => ?_
    obtain ⟨hmem, hin⟩ := List.mem_filter.mp he
    obtain ⟨hin, hdenotes⟩ := of_decide_eq_true hin
    exact h _ (mem_reverseDependents.mpr
      ⟨table, htable, ⟨hstart, hread.2.1⟩, hread.2.2, e, hmem, hin, hdenotes, rfl⟩)
  · intro h n hn
    obtain ⟨table, htable, htraversed, hanswer, e, he, hin, hdenotes, -⟩ :=
      mem_reverseDependents.mp hn
    have hread : Read engine target table :=
      ⟨⟨"References_", by decide, htraversed.1⟩, htraversed.2, hanswer⟩
    have hmem : e ∈ tableEdges g target table :=
      List.mem_filter.mpr ⟨he, decide_eq_true ⟨hin, hdenotes⟩⟩
    rw [h table htable htraversed.1 hread] at hmem
    cases hmem

theorem missingReferenceIndexing_iff (engine : Engine g) :
    missingReferenceIndexingReason.run engine.answer ≠ none ↔
      engine.Finds docScriptQuery ∧ ¬engine.Finds referenceEdgesQuery := by
  have hdocs := run_count engine (q := docScriptQuery) rfl
  have hedges : ((engine.answer (.query referenceEdgesQuery)).map
      fun rows => !rows.isEmpty).getD false = true ↔ engine.Finds referenceEdgesQuery := by
    rw [Engine.Finds]
    cases h : engine.answer (.query referenceEdgesQuery) with
    | none => exact iff_of_false Bool.false_ne_true fun h => Bool.false_ne_true h.1
    | some rows =>
        rw [← engine.rows_ne_nil h rfl (by decide)]
        simp
  rw [← hdocs, ← hedges, missingReferenceIndexingReason, Asks.run_bind, runQuery,
    Asks.run_question]
  dsimp only
  generalize (((engine.answer (.query docScriptQuery)).bind List.head?).bind fun row =>
    row.head?.bind Value.asCount).getD 0 = docScriptCount
  split
  · rename_i hzero
    simp [hzero]
  · rename_i hpos
    rw [and_iff_right hpos, Asks.run_bind, runQuery, Asks.run_question]
    generalize engine.answer (.query referenceEdgesQuery) = edges
    split
    · rename_i hfound
      simp [hfound]
    · rename_i hfound
      simp [hfound]

theorem missingReferences_iff (engine : Engine g) (target : Str) :
    (fileReason target ((collectDependents target).run engine.answer).1.references).run
        engine.answer ≠ none ↔
      (∀ table ∈ relTables, startsWith table.1 "References_" = true →
        Read engine target table → tableEdges g target table = []) ∧
      engine.Finds (fileNodeQuery target) ∧ engine.Finds docScriptQuery ∧
      ¬engine.Finds referenceEdgesQuery := by
  rw [← references_nil_iff engine target, fileReason, ← missingReferenceIndexing_iff engine]
  by_cases hnone : ((collectDependents target).run engine.answer).1.references = []
  · rw [if_pos (List.isEmpty_iff.mpr hnone), and_iff_right hnone, Asks.run_bind]
    have hfile := run_existsRow engine (q := fileNodeQuery target) rfl rfl
    by_cases hfinds : engine.Finds (fileNodeQuery target)
    · rw [if_pos (hfile.mpr hfinds), and_iff_right hfinds]
    · rw [if_neg (mt hfile.mp hfinds)]
      simp [hfinds]
  · rw [if_neg (mt List.isEmpty_iff.mp hnone)]
    simp [hnone]

/-- The row of a twin. -/
def twinRowOf (hasActive : Bool) (n : Node (storedSchema missing)) : Row :=
  project ([(.a, "id"), (.a, "cfg_gate")] ++ if hasActive then [(.a, "cfg_active")] else []) n.get

theorem cell_twinRowOf (hasActive : Bool) (n : Node (storedSchema missing)) :
    cell (twinRowOf hasActive n) 0 = (n.props "id").asText := rfl

theorem twin_rows_perm (engine : Engine g) {label : NodeLabel} {hasActive : Bool} {leaf : Str}
    {rows : List Row}
    (h : engine.answer (.query (twinQuery label hasActive leaf)) = some rows) :
    rows.Perm ((g.nodes.filter fun n => n.label = .code label ∧
      (twinQuery label hasActive leaf).cond.holds n.get).map (twinRowOf hasActive)) := by
  obtain ⟨found, hperm, rfl⟩ := engine.sound _ _ h
  rw [g.found_node rfl] at hperm
  refine (hperm.map _).trans (List.Perm.of_eq ?_)
  rw [List.map_map]
  rfl

/-- The twins that are listed are the rows of the answered twin queries. -/
theorem length_cfgTwinRows (engine : Engine g) (plain : Str) :
    ((cfgTwinRows plain).run engine.answer).length =
      (cfgGateLabels.flatMap (twinNodes engine plain)).length := by
  rw [cfgTwinRows, Asks.run_bind, Asks.run_pure, List.length_mergeSort, Asks.run_collect,
    List.length_flatMap, List.length_flatMap]
  refine congrArg List.sum (List.map_congr_left fun label _ => ?_)
  rw [Asks.run_bind, twinNodes]
  dsimp only
  generalize ((nodeColumnExists label "cfg_active").run engine.answer).getD false = hasActive
  rw [Asks.run_bind, runQuery, Asks.run_question]
  cases h : engine.answer (.query (twinQuery label hasActive (afterLast "::".toList plain))) with
  | none => simp
  | some rows =>
      have hperm := twin_rows_perm engine h
      rw [if_pos Option.isSome_some, Asks.run_pure, List.length_map, (hperm.filter _).length_eq,
        List.filter_map, List.length_map, List.filter_filter]
      refine congrArg List.length (List.filter_congr fun n _ => ?_)
      rw [Bool.eq_iff_iff]
      simp [cell_twinRowOf, and_comm]

theorem cfgTwinReason_iff (engine : Engine g) (target : Str) (attribution : Attribution) :
    cfgTwinReason ((targetTwins target).run engine.answer) attribution ≠ none ↔
      hasCfgGate target = true ∧
        2 ≤ (cfgGateLabels.flatMap (twinNodes engine (stripCfgGates target))).length := by
  rw [cfgTwinReason, targetTwins, ← length_cfgTwinRows]
  by_cases hgate : hasCfgGate target = true
  · rw [if_pos hgate, and_iff_right hgate]
    split <;> simp <;> omega
  · rw [if_neg hgate, Asks.run_pure]
    simp [hgate]

theorem unresolved_iff (engine : Engine g) (target : Str) :
    unresolvedCallsiteReason ((unresolvedCallsiteAttribution target
        (lastSegment (stripCfgGates target))).run engine.answer) ≠ none ↔
      ∃ n, CountedSite engine target (lastSegment (stripCfgGates target)) n := by
  rw [← total_pos_iff, unresolvedCallsiteReason]
  split
  · rename_i hzero
    simp [hzero]
  · rename_i hpos
    simp [hpos]

/-- The reasons of the five kinds are none exactly where the list is empty. -/
theorem exact_iff_none (engine : Engine g) (target : Str) :
    ((getImpact target).run engine.answer).epistemic = .exact ↔
      ∀ deps, deps = ((collectDependents target).run engine.answer).1 →
      ∀ attribution, attribution = (unresolvedCallsiteAttribution target
        (lastSegment (stripCfgGates target))).run engine.answer →
        (dynamicDispatchReason target deps.implementors).run engine.answer = none ∧
        heuristicEdgeReason deps = none ∧ unresolvedCallsiteReason attribution = none ∧
        (fileReason target deps.references).run engine.answer = none ∧
        cfgTwinReason ((targetTwins target).run engine.answer) attribution = none := by
  simp only [getImpact, resolveEpistemics, buildEpistemicReasons, Asks.run_bind, Asks.run_pure,
    forall_eq]
  rw [ite_eq_left_iff]
  simp only [reduceCtorEq, imp_false, not_not, List.isEmpty_iff, List.append_eq_nil_iff,
    Option.toList_eq_nil_iff, and_assoc]

/-- The answer is exact exactly where nothing speaks against it. -/
theorem exact_iff (engine : Engine g) (target : Str) :
    ((getImpact target).run engine.answer).epistemic = .exact ↔ ¬HasReason engine target := by
  rw [exact_iff_none]
  simp only [forall_eq]
  rw [← not_iff_not, not_not]
  simp only [not_and_or, ← ne_eq, dynamicDispatch_iff, heuristicEdge_iff, unresolved_iff,
    missingReferences_iff, cfgTwinReason_iff]
  constructor
  · rintro (h | ⟨table, htable, hread, e, he, hconf⟩ | ⟨n, h⟩ | ⟨hnone, hfile, hdocs, hedges⟩ |
      ⟨hgate, htwins⟩)
    · exact .dynamicDispatch h
    · exact .heuristicEdge htable hread he hconf
    · exact .openSite h
    · exact .missingReferences hnone hfile hdocs hedges
    · exact .cfgTwins hgate htwins
  · rintro (h | ⟨htable, hread, he, hconf⟩ | h | ⟨hnone, hfile, hdocs, hedges⟩ | ⟨hgate, htwins⟩)
    · exact .inl h
    · exact .inr (.inl ⟨_, htable, hread, _, he, hconf⟩)
    · exact .inr (.inr (.inl ⟨_, h⟩))
    · exact .inr (.inr (.inr (.inl ⟨hnone, hfile, hdocs, hedges⟩)))
    · exact .inr (.inr (.inr (.inr ⟨hgate, htwins⟩)))

/-! ### Completeness -/

/-- The queries of the traversal are among those that `get_impact` puts. -/
theorem reverseQuery_mem_asked (engine : Engine g) (target : Str) {table : RelSchema}
    (htable : table ∈ relTables) (hcollected : Collected table.1)
    (hsite : table.2.1 ≠ .callSite) :
    .query (reverseQuery target table) ∈ (getImpact target).asked engine.answer := by
  obtain ⟨start, hstart, htraversed⟩ := hcollected
  have hasked : Statement.query (reverseQuery target table) ∈
      (reverseDependents target start).asked engine.answer := by
    rw [reverseDependents, Asks.asked_collect]
    refine List.mem_flatMap.mpr ⟨table, htable, ?_⟩
    simp [htraversed, hsite, runQuery]
  have hcollect : Statement.query (reverseQuery target table) ∈
      (collectDependents target).asked engine.answer := by
    simp only [collectedPrefixes, List.mem_cons, List.not_mem_nil, or_false] at hstart
    rcases hstart with rfl | rfl | rfl | rfl | rfl <;>
      simp [collectDependents, hasked]
  simp [getImpact, hcollect]

/-- An exact answer for the target holds every node that depends on it, and no query that the
answer was made from failed. -/
def ExactIsComplete (engine : Engine g) (target : Str) : Prop :=
  ((getImpact target).run engine.answer).epistemic = .exact →
    (∀ e ∈ g.edges, DependencyInto target e →
      ((getImpact target).run engine.answer).dependents.Has e.source) ∧
    ∀ s ∈ (getImpact target).asked engine.answer, engine.answer s ≠ none

/-- Every node that depends on the target by a table that is not collected also depends on it
by one that is. -/
def CoveredByCollected (g : Graph (storedSchema missing)) (target : Str) : Prop :=
  ∀ e ∈ g.edges, DependencyInto target e → ¬Collected e.table →
    ∃ e' ∈ g.edges, Collected e'.table ∧ Denotes target e'.target ∧
      e'.source.label = e.source.label ∧
      (e'.source.props "id").asText = (e.source.props "id").asText

/-- A node is in a section exactly where an edge of a table that is read leads from it into the
target. -/
theorem has_iff (engine : Engine g) (target : Str) (n : Node (storedSchema missing)) :
    ((getImpact target).run engine.answer).dependents.Has n ↔
      ∃ table ∈ relTables, Read engine target table ∧ ∃ e ∈ tableEdges g target table,
        n.label = .code table.2.1 ∧
          (e.source.props "id").asText = (n.props "id").asText := by
  rw [← exists_mem_all_iff engine target fun id label _ =>
    n.label = .code label ∧ id = (n.props "id").asText]
  simp [Dependents.Has, getImpact]

theorem complete_iff_covered (engine : Engine g) (target : Str)
    (hanswers : ∀ s ∈ (getImpact target).asked engine.answer, engine.answer s ≠ none) :
    (∀ e ∈ g.edges, DependencyInto target e →
        ((getImpact target).run engine.answer).dependents.Has e.source) ↔
      CoveredByCollected g target := by
  constructor
  · intro h e he hinto _
    obtain ⟨table, -, hread, e', he', hlabel, hid⟩ := (has_iff engine target _).mp (h e he hinto)
    obtain ⟨hmem, hin⟩ := List.mem_filter.mp he'
    obtain ⟨hin, hdenotes⟩ := of_decide_eq_true hin
    exact ⟨e', hmem, by rw [hin.1]; exact hread.1, hdenotes, by rw [hin.2.1, hlabel], hid⟩
  · intro h e he hinto
    obtain ⟨e', he', hcollected, hdenotes, hlabel, hid⟩ : ∃ e' ∈ g.edges, Collected e'.table ∧
        Denotes target e'.target ∧ e'.source.label = e.source.label ∧
        (e'.source.props "id").asText = (e.source.props "id").asText := by
      by_cases hcollected : Collected e.table
      · exact ⟨e, he, hcollected, hinto.2.2, rfl, rfl⟩
      · exact h e he hinto hcollected
    obtain ⟨table, htable, hin⟩ := exists_table e'
    have hsite : table.2.1 ≠ .callSite := by
      intro heq
      refine hinto.2.1 ?_
      rw [← hlabel, hin.2.1, heq]
    rw [hin.1] at hcollected
    have hanswer := hanswers _ (reverseQuery_mem_asked engine target htable hcollected hsite)
    refine (has_iff engine target _).mpr ⟨table, htable, ⟨hcollected, hsite, ?_⟩, e', ?_, ?_, hid⟩
    · exact Option.isSome_iff_ne_none.mpr hanswer
    · exact List.mem_filter.mpr ⟨he', decide_eq_true ⟨hin, hdenotes⟩⟩
    · rw [← hlabel, hin.2.1]

/-- An exact answer is complete and made from answers only, exactly where something speaks
against it, or every dependent is covered by the tables that are collected and the store
answers every query that is put. -/
theorem exact_impact_is_complete_iff (engine : Engine g) (target : Str) :
    ExactIsComplete engine target ↔
      HasReason engine target ∨
        CoveredByCollected g target ∧
          ∀ s ∈ (getImpact target).asked engine.answer, engine.answer s ≠ none := by
  rw [ExactIsComplete, exact_iff]
  by_cases hreason : HasReason engine target
  · exact iff_of_true (fun h => absurd hreason h) (Or.inl hreason)
  · rw [or_iff_right hreason]
    constructor
    · intro h
      obtain ⟨hcomplete, hanswers⟩ := h hreason
      exact ⟨(complete_iff_covered engine target hanswers).mp hcomplete, hanswers⟩
    · rintro ⟨hcovered, hanswers⟩ -
      exact ⟨(complete_iff_covered engine target hanswers).mpr hcovered, hanswers⟩

/-! ### A subclass -/

/-- A class of `src/a.py`. -/
def classNode (id name : Str) : Node schema :=
  Node.of schema (.code .struct)
    [("id", .text id), ("name", .text name), ("qualified_name", .text id)]

/-- The class `Sub` extends the class `Base`, and nothing else refers to `Base`. -/
def subclassGraph : Graph schema where
  nodes := [classNode "src/a.py::Base".toList "Base".toList,
    classNode "src/a.py::Sub".toList "Sub".toList]
  edges := [{
    table := "Extends_Struct_Struct"
    source := classNode "src/a.py::Sub".toList "Sub".toList
    target := classNode "src/a.py::Base".toList "Base".toList
    props := fun _ => .null
    table_mem := by decide +kernel }]
  ends_mem := by simp

/-- The answer for `Base` is exact and lists nothing. -/
theorem subclass_is_not_in_an_exact_answer :
    ¬ ExactIsComplete subclassGraph.engine "src/a.py::Base".toList := by
  intro h
  have hexact : ((getImpact "src/a.py::Base".toList).run
      subclassGraph.engine.answer).epistemic = .exact := by
    decide +kernel
  have hnone : ((getImpact "src/a.py::Base".toList).run
      subclassGraph.engine.answer).dependents.all = [] := by
    decide +kernel
  obtain ⟨d, hd, -⟩ := (h hexact).1 _ List.mem_cons_self
    ⟨⟨"Extends_", by decide +kernel, by decide +kernel⟩, by decide +kernel, Or.inl rfl⟩
  rw [hnone] at hd
  cases hd

end AutomatisedPipeline.Impact

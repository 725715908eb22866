import AutomatisedPipeline.Cfg.Canonical
import AutomatisedPipeline.DocClaims.Floor

/-!
What a count verdict says about builds, and when it is right.

A build decides which attributes keep what they stand on. How the compiler reads an
attribute is a parameter, `reading`, so nothing here rests on the checker's own reading of
it. A parsed row comes with the declaration it was parsed from, and is certain when
every build with the option of the harness compiles and runs that declaration.

The floor counts a row for the sake of the first function on its line. `countSound_iff`
says that this is the only way it can be wrong: the verdicts on entry points are sound
exactly where every row that passes is certain. `certain_of_plain` says what makes it
right: a function that the checker finds plain is certain when the checker sees every
attribute that the compiler acts on.
-/

namespace AutomatisedPipeline.DocClaims

open Text Cfg
open Indexer (owningFile)

/-! ### What an attribute does in a build -/

/-- What the compiler makes of an attribute. -/
inductive Meta where
  | cfg (p : CfgPredicate)
  | cfgAttr (p : CfgPredicate) (attrs : List Meta)
  | other

namespace Meta

mutual
/-- The attribute keeps what it stands on. -/
def kept (b : Build) : Meta → Bool
  | .cfg p => p.holds b
  | .cfgAttr p attrs => !p.holds b || keptAll b attrs
  | .other => true

def keptAll (b : Build) : List Meta → Bool
  | [] => true
  | m :: ms => m.kept b && keptAll b ms
end

mutual
/-- The attribute is a `cfg` or adds one. -/
def gates : Meta → Bool
  | .cfg _ => true
  | .cfgAttr _ attrs => gatesAny attrs
  | .other => false

def gatesAny : List Meta → Bool
  | [] => false
  | m :: ms => m.gates || gatesAny ms
end

mutual
theorem kept_of_not_gates (b : Build) : (m : Meta) → m.gates = false → m.kept b = true
  | .cfg _, h => by simp [gates] at h
  | .cfgAttr p attrs, h => by simp [kept, keptAll_of_not_gatesAny b attrs (by simpa [gates] using h)]
  | .other, _ => rfl

theorem keptAll_of_not_gatesAny (b : Build) :
    (ms : List Meta) → gatesAny ms = false → keptAll b ms = true
  | [], _ => rfl
  | m :: ms, h => by
      rw [gatesAny, Bool.or_eq_false_iff] at h
      simp [keptAll, kept_of_not_gates b m h.1, keptAll_of_not_gatesAny b ms h.2]
end

end Meta

section Builds

variable (isAlphanumeric : Char → Bool) (reading : Node → Meta)

/-! ### Certain declarations -/

/-- The attributes that reach an item: the outer ones of the item and of every node
around it, the inner ones of every node around it and of its own body. -/
def reaching (place : Place) : List Node :=
  (place.item :: place.above).flatMap (fun level => precedingAttributes level.before) ++
    place.above.flatMap (fun level => innerAttributes level.node) ++
      place.item.node.namedChildren.flatMap innerAttributes

/-- Every build with the option compiles and runs the function at `place`, once it
compiles the file. -/
structure CertainItem (option : Str) (place : Place) : Prop where
  notNested : hasAncestor place .functionItem = false
  kept : ∀ b : Build, b.flag option = true → ∀ attr ∈ reaching place, (reading attr).kept b = true

/-- Every build with the option of the harness compiles the file into a target that the
harness runs. -/
def CertainFile (repo : Repository) (harness : Harness) (file : Str) : Prop :=
  ∃ context gate, repo.fileRow file = some (context, gate) ∧ context ∈ harness.contexts ∧
    (gate = [] ∨ ∃ p, parseCompact gate = some p ∧
      ∀ b : Build, b.flag harness.option = true → p.holds b = true)

/-- A row of the graph and the declaration it was parsed from. -/
structure Parsed where
  row : Row
  own : Place

/-- The row's own declaration is one that every build with the option of the harness
compiles and runs. -/
def Parsed.Certain (repo : Repository) (harness : Harness) (parsed : Parsed) : Prop :=
  CertainFile repo harness (owningFile parsed.row.id) ∧
    CertainItem reading harness.option parsed.own

open Classical in
/-- How many of the rows are certain. -/
noncomputable def certainCount (repo : Repository) (harness : Harness) (rows : List Parsed) : Nat :=
  rows.countP fun parsed => decide (parsed.Certain reading repo harness)

/-- A number of entry points, or of variants, satisfies what is claimed. -/
def Expected.Holds (expected : Expected) (t : Nat) : Prop :=
  match expected with
  | .exact n => t = n
  | .atLeast n => n ≤ t

/-- The verdicts on entry points are sound over the known rows: whatever part of them a
claim counts, and whatever number `t` of entry points a build runs that is at least the
number of certain ones, the floor is at most `t`, a contradicted claim is wrong about
`t`, and a supported lower bound is right about it. -/
def CountSound (repo : Repository) (harness : Harness) (known : List Parsed) : Prop :=
  ∀ rows ⊆ known, ∀ t, certainCount reading repo harness rows ≤ t →
    (compiledFloor isAlphanumeric repo (rows.map Parsed.row) harness).1 ≤ t ∧
      ∀ expected,
        ((rowsVerdict isAlphanumeric repo harness (rows.map Parsed.row) expected).verdict =
            .contradicted → ¬expected.Holds t) ∧
          ∀ n, expected = .atLeast n →
            (rowsVerdict isAlphanumeric repo harness (rows.map Parsed.row) expected).verdict =
              .supported → n ≤ t

/-! ### The guards of a count verdict -/

theorem undecidedCount_verdict (declared floor n : Nat) :
    (undecidedCount declared floor n).verdict = .notVerifiable := by
  unfold undecidedCount
  split <;> rfl

/-- Only a floor above the claim contradicts it. -/
theorem countVerdict_contradicted {expected : Expected} {declared floor t : Nat}
    (h : (countVerdict expected declared floor).verdict = .contradicted) (hfloor : floor ≤ t) :
    ¬expected.Holds t := by
  cases expected with
  | exact n =>
      simp only [countVerdict] at h
      split_ifs at h with hgt
      · simp only [Expected.Holds]
        omega
      · rw [undecidedCount_verdict] at h
        cases h
  | atLeast n =>
      simp only [countVerdict] at h
      split_ifs at h
      · rw [undecidedCount_verdict] at h
        cases h

/-- Only a floor that reaches a lower bound supports it. -/
theorem countVerdict_supported {declared floor n : Nat}
    (h : (countVerdict (.atLeast n) declared floor).verdict = .supported) : n ≤ floor := by
  simp only [countVerdict] at h
  split_ifs at h with hge
  · exact hge
  · rw [undecidedCount_verdict] at h
    cases h

/-! ### When the verdicts on entry points are sound -/

theorem compiledFloor_le_certainCount {repo : Repository} {harness : Harness}
    {rows : List Parsed}
    (h : ∀ parsed ∈ rows, Passes isAlphanumeric repo harness parsed.row →
      parsed.Certain reading repo harness) :
    (compiledFloor isAlphanumeric repo (rows.map Parsed.row) harness).1 ≤
      certainCount reading repo harness rows := by
  classical
  rw [compiledFloor_eq, List.countP_map, certainCount]
  apply List.countP_mono_left
  intro parsed hmem hnone
  have hpasses := (rowVerdict_isNone_iff isAlphanumeric).mp hnone
  exact decide_eq_true (h parsed hmem hpasses)

/-- The verdicts on entry points are sound exactly where every row whose line starts
with a plain function is certain itself. -/
theorem countSound_iff {repo : Repository} {harness : Harness} {known : List Parsed} :
    CountSound isAlphanumeric reading repo harness known ↔
      ∀ parsed ∈ known, Passes isAlphanumeric repo harness parsed.row →
        parsed.Certain reading repo harness := by
  constructor
  · intro hsound parsed hmem hpasses
    by_contra hnot
    have hcertain : certainCount reading repo harness [parsed] = 0 := by
      simp [certainCount, hnot]
    have hfloor : (compiledFloor isAlphanumeric repo [parsed.row] harness).1 = 1 := by
      rw [compiledFloor_eq, List.countP_singleton, if_pos]
      exact (rowVerdict_isNone_iff isAlphanumeric).mpr hpasses
    have hle := (hsound [parsed] (by simpa using hmem) 0 hcertain.le).1
    rw [List.map_singleton, hfloor] at hle
    exact absurd hle (by decide)
  · intro h rows hsub t ht
    have hfloor := (compiledFloor_le_certainCount isAlphanumeric reading
      fun parsed hmem => h parsed (hsub hmem)).trans ht
    refine ⟨hfloor, fun expected => ⟨fun hverdict => ?_, ?_⟩⟩
    · exact countVerdict_contradicted hverdict hfloor
    · rintro n rfl hverdict
      exact (countVerdict_supported hverdict).trans hfloor

/-! ### What makes a plain function certain -/

/-- The attributes that the gate of an item takes in. -/
def looked (place : Place) : List Node :=
  precedingAttributes place.item.before ++ place.above.flatMap fun level =>
    (if level.node.kind ∈ gatingAncestors then precedingAttributes level.before else []) ++
      (if isContainer level.node.kind then innerAttributes level.node else [])

/-- The checker reads what reaches an item as the compiler does: an attribute it does
not look at gates nothing, and one it looks at keeps the item in every build where the
`cfg` that the checker reads holds, unless it is a `cfg_attr` that adds a `cfg`. -/
structure PlainlyRead (place : Place) : Prop where
  unseen : ∀ attr ∈ reaching place, attr ∉ looked place → (reading attr).gates = false
  read : ∀ attr ∈ looked place, cfgAttrAddsCfg attr = false → ∀ b : Build,
    (∀ p, cfgOf isAlphanumeric attr = some p → p.holds b = true) → (reading attr).kept b = true

theorem gatePredicates_eq (place : Place) :
    gatePredicates isAlphanumeric place = (looked place).filterMap (cfgOf isAlphanumeric) := by
  have hlevel : ancestorCfgs isAlphanumeric = fun level =>
      ((if level.node.kind ∈ gatingAncestors then precedingAttributes level.before else []) ++
        (if isContainer level.node.kind then innerAttributes level.node else [])).filterMap
          (cfgOf isAlphanumeric) := by
    funext level
    rw [ancestorCfgs, List.filterMap_append]
    congr 1
    · split <;> rfl
    · split <;> rfl
  rw [gatePredicates, looked, List.filterMap_append, List.filterMap_flatMap, hlevel]
  rfl

theorem not_cfgAttr_of_mem_looked {place : Place} (h : reachedByCfgAttr place = false)
    {attr : Node} (hmem : attr ∈ looked place) : cfgAttrAddsCfg attr = false := by
  have hlevels : ∀ level ∈ place.item :: place.above, levelHasCfgAttr level = false := by
    simpa [reachedByCfgAttr] using h
  have houter : ∀ level ∈ place.item :: place.above,
      attr ∈ precedingAttributes level.before → cfgAttrAddsCfg attr = false := by
    intro level hlevel hattr
    have hnone := hlevels level hlevel
    rw [levelHasCfgAttr, Bool.or_eq_false_iff] at hnone
    simpa using List.any_eq_false.mp hnone.1 attr hattr
  rcases List.mem_append.mp hmem with hown | habove
  · exact houter place.item (by simp) hown
  · obtain ⟨level, hlevel, hattr⟩ := List.mem_flatMap.mp habove
    have hin : level ∈ place.item :: place.above := List.mem_cons_of_mem _ hlevel
    rcases List.mem_append.mp hattr with hattr | hattr
    · split at hattr
      · exact houter level hin hattr
      · cases hattr
    · split at hattr
      · rename_i hcontainer
        have hnone := hlevels level hin
        rw [levelHasCfgAttr, Bool.or_eq_false_iff, hcontainer, Bool.true_and] at hnone
        simpa using List.any_eq_false.mp hnone.2 attr hattr
      · cases hattr

theorem cfgOf_spelled {attr : Node} {p : CfgPredicate} (h : cfgOf isAlphanumeric attr = some p) :
    ∀ x ∈ p.leaves, Spelled x := by
  unfold cfgOf at h
  split at h
  · obtain ⟨raw, -, rfl⟩ := Option.map_eq_some_iff.mp h
    cases hparse : parseCfgArguments isAlphanumeric (withoutComments raw) with
    | none =>
        intro x hx
        simp only [Option.getD_none, CfgPredicate.leaves, List.mem_singleton] at hx
        subst hx
        exact ⟨by decide, fun heq => absurd heq (by decide)⟩
    | some p => exact parseCfgArguments_spelled hparse
  · cases h

/-- Where the gate of a function is empty or the option, every `cfg` that the checker
reads holds in every build with the option. -/
theorem holds_of_effectiveGate {option : Str} (hoption : encode option = option) {place : Place}
    (hgate : effectiveGate isAlphanumeric place = [] ∨
      effectiveGate isAlphanumeric place = option) {b : Build} (hb : b.flag option = true) :
    ∀ p ∈ gatePredicates isAlphanumeric place, p.holds b = true := by
  unfold effectiveGate at hgate
  split at hgate
  · rename_i hnil
    simp [hnil]
  · rename_i hcons
    have hspelled : ∀ x ∈ (CfgPredicate.all (gatePredicates isAlphanumeric place)).leaves,
        Spelled x := by
      intro x hx
      rw [CfgPredicate.leaves, CfgPredicate.mem_leavesList] at hx
      obtain ⟨p, hp, hx⟩ := hx
      rw [gatePredicates_eq, List.mem_filterMap] at hp
      obtain ⟨attr, -, hattr⟩ := hp
      exact cfgOf_spelled isAlphanumeric hattr x hx
    rcases hgate with hnil | hgate
    · exact absurd hnil (CfgPredicate.compact_ne_nil hspelled)
    · rw [← hoption] at hgate
      have hall := CfgPredicate.holds_of_compact_eq hgate b
      rw [hb, CfgPredicate.holds, CfgPredicate.holdsAll_eq, List.all_eq_true] at hall
      exact hall

/-- A plain function whose attributes the checker reads as the compiler does is certain. -/
theorem certain_of_plain {option : Str} (hoption : encode option = option) {place : Place}
    (hplain : Plain isAlphanumeric option place)
    (hread : PlainlyRead isAlphanumeric reading place) : CertainItem reading option place := by
  refine ⟨hplain.notNested, fun b hb attr hattr => ?_⟩
  by_cases hlooked : attr ∈ looked place
  · apply hread.read attr hlooked (not_cfgAttr_of_mem_looked hplain.noCfgAttr hlooked) b
    intro p hp
    apply holds_of_effectiveGate isAlphanumeric hoption hplain.gate hb
    rw [gatePredicates_eq, List.mem_filterMap]
    exact ⟨attr, hlooked, hp⟩
  · exact Meta.kept_of_not_gates b _ (hread.unseen attr hattr hlooked)

theorem certainFile_of_opens {repo : Repository} {harness : Harness} {file : Str} {root : Node}
    (hne : harness.option ≠ []) (hoption : encode harness.option = harness.option)
    (hopens : Opens repo harness file root) : CertainFile repo harness file := by
  obtain ⟨context, gate, hrow, hin, hgate⟩ := hopens.facts
  refine ⟨context, gate, hrow, hin, hgate.imp_right fun heq => ?_⟩
  have hback : parseCompact (CfgPredicate.option harness.option none).compact =
      some (.option harness.option none) := by
    apply parseCompact_compact
    · simp [CfgPredicate.leaves, Spelled, hne]
    · simp [NoEmptyValue, CfgPredicate.leaves, NonEmptyLeaf]
  rw [CfgPredicate.compact, hoption, ← heq] at hback
  exact ⟨_, hback, fun b hb => by rw [CfgPredicate.holds, heq, hb]⟩

end Builds

end AutomatisedPipeline.DocClaims

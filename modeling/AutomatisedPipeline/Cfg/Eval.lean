import AutomatisedPipeline.Cfg.Predicate
import AutomatisedPipeline.Logic.Kleene

/-!
Evaluation of predicates under a build profile (`CfgPredicate::eval_with` of
`parser/cfg_expr.rs`), and what a predicate means in one build.

A `Build` decides every option, so a predicate is true or false in it. A profile
knows the features and some of the bare options. `admits_evalWith` says that the
three-valued evaluation under a profile never contradicts a build that agrees
with what the profile knows.
-/

namespace AutomatisedPipeline.Cfg

open Text Kleene

/-! ### The source's definitions -/

/-- `NEVER_SET_BY_A_PLAIN_BUILD`. -/
def neverSetByAPlainBuild : List Str := ["kani", "miri", "doc", "doctest"].map String.toList

/-- `BuildProfile`: the enabled features and the bare options it decides. -/
structure BuildProfile where
  features : List Str
  options : List (Str × Bool)
deriving Repr

/-- `BuildProfile::with_features`: the default profile. -/
def BuildProfile.withFeatures (features : List Str) : BuildProfile where
  features := features
  options := neverSetByAPlainBuild.map fun name => (name, false)

/-- `fold`: a list of terms, given the verdict that absorbs and the verdict of
the empty list. -/
def fold (absorbing result : Truth) : List Truth → Truth
  | [] => result
  | t :: ts =>
      if t = absorbing then absorbing
      else if t = .unknown then fold absorbing .unknown ts
      else fold absorbing result ts

namespace CfgPredicate

mutual
/-- `CfgPredicate::eval_with`. -/
def evalWith (enabled : List Str) (options : List (Str × Bool)) : CfgPredicate → Truth
  | .feature f => if f ∈ enabled then .true else .false
  | .option key none =>
      match options.lookup key with
      | some true => .true
      | some false => .false
      | none => .unknown
  | .option _ (some _) => .unknown
  | .all items => fold .false .true (evalItems enabled options items)
  | .any items => fold .true .false (evalItems enabled options items)
  | .not inner => negate (inner.evalWith enabled options)

def evalItems (enabled : List Str) (options : List (Str × Bool)) : List CfgPredicate → List Truth
  | [] => []
  | item :: items => item.evalWith enabled options :: evalItems enabled options items
end

/-- `CfgPredicate::eval_in`. -/
def evalIn (profile : BuildProfile) (p : CfgPredicate) : Truth :=
  p.evalWith profile.features profile.options

theorem evalItems_eq_map (enabled : List Str) (options : List (Str × Bool))
    (items : List CfgPredicate) :
    evalItems enabled options items = items.map (evalWith enabled options) := by
  induction items with
  | nil => rfl
  | cons p items ih => rw [evalItems, ih, List.map_cons]

end CfgPredicate

/-! ### Builds -/

/-- A build decides every feature, every bare option and every option with a
value. -/
structure Build where
  feature : Str → Bool
  flag : Str → Bool
  valued : Str → Str → Bool

namespace CfgPredicate

mutual
/-- The truth of a predicate in a build. -/
def holds (b : Build) : CfgPredicate → Bool
  | .feature f => b.feature f
  | .option key none => b.flag key
  | .option key (some value) => b.valued key value
  | .all items => holdsAll b items
  | .any items => holdsAny b items
  | .not inner => !inner.holds b

def holdsAll (b : Build) : List CfgPredicate → Bool
  | [] => true
  | item :: items => item.holds b && holdsAll b items

def holdsAny (b : Build) : List CfgPredicate → Bool
  | [] => false
  | item :: items => item.holds b || holdsAny b items
end

@[simp] theorem holdsAll_eq (b : Build) (items : List CfgPredicate) :
    holdsAll b items = items.all (holds b) := by
  induction items with
  | nil => rfl
  | cons p items ih => rw [holdsAll, ih, List.all_cons]

@[simp] theorem holdsAny_eq (b : Build) (items : List CfgPredicate) :
    holdsAny b items = items.any (holds b) := by
  induction items with
  | nil => rfl
  | cons p items ih => rw [holdsAny, ih, List.any_cons]

end CfgPredicate

/-- The build agrees with what the profile decides. -/
structure Build.Completes (b : Build) (profile : BuildProfile) : Prop where
  feature : ∀ f, b.feature f = true ↔ f ∈ profile.features
  option : ∀ name value, profile.options.lookup name = some value → b.flag name = value

/-! ### Soundness of the evaluation -/

theorem fold_conj (result : Truth) (hresult : result ≠ .false) (ts : List Truth) :
    fold .false result ts = if result = .unknown then
      (if .false ∈ ts then .false else .unknown) else conj ts := by
  induction ts generalizing result with
  | nil => cases result <;> simp_all [fold, conj]
  | cons t ts ih =>
      cases t with
      | false => simp [fold, conj]
      | true => simp [fold, conj, ih result hresult]
      | unknown => cases result <;> simp_all [fold, conj]

theorem fold_disj (result : Truth) (hresult : result ≠ .true) (ts : List Truth) :
    fold .true result ts = if result = .unknown then
      (if .true ∈ ts then .true else .unknown) else disj ts := by
  induction ts generalizing result with
  | nil => cases result <;> simp_all [fold, disj]
  | cons t ts ih =>
      cases t with
      | true => simp [fold, disj]
      | false => simp [fold, disj, ih result hresult]
      | unknown => cases result <;> simp_all [fold, disj]

/-- What a profile decides of a predicate is its truth in every build that
completes the profile. -/
theorem admits_evalIn {b : Build} {profile : BuildProfile} (h : b.Completes profile)
    (p : CfgPredicate) : Admits (p.evalIn profile) (p.holds b) := by
  induction p using CfgPredicate.induct with
  | feature f =>
      have hf := h.feature f
      by_cases hmem : f ∈ profile.features
      · simpa [CfgPredicate.evalIn, CfgPredicate.evalWith, CfgPredicate.holds, hmem] using hf
      · simpa [CfgPredicate.evalIn, CfgPredicate.evalWith, CfgPredicate.holds, hmem] using hf
  | option key value =>
      cases value with
      | some value => simp [CfgPredicate.evalIn, CfgPredicate.evalWith]
      | none =>
          have hkey := h.option key
          unfold CfgPredicate.evalIn CfgPredicate.evalWith CfgPredicate.holds
          split
          · rename_i hl; simpa using hkey true hl
          · rename_i hl; simpa using hkey false hl
          · exact admits_unknown _
  | all items ih =>
      have hall : Admits (conj (items.map (CfgPredicate.evalWith profile.features profile.options)))
          (items.all (CfgPredicate.holds b)) := admits_conj ih
      simpa [CfgPredicate.evalIn, CfgPredicate.evalWith, CfgPredicate.holds,
        CfgPredicate.evalItems_eq_map, fold_conj] using hall
  | any items ih =>
      have hany : Admits (disj (items.map (CfgPredicate.evalWith profile.features profile.options)))
          (items.any (CfgPredicate.holds b)) := admits_disj ih
      simpa [CfgPredicate.evalIn, CfgPredicate.evalWith, CfgPredicate.holds,
        CfgPredicate.evalItems_eq_map, fold_disj] using hany
  | not inner ih =>
      have hnot := ih.negate
      rwa [CfgPredicate.holds, CfgPredicate.evalIn, CfgPredicate.evalWith]

/-! ### Deciding more options -/

/-- The second profile enables the same features and decides at least the options
the first one does, as the first one does. -/
structure BuildProfile.Extends (profile profile' : BuildProfile) : Prop where
  features : ∀ f, f ∈ profile'.features ↔ f ∈ profile.features
  options : ∀ name value, profile.options.lookup name = some value →
    profile'.options.lookup name = some value

theorem refines_evalIn {profile profile' : BuildProfile} (h : profile.Extends profile')
    (p : CfgPredicate) : Refines (p.evalIn profile) (p.evalIn profile') := by
  induction p using CfgPredicate.induct with
  | feature f =>
      refine .inr ?_
      simp only [CfgPredicate.evalIn, CfgPredicate.evalWith, h.features f]
  | option key value =>
      cases value with
      | some value => exact .inl (by rw [CfgPredicate.evalIn, CfgPredicate.evalWith])
      | none =>
          simp only [CfgPredicate.evalIn, CfgPredicate.evalWith]
          cases hlookup : profile.options.lookup key with
          | none => exact .inl rfl
          | some value =>
              rw [h.options key value hlookup]
              exact .inr rfl
  | all items ih =>
      have hall : Refines
          (conj (items.map (CfgPredicate.evalWith profile.features profile.options)))
          (conj (items.map (CfgPredicate.evalWith profile'.features profile'.options))) :=
        refines_conj ih
      simpa [CfgPredicate.evalIn, CfgPredicate.evalWith, CfgPredicate.evalItems_eq_map,
        fold_conj] using hall
  | any items ih =>
      have hany : Refines
          (disj (items.map (CfgPredicate.evalWith profile.features profile.options)))
          (disj (items.map (CfgPredicate.evalWith profile'.features profile'.options))) :=
        refines_disj ih
      simpa [CfgPredicate.evalIn, CfgPredicate.evalWith, CfgPredicate.evalItems_eq_map,
        fold_disj] using hany
  | not inner ih =>
      have hnot := ih.negate
      rwa [CfgPredicate.evalIn, CfgPredicate.evalWith, CfgPredicate.evalIn, CfgPredicate.evalWith]

/-- A definite answer is the truth of the predicate in every build that completes
the profile, and stays as it is when the profile decides more options. -/
theorem evalIn_sound_and_stable (p : CfgPredicate) (profile : BuildProfile) :
    (p.evalIn profile = .true → ∀ b : Build, b.Completes profile → p.holds b = true) ∧
      (p.evalIn profile = .false → ∀ b : Build, b.Completes profile → p.holds b = false) ∧
        ∀ profile' : BuildProfile, profile.Extends profile' → p.evalIn profile ≠ .unknown →
          p.evalIn profile' = p.evalIn profile := by
  refine ⟨fun htrue b hb => ?_, fun hfalse b hb => ?_, fun profile' hext hdecided => ?_⟩
  · exact (admits_evalIn hb p).1 htrue
  · exact (admits_evalIn hb p).2 hfalse
  · rcases refines_evalIn hext p with hunknown | heq
    · exact absurd hunknown hdecided
    · exact heq

end AutomatisedPipeline.Cfg

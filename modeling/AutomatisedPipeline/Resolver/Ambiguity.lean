import AutomatisedPipeline.Text.Find

/-!
The ambiguity policy of symbol resolution (`ambiguity_policy.rs`).

`resolve` tries its evidence tiers in order and takes the first one that exactly
one candidate satisfies. `uniqueMatch_eq_some_iff` turns the scan of a tier into a
filter, so what a tier finds is a property of the candidates and not of their
order; `resolve_perm` and `resolve_strongest` follow tier by tier.
-/

namespace AutomatisedPipeline.Resolver

open Text

/-! ### The source's definitions -/

/-- `Evidence`, strongest first. -/
inductive Evidence where
  | uniqueGlobal
  | receiverBound
  | importMatch
  | receiverLocalBinding
  | receiverReturnType
  | sameFileUnique
  | packageProximity
  | macroExpansion
  | macroReceiverType
  | cfgSelected
deriving DecidableEq, Repr

/-- `confidence_for`, in hundredths. -/
def confidenceFor : Evidence → Nat
  | .uniqueGlobal => 95
  | .receiverBound => 93
  | .importMatch => 90
  | .receiverLocalBinding => 87
  | .receiverReturnType => 85
  | .sameFileUnique => 85
  | .packageProximity => 70
  | .macroExpansion => 85
  | .macroReceiverType => 80
  | .cfgSelected => 85

/-- `Candidate`. -/
class Candidate (α : Type) where
  qualifiedName : α → Str

/-- `Context`. -/
structure Context where
  importsInScope : List Str
  callerFile : Str
  callerPackage : Option Str
deriving Repr

/-- `Resolution`. -/
inductive Resolution (α : Type) where
  | resolved (target : α) (evidence : Evidence) (confidence : Nat)
  | ambiguous (candidates : List α)
  | notFound
deriving DecidableEq, Repr

/-- `resolved`. -/
def resolved {α : Type} (target : α) (evidence : Evidence) : Resolution α :=
  .resolved target evidence (confidenceFor evidence)

/-- The loop of `unique_match`. -/
def uniqueMatchFrom {α : Type} (pred : α → Bool) (found : Option α) : List α → Option α
  | [] => found
  | c :: rest =>
      if pred c then
        if found.isSome then none else uniqueMatchFrom pred (some c) rest
      else uniqueMatchFrom pred found rest

/-- `unique_match`. -/
def uniqueMatch {α : Type} (candidates : List α) (pred : α → Bool) : Option α :=
  uniqueMatchFrom pred none candidates

section Policy

variable {α : Type} [Candidate α]

open Candidate (qualifiedName)

/-- `import_matches`. -/
def importMatches (candidate : α) (importsInScope : List Str) : Bool :=
  importsInScope.any fun imp =>
    let cSegs := replace "::".toList ['/'] (qualifiedName candidate)
    let impSegs := replace ['.'] ['/'] (replace "::".toList ['/'] imp)
    impSegs.isSuffixOf cSegs || cSegs.isSuffixOf impSegs

/-- The candidate's name starts with the package of the caller, when it is known. -/
def inPackage (ctx : Context) (candidate : α) : Bool :=
  ctx.callerPackage.any fun pkg => pkg.isPrefixOf (qualifiedName candidate)

/-- `resolve`. -/
def resolve (candidates : List α) (ctx : Context) : Resolution α :=
  match candidates with
  | [] => .notFound
  | [only] => resolved only .uniqueGlobal
  | candidates =>
      match uniqueMatch candidates fun c => importMatches c ctx.importsInScope with
      | some target => resolved target .importMatch
      | none =>
          match uniqueMatch candidates fun c => ctx.callerFile.isPrefixOf (qualifiedName c) with
          | some target => resolved target .sameFileUnique
          | none =>
              match ctx.callerPackage with
              | none => .ambiguous candidates
              | some pkg =>
                  match uniqueMatch candidates fun c => pkg.isPrefixOf (qualifiedName c) with
                  | some target => resolved target .packageProximity
                  | none => .ambiguous candidates

end Policy

/-! ### Unique matches -/

section Unique

variable {α : Type} {pred : α → Bool}

theorem uniqueMatchFrom_some (y : α) (l : List α) (x : α) :
    uniqueMatchFrom pred (some y) l = some x ↔ y = x ∧ l.filter pred = [] := by
  induction l with
  | nil => simp [uniqueMatchFrom]
  | cons c l ih =>
      by_cases hc : pred c = true
      · simp [uniqueMatchFrom, hc]
      · rw [uniqueMatchFrom, if_neg hc, ih, List.filter_cons_of_neg hc]

/-- `unique_match` finds a candidate exactly when it is the only one that
satisfies the predicate. -/
theorem uniqueMatch_eq_some_iff (l : List α) (x : α) :
    uniqueMatch l pred = some x ↔ l.filter pred = [x] := by
  unfold uniqueMatch
  induction l with
  | nil => simp [uniqueMatchFrom]
  | cons c l ih =>
      by_cases hc : pred c = true
      · rw [uniqueMatchFrom, if_pos hc, List.filter_cons_of_pos hc]
        simpa using uniqueMatchFrom_some c l x
      · rw [uniqueMatchFrom, if_neg hc, ih, List.filter_cons_of_neg hc]

theorem uniqueMatch_eq_none_iff (l : List α) :
    uniqueMatch l pred = none ↔ ∀ x, l.filter pred ≠ [x] := by
  constructor
  · intro h x hx
    rw [(uniqueMatch_eq_some_iff l x).mpr hx] at h
    cases h
  · intro h
    cases hm : uniqueMatch l pred with
    | none => rfl
    | some x => exact absurd ((uniqueMatch_eq_some_iff l x).mp hm) (h x)

/-- A unique match does not depend on the order of the candidates. -/
theorem uniqueMatch_perm {l l' : List α} (h : l.Perm l') :
    uniqueMatch l pred = uniqueMatch l' pred := by
  apply Option.ext
  intro x
  rw [uniqueMatch_eq_some_iff, uniqueMatch_eq_some_iff]
  constructor
  · intro hx
    have hperm := h.filter pred
    rw [hx] at hperm
    exact (List.singleton_perm.mp hperm).symm
  · intro hx
    have hperm := h.filter pred
    rw [hx] at hperm
    exact List.perm_singleton.mp hperm

end Unique

/-! ### The tiers -/

/-- The documented order of the tiers: a smaller rank is stronger. -/
def Evidence.rank : Evidence → Nat
  | .uniqueGlobal => 0
  | .receiverBound => 1
  | .importMatch => 2
  | .receiverLocalBinding => 3
  | .receiverReturnType => 4
  | .sameFileUnique => 5
  | .packageProximity => 6
  | .macroExpansion => 7
  | .macroReceiverType => 8
  | .cfgSelected => 9

/-- Two outcomes are the same up to the order of ambiguous candidates. -/
def Resolution.Same {α : Type} : Resolution α → Resolution α → Prop
  | .resolved t e c, .resolved t' e' c' => t = t' ∧ e = e' ∧ c = c'
  | .ambiguous l, .ambiguous l' => l.Perm l'
  | .notFound, .notFound => True
  | _, _ => False

section Tiers

variable {α : Type} [Candidate α]

open Candidate (qualifiedName)

/-- What a candidate must satisfy to be a match of a tier. Every candidate has the
callee's name; the tiers of the receiver, the macro and the build passes have no
evidence in a `Context`. -/
def satisfies (ctx : Context) : Evidence → α → Bool
  | .uniqueGlobal, _ => true
  | .importMatch, c => importMatches c ctx.importsInScope
  | .sameFileUnique, c => ctx.callerFile.isPrefixOf (qualifiedName c)
  | .packageProximity, c => inPackage ctx c
  | _, _ => false

/-- The tier has exactly one match among the candidates. -/
def UniqueAt (ctx : Context) (candidates : List α) (e : Evidence) : Prop :=
  ∃ x, candidates.filter (satisfies ctx e) = [x]

theorem not_uniqueAt_of_none {ctx : Context} {candidates : List α} {e : Evidence}
    (h : uniqueMatch candidates (satisfies ctx e) = none) : ¬UniqueAt ctx candidates e := by
  rintro ⟨x, hx⟩
  exact (uniqueMatch_eq_none_iff candidates).mp h x hx

/-- With several candidates `resolve` takes the first of the three tiers with a
unique match. -/
theorem resolve_several (a b : α) (l : List α) (ctx : Context) :
    resolve (a :: b :: l) ctx =
      match uniqueMatch (a :: b :: l) (satisfies ctx .importMatch) with
      | some target => resolved target .importMatch
      | none =>
          match uniqueMatch (a :: b :: l) (satisfies ctx .sameFileUnique) with
          | some target => resolved target .sameFileUnique
          | none =>
              match uniqueMatch (a :: b :: l) (satisfies ctx .packageProximity) with
              | some target => resolved target .packageProximity
              | none => .ambiguous (a :: b :: l) := by
  have himport : (satisfies ctx .importMatch : α → Bool) = fun c => importMatches c ctx.importsInScope :=
    rfl
  have hfile : (satisfies ctx .sameFileUnique : α → Bool) =
      fun c => ctx.callerFile.isPrefixOf (qualifiedName c) := rfl
  rw [resolve, himport, hfile]
  · cases hpkg : ctx.callerPackage with
    | some pkg =>
        have hpackage : (satisfies ctx .packageProximity : α → Bool) =
            fun c => pkg.isPrefixOf (qualifiedName c) := by
          funext c
          simp [satisfies, inPackage, hpkg]
        rw [hpackage]
    | none =>
        -- no candidate is in an unknown package
        have hpackage : (satisfies ctx .packageProximity : α → Bool) = fun _ => false := by
          funext c
          simp [satisfies, inPackage, hpkg]
        have hnone : uniqueMatch (a :: b :: l) (satisfies ctx .packageProximity) = none := by
          rw [uniqueMatch_eq_none_iff, hpackage]
          simp
        rw [hnone]
  · simp
  · simp

/-- The outcome does not depend on the order of the candidates. -/
theorem resolve_perm {l l' : List α} (h : l.Perm l') (ctx : Context) :
    (resolve l ctx).Same (resolve l' ctx) := by
  match l, l' with
  | [], l' =>
      obtain rfl := h.symm.eq_nil
      exact trivial
  | [a], l' =>
      obtain rfl := List.perm_singleton.mp h.symm
      exact ⟨rfl, rfl, rfl⟩
  | a :: b :: l, [] => exact absurd h.eq_nil (by simp)
  | a :: b :: l, [a'] => exact absurd (List.perm_singleton.mp h) (by simp)
  | a :: b :: l, a' :: b' :: l' =>
      rw [resolve_several, resolve_several, ← uniqueMatch_perm h, ← uniqueMatch_perm h,
        ← uniqueMatch_perm h]
      split
      · exact ⟨rfl, rfl, rfl⟩
      · split
        · exact ⟨rfl, rfl, rfl⟩
        · split
          · exact ⟨rfl, rfl, rfl⟩
          · exact h

theorem not_uniqueAt_elsewhere {ctx : Context} {l : List α} {e : Evidence}
    (h : (satisfies ctx e : α → Bool) = fun _ => false) : ¬UniqueAt ctx l e := by
  rintro ⟨x, hx⟩
  simp [h] at hx

/-- Several candidates are no unique match of the whole index. -/
theorem not_uniqueAt_global {ctx : Context} (a b : α) (l : List α) :
    ¬UniqueAt ctx (a :: b :: l) .uniqueGlobal := by
  rintro ⟨x, hx⟩
  have hall : (a :: b :: l).filter (satisfies ctx .uniqueGlobal) = a :: b :: l :=
    List.filter_eq_self.mpr fun _ _ => rfl
  rw [hall] at hx
  simp at hx

/-- A resolved target is the only match of its tier, and no stronger tier has a
unique match. -/
theorem resolve_strongest {l : List α} {ctx : Context} {target : α} {e : Evidence} {c : Nat}
    (h : resolve l ctx = .resolved target e c) :
    c = confidenceFor e ∧ l.filter (satisfies ctx e) = [target] ∧
      ∀ e' : Evidence, e'.rank < e.rank → ¬UniqueAt ctx l e' := by
  match l with
  | [] => cases h
  | [only] =>
      cases h
      exact ⟨rfl, rfl, fun e' hlt => absurd hlt (by simp [Evidence.rank])⟩
  | a :: b :: l =>
      have hglobal := @not_uniqueAt_global _ _ ctx a b l
      rw [resolve_several] at h
      split at h
      · rename_i t himport
        cases h
        refine ⟨rfl, (uniqueMatch_eq_some_iff _ _).mp himport, fun e' hlt => ?_⟩
        cases e' with
        | uniqueGlobal => exact hglobal
        | receiverBound => exact not_uniqueAt_elsewhere rfl
        | _ => exact absurd hlt (by decide)
      · rename_i himport
        have hnoImport := not_uniqueAt_of_none himport
        split at h
        · rename_i t hfile
          cases h
          refine ⟨rfl, (uniqueMatch_eq_some_iff _ _).mp hfile, fun e' hlt => ?_⟩
          cases e' with
          | uniqueGlobal => exact hglobal
          | importMatch => exact hnoImport
          | receiverBound => exact not_uniqueAt_elsewhere rfl
          | receiverLocalBinding => exact not_uniqueAt_elsewhere rfl
          | receiverReturnType => exact not_uniqueAt_elsewhere rfl
          | _ => exact absurd hlt (by decide)
        · rename_i hfile
          have hnoFile := not_uniqueAt_of_none hfile
          split at h
          · rename_i t hpackage
            cases h
            refine ⟨rfl, (uniqueMatch_eq_some_iff _ _).mp hpackage, fun e' hlt => ?_⟩
            cases e' with
            | uniqueGlobal => exact hglobal
            | importMatch => exact hnoImport
            | sameFileUnique => exact hnoFile
            | receiverBound => exact not_uniqueAt_elsewhere rfl
            | receiverLocalBinding => exact not_uniqueAt_elsewhere rfl
            | receiverReturnType => exact not_uniqueAt_elsewhere rfl
            | _ => exact absurd hlt (by decide)
          · cases h

/-- For every candidate list and every context, `resolve` gives the same outcome on
every permutation, and a resolved target carries the strongest evidence. -/
theorem resolve_order_free_and_strongest (candidates : List α) (ctx : Context) :
    (∀ permuted, candidates.Perm permuted →
      (resolve candidates ctx).Same (resolve permuted ctx)) ∧
    ∀ target e c, resolve candidates ctx = .resolved target e c →
      c = confidenceFor e ∧ candidates.filter (satisfies ctx e) = [target] ∧
        ∀ e' : Evidence, e'.rank < e.rank → ¬UniqueAt ctx candidates e' :=
  ⟨fun _ h => resolve_perm h ctx, fun _ _ _ h => resolve_strongest h⟩

end Tiers

end AutomatisedPipeline.Resolver

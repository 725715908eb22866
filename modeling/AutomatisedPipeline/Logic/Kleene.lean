import Mathlib.Tactic

/-!
Kleene's strong three-valued logic as an approximation of two-valued truth.

`Admits t b` says that the three-valued verdict `t` is compatible with the truth
value `b`: a decided verdict names it, an undecided one admits both. The
connectives preserve it, so an evaluator built from them is sound: what it
decides holds in every completion of what it does not know.
-/

namespace AutomatisedPipeline.Kleene

/-- Three-valued truth. -/
inductive Truth where
  | true
  | false
  | unknown
deriving DecidableEq, Repr

/-- The verdict does not contradict the truth value. -/
def Admits (t : Truth) (b : Bool) : Prop := (t = .true → b = true) ∧ (t = .false → b = false)

def negate : Truth → Truth
  | .true => .false
  | .false => .true
  | .unknown => .unknown

/-- Conjunction of a list: `false` absorbs, and an `unknown` is kept. -/
def conj (ts : List Truth) : Truth :=
  if .false ∈ ts then .false else if .unknown ∈ ts then .unknown else .true

/-- Disjunction of a list, the dual of `conj`. -/
def disj (ts : List Truth) : Truth :=
  if .true ∈ ts then .true else if .unknown ∈ ts then .unknown else .false

@[simp] theorem admits_unknown (b : Bool) : Admits .unknown b := by simp [Admits]

@[simp] theorem admits_true_iff {b : Bool} : Admits .true b ↔ b = true := by simp [Admits]

@[simp] theorem admits_false_iff {b : Bool} : Admits .false b ↔ b = false := by simp [Admits]

theorem Admits.negate {t : Truth} {b : Bool} (h : Admits t b) : Admits (negate t) (!b) := by
  cases t with
  | true => simpa [Kleene.negate] using h
  | false => simpa [Kleene.negate] using h
  | unknown => simp [Kleene.negate]

section Lists

variable {α : Type} {verdict : α → Truth} {value : α → Bool} {xs : List α}

/-- `conj` on verdicts approximates conjunction. -/
theorem admits_conj (h : ∀ x ∈ xs, Admits (verdict x) (value x)) :
    Admits (conj (xs.map verdict)) (xs.all value) := by
  unfold conj
  split
  · rename_i hmem
    obtain ⟨x, hx, hv⟩ := List.mem_map.mp hmem
    rw [admits_false_iff, List.all_eq_false]
    exact ⟨x, hx, by simp [(h x hx).2 hv]⟩
  · rename_i hfalse
    split
    · exact admits_unknown _
    · rename_i hunknown
      rw [admits_true_iff, List.all_eq_true]
      intro x hx
      refine (h x hx).1 ?_
      -- the verdict of `x` is neither `false` nor `unknown`
      cases hv : verdict x with
      | true => rfl
      | false => exact absurd (List.mem_map.mpr ⟨x, hx, hv⟩) hfalse
      | unknown => exact absurd (List.mem_map.mpr ⟨x, hx, hv⟩) hunknown

/-- `disj` on verdicts approximates disjunction. -/
theorem admits_disj (h : ∀ x ∈ xs, Admits (verdict x) (value x)) :
    Admits (disj (xs.map verdict)) (xs.any value) := by
  unfold disj
  split
  · rename_i hmem
    obtain ⟨x, hx, hv⟩ := List.mem_map.mp hmem
    rw [admits_true_iff, List.any_eq_true]
    exact ⟨x, hx, (h x hx).1 hv⟩
  · rename_i htrue
    split
    · exact admits_unknown _
    · rename_i hunknown
      rw [admits_false_iff, List.any_eq_false]
      intro x hx
      rw [Bool.not_eq_true]
      refine (h x hx).2 ?_
      cases hv : verdict x with
      | true => exact absurd (List.mem_map.mpr ⟨x, hx, hv⟩) htrue
      | false => rfl
      | unknown => exact absurd (List.mem_map.mpr ⟨x, hx, hv⟩) hunknown

end Lists

/-! ### More knowledge -/

/-- The second verdict keeps what the first one decides. -/
def Refines (t t' : Truth) : Prop := t = .unknown ∨ t' = t

theorem Refines.negate {t t' : Truth} (h : Refines t t') :
    Refines (Kleene.negate t) (Kleene.negate t') := by
  rcases h with rfl | rfl
  · exact .inl rfl
  · exact .inr rfl

section Lists

variable {α : Type} {verdict verdict' : α → Truth} {xs : List α}

theorem Refines.mem_map {t : Truth} (ht : t ≠ .unknown)
    (h : ∀ x ∈ xs, Refines (verdict x) (verdict' x)) (hmem : t ∈ xs.map verdict) :
    t ∈ xs.map verdict' := by
  obtain ⟨x, hx, rfl⟩ := List.mem_map.mp hmem
  rcases h x hx with hunknown | heq
  · exact absurd hunknown ht
  · exact List.mem_map.mpr ⟨x, hx, heq⟩

theorem Refines.map_eq (h : ∀ x ∈ xs, Refines (verdict x) (verdict' x))
    (hdecided : .unknown ∉ xs.map verdict) : xs.map verdict' = xs.map verdict := by
  refine List.map_congr_left fun x hx => ?_
  rcases h x hx with hunknown | heq
  · exact absurd (List.mem_map.mpr ⟨x, hx, hunknown⟩) hdecided
  · exact heq

/-- A conjunction of better known verdicts is better known. -/
theorem refines_conj (h : ∀ x ∈ xs, Refines (verdict x) (verdict' x)) :
    Refines (conj (xs.map verdict)) (conj (xs.map verdict')) := by
  by_cases hfalse : .false ∈ xs.map verdict
  · have hfalse' := Refines.mem_map (by simp) h hfalse
    exact .inr (by rw [conj, conj, if_pos hfalse, if_pos hfalse'])
  · by_cases hunknown : .unknown ∈ xs.map verdict
    · exact .inl (by rw [conj, if_neg hfalse, if_pos hunknown])
    · exact .inr (by rw [Refines.map_eq h hunknown])

/-- So is a disjunction. -/
theorem refines_disj (h : ∀ x ∈ xs, Refines (verdict x) (verdict' x)) :
    Refines (disj (xs.map verdict)) (disj (xs.map verdict')) := by
  by_cases htrue : .true ∈ xs.map verdict
  · have htrue' := Refines.mem_map (by simp) h htrue
    exact .inr (by rw [disj, disj, if_pos htrue, if_pos htrue'])
  · by_cases hunknown : .unknown ∈ xs.map verdict
    · exact .inl (by rw [disj, if_neg htrue, if_pos hunknown])
    · exact .inr (by rw [Refines.map_eq h hunknown])

end Lists

end AutomatisedPipeline.Kleene

import Mathlib.Tactic

/-!
Modularity of a partition of a weighted graph.

A graph is a matrix of weights `A i j`, a partition the function that labels each vertex.
`modularity_update` is the change of modularity when a vertex changes its label, and
`modularity_aggregate` says that the partitions of an aggregated graph have the
modularity of the partitions they induce.
-/

namespace AutomatisedPipeline.Modularity

variable {V W L K : Type} [Fintype V]

/-! ### Sums over the pairs of a partition -/

section Within

variable [CommRing K]

theorem sum_comm_pairs [Fintype W] (F : W → W → V → V → K) :
    ∑ x, ∑ y, ∑ i, ∑ j, F x y i j = ∑ i, ∑ j, ∑ x, ∑ y, F x y i j :=
  calc ∑ x, ∑ y, ∑ i, ∑ j, F x y i j
      = ∑ x, ∑ i, ∑ y, ∑ j, F x y i j := Finset.sum_congr rfl fun _ _ => Finset.sum_comm
    _ = ∑ i, ∑ x, ∑ y, ∑ j, F x y i j := Finset.sum_comm
    _ = ∑ i, ∑ x, ∑ j, ∑ y, F x y i j :=
        Finset.sum_congr rfl fun _ _ => Finset.sum_congr rfl fun _ _ => Finset.sum_comm
    _ = ∑ i, ∑ j, ∑ x, ∑ y, F x y i j := Finset.sum_congr rfl fun _ _ => Finset.sum_comm

variable [DecidableEq L] [DecidableEq W]

/-- The sum over the pairs with one label. -/
def within (B : V → V → K) (c : V → L) : K := ∑ i, ∑ j, if c i = c j then B i j else 0

/-- The weights between the classes of a partition. -/
def aggregate (B : V → V → K) (c : V → W) (x y : W) : K :=
  ∑ i, ∑ j, if c i = x ∧ c j = y then B i j else 0

/-- The weight of `v` to the other vertices of a class. -/
def link [DecidableEq V] (B : V → V → K) (c : V → L) (v : V) (b : L) : K :=
  ∑ j, if j ≠ v ∧ c j = b then B v j else 0

/-- The pairs with one label that `v` has no part in. -/
def apart [DecidableEq V] (B : V → V → K) (c : V → L) (v : V) : K :=
  ∑ i, ∑ j, if i ≠ v ∧ j ≠ v ∧ c i = c j then B i j else 0

/-- The pairs with one label, when `v` has the label `b`. -/
theorem within_update [DecidableEq V] {B : V → V → K} (hsymm : ∀ i j, B i j = B j i) (c : V → L)
    (v : V) (b : L) :
    within B (Function.update c v b) = apart B c v + 2 * link B c v b + B v v := by
  have hpair : ∀ i j, (if Function.update c v b i = Function.update c v b j then B i j else 0) =
      (if i ≠ v ∧ j ≠ v ∧ c i = c j then B i j else 0) +
        (if i = v then if j ≠ v ∧ c j = b then B v j else 0 else 0) +
        (if j = v then if i ≠ v ∧ c i = b then B v i else 0 else 0) +
        (if i = v then if j = v then B v v else 0 else 0) := by
    intro i j
    by_cases hi : i = v
    · subst hi
      by_cases hj : j = i
      · subst hj
        simp
      · simp [hj, eq_comm]
    · by_cases hj : j = v
      · subst hj
        simp [hi, hsymm i j]
      · simp [hi, hj]
  rw [within, apart, link]
  simp only [hpair, Finset.sum_add_distrib, Finset.sum_ite_eq', Finset.mem_univ, if_true,
    Finset.sum_ite_irrel, Finset.sum_const_zero]
  ring

/-- The pairs of an aggregated graph are the pairs of the graph. -/
theorem within_aggregate [Fintype W] (B : V → V → K) (c : V → W) (p : W → L) :
    within (aggregate B c) p = within B (p ∘ c) := by
  have hpair : ∀ i j, (if (p ∘ c) i = (p ∘ c) j then B i j else 0) =
      ∑ x, ∑ y, if p x = p y then (if c i = x ∧ c j = y then B i j else 0) else 0 := by
    intro i j
    rw [Finset.sum_eq_single (c i), Finset.sum_eq_single (c j)]
    · simp
    · intro y _ hy
      simp [Ne.symm hy]
    · simp
    · intro x _ hx
      simp [Ne.symm hx]
    · simp
  simp only [within, aggregate, hpair]
  rw [← sum_comm_pairs]
  refine Finset.sum_congr rfl fun x _ => Finset.sum_congr rfl fun y _ => ?_
  split_ifs
  · rfl
  · simp only [Finset.sum_const_zero]

theorem aggregate_sub (B D : V → V → K) (c : V → W) (x y : W) :
    aggregate (fun i j => B i j - D i j) c x y = aggregate B c x y - aggregate D c x y := by
  simp only [aggregate, ← Finset.sum_sub_distrib]
  refine Finset.sum_congr rfl fun i _ => Finset.sum_congr rfl fun j _ => ?_
  split_ifs <;> simp

theorem aggregate_symm {B : V → V → K} (hsymm : ∀ i j, B i j = B j i) (c : V → W) (x y : W) :
    aggregate B c x y = aggregate B c y x := by
  rw [aggregate, aggregate, Finset.sum_comm]
  refine Finset.sum_congr rfl fun i _ => Finset.sum_congr rfl fun j _ => ?_
  rw [hsymm j i]
  simp only [and_comm]

end Within

/-! ### Degrees -/

section Degree

variable [CommRing K] [DecidableEq L] [DecidableEq W]

def degree (A : V → V → K) (i : V) : K := ∑ j, A i j

/-- The summed degree of a class. -/
def classDegree (A : V → V → K) (c : V → L) (x : L) : K := ∑ i, if c i = x then degree A i else 0

/-- A class has the summed degree of its members. -/
theorem degree_aggregate [Fintype W] (A : V → V → K) (c : V → W) (x : W) :
    degree (aggregate A c) x = classDegree A c x := by
  rw [degree, classDegree]
  simp only [aggregate, degree]
  rw [Finset.sum_comm]
  refine Finset.sum_congr rfl fun i _ => ?_
  rw [Finset.sum_comm]
  by_cases hi : c i = x
  · simp [hi]
  · simp [hi]

/-- Aggregation keeps the total weight. -/
theorem sum_degree_aggregate [Fintype W] (A : V → V → K) (c : V → W) :
    ∑ x, degree (aggregate A c) x = ∑ i, degree A i := by
  simp only [degree_aggregate, classDegree]
  rw [Finset.sum_comm]
  simp

theorem aggregate_degrees (A : V → V → K) (s : K) (c : V → W) (x y : W) :
    aggregate (fun i j => s * (degree A i * degree A j)) c x y =
      s * (classDegree A c x * classDegree A c y) := by
  rw [aggregate, classDegree, classDegree, Finset.sum_mul_sum, Finset.mul_sum]
  refine Finset.sum_congr rfl fun i _ => ?_
  rw [Finset.mul_sum]
  refine Finset.sum_congr rfl fun j _ => ?_
  by_cases hi : c i = x
  · by_cases hj : c j = y
    · simp [hi, hj]
    · simp [hj]
  · simp [hi]

end Degree

/-! ### Modularity -/

section Modularity

variable [Field K] [DecidableEq L] [DecidableEq W]

/-- The weight of a pair above what its degrees make expected. -/
def excess (A : V → V → K) (γ twoM : K) (i j : V) : K :=
  A i j - γ / twoM * (degree A i * degree A j)

/-- The modularity of a partition at a resolution. -/
def modularity (A : V → V → K) (γ twoM : K) (c : V → L) : K :=
  within (excess A γ twoM) c / twoM

/-- What `v` gains in a class. -/
def gain [DecidableEq V] (A : V → V → K) (γ twoM : K) (c : V → L) (v : V) (b : L) : K :=
  link (excess A γ twoM) c v b

/-- Labels that agree on which vertices are together have the same modularity. -/
theorem modularity_congr {M : Type} [DecidableEq M] (A : V → V → K) (γ twoM : K) {c : V → L}
    {c' : V → M} (h : ∀ i j, c i = c j ↔ c' i = c' j) :
    modularity A γ twoM c = modularity A γ twoM c' := by
  simp only [modularity, within, h]

theorem excess_symm {A : V → V → K} (hsymm : ∀ i j, A i j = A j i) (γ twoM : K) (i j : V) :
    excess A γ twoM i j = excess A γ twoM j i := by
  rw [excess, excess, hsymm, mul_comm (degree A i)]

/-- The change of modularity when `v` takes the label `b` is twice the difference of the
gains. -/
theorem modularity_update [DecidableEq V] {A : V → V → K} (hsymm : ∀ i j, A i j = A j i)
    (γ twoM : K) (c : V → L) (v : V) (b : L) :
    modularity A γ twoM (Function.update c v b) =
      modularity A γ twoM c + 2 * (gain A γ twoM c v b - gain A γ twoM c v (c v)) / twoM := by
  have hold := within_update (excess_symm hsymm γ twoM) c v (c v)
  rw [Function.update_eq_self] at hold
  rw [modularity, modularity, hold, within_update (excess_symm hsymm γ twoM), gain, gain]
  ring

/-- The gain from the weight to the class and the degrees of its other members. -/
theorem gain_eq [DecidableEq V] (A : V → V → K) (γ twoM : K) (c : V → L) (v : V) (b : L) :
    gain A γ twoM c v b = link A c v b -
      γ / twoM * degree A v * ∑ j, if j ≠ v ∧ c j = b then degree A j else 0 := by
  rw [gain, link, link, Finset.mul_sum, ← Finset.sum_sub_distrib]
  refine Finset.sum_congr rfl fun j _ => ?_
  by_cases hj : j ≠ v ∧ c j = b
  · rw [if_pos hj, if_pos hj, if_pos hj, excess]
    ring
  · rw [if_neg hj, if_neg hj, if_neg hj]
    ring

theorem excess_aggregate [Fintype W] (A : V → V → K) (γ twoM : K) (c : V → W) :
    excess (aggregate A c) γ twoM = aggregate (excess A γ twoM) c := by
  funext x y
  have h := aggregate_sub A (fun i j => γ / twoM * (degree A i * degree A j)) c x y
  rw [aggregate_degrees] at h
  rw [excess, degree_aggregate, degree_aggregate]
  exact h.symm

/-- A partition of the aggregated graph has the modularity of the partition it induces. -/
theorem modularity_aggregate [Fintype W] (A : V → V → K) (γ twoM : K) (c : V → W) (p : W → L) :
    modularity (aggregate A c) γ twoM p = modularity A γ twoM (p ∘ c) := by
  rw [modularity, modularity, excess_aggregate, within_aggregate]

end Modularity

end AutomatisedPipeline.Modularity

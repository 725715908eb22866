import Mathlib.Tactic

/-!
A list walked with what has been passed, and what a walk collects.

`contexts` pairs each element with those before it, the nearest first, so that a fact about an
element and the state a scan is in there is a fact about a context. `collect` is a list without
repetitions and of bounded length. Where no value comes twice, two ways of picking values that
collect the same pick the same at each element (`pointwise_of_collect_eq`).
-/

namespace AutomatisedPipeline.Passed

variable {α β : Type}

/-! ### Contexts -/

/-- Each element with the elements before it, behind `before`. -/
def contextsFrom (before : List α) : List α → List (List α × α)
  | [] => []
  | a :: rest => (before, a) :: contextsFrom (a :: before) rest

/-- Each element with the elements before it, the nearest first. -/
def contexts (l : List α) : List (List α × α) := contextsFrom [] l

theorem length_of_mem_contextsFrom {l before : List α} {c : List α × α}
    (h : c ∈ contextsFrom before l) : before.length ≤ c.1.length := by
  induction l generalizing before with
  | nil => cases h
  | cons a l ih =>
      rcases List.mem_cons.mp h with rfl | h
      · exact Nat.le_refl _
      · exact Nat.le_of_succ_le (ih h)

theorem nodup_contextsFrom (before l : List α) : (contextsFrom before l).Nodup := by
  induction l generalizing before with
  | nil => exact List.nodup_nil
  | cons a l ih =>
      refine List.nodup_cons.mpr ⟨fun hmem => ?_, ih (a :: before)⟩
      exact Nat.not_succ_le_self _ (length_of_mem_contextsFrom hmem)

theorem nodup_contexts (l : List α) : (contexts l).Nodup := nodup_contextsFrom [] l

theorem map_snd_contextsFrom (before l : List α) : (contextsFrom before l).map Prod.snd = l := by
  induction l generalizing before with
  | nil => rfl
  | cons a l ih => rw [contextsFrom, List.map_cons, ih]

/-- What is picked of the elements alone. -/
theorem filterMap_contexts (f : α → Option β) (l : List α) :
    (contexts l).filterMap (fun c => f c.2) = l.filterMap f := by
  have hmap := List.filterMap_map (f := Prod.snd) (g := f) (l := contexts l)
  rw [contexts, map_snd_contextsFrom] at hmap
  exact hmap.symm

/-! ### Bounded collections -/

section Collect

variable [DecidableEq β]

/-- One more value, unless it is there or the list is full. -/
def push (cap : Nat) (found : List β) (b : β) : List β :=
  if cap ≤ found.length ∨ b ∈ found then found else found ++ [b]

/-- The values without repetitions, up to the bound. -/
def collect (cap : Nat) (values : List β) : List β := values.foldl (push cap) []

theorem foldl_push {cap : Nat} {found values : List β} (hnodup : (found ++ values).Nodup)
    (hlength : (found ++ values).length ≤ cap) :
    values.foldl (push cap) found = found ++ values := by
  induction values generalizing found with
  | nil => rw [List.foldl_nil, List.append_nil]
  | cons b values ih =>
      have happend : found ++ b :: values = (found ++ [b]) ++ values := by simp
      have hfull : ¬ (cap ≤ found.length ∨ b ∈ found) := by
        rintro (hcap | hmem)
        · rw [List.length_append, List.length_cons] at hlength
          omega
        · exact (List.disjoint_of_nodup_append hnodup) hmem List.mem_cons_self
      rw [List.foldl_cons, push, if_neg hfull, happend]
      rw [happend] at hnodup hlength
      exact ih hnodup hlength

/-- Different values within the bound are all collected. -/
theorem collect_eq_self {cap : Nat} {values : List β} (hnodup : values.Nodup)
    (hlength : values.length ≤ cap) : collect cap values = values :=
  foldl_push hnodup hlength

end Collect

/-! ### Two ways of picking -/

section Pick

variable {ι : Type} {l : List ι} {f g : ι → Option β}

/-- A value that one of two ways picks is picked at one place only. -/
def Apart (l : List ι) (f g : ι → Option β) : Prop :=
  ∀ i ∈ l, ∀ j ∈ l, ∀ b, (f i = some b ∨ g i = some b) → (f j = some b ∨ g j = some b) → i = j

theorem Apart.symm (h : Apart l f g) : Apart l g f :=
  fun i hi j hj b hb hb' => h i hi j hj b hb.symm hb'.symm

/-- Values are apart if what they are sorted by is. -/
theorem Apart.of_map {γ : Type} {sort : β → γ}
    (h : Apart l (fun i => (f i).map sort) (fun i => (g i).map sort)) : Apart l f g := by
  have hmap : ∀ {i b}, f i = some b ∨ g i = some b →
      (f i).map sort = some (sort b) ∨ (g i).map sort = some (sort b) := by
    rintro i b (hb | hb)
    · exact .inl (by rw [hb]; rfl)
    · exact .inr (by rw [hb]; rfl)
  exact fun i hi j hj b hb hb' => h i hi j hj (sort b) (hmap hb) (hmap hb')

theorem Apart.nodup (h : Apart l f g) (hl : l.Nodup) : (l.filterMap f).Nodup := by
  induction l with
  | nil => exact List.nodup_nil
  | cons i l ih =>
      obtain ⟨hi, hl⟩ := List.nodup_cons.mp hl
      have hrest : Apart l f g := fun j hj k hk =>
        h j (List.mem_cons_of_mem i hj) k (List.mem_cons_of_mem i hk)
      rw [List.filterMap_cons]
      cases hf : f i with
      | none => exact ih hrest hl
      | some b =>
          refine List.nodup_cons.mpr ⟨fun hmem => ?_, ih hrest hl⟩
          obtain ⟨j, hj, hfj⟩ := List.mem_filterMap.mp hmem
          obtain rfl := h i List.mem_cons_self j (List.mem_cons_of_mem i hj) b (.inl hf) (.inl hfj)
          exact hi hj

/-- Values that are picked at one place only are picked there by both ways, or by none. -/
theorem Apart.pointwise (h : Apart l f g)
    (heq : ∀ b, b ∈ l.filterMap f ↔ b ∈ l.filterMap g) : ∀ i ∈ l, f i = g i := by
  have hone : ∀ {f g : ι → Option β}, Apart l f g →
      (∀ b, b ∈ l.filterMap f → b ∈ l.filterMap g) → ∀ i ∈ l, ∀ b, f i = some b → g i = some b := by
    intro f g h hsub i hi b hb
    obtain ⟨j, hj, hgj⟩ := List.mem_filterMap.mp (hsub b (List.mem_filterMap.mpr ⟨i, hi, hb⟩))
    obtain rfl := h i hi j hj b (.inl hb) (.inr hgj)
    exact hgj
  intro i hi
  apply Option.ext
  intro b
  exact ⟨hone h (fun b => (heq b).mp) i hi b, hone h.symm (fun b => (heq b).mpr) i hi b⟩

/-- Where no value comes twice and the bound is not reached, the same collection is picked in the
same places. -/
theorem pointwise_of_collect_eq [DecidableEq β] {cap : Nat} (h : Apart l f g) (hl : l.Nodup)
    (hf : (l.filterMap f).length ≤ cap) (hg : (l.filterMap g).length ≤ cap)
    (heq : collect cap (l.filterMap f) = collect cap (l.filterMap g)) : ∀ i ∈ l, f i = g i := by
  rw [collect_eq_self (h.nodup hl) hf, collect_eq_self (h.symm.nodup hl) hg] at heq
  exact h.pointwise fun b => by rw [heq]

end Pick

end AutomatisedPipeline.Passed

import Mathlib.Tactic

/-!
`renumber_communities`: communities renamed by the order in which they first appear.

Two nodes share their new community exactly when they shared the old one
(`renumber_eq_iff`), and the new communities are the numbers below `numComms`, which is
at most the number of nodes (`mem_renumber_iff`, `numComms_renumber_le`).
-/

namespace AutomatisedPipeline.Clustering

/-! ### The source's definitions -/

/-- The loop state of `renumber_communities`. -/
structure Renumbering where
  map : List (Nat × Nat)
  next : Nat
  result : List Nat

def Renumbering.start : Renumbering := { map := [], next := 0, result := [] }

/-- The loop body of `renumber_communities`. -/
def renumberStep (acc : Renumbering) (c : Nat) : Renumbering :=
  match acc.map.lookup c with
  | some newC => { acc with result := acc.result ++ [newC] }
  | none =>
      { map := (c, acc.next) :: acc.map
        next := acc.next + 1
        result := acc.result ++ [acc.next] }

/-- `renumber_communities`. -/
def renumberCommunities (comm : List Nat) : List Nat :=
  (comm.foldl renumberStep Renumbering.start).result

/-- `num_comms` in `louvain`. -/
def numComms (comm : List Nat) : Nat := (comm.max?).elim 0 (· + 1)

/-! ### What the loop keeps -/

/-- The map has a number for what has been seen, each number below `next` is that of one
community, and the result is what has been seen, renamed. -/
structure Renames (seen : List Nat) (acc : Renumbering) : Prop where
  seen_iff : ∀ c, c ∈ seen ↔ ∃ newC, acc.map.lookup c = some newC
  lt_next : ∀ newC, newC < acc.next ↔ ∃ c, acc.map.lookup c = some newC
  injective : ∀ c c' newC, acc.map.lookup c = some newC → acc.map.lookup c' = some newC → c = c'
  result_eq : acc.result.map some = seen.map (acc.map.lookup ·)
  next_le : acc.next ≤ seen.length

theorem renames_known {seen : List Nat} {acc : Renumbering} (h : Renames seen acc) {c newC : Nat}
    (hlookup : acc.map.lookup c = some newC) :
    Renames (seen ++ [c]) { acc with result := acc.result ++ [newC] } where
  seen_iff c' := by
    have hseen : c ∈ seen := (h.seen_iff c).mpr ⟨newC, hlookup⟩
    rw [List.mem_append, List.mem_singleton, ← h.seen_iff]
    exact ⟨fun h' => h'.elim id fun h' => h' ▸ hseen, .inl⟩
  lt_next := h.lt_next
  injective := h.injective
  result_eq := by
    rw [List.map_append, List.map_append, h.result_eq]
    simp [hlookup]
  next_le := by
    rw [List.length_append]
    exact Nat.le_add_right_of_le h.next_le

theorem renames_new {seen : List Nat} {acc : Renumbering} (h : Renames seen acc) {c : Nat}
    (hlookup : acc.map.lookup c = none) :
    Renames (seen ++ [c]) (Renumbering.mk ((c, acc.next) :: acc.map) (acc.next + 1)
      (acc.result ++ [acc.next])) := by
  have hcons : ∀ c', ((c, acc.next) :: acc.map).lookup c' =
      if c' = c then some acc.next else acc.map.lookup c' := by
    intro c'
    rw [List.lookup_cons]
    by_cases hc : c' = c
    · simp [hc]
    · simp [hc, beq_eq_false_iff_ne.mpr hc]
  have hother : ∀ c' newC, acc.map.lookup c' = some newC → c' ≠ c := by
    rintro c' newC hsome rfl
    rw [hlookup] at hsome
    cases hsome
  have hfresh : ∀ c', acc.map.lookup c' ≠ some acc.next := fun c' hsome =>
    Nat.lt_irrefl _ ((h.lt_next acc.next).mpr ⟨c', hsome⟩)
  refine ⟨fun c' => ?_, fun newC => ⟨fun hlt => ?_, ?_⟩, fun c₁ c₂ newC h₁ h₂ => ?_, ?_, ?_⟩
  · rw [List.mem_append, List.mem_singleton, hcons, h.seen_iff]
    split_ifs with hc
    · simp [hc]
    · simp [hc]
  · rcases Nat.lt_succ_iff_lt_or_eq.mp hlt with hlt | rfl
    · obtain ⟨c', hsome⟩ := (h.lt_next newC).mp hlt
      exact ⟨c', by rw [hcons, if_neg (hother c' newC hsome), hsome]⟩
    · exact ⟨c, by rw [hcons, if_pos rfl]⟩
  · rintro ⟨c', hsome⟩
    rw [hcons] at hsome
    split at hsome
    · cases hsome
      exact Nat.lt_succ_self _
    · exact Nat.lt_succ_of_lt ((h.lt_next newC).mpr ⟨c', hsome⟩)
  · rw [hcons] at h₁ h₂
    split_ifs at h₁ h₂ with hc₁ hc₂ hc₂
    · exact hc₁.trans hc₂.symm
    · exact absurd (h₂.trans h₁.symm) (hfresh c₂)
    · exact absurd (h₁.trans h₂.symm) (hfresh c₁)
    · exact h.injective c₁ c₂ newC h₁ h₂
  · have hold : seen.map (acc.map.lookup ·) =
        seen.map (((c, acc.next) :: acc.map).lookup ·) := by
      refine List.map_congr_left fun c' hc' => ?_
      obtain ⟨newC, hsome⟩ := (h.seen_iff c').mp hc'
      rw [hcons, if_neg (hother c' newC hsome)]
    rw [List.map_append, List.map_append, h.result_eq, hold]
    simp
  · rw [List.length_append]
    exact Nat.succ_le_succ h.next_le

theorem renames_step {seen : List Nat} {acc : Renumbering} (h : Renames seen acc) (c : Nat) :
    Renames (seen ++ [c]) (renumberStep acc c) := by
  rw [renumberStep]
  cases hlookup : acc.map.lookup c with
  | some newC => exact renames_known h hlookup
  | none => exact renames_new h hlookup

theorem renames_foldl (comm : List Nat) {seen : List Nat} {acc : Renumbering}
    (h : Renames seen acc) : Renames (seen ++ comm) (comm.foldl renumberStep acc) := by
  induction comm generalizing seen acc with
  | nil => rwa [List.append_nil]
  | cons c comm ih => simpa using ih (renames_step h c)

theorem renames_all (comm : List Nat) :
    Renames comm (comm.foldl renumberStep Renumbering.start) :=
  @renames_foldl comm [] _
    ⟨by simp [Renumbering.start], by simp [Renumbering.start], by simp [Renumbering.start], rfl,
      Nat.le_refl _⟩

/-! ### The result -/

theorem length_renumber (comm : List Nat) : (renumberCommunities comm).length = comm.length := by
  simpa [renumberCommunities] using congrArg List.length (renames_all comm).result_eq

/-- A node's new community is the number of its old one. -/
theorem lookup_renumber {comm : List Nat} {i : Nat} {newC : Nat}
    (h : (renumberCommunities comm)[i]? = some newC) :
    ∃ c, comm[i]? = some c ∧
      (comm.foldl renumberStep Renumbering.start).map.lookup c =
        some newC := by
  have heq := congrArg (fun l => l[i]?) (renames_all comm).result_eq
  simp only [List.getElem?_map] at heq
  rw [renumberCommunities] at h
  rw [h] at heq
  obtain ⟨c, hc, hlookup⟩ := Option.map_eq_some_iff.mp heq.symm
  exact ⟨c, hc, hlookup⟩

/-- Two nodes share their new community exactly when they shared the old one. -/
theorem renumber_eq_iff {comm : List Nat} {i j c c' newC newC' : Nat}
    (hi : comm[i]? = some c) (hj : comm[j]? = some c')
    (hi' : (renumberCommunities comm)[i]? = some newC)
    (hj' : (renumberCommunities comm)[j]? = some newC') : newC = newC' ↔ c = c' := by
  obtain ⟨_, hc, hlookup⟩ := lookup_renumber hi'
  obtain ⟨_, hc', hlookup'⟩ := lookup_renumber hj'
  cases hi.symm.trans hc
  cases hj.symm.trans hc'
  constructor
  · rintro rfl
    exact (renames_all comm).injective c c' newC hlookup hlookup'
  · rintro rfl
    exact Option.some.inj (hlookup.symm.trans hlookup')

/-- The new communities are the numbers below `next`. -/
theorem mem_renumber {comm : List Nat} {newC : Nat} : newC ∈ renumberCommunities comm ↔
    newC < (comm.foldl renumberStep Renumbering.start).next := by
  have hrenames := renames_all comm
  have hmem : newC ∈ renumberCommunities comm ↔ ∃ c ∈ comm,
      (comm.foldl renumberStep Renumbering.start).map.lookup c =
        some newC := by
    have := congrArg (some newC ∈ ·) hrenames.result_eq
    simpa [renumberCommunities] using this
  rw [hmem, hrenames.lt_next]
  exact ⟨fun ⟨c, _, hc⟩ => ⟨c, hc⟩, fun ⟨c, hc⟩ => ⟨c, (hrenames.seen_iff c).mpr ⟨newC, hc⟩, hc⟩⟩

theorem lt_numComms {comm : List Nat} {c : Nat} (h : c ∈ comm) : c < numComms comm := by
  rw [numComms]
  cases hmax : comm.max? with
  | none => simp_all
  | some top => exact Nat.lt_succ_of_le ((List.max?_eq_some_iff.mp hmax).2 c h)

/-- The number of communities is the next number. -/
theorem numComms_renumber (comm : List Nat) : numComms (renumberCommunities comm) =
    (comm.foldl renumberStep Renumbering.start).next := by
  rw [numComms]
  cases hmax : (renumberCommunities comm).max? with
  | none =>
      have hnil : renumberCommunities comm = [] := by simpa using hmax
      have hcomm : comm = [] := by
        rw [← List.length_eq_zero_iff, ← length_renumber, hnil]
        rfl
      subst hcomm
      rfl
  | some top =>
      obtain ⟨hmem, hle⟩ := List.max?_eq_some_iff.mp hmax
      have htop := mem_renumber.mp hmem
      apply Nat.le_antisymm htop
      apply Nat.le_of_not_lt
      intro hlt
      exact Nat.not_succ_le_self top (hle _ (mem_renumber.mpr hlt))

/-- Every number below `num_comms` is a community. -/
theorem mem_renumber_iff {comm : List Nat} {newC : Nat} :
    newC ∈ renumberCommunities comm ↔ newC < numComms (renumberCommunities comm) := by
  rw [numComms_renumber, mem_renumber]

theorem numComms_renumber_le (comm : List Nat) :
    numComms (renumberCommunities comm) ≤ comm.length := by
  rw [numComms_renumber]
  exact (renames_all comm).next_le

end AutomatisedPipeline.Clustering

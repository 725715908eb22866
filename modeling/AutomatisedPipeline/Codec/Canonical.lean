import Mathlib.Tactic

/-!
The canonical form of a list: sorted by a key, with adjacent repetitions
removed. Where the key tells the elements apart, it is a function of the set of
elements.
-/

namespace AutomatisedPipeline.Codec

section Canonical

variable {α κ : Type} [LinearOrder κ] [DecidableEq α]

/-- `Vec::dedup`. -/
def dedupAdjacent : List α → List α
  | [] => []
  | [a] => [a]
  | a :: b :: rest => if a = b then dedupAdjacent (b :: rest) else a :: dedupAdjacent (b :: rest)

/-- Sorted by the key, repetitions removed. -/
def canonical (key : α → κ) (l : List α) : List α :=
  dedupAdjacent (l.insertionSort fun a b => key a ≤ key b)

theorem mem_dedupAdjacent {a : α} (l : List α) : a ∈ dedupAdjacent l ↔ a ∈ l := by
  fun_induction dedupAdjacent l with
  | case1 => rfl
  | case2 b => rfl
  | case3 b rest ih => simp [ih]
  | case4 b c rest hne ih => simp [ih]

theorem length_dedupAdjacent_le (l : List α) : (dedupAdjacent l).length ≤ l.length := by
  fun_induction dedupAdjacent l with
  | case1 => exact Nat.le_refl _
  | case2 b => exact Nat.le_refl _
  | case3 b rest ih => exact Nat.le_succ_of_le ih
  | case4 b c rest hne ih => exact Nat.succ_le_succ ih

theorem mem_canonical {key : α → κ} {l : List α} {a : α} : a ∈ canonical key l ↔ a ∈ l := by
  rw [canonical, mem_dedupAdjacent, List.mem_insertionSort]

theorem length_canonical_le (key : α → κ) (l : List α) :
    (canonical key l).length ≤ l.length := by
  refine (length_dedupAdjacent_le _).trans ?_
  rw [List.length_insertionSort]

/-- No two elements of the canonical form have one key. -/
theorem canonical_strict {key : α → κ} (hkey : Function.Injective key) (l : List α) :
    (canonical key l).Pairwise fun a b => key a < key b := by
  have hstrict : ∀ {l : List α}, l.Pairwise (fun a b => key a ≤ key b) →
      (dedupAdjacent l).Pairwise fun a b => key a < key b := by
    intro l hsorted
    fun_induction dedupAdjacent l with
    | case1 => exact List.Pairwise.nil
    | case2 b => exact List.pairwise_singleton _ _
    | case3 b rest ih => exact ih (List.pairwise_cons.mp hsorted).2
    | case4 b c rest hne ih =>
        obtain ⟨hfirst, hrest⟩ := List.pairwise_cons.mp hsorted
        refine List.pairwise_cons.mpr ⟨fun d hd => ?_, ih hrest⟩
        -- every later element is at least the next one, which differs
        have hnext : key b < key c :=
          lt_of_le_of_ne (hfirst c List.mem_cons_self) fun heq => hne (hkey heq)
        rcases List.mem_cons.mp ((mem_dedupAdjacent _).mp hd) with rfl | hd
        · exact hnext
        · exact hnext.trans_le ((List.pairwise_cons.mp hrest).1 d hd)
  exact hstrict (List.pairwise_insertionSort _ _)

/-- The canonical form depends on the set of elements alone. -/
theorem canonical_eq_iff {key : α → κ} (hkey : Function.Injective key) {l l' : List α} :
    canonical key l = canonical key l' ↔ ∀ a, a ∈ l ↔ a ∈ l' := by
  constructor
  · intro heq a
    rw [← @mem_canonical _ _ _ _ key l, heq, mem_canonical]
  · intro hsame
    have hs := canonical_strict hkey l
    have hs' := canonical_strict hkey l'
    have hnodup : ∀ {m : List α}, m.Pairwise (fun a b => key a < key b) → m.Nodup :=
      fun h => h.imp fun hlt heq => absurd (congrArg key heq) hlt.ne
    have hperm : (canonical key l).Perm (canonical key l') := by
      refine (List.perm_ext_iff_of_nodup (hnodup hs) (hnodup hs')).mpr fun a => ?_
      rw [mem_canonical, mem_canonical, hsame]
    exact hperm.eq_of_pairwise (fun a b _ _ hab hba => absurd (hab.trans hba) (lt_irrefl _)) hs hs'

end Canonical

end AutomatisedPipeline.Codec

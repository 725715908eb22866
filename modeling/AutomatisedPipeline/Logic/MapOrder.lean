import Mathlib.Tactic

/-!
The order in which a hash map yields its entries.

The order is any permutation, and another one in another run. What is sorted by a total
order on its entries is the same list in every order (`mergeSort_eq_of_perm`); a stable sort
that leaves two entries tied keeps the order they were yielded in (`mergeSort_swapped_ne`).
-/

namespace AutomatisedPipeline

/-- An order for the entries of a hash map. -/
structure MapOrder (α : Type) where
  yield : List α → List α
  perm : ∀ entries, (yield entries).Perm entries

namespace MapOrder

variable {α : Type} {le : α → α → Bool}

/-- The order of insertion. -/
def inserted (α : Type) : MapOrder α := ⟨id, List.Perm.refl⟩

/-- The order of insertion, backwards. -/
def backwards (α : Type) : MapOrder α := ⟨List.reverse, List.reverse_perm⟩

theorem mem_yield (order : MapOrder α) {entries : List α} {a : α} :
    a ∈ order.yield entries ↔ a ∈ entries := (order.perm entries).mem_iff

/-- A sort by an order that tells the entries apart depends on the entries alone. -/
theorem mergeSort_eq_of_perm (htrans : ∀ a b c, le a b → le b c → le a c)
    (htotal : ∀ a b, le a b || le b a) {l l' : List α} (h : l.Perm l')
    (hantisymm : ∀ a ∈ l, ∀ b ∈ l, le a b → le b a → a = b) :
    l.mergeSort le = l'.mergeSort le := by
  have hperm : (l.mergeSort le).Perm (l'.mergeSort le) :=
    (List.mergeSort_perm l le).trans (h.trans (List.mergeSort_perm l' le).symm)
  refine List.Perm.eq_of_pairwise ?_ (List.pairwise_mergeSort htrans htotal l)
    (List.pairwise_mergeSort htrans htotal l') hperm
  intro a b ha hb
  exact hantisymm a (List.mem_mergeSort.mp ha) b (h.mem_iff.mpr (List.mem_mergeSort.mp hb))

/-- A sorted list is the sort of its entries in any order. -/
theorem mergeSort_eq_of_pairwise (htrans : ∀ a b c, le a b → le b c → le a c)
    (htotal : ∀ a b, le a b || le b a) {l l' : List α} (h : l.Perm l')
    (hsorted : l'.Pairwise fun a b => le a b)
    (hantisymm : ∀ a ∈ l, ∀ b ∈ l, le a b → le b a → a = b) : l.mergeSort le = l' := by
  refine List.Perm.eq_of_pairwise ?_ (List.pairwise_mergeSort htrans htotal l) hsorted
    ((List.mergeSort_perm l le).trans h)
  intro a b ha hb
  exact hantisymm a (List.mem_mergeSort.mp ha) b (h.mem_iff.mpr hb)

/-- Of two entries of a list without repetitions, one comes first. -/
theorem not_both_sublists {l : List α} (hnodup : l.Nodup) {a b : α} (h : [a, b].Sublist l) :
    ¬ [b, a].Sublist l := by
  induction l with
  | nil => cases h
  | cons c l ih =>
      rw [List.nodup_cons] at hnodup
      intro h'
      rcases List.sublist_cons_iff.mp h with h | ⟨rest, hrest, h⟩
      · rcases List.sublist_cons_iff.mp h' with h' | ⟨rest', hrest', h'⟩
        · exact ih hnodup.2 h h'
        · rw [List.cons.injEq] at hrest'
          exact hnodup.1 (hrest'.1 ▸ h.subset (by simp))
      · rw [List.cons.injEq] at hrest
        rcases List.sublist_cons_iff.mp h' with h' | ⟨rest', hrest', h'⟩
        · exact hnodup.1 (hrest.1 ▸ h'.subset (by simp))
        · rw [List.cons.injEq] at hrest'
          rw [← hrest.2] at h
          exact hnodup.1 (hrest'.1 ▸ List.singleton_sublist.mp h)

/-- Of two elements of a list, one comes first. -/
theorem pair_sublist_or {l : List α} {a b : α} (hne : a ≠ b) (ha : a ∈ l) (hb : b ∈ l) :
    [a, b].Sublist l ∨ [b, a].Sublist l := by
  induction l with
  | nil => cases ha
  | cons c l ih =>
      rcases List.mem_cons.mp ha with rfl | hal
      · have hbl := (List.mem_cons.mp hb).resolve_left (Ne.symm hne)
        exact .inl ((List.singleton_sublist.mpr hbl).cons_cons a)
      · rcases List.mem_cons.mp hb with rfl | hbl
        · exact .inr ((List.singleton_sublist.mpr hal).cons_cons b)
        · exact (ih hal hbl).imp (fun h => h.cons c) fun h => h.cons c

section Tie

variable {β : Type} {f : α → β} {l : List α}

/-- Two tied entries stay as they were yielded, so that a stable sort shows their order. -/
theorem mergeSort_swapped_ne (htrans : ∀ a b c, le a b → le b c → le a c)
    (htotal : ∀ a b, le a b || le b a) (hnodup : (l.map f).Nodup) {l' : List α} {a b : α}
    (hab : le a b) (hba : le b a) (h : [a, b].Sublist l) (h' : [b, a].Sublist l') :
    (l.mergeSort le).map f ≠ (l'.mergeSort le).map f := by
  intro heq
  have hsorted : ((l.mergeSort le).map f).Nodup :=
    ((List.mergeSort_perm l le).map f).nodup_iff.mpr hnodup
  have hswapped := (List.pair_sublist_mergeSort htrans htotal hba h').map f
  rw [← heq] at hswapped
  exact not_both_sublists hsorted ((List.pair_sublist_mergeSort htrans htotal hab h).map f) hswapped

/-- Where two of the entries that a test keeps are tied, the order of insertion and its
reverse are sorted into different lists. -/
theorem mergeSort_backwards_ne (htrans : ∀ a b c, le a b → le b c → le a c)
    (htotal : ∀ a b, le a b || le b a) (hnodup : (l.map f).Nodup) (keep : α → Bool) {a b : α}
    (hne : a ≠ b) (hab : le a b) (hba : le b a) (ha : a ∈ l.filter keep)
    (hb : b ∈ l.filter keep) :
    ((((inserted α).yield l).filter keep).mergeSort le).map f ≠
      ((((backwards α).yield l).filter keep).mergeSort le).map f := by
  have hkept : ((l.filter keep).map f).Nodup := hnodup.sublist (List.filter_sublist.map f)
  have hreverse : ∀ {c d : α}, [c, d].Sublist (l.filter keep) →
      [d, c].Sublist (((backwards α).yield l).filter keep) := by
    intro c d h
    have h' := h.reverse
    rwa [← List.filter_reverse] at h'
  rcases pair_sublist_or hne ha hb with h | h
  · exact mergeSort_swapped_ne htrans htotal hkept hab hba h (hreverse h)
  · exact mergeSort_swapped_ne htrans htotal hkept hba hab h (hreverse h)

end Tie

end MapOrder

end AutomatisedPipeline

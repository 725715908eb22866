import AutomatisedPipeline.Cfg.CompactInjective

/-!
Rearrangements of a predicate have one canonical form.

`finish` sorts the terms of a list by their texts, so what it makes of a list is decided by
the set of its terms where different terms have different texts (`tidied_congr`). Reordering,
repeating and nesting terms keep this set, up to canonical forms.
-/

namespace AutomatisedPipeline.Cfg

open Text Kleene

namespace CfgPredicate

/-! ### The set of the terms decides -/

/-- Terms that their texts tell apart occur once in a tidy list. -/
theorem nodup_of_tidy {terms : List CfgPredicate} (h : Tidy terms)
    (hinj : ∀ s ∈ terms, ∀ t ∈ terms, s.compact = t.compact → s = t) : terms.Nodup := by
  induction terms with
  | nil => exact List.nodup_nil
  | cons p terms ih =>
      have htail : Tidy terms := ⟨h.sorted.of_cons, h.distinct.tail⟩
      refine List.nodup_cons.mpr ⟨fun hp => ?_, ih htail fun s hs t ht =>
        hinj s (List.mem_cons_of_mem p hs) t (List.mem_cons_of_mem p ht)⟩
      cases terms with
      | nil => cases hp
      | cons q rest =>
          have hne : p ≠ q := (List.isChain_cons_cons.mp h.distinct).1
          have hpq : p.compact ≤ q.compact := (List.pairwise_cons.mp h.sorted).1 q (by simp)
          rcases List.mem_cons.mp hp with heq | hp
          · exact hne heq
          · have hqp : q.compact ≤ p.compact := (List.pairwise_cons.mp htail.sorted).1 p hp
            exact hne (hinj p (by simp) q (by simp) (le_antisymm hpq hqp))

/-- Lists of the same terms are tidied to the same list, where texts tell the terms apart. -/
theorem tidied_congr {flat flat' : List CfgPredicate} (h : ∀ t, t ∈ flat ↔ t ∈ flat')
    (hinj : ∀ s ∈ flat, ∀ t ∈ flat, s.compact = t.compact → s = t) :
    tidied flat = tidied flat' := by
  have hinjLeft : ∀ s ∈ tidied flat, ∀ t ∈ tidied flat, s.compact = t.compact → s = t :=
    fun s hs t ht => hinj s (mem_tidied.mp hs) t (mem_tidied.mp ht)
  have hinjRight : ∀ s ∈ tidied flat', ∀ t ∈ tidied flat', s.compact = t.compact → s = t :=
    fun s hs t ht => hinj s ((h s).mpr (mem_tidied.mp hs)) t ((h t).mpr (mem_tidied.mp ht))
  have hperm : (tidied flat).Perm (tidied flat') := by
    rw [List.perm_ext_iff_of_nodup (nodup_of_tidy (tidy_tidied flat) hinjLeft)
      (nodup_of_tidy (tidy_tidied flat') hinjRight)]
    intro t
    rw [mem_tidied, mem_tidied, h]
  refine List.Perm.eq_of_pairwise ?_ (tidy_tidied flat).sorted (tidy_tidied flat').sorted hperm
  intro s t hs ht hst hts
  exact hinj s (mem_tidied.mp hs) t ((h t).mpr (mem_tidied.mp ht)) (le_antisymm hst hts)

theorem finish_congr {isAll : Bool} {flat flat' : List CfgPredicate} (h : ∀ t, t ∈ flat ↔ t ∈ flat')
    (hinj : ∀ s ∈ flat, ∀ t ∈ flat, s.compact = t.compact → s = t) :
    finish isAll flat = finish isAll flat' := by
  have htidied : dedup (flat.insertionSort fun p q => p.compact ≤ q.compact) =
      dedup (flat'.insertionSort fun p q => p.compact ≤ q.compact) := tidied_congr h hinj
  rw [finish, finish, htidied]

/-- A finished list gives its terms to a list of its kind. -/
theorem mem_spread_finish {isAll : Bool} {flat : List CfgPredicate} {t : CfgPredicate}
    (h : ∀ s ∈ flat, Foreign isAll s) : t ∈ spread isAll (finish isAll flat) ↔ t ∈ flat := by
  rcases finish_cases isAll flat with ⟨p, hp, heq⟩ | ⟨-, heq⟩
  · have hforeign : Foreign isAll p := h p (mem_tidied.mp (hp ▸ List.mem_singleton_self p))
    rw [heq, spread_of_foreign hforeign, ← hp, mem_tidied]
  · rw [heq, spread_group, mem_tidied]

/-! ### Rearrangements -/

/-- The terms of lists are reordered, repeated, and put into or taken out of lists of the
same kind, at any depth. -/
inductive Rearranged : CfgPredicate → CfgPredicate → Prop where
  | refl (p : CfgPredicate) : Rearranged p p
  | symm {p q : CfgPredicate} : Rearranged p q → Rearranged q p
  | trans {p q s : CfgPredicate} : Rearranged p q → Rearranged q s → Rearranged p s
  | reorder (isAll : Bool) {items items' : List CfgPredicate} : items.Perm items' →
      Rearranged (group isAll items) (group isAll items')
  | duplicate (isAll : Bool) {p : CfgPredicate} {items : List CfgPredicate} : p ∈ items →
      Rearranged (group isAll (p :: items)) (group isAll items)
  | nest (isAll : Bool) (before inner behind : List CfgPredicate) :
      Rearranged (group isAll (before ++ group isAll inner :: behind))
        (group isAll (before ++ (inner ++ behind)))
  | term (isAll : Bool) (before behind : List CfgPredicate) {p q : CfgPredicate} :
      Rearranged p q →
        Rearranged (group isAll (before ++ p :: behind)) (group isAll (before ++ q :: behind))
  | not {p q : CfgPredicate} : Rearranged p q → Rearranged (.not p) (.not q)

theorem mem_leaves_group {isAll : Bool} {items : List CfgPredicate} {x : CfgPredicate} :
    x ∈ (group isAll items).leaves ↔ ∃ p ∈ items, x ∈ p.leaves := by
  rw [← mem_leavesList]
  cases isAll with
  | true => exact Iff.rfl
  | false => exact Iff.rfl

/-- A rearrangement has the same leaves. -/
theorem Rearranged.mem_leaves {p q x : CfgPredicate} (h : Rearranged p q) :
    x ∈ p.leaves ↔ x ∈ q.leaves := by
  induction h with
  | refl p => exact Iff.rfl
  | symm _ ih => exact ih.symm
  | trans _ _ ih ih' => exact ih.trans ih'
  | reorder isAll hperm => simp only [mem_leaves_group, hperm.mem_iff]
  | duplicate isAll hp =>
      rw [mem_leaves_group, mem_leaves_group]
      constructor
      · rintro ⟨s, hs, hx⟩
        rcases List.mem_cons.mp hs with rfl | hs
        · exact ⟨s, hp, hx⟩
        · exact ⟨s, hs, hx⟩
      · rintro ⟨s, hs, hx⟩
        exact ⟨s, List.mem_cons_of_mem _ hs, hx⟩
  | nest isAll before inner behind =>
      simp only [mem_leaves_group, List.mem_append, List.mem_cons, or_and_right, exists_or,
        exists_eq_left]
  | term isAll before behind _ ih =>
      simp only [mem_leaves_group, List.mem_append, List.mem_cons, or_and_right, exists_or,
        exists_eq_left, ih]
  | not _ ih => exact ih

/-- The terms of a joined list are canonical, none is a list of its kind, and their leaves are
those of the list. -/
theorem of_mem_joined {isAll : Bool} {items : List CfgPredicate} {t : CfgPredicate}
    (h : t ∈ joined isAll items) :
    IsCanonical t ∧ Foreign isAll t ∧ ∀ x ∈ t.leaves, x ∈ (group isAll items).leaves := by
  obtain ⟨p, hp, ht⟩ := mem_joined.mp h
  obtain ⟨hcanonical, hforeign⟩ := isCanonical_of_mem_spread (isCanonical_canonical p) ht
  refine ⟨hcanonical, hforeign, fun x hx => mem_leaves_group.mpr ⟨p, hp, ?_⟩⟩
  rw [← mem_leaves_canonical, ← mem_leaves_spread isAll]
  exact mem_leavesList.mpr ⟨t, ht, hx⟩

/-- Lists whose joined terms are the same have one canonical form. -/
theorem canonical_group_congr {isAll : Bool} {items items' : List CfgPredicate}
    (hleaves : LeavesApart (group isAll items))
    (h : ∀ t, t ∈ joined isAll items ↔ t ∈ joined isAll items') :
    (group isAll items).canonical = (group isAll items').canonical := by
  rw [canonical_group, canonical_group]
  refine finish_congr h fun s hs t ht htext => ?_
  obtain ⟨hcanonical, -, hsub⟩ := of_mem_joined hs
  obtain ⟨hcanonical', -, hsub'⟩ := of_mem_joined ht
  exact hcanonical.eq_of_compact_eq hcanonical' (hleaves.leavesRead hsub hsub') htext

theorem LeavesApart.of_mem_iff {p q : CfgPredicate} (h : LeavesApart p)
    (hpq : ∀ x, x ∈ p.leaves ↔ x ∈ q.leaves) : LeavesApart q := by
  intro name hfeature hoption
  exact h name ((hpq _).mpr hfeature) ((hpq _).mpr hoption)

theorem LeavesApart.of_term {isAll : Bool} {items : List CfgPredicate} {p : CfgPredicate}
    (h : LeavesApart (group isAll items)) (hp : p ∈ items) : LeavesApart p := by
  intro name hfeature hoption
  exact h name (mem_leaves_group.mpr ⟨p, hp, hfeature⟩) (mem_leaves_group.mpr ⟨p, hp, hoption⟩)

/-- A rearrangement has the same canonical form. -/
theorem Rearranged.canonical_eq {p q : CfgPredicate} (h : Rearranged p q) (hp : LeavesApart p) :
    p.canonical = q.canonical := by
  induction h with
  | refl p => rfl
  | symm h ih => exact (ih (hp.of_mem_iff fun x => h.mem_leaves.symm)).symm
  | trans h _ ih ih' => exact (ih hp).trans (ih' (hp.of_mem_iff fun x => h.mem_leaves))
  | reorder isAll hperm =>
      refine canonical_group_congr hp fun t => ?_
      simp only [mem_joined, hperm.mem_iff]
  | duplicate isAll hmem =>
      refine canonical_group_congr hp fun t => ?_
      rw [mem_joined, mem_joined]
      constructor
      · rintro ⟨s, hs, ht⟩
        rcases List.mem_cons.mp hs with rfl | hs
        · exact ⟨s, hmem, ht⟩
        · exact ⟨s, hs, ht⟩
      · rintro ⟨s, hs, ht⟩
        exact ⟨s, List.mem_cons_of_mem _ hs, ht⟩
  | nest isAll before inner behind =>
      have hinner : ∀ t, t ∈ spread isAll (group isAll inner).canonical ↔
          ∃ p ∈ inner, t ∈ spread isAll p.canonical := by
        intro t
        rw [canonical_group, mem_spread_finish fun s hs => (of_mem_joined hs).2.1, mem_joined]
      refine canonical_group_congr hp fun t => ?_
      simp only [mem_joined, List.mem_append, List.mem_cons, or_and_right, exists_or,
        exists_eq_left, hinner]
  | term isAll before behind _ ih =>
      have hterm := ih (hp.of_term (List.mem_append_right _ List.mem_cons_self))
      refine canonical_group_congr hp fun t => ?_
      simp only [mem_joined, List.mem_append, List.mem_cons, or_and_right, exists_or,
        exists_eq_left, hterm]
  | not _ ih => rw [canonical, canonical, ih hp]

/-! ### What canonicalisation does -/

/-- Canonicalisation is idempotent, keeps the verdict under every profile, and gives every
rearrangement of a predicate the same form, where no feature is also an option. -/
theorem canonical_spec (p : CfgPredicate) :
    p.canonical.canonical = p.canonical ∧
      (∀ profile, p.canonical.evalIn profile = p.evalIn profile) ∧
        (LeavesApart p → ∀ q, Rearranged p q → q.canonical = p.canonical) :=
  ⟨(isCanonical_canonical p).canonical_eq, fun profile => evalIn_canonical profile p,
    fun hp _ h => (h.canonical_eq hp).symm⟩

/-- `all(any(a, b), all(b))` and `all(b, any(b, a))`. -/
theorem canonical_spec_ab :
    canonical
        (group true [group false [.feature ['b'], .feature ['a']], group true [.feature ['b']]]) =
      canonical
        (group true [group false [.feature ['a'], .feature ['b']], group true [.feature ['b']]]) := by
  refine (canonical_spec (group true [group false [.feature ['a'], .feature ['b']],
    group true [.feature ['b']]])).2.2 ?_ _ ?_
  · intro name _ hoption
    simp [group, leaves, leavesList] at hoption
  · refine Rearranged.term true [] [group true [.feature ['b']]] ?_
    exact .reorder false (.swap _ _ _)

/-- The feature `x` and the option `feature` with the value `x` are written alike. -/
def featureX : CfgPredicate := .feature ['x']

def optionX : CfgPredicate := .option featureKey (some ['x'])

/-- A repeated feature stays twice where the option stands between its occurrences. -/
theorem rearranged_option_differs :
    ¬ ∀ p : CfgPredicate, p.canonical.canonical = p.canonical ∧
      (∀ profile, p.canonical.evalIn profile = p.evalIn profile) ∧
        ∀ q, Rearranged p q → q.canonical = p.canonical := by
  intro h
  have hperm : [featureX, optionX, featureX].Perm [featureX, featureX, optionX] :=
    .cons _ (.swap _ _ _)
  have hsame := (h (group true [featureX, optionX, featureX])).2.2 _ (.reorder true hperm)
  exact absurd hsame (by decide +kernel)

end CfgPredicate

end AutomatisedPipeline.Cfg

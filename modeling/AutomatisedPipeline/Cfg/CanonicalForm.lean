import AutomatisedPipeline.Cfg.Eval

/-!
The canonical form of a predicate.

`IsCanonical` says what a canonical predicate looks like: terms sorted, none twice in a row,
no list of one term, none inside one of its kind, no double negation. `canonical` makes
such a predicate of every predicate and changes none that is one, so it is idempotent; it
keeps the verdict under every profile.
-/

namespace AutomatisedPipeline.Cfg

open Text Kleene

namespace CfgPredicate

/-! ### Tidy lists -/

/-- `all` or `any`. -/
def group (isAll : Bool) (items : List CfgPredicate) : CfgPredicate :=
  if isAll then .all items else .any items

/-- The terms that `finish` keeps. -/
def tidied (flat : List CfgPredicate) : List CfgPredicate :=
  dedup (flat.insertionSort fun p q => p.compact ≤ q.compact)

/-- Sorted by their texts, with no two equal neighbours. -/
structure Tidy (terms : List CfgPredicate) : Prop where
  sorted : terms.Pairwise fun p q => p.compact ≤ q.compact
  distinct : terms.IsChain fun p q => p ≠ q

theorem dedup_sublist (items : List CfgPredicate) : (dedup items).Sublist items := by
  fun_induction dedup items with
  | case1 => exact .refl _
  | case2 => exact .refl _
  | case3 q rest ih => exact ih.cons _
  | case4 p q rest hne ih => exact ih.cons_cons _

theorem head?_dedup (items : List CfgPredicate) : (dedup items).head? = items.head? := by
  fun_induction dedup items with
  | case1 => rfl
  | case2 => rfl
  | case3 q rest ih => exact ih
  | case4 p q rest hne ih => rfl

theorem isChain_dedup (items : List CfgPredicate) : (dedup items).IsChain fun p q => p ≠ q := by
  fun_induction dedup items with
  | case1 => exact .nil
  | case2 p => exact .singleton p
  | case3 q rest ih => exact ih
  | case4 p q rest hne ih =>
      refine List.isChain_cons.mpr ⟨fun r hr => ?_, ih⟩
      rw [head?_dedup] at hr
      obtain rfl := Option.some.inj hr
      exact hne

theorem dedup_of_isChain {items : List CfgPredicate} (h : items.IsChain fun p q => p ≠ q) :
    dedup items = items := by
  fun_induction dedup items with
  | case1 => rfl
  | case2 => rfl
  | case3 q rest ih => exact absurd rfl (List.isChain_cons_cons.mp h).1
  | case4 p q rest hne ih => rw [ih (List.isChain_cons_cons.mp h).2]

theorem mem_tidied {p : CfgPredicate} {flat : List CfgPredicate} : p ∈ tidied flat ↔ p ∈ flat := by
  rw [tidied, mem_dedup, List.mem_insertionSort]

section Sorting

instance : Std.Total fun p q : CfgPredicate => p.compact ≤ q.compact :=
  ⟨fun p q => le_total p.compact q.compact⟩

instance : IsTrans CfgPredicate fun p q => p.compact ≤ q.compact :=
  ⟨fun _ _ _ => le_trans⟩

theorem tidy_tidied (flat : List CfgPredicate) : Tidy (tidied flat) where
  sorted := (List.pairwise_insertionSort _ flat).sublist (dedup_sublist _)
  distinct := isChain_dedup _

theorem tidied_of_tidy {terms : List CfgPredicate} (h : Tidy terms) : tidied terms = terms := by
  rw [tidied, h.sorted.insertionSort_eq, dedup_of_isChain h.distinct]

end Sorting

/-- `finish` unwraps a single term. -/
theorem finish_cases (isAll : Bool) (flat : List CfgPredicate) :
    (∃ p, tidied flat = [p] ∧ finish isAll flat = p) ∨
      (tidied flat).length ≠ 1 ∧ finish isAll flat = group isAll (tidied flat) := by
  unfold finish
  split
  · rename_i p hp
    exact .inl ⟨p, hp, rfl⟩
  · rename_i hlone
    refine .inr ⟨fun hlen => ?_, rfl⟩
    obtain ⟨p, hp⟩ := List.length_eq_one_iff.mp hlen
    exact hlone p hp

/-! ### Canonical predicates -/

/-- The predicate is no list of the kind. -/
def Foreign (isAll : Bool) (p : CfgPredicate) : Prop := ∀ inner, p ≠ group isAll inner

/-- What a canonical predicate looks like. -/
inductive IsCanonical : CfgPredicate → Prop where
  | feature (name : Str) : IsCanonical (.feature name)
  | option (key : Str) (value : Option Str) : IsCanonical (.option key value)
  | all {items : List CfgPredicate} : (∀ p ∈ items, IsCanonical p) →
      (∀ p ∈ items, Foreign true p) → Tidy items → items.length ≠ 1 → IsCanonical (.all items)
  | any {items : List CfgPredicate} : (∀ p ∈ items, IsCanonical p) →
      (∀ p ∈ items, Foreign false p) → Tidy items → items.length ≠ 1 → IsCanonical (.any items)
  | not {inner : CfgPredicate} : IsCanonical inner → (∀ twice, inner ≠ .not twice) →
      IsCanonical (.not inner)

theorem isCanonical_group {isAll : Bool} {items : List CfgPredicate}
    (hitems : ∀ p ∈ items, IsCanonical p) (hforeign : ∀ p ∈ items, Foreign isAll p)
    (htidy : Tidy items) (hlen : items.length ≠ 1) : IsCanonical (group isAll items) := by
  cases isAll with
  | true => exact .all hitems hforeign htidy hlen
  | false => exact .any hitems hforeign htidy hlen

theorem spread_of_foreign {isAll : Bool} {p : CfgPredicate} (h : Foreign isAll p) :
    spread isAll p = [p] := by
  cases p with
  | feature name => rfl
  | option key value => rfl
  | not inner => rfl
  | all inner =>
      cases isAll with
      | true => exact absurd rfl (h inner)
      | false => rfl
  | any inner =>
      cases isAll with
      | true => rfl
      | false => exact absurd rfl (h inner)

theorem spread_group (isAll : Bool) (items : List CfgPredicate) :
    spread isAll (group isAll items) = items := by
  cases isAll with
  | true => rfl
  | false => rfl

/-- A predicate gives its own terms, or itself. -/
theorem spread_cases (isAll : Bool) (p : CfgPredicate) :
    (∃ inner, p = group isAll inner ∧ spread isAll p = inner) ∨
      Foreign isAll p ∧ spread isAll p = [p] := by
  by_cases h : ∃ inner, p = group isAll inner
  · obtain ⟨inner, rfl⟩ := h
    exact .inl ⟨inner, rfl, spread_group isAll inner⟩
  · have hforeign : Foreign isAll p := fun inner heq => h ⟨inner, heq⟩
    exact .inr ⟨hforeign, spread_of_foreign hforeign⟩

theorem isCanonical_of_mem_spread {isAll : Bool} {p t : CfgPredicate} (hp : IsCanonical p)
    (ht : t ∈ spread isAll p) : IsCanonical t ∧ Foreign isAll t := by
  rcases spread_cases isAll p with ⟨inner, rfl, hspread⟩ | ⟨hforeign, hspread⟩
  · rw [hspread] at ht
    cases isAll with
    | true =>
        cases hp with
        | all hitems hforeign => exact ⟨hitems t ht, hforeign t ht⟩
    | false =>
        cases hp with
        | any hitems hforeign => exact ⟨hitems t ht, hforeign t ht⟩
  · rw [hspread, List.mem_singleton] at ht
    exact ht ▸ ⟨hp, hforeign⟩

theorem mem_joined {isAll : Bool} {items : List CfgPredicate} {t : CfgPredicate} :
    t ∈ joined isAll items ↔ ∃ p ∈ items, t ∈ spread isAll p.canonical := by
  induction items with
  | nil => simp [joined]
  | cons p items ih => simp [joined, ih]

theorem canonical_group (isAll : Bool) (items : List CfgPredicate) :
    (group isAll items).canonical = finish isAll (joined isAll items) := by
  cases isAll with
  | true => exact canonical.eq_1 items
  | false => exact canonical.eq_2 items

theorem isCanonical_finish {isAll : Bool} {flat : List CfgPredicate}
    (h : ∀ t ∈ flat, IsCanonical t ∧ Foreign isAll t) : IsCanonical (finish isAll flat) := by
  rcases finish_cases isAll flat with ⟨p, hp, heq⟩ | ⟨hlen, heq⟩
  · rw [heq]
    exact (h p (mem_tidied.mp (hp ▸ List.mem_singleton_self p))).1
  · rw [heq]
    exact isCanonical_group (fun t ht => (h t (mem_tidied.mp ht)).1)
      (fun t ht => (h t (mem_tidied.mp ht)).2) (tidy_tidied flat) hlen

/-- `canonical` makes a canonical predicate. -/
theorem isCanonical_canonical (p : CfgPredicate) : IsCanonical p.canonical := by
  have hjoined : ∀ isAll items, (∀ p ∈ items, IsCanonical p.canonical) →
      IsCanonical (finish isAll (joined isAll items)) := by
    intro isAll items h
    refine isCanonical_finish fun t ht => ?_
    obtain ⟨p, hp, ht⟩ := mem_joined.mp ht
    exact isCanonical_of_mem_spread (h p hp) ht
  induction p using induct with
  | feature name => exact .feature name
  | option key value => exact .option key value
  | all items ih => exact hjoined true items ih
  | any items ih => exact hjoined false items ih
  | not inner ih =>
      rw [canonical]
      split
      · rename_i twice htwice
        rw [htwice] at ih
        cases ih with
        | not htwice => exact htwice
      · rename_i hnot
        exact .not ih hnot

theorem joined_of_foreign {isAll : Bool} {items : List CfgPredicate}
    (hcanonical : ∀ p ∈ items, p.canonical = p) (hforeign : ∀ p ∈ items, Foreign isAll p) :
    joined isAll items = items := by
  induction items with
  | nil => rfl
  | cons p items ih =>
      obtain ⟨hp, hitems⟩ := List.forall_mem_cons.mp hcanonical
      obtain ⟨hfp, hfitems⟩ := List.forall_mem_cons.mp hforeign
      rw [joined, hp, spread_of_foreign hfp, ih hitems hfitems]
      rfl

theorem canonical_group_of_tidy {isAll : Bool} {items : List CfgPredicate}
    (hcanonical : ∀ p ∈ items, p.canonical = p) (hforeign : ∀ p ∈ items, Foreign isAll p)
    (htidy : Tidy items) (hlen : items.length ≠ 1) :
    (group isAll items).canonical = group isAll items := by
  rw [canonical_group, joined_of_foreign hcanonical hforeign]
  rcases finish_cases isAll items with ⟨p, hp, -⟩ | ⟨-, heq⟩
  · rw [tidied_of_tidy htidy] at hp
    exact absurd (hp ▸ rfl) hlen
  · rw [heq, tidied_of_tidy htidy]

/-- `canonical` changes no canonical predicate. -/
theorem IsCanonical.canonical_eq {p : CfgPredicate} (h : IsCanonical p) : p.canonical = p := by
  induction h with
  | feature name => rfl
  | option key value => rfl
  | all _ hforeign htidy hlen ih =>
      exact @canonical_group_of_tidy true _ ih hforeign htidy hlen
  | any _ hforeign htidy hlen ih =>
      exact @canonical_group_of_tidy false _ ih hforeign htidy hlen
  | not _ hnot ih =>
      rw [canonical, ih]
      split
      · exact absurd rfl (hnot _)
      · rfl

/-! ### The verdict under a profile -/

/-- The verdict of a list of terms. -/
def connective (isAll : Bool) (ts : List Truth) : Truth := if isAll then conj ts else disj ts

theorem conj_congr {ts us : List Truth} (h : ∀ t, t ∈ ts ↔ t ∈ us) : conj ts = conj us := by
  rw [conj, conj]
  simp only [h]

theorem disj_congr {ts us : List Truth} (h : ∀ t, t ∈ ts ↔ t ∈ us) : disj ts = disj us := by
  rw [disj, disj]
  simp only [h]

theorem connective_congr (isAll : Bool) {ts us : List Truth} (h : ∀ t, t ∈ ts ↔ t ∈ us) :
    connective isAll ts = connective isAll us := by
  cases isAll with
  | true => exact conj_congr h
  | false => exact disj_congr h

theorem connective_singleton (isAll : Bool) (t : Truth) : connective isAll [t] = t := by
  cases isAll <;> cases t <;> rfl

/-- The verdict of two lists is that of their verdicts. -/
theorem connective_append (isAll : Bool) (ts us : List Truth) :
    connective isAll (ts ++ us) = connective isAll [connective isAll ts, connective isAll us] := by
  cases isAll with
  | true =>
      simp only [connective, if_true, conj, List.mem_append, List.mem_cons, List.not_mem_nil,
        or_false]
      split_ifs <;> simp_all
  | false =>
      simp only [connective, disj, List.mem_append, List.mem_cons, List.not_mem_nil, or_false]
      split_ifs <;> simp_all

theorem connective_cons (isAll : Bool) (t : Truth) (us : List Truth) :
    connective isAll (t :: us) = connective isAll [t, connective isAll us] := by
  have happend := connective_append isAll [t] us
  rwa [connective_singleton] at happend

section Profile

variable (profile : BuildProfile)

theorem evalIn_group (isAll : Bool) (items : List CfgPredicate) :
    (group isAll items).evalIn profile = connective isAll (items.map (evalIn profile)) := by
  cases isAll with
  | true =>
      unfold evalIn
      rw [group, if_pos rfl, evalWith, fold_conj _ (by decide), evalItems_eq_map]
      rfl
  | false =>
      unfold evalIn
      rw [group, if_neg Bool.false_ne_true, evalWith, fold_disj _ (by decide), evalItems_eq_map]
      rfl

theorem evalIn_spread (isAll : Bool) (p : CfgPredicate) :
    connective isAll ((spread isAll p).map (evalIn profile)) = p.evalIn profile := by
  rcases spread_cases isAll p with ⟨inner, rfl, hspread⟩ | ⟨-, hspread⟩
  · rw [hspread, evalIn_group]
  · rw [hspread, List.map_singleton, connective_singleton]

theorem evalIn_finish (isAll : Bool) (flat : List CfgPredicate) :
    (finish isAll flat).evalIn profile = connective isAll (flat.map (evalIn profile)) := by
  have hterms : connective isAll ((tidied flat).map (evalIn profile)) =
      connective isAll (flat.map (evalIn profile)) := by
    refine connective_congr isAll fun t => ?_
    simp only [List.mem_map, mem_tidied]
  rw [← hterms]
  rcases finish_cases isAll flat with ⟨p, hp, heq⟩ | ⟨-, heq⟩
  · rw [heq, hp, List.map_singleton, connective_singleton]
  · rw [heq, evalIn_group]

theorem evalIn_joined (isAll : Bool) {items : List CfgPredicate}
    (h : ∀ p ∈ items, p.canonical.evalIn profile = p.evalIn profile) :
    connective isAll ((joined isAll items).map (evalIn profile)) =
      connective isAll (items.map (evalIn profile)) := by
  induction items with
  | nil => rfl
  | cons p items ih =>
      obtain ⟨hp, hitems⟩ := List.forall_mem_cons.mp h
      rw [joined, List.map_append, connective_append, evalIn_spread, hp, ih hitems, List.map_cons,
        ← connective_cons]

/-- A predicate and its canonical form have the same verdict under every profile. -/
theorem evalIn_canonical (p : CfgPredicate) : p.canonical.evalIn profile = p.evalIn profile := by
  have hgroup : ∀ isAll items, (∀ p ∈ items, p.canonical.evalIn profile = p.evalIn profile) →
      (group isAll items).canonical.evalIn profile = (group isAll items).evalIn profile := by
    intro isAll items h
    rw [canonical_group, evalIn_finish, evalIn_joined profile isAll h, evalIn_group]
  have hnot : ∀ inner : CfgPredicate,
      (CfgPredicate.not inner).evalIn profile = negate (inner.evalIn profile) := fun _ => rfl
  induction p using induct with
  | feature name => rfl
  | option key value => rfl
  | all items ih => exact hgroup true items ih
  | any items ih => exact hgroup false items ih
  | not inner ih =>
      rw [hnot, ← ih, canonical]
      split
      · rename_i twice htwice
        rw [htwice, hnot]
        cases twice.evalIn profile <;> rfl
      · rw [hnot]

end Profile

end CfgPredicate

end AutomatisedPipeline.Cfg

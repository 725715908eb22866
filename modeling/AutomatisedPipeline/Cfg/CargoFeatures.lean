import AutomatisedPipeline.Logic.Walk
import AutomatisedPipeline.Text.Basic

/-!
The features that a package enables by default (`cargo_features.rs`).

`DefaultFeature` says what `default` turns on, entry by entry; `default_closure` finds those
features with a stack of entries (`mem_defaultClosure`).
-/

namespace AutomatisedPipeline.Cfg

open Text Walk

/-- The `[features]` table of a package. -/
abbrev Features : Type := List (Str × List Str)

/-- `enabled_feature`. -/
def enabledFeature (entry : Str) : Option Str :=
  if "dep:".toList.isPrefixOf entry then none
  else if '/' ∈ entry then
    let dep := entry.takeWhile (· ≠ '/')
    if dep.getLast? = some '?' then none else some dep
  else some entry

/-- The feature of the table that an entry turns on. -/
def featureOf (features : Features) (entry : Str) : Option Str :=
  (enabledFeature entry).filter fun name => (features.lookup name).isSome

/-- The entries that an entry puts on the stack, when its feature is new. -/
def entriesOf (features : Features) (entry : Str) : List Str :=
  ((featureOf features entry).bind fun name => features.lookup name).getD []

/-- A `BTreeSet` of texts, in its order. -/
def btreeSet (texts : List Str) : List Str := texts.dedup.insertionSort (· ≤ ·)

@[simp] theorem mem_btreeSet {texts : List Str} {text : Str} : text ∈ btreeSet texts ↔ text ∈ texts := by
  rw [btreeSet, List.mem_insertionSort, List.mem_dedup]

/-- The features that are enabled before the first entry is read. -/
def enabledAtFirst (features : Features) : List Str :=
  if (features.lookup "default".toList).isSome then ["default".toList] else []

/-- `default_closure`. Every entry of the table is read once at most. -/
def defaultClosure (features : Features) : List Str :=
  let pending := (features.lookup "default".toList).getD []
  let fuel := pending.length +
    ((features.map Prod.fst).dedup.map fun name => ((features.lookup name).getD []).length).sum
  let visited := (walk (featureOf features) (entriesOf features) fuel pending.reverse
    (none :: (enabledAtFirst features).map some)).getD []
  btreeSet (enabledAtFirst features ++ visited.filterMap (featureOf features))

example : defaultClosure [("default".toList, ["a".toList, "dep:x".toList]),
    ("a".toList, ["b/std".toList, "c?/std".toList]), ("b".toList, []), ("c".toList, [])] =
      ["a".toList, "b".toList, "default".toList] := by
  decide +kernel

/-! ### What is enabled -/

/-- An entry turns a name on: it is the name, or a feature of a dependency of that name. -/
def TurnsOn (entry name : Str) : Prop :=
  ¬ "dep:".toList <+: entry ∧
    ('/' ∉ entry ∧ entry = name ∨
      ∃ rest, entry = name ++ '/' :: rest ∧ '/' ∉ name ∧ name.getLast? ≠ some '?')

/-- The features of the table that `default` enables. -/
inductive DefaultFeature (features : Features) : Str → Prop
  | default : (features.lookup "default".toList).isSome → DefaultFeature features "default".toList
  | entry {name other entry : Str} {entries : List Str} : DefaultFeature features name →
      features.lookup name = some entries → entry ∈ entries → TurnsOn entry other →
      (features.lookup other).isSome → DefaultFeature features other

theorem enabledFeature_eq_some {entry name : Str} :
    enabledFeature entry = some name ↔ TurnsOn entry name := by
  rw [enabledFeature, TurnsOn]
  by_cases hdep : "dep:".toList <+: entry
  · rw [if_pos (List.isPrefixOf_iff_prefix.mpr hdep)]
    exact iff_of_false (by simp) fun h => h.1 hdep
  · rw [if_neg (mt List.isPrefixOf_iff_prefix.mp hdep), and_iff_right hdep]
    by_cases hslash : '/' ∈ entry
    · obtain ⟨dep, rest, rfl, hfirst⟩ := List.eq_append_cons_of_mem hslash
      have htake := @takeWhile_ne_stop _ _ rest hfirst
      have hsplit : (∃ rest', dep ++ '/' :: rest = name ++ '/' :: rest' ∧ '/' ∉ name ∧
          name.getLast? ≠ some '?') ↔ dep = name ∧ name.getLast? ≠ some '?' := by
        constructor
        · rintro ⟨rest', heq, hname, hlast⟩
          exact ⟨by rw [← htake, heq, takeWhile_ne_stop hname], hlast⟩
        · rintro ⟨rfl, hlast⟩
          exact ⟨rest, rfl, hfirst, hlast⟩
      rw [if_pos hslash, htake, hsplit]
      by_cases hlast : dep.getLast? = some '?'
      · rw [if_pos hlast]
        refine iff_of_false (by simp) ?_
        rintro (⟨hnot, -⟩ | ⟨rfl, hnot⟩)
        · exact hnot hslash
        · exact hnot hlast
      · rw [if_neg hlast, Option.some.injEq]
        constructor
        · rintro rfl
          exact .inr ⟨rfl, hlast⟩
        · rintro (⟨hnot, -⟩ | ⟨rfl, -⟩)
          · exact absurd hslash hnot
          · rfl
    · have hnone : ¬ ∃ rest, entry = name ++ '/' :: rest ∧ '/' ∉ name ∧ name.getLast? ≠ some '?' := by
        rintro ⟨rest, rfl, -⟩
        simp at hslash
      rw [if_neg hslash, or_iff_left hnone, and_iff_right hslash, Option.some.injEq]

theorem featureOf_eq_some {features : Features} {entry name : Str} :
    featureOf features entry = some name ↔
      TurnsOn entry name ∧ (features.lookup name).isSome := by
  rw [featureOf, Option.filter_eq_some_iff, enabledFeature_eq_some]

theorem mem_keys_of_lookup {features : Features} {name : Str}
    (h : (features.lookup name).isSome) : name ∈ features.map Prod.fst := by
  obtain ⟨entries, hlookup⟩ := Option.isSome_iff_exists.mp h
  obtain ⟨before, after, rfl, -⟩ := List.lookup_eq_some_iff.mp hlookup
  simp

/-- The number of entries of a feature. -/
def entryCount (features : Features) (name : Option Str) : Nat :=
  ((name.bind fun n => features.lookup n).getD []).length

theorem featureOf_mem (features : Features) (entry : Str) :
    featureOf features entry ∈ insert none ((features.map Prod.fst).toFinset.image some) := by
  cases h : featureOf features entry with
  | none => exact Finset.mem_insert_self _ _
  | some name =>
      have hmem := mem_keys_of_lookup (featureOf_eq_some.mp h).2
      exact Finset.mem_insert_of_mem (Finset.mem_image.mpr ⟨name, List.mem_toFinset.mpr hmem, rfl⟩)

/-- The walk over the entries ends. -/
theorem visited_isSome (features : Features) : ∃ out,
    walk (featureOf features) (entriesOf features)
      (((features.lookup "default".toList).getD []).length +
        ((features.map Prod.fst).dedup.map fun name => ((features.lookup name).getD []).length).sum)
      ((features.lookup "default".toList).getD []).reverse
      (none :: (enabledAtFirst features).map some) = some out := by
  refine walk_ends_of_finite (entryCount features) (fun _ => le_rfl)
    (fun _ w _ => featureOf_mem features w) (fun p _ => featureOf_mem features p) ?_
  rw [List.length_reverse]
  refine Nat.add_le_add_left ?_ _
  calc ∑ k ∈ insert none ((features.map Prod.fst).toFinset.image some) \
          (none :: (enabledAtFirst features).map some).toFinset, entryCount features k
      ≤ ∑ k ∈ (features.map Prod.fst).toFinset.image some, entryCount features k := by
        refine Finset.sum_le_sum_of_subset fun k hk => ?_
        simp only [Finset.mem_sdiff, Finset.mem_insert, List.mem_toFinset, List.mem_cons,
          not_or] at hk
        exact hk.1.resolve_left hk.2.1
    _ = ∑ name ∈ (features.map Prod.fst).toFinset, entryCount features (some name) :=
        Finset.sum_image fun a _ b _ h => Option.some.inj h
    _ = ((features.map Prod.fst).dedup.map fun name => ((features.lookup name).getD []).length).sum :=
        sum_toFinset_eq _ _

theorem mem_enabledAtFirst {features : Features} {name : Str} : name ∈ enabledAtFirst features ↔
    name = "default".toList ∧ (features.lookup "default".toList).isSome := by
  rw [enabledAtFirst]
  split
  · rename_i hdefault
    rw [List.mem_singleton, and_iff_left hdefault]
  · rename_i hdefault
    exact iff_of_false (by simp) fun h => hdefault h.2

theorem mem_entriesOf {features : Features} {entry next : Str} : next ∈ entriesOf features entry ↔
    ∃ name entries, featureOf features entry = some name ∧ features.lookup name = some entries ∧
      next ∈ entries := by
  rw [entriesOf]
  cases featureOf features entry with
  | none => simp
  | some name => cases hlookup : features.lookup name <;> simp [hlookup]

/-- The entry stands with a feature that `default` enables. -/
def StandsEnabled (features : Features) (entry : Str) : Prop :=
  ∃ name entries, DefaultFeature features name ∧ features.lookup name = some entries ∧
    entry ∈ entries

theorem standsEnabled_first {features : Features} {entry : Str}
    (h : entry ∈ (features.lookup "default".toList).getD []) : StandsEnabled features entry := by
  cases hlookup : features.lookup "default".toList with
  | none =>
      rw [hlookup] at h
      cases h
  | some entries =>
      rw [hlookup] at h
      exact ⟨_, entries, .default (by rw [hlookup]; rfl), hlookup, h⟩

theorem StandsEnabled.feature {features : Features} {entry name : Str}
    (h : StandsEnabled features entry) (hfeature : featureOf features entry = some name) :
    DefaultFeature features name := by
  obtain ⟨n, entries, hn, hlookup, hmem⟩ := h
  obtain ⟨hturns, hname⟩ := featureOf_eq_some.mp hfeature
  exact .entry hn hlookup hmem hturns hname

theorem StandsEnabled.below {features : Features} {first entry : Str}
    (h : StandsEnabled features first)
    (hreach : Relation.ReflTransGen (fun a b => b ∈ entriesOf features a) first entry) :
    StandsEnabled features entry := by
  induction hreach with
  | refl => exact h
  | tail _ hstep ih =>
      obtain ⟨name, entries, hfeature, hlookup, hmem⟩ := mem_entriesOf.mp hstep
      exact ⟨name, entries, ih.feature hfeature, hlookup, hmem⟩

/-- `default_closure` finds what `default` enables. -/
theorem mem_defaultClosure {features : Features} {name : Str} :
    name ∈ defaultClosure features ↔ DefaultFeature features name := by
  obtain ⟨out, hout⟩ := visited_isSome features
  have hclosure : name ∈ defaultClosure features ↔
      name ∈ enabledAtFirst features ∨ ∃ entry ∈ out, featureOf features entry = some name := by
    simp only [defaultClosure, hout, Option.getD_some, mem_btreeSet, List.mem_append,
      List.mem_filterMap]
  rw [hclosure]
  constructor
  · rintro (hmem | ⟨entry, hentry, hfeature⟩)
    · obtain ⟨rfl, hdefault⟩ := mem_enabledAtFirst.mp hmem
      exact .default hdefault
    · obtain ⟨-, p, hp, hreach⟩ := reached_of_walk hout entry hentry
      have hfirst := standsEnabled_first (List.mem_reverse.mp hp)
      exact (hfirst.below hreach).feature hfeature
  · have hseen : ∀ entry n, featureOf features entry = some n →
        featureOf features entry ∈
          marked (featureOf features) (none :: (enabledAtFirst features).map some) out →
        n ∈ enabledAtFirst features ∨ ∃ entry ∈ out, featureOf features entry = some n := by
      intro entry n hfeature hmarked
      rw [hfeature] at hmarked
      rcases mem_marked.mp hmarked with hold | hvisited
      · rcases List.mem_cons.mp hold with hnone | hold
        · cases hnone
        · obtain ⟨m, hm, heq⟩ := List.mem_map.mp hold
          exact .inl (Option.some.inj heq ▸ hm)
      · exact .inr hvisited
    obtain ⟨hpending, hnext⟩ := seen_of_walk hout
    intro h
    clear hclosure
    induction h with
    | default hdefault => exact .inl (mem_enabledAtFirst.mpr ⟨rfl, hdefault⟩)
    | @entry n other entry entries _ hlookup hmem hturns hother ih =>
        have hfeature := featureOf_eq_some.mpr ⟨hturns, hother⟩
        refine hseen entry other hfeature ?_
        rcases ih with hn | ⟨before, hbefore, hn⟩
        · obtain ⟨rfl, -⟩ := mem_enabledAtFirst.mp hn
          refine hpending entry ?_
          rw [hlookup, List.mem_reverse]
          exact hmem
        · exact hnext before hbefore entry (mem_entriesOf.mpr ⟨n, entries, hn, hlookup, hmem⟩)

end AutomatisedPipeline.Cfg

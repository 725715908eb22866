import AutomatisedPipeline.Logic.Assoc
import AutomatisedPipeline.Logic.MapOrder
import AutomatisedPipeline.Text.Basic

/-!
Reciprocal rank fusion (`rrf.rs`), over exact rationals.

The contributions of all lists are added up in a hash map, and what the map yields is sorted
by score, then by key, and cut. `fuseAll` is what is there before the cut: each key of the
lists once, the same for every order of the map and of the lists (`fuse_eq_take`).
-/

namespace AutomatisedPipeline.Search.Rrf

open Text

/-! ### The source's definitions -/

/-- `K`. -/
def k : ℚ := 60

structure RrfResult where
  key : Str
  score : ℚ
  deriving DecidableEq, Repr

/-- A key with its rank in a list; the first rank is one. -/
structure RankedEntry where
  key : Str
  rank : Nat
  deriving DecidableEq, Repr

def rrfContribution (entry : RankedEntry) : ℚ := 1 / (k + entry.rank)

/-- The loops over the lists and over their entries. -/
def scores (rankings : List (List RankedEntry)) : List (Str × ℚ) :=
  rankings.foldl (fun scores rankedList => rankedList.foldl (fun scores entry =>
    Assoc.upsert entry.key 0 (· + rrfContribution entry) scores) scores) []

/-- `sort_by`: the higher score first, and of equal scores the smaller key. -/
def precedes (a b : RrfResult) : Bool := b.score < a.score || a.score == b.score && a.key ≤ b.key

/-- `fuse`, where the map yields its entries in an order. -/
def fuse (order : MapOrder (Str × ℚ)) (rankings : List (List RankedEntry)) (limit : Nat) :
    List RrfResult :=
  (((order.yield (scores rankings)).map fun e => ⟨e.1, e.2⟩).mergeSort precedes).take limit

/-! ### Scores -/

/-- What all the lists contribute. -/
def contributions (rankings : List (List RankedEntry)) : List (Str × ℚ) :=
  rankings.flatten.map fun entry => (entry.key, rrfContribution entry)

theorem scores_eq_collect (rankings : List (List RankedEntry)) :
    scores rankings = Assoc.collect (contributions rankings) := by
  rw [scores, Assoc.collect, contributions, List.foldl_map, List.foldl_flatten]

/-- The reciprocal ranks of a key in the lists, added up. -/
def fusedScore (rankings : List (List RankedEntry)) (key : Str) : ℚ :=
  ((rankings.flatten.filter fun entry => entry.key = key).map rrfContribution).sum

theorem mem_scores_iff {rankings : List (List RankedEntry)} {key : Str} {score : ℚ} :
    (key, score) ∈ scores rankings ↔
      (∃ rankedList ∈ rankings, ∃ entry ∈ rankedList, entry.key = key) ∧
        score = fusedScore rankings key := by
  rw [scores_eq_collect, Assoc.mem_collect_iff]
  refine and_congr ?_ ?_
  · simp [contributions]
  · rw [Assoc.total, contributions, List.filter_map, List.map_map]
    rfl

theorem scores_perm {rankings rankings' : List (List RankedEntry)} (h : rankings.Perm rankings') :
    (scores rankings).Perm (scores rankings') := by
  rw [scores_eq_collect, scores_eq_collect]
  exact Assoc.collect_perm (h.flatten.map _)

/-! ### The order of the results -/

theorem precedes_iff {a b : RrfResult} :
    precedes a b ↔ b.score < a.score ∨ a.score = b.score ∧ a.key ≤ b.key := by
  simp [precedes]

theorem precedes_trans (a b c : RrfResult) (hab : precedes a b) (hbc : precedes b c) :
    precedes a c := by
  rw [precedes_iff] at hab hbc ⊢
  rcases hab with hab | ⟨hab, hkey⟩
  · rcases hbc with hbc | ⟨hbc, -⟩
    · exact .inl (hbc.trans hab)
    · exact .inl (hbc ▸ hab)
  · rcases hbc with hbc | ⟨hbc, hkey'⟩
    · exact .inl (hab ▸ hbc)
    · exact .inr ⟨hab.trans hbc, hkey.trans hkey'⟩

theorem precedes_total (a b : RrfResult) : precedes a b || precedes b a := by
  rw [Bool.or_eq_true, precedes_iff, precedes_iff]
  rcases lt_trichotomy a.score b.score with h | h | h
  · exact .inr (.inl h)
  · rcases le_total a.key b.key with hkey | hkey
    · exact .inl (.inr ⟨h, hkey⟩)
    · exact .inr (.inr ⟨h.symm, hkey⟩)
  · exact .inl (.inl h)

theorem precedes_antisymm {a b : RrfResult} (hab : precedes a b) (hba : precedes b a) : a = b := by
  rw [precedes_iff] at hab hba
  rcases hab with hab | ⟨hscore, hkey⟩
  · rcases hba with hba | ⟨hscore', -⟩
    · exact absurd (hab.trans hba) (lt_irrefl _)
    · exact absurd hscore' hab.ne
  · rcases hba with hba | ⟨-, hkey'⟩
    · exact absurd hscore hba.ne
    · cases a
      cases b
      simp only at hscore hkey hkey'
      rw [hscore, le_antisymm hkey hkey']

/-! ### Fusion -/

/-- All the results, before the cut. -/
def fuseAll (rankings : List (List RankedEntry)) : List RrfResult :=
  ((scores rankings).map fun e => (⟨e.1, e.2⟩ : RrfResult)).mergeSort precedes

/-- Neither the order of the map nor that of the lists matters. -/
theorem fuse_eq_take (order : MapOrder (Str × ℚ)) {rankings rankings' : List (List RankedEntry)}
    (h : rankings'.Perm rankings) (limit : Nat) :
    fuse order rankings' limit = (fuseAll rankings).take limit := by
  rw [fuse, fuseAll, MapOrder.mergeSort_eq_of_perm precedes_trans precedes_total
    (((order.perm _).trans (scores_perm h)).map _) fun a _ b _ => precedes_antisymm]

theorem mem_fuseAll_iff {rankings : List (List RankedEntry)} {r : RrfResult} :
    r ∈ fuseAll rankings ↔
      (∃ rankedList ∈ rankings, ∃ entry ∈ rankedList, entry.key = r.key) ∧
        r.score = fusedScore rankings r.key := by
  rw [← mem_scores_iff, fuseAll, List.mem_mergeSort, List.mem_map]
  constructor
  · rintro ⟨e, he, rfl⟩
    exact he
  · exact fun h => ⟨_, h, rfl⟩

theorem nodup_keys_fuseAll (rankings : List (List RankedEntry)) :
    ((fuseAll rankings).map RrfResult.key).Nodup := by
  have hperm : ((fuseAll rankings).map RrfResult.key).Perm ((scores rankings).map Prod.fst) := by
    have h := (List.mergeSort_perm ((scores rankings).map fun e => (⟨e.1, e.2⟩ : RrfResult))
      precedes).map RrfResult.key
    rwa [List.map_map] at h
  rw [hperm.nodup_iff, scores_eq_collect]
  exact Assoc.nodup_keys_collect _

/-- Of two results, the first has the higher score, or the same score and the smaller key. -/
theorem sorted_fuseAll (rankings : List (List RankedEntry)) :
    (fuseAll rankings).Pairwise fun a b =>
      b.score < a.score ∨ a.score = b.score ∧ a.key < b.key := by
  have hsorted := List.pairwise_mergeSort precedes_trans precedes_total
    ((scores rankings).map fun e => (⟨e.1, e.2⟩ : RrfResult))
  have hkeys := List.pairwise_map.mp (nodup_keys_fuseAll rankings)
  refine (hsorted.and hkeys).imp fun h => ?_
  obtain ⟨hle, hne⟩ := h
  exact (precedes_iff.mp hle).imp_right fun h => ⟨h.1, lt_of_le_of_ne h.2 hne⟩

/-- Fusion returns the first results of the list that has each key of the lists once, with the
sum of its reciprocal ranks, by score and then by key; whatever order the map yields its
entries in and the lists are given in. -/
theorem fuse_spec (rankings : List (List RankedEntry)) :
    ((fuseAll rankings).map RrfResult.key).Nodup ∧
      (∀ r, r ∈ fuseAll rankings ↔
        (∃ rankedList ∈ rankings, ∃ entry ∈ rankedList, entry.key = r.key) ∧
          r.score = fusedScore rankings r.key) ∧
      (fuseAll rankings).Pairwise (fun a b =>
        b.score < a.score ∨ a.score = b.score ∧ a.key < b.key) ∧
      ∀ (order : MapOrder (Str × ℚ)) (rankings' : List (List RankedEntry)) (limit : Nat),
        rankings'.Perm rankings → fuse order rankings' limit = (fuseAll rankings).take limit :=
  ⟨nodup_keys_fuseAll rankings, fun _ => mem_fuseAll_iff, sorted_fuseAll rankings,
    fun order _ limit h => fuse_eq_take order h limit⟩

/-- On two lists given the other way round, from a map that yields its last entry first. -/
theorem fuse_spec_backwards :
    fuse (.backwards _) [[⟨"a".toList, 1⟩], [⟨"b".toList, 1⟩]] 2 =
      (fuseAll [[⟨"b".toList, 1⟩], [⟨"a".toList, 1⟩]]).take 2 :=
  (fuse_spec [[⟨"b".toList, 1⟩], [⟨"a".toList, 1⟩]]).2.2.2 (.backwards _)
    [[⟨"a".toList, 1⟩], [⟨"b".toList, 1⟩]] 2 (.swap _ _ _)

/-- The cut leaves keys out. -/
theorem fuse_cuts_keys :
    ¬ ∀ (order : MapOrder (Str × ℚ)) (rankings : List (List RankedEntry)) (limit : Nat),
      ∀ rankedList ∈ rankings, ∀ entry ∈ rankedList,
        entry.key ∈ (fuse order rankings limit).map RrfResult.key := by
  intro h
  have hall := h (.inserted _) [[⟨"a".toList, 1⟩, ⟨"b".toList, 2⟩]] 1 _ (List.mem_singleton_self _)
  have ha := hall ⟨"a".toList, 1⟩ (by simp)
  have hb := hall ⟨"b".toList, 2⟩ (by simp)
  have hlength : ((fuse (.inserted _) [[⟨"a".toList, 1⟩, ⟨"b".toList, 2⟩]] 1).map
      RrfResult.key).length ≤ 1 := by
    rw [List.length_map, fuse]
    exact List.length_take_le 1 _
  generalize (fuse (.inserted _) [[⟨"a".toList, 1⟩, ⟨"b".toList, 2⟩]] 1).map RrfResult.key =
    keys at ha hb hlength
  match keys with
  | [] => cases ha
  | [key] =>
      rw [List.mem_singleton] at ha hb
      exact absurd (ha.trans hb.symm) (by decide)
  | _ :: _ :: _ => simp at hlength

end AutomatisedPipeline.Search.Rrf

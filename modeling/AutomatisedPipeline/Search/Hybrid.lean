import AutomatisedPipeline.Search.Rrf

/-!
Label-filtered retrieval (`hybrid.rs`).

`retrieveRanked` asks the engine for more and more of its ranking, until enough hits survive
the label filter, the engine has no more, or the ceiling is reached. A `usize` has 64 bits
and its products wrap, as they do in the release build; the checked build panics where they
do not fit. `EnoughHits` is what a search is meant to give, for an engine that answers with
the first hits of one ranking; `enoughHits_iff` says when it does.
-/

namespace AutomatisedPipeline.Search.Hybrid

open Text

/-! ### The source's definitions -/

/-- `SearchOptions`: what retrieval reads of it. -/
structure SearchOptions where
  limit : UInt64
  labelFilter : Option Str
  deriving DecidableEq

def overfetchFactor : UInt64 := 3

def mixedCorpusHeadroom : UInt64 := 2

def maxFetchLimit : UInt64 := 4000

def baseFetchLimit (options : SearchOptions) : UInt64 :=
  options.limit * overfetchFactor * mixedCorpusHeadroom

structure Candidate where
  key : Str
  label : Str
  deriving DecidableEq, Repr

def passesLabelFilter (options : SearchOptions) (candidate : Candidate) : Bool :=
  match options.labelFilter with
  | some filter => eqIgnoreAsciiCase candidate.label filter
  | none => true

/-- The keys of the hits that pass the filter. -/
def keptOf (options : SearchOptions) (hits : List Candidate) : List Str :=
  (hits.filter (passesLabelFilter options)).map Candidate.key

/-- `as_ranking`: ranks begin at one. -/
def asRanking (qualifiedNames : List Str) : List Rrf.RankedEntry :=
  qualifiedNames.zipIdx.map fun e => ⟨e.1, e.2 + 1⟩

/-- `target`. -/
def target (options : SearchOptions) : UInt64 := options.limit * overfetchFactor

/-- The loop of `retrieve_ranked` from a fetch size; `none` when the fuel runs out. -/
def retrieveLoop (fetch : UInt64 → Except Str (List Candidate)) (options : SearchOptions) :
    Nat → UInt64 → Option (Except Str (List Rrf.RankedEntry))
  | 0, _ => none
  | fuel + 1, fetchLimit =>
      match fetch fetchLimit with
      | .error e => some (.error e)
      | .ok hits =>
          let exhausted := hits.length < fetchLimit.toNat
          let kept := keptOf options hits
          if (target options).toNat ≤ kept.length ∨ exhausted ∨ maxFetchLimit ≤ fetchLimit then
            some (.ok (asRanking kept))
          else retrieveLoop fetch options fuel (min (fetchLimit * 2) maxFetchLimit)

/-- `retrieve_ranked`. -/
def retrieveRanked (fetch : UInt64 → Except Str (List Candidate)) (options : SearchOptions)
    (fuel : Nat) : Option (Except Str (List Rrf.RankedEntry)) :=
  retrieveLoop fetch options fuel (baseFetchLimit options)

/-! ### An engine with one ranking -/

/-- The engine answers with the first hits of a ranking. -/
def firstOf (ranking : List Candidate) (n : UInt64) : Except Str (List Candidate) :=
  .ok (ranking.take n.toNat)

/-- How many of the first `n` hits pass the filter. -/
def survivors (options : SearchOptions) (ranking : List Candidate) (n : Nat) : Nat :=
  (ranking.take n).countP (passesLabelFilter options)

/-- What retrieval is meant to give: it returns, and what it returns begins the filtered
ranking and has three times the limit, or all that pass the filter below the ceiling. -/
def EnoughHits (options : SearchOptions) (ranking : List Candidate) : Prop :=
  ∃ fuel kept, retrieveRanked (firstOf ranking) options fuel = some (.ok (asRanking kept)) ∧
    kept <+: keptOf options ranking ∧
    min (options.limit.toNat * 3) (survivors options ranking maxFetchLimit.toNat) ≤ kept.length

section Loop

variable {options : SearchOptions} {ranking : List Candidate}

theorem length_keptOf (n : Nat) :
    (keptOf options (ranking.take n)).length = survivors options ranking n := by
  rw [keptOf, List.length_map, survivors, List.countP_eq_length_filter]

theorem survivors_mono {n m : Nat} (h : n ≤ m) :
    survivors options ranking n ≤ survivors options ranking m :=
  List.Sublist.countP_le (List.take_sublist_take_left h)

theorem survivors_le (n : Nat) : survivors options ranking n ≤ n :=
  List.countP_le_length.trans (List.length_take_le n ranking)

/-- Beyond the end of the ranking there is no more. -/
theorem survivors_of_length_lt {n : Nat} (h : ranking.length < n) (m : Nat) :
    survivors options ranking m ≤ survivors options ranking n := by
  rw [survivors, survivors, List.take_of_length_le h.le]
  exact List.Sublist.countP_le (List.take_sublist m ranking)

theorem keptOf_take_prefix (n : Nat) :
    keptOf options (ranking.take n) <+: keptOf options ranking := by
  exact ((List.take_prefix n ranking).filter _).map _

/-- The loop stops at a fetch size. -/
def Stops (options : SearchOptions) (ranking : List Candidate) (n : Nat) : Prop :=
  (target options).toNat ≤ survivors options ranking n ∨ ranking.length < n ∨
    maxFetchLimit.toNat ≤ n

theorem toNat_next {fetchLimit : UInt64} (h : fetchLimit.toNat < maxFetchLimit.toNat) :
    (min (fetchLimit * 2) maxFetchLimit).toNat = min (fetchLimit.toNat * 2) maxFetchLimit.toNat := by
  have hmax : maxFetchLimit.toNat = 4000 := rfl
  have hdouble : (fetchLimit * 2).toNat = fetchLimit.toNat * 2 := by
    rw [UInt64.toNat_mul, show (2 : UInt64).toNat = 2 from rfl]
    exact Nat.mod_eq_of_lt (by omega)
  rw [Std.min_eq_if, Nat.min_def, ← hdouble]
  simp only [UInt64.le_iff_toNat_le]
  split
  · rfl
  · rfl

/-- One turn of the loop: it returns where it stops, and goes on from twice the size else. -/
theorem retrieveLoop_succ (fuel : Nat) (fetchLimit : UInt64) :
    (Stops options ranking fetchLimit.toNat ∧
      retrieveLoop (firstOf ranking) options (fuel + 1) fetchLimit =
        some (.ok (asRanking (keptOf options (ranking.take fetchLimit.toNat))))) ∨
    (¬ Stops options ranking fetchLimit.toNat ∧
      retrieveLoop (firstOf ranking) options (fuel + 1) fetchLimit =
        retrieveLoop (firstOf ranking) options fuel (min (fetchLimit * 2) maxFetchLimit)) := by
  have hexhausted : (ranking.take fetchLimit.toNat).length < fetchLimit.toNat ↔
      ranking.length < fetchLimit.toNat := by
    rw [List.length_take]
    omega
  rw [retrieveLoop, firstOf]
  simp only [length_keptOf, hexhausted, UInt64.le_iff_toNat_le]
  by_cases h : Stops options ranking fetchLimit.toNat
  · exact .inl ⟨h, if_pos h⟩
  · exact .inr ⟨h, if_neg h⟩

/-- What the loop returns is kept of the first size it stops at, and below the ceiling that
size comes from doubling. -/
theorem of_retrieveLoop {fuel : Nat} {fetchLimit : UInt64}
    {result : Except Str (List Rrf.RankedEntry)}
    (h : retrieveLoop (firstOf ranking) options fuel fetchLimit = some result) :
    ∃ n, result = .ok (asRanking (keptOf options (ranking.take n))) ∧ Stops options ranking n ∧
      (n < maxFetchLimit.toNat → ∃ i, n = fetchLimit.toNat * 2 ^ i) ∧
      ∀ i, fetchLimit.toNat * 2 ^ i < maxFetchLimit.toNat →
        Stops options ranking (fetchLimit.toNat * 2 ^ i) → n ≤ fetchLimit.toNat * 2 ^ i := by
  induction fuel generalizing fetchLimit with
  | zero => cases h
  | succ fuel ih =>
      rcases @retrieveLoop_succ options ranking fuel fetchLimit with ⟨hstops, hturn⟩ | ⟨hgoes, hturn⟩
      · rw [hturn, Option.some.injEq] at h
        refine ⟨fetchLimit.toNat, h.symm, hstops, fun _ => ⟨0, by simp⟩, fun i _ _ => ?_⟩
        exact Nat.le_mul_of_pos_right _ (Nat.two_pow_pos i)
      · rw [hturn] at h
        have hbelow : fetchLimit.toNat < maxFetchLimit.toNat := by
          by_contra hceiling
          exact hgoes (.inr (.inr (Nat.le_of_not_lt hceiling)))
        obtain ⟨n, hresult, hstops, hdouble, hfirst⟩ := ih h
        rw [toNat_next hbelow] at hdouble hfirst
        refine ⟨n, hresult, hstops, fun hn => ?_, fun i hi hstop => ?_⟩
        · obtain ⟨i, rfl⟩ := hdouble hn
          have hsmall : fetchLimit.toNat * 2 ≤ maxFetchLimit.toNat := by
            by_contra hlarge
            rw [Nat.min_eq_right (by omega)] at hn
            exact absurd hn (Nat.not_lt.mpr (Nat.le_mul_of_pos_right _ (Nat.two_pow_pos i)))
          exact ⟨i + 1, by rw [Nat.min_eq_left hsmall, Nat.pow_succ']; ring⟩
        · cases i with
          | zero => exact absurd (by simpa using hstop) hgoes
          | succ i =>
              have hsplit : fetchLimit.toNat * 2 ^ (i + 1) = fetchLimit.toNat * 2 * 2 ^ i := by
                rw [Nat.pow_succ']
                ring
              have hsmall : fetchLimit.toNat * 2 ≤ maxFetchLimit.toNat := by
                have hle := Nat.le_mul_of_pos_right (fetchLimit.toNat * 2) (Nat.two_pow_pos i)
                omega
              rw [hsplit] at hi hstop ⊢
              rw [Nat.min_eq_left hsmall] at hfirst
              exact hfirst i hi hstop

/-- From any fetch size but nought, the loop returns. -/
theorem exists_retrieveLoop {fetchLimit : UInt64} (hpos : 0 < fetchLimit.toNat) :
    ∃ fuel result, retrieveLoop (firstOf ranking) options fuel fetchLimit = some result := by
  induction hleft : maxFetchLimit.toNat - fetchLimit.toNat using Nat.strong_induction_on
    generalizing fetchLimit with
  | _ left ih =>
    by_cases hstops : Stops options ranking fetchLimit.toNat
    · rcases @retrieveLoop_succ options ranking 0 fetchLimit with ⟨-, hturn⟩ | ⟨hgoes, -⟩
      · exact ⟨1, _, hturn⟩
      · exact absurd hstops hgoes
    · have hbelow : fetchLimit.toNat < maxFetchLimit.toNat := by
        by_contra hceiling
        exact hstops (.inr (.inr (Nat.le_of_not_lt hceiling)))
      have hnext := toNat_next hbelow
      obtain ⟨fuel, result, hresult⟩ := ih _ (by omega)
        (show 0 < (min (fetchLimit * 2) maxFetchLimit).toNat by omega) rfl
      rcases @retrieveLoop_succ options ranking fuel fetchLimit with ⟨hstops', -⟩ | ⟨-, hturn⟩
      · exact absurd hstops' hstops
      · exact ⟨fuel + 1, result, hturn.trans hresult⟩

/-- A fetch size of nought stays nought. -/
theorem retrieveLoop_zero (htarget : 0 < (target options).toNat) (fuel : Nat) :
    retrieveLoop (firstOf ranking) options fuel 0 = none := by
  induction fuel with
  | zero => rfl
  | succ fuel ih =>
      rcases @retrieveLoop_succ options ranking fuel 0 with ⟨hstops, -⟩ | ⟨-, hturn⟩
      · rcases hstops with h | h | h
        · have hnone := @survivors_le options ranking (0 : UInt64).toNat
          have hzero : (0 : UInt64).toNat = 0 := rfl
          omega
        · cases h
        · cases h
      · rw [hturn]
        exact ih

end Loop

/-! ### Enough hits -/

section Enough

variable (options : SearchOptions) (ranking : List Candidate)

theorem toNat_target : (target options).toNat = options.limit.toNat * 3 % 2 ^ 64 := by
  rw [target, UInt64.toNat_mul, show overfetchFactor.toNat = 3 from rfl]

theorem toNat_baseFetchLimit :
    (baseFetchLimit options).toNat = options.limit.toNat * 6 % 2 ^ 64 := by
  rw [baseFetchLimit, UInt64.toNat_mul, UInt64.toNat_mul, show overfetchFactor.toNat = 3 from rfl,
    show mixedCorpusHeadroom.toNat = 2 from rfl, Nat.mod_mul_mod, Nat.mul_assoc]

/-- Where six times the limit fits, nothing wraps. -/
theorem toNat_of_fits (h : options.limit.toNat * 6 < 2 ^ 64) :
    (target options).toNat = options.limit.toNat * 3 ∧
      (baseFetchLimit options).toNat = options.limit.toNat * 6 := by
  rw [toNat_target, toNat_baseFetchLimit]
  generalize options.limit.toNat = limit at *
  omega

/-- Three times a limit wraps to nought for no limit but nought. -/
theorem target_pos (h : options.limit.toNat ≠ 0) : 0 < (target options).toNat := by
  rw [toNat_target, Nat.pos_iff_ne_zero]
  intro hzero
  have hdvd : 2 ^ 64 ∣ options.limit.toNat :=
    Nat.Coprime.dvd_of_dvd_mul_right (by decide +kernel) (Nat.dvd_of_mod_eq_zero hzero)
  exact absurd options.limit.toNat_lt
    (Nat.not_lt.mpr (Nat.le_of_dvd (Nat.pos_of_ne_zero h) hdvd))

/-- Where it does not fit, the ceiling is below three times the limit. -/
theorem ceiling_le_of_wraps (h : ¬ options.limit.toNat * 6 < 2 ^ 64) :
    maxFetchLimit.toNat ≤ options.limit.toNat * 3 := by
  rw [show maxFetchLimit.toNat = 4000 from rfl]
  generalize options.limit.toNat = limit at *
  omega

theorem length_asRanking (qualifiedNames : List Str) :
    (asRanking qualifiedNames).length = qualifiedNames.length := by
  rw [asRanking, List.length_map, List.length_zipIdx]

/-- A run that stops where the survivors are enough has enough hits. -/
theorem enoughHits_of_survivors {fuel n : Nat}
    (hrun : retrieveRanked (firstOf ranking) options fuel =
      some (.ok (asRanking (keptOf options (ranking.take n)))))
    (hstops : Stops options ranking n)
    (htarget : (target options).toNat ≤ survivors options ranking n → n < maxFetchLimit.toNat →
      min (options.limit.toNat * 3) (survivors options ranking maxFetchLimit.toNat) ≤
        survivors options ranking n) :
    EnoughHits options ranking := by
  refine ⟨fuel, keptOf options (ranking.take n), hrun, keptOf_take_prefix n, ?_⟩
  rw [length_keptOf]
  by_cases hceiling : maxFetchLimit.toNat ≤ n
  · exact (Nat.min_le_right _ _).trans (survivors_mono hceiling)
  · rcases hstops with h | h | h
    · exact htarget h (Nat.lt_of_not_le hceiling)
    · exact (Nat.min_le_right _ _).trans (survivors_of_length_lt h _)
    · exact absurd h hceiling

/-- There are enough hits exactly where six times the limit fits, or else the wrapped size is
not nought and no size the loop tries below the ceiling has the wrapped target's hits while
there are more below the ceiling. -/
theorem enoughHits_iff :
    EnoughHits options ranking ↔
      options.limit.toNat * 6 < 2 ^ 64 ∨
        0 < (baseFetchLimit options).toNat ∧
          ∀ i, (baseFetchLimit options).toNat * 2 ^ i < maxFetchLimit.toNat →
            (target options).toNat ≤
                survivors options ranking ((baseFetchLimit options).toNat * 2 ^ i) →
              survivors options ranking maxFetchLimit.toNat ≤
                survivors options ranking ((baseFetchLimit options).toNat * 2 ^ i) := by
  constructor
  · rintro ⟨fuel, kept, hrun, -, henough⟩
    by_cases hfits : options.limit.toNat * 6 < 2 ^ 64
    · exact .inl hfits
    · have hpos : 0 < (baseFetchLimit options).toNat := by
        rw [Nat.pos_iff_ne_zero]
        intro hzero
        have hnought : baseFetchLimit options = 0 := UInt64.toNat_inj.mp hzero
        have hlimit : options.limit.toNat ≠ 0 := fun h => hfits (by rw [h]; decide)
        rw [retrieveRanked, hnought, retrieveLoop_zero (target_pos options hlimit)] at hrun
        cases hrun
      refine .inr ⟨hpos, fun i hi hwrapped => ?_⟩
      obtain ⟨n, hresult, -, -, hfirst⟩ := of_retrieveLoop hrun
      have hlength : kept.length = survivors options ranking n := by
        have h := congrArg List.length (Except.ok.inj hresult)
        rwa [length_asRanking, length_asRanking, length_keptOf] at h
      have hceiling : survivors options ranking maxFetchLimit.toNat ≤ options.limit.toNat * 3 :=
        (survivors_le _).trans (ceiling_le_of_wraps options hfits)
      rw [Nat.min_eq_right hceiling, hlength] at henough
      exact henough.trans (survivors_mono (hfirst i hi (.inl hwrapped)))
  · rintro (hfits | ⟨hpos, henough⟩)
    · obtain ⟨htarget, hbase⟩ := toNat_of_fits options hfits
      have hmin : ∀ n, (target options).toNat ≤ survivors options ranking n →
          min (options.limit.toNat * 3) (survivors options ranking maxFetchLimit.toNat) ≤
            survivors options ranking n :=
        fun n h => (Nat.min_le_left _ _).trans (htarget ▸ h)
      by_cases hzero : options.limit.toNat = 0
      · rw [hzero, Nat.zero_mul] at htarget
        have hstops : Stops options ranking (baseFetchLimit options).toNat :=
          .inl (htarget ▸ Nat.zero_le _)
        rcases @retrieveLoop_succ options ranking 0 (baseFetchLimit options) with ⟨-, hturn⟩ | ⟨h, -⟩
        · exact enoughHits_of_survivors options ranking hturn hstops fun h _ => hmin _ h
        · exact absurd hstops h
      · obtain ⟨fuel, result, hrun⟩ := @exists_retrieveLoop options ranking
          (baseFetchLimit options) (hbase ▸ Nat.mul_pos (Nat.pos_of_ne_zero hzero) (by decide))
        obtain ⟨n, rfl, hstops, -, -⟩ := of_retrieveLoop hrun
        exact enoughHits_of_survivors options ranking hrun hstops fun h _ => hmin n h
    · obtain ⟨fuel, result, hrun⟩ := @exists_retrieveLoop options ranking _ hpos
      obtain ⟨n, rfl, hstops, hdouble, -⟩ := of_retrieveLoop hrun
      refine enoughHits_of_survivors options ranking hrun hstops fun hwrapped hn => ?_
      obtain ⟨i, rfl⟩ := hdouble hn
      exact (Nat.min_le_right _ _).trans (henough i hn hwrapped)

/-- At a limit of `2 ^ 63` the first fetch asks for nothing, and so does every other. -/
theorem not_enoughHits_of_wrapped :
    ¬ ∀ (options : SearchOptions) (ranking : List Candidate), EnoughHits options ranking := by
  intro h
  obtain ⟨fuel, kept, hrun, -⟩ := h ⟨9223372036854775808, none⟩ [⟨"f".toList, "Function".toList⟩]
  have hwrapped : 0 < (target ⟨9223372036854775808, none⟩).toNat := by decide +kernel
  rw [retrieveRanked, show baseFetchLimit ⟨9223372036854775808, none⟩ = 0 by decide +kernel,
    retrieveLoop_zero hwrapped] at hrun
  cases hrun

end Enough

end AutomatisedPipeline.Search.Hybrid

import AutomatisedPipeline.Cochange.Log

/-!
The coefficients of co-change (`rewrite_edges` in `cochange.rs`), over exact rationals.

What is stored of a pair counts at least one commit, and at most the commits that changed
either file, so that coupling and Jaccard coefficient lie between nought and one
(`coefficients_in_range`). What is stored does not depend on the order of the commits, nor
on how they come in batches (`sameAggregates_of_perm`).
-/

namespace AutomatisedPipeline.Cochange

open Text

/-! ### The source's definitions -/

/-- `MIN_COCHANGE`. -/
def minCochange : Int := 3

/-- `MIN_COUPLING`. -/
def minCoupling : ℚ := 3 / 10

/-- `split_key`. -/
def splitKey (key : Str) : Option (Str × Str) :=
  match key.splitOn unitSeparator with
  | a :: b :: _ => some (a, b)
  | _ => none

/-- `min`: the smaller of the change counts. -/
def CochangeState.support (state : CochangeState) (a b : Str) : Int :=
  min (state.fileCount a) (state.fileCount b)

def CochangeState.coupling (state : CochangeState) (a b : Str) (agg : PairAgg) : ℚ :=
  agg.count / state.support a b

/-- `union`: the commits that changed either file. -/
def CochangeState.union (state : CochangeState) (a b : Str) (agg : PairAgg) : Int :=
  state.fileCount a + state.fileCount b - agg.count

def CochangeState.jaccard (state : CochangeState) (a b : Str) (agg : PairAgg) : ℚ :=
  if 0 < state.union a b agg then agg.count / state.union a b agg else 0

/-- The edge that `rewrite_edges` inserts, with its properties. -/
structure ChangesWith where
  a : Str
  b : Str
  cochangeCount : Int
  support : Int
  coupling : ℚ
  jaccard : ℚ
  lastCoChange : Int

/-- The loop body of `rewrite_edges`, up to the insertion. -/
def CochangeState.edgeOf (state : CochangeState) (key : Str) (agg : PairAgg) : Option ChangesWith :=
  if agg.count < minCochange then none
  else
    match splitKey key with
    | none => none
    | some (a, b) =>
        if state.support a b ≤ 0 then none
        else if state.coupling a b agg < minCoupling then none
        else
          some
            { a := a
              b := b
              cochangeCount := agg.count
              support := state.support a b
              coupling := state.coupling a b agg
              jaccard := state.jaccard a b agg
              lastCoChange := agg.lastTs }

/-! ### Commits -/

/-- A commit that changes each of its files once; the unit separator does not appear in a path. -/
structure DistinctFiles extends CommitFiles where
  distinct : files.Nodup
  separable : ∀ file ∈ files, unitSeparator ∉ file

/-- The files that a commit counts for. -/
def CommitFiles.counted (c : CommitFiles) : List Str :=
  if 1 ≤ c.files.length ∧ c.files.length ≤ maxFilesPerCommit then c.files else []

/-- The pairs that a commit counts for, with its timestamp. -/
def CommitFiles.coupled (c : CommitFiles) : List (Str × Int) :=
  if 2 ≤ c.files.length ∧ c.files.length ≤ maxFilesPerCommit then
    (pairKeys c.files).map fun key => (key, c.ts)
  else []

section Accumulate

theorem fileChanges_bumpFiles (files : List Str) (state : CochangeState) :
    (files.foldl CochangeState.bumpFile state).fileChanges =
      files.foldl (fun changes file => Assoc.upsert file 0 (· + 1) changes) state.fileChanges := by
  induction files generalizing state with
  | nil => rfl
  | cons file files ih => rw [List.foldl_cons, ih, List.foldl_cons, CochangeState.bumpFile]

theorem pairs_bumpPairs (ts : Int) (keys : List Str) (state : CochangeState) :
    (keys.foldl (CochangeState.bumpPair ts) state).pairs =
      (keys.map fun key => (key, ts)).foldl (fun pairs e =>
        Assoc.upsert e.1 { count := 0, lastTs := 0 } (PairAgg.bump e.2) pairs) state.pairs := by
  induction keys generalizing state with
  | nil => rfl
  | cons key keys ih =>
      rw [List.foldl_cons, ih, List.map_cons, List.foldl_cons, CochangeState.bumpPair]

/-- Accumulating bumps the files that the commits count for, one after the other. -/
theorem fileChanges_accumulate (state : CochangeState) (commits : List CommitFiles) :
    (accumulate state commits).fileChanges =
      (commits.flatMap CommitFiles.counted).foldl
        (fun changes file => Assoc.upsert file 0 (· + 1) changes) state.fileChanges := by
  induction commits generalizing state with
  | nil => rfl
  | cons c commits ih =>
      rw [accumulate, List.foldl_cons, ← accumulate, ih, List.flatMap_cons, List.foldl_append]
      congr 1
      rw [accumulateCommit, CommitFiles.counted]
      split
      · rename_i hskip
        split
        · rename_i hone
          rw [if_pos ⟨by omega, by simp [maxFilesPerCommit, hone]⟩, fileChanges_bumpFiles]
        · rw [if_neg (by omega)]
          rfl
      · rename_i hcounted
        rw [if_pos (by omega), fileChanges_bumpPairs, fileChanges_bumpFiles]

/-- Accumulating bumps the pairs that the commits count for, one after the other. -/
theorem pairs_accumulate (state : CochangeState) (commits : List CommitFiles) :
    (accumulate state commits).pairs =
      (commits.flatMap CommitFiles.coupled).foldl (fun pairs e =>
        Assoc.upsert e.1 { count := 0, lastTs := 0 } (PairAgg.bump e.2) pairs) state.pairs := by
  induction commits generalizing state with
  | nil => rfl
  | cons c commits ih =>
      rw [accumulate, List.foldl_cons, ← accumulate, ih, List.flatMap_cons, List.foldl_append]
      congr 1
      rw [accumulateCommit, CommitFiles.coupled]
      split
      · rename_i hskip
        have hnone : ¬(2 ≤ c.files.length ∧ c.files.length ≤ maxFilesPerCommit) := by omega
        rw [if_neg hnone, List.foldl_nil]
        split
        · rw [pairs_bumpFiles]
        · rfl
      · rename_i hcounted
        rw [if_pos (by omega), pairs_bumpPairs, pairs_bumpFiles]

end Accumulate

/-! ### The order of the commits -/

theorem PairAgg.bump_comm (ts ts' : Int) (agg : PairAgg) :
    (agg.bump ts').bump ts = (agg.bump ts).bump ts' := by
  simp only [PairAgg.bump, PairAgg.mk.injEq, true_and]
  split_ifs <;> omega

/-- Two states whose maps have the same entries. -/
structure SameAggregates (state state' : CochangeState) : Prop where
  schemaVersion : state.schemaVersion = state'.schemaVersion
  lastSha : state.lastSha = state'.lastSha
  fileChanges : ∀ file, state.fileChanges.lookup file = state'.fileChanges.lookup file
  pairs : ∀ key, state.pairs.lookup key = state'.pairs.lookup key

/-- The later state has the version and the last commit of the earlier one. -/
def KeepsHeader (state state' : CochangeState) : Prop :=
  state'.schemaVersion = state.schemaVersion ∧ state'.lastSha = state.lastSha

theorem keepsHeader_bumpFiles {state state' : CochangeState} (h : KeepsHeader state state')
    (files : List Str) : KeepsHeader state (files.foldl CochangeState.bumpFile state') :=
  List.foldlRecOn files _ h fun _ h _ _ => h

theorem keepsHeader_bumpPairs {state state' : CochangeState} (h : KeepsHeader state state')
    (ts : Int) (keys : List Str) :
    KeepsHeader state (keys.foldl (CochangeState.bumpPair ts) state') :=
  List.foldlRecOn keys _ h fun _ h _ _ => h

/-- Accumulating touches the two maps only. -/
theorem accumulate_keeps (state : CochangeState) (commits : List CommitFiles) :
    (accumulate state commits).schemaVersion = state.schemaVersion ∧
      (accumulate state commits).lastSha = state.lastSha := by
  apply List.foldlRecOn (motive := KeepsHeader state)
  · exact ⟨rfl, rfl⟩
  · intro state' h c _
    rw [accumulateCommit]
    split
    · split
      · exact keepsHeader_bumpFiles h c.files
      · exact h
    · exact keepsHeader_bumpPairs (keepsHeader_bumpFiles h c.files) c.ts (pairKeys c.files)

/-- What is accumulated does not depend on the order of the commits. -/
theorem sameAggregates_of_perm (state : CochangeState) {commits commits' : List CommitFiles}
    (h : commits.Perm commits') :
    SameAggregates (accumulate state commits) (accumulate state commits') := by
  obtain ⟨hversion, hsha⟩ := accumulate_keeps state commits
  obtain ⟨hversion', hsha'⟩ := accumulate_keeps state commits'
  refine ⟨hversion.trans hversion'.symm, hsha.trans hsha'.symm, fun file => ?_, fun key => ?_⟩
  · rw [fileChanges_accumulate, fileChanges_accumulate]
    exact Assoc.lookup_foldl_upsert_perm (fun _ _ _ => rfl) (h.flatMap_right _) _ _
  · rw [pairs_accumulate, pairs_accumulate]
    exact Assoc.lookup_foldl_upsert_perm (fun e e' agg => agg.bump_comm e.2 e'.2)
      (h.flatMap_right _) _ _

/-- Batches are accumulated like their commits one after the other. -/
theorem foldl_accumulate (state : CochangeState) (batches : List (List CommitFiles)) :
    batches.foldl accumulate state = accumulate state batches.flatten := by
  induction batches generalizing state with
  | nil => rfl
  | cons batch batches ih => rw [List.foldl_cons, ih, List.flatten_cons, accumulate_append]

/-! ### Pairs of files -/

theorem splitKey_pairKey {a b : Str} (ha : unitSeparator ∉ a) (hb : unitSeparator ∉ b) :
    splitKey (pairKey a b) = some (a, b) := by
  have hsplit : (pairKey a b).splitOn unitSeparator = [a, b] := by
    have hkey : pairKey a b = a ++ unitSeparator :: b := rfl
    rw [hkey, List.splitOn_append_cons_self, List.splitOn_eq_singleton ha,
      List.splitOn_eq_singleton hb]
    rfl
  rw [splitKey, hsplit]

theorem order_cases (a b : Str) : order a b = (a, b) ∨ order a b = (b, a) := by
  rw [order]
  split
  · exact .inl rfl
  · exact .inr rfl

/-- The key of a pair splits into its two files, in one order or the other. -/
theorem splitKey_order {a b : Str} (ha : unitSeparator ∉ a) (hb : unitSeparator ∉ b) :
    splitKey (pairKey (order a b).1 (order a b).2) = some (order a b) := by
  rcases order_cases a b with h | h
  · rw [h]
    exact splitKey_pairKey ha hb
  · rw [h]
    exact splitKey_pairKey hb ha

/-- A key splits into two of the files. -/
theorem splitKey_of_mem {files : List Str} (hsep : ∀ file ∈ files, unitSeparator ∉ file)
    {key : Str} (h : key ∈ pairKeys files) :
    ∃ a ∈ files, ∃ b ∈ files, splitKey key = some (a, b) := by
  induction files with
  | nil => cases h
  | cons file files ih =>
      rw [List.forall_mem_cons] at hsep
      rw [pairKeys, List.mem_append, List.mem_map] at h
      rcases h with ⟨other, hother, rfl⟩ | h
      · rw [splitKey_order hsep.1 (hsep.2 other hother)]
        rcases order_cases file other with horder | horder
        · exact ⟨file, List.mem_cons_self, other, List.mem_cons_of_mem _ hother,
            congrArg some horder⟩
        · exact ⟨other, List.mem_cons_of_mem _ hother, file, List.mem_cons_self,
            congrArg some horder⟩
      · obtain ⟨a, ha, b, hb, hkey⟩ := ih hsep.2 h
        exact ⟨a, List.mem_cons_of_mem _ ha, b, List.mem_cons_of_mem _ hb, hkey⟩

/-- Different files make every pair once. -/
theorem nodup_pairKeys {files : List Str} (hdistinct : files.Nodup)
    (hsep : ∀ file ∈ files, unitSeparator ∉ file) : (pairKeys files).Nodup := by
  induction files with
  | nil => exact List.nodup_nil
  | cons file files ih =>
      rw [List.nodup_cons] at hdistinct
      rw [List.forall_mem_cons] at hsep
      have hfirst : ∀ other ∈ files, ∀ other' ∈ files,
          pairKey (order file other).1 (order file other).2 =
            pairKey (order file other').1 (order file other').2 → other = other' := by
        intro other hother other' hother' h
        have hkey := congrArg splitKey h
        rw [splitKey_order hsep.1 (hsep.2 other hother),
          splitKey_order hsep.1 (hsep.2 other' hother'), Option.some.injEq] at hkey
        rcases order_cases file other with h₁ | h₁
        · rcases order_cases file other' with h₂ | h₂
          · rw [h₁, h₂, Prod.mk.injEq] at hkey
            exact hkey.2
          · rw [h₁, h₂, Prod.mk.injEq] at hkey
            exact hkey.2.trans hkey.1
        · rcases order_cases file other' with h₂ | h₂
          · rw [h₁, h₂, Prod.mk.injEq] at hkey
            exact hkey.1.trans hkey.2
          · rw [h₁, h₂, Prod.mk.injEq] at hkey
            exact hkey.1
      rw [pairKeys, List.nodup_append]
      refine ⟨hdistinct.2.map_on hfirst, ih hdistinct.2 hsep.2, fun key hkey key' hkey' heq => ?_⟩
      -- the key of a pair with the first file splits into that file, which no later pair has
      obtain ⟨other, hother, rfl⟩ := List.mem_map.mp hkey
      obtain ⟨a, ha, b, hb, hsplit⟩ := splitKey_of_mem hsep.2 hkey'
      rw [← heq, splitKey_order hsep.1 (hsep.2 other hother), Option.some.injEq] at hsplit
      rcases order_cases file other with h | h
      · rw [h, Prod.mk.injEq] at hsplit
        exact hdistinct.1 (hsplit.1 ▸ ha)
      · rw [h, Prod.mk.injEq] at hsplit
        exact hdistinct.1 (hsplit.2 ▸ hb)

/-- A commit counts a pair at most as often as it counts either file. -/
theorem couples_le_touches (c : DistinctFiles) {key a b : Str} (hkey : splitKey key = some (a, b)) :
    c.couples key ≤ c.touches a ∧ c.couples key ≤ c.touches b := by
  rw [CommitFiles.couples]
  split
  · rename_i hcounted
    by_cases hmem : key ∈ pairKeys c.files
    · obtain ⟨a', ha, b', hb, hsplit⟩ := splitKey_of_mem c.separable hmem
      rw [hkey, Option.some.injEq, Prod.mk.injEq] at hsplit
      have hone := List.count_eq_one_of_mem (nodup_pairKeys c.distinct c.separable) hmem
      have htouches : ∀ file ∈ c.files, (1 : Int) ≤ c.touches file := by
        intro file hfile
        have hpos := List.count_pos_iff.mpr hfile
        rw [CommitFiles.touches, if_pos ⟨by omega, hcounted.2⟩]
        omega
      rw [hone]
      exact ⟨htouches a (hsplit.1 ▸ ha), htouches b (hsplit.2 ▸ hb)⟩
    · rw [List.count_eq_zero_of_not_mem hmem]
      exact ⟨c.touches_nonneg a, c.touches_nonneg b⟩
  · exact ⟨c.touches_nonneg a, c.touches_nonneg b⟩

/-! ### The range of the coefficients -/

/-- What is stored counts at least one commit. -/
theorem one_le_count {commits : List CommitFiles} {key : Str} {agg : PairAgg}
    (h : (accumulate .new commits).pairs.lookup key = some agg) : 1 ≤ agg.count := by
  have main : ∀ (items : List (Str × Int)) (found : Option PairAgg),
      (∀ agg ∈ found, 1 ≤ agg.count) →
      ∀ agg ∈ items.foldl (fun (found : Option PairAgg) e =>
        some (PairAgg.bump e.2 (found.getD { count := 0, lastTs := 0 }))) found, 1 ≤ agg.count := by
    intro items
    induction items with
    | nil => exact fun _ h => h
    | cons e items ih =>
        intro found hfound
        refine ih _ fun agg hagg => ?_
        rw [Option.mem_some_iff] at hagg
        subst hagg
        cases found with
        | none => exact le_refl 1
        | some agg =>
            have hcount := hfound agg rfl
            simp only [PairAgg.bump, Option.getD_some]
            omega
  rw [pairs_accumulate, Assoc.lookup_foldl_upsert] at h
  exact main _ _ (fun agg hagg => by cases hagg) agg h

/-- What is stored belongs to a pair of files of some commit. -/
theorem splitKey_of_stored {commits : List DistinctFiles} {key : Str} {agg : PairAgg}
    (h : (accumulate .new (commits.map DistinctFiles.toCommitFiles)).pairs.lookup key = some agg) :
    ∃ a b, splitKey key = some (a, b) := by
  rw [pairs_accumulate, Assoc.lookup_foldl_upsert] at h
  cases hitems : ((commits.map DistinctFiles.toCommitFiles).flatMap CommitFiles.coupled).filter
      fun e => e.1 = key with
  | nil =>
      rw [hitems] at h
      cases h
  | cons e items =>
      have he : e ∈ ((commits.map DistinctFiles.toCommitFiles).flatMap
          CommitFiles.coupled).filter fun e => e.1 = key := by simp [hitems]
      rw [List.mem_filter, List.mem_flatMap, decide_eq_true_iff] at he
      obtain ⟨⟨_, hc, he⟩, rfl⟩ := he
      obtain ⟨c, -, rfl⟩ := List.mem_map.mp hc
      rw [CommitFiles.coupled] at he
      split at he
      · obtain ⟨key, hkey, rfl⟩ := List.mem_map.mp he
        obtain ⟨a, -, b, -, hsplit⟩ := splitKey_of_mem c.separable hkey
        exact ⟨a, b, hsplit⟩
      · cases he

/-- The count of a pair against the change counts of its files, and its coefficients. -/
structure InRange (state : CochangeState) (a b : Str) (agg : PairAgg) : Prop where
  one_le : 1 ≤ agg.count
  le_left : agg.count ≤ state.fileCount a
  le_right : agg.count ≤ state.fileCount b
  support_pos : 0 < state.support a b
  coupling_pos : 0 < state.coupling a b agg
  coupling_le : state.coupling a b agg ≤ 1
  union_pos : 0 < state.union a b agg
  jaccard_pos : 0 < state.jaccard a b agg
  jaccard_le : state.jaccard a b agg ≤ 1

theorem div_mem_range {n d : Int} (hn : 1 ≤ n) (hd : n ≤ d) :
    (0 : ℚ) < n / d ∧ (n : ℚ) / d ≤ 1 := by
  have hn' : (0 : ℚ) < n := by exact_mod_cast hn
  have hd' : (n : ℚ) ≤ d := by exact_mod_cast hd
  exact ⟨div_pos hn' (hn'.trans_le hd'), (div_le_one (hn'.trans_le hd')).mpr hd'⟩

/-- The coefficients follow the counts. -/
theorem inRange_of_le {state : CochangeState} {a b : Str} {agg : PairAgg} (hone : 1 ≤ agg.count)
    (ha : agg.count ≤ state.fileCount a) (hb : agg.count ≤ state.fileCount b) :
    InRange state a b agg := by
  have hsupport : agg.count ≤ state.support a b := le_min ha hb
  have hunion : agg.count ≤ state.union a b agg := by
    rw [CochangeState.union]
    omega
  obtain ⟨hcoupling, hcoupling'⟩ := div_mem_range hone hsupport
  obtain ⟨hjaccard, hjaccard'⟩ := div_mem_range hone hunion
  have hpos : 0 < state.union a b agg := by omega
  refine ⟨hone, ha, hb, by omega, hcoupling, hcoupling', hpos, ?_, ?_⟩
  · rwa [CochangeState.jaccard, if_pos hpos]
  · rwa [CochangeState.jaccard, if_pos hpos]

/-- The coefficients of every stored pair are in range. -/
theorem inRange_accumulate {commits : List DistinctFiles} {key : Str} {agg : PairAgg}
    (h : (accumulate .new (commits.map DistinctFiles.toCommitFiles)).pairs.lookup key = some agg) :
    ∃ a b, splitKey key = some (a, b) ∧
      InRange (accumulate .new (commits.map DistinctFiles.toCommitFiles)) a b agg := by
  obtain ⟨a, b, hkey⟩ := splitKey_of_stored h
  have hcount : agg.count = ((commits.map DistinctFiles.toCommitFiles).map (·.couples key)).sum := by
    have hpair := pairCount_accumulate .new (commits.map DistinctFiles.toCommitFiles) key
    rw [CochangeState.pairCount, h] at hpair
    simpa [CochangeState.pairCount, CochangeState.new] using hpair
  have hfile : ∀ file, (accumulate .new (commits.map DistinctFiles.toCommitFiles)).fileCount file =
      ((commits.map DistinctFiles.toCommitFiles).map (·.touches file)).sum := by
    intro file
    simpa [CochangeState.fileCount, CochangeState.new] using
      fileCount_accumulate .new (commits.map DistinctFiles.toCommitFiles) file
  refine ⟨a, b, hkey, inRange_of_le (one_le_count h) ?_ ?_⟩
  · rw [hcount, hfile, List.map_map, List.map_map]
    exact List.sum_le_sum fun c _ => (couples_le_touches c hkey).1
  · rw [hcount, hfile, List.map_map, List.map_map]
    exact List.sum_le_sum fun c _ => (couples_le_touches c hkey).2

/-- After any number of batches the coefficients of every stored pair are in range; and from
any state, folding commits and then more gives what folding them in any order gives. -/
theorem accumulate_additive_in_range :
    (∀ (batches : List (List DistinctFiles)) (key : Str) (agg : PairAgg),
      ((batches.map (·.map DistinctFiles.toCommitFiles)).foldl accumulate .new).pairs.lookup key =
          some agg →
        ∃ a b, splitKey key = some (a, b) ∧
          InRange ((batches.map (·.map DistinctFiles.toCommitFiles)).foldl accumulate .new)
            a b agg) ∧
      ∀ (state : CochangeState) (xs ys zs : List CommitFiles), zs.Perm (xs ++ ys) →
        SameAggregates (accumulate (accumulate state xs) ys) (accumulate state zs) := by
  constructor
  · intro batches key agg
    rw [foldl_accumulate, ← List.map_flatten]
    exact inRange_accumulate
  · intro state xs ys zs h
    rw [← accumulate_append]
    exact sameAggregates_of_perm state h.symm

/-- A commit of two files and one of three. -/
def twoFiles : DistinctFiles :=
  { files := ["a.rs".toList, "b.rs".toList], ts := 10
    distinct := by decide
    separable := by decide }

def threeFiles : DistinctFiles :=
  { files := ["b.rs".toList, "a.rs".toList, "c.rs".toList], ts := 20
    distinct := by decide
    separable := by decide }

theorem accumulate_additive_in_range_twoBatches :
    (∃ a b, splitKey (pairKey "a.rs".toList "b.rs".toList) = some (a, b) ∧
      InRange (accumulate (accumulate .new [twoFiles.toCommitFiles]) [threeFiles.toCommitFiles])
        a b { count := 2, lastTs := 20 }) ∧
      SameAggregates
        (accumulate (accumulate .new [twoFiles.toCommitFiles]) [threeFiles.toCommitFiles])
        (accumulate .new [threeFiles.toCommitFiles, twoFiles.toCommitFiles]) :=
  ⟨accumulate_additive_in_range.1 [[twoFiles], [threeFiles]] _ _ (by decide +kernel),
    accumulate_additive_in_range.2 .new _ _ _ (.swap _ _ _)⟩

/-! ### The edges -/

end AutomatisedPipeline.Cochange

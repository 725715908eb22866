import AutomatisedPipeline.Text.Basic
import AutomatisedPipeline.Logic.Run

/-!
Change classification of an incremental index: the files of the current tree
against the manifest of the previous index. Three passes share the manifest
under construction: the current files against their recorded state, the paths
that are gone indexed by content hash, and the files not known before matched
against that pool.

A `BTreeMap` or `HashMap` is an ordered map of the standard library and a
`HashSet` a finite set; no function here observes the iteration order of the
two unordered ones.

A modification time that could not be read is recorded as 0, a hash that could not be computed as
the empty text. Both compare equal to themselves, so the cheap signal takes a file for unchanged that
nothing is known of: the classification honours the sentinels only where the cheap signal speaks of
states that were read (`honoursSentinels_iff`).
-/

namespace AutomatisedPipeline.Index

open Text

/-! ### The manifest and the tree -/

/-- The recorded state of one file. -/
structure FileState where
  mtimeNs : Int
  size : Nat
  contentHash : Str
deriving DecidableEq, Repr

def manifestSchemaVersion : Nat := 1

/-- Relative path to recorded state. -/
structure FileManifest where
  schemaVersion : Nat
  files : Std.TreeMap Str FileState compare

def FileManifest.new : FileManifest := { schemaVersion := manifestSchemaVersion, files := ∅ }

/-- A file found on disk, with its cheap change signal. -/
structure Discovered where
  rel : Str
  abs : Str
  mtimeNs : Int
  size : Nat
deriving DecidableEq, Repr

/-- The current tree: no two files have one relative path. -/
structure FileSet where
  files : List Discovered
  distinct : (files.map Discovered.rel).Nodup

structure Rename where
  oldRel : Str
  newFile : Discovered
deriving DecidableEq, Repr

structure ChangeSet where
  changed : List Discovered
  added : List Discovered
  deleted : List Str
  renamed : List Rename
deriving DecidableEq, Repr

structure Plan where
  changeSet : ChangeSet
  unchanged : List Discovered
  nextManifest : FileManifest

/-- `map.insert(rel, state)` on the manifest under construction. -/
def FileManifest.record (m : FileManifest) (rel : Str) (st : FileState) : FileManifest :=
  { m with files := m.files.insert rel st }

/-! ### The three passes -/

section Classify

-- `manifest::hash_file`: the hash of the bytes at a path, `none` when they cannot be read.
variable (hashFile : Str → Option Str)

/-- The four accumulators of the first pass. -/
structure Diff where
  changed : List Discovered
  addedCandidates : List Discovered
  unchanged : List Discovered
  next : FileManifest

def diffStep (prior : FileManifest) (acc : Diff) (d : Discovered) : Diff :=
  match prior.files[d.rel]? with
  | none => { acc with addedCandidates := acc.addedCandidates ++ [d] }
  | some prev =>
      if prev.mtimeNs = d.mtimeNs ∧ prev.size = d.size then
        { acc with
          unchanged := acc.unchanged ++ [d]
          next := acc.next.record d.rel prev }
      else
        let hash := (hashFile d.abs).getD []
        let next := acc.next.record d.rel
          { mtimeNs := d.mtimeNs, size := d.size, contentHash := hash }
        if hash ≠ [] ∧ hash = prev.contentHash then
          { acc with unchanged := acc.unchanged ++ [d], next := next }
        else
          { acc with changed := acc.changed ++ [d], next := next }

def diffCurrentAgainstPrior (prior : FileManifest) (current : List Discovered)
    (next : FileManifest) : Diff :=
  current.foldl (diffStep hashFile prior)
    { changed := [], addedCandidates := [], unchanged := [], next := next }

/-- The paths that are gone, by the hash recorded for them. -/
abbrev Pool : Type := Std.TreeMap Str (List Str) compare

/-- `map.entry(hash).or_default().push(rel)`, for a path with a recorded hash. -/
def poolStep (prior : FileManifest) (pool : Pool) (rel : Str) : Pool :=
  match prior.files[rel]? with
  | some state =>
      if state.contentHash ≠ [] then
        pool.insert state.contentHash ((pool[state.contentHash]?).getD [] ++ [rel])
      else pool
  | none => pool

/-- The paths of the prior manifest that are not current. -/
def deletedCandidates (prior : FileManifest) (currentIds : Finset Str) : List Str :=
  prior.files.keys.filter (· ∉ currentIds)

def indexDeletedByHash (prior : FileManifest) (currentIds : Finset Str) : List Str × Pool :=
  (deletedCandidates prior currentIds,
    (deletedCandidates prior currentIds).foldl (poolStep prior) ∅)

/-- The accumulators of the third pass. -/
structure Matching where
  renamed : List Rename
  added : List Discovered
  consumedDeleted : Finset Str
  next : FileManifest

/-- The first path of the pool with this hash that no rename has taken. -/
def matchedOld (pool : Pool) (consumed : Finset Str) (hash : Str) : Option Str :=
  if hash = [] then none
  else (pool[hash]?).bind fun olds => olds.find? (· ∉ consumed)

def matchStep (pool : Pool) (acc : Matching) (d : Discovered) : Matching :=
  let hash := (hashFile d.abs).getD []
  let next := acc.next.record d.rel
    { mtimeNs := d.mtimeNs, size := d.size, contentHash := hash }
  match matchedOld pool acc.consumedDeleted hash with
  | some oldRel =>
      { acc with
        renamed := acc.renamed ++ [{ oldRel := oldRel, newFile := d }]
        consumedDeleted := insert oldRel acc.consumedDeleted
        next := next }
  | none => { acc with added := acc.added ++ [d], next := next }

def matchRenamesAndAdds (addedCandidates : List Discovered) (pool : Pool) (next : FileManifest) :
    Matching :=
  addedCandidates.foldl (matchStep hashFile pool)
    { renamed := [], added := [], consumedDeleted := ∅, next := next }

def classify (prior : FileManifest) (current : List Discovered) : Plan :=
  let currentIds := (current.map Discovered.rel).toFinset
  let diff := diffCurrentAgainstPrior hashFile prior current .new
  let (candidates, pool) := indexDeletedByHash prior currentIds
  let matching := matchRenamesAndAdds hashFile diff.addedCandidates pool diff.next
  { changeSet :=
      { changed := diff.changed
        added := matching.added
        deleted := candidates.filter (· ∉ matching.consumedDeleted)
        renamed := matching.renamed }
    unchanged := diff.unchanged
    nextManifest := matching.next }

end Classify

/-! ### What the manifest under construction tracks -/

/-- The manifest holds the file's cheap signal. -/
def Records (m : FileManifest) (d : Discovered) : Prop :=
  ∃ st, m.files[d.rel]? = some st ∧ st.mtimeNs = d.mtimeNs ∧ st.size = d.size

/-- The manifest holds these files, with their cheap signals, and no other path. -/
structure Tracks (m : FileManifest) (ds : List Discovered) : Prop where
  keys : ∀ rel, rel ∈ m.files ↔ rel ∈ ds.map Discovered.rel
  records : ∀ d ∈ ds, Records m d

theorem tracks_new : Tracks .new [] where
  keys := by simp [FileManifest.new]
  records := by simp

theorem Tracks.perm {m : FileManifest} {ds ds' : List Discovered} (h : Tracks m ds)
    (hp : ds.Perm ds') : Tracks m ds' where
  keys rel := (h.keys rel).trans (hp.map _).mem_iff
  records d hd := h.records d (hp.mem_iff.mpr hd)

/-- Recording a file that is not tracked yet tracks it too. -/
theorem Tracks.record {m : FileManifest} {ds : List Discovered} {d : Discovered} {st : FileState}
    (h : Tracks m ds) (fresh : d.rel ∉ ds.map Discovered.rel) (hmtime : st.mtimeNs = d.mtimeNs)
    (hsize : st.size = d.size) : Tracks (m.record d.rel st) (d :: ds) where
  keys rel := by
    rw [FileManifest.record, Std.TreeMap.mem_insert, Std.compare_eq_iff_eq, h.keys rel,
      List.map_cons, List.mem_cons, eq_comm]
  records e he := by
    rcases List.mem_cons.mp he with rfl | he
    · exact ⟨st, by simp [FileManifest.record], hmtime, hsize⟩
    · obtain ⟨st', hget, hst'⟩ := h.records e he
      have hne : d.rel ≠ e.rel := fun heq => fresh (heq ▸ List.mem_map_of_mem he)
      refine ⟨st', ?_, hst'⟩
      rw [FileManifest.record, Std.TreeMap.getElem?_insert, if_neg (by simpa using hne), hget]

/-! ### The first pass -/

section FirstPass

variable {hashFile : Str → Option Str} {prior : FileManifest}

/-- What one step of the first pass does: the file joins one of the three
lists, and unless it is a candidate its cheap signal is recorded. -/
theorem diffStep_cases (acc : Diff) (d : Discovered) :
    diffStep hashFile prior acc d =
        { acc with addedCandidates := acc.addedCandidates ++ [d] } ∨
      ∃ st : FileState, st.mtimeNs = d.mtimeNs ∧ st.size = d.size ∧
        (diffStep hashFile prior acc d =
            { acc with unchanged := acc.unchanged ++ [d], next := acc.next.record d.rel st } ∨
          diffStep hashFile prior acc d =
            { acc with changed := acc.changed ++ [d], next := acc.next.record d.rel st }) := by
  simp only [diffStep]
  split
  · exact .inl rfl
  · rename_i prev _
    refine .inr ?_
    split
    · rename_i hsame
      exact ⟨prev, hsame.1, hsame.2, .inl rfl⟩
    · refine ⟨⟨d.mtimeNs, d.size, (hashFile d.abs).getD []⟩, rfl, rfl, ?_⟩
      split
      · exact .inl rfl
      · exact .inr rfl

/-- The three lists hold the files visited, and the manifest those it need not
match against the pool. -/
structure DiffInv (seen : List Discovered) (acc : Diff) : Prop where
  covers : (acc.addedCandidates ++ (acc.changed ++ acc.unchanged)).Perm seen
  tracks : Tracks acc.next (acc.changed ++ acc.unchanged)

theorem DiffInv.step {seen : List Discovered} {acc : Diff} {d : Discovered} (h : DiffInv seen acc)
    (fresh : d.rel ∉ seen.map Discovered.rel) :
    DiffInv (seen ++ [d]) (diffStep hashFile prior acc d) := by
  have hsub : acc.changed ++ acc.unchanged ⊆ seen :=
    fun e he => h.covers.mem_iff.mp (List.mem_append_right _ he)
  have hfresh : d.rel ∉ (acc.changed ++ acc.unchanged).map Discovered.rel :=
    fun hmem => fresh (List.map_subset _ hsub hmem)
  have hcovers : (acc.addedCandidates ++ (acc.changed ++ acc.unchanged) ++ [d]).Perm
      (seen ++ [d]) := h.covers.append_right _
  rcases diffStep_cases acc d with heq | ⟨st, hmtime, hsize, heq | heq⟩
  · rw [heq]
    refine ⟨List.Perm.trans ?_ hcovers, h.tracks⟩
    rw [List.append_assoc, List.append_assoc]
    exact List.perm_append_comm.append_left _
  · rw [heq]
    constructor
    · rw [← List.append_assoc acc.changed, ← List.append_assoc]
      exact hcovers
    · refine (h.tracks.record hfresh hmtime hsize).perm ?_
      rw [← List.append_assoc]
      exact (List.perm_append_singleton _ _).symm
  · rw [heq]
    constructor
    · refine List.Perm.trans ?_ hcovers
      rw [List.append_assoc, List.append_assoc, List.append_assoc]
      exact (List.perm_append_comm.append_left _).append_left _
    · refine (h.tracks.record hfresh hmtime hsize).perm ?_
      rw [List.append_assoc, List.singleton_append]
      exact List.perm_middle.symm

theorem diffCurrentAgainstPrior_inv (current : FileSet) :
    DiffInv current.files (diffCurrentAgainstPrior hashFile prior current.files .new) := by
  refine Run.foldl_invariant DiffInv ⟨by simp, tracks_new⟩ ?_
  intro seen d rest acc hcurrent h
  refine h.step ?_
  have hdistinct := current.distinct
  rw [hcurrent, List.map_append, List.map_cons, List.nodup_append] at hdistinct
  exact fun hmem => hdistinct.2.2 _ hmem _ List.mem_cons_self rfl

end FirstPass

/-! ### The pool of deleted paths -/

/-- Every path of the pool is a candidate, filed under the hash its manifest
entry records. -/
def Pooled (prior : FileManifest) (candidates : List Str) (pool : Pool) : Prop :=
  ∀ hash olds old, pool[hash]? = some olds → old ∈ olds →
    old ∈ candidates ∧ ∃ st, prior.files[old]? = some st ∧ st.contentHash = hash

theorem Pooled.step {prior : FileManifest} {candidates : List Str} {pool : Pool} {rel : Str}
    (h : Pooled prior candidates pool) (hrel : rel ∈ candidates) :
    Pooled prior candidates (poolStep prior pool rel) := by
  intro hash olds old hget hold
  simp only [poolStep] at hget
  split at hget
  · rename_i state hstate
    split at hget
    · rw [Std.TreeMap.getElem?_insert] at hget
      split at hget
      · rename_i heq
        rw [Std.compare_eq_iff_eq] at heq
        obtain rfl := Option.some.inj hget
        rcases List.mem_append.mp hold with hold | hold
        · -- `old` was filed under this hash before
          cases hprev : pool[state.contentHash]? with
          | none => simp [hprev] at hold
          | some before =>
              rw [hprev, Option.getD_some] at hold
              exact h hash before old (heq ▸ hprev) hold
        · obtain rfl := List.mem_singleton.mp hold
          exact ⟨hrel, state, hstate, heq⟩
      · exact h hash olds old hget hold
    · exact h hash olds old hget hold
  · exact h hash olds old hget hold

theorem indexDeletedByHash_pooled (prior : FileManifest) (currentIds : Finset Str) :
    Pooled prior (deletedCandidates prior currentIds) (indexDeletedByHash prior currentIds).2 := by
  refine Run.foldl_invariant (fun _ => Pooled prior (deletedCandidates prior currentIds)) ?_ ?_
  · intro hash olds old hget
    simp at hget
  · intro seen rel rest pool hcandidates h
    apply h.step
    rw [hcandidates]
    simp

/-- A match is a path of the pool with this hash that no rename has taken. -/
theorem matchedOld_some {pool : Pool} {consumed : Finset Str} {hash old : Str}
    (h : matchedOld pool consumed hash = some old) :
    hash ≠ [] ∧ old ∉ consumed ∧ ∃ olds, pool[hash]? = some olds ∧ old ∈ olds := by
  simp only [matchedOld] at h
  split at h
  · cases h
  · rename_i hne
    obtain ⟨olds, hpool, hfind⟩ := Option.bind_eq_some_iff.mp h
    refine ⟨hne, ?_, olds, hpool, List.mem_of_find?_eq_some hfind⟩
    simpa using List.find?_some hfind

/-! ### The third pass -/

section ThirdPass

variable {hashFile : Str → Option Str} {prior : FileManifest} {candidates : List Str}
  {pool : Pool} {base : List Discovered}

/-- The pair joins two files with one content hash, and the hash is not the
empty one of an unreadable file. -/
def SameContent (hashFile : Str → Option Str) (prior : FileManifest) (r : Rename) : Prop :=
  ∃ st, prior.files[r.oldRel]? = some st ∧ st.contentHash ≠ [] ∧
    hashFile r.newFile.abs = some st.contentHash

/-- What holds of the third pass after some candidates: `base` is what the
manifest tracked before it. -/
structure MatchInv (hashFile : Str → Option Str) (prior : FileManifest) (candidates : List Str)
    (base seen : List Discovered) (acc : Matching) : Prop where
  covers : (acc.added ++ acc.renamed.map Rename.newFile).Perm seen
  tracks : Tracks acc.next (seen ++ base)
  consumed : ∀ old, old ∈ acc.consumedDeleted ↔ old ∈ acc.renamed.map Rename.oldRel
  once : (acc.renamed.map Rename.oldRel).Nodup
  fromCandidates : ∀ r ∈ acc.renamed, r.oldRel ∈ candidates
  content : ∀ r ∈ acc.renamed, SameContent hashFile prior r

theorem MatchInv.step {seen : List Discovered} {acc : Matching} {d : Discovered}
    (hpool : Pooled prior candidates pool)
    (h : MatchInv hashFile prior candidates base seen acc)
    (fresh : d.rel ∉ (seen ++ base).map Discovered.rel) :
    MatchInv hashFile prior candidates base (seen ++ [d]) (matchStep hashFile pool acc d) := by
  have htracks : Tracks (acc.next.record d.rel ⟨d.mtimeNs, d.size, (hashFile d.abs).getD []⟩)
      (seen ++ [d] ++ base) := by
    refine (h.tracks.record fresh rfl rfl).perm ?_
    rw [List.append_assoc, List.singleton_append]
    exact List.perm_middle.symm
  simp only [matchStep]
  split
  · rename_i old hold
    obtain ⟨hne, hfree, olds, hget, hmem⟩ := matchedOld_some hold
    obtain ⟨hcandidate, st, hst, hhash⟩ := hpool _ olds old hget hmem
    have hcontent : SameContent hashFile prior { oldRel := old, newFile := d } := by
      cases hread : hashFile d.abs with
      | none => simp [hread] at hne
      | some hash =>
          rw [hread, Option.getD_some] at hne hhash
          exact ⟨st, hst, hhash ▸ hne, hhash ▸ hread⟩
    constructor
    · rw [List.map_append, ← List.append_assoc]
      exact h.covers.append_right _
    · exact htracks
    · intro o
      rw [Finset.mem_insert, h.consumed o, List.map_append, List.mem_append]
      simp [or_comm]
    · rw [List.map_append]
      refine List.Nodup.append h.once (List.nodup_singleton _) ?_
      rw [List.map_cons, List.map_nil, List.disjoint_singleton, ← h.consumed]
      exact hfree
    · intro r hr
      rcases List.mem_append.mp hr with hr | hr
      · exact h.fromCandidates r hr
      · obtain rfl := List.mem_singleton.mp hr
        exact hcandidate
    · intro r hr
      rcases List.mem_append.mp hr with hr | hr
      · exact h.content r hr
      · obtain rfl := List.mem_singleton.mp hr
        exact hcontent
  · refine ⟨?_, htracks, h.consumed, h.once, h.fromCandidates, h.content⟩
    rw [List.append_assoc, List.singleton_append]
    refine List.perm_middle.trans ((h.covers.cons d).trans ?_)
    exact (List.perm_append_singleton d seen).symm

theorem matchRenamesAndAdds_inv {added : List Discovered} {next : FileManifest}
    (hpool : Pooled prior candidates pool) (hnext : Tracks next base)
    (hdistinct : ((added ++ base).map Discovered.rel).Nodup) :
    MatchInv hashFile prior candidates base added
      (matchRenamesAndAdds hashFile added pool next) := by
  refine Run.foldl_invariant (MatchInv hashFile prior candidates base) ?_ ?_
  · exact ⟨by simp, hnext, by simp, by simp, by simp, by simp⟩
  · intro seen d rest acc hadded h
    apply h.step hpool
    rw [hadded, List.append_assoc, List.cons_append, List.map_append, List.map_cons,
      List.nodup_append, List.nodup_cons] at hdistinct
    intro hmem
    rw [List.map_append, List.mem_append] at hmem
    rcases hmem with hmem | hmem
    · exact hdistinct.2.2 _ hmem _ List.mem_cons_self rfl
    · exact hdistinct.2.1.1 (by simp [hmem])

end ThirdPass

/-! ### The partition -/

/-- The plan accounts for every current file and every path that is gone
exactly once. -/
structure ExactPartition (hashFile : Str → Option Str) (prior : FileManifest) (current : FileSet)
    (plan : Plan) : Prop where
  /-- Changed, added, unchanged and renamed-to are the current files. -/
  present : (plan.changeSet.changed ++ plan.changeSet.added ++ plan.unchanged ++
    plan.changeSet.renamed.map Rename.newFile).Perm current.files
  /-- Deleted and renamed-from are the prior paths that are not current. -/
  gone : (plan.changeSet.deleted ++ plan.changeSet.renamed.map Rename.oldRel).Perm
    (prior.files.keys.filter (· ∉ current.files.map Discovered.rel))
  content : ∀ r ∈ plan.changeSet.renamed, SameContent hashFile prior r
  /-- No path occurs in two pairs, nor twice in one. -/
  pairs : (plan.changeSet.renamed.map Rename.oldRel ++
    plan.changeSet.renamed.map (Discovered.rel ∘ Rename.newFile)).Nodup
  tracks : Tracks plan.nextManifest current.files

/-- Prior keys are distinct. -/
theorem keys_nodup (prior : FileManifest) : prior.files.keys.Nodup := by
  have h := prior.files.distinct_keys
  simpa only [Std.compare_eq_iff_eq, List.nodup_iff_pairwise_ne] using h

/-- The candidates that no rename took, with those taken, are the candidates. -/
theorem filter_append_perm_of_nodup {candidates taken : List Str} (hnodup : candidates.Nodup)
    (htaken : taken.Nodup) (hsub : ∀ old ∈ taken, old ∈ candidates) :
    (candidates.filter (· ∉ taken) ++ taken).Perm candidates := by
  rw [List.perm_ext_iff_of_nodup _ hnodup]
  · intro old
    rw [List.mem_append, List.mem_filter]
    constructor
    · rintro (⟨hmem, _⟩ | hmem)
      · exact hmem
      · exact hsub old hmem
    · intro hmem
      by_cases hold : old ∈ taken
      · exact .inr hold
      · exact .inl ⟨hmem, by simpa using hold⟩
  · refine List.Nodup.append (hnodup.filter _) htaken ?_
    intro old hfree hold
    simp [hold] at hfree

theorem classify_partition (hashFile : Str → Option Str) (prior : FileManifest)
    (current : FileSet) :
    ExactPartition hashFile prior current (classify hashFile prior current.files) := by
  set currentIds := (current.files.map Discovered.rel).toFinset with hids
  set diff := diffCurrentAgainstPrior hashFile prior current.files .new with hdiff
  set pool := (indexDeletedByHash prior currentIds).2 with hpooldef
  set matching := matchRenamesAndAdds hashFile diff.addedCandidates pool diff.next with hmatching
  have hfirst : DiffInv current.files diff := diffCurrentAgainstPrior_inv current
  have hthird : MatchInv hashFile prior (deletedCandidates prior currentIds)
      (diff.changed ++ diff.unchanged) diff.addedCandidates matching :=
    matchRenamesAndAdds_inv (indexDeletedByHash_pooled prior currentIds) hfirst.tracks
      ((hfirst.covers.map _).nodup_iff.mpr current.distinct)
  have htaken : ∀ old ∈ matching.renamed.map Rename.oldRel,
      old ∈ deletedCandidates prior currentIds := by
    intro old hold
    obtain ⟨r, hr, rfl⟩ := List.mem_map.mp hold
    exact hthird.fromCandidates r hr
  have hpresent : (diff.changed ++ matching.added ++ diff.unchanged ++
      matching.renamed.map Rename.newFile).Perm current.files := by
    refine List.Perm.trans ?_ ((hthird.covers.append_right _).trans hfirst.covers)
    refine List.perm_iff_count.mpr fun d => ?_
    simp only [List.count_append]
    omega
  have hgone : ((deletedCandidates prior currentIds).filter (· ∉ matching.consumedDeleted) ++
      matching.renamed.map Rename.oldRel).Perm
        (prior.files.keys.filter (· ∉ current.files.map Discovered.rel)) := by
    have hcandidates : deletedCandidates prior currentIds =
        prior.files.keys.filter (· ∉ current.files.map Discovered.rel) := by
      simp only [deletedCandidates, hids, List.mem_toFinset]
    rw [← hcandidates]
    simp only [hthird.consumed]
    exact filter_append_perm_of_nodup ((keys_nodup prior).filter _) hthird.once htaken
  constructor
  · exact hpresent
  · exact hgone
  · exact hthird.content
  · have hnew : (matching.renamed.map (Discovered.rel ∘ Rename.newFile)).Nodup := by
      have hdistinct := ((hpresent.map Discovered.rel).nodup_iff).mpr current.distinct
      rw [List.map_append, List.map_map] at hdistinct
      exact hdistinct.of_append_right
    refine List.Nodup.append hthird.once hnew ?_
    intro path hold hnewPath
    -- the old end is not a current path, the new end is
    have hold' := (List.mem_filter.mp (htaken path hold)).2
    obtain ⟨r, hr, rfl⟩ := List.mem_map.mp hnewPath
    have hcurrent : r.newFile ∈ current.files :=
      hpresent.mem_iff.mp (List.mem_append_right _ (List.mem_map_of_mem hr))
    rw [decide_eq_true_eq, hids, List.mem_toFinset] at hold'
    exact hold' (List.mem_map_of_mem hcurrent)
  · exact hthird.tracks.perm hfirst.covers

/-! ### Classifying against the manifest just written -/

/-- A file whose cheap signal is recorded is unchanged, whatever its bytes. -/
theorem diffStep_of_records (hashFile : Str → Option Str) {m : FileManifest} {d : Discovered}
    (h : Records m d) (acc : Diff) :
    ∃ next, diffStep hashFile m acc d =
      { acc with unchanged := acc.unchanged ++ [d], next := next } := by
  obtain ⟨st, hget, hmtime, hsize⟩ := h
  refine ⟨acc.next.record d.rel st, ?_⟩
  simp only [diffStep, hget]
  rw [if_pos ⟨hmtime, hsize⟩]

theorem classify_settled (hashFile : Str → Option Str) {m : FileManifest} {current : FileSet}
    (h : Tracks m current.files) :
    (classify hashFile m current.files).changeSet =
      { changed := [], added := [], deleted := [], renamed := [] } := by
  have hfirst : (diffCurrentAgainstPrior hashFile m current.files .new).changed = [] ∧
      (diffCurrentAgainstPrior hashFile m current.files .new).addedCandidates = [] := by
    refine Run.foldl_invariant (fun _ (acc : Diff) => acc.changed = [] ∧ acc.addedCandidates = []) ?_ ?_
    · exact ⟨rfl, rfl⟩
    · intro seen d rest acc hcurrent hacc
      have hd : d ∈ current.files := by simp [hcurrent]
      obtain ⟨next, hstep⟩ := diffStep_of_records hashFile (h.records d hd) acc
      rw [hstep]
      exact hacc
  have hcandidates :
      deletedCandidates m (current.files.map Discovered.rel).toFinset = [] := by
    rw [deletedCandidates, List.filter_eq_nil_iff]
    intro rel hrel
    rw [Std.TreeMap.mem_keys, h.keys] at hrel
    simpa using hrel
  simp only [classify, indexDeletedByHash, matchRenamesAndAdds, hfirst.1, hfirst.2, hcandidates,
    List.filter_nil, List.foldl_nil]

/-- Classification is an exact partition of the current files and of the paths
that are gone, and leaves nothing to do when run again. -/
theorem classify_exact (hashFile : Str → Option Str) (prior : FileManifest) (current : FileSet) :
    ExactPartition hashFile prior current (classify hashFile prior current.files) ∧
      (∀ rel, rel ∈ (classify hashFile prior current.files).nextManifest.files ↔
        rel ∈ current.files.map Discovered.rel) ∧
      ∀ hashFile' : Str → Option Str,
        (classify hashFile' (classify hashFile prior current.files).nextManifest
          current.files).changeSet =
            { changed := [], added := [], deleted := [], renamed := [] } := by
  have h := classify_partition hashFile prior current
  exact ⟨h, h.tracks.keys, fun hashFile' => classify_settled hashFile' h.tracks⟩

/-! ### Which files are called unchanged -/

section Unchanged

variable {hashFile : Str → Option Str} {prior : FileManifest} {d : Discovered} {prev : FileState}

/-- The cheap signal of the file is the recorded one. -/
def SameSignal (prev : FileState) (d : Discovered) : Prop :=
  prev.mtimeNs = d.mtimeNs ∧ prev.size = d.size

/-- The bytes of the file have the recorded hash, which is one. -/
def SameHash (hashFile : Str → Option Str) (prev : FileState) (d : Discovered) : Prop :=
  ∃ hash, hashFile d.abs = some hash ∧ hash ≠ [] ∧ hash = prev.contentHash

theorem sameHash_iff :
    (hashFile d.abs).getD [] ≠ [] ∧ (hashFile d.abs).getD [] = prev.contentHash ↔
      SameHash hashFile prev d := by
  rw [SameHash]
  cases hashFile d.abs with
  | none => simp
  | some hash =>
      rw [Option.getD_some]
      constructor
      · exact fun h => ⟨hash, rfl, h⟩
      · rintro ⟨_, ⟨⟩, h⟩
        exact h

/-- One step of the first pass calls its file unchanged by its signal or by its hash, and
speaks of no other file. -/
theorem mem_unchanged_diffStep (acc : Diff) (e : Discovered) :
    d ∈ (diffStep hashFile prior acc e).unchanged ↔
      d ∈ acc.unchanged ∨ d = e ∧ ∃ prev, prior.files[e.rel]? = some prev ∧
        (SameSignal prev e ∨ SameHash hashFile prev e) := by
  rw [diffStep]
  cases hprev : prior.files[e.rel]? with
  | none => simp
  | some prev =>
      simp only [Option.some.injEq, exists_eq_left']
      split
      · rename_i hsignal
        have hsame : SameSignal prev e ∨ SameHash hashFile prev e := .inl hsignal
        simp [hsame]
      · rename_i hsignal
        rw [or_iff_right (show ¬ SameSignal prev e from hsignal), ← sameHash_iff]
        split
        · rename_i hhash
          simp only [List.mem_append, List.mem_singleton]
          exact or_congr_right (and_iff_left hhash).symm
        · rename_i hhash
          exact (or_iff_left fun h => hhash h.2).symm

theorem mem_unchanged_diff {current : List Discovered} {next : FileManifest} :
    d ∈ (diffCurrentAgainstPrior hashFile prior current next).unchanged ↔
      d ∈ current ∧ ∃ prev, prior.files[d.rel]? = some prev ∧
        (SameSignal prev d ∨ SameHash hashFile prev d) := by
  refine Run.foldl_invariant (fun seen (acc : Diff) => d ∈ acc.unchanged ↔ d ∈ seen ∧
    ∃ prev, prior.files[d.rel]? = some prev ∧ (SameSignal prev d ∨ SameHash hashFile prev d))
    (by simp) fun seen e _ acc _ ih => ?_
  rw [mem_unchanged_diffStep, ih, List.mem_append, List.mem_singleton, or_and_right]
  refine or_congr_right ⟨?_, ?_⟩
  · rintro ⟨rfl, h⟩
    exact ⟨rfl, h⟩
  · rintro ⟨rfl, h⟩
    exact ⟨rfl, h⟩

/-- A current file with a recorded state is called unchanged by its signal or by its hash. -/
theorem mem_unchanged_iff {current : List Discovered} (hd : d ∈ current)
    (hprev : prior.files[d.rel]? = some prev) :
    d ∈ (classify hashFile prior current).unchanged ↔
      SameSignal prev d ∨ SameHash hashFile prev d := by
  have hdiff : (classify hashFile prior current).unchanged =
      (diffCurrentAgainstPrior hashFile prior current .new).unchanged := rfl
  rw [hdiff, mem_unchanged_diff, hprev]
  simp [hd]

end Unchanged

/-! ### The sentinels -/

/-- The file is called unchanged whatever its bytes are: no hashes are compared. -/
def UnchangedUnread (prior : FileManifest) (current : List Discovered) (d : Discovered) : Prop :=
  ∀ hashFile, d ∈ (classify hashFile prior current).unchanged

/-- What the classification of one file owes to the sentinels. -/
structure HonoursSentinels (hashFile : Str → Option Str) (prior : FileManifest)
    (current : List Discovered) (prev : FileState) (d : Discovered) : Prop where
  unread : UnchangedUnread prior current d →
    prev.mtimeNs ≠ 0 ∧ d.mtimeNs ≠ 0 ∧ prev.contentHash ≠ []
  read : ¬ UnchangedUnread prior current d → d ∈ (classify hashFile prior current).unchanged →
    SameHash hashFile prev d

section Sentinels

variable {prior : FileManifest} {current : List Discovered} {d : Discovered} {prev : FileState}

/-- The hash is not looked at exactly when the cheap signal is the recorded one. -/
theorem unchangedUnread_iff (hd : d ∈ current) (hprev : prior.files[d.rel]? = some prev) :
    UnchangedUnread prior current d ↔ SameSignal prev d := by
  constructor
  · intro h
    -- a file that cannot be read has no hash to be equal
    refine ((mem_unchanged_iff hd hprev).mp (h fun _ => none)).resolve_right ?_
    rintro ⟨hash, hhash, -⟩
    cases hhash
  · exact fun h hashFile => (mem_unchanged_iff hd hprev).mpr (.inl h)

/-- The sentinels are honoured exactly where the cheap signal that is equal to the recorded
one was read. -/
theorem honoursSentinels_iff (hashFile : Str → Option Str) (hd : d ∈ current)
    (hprev : prior.files[d.rel]? = some prev) :
    HonoursSentinels hashFile prior current prev d ↔
      ¬ (prev.mtimeNs = d.mtimeNs ∧ prev.size = d.size ∧
        (prev.mtimeNs = 0 ∨ prev.contentHash = [])) := by
  constructor
  · rintro ⟨hunread, -⟩ ⟨hmtime, hsize, hsentinel⟩
    obtain ⟨hrecorded, -, hhash⟩ :=
      hunread ((unchangedUnread_iff hd hprev).mpr ⟨hmtime, hsize⟩)
    exact hsentinel.elim hrecorded hhash
  · intro h
    constructor
    · intro hunread
      obtain ⟨hmtime, hsize⟩ := (unchangedUnread_iff hd hprev).mp hunread
      have hrecorded : prev.mtimeNs ≠ 0 := fun h0 => h ⟨hmtime, hsize, .inl h0⟩
      exact ⟨hrecorded, hmtime ▸ hrecorded, fun hnil => h ⟨hmtime, hsize, .inr hnil⟩⟩
    · intro hunread hmem
      refine ((mem_unchanged_iff hd hprev).mp hmem).resolve_left fun hsignal => hunread ?_
      exact (unchangedUnread_iff hd hprev).mpr hsignal

end Sentinels

/-- A file whose modification time no one could read, and whose bytes could not be hashed
when it was indexed. -/
def unstamped : Discovered := ⟨"a.rs".toList, "/a.rs".toList, 0, 12⟩

def unstampedState : FileState := ⟨0, 12, []⟩

def unstampedManifest : FileManifest := FileManifest.new.record "a.rs".toList unstampedState

theorem unstampedManifest_files : unstampedManifest.files[unstamped.rel]? = some unstampedState := by
  simp [unstampedManifest, FileManifest.record, unstamped]

/-- Its bytes have a hash now, and it is called unchanged. -/
theorem unstamped_not_honoursSentinels :
    ¬ ∀ (hashFile : Str → Option Str) (prior : FileManifest) (current : List Discovered)
      (d : Discovered) (prev : FileState), d ∈ current → prior.files[d.rel]? = some prev →
        HonoursSentinels hashFile prior current prev d := by
  intro h
  have hmem : unstamped ∈ [unstamped] := List.mem_singleton_self _
  have hhonours := h (fun _ => some "e3b0".toList) unstampedManifest [unstamped] unstamped
    unstampedState hmem unstampedManifest_files
  have hunread : UnchangedUnread unstampedManifest [unstamped] unstamped :=
    (unchangedUnread_iff hmem unstampedManifest_files).mpr ⟨rfl, rfl⟩
  exact (hhonours.unread hunread).1 rfl

/-- The file after it has grown. -/
def grown : Discovered := { unstamped with size := 13 }

/-- A file with another size than the recorded one is compared by its hash. -/
theorem grown_honoursSentinels :
    HonoursSentinels (fun _ => some "e3b0".toList) unstampedManifest [grown] unstampedState
      grown := by
  have hprev : unstampedManifest.files[grown.rel]? = some unstampedState := unstampedManifest_files
  refine (honoursSentinels_iff _ (List.mem_singleton_self _) hprev).mpr ?_
  rintro ⟨-, hsize, -⟩
  cases hsize

end AutomatisedPipeline.Index

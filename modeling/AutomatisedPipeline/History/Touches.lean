import AutomatisedPipeline.History.Collect
import AutomatisedPipeline.Logic.Chains

/-!
What the diffs of commits name, and what is collected of them.

An entry of a diff names its file and the symbols of the file that it hits. The code keeps the
symbols of one entry apart and nothing across the entries: the diff of a commit names no entity
twice exactly when its entries are apart (`nodup_flatMap_entitiesOf`). A collection holds one
version for each naming (`collects_of_collectVersions`).
-/

namespace AutomatisedPipeline.History

open Text Diff Assoc Chains

section Touches

variable (repo : Repository) (pathPrefix : Str) (knownFiles : List Str)

/-! ### What the entries of a diff name -/

/-- The entries of a diff that name a known file, with the file. -/
def knownEntries (hunks : List FileHunk) : List (FileHunk × Str) :=
  hunks.filterMap fun hunk =>
    ((stripPrefix hunk.filePath pathPrefix).filter (· ∈ knownFiles)).map fun fileId => (hunk, fileId)

/-- The known entries of the diff of a commit. -/
def entriesOf (commit : CommitMeta) : List (FileHunk × Str) :=
  match diffOf repo commit.sha with
  | .ok hunks => knownEntries pathPrefix knownFiles hunks
  | .error _ => []

variable {pathPrefix knownFiles}

/-- The file was added or deleted, or one of its changed lines is a line of the symbol. -/
def Hits (hunk : FileHunk) (r : SymRange) : Prop :=
  hunk.isNew = true ∨ hunk.isDeleted = true ∨ ∃ l ∈ hunk.changedLines, r.start ≤ l ∧ l ≤ r.stop

/-- An entry names its file and the symbols of the file that it hits. -/
def Names (entry : FileHunk × Str) (e : Str) : Prop :=
  e = entry.2 ∨ ∃ r ∈ fileSymbolRanges repo entry.2, Hits entry.1 r ∧ r.id = e

/-- No two entries name one file or hit symbols of one id, and no symbol that is hit has the
id of a file that is named. -/
structure EntriesApart (entries : List (FileHunk × Str)) : Prop where
  files : (entries.map Prod.snd).Nodup
  symbols : entries.Pairwise fun a b => ∀ r ∈ fileSymbolRanges repo a.2,
    ∀ r' ∈ fileSymbolRanges repo b.2, Hits a.1 r → Hits b.1 r' → r.id ≠ r'.id
  fileIds : ∀ a ∈ entries, ∀ b ∈ entries, ∀ r ∈ fileSymbolRanges repo b.2, Hits b.1 r → r.id ≠ a.2

/-- The entities of an entry. -/
def entitiesOf (entry : FileHunk × Str) : List ChangedEntity :=
  fileEntity entry.2 entry.1 :: overlapping (fileSymbolRanges repo entry.2) entry.1
    (changeType entry.1.isNew entry.1.isDeleted)

theorem hits_iff {hunk : FileHunk} {r : SymRange} :
    ¬ (overlap hunk.changedLines r = 0 ∧ !hunk.isNew ∧ !hunk.isDeleted) ↔ Hits hunk r := by
  have hoverlap : overlap hunk.changedLines r = 0 ↔
      ¬ ∃ l ∈ hunk.changedLines, r.start ≤ l ∧ l ≤ r.stop := by
    rw [overlap, List.length_eq_zero_iff, List.filter_eq_nil_iff]
    simp
  rw [hoverlap, Hits]
  cases hunk.isNew <;> cases hunk.isDeleted <;> simp

theorem mem_overlappingLoop {hunk : FileHunk} {ct : Str} {ranges : List SymRange} {e : Str}
    {seen : List Str} : e ∈ (overlappingLoop hunk ct seen ranges).map ChangedEntity.entityId ↔
      e ∉ seen ∧ ∃ r ∈ ranges, Hits hunk r ∧ r.id = e := by
  induction ranges generalizing seen with
  | nil => simp [overlappingLoop]
  | cons r ranges ih =>
      rw [overlappingLoop]
      split
      · rename_i hmiss
        have hmiss : ¬ Hits hunk r := fun hhit => hits_iff.mpr hhit hmiss
        rw [ih]
        simp [hmiss]
      · rename_i hhit
        have hhit := hits_iff.mp hhit
        split
        · rename_i hseen
          rw [ih]
          constructor
          · rintro ⟨hnew, r', hr', h⟩
            exact ⟨hnew, r', List.mem_cons_of_mem _ hr', h⟩
          · rintro ⟨hnew, r', hr', h⟩
            obtain rfl | hr' := List.mem_cons.mp hr'
            · exact absurd (h.2 ▸ hseen) hnew
            · exact ⟨hnew, r', hr', h⟩
        · rename_i hseen
          rw [List.map_cons, List.mem_cons, ih, List.mem_cons, not_or]
          constructor
          · rintro (rfl | ⟨⟨-, hnew⟩, r', hr', h⟩)
            · exact ⟨hseen, r, List.mem_cons_self, hhit, rfl⟩
            · exact ⟨hnew, r', List.mem_cons_of_mem _ hr', h⟩
          · rintro ⟨hnew, r', hr', h⟩
            by_cases heq : e = r.id
            · exact .inl heq
            · obtain rfl | hr' := List.mem_cons.mp hr'
              · exact absurd h.2.symm heq
              · exact .inr ⟨⟨heq, hnew⟩, r', hr', h⟩

theorem nodup_overlappingLoop {hunk : FileHunk} {ct : Str} {ranges : List SymRange}
    {seen : List Str} :
    ((overlappingLoop hunk ct seen ranges).map ChangedEntity.entityId).Nodup := by
  induction ranges generalizing seen with
  | nil => exact List.nodup_nil
  | cons r ranges ih =>
      rw [overlappingLoop]
      split
      · exact ih
      · split
        · exact ih
        · rw [List.map_cons, List.nodup_cons, mem_overlappingLoop]
          exact ⟨fun h => h.1 List.mem_cons_self, ih⟩

variable {repo}

theorem mem_entitiesOf {entry : FileHunk × Str} {e : Str} :
    e ∈ (entitiesOf repo entry).map ChangedEntity.entityId ↔ Names repo entry e := by
  rw [entitiesOf, List.map_cons, List.mem_cons, overlapping, mem_overlappingLoop, Names]
  simp [fileEntity]

theorem nodup_entitiesOf {entry : FileHunk × Str} :
    ((entitiesOf repo entry).map ChangedEntity.entityId).Nodup ↔
      ∀ r ∈ fileSymbolRanges repo entry.2, Hits entry.1 r → r.id ≠ entry.2 := by
  rw [entitiesOf, List.map_cons, List.nodup_cons, overlapping,
    and_iff_left nodup_overlappingLoop, mem_overlappingLoop]
  simp [fileEntity]

/-- The entries of a diff name no entity twice exactly when they are apart. -/
theorem nodup_flatMap_entitiesOf {entries : List (FileHunk × Str)} :
    ((entries.flatMap (entitiesOf repo)).map ChangedEntity.entityId).Nodup ↔
      EntriesApart repo entries := by
  rw [List.map_flatMap, List.nodup_flatMap]
  constructor
  · rintro ⟨hone, hapart⟩
    have hpair : entries.Pairwise fun a b => ∀ e, Names repo a e → ¬ Names repo b e := by
      refine hapart.imp fun {a b} hab e ha hb => ?_
      exact hab (mem_entitiesOf.mpr ha) (mem_entitiesOf.mpr hb)
    refine ⟨?_, ?_, ?_⟩
    · rw [List.Nodup, List.pairwise_map]
      exact hpair.imp fun {a b} hab heq => hab a.2 (.inl rfl) (.inl heq)
    · exact hpair.imp fun {a b} hab r hr r' hr' hhit hhit' heq =>
        hab r.id (.inr ⟨r, hr, hhit, rfl⟩) (.inr ⟨r', hr', hhit', heq.symm⟩)
    · intro a ha b hb r hr hhit heq
      by_cases hab : a = b
      · subst hab
        exact nodup_entitiesOf.mp (hone a ha) r hr hhit heq
      · have : Std.Symm fun a b : FileHunk × Str => ∀ e, Names repo a e → ¬ Names repo b e :=
          ⟨fun x y hxy e hy hx => hxy e hx hy⟩
        exact hpair.forall ha hb hab a.2 (.inl rfl) (.inr ⟨r, hr, hhit, heq⟩)
  · intro h
    refine ⟨fun a ha => nodup_entitiesOf.mpr (h.fileIds a ha a ha), ?_⟩
    have hfiles : entries.Pairwise fun a b => a.2 ≠ b.2 := List.pairwise_map.mp h.files
    refine (List.Pairwise.imp_of_mem ?_ (hfiles.and h.symbols))
    rintro a b ha hb ⟨hne, hsymbols⟩ e hea heb
    obtain rfl | ⟨r, hr, hhit, rfl⟩ := mem_entitiesOf.mp hea
    · obtain heq | ⟨r, hr, hhit, heq⟩ := mem_entitiesOf.mp heb
      · exact hne heq
      · exact h.fileIds a ha b hb r hr hhit heq
    · obtain heq | ⟨r', hr', hhit', heq⟩ := mem_entitiesOf.mp heb
      · exact h.fileIds b hb a ha r hr hhit heq
      · exact hsymbols r hr r' hr' hhit hhit' heq.symm

/-! ### What is collected -/

/-- The cache has what the store answers. -/
def Cache.Sound (repo : Repository) (cache : Cache) : Prop :=
  ∀ fileId ranges, cache.lookup fileId = some ranges → ranges = fileSymbolRanges repo fileId

theorem Cache.Sound.entry {cache : Cache} (h : cache.Sound repo) (fileId : Str) :
    (Cache.entry repo cache fileId).1 = fileSymbolRanges repo fileId ∧
      (Cache.entry repo cache fileId).2.Sound repo := by
  rw [Cache.entry]
  cases hlookup : cache.lookup fileId with
  | some ranges => exact ⟨h fileId ranges hlookup, h⟩
  | none =>
      refine ⟨rfl, fun other ranges hother => ?_⟩
      rw [List.lookup_cons] at hother
      cases heq : other == fileId with
      | true =>
          rw [heq] at hother
          cases hother
          rw [eq_of_beq heq]
      | false =>
          rw [heq] at hother
          exact h other ranges hother

/-- Through a sound cache, a diff gives the entities of its known entries. -/
theorem foldl_visitHunk {hunks : List FileHunk} {found : List ChangedEntity} {cache : Cache}
    (h : cache.Sound repo) :
    (hunks.foldl (visitHunk repo pathPrefix knownFiles) (found, cache)).1 =
        found ++ (knownEntries pathPrefix knownFiles hunks).flatMap (entitiesOf repo) ∧
      (hunks.foldl (visitHunk repo pathPrefix knownFiles) (found, cache)).2.Sound repo := by
  induction hunks generalizing found cache with
  | nil => exact ⟨(List.append_nil found).symm, h⟩
  | cons hunk hunks ih =>
      rw [List.foldl_cons, visitHunk]
      cases hstrip : stripPrefix hunk.filePath pathPrefix with
      | none =>
          have hentries : knownEntries pathPrefix knownFiles (hunk :: hunks) =
              knownEntries pathPrefix knownFiles hunks := by
            rw [knownEntries, List.filterMap_cons, hstrip]
            rfl
          rw [hentries]
          exact ih h
      | some fileId =>
          dsimp only
          split
          · rename_i hknown
            have hentries : knownEntries pathPrefix knownFiles (hunk :: hunks) =
                (hunk, fileId) :: knownEntries pathPrefix knownFiles hunks := by
              rw [knownEntries, List.filterMap_cons, hstrip, Option.filter_some,
                if_pos (decide_eq_true hknown)]
              rfl
            obtain ⟨hranges, hsound⟩ := h.entry fileId
            obtain ⟨hfound, hcache⟩ := @ih (found ++ entitiesOf repo (hunk, fileId)) _ hsound
            rw [hranges, hentries, List.flatMap_cons, ← List.append_assoc]
            exact ⟨hfound, hcache⟩
          · rename_i hknown
            have hentries : knownEntries pathPrefix knownFiles (hunk :: hunks) =
                knownEntries pathPrefix knownFiles hunks := by
              rw [knownEntries, List.filterMap_cons, hstrip, Option.filter_some,
                if_neg (by simpa using hknown)]
              rfl
            rw [hentries]
            exact ih h

/-- A commit and an entity that its diff names. -/
abbrev Touch : Type := CommitMeta × ChangedEntity

def Touch.versionId (t : Touch) : Str := History.versionId t.2.entityId t.1.sha

def Touch.row (t : Touch) : VersionRow :=
  { id := t.versionId, entity := t.2, commitSha := t.1.sha, committedAt := t.1.committedAt }

/-- The version of the entity. -/
def Touch.item (t : Touch) : Str × Str := (t.2.entityId, t.versionId)

variable (repo pathPrefix knownFiles)

/-- The entities a commit touches. -/
def touchesOf (commit : CommitMeta) : List Touch :=
  ((entriesOf repo pathPrefix knownFiles commit).flatMap (entitiesOf repo)).map (commit, ·)

/-- All of them; a merge has none. -/
def touches (commits : List CommitMeta) : List Touch :=
  (commits.filter fun commit => commit.parents.length ≤ 1).flatMap
    (touchesOf repo pathPrefix knownFiles)

variable {repo pathPrefix knownFiles}

/-- What is collected of a list of touches. -/
structure Collects (ts : List Touch) (c : Collected) (last : List (Str × Str)) : Prop where
  versions : c.versions = ts.map Touch.row
  changedIn : c.changedIn = ts.map fun t => (t.versionId, t.1.sha)
  versionOf : c.versionOf = ts.foldl (fun entries t =>
    upsert t.2.label [] (· ++ [(t.versionId, t.2.entityId)]) entries) []
  prevVersion : c.prevVersion = links [] (ts.map Touch.item)
  last : last = latest [] (ts.map Touch.item)

/-- One more touch is recorded. -/
theorem Collects.record {ts : List Touch} {st : Spine}
    (h : Collects ts st.collected st.lastVersion) (t : Touch) :
    Collects (ts ++ [t]) (record t.1 st t.2).collected (record t.1 st t.2).lastVersion where
  versions := by
    rw [List.map_append, ← h.versions]
    rfl
  changedIn := by
    rw [List.map_append, ← h.changedIn]
    rfl
  versionOf := by
    rw [List.foldl_append, ← h.versionOf]
    rfl
  prevVersion := by
    rw [List.map_append, links_append, ← h.prevVersion, ← h.last, List.map_cons, List.map_nil,
      links, links, List.append_nil]
    rfl
  last := by
    rw [latest, List.map_append, List.foldl_append]
    have hlast := h.last
    rw [latest] at hlast
    rw [← hlast]
    rfl

theorem Collects.foldl {commit : CommitMeta} {entities : List ChangedEntity} {ts : List Touch}
    {st : Spine} (h : Collects ts st.collected st.lastVersion) :
    Collects (ts ++ entities.map (commit, ·)) (entities.foldl (History.record commit) st).collected
      (entities.foldl (History.record commit) st).lastVersion := by
  induction entities generalizing ts st with
  | nil =>
      rw [List.map_nil, List.append_nil]
      exact h
  | cons e entities ih =>
      have hnext := ih (h.record (commit, e))
      rw [List.append_assoc] at hnext
      exact hnext

theorem cache_foldl_record {commit : CommitMeta} {entities : List ChangedEntity} {st : Spine} :
    (entities.foldl (record commit) st).cache = st.cache := by
  induction entities generalizing st with
  | nil => rfl
  | cons e entities ih => exact ih

/-- One more commit is visited. -/
theorem Collects.visitCommit {seen : List CommitMeta} {commit : CommitMeta} {st st' : Spine}
    (hsound : st.cache.Sound repo)
    (h : Collects (touches repo pathPrefix knownFiles seen) st.collected st.lastVersion)
    (hstep : visitCommit repo pathPrefix knownFiles st commit = .ok st') :
    (commit.parents.length ≤ 1 → ∃ hunks, diffOf repo commit.sha = .ok hunks) ∧
      st'.cache.Sound repo ∧
      Collects (touches repo pathPrefix knownFiles (seen ++ [commit])) st'.collected
        st'.lastVersion := by
  rw [History.visitCommit] at hstep
  split at hstep
  · rename_i hmerge
    cases hstep
    refine ⟨fun hparents => absurd hmerge (by omega), hsound, ?_⟩
    rw [touches, List.filter_append, List.filter_cons_of_neg (by simpa using hmerge),
      List.filter_nil, List.append_nil]
    exact h
  · rename_i hsingle
    obtain ⟨⟨entities, cache⟩, hchanged, hstep⟩ := Run.bind_eq_ok.mp hstep
    cases hstep
    obtain ⟨hunks, hdiff, hfold⟩ := Run.bind_eq_ok.mp hchanged
    have hvisit := @foldl_visitHunk repo pathPrefix knownFiles hunks [] st.cache hsound
    rw [Except.ok.inj hfold] at hvisit
    obtain ⟨hfound, hcache⟩ := hvisit
    have htouches : touches repo pathPrefix knownFiles (seen ++ [commit]) =
        touches repo pathPrefix knownFiles seen ++ entities.map (commit, ·) := by
      rw [touches, List.filter_append, List.filter_cons_of_pos (by simpa using hsingle),
        List.filter_nil, List.flatMap_append, List.flatMap_singleton, touchesOf, entriesOf, hdiff]
      exact congrArg (_ ++ List.map (commit, ·) ·) hfound.symm
    refine ⟨fun _ => ⟨hunks, hdiff⟩, ?_, ?_⟩
    · rw [cache_foldl_record]
      exact hcache
    · rw [htouches]
      exact Collects.foldl h

/-- A collection that succeeds holds the touches of the commits, from the oldest on. -/
theorem collects_of_collectVersions {commits : List CommitMeta} {c : Collected}
    (h : collectVersions repo pathPrefix knownFiles commits = .ok c) :
    (∀ commit ∈ commits, commit.parents.length ≤ 1 → ∃ hunks, diffOf repo commit.sha = .ok hunks) ∧
      ∃ last, Collects (touches repo pathPrefix knownFiles commits.reverse) c last := by
  rw [collectVersions] at h
  cases hrun : commits.reverse.foldlM (visitCommit repo pathPrefix knownFiles)
      { collected := .default, lastVersion := [], cache := [] } with
  | error e =>
      rw [hrun] at h
      cases h
  | ok st =>
      rw [hrun] at h
      cases h
      have hinv := Run.foldlM_invariant (fun seen (st : Spine) =>
        (∀ commit ∈ seen, commit.parents.length ≤ 1 →
          ∃ hunks, diffOf repo commit.sha = .ok hunks) ∧
        st.cache.Sound repo ∧
        Collects (touches repo pathPrefix knownFiles seen) st.collected st.lastVersion)
        ?_ ?_ hrun
      · obtain ⟨hdiffs, -, hcollects⟩ := hinv
        exact ⟨fun commit hmem => hdiffs commit (List.mem_reverse.mpr hmem), _, hcollects⟩
      · exact ⟨by simp, by simp [Cache.Sound], ⟨rfl, rfl, rfl, rfl, rfl⟩⟩
      · rintro seen commit rest acc acc' - ⟨hdiffs, hsound, hcollects⟩ hstep
        obtain ⟨hdiff, hsound', hcollects'⟩ := hcollects.visitCommit hsound hstep
        refine ⟨?_, hsound', hcollects'⟩
        intro commit' hmem
        obtain hmem | hmem := List.mem_append.mp hmem
        · exact hdiffs commit' hmem
        · exact List.mem_singleton.mp hmem ▸ hdiff

/-! ### Names of versions -/

theorem not_at_mem_of_diffOf {sha : Str} {hunks : List FileHunk}
    (h : diffOf repo sha = .ok hunks) : '@' ∉ sha := by
  obtain ⟨diff, hdiff, -⟩ := Run.bind_eq_ok.mp h
  obtain ⟨u, hvalid, -⟩ : ∃ u, validateSha repo sha = .ok u ∧ repo.gitShow sha = .ok diff :=
    Run.bind_eq_ok.mp hdiff
  unfold validateSha at hvalid
  split at hvalid
  · cases hvalid
  · split at hvalid
    · rename_i hall
      intro hat
      exact absurd (List.all_eq_true.mp hall '@' hat) (by decide)
    · cases hvalid

/-- Behind the last `@` stands the sha. -/
theorem versionId_inj {e e' sha sha' : Str} (hsha : '@' ∉ sha) (hsha' : '@' ∉ sha')
    (h : versionId e sha = versionId e' sha') : e = e' ∧ sha = sha' :=
  append_cons_inj hsha hsha' h

theorem mem_touches {commits : List CommitMeta} {t : Touch} :
    t ∈ touches repo pathPrefix knownFiles commits ↔
      (t.1 ∈ commits ∧ t.1.parents.length ≤ 1) ∧
        t.2 ∈ (entriesOf repo pathPrefix knownFiles t.1).flatMap (entitiesOf repo) := by
  obtain ⟨commit, e⟩ := t
  rw [touches, List.mem_flatMap]
  constructor
  · rintro ⟨commit', hmem, ht⟩
    obtain ⟨e', he', heq⟩ := List.mem_map.mp ht
    cases heq
    exact ⟨by simpa using hmem, he'⟩
  · rintro ⟨hmem, he⟩
    exact ⟨commit, by simpa using hmem, List.mem_map.mpr ⟨e, he, rfl⟩⟩

end Touches

end AutomatisedPipeline.History

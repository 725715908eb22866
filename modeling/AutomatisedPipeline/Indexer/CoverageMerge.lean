import AutomatisedPipeline.Indexer.CoverageFull
import AutomatisedPipeline.Indexer.Refinement

/-!
When an incremental pass reports what a full index reports. Both count a file as
indexed that the parser did not skip; but the incremental pass takes from the
number of files every gap that says skipped or quarantined, and those of the
directories the walk left out are among them, and so is the gap of a file that
the infrastructure pass alone skipped.
-/

namespace AutomatisedPipeline.Indexer

open Text Store Overlay

/-! ### The files behind a classification -/

section Behind

variable {w : Codebase}

theorem readAt_discovered {f : SourceFile} (hf : f ∈ w.files) :
    w.readAt (w.discovered f) = some f :=
  find?_keyOf w.tree.nodup hf

/-- The files read behind discovered ones are theirs. -/
theorem map_discovered_readAt {ds : List Index.Discovered} (h : ∀ d ∈ ds, d ∈ w.current) :
    (ds.filterMap w.readAt).map w.discovered = ds := by
  induction ds with
  | nil => rfl
  | cons d ds ih =>
      obtain ⟨f, hf, rfl⟩ := List.mem_map.mp (h d List.mem_cons_self)
      rw [List.filterMap_cons_some (readAt_discovered hf), List.map_cons,
        ih fun d' hd' => h d' (List.mem_cons_of_mem _ hd')]

theorem mem_of_readAt {ds : List Index.Discovered} {f : SourceFile}
    (h : f ∈ ds.filterMap w.readAt) : f ∈ w.files := by
  obtain ⟨d, _, hread⟩ := List.mem_filterMap.mp h
  exact List.mem_of_find?_eq_some hread

theorem renamed_newFiles (rs : List Index.Rename) :
    ((rs.filterMap fun r => (w.readAt r.newFile).map (Rename.mk r.oldRel)).map Rename.newFile) =
      (rs.map Index.Rename.newFile).filterMap w.readAt := by
  rw [List.map_filterMap, List.filterMap_map]
  refine List.filterMap_congr fun r _ => ?_
  simp [Function.comp_def]

/-- The current files as a classification takes them. -/
def Codebase.fileSet (w : Codebase) (hw : w.Plain) : Index.FileSet where
  files := w.current
  distinct := by
    have hmap : w.current.map Index.Discovered.rel = w.files.map SourceFile.relId := by
      rw [Codebase.current, List.map_map]
      rfl
    rw [hmap]
    exact hw.nodup

end Behind

section Classified

variable {w : Codebase} {prior : Index.FileManifest}

/-- What the incremental pass does, as the manifest tells. -/
def Codebase.plan (w : Codebase) (prior : Index.FileManifest) : Index.Plan :=
  Index.classify w.hashFile prior w.current

def Codebase.planned (w : Codebase) (prior : Index.FileManifest) : ChangeSet :=
  w.changes (w.plan prior).changeSet

/-- The files parsed again and those left alone are the files of the tree. -/
theorem parsed_unchanged_perm (hw : w.Plain) : ((w.planned prior).parsed.map w.discovered ++
    (w.plan prior).unchanged).Perm w.current := by
  have hpresent : ((w.plan prior).changeSet.changed ++ (w.plan prior).changeSet.added ++
      (w.plan prior).unchanged ++ (w.plan prior).changeSet.renamed.map Index.Rename.newFile).Perm
        w.current :=
    (Index.classify_partition w.hashFile prior (w.fileSet hw)).present
  have hmem : ∀ d, d ∈ (w.plan prior).changeSet.changed ++ (w.plan prior).changeSet.added ++
      (w.plan prior).unchanged ++ (w.plan prior).changeSet.renamed.map Index.Rename.newFile →
        d ∈ w.current :=
    fun d hd => hpresent.mem_iff.mp hd
  have hparsed : (w.planned prior).parsed.map w.discovered =
      (w.plan prior).changeSet.changed ++ (w.plan prior).changeSet.added ++
        (w.plan prior).changeSet.renamed.map Index.Rename.newFile := by
    rw [ChangeSet.parsed, Codebase.planned, Codebase.changes, renamed_newFiles, List.map_append,
      List.map_append, map_discovered_readAt fun d hd => hmem d (by simp [hd]),
      map_discovered_readAt fun d hd => hmem d (by simp [hd]),
      map_discovered_readAt fun d hd => hmem d (List.mem_append_right _ hd)]
  rw [hparsed]
  refine List.Perm.trans ?_ hpresent
  rw [List.append_assoc, List.append_assoc _ _ (List.map _ _)]
  exact List.perm_append_comm.append_left _

theorem mem_files_of_parsed {f : SourceFile} (h : f ∈ (w.planned prior).parsed) :
    f ∈ w.files := by
  rw [ChangeSet.parsed, Codebase.planned, Codebase.changes, renamed_newFiles, List.mem_append,
    List.mem_append] at h
  rcases h with (h | h) | h
  · exact mem_of_readAt h
  · exact mem_of_readAt h
  · exact mem_of_readAt h

theorem parsed_nodup (hw : w.Plain) : ((w.planned prior).parsed.map SourceFile.relId).Nodup := by
  have hdistinct := ((@parsed_unchanged_perm w prior hw).map Index.Discovered.rel).nodup_iff.mpr
    (w.fileSet hw).distinct
  rw [List.map_append, List.map_map] at hdistinct
  exact hdistinct.of_append_left

theorem mem_reparsedSet_of_file (hw : w.Plain) {f : SourceFile} (hf : f ∈ w.files) :
    f.relId ∈ (w.planned prior).reparsedSet ↔ f ∈ (w.planned prior).parsed := by
  rw [mem_reparsedSet_iff, List.mem_map]
  constructor
  · rintro ⟨g, hg, heq⟩
    rwa [← List.inj_on_of_nodup_map hw.nodup (mem_files_of_parsed hg) hf heq]
  · exact fun h => ⟨f, h, rfl⟩

/-- A file is parsed again unless the classification takes it as unchanged. -/
theorem mem_reparsedSet_iff_unchanged (hw : w.Plain) {f : SourceFile} (hf : f ∈ w.files) :
    f.relId ∉ (w.planned prior).reparsedSet ↔ w.discovered f ∈ (w.plan prior).unchanged := by
  have hperm := @parsed_unchanged_perm w prior hw
  have hdistinct := ((hperm.map Index.Discovered.rel).nodup_iff).mpr (w.fileSet hw).distinct
  rw [List.map_append, List.nodup_append] at hdistinct
  rw [mem_reparsedSet_of_file hw hf]
  constructor
  · intro hnot
    have hmem := hperm.mem_iff.mpr (List.mem_map_of_mem hf)
    refine (List.mem_append.mp hmem).resolve_left fun hparsed => ?_
    obtain ⟨g, hg, heq⟩ := List.mem_map.mp hparsed
    have hrel : g.relId = f.relId := congrArg Index.Discovered.rel heq
    rw [List.inj_on_of_nodup_map hw.nodup (mem_files_of_parsed hg) hf hrel] at hg
    exact hnot hg
  · intro hunchanged hparsed
    exact hdistinct.2.2 _ (List.mem_map_of_mem (List.mem_map_of_mem hparsed)) _
      (List.mem_map_of_mem hunchanged) rfl

end Classified

/-! ### What the classification takes as unchanged -/

section Unchanged

/-- Its modification time and size are the recorded ones, or its content hash is. -/
def LooksUnchanged (hashFile : Str → Option Str) (prior : Index.FileManifest)
    (d : Index.Discovered) : Prop :=
  ∃ prev, prior.files[d.rel]? = some prev ∧
    ((prev.mtimeNs = d.mtimeNs ∧ prev.size = d.size) ∨
      ((hashFile d.abs).getD [] ≠ [] ∧ (hashFile d.abs).getD [] = prev.contentHash))

theorem mem_unchanged_iff {hashFile : Str → Option Str} {prior : Index.FileManifest}
    {current : List Index.Discovered} {d : Index.Discovered} :
    d ∈ (Index.classify hashFile prior current).unchanged ↔
      d ∈ current ∧ LooksUnchanged hashFile prior d := by
  change d ∈ (Index.diffCurrentAgainstPrior hashFile prior current .new).unchanged ↔ _
  refine Run.foldl_invariant (fun seen (acc : Index.Diff) =>
    d ∈ acc.unchanged ↔ d ∈ seen ∧ LooksUnchanged hashFile prior d) (by simp) ?_ 
  intro seen e rest acc _ hacc
  rw [List.mem_append, List.mem_singleton, or_and_right, ← hacc]
  simp only [Index.diffStep]
  split
  · rename_i hnone
    rw [iff_self_or]
    rintro ⟨rfl, prev, hprev, -⟩
    rw [hnone] at hprev
    cases hprev
  · rename_i prev hprev
    split
    · rename_i hsame
      rw [List.mem_append, List.mem_singleton]
      refine or_congr_right (iff_self_and.mpr ?_)
      rintro rfl
      exact ⟨prev, hprev, .inl hsame⟩
    · rename_i hsame
      split
      · rename_i hhash
        rw [List.mem_append, List.mem_singleton]
        refine or_congr_right (iff_self_and.mpr ?_)
        rintro rfl
        exact ⟨prev, hprev, .inr hhash⟩
      · rename_i hhash
        rw [iff_self_or]
        rintro ⟨rfl, prev', hprev', hlooks⟩
        obtain rfl : prev = prev' := Option.some.inj (hprev.symm.trans hprev')
        exact absurd hlooks (not_or.mpr ⟨hsame, hhash⟩)

/-- The manifest of a tree has the state of each of its files, and no other. -/
theorem getElem?_writeFullManifest {w : Codebase} (hw : w.Plain) (rel : Str) :
    w.writeFullManifest.files[rel]? = (w.files.find? fun f => f.relId = rel).map fun f =>
      { mtimeNs := w.mtimeNs f
        size := f.size
        contentHash := (w.hashFile f.relativePath).getD [] } := by
  have hoverlay : w.writeFullManifest.files =
      overlay (entriesOf SourceFile.relId (fun f => some
        { mtimeNs := w.mtimeNs f
          size := f.size
          contentHash := (w.hashFile f.relativePath).getD [] }) w.files) ∅ := by
    rw [Codebase.writeFullManifest, Codebase.current, List.foldl_map, overlay, entriesOf,
      List.foldl_filterMap]
    refine (List.foldl_hom Index.FileManifest.files ?_).symm
    intro m f
    rfl
  rw [hoverlay]
  by_cases hrel : rel ∈ w.files.map SourceFile.relId
  · obtain ⟨f, hf, rfl⟩ := List.mem_map.mp hrel
    rw [getElem?_overlay_entriesOf hw.nodup _ hf, find?_keyOf hw.nodup hf]
    rfl
  · have hfind : w.files.find? (fun f => f.relId = rel) = none := by
      rw [List.find?_eq_none]
      intro f hf heq
      exact hrel (List.mem_map.mpr ⟨f, hf, of_decide_eq_true heq⟩)
    rw [getElem?_overlay_entriesOf_of_notMem _ hrel, hfind]
    simp

end Unchanged

/-! ### The gaps of an incremental pass -/

section Incremental

variable {ps : Parser} {ip : IacParsers} {policy : ParsePolicy} {w : Codebase}
  {prior : Index.FileManifest}

/-- The fresh gaps of the files of a pass. -/
def freshGaps (ps : Parser) (ip : IacParsers) (policy : ParsePolicy) (w : Codebase)
    (prior : Index.FileManifest) : GapMap :=
  reparsedGaps ip (w.planned prior) w.files
    ((w.planned prior).parsed.map (reparsedEntry ps policy))

theorem freshGaps_eq : freshGaps ps ip policy w prior =
    (foldIacGaps (((w.planned prior).parsed.map (reparsedEntry ps policy)).foldl
      recordReparseOutcome .default)
        (runIacPassFor ip
          (w.files.filter fun d => d.relId ∈ (w.planned prior).reparsedSet))).files := by
  unfold freshGaps reparsedGaps
  dsimp only
  split
  · rename_i hempty
    rw [List.isEmpty_iff.mp hempty]
    rfl
  · rfl

theorem reparseOutcomes_files : (((w.planned prior).parsed.map (reparsedEntry ps policy)).foldl
    recordReparseOutcome .default).files =
      overlay (entriesOf SourceFile.relId (fun d => (reparsedEntry ps policy d).2.gap)
        (w.planned prior).parsed) ∅ := by
  rw [foldl_files recordReparseOutcome_files, entriesOf_map]
  rfl

theorem getElem?_freshGaps (hw : w.Plain) {f : SourceFile} (hf : f ∈ w.files)
    (h : f.relId ∈ (w.planned prior).reparsedSet) :
    (freshGaps ps ip policy w prior)[f.relId]? = fileGap ps ip policy f := by
  have hnodup : ((w.files.filter fun d => d.relId ∈ (w.planned prior).reparsedSet).map
      SourceFile.relId).Nodup :=
    hw.nodup.sublist (List.filter_sublist.map _)
  have hmem : f ∈ w.files.filter fun d => d.relId ∈ (w.planned prior).reparsedSet :=
    List.mem_filter.mpr ⟨hf, decide_eq_true h⟩
  have hgap : (reparsedEntry ps policy f).2.gap = (outcomeOf ps policy f).gap := by
    rw [reparsedEntry, outcomeOf, hw.relId hf]
  rw [freshGaps_eq, getElem?_foldIacGaps hnodup _ hmem, reparseOutcomes_files,
    getElem?_overlay_entriesOf (parsed_nodup hw) _ ((mem_reparsedSet_of_file hw hf).mp h), hgap,
    Std.TreeMap.getElem?_emptyc, Option.or_none, fileGap]

theorem getElem?_freshGaps_of_notMem {rel : Str} (h : rel ∉ (w.planned prior).reparsedSet) :
    (freshGaps ps ip policy w prior)[rel]? = none := by
  have hfiltered : rel ∉ (w.files.filter fun d => d.relId ∈ (w.planned prior).reparsedSet).map
      SourceFile.relId := by
    rintro hmem
    obtain ⟨d, hd, rfl⟩ := List.mem_map.mp hmem
    exact h (of_decide_eq_true (List.mem_filter.mp hd).2)
  rw [freshGaps_eq, getElem?_foldIacGaps_of_notMem _ hfiltered, reparseOutcomes_files,
    getElem?_overlay_entriesOf_of_notMem _ (mt (mem_reparsedSet_iff _ _).mpr h),
    Std.TreeMap.getElem?_emptyc]

/-- What a merged report has at a path. -/
theorem getElem?_mergeCoverage (p : CoverageReport) (reparsedRels currentRels : Finset Str)
    (gaps : GapMap) (mode : Str) (n : Nat) (rel : Str) :
    (mergeCoverage (some p) reparsedRels currentRels gaps mode n).files[rel]? =
      (gaps[rel]?).or ((p.files[rel]?).filter fun g =>
        rel ∈ currentRels ∧ rel ∉ reparsedRels ∧ recomputed g.kind = false) := by
  change (overlay gaps.toList (overlay (p.files.toList.filter fun e => e.1 ∈ currentRels ∧
    e.1 ∉ reparsedRels ∧ recomputed e.2.kind = false) ∅))[rel]? = _
  rw [getElem?_overlay_toList, getElem?_overlay_filter_toList fun key (g : FileCoverage) =>
    key ∈ currentRels ∧ key ∉ reparsedRels ∧ recomputed g.kind = false,
    Std.TreeMap.getElem?_emptyc, Option.or_none]

/-- The language server's verdicts on a report. -/
def CoverageReport.recordVerdicts (report : CoverageReport) (verdicts : List (Str × Str)) :
    CoverageReport :=
  verdicts.foldl CoverageReport.recordUnlinkedFile report

theorem getElem?_recordVerdicts (report : CoverageReport) (verdicts : List (Str × Str))
    (rel : Str) :
    ((report.recordVerdicts verdicts).files[rel]?).filter (fun g => recomputed g.kind = false) =
      (report.files[rel]?).filter fun g => recomputed g.kind = false := by
  unfold CoverageReport.recordVerdicts
  refine Run.foldl_invariant (fun _ (r : CoverageReport) =>
    (r.files[rel]?).filter (fun g => recomputed g.kind = false) =
      (report.files[rel]?).filter fun g => recomputed g.kind = false) rfl ?_
  intro _ verdict _ r _ hr
  rw [← hr, CoverageReport.recordUnlinkedFile, Std.TreeMap.getElem?_insertIfNew]
  split
  · rename_i h
    obtain rfl := Std.compare_eq_iff_eq.mp h.1
    rw [Std.TreeMap.getElem?_eq_none h.2, Option.filter_some, if_neg (by simp [recomputed])]
    rfl
  · rfl

/-- What is carried over from the full report of a tree. -/
theorem carried_eq (hw : w.Plain) {outcomes : List (Str × ParseOutcome)} (verdicts : List (Str × Str))
    (houtcomes : outcomes = w.files.map fun f => (f.relativePath, outcomeOf ps policy f))
    (rel : Str) :
    ((((fullCoverage ip w outcomes).recordVerdicts verdicts).files[rel]?).filter fun g =>
      recomputed g.kind = false) = baseGap ps ip policy w rel := by
  rw [getElem?_recordVerdicts]
  change ((recordCargoGaps (w.cargoAttribute w.rustFilesByExtension)
    (collected ip w outcomes))[rel]?).filter _ = _
  rw [getElem?_recordCargoGaps, houtcomes, getElem?_collected hw]
  cases hbase : baseGap ps ip policy w rel with
  | some gap =>
      rw [Option.some_or, Option.filter_some, if_pos (by simp [recomputed_baseGap hw hbase])]
  | none =>
      rw [Option.none_or]
      cases hcargo : (cargoEntries (w.cargoAttribute w.rustFilesByExtension)).lookup rel with
      | none => rfl
      | some gap =>
          rw [Option.filter_some, if_neg (by simp [(recomputed_cargo hcargo).1])]

end Incremental

/-! ### Counts -/

/-- The gap says that the file was not indexed. -/
def FileCoverage.unread (gap : FileCoverage) : Bool :=
  gap.kind = .skipped ∨ gap.kind = .quarantined

theorem counts_unread (report : CoverageReport) :
    report.counts.skipped + report.counts.quarantined =
      (report.files.toList.map Prod.snd).countP FileCoverage.unread := by
  refine Run.foldl_invariant (fun seen (counts : CoverageCounts) =>
    counts.skipped + counts.quarantined = seen.countP FileCoverage.unread) rfl ?_
  intro seen gap rest counts _ hcounts
  rw [List.countP_append, ← hcounts, List.countP_singleton, CoverageCounts.add]
  cases hkind : gap.kind with
  | skipped =>
      simp [FileCoverage.unread, hkind]
      omega
  | quarantined =>
      simp [FileCoverage.unread, hkind]
      omega
  | parsePartial => simp [FileCoverage.unread, hkind]
  | outsideBuildTargets => simp [FileCoverage.unread, hkind]
  | unlinkedFile => simp [FileCoverage.unread, hkind]
  | featureGated => simp [FileCoverage.unread, hkind]

theorem recordOutcomes_filesIndexed (outcomes : List (Str × ParseOutcome)) (c : CoverageCollector) :
    (outcomes.foldl recordOutcome c).filesIndexed =
      c.filesIndexed + outcomes.countP fun entry => entry.2.counted := by
  refine Run.foldl_invariant (fun seen (c' : CoverageCollector) => c'.filesIndexed =
    c.filesIndexed + seen.countP fun entry : Str × ParseOutcome => entry.2.counted) rfl ?_
  intro seen entry rest c' _ hc'
  rw [List.countP_append, ← Nat.add_assoc, ← hc', List.countP_singleton, recordOutcome]
  cases houtcome : entry.2 <;> rfl

theorem recordDirs_filesIndexed (w : Codebase) :
    (w.recordPrunedDirs (w.recordDirs .default)).filesIndexed = 0 := by
  refine Run.foldl_invariant (fun _ (c : CoverageCollector) => c.filesIndexed = 0) ?_
    fun _ _ _ _ _ h => h
  refine Run.foldl_invariant (fun _ (c : CoverageCollector) => c.filesIndexed = 0) ?_
    fun _ _ _ _ _ h => h
  exact Run.foldl_invariant (fun _ (c : CoverageCollector) => c.filesIndexed = 0) rfl
    fun _ _ _ _ _ h => h

section Counts

variable (ps : Parser) (ip : IacParsers) (policy : ParsePolicy) (w : Codebase)

/-- The files the parser reads and the infrastructure pass skips. -/
def skippedByIac : Nat :=
  w.files.countP fun f => (iacReason f).isSome && (outcomeOf ps policy f).counted

/-- The files the parser does not read and the infrastructure pass reads in part. -/
def readByIac : Nat :=
  w.files.countP fun f =>
    (iacReason f).isNone && (iacRanges ip f).isSome && !(outcomeOf ps policy f).counted

def counted : Nat := w.files.countP fun f => (outcomeOf ps policy f).counted

/-- The files whose gap says that they were not indexed. -/
def unreadFiles : Nat := w.files.countP fun f => (fileGap ps ip policy f).any FileCoverage.unread

variable {ps ip policy w}

theorem unread_file (f : SourceFile) :
    ((fileGap ps ip policy f).any FileCoverage.unread).toNat +
        ((iacReason f).isNone && (iacRanges ip f).isSome &&
          !(outcomeOf ps policy f).counted).toNat + (outcomeOf ps policy f).counted.toNat =
      1 + ((iacReason f).isSome && (outcomeOf ps policy f).counted).toNat := by
  have hparse : (outcomeOf ps policy f).gap.any FileCoverage.unread =
      !(outcomeOf ps policy f).counted := by
    cases outcomeOf ps policy f <;> rfl
  rw [fileGap, iacGap]
  cases hreason : iacReason f with
  | some reason =>
      have hunread : (skippedGap reason).unread = true := rfl
      cases (outcomeOf ps policy f).counted <;> simp [hunread]
  | none =>
      cases hranges : iacRanges ip f with
      | some ranges =>
          have hunread : (partialGap ranges).unread = false := rfl
          cases (outcomeOf ps policy f).counted <;> simp [hunread]
      | none =>
          simp only [Option.map_none, Option.none_or, hparse]
          cases (outcomeOf ps policy f).counted <;> rfl

theorem unreadFiles_add :
    unreadFiles ps ip policy w + readByIac ps ip policy w + counted ps policy w =
      w.files.length + skippedByIac ps policy w := by
  unfold unreadFiles readByIac counted skippedByIac
  induction w.files with
  | nil => rfl
  | cons f files ih =>
      have hfile := @unread_file ps ip policy f
      have hcons : ∀ p : SourceFile → Bool, (f :: files).countP p = files.countP p + (p f).toNat := by
        intro p
        rw [List.countP_cons]
        cases p f <;> rfl
      rw [hcons, hcons, hcons, hcons, List.length_cons]
      omega

theorem skippedByIac_le : skippedByIac ps policy w ≤ counted ps policy w :=
  List.countP_mono_left fun _ _ h => (Bool.and_eq_true_iff.mp h).2

/-- The gaps that say so are those of the directories and of these files. -/
theorem countP_unread (hw : w.Plain) {files : GapMap}
    (hfiles : ∀ rel, files[rel]? = baseGap ps ip policy w rel) :
    (files.toList.map Prod.snd).countP FileCoverage.unread =
      w.dirKeys.card + unreadFiles ps ip policy w := by
  have hkeys : ∀ rel, files[rel]? ≠ none →
      rel ∈ w.dirKeys ∪ (w.files.map SourceFile.relId).toFinset := by
    intro rel hrel
    rw [Finset.mem_union, List.mem_toFinset]
    by_contra hnot
    rw [not_or] at hnot
    rw [hfiles, baseGap_other hnot.2, dirGaps_of_notMem hnot.1] at hrel
    exact hrel rfl
  have hdisjoint : Disjoint w.dirKeys (w.files.map SourceFile.relId).toFinset := by
    rw [Finset.disjoint_left]
    intro rel hdir hrel
    obtain ⟨f, hf, rfl⟩ := List.mem_map.mp (List.mem_toFinset.mp hrel)
    exact hw.notMem_dirKeys hf hdir
  have hdirs : w.dirKeys.filter (fun rel => (files[rel]?).any FileCoverage.unread) = w.dirKeys := by
    rw [Finset.filter_eq_self]
    intro rel hrel
    have hnot : rel ∉ w.files.map SourceFile.relId :=
      fun hmem => Finset.disjoint_left.mp hdisjoint hrel (List.mem_toFinset.mpr hmem)
    obtain ⟨reason, hgap⟩ := dirGaps_of_mem hrel
    rw [hfiles, baseGap_other hnot, hgap]
    rfl
  have hrels : ((w.files.map SourceFile.relId).toFinset.filter fun rel =>
      (files[rel]?).any FileCoverage.unread) =
        ((w.files.filter fun f => (fileGap ps ip policy f).any FileCoverage.unread).map
          SourceFile.relId).toFinset := by
    apply Finset.ext
    intro rel
    rw [Finset.mem_filter, List.mem_toFinset, List.mem_toFinset, List.mem_map, List.mem_map]
    constructor
    · rintro ⟨⟨f, hf, rfl⟩, hgap⟩
      rw [hfiles, baseGap_file hw hf] at hgap
      exact ⟨f, List.mem_filter.mpr ⟨hf, hgap⟩, rfl⟩
    · rintro ⟨f, hf, rfl⟩
      obtain ⟨hmem, hgap⟩ := List.mem_filter.mp hf
      rw [hfiles, baseGap_file hw hmem]
      exact ⟨⟨f, hmem, rfl⟩, hgap⟩
  rw [countP_toList files FileCoverage.unread _ hkeys, Finset.filter_union, hdirs, hrels,
    Finset.card_union_of_disjoint, List.toFinset_card_of_nodup
      (hw.nodup.sublist (List.filter_sublist.map _)), List.length_map, unreadFiles,
    List.countP_eq_length_filter]
  rw [← hrels]
  exact hdisjoint.mono_right (Finset.filter_subset _ _)

end Counts

/-! ### The two reports -/

section Reports

variable {ps : Parser} {ip : IacParsers} {policy : ParsePolicy} {w₀ w : Codebase}

/-- The gap of a report at a path, the language server's verdicts apart. -/
def CoverageReport.gap (report : CoverageReport) (rel : Str) : Option FileCoverage :=
  (report.files[rel]?).filter fun gap => gap.kind ≠ .unlinkedFile

/-- The two reports have one gap map, one set of pruned directories and one count. -/
structure SameCoverage (a b : CoverageReport) : Prop where
  gaps : ∀ rel, a.gap rel = b.gap rel
  prunedDirs : ∀ dir : Str, a.prunedDirs[dir]? = b.prunedDirs[dir]?
  filesIndexed : a.filesIndexed = b.filesIndexed

/-- The change detection takes the later file for the earlier one. -/
def TakenAsSame (w₀ w : Codebase) (f₀ f : SourceFile) : Prop :=
  (w₀.mtimeNs f₀ = w.mtimeNs f ∧ f₀.size = f.size) ∨
    ((w.hashFile f.relativePath).getD [] ≠ [] ∧
      (w.hashFile f.relativePath).getD [] = (w₀.hashFile f₀.relativePath).getD [])

/-- Exactly what it takes for the incremental report of `w` over `w₀` to be the
full one. -/
structure CoverageStable (ps : Parser) (ip : IacParsers) (policy : ParsePolicy)
    (w₀ w : Codebase) : Prop where
  /-- A file that is taken as the same has the gap it had. -/
  unchanged : ∀ f₀ ∈ w₀.files, ∀ f ∈ w.files, f₀.relId = f.relId → TakenAsSame w₀ w f₀ f →
    fileGap ps ip policy f₀ = fileGap ps ip policy f
  /-- Where there is no other gap, Cargo tells the same of the two sets of Rust files. -/
  cargo : ∀ rel, baseGap ps ip policy w rel = none →
    (cargoEntries (w.cargoAttribute w.rustFilesBySuffix)).lookup rel =
      (cargoEntries (w.cargoAttribute w.rustFilesByExtension)).lookup rel
  /-- The gaps that are not a file the parser skipped, and the files it skipped
  whose gap does not say so, cancel out; or there is nothing left to count. -/
  counts : w.dirKeys.card + skippedByIac ps policy w = readByIac ps ip policy w ∨
    counted ps policy w = 0 ∧ readByIac ps ip policy w ≤ w.dirKeys.card

/-! ### The merged gaps -/

/-- The report of an incremental pass before Cargo is asked. -/
def merged (ps : Parser) (ip : IacParsers) (policy : ParsePolicy) (w₀ w : Codebase)
    (p : CoverageReport) : CoverageReport :=
  mergeCoverage (some p) (w.planned w₀.writeFullManifest).reparsedSet
    (w.files.map SourceFile.relId).toFinset
    (overlay (w.recordPrunedDirs (w.recordDirs .default)).files.toList
      (freshGaps ps ip policy w w₀.writeFullManifest)) "incremental".toList w.files.length

/-- The files that are not parsed again are those taken as the same. -/
theorem notMem_reparsedSet_iff (hw₀ : w₀.Plain) (hw : w.Plain) {f : SourceFile}
    (hf : f ∈ w.files) :
    f.relId ∉ (w.planned w₀.writeFullManifest).reparsedSet ↔
      ∃ f₀ ∈ w₀.files, f₀.relId = f.relId ∧ TakenAsSame w₀ w f₀ f := by
  rw [mem_reparsedSet_iff_unchanged hw hf, Codebase.plan, mem_unchanged_iff]
  constructor
  · rintro ⟨-, prev, hprev, hsame⟩
    rw [getElem?_writeFullManifest hw₀, Option.map_eq_some_iff] at hprev
    obtain ⟨f₀, hfind, rfl⟩ := hprev
    have hrel : f₀.relId = (w.discovered f).rel := by simpa using List.find?_some hfind
    exact ⟨f₀, List.mem_of_find?_eq_some hfind, hrel, hsame⟩
  · rintro ⟨f₀, hf₀, hrel, hsame⟩
    have hstate := getElem?_writeFullManifest hw₀ f₀.relId
    rw [find?_keyOf hw₀.nodup hf₀, hrel] at hstate
    exact ⟨List.mem_map_of_mem hf, _, hstate, hsame⟩

section Carried

variable {p : CoverageReport}
  (hcarried : ∀ rel, ((p.files[rel]?).filter fun g => recomputed g.kind = false) =
    baseGap ps ip policy w₀ rel)

include hcarried

theorem getElem?_merged (rel : Str) : (merged ps ip policy w₀ w p).files[rel]? =
    (w.dirGaps[rel]?).or (((freshGaps ps ip policy w w₀.writeFullManifest)[rel]?).or
      (if rel ∈ w.files.map SourceFile.relId ∧
        rel ∉ (w.planned w₀.writeFullManifest).reparsedSet then baseGap ps ip policy w₀ rel
      else none)) := by
  rw [merged, getElem?_mergeCoverage, getElem?_overlay_toList, recordPrunedDirs_files,
    Option.or_assoc]
  congr 2
  rw [← hcarried]
  cases p.files[rel]? with
  | none => simp
  | some gap =>
      simp only [Option.filter_some, List.mem_toFinset, decide_eq_true_eq]
      split_ifs <;> tauto

theorem merged_reparsed (hw : w.Plain) {f : SourceFile} (hf : f ∈ w.files)
    (h : f.relId ∈ (w.planned w₀.writeFullManifest).reparsedSet) :
    (merged ps ip policy w₀ w p).files[f.relId]? = baseGap ps ip policy w f.relId := by
  rw [getElem?_merged hcarried, dirGaps_of_notMem (hw.notMem_dirKeys hf),
    getElem?_freshGaps hw hf h, if_neg fun hnot => hnot.2 h, Option.none_or, Option.or_none,
    baseGap_file hw hf]

theorem merged_unchanged (hw : w.Plain) {f : SourceFile} (hf : f ∈ w.files)
    (h : f.relId ∉ (w.planned w₀.writeFullManifest).reparsedSet) :
    (merged ps ip policy w₀ w p).files[f.relId]? = baseGap ps ip policy w₀ f.relId := by
  rw [getElem?_merged hcarried, dirGaps_of_notMem (hw.notMem_dirKeys hf),
    getElem?_freshGaps_of_notMem h, if_pos ⟨List.mem_map_of_mem hf, h⟩, Option.none_or,
    Option.none_or]

theorem merged_other {rel : Str} (h : rel ∉ w.files.map SourceFile.relId) :
    (merged ps ip policy w₀ w p).files[rel]? = baseGap ps ip policy w rel := by
  have hnot : rel ∉ (w.planned w₀.writeFullManifest).reparsedSet := by
    intro hmem
    obtain ⟨f, hf, rfl⟩ := List.mem_map.mp ((mem_reparsedSet_iff _ _).mp hmem)
    exact h (List.mem_map_of_mem (mem_files_of_parsed hf))
  rw [getElem?_merged hcarried, getElem?_freshGaps_of_notMem hnot, if_neg fun hin => h hin.1,
    Option.none_or, Option.or_none, baseGap_other h]

theorem recomputed_merged (hw₀ : w₀.Plain) (hw : w.Plain) {rel : Str} {gap : FileCoverage}
    (h : (merged ps ip policy w₀ w p).files[rel]? = some gap) : recomputed gap.kind = false := by
  by_cases hrel : rel ∈ w.files.map SourceFile.relId
  · obtain ⟨f, hf, rfl⟩ := List.mem_map.mp hrel
    by_cases hreparsed : f.relId ∈ (w.planned w₀.writeFullManifest).reparsedSet
    · rw [merged_reparsed hcarried hw hf hreparsed] at h
      exact recomputed_baseGap hw h
    · rw [merged_unchanged hcarried hw hf hreparsed] at h
      exact recomputed_baseGap hw₀ h
  · rw [merged_other hcarried hrel] at h
    exact recomputed_baseGap hw h

/-- The merged gaps are those of the tree when no file taken as the same has
another gap than it had. -/
theorem merged_eq_iff (hw₀ : w₀.Plain) (hw : w.Plain) :
    (∀ rel, (merged ps ip policy w₀ w p).files[rel]? = baseGap ps ip policy w rel) ↔
      ∀ f₀ ∈ w₀.files, ∀ f ∈ w.files, f₀.relId = f.relId → TakenAsSame w₀ w f₀ f →
        fileGap ps ip policy f₀ = fileGap ps ip policy f := by
  constructor
  · intro h f₀ hf₀ f hf hrel hsame
    have hnot := (notMem_reparsedSet_iff hw₀ hw hf).mpr ⟨f₀, hf₀, hrel, hsame⟩
    rw [← baseGap_file hw hf, ← h, merged_unchanged hcarried hw hf hnot, ← hrel,
      baseGap_file hw₀ hf₀]
  · intro h rel
    by_cases hmem : rel ∈ w.files.map SourceFile.relId
    · obtain ⟨f, hf, rfl⟩ := List.mem_map.mp hmem
      by_cases hreparsed : f.relId ∈ (w.planned w₀.writeFullManifest).reparsedSet
      · exact merged_reparsed hcarried hw hf hreparsed
      · obtain ⟨f₀, hf₀, hrel, hsame⟩ := (notMem_reparsedSet_iff hw₀ hw hf).mp hreparsed
        rw [merged_unchanged hcarried hw hf hreparsed, ← hrel, baseGap_file hw₀ hf₀, hrel,
          baseGap_file hw hf, h f₀ hf₀ f hf hrel hsame]
    · exact merged_other hcarried hmem

end Carried

end Reports

/-- Gaps a pass found, filled up with what Cargo tells, are equal when both are. -/
theorem filled_eq_iff {a b c d : Option FileCoverage}
    (ha : ∀ gap, a = some gap → recomputed gap.kind = false)
    (hb : ∀ gap, b = some gap → recomputed gap.kind = false)
    (hc : ∀ gap, c = some gap → recomputed gap.kind = true ∧ gap.kind ≠ .unlinkedFile)
    (hd : ∀ gap, d = some gap → recomputed gap.kind = true ∧ gap.kind ≠ .unlinkedFile) :
    (a.or c).filter (fun gap => gap.kind ≠ .unlinkedFile) =
        (b.or d).filter (fun gap => gap.kind ≠ .unlinkedFile) ↔
      a = b ∧ (b = none → c = d) := by
  have hkept : ∀ {x y : Option FileCoverage}, (∀ gap, x = some gap → recomputed gap.kind = false) →
      (∀ gap, y = some gap → recomputed gap.kind = true ∧ gap.kind ≠ .unlinkedFile) →
        (x.or y).filter (fun gap => gap.kind ≠ .unlinkedFile) = x.or y := by
    intro x y hx hy
    cases hgap : x.or y with
    | none => rfl
    | some gap =>
        have hkind : gap.kind ≠ .unlinkedFile := by
          rw [Option.or_eq_some_iff] at hgap
          rcases hgap with hgap | ⟨-, hgap⟩
          · intro heq
            have hfresh := hx gap hgap
            rw [heq] at hfresh
            cases hfresh
          · exact (hy gap hgap).2
        rw [Option.filter_some, if_pos (decide_eq_true hkind)]
  rw [hkept ha hc, hkept hb hd]
  cases a with
  | none =>
      cases b with
      | none => simp
      | some gap =>
          simp only [Option.none_or, Option.some_or, reduceCtorEq, false_and, iff_false]
          intro heq
          have hkind := (hc gap heq).1
          rw [hb gap rfl] at hkind
          cases hkind
  | some gap =>
      cases b with
      | none =>
          simp only [Option.none_or, Option.some_or, reduceCtorEq, false_and, iff_false]
          intro heq
          have hkind := (hd gap heq.symm).1
          rw [ha gap rfl] at hkind
          cases hkind
      | some gap' => simp

section Coverage

variable {ps : Parser} {ip : IacParsers} {policy : ParsePolicy} {w₀ w : Codebase}

theorem fullCoverage_prunedDirs (outcomes : List (Str × ParseOutcome)) :
    (fullCoverage ip w outcomes).prunedDirs =
      (w.recordPrunedDirs (w.recordDirs .default)).prunedDirs := by
  change (foldIacGaps (outcomes.foldl recordOutcome (w.recordPrunedDirs (w.recordDirs .default)))
    (runIacPassFor ip w.files)).prunedDirs = _
  refine Run.foldl_invariant (fun _ (c : CoverageCollector) => c.prunedDirs =
    (w.recordPrunedDirs (w.recordDirs .default)).prunedDirs) ?_ fun _ _ _ _ _ h => h
  refine Run.foldl_invariant (fun _ (c : CoverageCollector) => c.prunedDirs =
    (w.recordPrunedDirs (w.recordDirs .default)).prunedDirs) ?_ fun _ _ _ _ _ h => h
  refine Run.foldl_invariant (fun _ (c : CoverageCollector) => c.prunedDirs =
    (w.recordPrunedDirs (w.recordDirs .default)).prunedDirs) rfl ?_
  intro _ entry _ c _ hc
  rw [← hc, recordOutcome]
  cases entry.2 <;> rfl

theorem fullCoverage_filesIndexed :
    (fullCoverage ip w
      (w.files.map fun f => (f.relativePath, outcomeOf ps policy f))).filesIndexed =
        counted ps policy w := by
  change ((w.files.map fun f => (f.relativePath, outcomeOf ps policy f)).foldl recordOutcome
    (w.recordPrunedDirs (w.recordDirs .default))).filesIndexed = _
  rw [recordOutcomes_filesIndexed, recordDirs_filesIndexed, List.countP_map, Nat.zero_add]
  rfl

theorem getElem?_fullCoverage (hw : w.Plain) (rel : Str) :
    (fullCoverage ip w (w.files.map fun f =>
      (f.relativePath, outcomeOf ps policy f))).files[rel]? =
        (baseGap ps ip policy w rel).or
          ((cargoEntries (w.cargoAttribute w.rustFilesByExtension)).lookup rel) := by
  change (recordCargoGaps (w.cargoAttribute w.rustFilesByExtension) (collected ip w _))[rel]? = _
  rw [getElem?_recordCargoGaps, getElem?_collected hw]

/-- The report of an incremental pass. -/
def incrementalCoverage (ps : Parser) (ip : IacParsers) (policy : ParsePolicy) (w₀ w : Codebase)
    (p : CoverageReport) : CoverageReport :=
  { merged ps ip policy w₀ w p with
    prunedDirs := (w.recordPrunedDirs (w.recordDirs .default)).prunedDirs
    files := recordCargoGaps (w.cargoAttribute w.rustFilesBySuffix)
      (merged ps ip policy w₀ w p).files
    cargoAttribution := some (w.cargoAttribute w.rustFilesBySuffix).status }

theorem indexIncremental_report {store g : GraphStore} {p report : CoverageReport}
    {next : Index.FileManifest}
    (h : indexIncremental ps ip policy store w₀.writeFullManifest (some p) w =
      .ok (g, next, report)) : report = incrementalCoverage ps ip policy w₀ w p := by
  unfold indexIncremental at h
  obtain ⟨⟨store', n, outcomes⟩, happly, h⟩ := Run.bind_eq_ok.mp h
  have houtcomes := applyChanges_outcomes happly
  subst houtcomes
  cases h
  rfl

theorem gaps_eq_iff (hw₀ : w₀.Plain) (hw : w.Plain) {p : CoverageReport}
    (hcarried : ∀ rel, ((p.files[rel]?).filter fun g => recomputed g.kind = false) =
      baseGap ps ip policy w₀ rel) :
    (∀ rel, (incrementalCoverage ps ip policy w₀ w p).gap rel =
    (fullCoverage ip w (w.files.map fun f => (f.relativePath, outcomeOf ps policy f))).gap rel) ↔
      (∀ rel, (merged ps ip policy w₀ w p).files[rel]? = baseGap ps ip policy w rel) ∧
        ∀ rel, baseGap ps ip policy w rel = none →
          (cargoEntries (w.cargoAttribute w.rustFilesBySuffix)).lookup rel =
            (cargoEntries (w.cargoAttribute w.rustFilesByExtension)).lookup rel := by
  rw [← forall_and]
  refine forall_congr' fun rel => ?_
  rw [CoverageReport.gap, CoverageReport.gap, getElem?_fullCoverage hw, incrementalCoverage,
    getElem?_recordCargoGaps]
  exact filled_eq_iff (fun _ => recomputed_merged hcarried hw₀ hw)
    (fun _ => recomputed_baseGap hw) (fun _ => recomputed_cargo) (fun _ => recomputed_cargo)

/-- The count of an incremental pass, where its gaps are those of the tree. -/
theorem merged_filesIndexed (hw : w.Plain) {p : CoverageReport}
    (hmerged : ∀ rel, (merged ps ip policy w₀ w p).files[rel]? = baseGap ps ip policy w rel) :
    (merged ps ip policy w₀ w p).filesIndexed =
      w.files.length - (w.dirKeys.card + unreadFiles ps ip policy w) := by
  rw [← countP_unread hw hmerged, ← counts_unread]
  rfl

theorem filesIndexed_eq_iff (hw : w.Plain) {p : CoverageReport}
    (hmerged : ∀ rel, (merged ps ip policy w₀ w p).files[rel]? = baseGap ps ip policy w rel) :
    (merged ps ip policy w₀ w p).filesIndexed = counted ps policy w ↔
      (w.dirKeys.card + skippedByIac ps policy w = readByIac ps ip policy w ∨
        counted ps policy w = 0 ∧ readByIac ps ip policy w ≤ w.dirKeys.card) := by
  have hadd := @unreadFiles_add ps ip policy w
  have hle := @skippedByIac_le ps policy w
  rw [merged_filesIndexed hw hmerged]
  omega

/-- An incremental pass over a tree that was indexed in full reports what a full
index of the current tree reports exactly when the coverage is stable. -/
theorem incremental_coverage_iff (hw₀ : w₀.Plain) (hw : w.Plain) {store g₀ g₁ g : GraphStore}
    {earlier report full : CoverageReport} {verdicts : List (Str × Str)}
    {next : Index.FileManifest}
    (h₀ : indexCodebaseWithLanguage ps ip policy w₀ = .ok (g₀, earlier))
    (h : indexIncremental ps ip policy store w₀.writeFullManifest
      (some (earlier.recordVerdicts verdicts)) w = .ok (g, next, report))
    (h₁ : indexCodebaseWithLanguage ps ip policy w = .ok (g₁, full)) :
    SameCoverage report full ↔ CoverageStable ps ip policy w₀ w := by
  unfold indexCodebaseWithLanguage at h₀ h₁
  obtain ⟨⟨g₀', outcomes₀⟩, hrun₀, hpair₀⟩ := Run.bind_eq_ok.mp h₀
  obtain ⟨⟨g₁', outcomes₁⟩, hrun₁, hpair₁⟩ := Run.bind_eq_ok.mp h₁
  obtain ⟨rfl, rfl⟩ := Prod.mk.inj (Except.ok.inj hpair₀)
  obtain ⟨rfl, rfl⟩ := Prod.mk.inj (Except.ok.inj hpair₁)
  have houtcomes₁ := indexCodebase_outcomes hrun₁
  subst houtcomes₁
  have hcarried := @carried_eq ps ip policy w₀ hw₀ _ verdicts (indexCodebase_outcomes hrun₀)
  rw [indexIncremental_report h]
  constructor
  · rintro ⟨hsame, -, hindexed⟩
    obtain ⟨hmerged, hcargo⟩ := (gaps_eq_iff hw₀ hw hcarried).mp hsame
    rw [fullCoverage_filesIndexed] at hindexed
    exact ⟨(merged_eq_iff hcarried hw₀ hw).mp hmerged, hcargo,
      (filesIndexed_eq_iff hw hmerged).mp hindexed⟩
  · rintro ⟨hunchanged, hcargo, hstable⟩
    have hmerged := (merged_eq_iff hcarried hw₀ hw).mpr hunchanged
    refine ⟨(gaps_eq_iff hw₀ hw hcarried).mpr ⟨hmerged, hcargo⟩, ?_, ?_⟩
    · intro dir
      rw [fullCoverage_prunedDirs]
      rfl
    · rw [fullCoverage_filesIndexed]
      exact (filesIndexed_eq_iff hw hmerged).mpr hstable

end Coverage

/-! ### A directory the walk cannot read -/

def noCargo (_ : Finset Str) : CargoAttributions :=
  { status := .notApplicable "no Cargo.toml at the analyzed root".toList
    outsideTargets := []
    featureGated := [] }

def plainIac : IacParsers := { dockerfile := fun _ => true, manifest := fun _ => none }

def lockedDir : FileName := ⟨"locked".toList, by decide⟩

/-- One file, and a directory that cannot be read. -/
def beforeLink : Codebase where
  tree := treeBefore
  mtimeNs := fun _ => 1
  hashFile := fun _ => none
  excludedDirs := []
  unreadableDirs := [[lockedDir]]
  prunedDirs := []
  cargoAttribute := noCargo
  apart := by decide +kernel

def afterLink : Codebase where
  tree := treeAfter
  mtimeNs := fun _ => 1
  hashFile := fun _ => none
  excludedDirs := []
  unreadableDirs := [[lockedDir]]
  prunedDirs := []
  cargoAttribute := noCargo
  apart := by decide +kernel

theorem beforeLink_plain : beforeLink.Plain where
  files := by decide +kernel
  dirs := by decide +kernel

theorem afterLink_plain : afterLink.Plain where
  files := by decide +kernel
  dirs := by decide +kernel

theorem incremental_coverage_iff_added : ∃ g₀ earlier g next report g₁ full,
    indexCodebaseWithLanguage noParser plainIac ownFiles beforeLink = .ok (g₀, earlier) ∧
      indexIncremental noParser plainIac ownFiles g₀ beforeLink.writeFullManifest
        (some (earlier.recordVerdicts [])) afterLink = .ok (g, next, report) ∧
      indexCodebaseWithLanguage noParser plainIac ownFiles afterLink = .ok (g₁, full) ∧
      (SameCoverage report full ↔
        CoverageStable noParser plainIac ownFiles beforeLink afterLink) := by
  obtain ⟨g₀, earlier, h₀⟩ : ∃ g₀ earlier,
      indexCodebaseWithLanguage noParser plainIac ownFiles beforeLink = .ok (g₀, earlier) :=
    ⟨_, _, rfl⟩
  obtain ⟨g, next, report, h⟩ : ∃ g next report,
      indexIncremental noParser plainIac ownFiles g₀ beforeLink.writeFullManifest
        (some (earlier.recordVerdicts [])) afterLink = .ok (g, next, report) := by
    cases h₀
    exact ⟨_, _, _, rfl⟩
  obtain ⟨g₁, full, h₁⟩ : ∃ g₁ full,
      indexCodebaseWithLanguage noParser plainIac ownFiles afterLink = .ok (g₁, full) :=
    ⟨_, _, rfl⟩
  exact ⟨g₀, earlier, g, next, report, g₁, full, h₀, h, h₁,
    incremental_coverage_iff beforeLink_plain afterLink_plain h₀ h h₁⟩

/-- With nothing changed at all, the directory is taken from the number of files. -/
theorem locked_directory_is_subtracted : ∃ g₀ full g next report,
    indexCodebaseWithLanguage noParser plainIac ownFiles beforeLink = .ok (g₀, full) ∧
      indexIncremental noParser plainIac ownFiles g₀ beforeLink.writeFullManifest
        (some (full.recordVerdicts [])) beforeLink = .ok (g, next, report) ∧
      full.filesIndexed = 1 ∧ report.filesIndexed = 0 ∧ ¬SameCoverage report full := by
  refine ⟨_, _, _, _, _, rfl, rfl, rfl, rfl, ?_⟩
  intro hsame
  exact absurd hsame.filesIndexed (by decide)

end AutomatisedPipeline.Indexer

import AutomatisedPipeline.Indexer.CoverageGaps
import AutomatisedPipeline.Logic.Assoc

/-!
The gaps of a full index: what it has collected at a path when it asks Cargo is
the gap of the file there, or else that of the directory, and what Cargo tells
fills the paths that have none.
-/

namespace AutomatisedPipeline.Indexer

open Text Store Overlay

/-! ### Keys -/

/-- No path has a backslash. -/
structure Codebase.Plain (w : Codebase) : Prop where
  files : ∀ f ∈ w.files, '\\' ∉ f.relativePath
  dirs : ∀ dir ∈ w.excludedDirs ++ w.unreadableDirs, '\\' ∉ pathString dir

section Keys

variable {w : Codebase}

theorem Codebase.Plain.relId (hw : w.Plain) {f : SourceFile} (hf : f ∈ w.files) :
    f.relId = f.relativePath :=
  relId_of_plain (hw.files f hf)

theorem Codebase.Plain.nodup (hw : w.Plain) : (w.files.map SourceFile.relId).Nodup := by
  have hmap : w.files.map SourceFile.relId = w.files.map SourceFile.relativePath :=
    List.map_congr_left fun f hf => hw.relId hf
  rw [hmap]
  exact w.tree.nodup

/-- The keys of the directories the walk left out. -/
def Codebase.dirKeys (w : Codebase) : Finset Str :=
  ((w.excludedDirs ++ w.unreadableDirs).map dirRel).toFinset

/-- No file has the key of a directory. -/
theorem Codebase.Plain.notMem_dirKeys (hw : w.Plain) {f : SourceFile} (hf : f ∈ w.files) :
    f.relId ∉ w.dirKeys := by
  rw [Codebase.dirKeys, List.mem_toFinset, List.mem_map]
  rintro ⟨dir, hdir, heq⟩
  have hplain : dirRel dir = pathString dir := by
    unfold dirRel
    conv_rhs => rw [← List.map_id (pathString dir)]
    refine List.map_congr_left fun c hc => if_neg ?_
    rintro rfl
    exact hw.dirs dir hdir hc
  rw [hplain, hw.relId hf] at heq
  have hne : dir ≠ [] := by
    rintro rfl
    exact pathString_ne_nil f.path_ne_nil heq.symm
  have hpath : dir = f.path := pathString_injective hne f.path_ne_nil heq
  exact w.apart f hf (hpath ▸ hdir)

/-- The gaps of the directories. -/
def Codebase.dirGaps (w : Codebase) : GapMap := (w.recordDirs .default).files

theorem dirGaps_eq (w : Codebase) : w.dirGaps =
    overlay (entriesOf dirRel (fun _ => some (skippedGap "unreadable".toList)) w.unreadableDirs)
      (overlay (entriesOf dirRel (fun _ => some (skippedGap "user_excluded".toList))
        w.excludedDirs) ∅) := by
  unfold Codebase.dirGaps Codebase.recordDirs
  dsimp only
  rw [@foldl_files _ _ dirRel (fun _ => some (skippedGap "unreadable".toList))
      (fun _ _ => rfl),
    @foldl_files _ _ dirRel (fun _ => some (skippedGap "user_excluded".toList))
      (fun _ _ => rfl)]
  rfl

theorem dirGaps_of_notMem {rel : Str} (h : rel ∉ w.dirKeys) : w.dirGaps[rel]? = none := by
  rw [Codebase.dirKeys, List.map_append, List.mem_toFinset, List.mem_append, not_or] at h
  rw [dirGaps_eq, getElem?_overlay_entriesOf_of_notMem _ h.2,
    getElem?_overlay_entriesOf_of_notMem _ h.1, Std.TreeMap.getElem?_emptyc]

theorem dirGaps_of_mem {rel : Str} (h : rel ∈ w.dirKeys) :
    ∃ reason, w.dirGaps[rel]? = some (skippedGap reason) := by
  rw [Codebase.dirKeys, List.map_append, List.mem_toFinset, List.mem_append] at h
  rw [dirGaps_eq]
  by_cases hunreadable : rel ∈ w.unreadableDirs.map dirRel
  · exact ⟨_, getElem?_overlay_const hunreadable _ _⟩
  · rw [getElem?_overlay_entriesOf_of_notMem _ hunreadable]
    exact ⟨_, getElem?_overlay_const (h.resolve_right hunreadable) _ _⟩

end Keys

/-! ### The gaps before Cargo is asked -/

section Base

variable (ps : Parser) (ip : IacParsers) (policy : ParsePolicy)

/-- What a tree has at a path: the gap of its file there, or else of its directory. -/
def baseGap (w : Codebase) (rel : Str) : Option FileCoverage :=
  match w.files.find? fun f => f.relId = rel with
  | some f => fileGap ps ip policy f
  | none => w.dirGaps[rel]?

end Base

section Lookup

variable {ps : Parser} {ip : IacParsers} {policy : ParsePolicy} {w : Codebase}

theorem baseGap_file (hw : w.Plain) {f : SourceFile} (hf : f ∈ w.files) :
    baseGap ps ip policy w f.relId = fileGap ps ip policy f := by
  rw [baseGap, find?_keyOf hw.nodup hf]

theorem baseGap_other {rel : Str} (h : rel ∉ w.files.map SourceFile.relId) :
    baseGap ps ip policy w rel = w.dirGaps[rel]? := by
  have hfind : w.files.find? (fun g => g.relId = rel) = none := by
    rw [List.find?_eq_none]
    intro g hg heq
    exact h (List.mem_map.mpr ⟨g, hg, by simpa using heq⟩)
  rw [baseGap, hfind]

/-- The gaps a pass finds are not of the kinds that Cargo or the language server tell. -/
theorem recomputed_fileGap {f : SourceFile} {gap : FileCoverage}
    (h : fileGap ps ip policy f = some gap) : recomputed gap.kind = false := by
  rw [fileGap, iacGap, Option.or_eq_some_iff, Option.or_eq_some_iff] at h
  rcases h with (h | ⟨-, h⟩) | ⟨-, h⟩
  · obtain ⟨reason, -, rfl⟩ := Option.map_eq_some_iff.mp h
    rfl
  · obtain ⟨ranges, -, rfl⟩ := Option.map_eq_some_iff.mp h
    rfl
  · cases houtcome : outcomeOf ps policy f with
    | indexed =>
        rw [houtcome] at h
        cases h
    | partlyIndexed ranges =>
        rw [houtcome] at h
        cases h
        rfl
    | skipped reason =>
        rw [houtcome] at h
        cases h
        rfl
    | quarantined reason =>
        rw [houtcome] at h
        cases h
        rfl

theorem recomputed_baseGap (hw : w.Plain) {rel : Str} {gap : FileCoverage}
    (h : baseGap ps ip policy w rel = some gap) : recomputed gap.kind = false := by
  by_cases hrel : rel ∈ w.files.map SourceFile.relId
  · obtain ⟨f, hf, rfl⟩ := List.mem_map.mp hrel
    rw [baseGap_file hw hf] at h
    exact recomputed_fileGap h
  · rw [baseGap_other hrel] at h
    by_cases hdir : rel ∈ w.dirKeys
    · obtain ⟨reason, hgap⟩ := dirGaps_of_mem hdir
      rw [hgap] at h
      cases h
      rfl
    · rw [dirGaps_of_notMem hdir] at h
      cases h

/-! ### The full index -/

theorem recordPrunedDirs_files (c : CoverageCollector) : (w.recordPrunedDirs c).files = c.files :=
  Run.foldl_invariant (fun _ (c' : CoverageCollector) => c'.files = c.files) rfl
    fun _ _ _ _ _ h => h

/-- The gaps a full index has collected when it asks Cargo. -/
def collected (ip : IacParsers) (w : Codebase) (outcomes : List (Str × ParseOutcome)) : GapMap :=
  (foldIacGaps (outcomes.foldl recordOutcome (w.recordPrunedDirs (w.recordDirs .default)))
    (runIacPassFor ip w.files)).files

theorem getElem?_collected (hw : w.Plain) (rel : Str) :
    (collected ip w (w.files.map fun f => (f.relativePath, outcomeOf ps policy f)))[rel]? =
      baseGap ps ip policy w rel := by
  have hentries : (w.files.map fun f => (f.relativePath, outcomeOf ps policy f)) =
      w.files.map fun f => (f.relId, outcomeOf ps policy f) :=
    List.map_congr_left fun f hf => by rw [hw.relId hf]
  have hparse : ((w.files.map fun f => (f.relativePath, outcomeOf ps policy f)).foldl recordOutcome
      (w.recordPrunedDirs (w.recordDirs .default))).files =
        overlay (entriesOf SourceFile.relId (fun f => (outcomeOf ps policy f).gap) w.files)
          w.dirGaps := by
    rw [hentries, foldl_files recordOutcome_files, entriesOf_map, recordPrunedDirs_files]
    rfl
  by_cases hrel : rel ∈ w.files.map SourceFile.relId
  · obtain ⟨f, hf, rfl⟩ := List.mem_map.mp hrel
    rw [collected, getElem?_foldIacGaps hw.nodup _ hf, hparse,
      getElem?_overlay_entriesOf hw.nodup _ hf, dirGaps_of_notMem (hw.notMem_dirKeys hf),
      Option.or_none, baseGap_file hw hf, fileGap]
  · rw [collected, getElem?_foldIacGaps_of_notMem _ hrel, hparse,
      getElem?_overlay_entriesOf_of_notMem _ hrel, baseGap_other hrel]

/-- What Cargo tells, the stronger bucket first. -/
def cargoEntries (found : CargoAttributions) : List (Str × FileCoverage) :=
  found.outsideTargets.map outsideTargetsGap ++ found.featureGated.map featureGatedGap

theorem getElem?_recordCargoGaps (found : CargoAttributions) (files : GapMap) (rel : Str) :
    (recordCargoGaps found files)[rel]? = (files[rel]?).or ((cargoEntries found).lookup rel) := by
  have hfill : recordCargoGaps found files = fill (cargoEntries found) files := by
    rw [cargoEntries, fill, List.foldl_append]
    rfl
  rw [hfill, getElem?_fill]

theorem recomputed_cargo {found : CargoAttributions} {rel : Str} {gap : FileCoverage}
    (h : (cargoEntries found).lookup rel = some gap) :
    recomputed gap.kind = true ∧ gap.kind ≠ .unlinkedFile := by
  have hmem := Assoc.mem_of_lookup h
  rw [cargoEntries, List.mem_append, List.mem_map, List.mem_map] at hmem
  rcases hmem with ⟨_, -, heq⟩ | ⟨_, -, heq⟩
  · cases heq
    exact ⟨rfl, by simp⟩
  · cases heq
    exact ⟨rfl, by simp⟩

end Lookup

end AutomatisedPipeline.Indexer

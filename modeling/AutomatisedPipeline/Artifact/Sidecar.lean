import AutomatisedPipeline.Artifact.Export
import AutomatisedPipeline.Logic.Run

/-!
When the sidecar describes its archive.

The archive and the sidecar are put in place by two renames. Between them, and after an
export that ends between them, the new archive stands beside the sidecar of an earlier
export: the pair is torn. A torn pair goes unnoticed where that sidecar names HEAD.

`sidecar_describes_archive_iff` says when no state of a run shows such a pair: HEAD does
not come to what the sidecar of a torn pair records, and no archive is renamed into place
while the sidecar there names HEAD. What the stages of an export leave for the next one
is `StageInv`; `step_inv` keeps it, and the run theorem follows by `forall_mem_scanl_iff`.
-/

namespace AutomatisedPipeline.Artifact

open Text Freshness

/-! ### Pairs of an archive and a sidecar -/

/-- Where a bootstrap finds an artifact and sees no staleness of the commit that the
sidecar records, the archive in place is the one of the export that wrote the sidecar. -/
def Described (commitsBetween : Str → Str → Option Nat) (repo : Repo) : Prop :=
  artifactExists repo = true →
    ∀ data, readMeta repo.migrateLegacyDir = some data →
      artifactStaleness repo.head commitsBetween data.commit = none →
        ∃ archive sidecar,
          repo.migrateLegacyDir.current.bind ArtifactDir.archive = some archive ∧
          repo.migrateLegacyDir.current.bind ArtifactDir.sidecar = some sidecar ∧
          sidecar.data = some data ∧ archive.writer = sidecar.writer

/-- The archive in place and the sidecar in place are of two exports. -/
def Repo.Torn (repo : Repo) : Prop :=
  ∃ archive sidecar,
    repo.current.bind ArtifactDir.archive = some archive ∧
    repo.current.bind ArtifactDir.sidecar = some sidecar ∧
    0 < archive.length ∧ archive.writer ≠ sidecar.writer

/-- The sidecar in place is one a bootstrap takes when HEAD is `head`: its schema is
known, and there is no HEAD to compare with or it records that commit. -/
def Repo.NamesHead (repo : Repo) (head : Option Str) : Prop :=
  ∃ data, readMeta repo = some data ∧ data.schemaVersion ≤ schemaVersion ∧
    (head = none ∨ data.commit ≠ [] ∧ head = some data.commit)

/-- HEAD does not come to what the sidecar of a torn pair records, and no archive is
renamed into place beside a sidecar that names HEAD. -/
def KeepsPair (repo : Repo) : Event → Prop
  | .checkout head => repo.Torn → ¬ repo.NamesHead head
  | .succeed =>
      (∃ r, repo.running = some r ∧ r.stage = .renameArchive) → ¬ repo.NamesHead repo.head
  | _ => True

/-- A repository with no export under way: the files of an artifact directory, if there
are some, are of one export. -/
structure Intact (repo : Repo) : Prop where
  idle : repo.running = none
  paired : ∀ dir, repo.current = some dir ∨ repo.legacy = some dir →
    ∀ archive sidecar, dir.archive = some archive → dir.sidecar = some sidecar →
      archive.writer = sidecar.writer
  earlier : ∀ dir, repo.current = some dir ∨ repo.legacy = some dir →
    ∀ sidecar, dir.sidecar = some sidecar → sidecar.writer < repo.exports

/-! ### Reading a repository -/

theorem artifactStaleness_eq_none_iff {head : Option Str}
    {commitsBetween : Str → Str → Option Nat} {sha : Str} :
    artifactStaleness head commitsBetween sha = none ↔
      head = none ∨ sha ≠ [] ∧ head = some sha := by
  cases head with
  | none => simp [artifactStaleness]
  | some headSha =>
      rw [artifactStaleness]
      split
      · rename_i h
        obtain ⟨hne, rfl⟩ : sha ≠ [] ∧ sha = headSha := by simpa using h
        simp [hne]
      · rename_i h
        have hdiff : ¬ (sha ≠ [] ∧ some headSha = some sha) := by
          rintro ⟨hne, heq⟩
          obtain rfl : headSha = sha := by simpa using heq
          exact h (by simpa using hne)
        exact iff_of_false (by simp) (by simpa using hdiff)

theorem artifactExists_iff {repo : Repo} :
    artifactExists repo = true ↔
      ∃ archive data, repo.migrateLegacyDir.current.bind ArtifactDir.archive = some archive ∧
        0 < archive.length ∧ readMeta repo.migrateLegacyDir = some data ∧
        data.schemaVersion ≤ schemaVersion := by
  rw [artifactExists]
  cases harchive : repo.migrateLegacyDir.current.bind ArtifactDir.archive with
  | none => simp
  | some archive =>
      cases hmeta : readMeta repo.migrateLegacyDir with
      | none => simp
      | some data => simp

theorem readMeta_eq_some_iff {repo : Repo} {data : ArtifactMeta} :
    readMeta repo = some data ↔
      ∃ sidecar, repo.current.bind ArtifactDir.sidecar = some sidecar ∧
        sidecar.data = some data := by
  rw [readMeta, Option.bind_eq_some_iff]

/-- The legacy directory moves only where there is no current one. -/
theorem migrateLegacyDir_cases (repo : Repo) :
    repo.migrateLegacyDir = repo ∨
      ∃ dir, repo.current = none ∧ repo.legacy = some dir ∧
        repo.migrateLegacyDir = { repo with current := some dir, legacy := none } := by
  rw [Repo.migrateLegacyDir]
  split
  · rename_i dir hcurrent hlegacy
    exact .inr ⟨dir, hcurrent, hlegacy, rfl⟩
  · exact .inl rfl

theorem migrateLegacyDir_migrateLegacyDir (repo : Repo) :
    repo.migrateLegacyDir.migrateLegacyDir = repo.migrateLegacyDir := by
  rcases migrateLegacyDir_cases repo with h | ⟨dir, -, -, h⟩
  · rw [h, h]
  · rw [h]
    rfl

@[simp] theorem head_migrateLegacyDir (repo : Repo) : repo.migrateLegacyDir.head = repo.head := by
  rcases migrateLegacyDir_cases repo with h | ⟨dir, -, -, h⟩ <;> rw [h]

@[simp] theorem exports_migrateLegacyDir (repo : Repo) :
    repo.migrateLegacyDir.exports = repo.exports := by
  rcases migrateLegacyDir_cases repo with h | ⟨dir, -, -, h⟩ <;> rw [h]

@[simp] theorem running_migrateLegacyDir (repo : Repo) :
    repo.migrateLegacyDir.running = repo.running := by
  rcases migrateLegacyDir_cases repo with h | ⟨dir, -, -, h⟩ <;> rw [h]

theorem described_migrateLegacyDir_iff {commitsBetween : Str → Str → Option Nat} {repo : Repo} :
    Described commitsBetween repo.migrateLegacyDir ↔ Described commitsBetween repo := by
  rw [Described, Described, artifactExists, artifactExists, migrateLegacyDir_migrateLegacyDir,
    head_migrateLegacyDir]

/-! ### The invariant -/

/-- Every sidecar in a directory is of an export before number `n`. -/
def SidecarsBefore (repo : Repo) (n : Nat) : Prop :=
  ∀ dir, repo.current = some dir ∨ repo.legacy = some dir →
    ∀ sidecar, dir.sidecar = some sidecar → sidecar.writer < n

/-- What the stages of export `r` have left on the disk. -/
def StageInv (repo : Repo) (r : Running) : Prop :=
  match r.stage with
  | .migrateLegacyDir | .findGraph | .createDir => SidecarsBefore repo r.number
  | .writeArchive => SidecarsBefore repo r.number ∧ ∃ dir, repo.current = some dir
  | .renameArchive =>
      SidecarsBefore repo r.number ∧
        ∃ dir, repo.current = some dir ∧
          dir.archiveTmp = some ⟨r.number, r.job.compressedBytes⟩
  | .gitHead | .writeMeta _ =>
      ∃ dir archive, repo.current = some dir ∧ dir.archive = some archive ∧
        archive.writer = r.number
  | .renameMeta =>
      ∃ dir archive data, repo.current = some dir ∧ dir.archive = some archive ∧
        archive.writer = r.number ∧ dir.sidecarTmp = some ⟨r.number, data⟩
  | .ensureGitattributes => True

/-- The legacy directory holds one export, sidecars come from exports that have begun,
and the running export has left what its stage says. -/
structure Inv (repo : Repo) : Prop where
  legacy : ∀ dir, repo.legacy = some dir → ∀ archive sidecar, dir.archive = some archive →
    dir.sidecar = some sidecar → archive.writer = sidecar.writer
  begun : SidecarsBefore repo repo.exports
  running : ∀ r, repo.running = some r → r.number < repo.exports ∧ StageInv repo r

theorem SidecarsBefore.mono {repo repo' : Repo} {n : Nat} (h : SidecarsBefore repo n)
    (hcurrent : ∀ dir, repo'.current = some dir → ∀ sidecar, dir.sidecar = some sidecar →
      ∃ dir', (repo.current = some dir' ∨ repo.legacy = some dir') ∧ dir'.sidecar = some sidecar)
    (hlegacy : ∀ dir, repo'.legacy = some dir → repo.legacy = some dir) :
    SidecarsBefore repo' n := by
  rintro dir (hdir | hdir) sidecar hsidecar
  · obtain ⟨dir', hdir', hsidecar'⟩ := hcurrent dir hdir sidecar hsidecar
    exact h dir' hdir' sidecar hsidecar'
  · exact h dir (.inr (hlegacy dir hdir)) sidecar hsidecar

theorem SidecarsBefore.migrateLegacyDir {repo : Repo} {n : Nat} (h : SidecarsBefore repo n) :
    SidecarsBefore repo.migrateLegacyDir n := by
  rcases migrateLegacyDir_cases repo with heq | ⟨dir, -, hlegacy, heq⟩
  · rwa [heq]
  · rw [heq]
    refine h.mono (fun dir' hdir' sidecar hsidecar => ?_) (by simp)
    obtain rfl : dir = dir' := by simpa using hdir'
    exact ⟨dir, .inr hlegacy, hsidecar⟩

/-- An edit that leaves the sidecar in place, or there is none. -/
theorem SidecarsBefore.edit {repo : Repo} {n : Nat} (h : SidecarsBefore repo n)
    {f : ArtifactDir → ArtifactDir} (hf : ∀ dir, (f dir).sidecar = dir.sidecar) :
    SidecarsBefore (repo.edit f) n := by
  refine h.mono (fun dir hdir sidecar hsidecar => ?_) fun dir hdir => hdir
  obtain ⟨dir', hdir', rfl⟩ := Option.map_eq_some_iff.mp hdir
  exact ⟨dir', .inl hdir', by rwa [hf] at hsidecar⟩

/-- What the stage of an export says is about the files only, and a directory moves only
where there is no current one. -/
theorem StageInv.migrateLegacyDir {repo : Repo} {r : Running} (h : StageInv repo r) :
    StageInv repo.migrateLegacyDir r := by
  have hkeep {dir : ArtifactDir} (hdir : repo.current = some dir) :
      repo.migrateLegacyDir = repo := by
    rcases migrateLegacyDir_cases repo with heq | ⟨dir', hnone, -, -⟩
    · exact heq
    · rw [hdir] at hnone
      cases hnone
  obtain ⟨number, job, stage⟩ := r
  cases stage with
  | migrateLegacyDir | findGraph | createDir => exact SidecarsBefore.migrateLegacyDir h
  | writeArchive =>
      have hfiles := h
      obtain ⟨-, dir, hdir⟩ := hfiles
      rwa [hkeep hdir]
  | renameArchive =>
      have hfiles := h
      obtain ⟨-, dir, hdir, -⟩ := hfiles
      rwa [hkeep hdir]
  | gitHead | writeMeta _ =>
      have hfiles := h
      obtain ⟨dir, archive, hdir, -⟩ := hfiles
      rwa [hkeep hdir]
  | renameMeta =>
      have hfiles := h
      obtain ⟨dir, archive, data, hdir, -⟩ := hfiles
      rwa [hkeep hdir]
  | ensureGitattributes => trivial

theorem Inv.migrateLegacyDir {repo : Repo} (h : Inv repo) : Inv repo.migrateLegacyDir where
  legacy := by
    intro dir hdir
    rcases migrateLegacyDir_cases repo with heq | ⟨dir', -, -, heq⟩
    · rw [heq] at hdir
      exact h.legacy dir hdir
    · rw [heq] at hdir
      cases hdir
  begun := by
    rw [exports_migrateLegacyDir]
    exact h.begun.migrateLegacyDir
  running := by
    intro r hr
    rw [running_migrateLegacyDir] at hr
    rw [exports_migrateLegacyDir]
    exact ⟨(h.running r hr).1, (h.running r hr).2.migrateLegacyDir⟩

/-- An export that ends leaves nothing that a later one relies on. -/
theorem Inv.finish {repo : Repo} (h : Inv repo) : Inv repo.finish where
  legacy := h.legacy
  begun := h.begun
  running := by
    intro r hr
    cases hr

theorem Inv.goTo {repo : Repo} (h : Inv repo) {r : Running} {stage : Stage}
    (hnumber : r.number < repo.exports) (hstage : StageInv repo { r with stage }) :
    Inv (repo.goTo r stage) where
  legacy := h.legacy
  begun := h.begun
  running := by
    intro r' hr'
    obtain rfl : { r with stage } = r' := by simpa [Repo.goTo] using hr'
    exact ⟨hnumber, hstage⟩

/-- An edit of the files between two stages. -/
theorem Inv.finish_edit {repo : Repo} (h : Inv repo) {f : ArtifactDir → ArtifactDir}
    (hf : ∀ dir, (f dir).sidecar = dir.sidecar) : Inv (repo.edit f).finish where
  legacy := h.legacy
  begun := h.begun.edit hf
  running := by
    intro r hr
    cases hr

theorem Inv.goTo_edit {repo : Repo} (h : Inv repo) {f : ArtifactDir → ArtifactDir} {r : Running}
    {stage : Stage} (hnumber : r.number < repo.exports)
    (hbegun : SidecarsBefore (repo.edit f) repo.exports)
    (hstage : StageInv (repo.edit f) { r with stage }) : Inv ((repo.edit f).goTo r stage) where
  legacy := h.legacy
  begun := hbegun
  running := by
    intro r' hr'
    obtain rfl : { r with stage } = r' := by simpa [Repo.goTo] using hr'
    exact ⟨hnumber, hstage⟩

theorem ArtifactDir.placeArchive_eq {dir : ArtifactDir} {archive : Archive}
    (h : dir.archiveTmp = some archive) :
    dir.placeArchive = { dir with archive := some archive, archiveTmp := none } := by
  rw [placeArchive, h]

theorem ArtifactDir.sidecar_placeArchive (dir : ArtifactDir) :
    dir.placeArchive.sidecar = dir.sidecar := by
  rw [placeArchive]
  split <;> rfl

theorem ArtifactDir.placeSidecar_eq {dir : ArtifactDir} {sidecar : Sidecar}
    (h : dir.sidecarTmp = some sidecar) :
    dir.placeSidecar = { dir with sidecar := some sidecar, sidecarTmp := none } := by
  rw [placeSidecar, h]

/-- The next operation of the running export keeps the invariant. -/
theorem inv_advance {repo : Repo} (h : Inv repo) {r : Running} (hr : repo.running = some r) :
    Inv (repo.advance r) := by
  obtain ⟨hnumber, hstage⟩ := h.running r hr
  obtain ⟨number, job, stage⟩ := r
  cases stage with
  | migrateLegacyDir =>
      exact h.migrateLegacyDir.goTo (by simpa using hnumber) (StageInv.migrateLegacyDir hstage)
  | findGraph =>
      simp only [Repo.advance]
      split
      · exact h.goTo hnumber hstage
      · exact h.finish
  | createDir =>
      have hcreated {n : Nat} (hn : SidecarsBefore repo n) :
          SidecarsBefore { repo with current := some (repo.current.getD .empty) } n := by
        refine hn.mono (fun dir hdir sidecar hsidecar => ?_) fun dir hdir => hdir
        obtain rfl : repo.current.getD .empty = dir := by simpa using hdir
        cases hcurrent : repo.current with
        | none =>
            rw [hcurrent] at hsidecar
            cases hsidecar
        | some dir =>
            rw [hcurrent] at hsidecar
            exact ⟨dir, .inl rfl, hsidecar⟩
      exact {
        legacy := h.legacy
        begun := hcreated h.begun
        running := by
          intro r' hr'
          obtain rfl : (⟨number, job, .writeArchive⟩ : Running) = r' := by
            simpa [Repo.advance, Repo.goTo] using hr'
          exact ⟨hnumber, hcreated hstage, _, rfl⟩ }
  | writeArchive =>
      obtain ⟨hbefore, dir, hdir⟩ := hstage
      have hf : ∀ d : ArtifactDir,
          { d with archiveTmp := some ⟨number, job.compressedBytes⟩ }.sidecar = d.sidecar :=
        fun _ => rfl
      refine h.goTo_edit hnumber (h.begun.edit hf) ⟨hbefore.edit hf, ?_⟩
      exact ⟨_, by rw [Repo.edit, hdir, Option.map_some], rfl⟩
  | renameArchive =>
      obtain ⟨hbefore, dir, hdir, htmp⟩ := hstage
      refine h.goTo_edit hnumber (h.begun.edit ArtifactDir.sidecar_placeArchive) ?_
      exact ⟨_, _, by rw [Repo.edit, hdir, Option.map_some, ArtifactDir.placeArchive_eq htmp],
        rfl, rfl⟩
  | gitHead => exact h.goTo hnumber hstage
  | writeMeta data =>
      obtain ⟨dir, archive, hdir, harchive, hwriter⟩ := hstage
      have hf : ∀ d : ArtifactDir,
          { d with sidecarTmp := some ⟨number, some data⟩ }.sidecar = d.sidecar :=
        fun _ => rfl
      refine h.goTo_edit hnumber (h.begun.edit hf) ?_
      exact ⟨{ dir with sidecarTmp := some ⟨number, some data⟩ }, archive, some data,
        by rw [Repo.edit, hdir, Option.map_some], harchive, hwriter, rfl⟩
  | renameMeta =>
      obtain ⟨dir, archive, data, hdir, harchive, hwriter, htmp⟩ := hstage
      refine h.goTo_edit hnumber ?_ trivial
      rintro dir' (hdir' | hdir') sidecar hsidecar
      · rw [Repo.edit, hdir, Option.map_some, ArtifactDir.placeSidecar_eq htmp] at hdir'
        obtain rfl := Option.some.inj hdir'
        obtain rfl := Option.some.inj hsidecar
        exact hnumber
      · exact h.begun dir' (.inr hdir') sidecar hsidecar
  | ensureGitattributes => exact h.finish

theorem inv_abandon {repo : Repo} (h : Inv repo) {r : Running} (hr : repo.running = some r)
    (left : Bool) : Inv (repo.abandon r left) := by
  obtain ⟨hnumber, hstage⟩ := h.running r hr
  obtain ⟨number, job, stage⟩ := r
  cases stage with
  | migrateLegacyDir => exact h.goTo hnumber hstage
  | findGraph | createDir | ensureGitattributes => exact h.finish
  | gitHead => exact h.goTo hnumber hstage
  | writeArchive | renameArchive | writeMeta _ | renameMeta => exact h.finish_edit fun _ => rfl

theorem step_inv {repo : Repo} (h : Inv repo) (event : Event) : Inv (repo.step event) := by
  cases event with
  | checkout head => exact ⟨h.legacy, h.begun, h.running⟩
  | begin job =>
      cases hr : repo.running with
      | some r => simpa only [Repo.step, hr] using h
      | none =>
          simp only [Repo.step, hr]
          exact {
            legacy := h.legacy
            begun := fun dir hdir sidecar hsidecar =>
              Nat.lt_succ_of_lt (h.begun dir hdir sidecar hsidecar)
            running := by
              rintro r ⟨⟩
              exact ⟨Nat.lt_succ_self _, h.begun⟩ }
  | succeed =>
      cases hr : repo.running with
      | none => simpa only [Repo.step, hr] using h
      | some r =>
          simp only [Repo.step, hr]
          exact inv_advance h hr
  | fail left =>
      cases hr : repo.running with
      | none => simpa only [Repo.step, hr] using h
      | some r =>
          simp only [Repo.step, hr]
          exact inv_abandon h hr left
  | stop =>
      simp only [Repo.step]
      exact h.finish
  | look =>
      simp only [Repo.step]
      exact h.migrateLegacyDir

/-! ### One step -/

/-- What stands in the artifact directory. -/
def Repo.inPlace (repo : Repo) : Option Archive × Option Sidecar :=
  (repo.current.bind ArtifactDir.archive, repo.current.bind ArtifactDir.sidecar)

theorem torn_congr {repo repo' : Repo} (h : repo'.inPlace = repo.inPlace) :
    repo'.Torn ↔ repo.Torn := by
  simp only [Repo.inPlace, Prod.mk.injEq] at h
  rw [Repo.Torn, Repo.Torn, h.1, h.2]

theorem namesHead_congr {repo repo' : Repo} (h : repo'.inPlace.2 = repo.inPlace.2)
    (head : Option Str) : repo'.NamesHead head ↔ repo.NamesHead head := by
  simp only [Repo.inPlace] at h
  rw [Repo.NamesHead, Repo.NamesHead, readMeta, readMeta, h]

variable {commitsBetween : Str → Str → Option Nat}

/-- The sidecar describes the archive exactly when the pair is whole or the sidecar
records another commit than HEAD. -/
theorem described_iff {repo : Repo} (h : Inv repo) :
    Described commitsBetween repo ↔ (repo.Torn → ¬ repo.NamesHead repo.head) := by
  cases hcurrent : repo.current with
  | none =>
      refine iff_of_true ?_ fun htorn => ?_
      · intro hexists data hdata _
        obtain ⟨archive, -, harchive, -⟩ := artifactExists_iff.mp hexists
        obtain ⟨sidecar, hsidecar, hparsed⟩ := readMeta_eq_some_iff.mp hdata
        refine ⟨archive, sidecar, harchive, hsidecar, hparsed, ?_⟩
        rcases migrateLegacyDir_cases repo with heq | ⟨dir, -, hlegacy, heq⟩
        · rw [heq, hcurrent] at harchive
          cases harchive
        · rw [heq] at harchive hsidecar
          exact h.legacy dir hlegacy archive sidecar harchive hsidecar
      · obtain ⟨archive, -, harchive, -⟩ := htorn
        rw [hcurrent] at harchive
        cases harchive
  | some dir =>
      have hkeep : repo.migrateLegacyDir = repo := by
        rcases migrateLegacyDir_cases repo with heq | ⟨dir', hnone, -, -⟩
        · exact heq
        · rw [hcurrent] at hnone
          cases hnone
      constructor
      · rintro hdescribed ⟨archive, sidecar, harchive, hsidecar, hlength, hne⟩
          ⟨data, hdata, hschema, hhead⟩
        have hexists : artifactExists repo = true := by
          rw [artifactExists_iff, hkeep]
          exact ⟨archive, data, harchive, hlength, hdata, hschema⟩
        obtain ⟨archive', sidecar', harchive', hsidecar', -, heq⟩ :=
          hdescribed hexists data (by rwa [hkeep]) (artifactStaleness_eq_none_iff.mpr hhead)
        rw [hkeep, harchive] at harchive'
        rw [hkeep, hsidecar] at hsidecar'
        obtain rfl := Option.some.inj harchive'
        obtain rfl := Option.some.inj hsidecar'
        exact hne heq
      · intro hwhole hexists data hdata hfresh
        obtain ⟨archive, data', harchive, hlength, hdata', hschema⟩ := artifactExists_iff.mp hexists
        obtain rfl := Option.some.inj (hdata.symm.trans hdata')
        obtain ⟨sidecar, hsidecar, hparsed⟩ := readMeta_eq_some_iff.mp hdata
        refine ⟨archive, sidecar, harchive, hsidecar, hparsed, ?_⟩
        rw [hkeep] at harchive hsidecar hdata
        by_contra hne
        exact hwhole ⟨archive, sidecar, harchive, hsidecar, hlength, hne⟩
          ⟨data, hdata, hschema, artifactStaleness_eq_none_iff.mp hfresh⟩

theorem described_of_inPlace {repo repo' : Repo} (h : Inv repo) (h' : Inv repo')
    (hplace : repo'.inPlace = repo.inPlace) (hhead : repo'.head = repo.head)
    (hdescribed : Described commitsBetween repo) : Described commitsBetween repo' := by
  rw [described_iff h', torn_congr hplace, namesHead_congr (congrArg Prod.snd hplace), hhead]
  exact (described_iff h).mp hdescribed

theorem inPlace_edit {repo : Repo} {f : ArtifactDir → ArtifactDir}
    (hf : ∀ dir, (f dir).archive = dir.archive ∧ (f dir).sidecar = dir.sidecar) :
    (repo.edit f).inPlace = repo.inPlace := by
  cases hcurrent : repo.current with
  | none => simp [Repo.inPlace, Repo.edit, hcurrent]
  | some dir => simp [Repo.inPlace, Repo.edit, hcurrent, hf]

/-- Renaming the archive into place tears the pair where there is a sidecar: it is of an
earlier export. -/
theorem described_renameArchive_iff {repo : Repo} (h : Inv repo) {r : Running}
    (hr : repo.running = some r) (hstage : r.stage = .renameArchive) :
    Described commitsBetween (repo.advance r) ↔ ¬ repo.NamesHead repo.head := by
  obtain ⟨number, job, stage⟩ := r
  obtain rfl : stage = .renameArchive := hstage
  have hinv := inv_advance h hr
  obtain ⟨hbefore, dir, hdir, htmp⟩ := (h.running _ hr).2
  have hplace : (repo.advance ⟨number, job, .renameArchive⟩).inPlace =
      (some ⟨number, job.compressedBytes⟩, repo.inPlace.2) := by
    simp [Repo.advance, Repo.goTo, Repo.inPlace, Repo.edit, hdir,
      ArtifactDir.placeArchive_eq htmp]
  have hnames : (repo.advance ⟨number, job, .renameArchive⟩).NamesHead repo.head ↔
      repo.NamesHead repo.head := namesHead_congr (by rw [hplace]) repo.head
  rw [described_iff hinv]
  constructor
  · intro hwhole hhead
    refine hwhole ?_ (hnames.mpr hhead)
    obtain ⟨data, hdata, -⟩ := hhead
    obtain ⟨sidecar, hsidecar, -⟩ := readMeta_eq_some_iff.mp hdata
    refine ⟨⟨number, job.compressedBytes⟩, sidecar, congrArg Prod.fst hplace,
      (congrArg Prod.snd hplace).trans hsidecar, job.nonempty, ?_⟩
    rw [hdir] at hsidecar
    have hlt : sidecar.writer < number := hbefore dir (.inl hdir) sidecar hsidecar
    exact Nat.ne_of_gt hlt
  · intro hhead _
    exact hnames.not.mpr hhead

/-- Renaming the sidecar into place makes the pair whole. -/
theorem described_renameMeta {repo : Repo} (h : Inv repo) {r : Running}
    (hr : repo.running = some r) (hstage : r.stage = .renameMeta) :
    Described commitsBetween (repo.advance r) := by
  obtain ⟨number, job, stage⟩ := r
  obtain rfl : stage = .renameMeta := hstage
  obtain ⟨dir, archive, data, hdir, harchive, hwriter, htmp⟩ := (h.running _ hr).2
  rw [described_iff (inv_advance h hr)]
  rintro ⟨archive', sidecar', harchive', hsidecar', -, hne⟩
  simp only [Repo.advance, Repo.goTo, Repo.edit, hdir, Option.map_some, Option.bind_some,
    ArtifactDir.placeSidecar_eq htmp, Option.some.injEq] at harchive' hsidecar'
  rw [harchive, Option.some.injEq] at harchive'
  subst harchive' hsidecar'
  exact absurd hwriter hne

/-- Every other operation leaves what stands in place, or moves the legacy directory. -/
theorem described_advance {repo : Repo} (h : Inv repo) {r : Running}
    (hr : repo.running = some r) (hstage : r.stage ≠ .renameArchive)
    (hdescribed : Described commitsBetween repo) :
    Described commitsBetween (repo.advance r) := by
  have hinv := inv_advance h hr
  obtain ⟨number, job, stage⟩ := r
  cases stage with
  | migrateLegacyDir =>
      exact described_of_inPlace h.migrateLegacyDir hinv rfl rfl
        (described_migrateLegacyDir_iff.mpr hdescribed)
  | findGraph =>
      refine described_of_inPlace h hinv ?_ ?_ hdescribed
      all_goals
        simp only [Repo.advance]
        split <;> rfl
  | createDir =>
      refine described_of_inPlace h hinv ?_ rfl hdescribed
      cases hcurrent : repo.current <;>
        simp [Repo.advance, Repo.goTo, Repo.inPlace, hcurrent, ArtifactDir.empty]
  | writeArchive =>
      exact described_of_inPlace h hinv (inPlace_edit fun _ => ⟨rfl, rfl⟩) rfl hdescribed
  | renameArchive => exact absurd rfl hstage
  | gitHead => exact described_of_inPlace h hinv rfl rfl hdescribed
  | writeMeta data =>
      exact described_of_inPlace h hinv (inPlace_edit fun _ => ⟨rfl, rfl⟩) rfl hdescribed
  | renameMeta => exact described_renameMeta h hr rfl
  | ensureGitattributes => exact described_of_inPlace h hinv rfl rfl hdescribed

theorem described_abandon {repo : Repo} (h : Inv repo) {r : Running}
    (hr : repo.running = some r) (left : Bool) (hdescribed : Described commitsBetween repo) :
    Described commitsBetween (repo.abandon r left) := by
  have hinv := inv_abandon h hr left
  obtain ⟨number, job, stage⟩ := r
  cases stage with
  | migrateLegacyDir | findGraph | createDir | gitHead | ensureGitattributes =>
      exact described_of_inPlace h hinv rfl rfl hdescribed
  | writeArchive | renameArchive | writeMeta _ | renameMeta =>
      exact described_of_inPlace h hinv (inPlace_edit fun _ => ⟨rfl, rfl⟩) rfl hdescribed

/-- A step keeps the sidecar true exactly when it meets the condition. -/
theorem described_step_iff {repo : Repo} (event : Event) (h : Inv repo)
    (hdescribed : Described commitsBetween repo) :
    Described commitsBetween (repo.step event) ↔ KeepsPair repo event := by
  have hinv := step_inv h event
  cases event with
  | checkout head => exact described_iff hinv
  | begin job =>
      refine iff_of_true (described_of_inPlace h hinv ?_ ?_ hdescribed) trivial
      all_goals cases hr : repo.running <;> simp only [Repo.step, hr] <;> rfl
  | succeed =>
      cases hr : repo.running with
      | none =>
          simp only [Repo.step, KeepsPair, hr]
          simpa using hdescribed
      | some r =>
          simp only [Repo.step, KeepsPair, hr]
          by_cases hstage : r.stage = .renameArchive
          · rw [described_renameArchive_iff h hr hstage]
            simp [hstage]
          · refine iff_of_true (described_advance h hr hstage hdescribed) ?_
            rintro ⟨r', hr', hstage'⟩
            obtain rfl := Option.some.inj hr'
            exact absurd hstage' hstage
  | fail left =>
      refine iff_of_true ?_ trivial
      cases hr : repo.running with
      | none => simpa only [Repo.step, hr] using hdescribed
      | some r =>
          simp only [Repo.step, hr]
          exact described_abandon h hr left hdescribed
  | stop => exact iff_of_true (described_of_inPlace h hinv rfl rfl hdescribed) trivial
  | look => exact iff_of_true (described_migrateLegacyDir_iff.mpr hdescribed) trivial

/-! ### Runs -/

theorem Intact.inv {repo : Repo} (h : Intact repo) : Inv repo where
  legacy := fun dir hdir => h.paired dir (.inr hdir)
  begun := h.earlier
  running := by
    intro r hr
    rw [h.idle] at hr
    cases hr

theorem Intact.described {repo : Repo} (h : Intact repo) : Described commitsBetween repo := by
  rw [described_iff h.inv]
  rintro ⟨archive, sidecar, harchive, hsidecar, -, hne⟩
  obtain ⟨dir, hdir, harchive⟩ := Option.bind_eq_some_iff.mp harchive
  rw [hdir] at hsidecar
  exact absurd (h.paired dir (.inl hdir) archive sidecar harchive hsidecar) hne

/-- In every state of a run the sidecar describes the archive exactly when HEAD never
comes to what the sidecar of a torn pair records and no archive is renamed into place
beside a sidecar that names HEAD. -/
theorem sidecar_describes_archive_iff (commitsBetween : Str → Str → Option Nat) (repo : Repo)
    (h : Intact repo) (events : List Event) :
    (∀ state ∈ events.scanl Repo.step repo, Described commitsBetween state) ↔
      Run.EveryStep Repo.step KeepsPair repo events :=
  Run.forall_mem_scanl_iff (fun _ event hinv => step_inv hinv event)
    (fun _ event hinv hgood => described_step_iff event hinv hgood) h.inv h.described events

/-- A repository without an artifact. -/
def Repo.bare (head : Str) : Repo := ⟨none, none, some head, 0, none⟩

theorem intact_bare (head : Str) : Intact (.bare head) where
  idle := rfl
  paired := by
    rintro dir (hdir | hdir) <;> cases hdir
  earlier := by
    rintro dir (hdir | hdir) <;> cases hdir

/-- The operations of an export up to the rename of its archive, and all of them. -/
def upToArchive : List Event := List.replicate 5 .succeed

def allOperations : List Event := List.replicate 9 .succeed

/-- An export of a graph of `n` nodes. -/
def exportOf (n : Nat) : Export where
  graphExists := true
  toolVersion := "1.0.0".toList
  nodeCount := n
  edgeCount := n
  originalBytes := 4096
  compressedBytes := 512
  nonempty := by decide

theorem sidecar_describes_archive_one_export :
    Intact (.bare ['a']) ∧
      ∀ state ∈ (.begin (exportOf 10) :: allOperations).scanl Repo.step (.bare ['a']),
        Described (fun _ _ => none) state := by
  refine ⟨intact_bare ['a'], (sidecar_describes_archive_iff _ _ (intact_bare ['a']) _).mpr ?_⟩
  refine ⟨trivial, ?_, ?_, ?_, ?_, ?rename, ?_, ?_, ?_, ?_, trivial⟩
  case rename =>
    rintro - ⟨data, hdata, -⟩
    cases hdata
  all_goals
    rintro ⟨r, hr, hstage⟩
    cases hr
    cases hstage

/-- An export at commit `a`; an export at commit `b` that stops before its sidecar is in
place; a checkout of `a`. -/
def tornRun : List Event :=
  .begin (exportOf 10) :: allOperations ++
    .checkout (some ['b']) :: .begin (exportOf 12) :: upToArchive ++
    [.stop, .checkout (some ['a'])]

/-- The archive of the second export passes for the one of the first. -/
theorem sidecar_of_the_earlier_export :
    ¬ ∀ repo, Intact repo → ∀ events : List Event, ∀ state ∈ events.scanl Repo.step repo,
      Described (fun _ _ => none) state := by
  intro h
  have hlast : tornRun.foldl Repo.step (.bare ['a']) ∈ tornRun.scanl Repo.step (.bare ['a']) :=
    List.mem_of_getLast? rfl
  obtain ⟨archive, sidecar, harchive, hsidecar, -, hwriter⟩ :=
    h (.bare ['a']) (intact_bare ['a']) tornRun _ hlast rfl
      ((exportOf 10).artifactMeta (some ['a'])) rfl rfl
  obtain rfl : (⟨1, 512⟩ : Archive) = archive := Option.some.inj harchive
  obtain rfl : (⟨0, some ((exportOf 10).artifactMeta (some ['a']))⟩ : Sidecar) = sidecar :=
    Option.some.inj hsidecar
  cases hwriter

end AutomatisedPipeline.Artifact

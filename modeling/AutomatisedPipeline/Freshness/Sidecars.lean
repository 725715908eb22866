import AutomatisedPipeline.Freshness.Check
import AutomatisedPipeline.Logic.Publish

/-!
The two sidecar files of a graph, as the runs write them (`indexing_handlers.rs`,
`analyze_handlers.rs`, `query_handlers/graph_paths.rs`, `atomic_file.rs`).

Any number of index and analyze runs write into one directory, each of them the manifest first and
`meta.json` last, which names the manifest that it saw. Their steps come in any order, each write may
fail, and each run may stop anywhere. In every state that is reached both files are whole, and what
`meta.json` names was put in place before (`Invariant.reaches`).

An import of an artifact unpacks a manifest in place, and is not a run here.
-/

namespace AutomatisedPipeline.Freshness.Pairing

open Text Publish

/-! ### The sidecar files -/

def manifestFile : Str := "file_manifest.json".toList

def metaFile : Str := "meta.json".toList

/-- The files that are replaced. -/
def IsSidecar (name : Str) : Prop := name = manifestFile ∨ name = metaFile

/-- What tells the temporary files apart: the process, the clock and a random suffix. -/
structure Stamp where
  pid : Nat
  secs : Nat
  nanos : Nat
  suffix : Str

/-- `tmp_name` in `atomic_write`. -/
def tmpName (fileName : Str) (stamp : Stamp) : Str :=
  '.' :: fileName ++ ".tmp.".toList ++ digits stamp.pid ++ '.' :: digits stamp.secs ++
    '.' :: digits stamp.nanos ++ '.' :: stamp.suffix

theorem not_isSidecar_tmpName (fileName : Str) (stamp : Stamp) :
    ¬ IsSidecar (tmpName fileName stamp) := by
  rintro (h | h) <;> cases congrArg List.head? h

/-- How the two files are written as JSON. -/
structure Codec where
  manifest : FileManifest → Bytes
  graphMeta : GraphMeta → Bytes

/-! ### The runs -/

/-- `index_codebase`, whose runs write `meta.json` where the manifest could not be written, and
`analyze_codebase`, whose runs do not. -/
inductive Handler where
  | index | analyze
deriving DecidableEq

/-- What a run is about: the indexed root, and the manifest of its files. -/
structure Request where
  handler : Handler
  root : Str
  manifest : FileManifest

/-- The attributes of a file. -/
def attrOf (inode : Inode UInt8) : FileAttr := ⟨inode.bytes.length, inode.modified⟩

/-- How far a run is. What it saw of the manifest is kept with the file that it saw. -/
inductive Phase where
  | saveManifest
  | statManifest
  | readHead (seen : Option (Nat × FileAttr))
  | writeMeta (seen : Option (Nat × FileAttr)) («meta» : GraphMeta)
  | finished

/-- The `meta` of `write_graph_meta`. -/
def composeMeta (root : Str) (seen : Option (Nat × FileAttr)) (commitSha : Option Str) :
    GraphMeta where
  root := root
  commitSha := commitSha
  manifestSize := seen.map fun s => s.2.size
  manifestMtimeNs := seen.map fun s => mtimeNs s.2

namespace Phase

/-- The file that is written in a phase, and its contents. -/
def writes (codec : Codec) (request : Request) : Phase → Option (Str × Bytes)
  | .saveManifest => some (manifestFile, codec.manifest request.manifest)
  | .writeMeta _ «meta» => some (metaFile, codec.graphMeta «meta»)
  | _ => none

/-- The phase after a write. -/
def written : Phase → Phase
  | .saveManifest => .statManifest
  | _ => .finished

/-- The phase after a write that failed: `persist_full_index_sidecars` goes on, and
`persist_analyze_sidecars` returns. -/
def failed (request : Request) : Phase → Phase
  | .saveManifest => if request.handler = .index then .statManifest else .finished
  | _ => .finished

/-- What the run saw of the manifest. -/
def seen : Phase → Option (Nat × FileAttr)
  | .readHead seen => seen
  | .writeMeta seen _ => seen
  | _ => none

end Phase

/-- The directory with the two files, and the runs that write into it. -/
structure System where
  disk : Disk Str UInt8 Nat
  runs : Nat → Option (Request × Phase)

namespace System

def start : System := ⟨.empty, fun _ => none⟩

def enter (sys : System) (w : Nat) (request : Request) (phase : Phase)
    (disk : Disk Str UInt8 Nat) : System where
  disk := disk
  runs := Function.update sys.runs w (some (request, phase))

@[simp] theorem runs_enter (sys : System) (w : Nat) (request : Request) (phase : Phase)
    (disk : Disk Str UInt8 Nat) :
    (sys.enter w request phase disk).runs w = some (request, phase) := Function.update_self ..

@[simp] theorem enter_enter (sys : System) (w : Nat) (request request' : Request)
    (phase phase' : Phase) (disk disk' : Disk Str UInt8 Nat) :
    (sys.enter w request phase disk).enter w request' phase' disk' =
      sys.enter w request' phase' disk' := by
  simp [enter]

end System

/-- What a failed write leaves: the temporary file, which a failed rename removes. -/
def GivesUp (w : Nat) (disk disk' : Disk Str UInt8 Nat) : Prop :=
  disk' = disk.abandon w ∨ ∃ draft, disk.drafts w = some draft ∧ disk' = disk.discard w draft

/-- One step of a run. -/
inductive Step (codec : Codec) (w : Nat) (sys : System) : System → Prop where
  | begin {request : Request} :
      sys.runs w = none → Step codec w sys (sys.enter w request .saveManifest sys.disk)
  /-- No two temporary files have one name. -/
  | create {request : Request} {phase : Phase} {file : Str} {contents : Bytes} {stamp : Stamp}
      {now : Option Int} :
      sys.runs w = some (request, phase) → phase.writes codec request = some (file, contents) →
        sys.disk.drafts w = none → tmpName file stamp ∉ sys.disk.used →
          Step codec w sys (sys.enter w request phase
            (sys.disk.create w (tmpName file stamp) contents now))
  | write {request : Request} {phase : Phase} {draft : Draft Str UInt8} {upTo : Nat}
      {now : Option Int} :
      sys.runs w = some (request, phase) → sys.disk.drafts w = some draft → draft.written ≤ upTo →
        Step codec w sys (sys.enter w request phase (sys.disk.write w draft upTo now))
  /-- The rename follows the write of the whole contents and the `fsync`. -/
  | rename {request : Request} {phase : Phase} {file : Str} {contents : Bytes}
      {draft : Draft Str UInt8} :
      sys.runs w = some (request, phase) → phase.writes codec request = some (file, contents) →
        sys.disk.drafts w = some draft → draft.contents.length ≤ draft.written →
          Step codec w sys (sys.enter w request phase.written (sys.disk.rename w draft file))
  | fail {request : Request} {phase : Phase} {file : Str} {contents : Bytes}
      {disk : Disk Str UInt8 Nat} :
      sys.runs w = some (request, phase) → phase.writes codec request = some (file, contents) →
        GivesUp w sys.disk disk →
          Step codec w sys (sys.enter w request (phase.failed request) disk)
  /-- An incremental index that failed: the full one writes its own manifest. -/
  | fallBack {request : Request} {disk : Disk Str UInt8 Nat} (manifest : FileManifest) :
      sys.runs w = some (request, .saveManifest) → request.handler = .index →
        GivesUp w sys.disk disk →
          Step codec w sys (sys.enter w { request with manifest } .saveManifest disk)
  | stat {request : Request} {i : Nat} {inode : Inode UInt8} :
      sys.runs w = some (request, .statManifest) → sys.disk.names manifestFile = some i →
        sys.disk.inodes i = some inode →
          Step codec w sys (sys.enter w request (.readHead (some (i, attrOf inode))) sys.disk)
  /-- There is no manifest, or its metadata could not be read. -/
  | statNone {request : Request} :
      sys.runs w = some (request, .statManifest) →
        Step codec w sys (sys.enter w request (.readHead none) sys.disk)
  | head {request : Request} {seen : Option (Nat × FileAttr)} (commitSha : Option Str) :
      sys.runs w = some (request, .readHead seen) →
        Step codec w sys (sys.enter w request
          (.writeMeta seen (composeMeta request.root seen commitSha)) sys.disk)
  /-- The process ends. -/
  | crash {request : Request} {phase : Phase} :
      sys.runs w = some (request, phase) →
        Step codec w sys (sys.enter w request .finished (sys.disk.abandon w))

/-- Steps of any runs, one after the other. -/
def Reaches (codec : Codec) : System → System → Prop :=
  Relation.ReflTransGen fun sys sys' => ∃ w, Step codec w sys sys'

/-! ### What holds of every state -/

/-- A disk that a later one has grown from: its log goes on, and its logged files are as they were. -/
structure Grows (disk disk' : Disk Str UInt8 Nat) : Prop where
  log : disk.log <+: disk'.log
  inodes : ∀ entry ∈ disk.log, disk'.inodes entry.inode = disk.inodes entry.inode

theorem Grows.refl (disk : Disk Str UInt8 Nat) : Grows disk disk := ⟨List.prefix_rfl, fun _ _ => rfl⟩

theorem Grows.trans {a b c : Disk Str UInt8 Nat} (hab : Grows a b) (hbc : Grows b c) :
    Grows a c where
  log := hab.log.trans hbc.log
  inodes entry h := (hbc.inodes entry (hab.log.subset h)).trans (hab.inodes entry h)

theorem grows_of_step {w : Nat} {disk disk' : Disk Str UInt8 Nat} (h : Sound IsSidecar disk)
    (hstep : Publish.Step IsSidecar w disk disk') : Grows disk disk' where
  log := by
    rcases hstep.log_eq with heq | ⟨entry, -, heq⟩
    · rw [heq]
    · exact heq ▸ List.prefix_append _ _
  inodes entry hentry := hstep.inodes_eq h hentry

/-- What a run saw was put in place as a manifest, and looks as it did. -/
def Seen (disk : Disk Str UInt8 Nat) (s : Nat × FileAttr) : Prop :=
  ∃ entry ∈ disk.log, entry.target = manifestFile ∧ entry.inode = s.1 ∧
    ∃ inode, disk.inodes s.1 = some inode ∧ attrOf inode = s.2

theorem Seen.mono {disk disk' : Disk Str UInt8 Nat} {s : Nat × FileAttr} (hgrows : Grows disk disk')
    (h : Seen disk s) : Seen disk' s := by
  obtain ⟨entry, hentry, htarget, hinode, inode, hbytes, hattr⟩ := h
  refine ⟨entry, hgrows.log.subset hentry, htarget, hinode, inode, ?_, hattr⟩
  rw [← hinode, hgrows.inodes entry hentry, hinode, hbytes]

/-- An entry of the log: a manifest, or a `meta.json` that some run put together. -/
def Wrote (codec : Codec) (disk : Disk Str UInt8 Nat) (entry : Entry Str UInt8 Nat) : Prop :=
  entry.target = manifestFile ∧ (∃ manifest, entry.contents = codec.manifest manifest) ∨
    entry.target = metaFile ∧ ∃ root seen commitSha,
      entry.contents = codec.graphMeta (composeMeta root seen commitSha) ∧
        ∀ s, seen = some s → Seen disk s

theorem Wrote.mono {codec : Codec} {disk disk' : Disk Str UInt8 Nat} {entry : Entry Str UInt8 Nat}
    (hgrows : Grows disk disk') (h : Wrote codec disk entry) : Wrote codec disk' entry := by
  refine h.imp_right fun ⟨htarget, root, seen, commitSha, hcontents, hseen⟩ => ?_
  exact ⟨htarget, root, seen, commitSha, hcontents, fun s hs => (hseen s hs).mono hgrows⟩

/-- What a run has of its own. -/
structure Own (codec : Codec) (disk : Disk Str UInt8 Nat) (w : Nat) (request : Request)
    (phase : Phase) : Prop where
  draft : ∀ draft, disk.drafts w = some draft →
    ∃ file, phase.writes codec request = some (file, draft.contents)
  seen : ∀ s, phase.seen = some s → Seen disk s
  composed : ∀ seen «meta», phase = .writeMeta seen «meta» →
    ∃ commitSha, «meta» = composeMeta request.root seen commitSha

structure Invariant (codec : Codec) (sys : System) : Prop where
  sound : Sound IsSidecar sys.disk
  idle : ∀ w, sys.runs w = none → sys.disk.drafts w = none
  own : ∀ w request phase, sys.runs w = some (request, phase) → Own codec sys.disk w request phase
  logged : ∀ entry ∈ sys.disk.log, Wrote codec sys.disk entry

section Invariant

variable {codec : Codec} {sys : System}

theorem Own.mono {disk disk' : Disk Str UInt8 Nat} {w : Nat} {request : Request} {phase : Phase}
    (h : Own codec disk w request phase) (hgrows : Grows disk disk')
    (hdrafts : disk'.drafts w = disk.drafts w) : Own codec disk' w request phase where
  draft := hdrafts ▸ h.draft
  seen s hs := (h.seen s hs).mono hgrows
  composed := h.composed

theorem invariant_start : Invariant codec .start where
  sound := Sound.empty
  idle _ _ := rfl
  own _ _ _ h := by cases h
  logged _ h := by cases h

/-- A step of a run keeps the others as they are. -/
theorem Invariant.enter (h : Invariant codec sys) {w : Nat} {request : Request} {phase : Phase}
    {disk : Disk Str UInt8 Nat} (hsound : Sound IsSidecar disk) (hgrows : Grows sys.disk disk)
    (hothers : ∀ v, v ≠ w → disk.drafts v = sys.disk.drafts v)
    (hown : Own codec disk w request phase)
    (hlog : ∀ entry ∈ disk.log, entry ∈ sys.disk.log ∨ Wrote codec disk entry) :
    Invariant codec (sys.enter w request phase disk) where
  sound := hsound
  idle v hv := by
    simp only [System.enter, Function.update_apply] at hv
    split at hv
    · cases hv
    · exact (hothers v ‹_›).trans (h.idle v hv)
  own v request' phase' hv := by
    simp only [System.enter, Function.update_apply] at hv
    split at hv
    · rename_i heq
      cases hv
      exact heq ▸ hown
    · exact (h.own v _ _ hv).mono hgrows (hothers v ‹_›)
  logged entry hentry := by
    rcases hlog entry hentry with hold | hnew
    · exact (h.logged entry hold).mono hgrows
    · exact hnew

theorem isSidecar_of_writes {request : Request} {phase : Phase} {file : Str} {contents : Bytes}
    (h : phase.writes codec request = some (file, contents)) : IsSidecar file := by
  cases phase with
  | saveManifest => exact .inl (congrArg Prod.fst (Option.some.inj h)).symm
  | writeMeta => exact .inr (congrArg Prod.fst (Option.some.inj h)).symm
  | statManifest => cases h
  | readHead => cases h
  | finished => cases h

/-- What a failed write leaves of the disk. -/
theorem GivesUp.spec {w : Nat} {disk disk' : Disk Str UInt8 Nat} (h : GivesUp w disk disk') :
    Publish.Step IsSidecar w disk disk' ∧ disk'.log = disk.log ∧ disk'.drafts w = none ∧
      ∀ v, v ≠ w → disk'.drafts v = disk.drafts v := by
  rcases h with rfl | ⟨draft, hdraft, rfl⟩
  · exact ⟨.abandon, rfl, Function.update_self .., fun v hv => Function.update_of_ne hv ..⟩
  · exact ⟨.discard hdraft, rfl, Function.update_self .., fun v hv => Function.update_of_ne hv ..⟩

theorem Invariant.giveUp (h : Invariant codec sys) {w : Nat} {request : Request} {phase : Phase}
    {disk : Disk Str UInt8 Nat} (hgives : GivesUp w sys.disk disk) (hseen : phase.seen = none)
    (hcomposed : ∀ seen «meta», phase ≠ .writeMeta seen «meta») :
    Invariant codec (sys.enter w request phase disk) := by
  obtain ⟨hstep, hlog, hdraft, hothers⟩ := hgives.spec
  refine h.enter (h.sound.step hstep) (grows_of_step h.sound hstep) hothers ⟨?_, ?_, ?_⟩ ?_
  · intro draft hw
    rw [hdraft] at hw
    cases hw
  · intro s hs
    rw [hseen] at hs
    cases hs
  · intro seen written hphase
    exact absurd hphase (hcomposed seen written)
  · exact fun entry hentry => .inl (hlog ▸ hentry)

/-- A step that leaves the disk as it is. -/
theorem Invariant.turn (h : Invariant codec sys) {w : Nat} {request : Request} {phase : Phase}
    (hdraft : sys.disk.drafts w = none) (hseen : ∀ s, phase.seen = some s → Seen sys.disk s)
    (hcomposed : ∀ seen «meta», phase = .writeMeta seen «meta» →
      ∃ commitSha, «meta» = composeMeta request.root seen commitSha) :
    Invariant codec (sys.enter w request phase sys.disk) := by
  refine h.enter h.sound (.refl _) (fun _ _ => rfl) ⟨?_, hseen, hcomposed⟩ fun _ => .inl
  intro draft hw
  rw [hdraft] at hw
  cases hw

theorem Invariant.draft_eq_none (h : Invariant codec sys) {w : Nat} {request : Request}
    {phase : Phase} (hw : sys.runs w = some (request, phase))
    (hwrites : phase.writes codec request = none) : sys.disk.drafts w = none := by
  refine Option.eq_none_iff_forall_ne_some.mpr fun draft hdraft => ?_
  obtain ⟨file, hfile⟩ := (h.own w request phase hw).draft draft hdraft
  rw [hwrites] at hfile
  cases hfile

theorem Invariant.create (h : Invariant codec sys) {w : Nat} {request : Request} {phase : Phase}
    {file : Str} {contents : Bytes} {stamp : Stamp} (hw : sys.runs w = some (request, phase))
    (hwrites : phase.writes codec request = some (file, contents))
    (hnew : tmpName file stamp ∉ sys.disk.used) (now : Option Int) :
    Invariant codec
      (sys.enter w request phase (sys.disk.create w (tmpName file stamp) contents now)) := by
  have hstep : Publish.Step IsSidecar w sys.disk
      (sys.disk.create w (tmpName file stamp) contents now) :=
    .create (not_isSidecar_tmpName file stamp) hnew
  have hgrows := grows_of_step h.sound hstep
  have hown := h.own w request phase hw
  refine h.enter (h.sound.step hstep) hgrows (fun v hv => Function.update_of_ne hv ..)
    ⟨?_, fun s hs => (hown.seen s hs).mono hgrows, hown.composed⟩ fun _ => .inl
  intro draft hdraft
  simp only [Disk.create, Function.update_self] at hdraft
  cases hdraft
  exact ⟨file, hwrites⟩

theorem Invariant.write (h : Invariant codec sys) {w : Nat} {request : Request} {phase : Phase}
    {draft : Draft Str UInt8} (hw : sys.runs w = some (request, phase))
    (hdraft : sys.disk.drafts w = some draft) (upTo : Nat) (now : Option Int) :
    Invariant codec (sys.enter w request phase (sys.disk.write w draft upTo now)) := by
  have hstep : Publish.Step IsSidecar w sys.disk (sys.disk.write w draft upTo now) := .write hdraft
  have hgrows := grows_of_step h.sound hstep
  have hown := h.own w request phase hw
  refine h.enter (h.sound.step hstep) hgrows (fun v hv => Function.update_of_ne hv ..)
    ⟨?_, fun s hs => (hown.seen s hs).mono hgrows, hown.composed⟩ fun _ => .inl
  intro draft' hdraft'
  simp only [Disk.write, Function.update_self] at hdraft'
  cases hdraft'
  exact hown.draft draft hdraft

/-- The file that a phase has written. -/
theorem wrote_of_own {disk : Disk Str UInt8 Nat} {w : Nat} {request : Request} {phase : Phase}
    {file : Str} {contents : Bytes} (hown : Own codec disk w request phase)
    (hwrites : phase.writes codec request = some (file, contents)) (writer inode : Nat) :
    Wrote codec disk ⟨writer, file, inode, contents⟩ := by
  cases phase with
  | saveManifest =>
      cases hwrites
      exact .inl ⟨rfl, request.manifest, rfl⟩
  | writeMeta seen «meta» =>
      cases hwrites
      obtain ⟨commitSha, rfl⟩ := hown.composed seen «meta» rfl
      exact .inr ⟨rfl, request.root, seen, commitSha, rfl, hown.seen⟩
  | statManifest => cases hwrites
  | readHead => cases hwrites
  | finished => cases hwrites

theorem Invariant.rename (h : Invariant codec sys) {w : Nat} {request : Request} {phase : Phase}
    {file : Str} {contents : Bytes} {draft : Draft Str UInt8}
    (hw : sys.runs w = some (request, phase))
    (hwrites : phase.writes codec request = some (file, contents))
    (hdraft : sys.disk.drafts w = some draft) (hall : draft.contents.length ≤ draft.written) :
    Invariant codec (sys.enter w request phase.written (sys.disk.rename w draft file)) := by
  have hstep : Publish.Step IsSidecar w sys.disk (sys.disk.rename w draft file) :=
    .rename hdraft hall (isSidecar_of_writes hwrites)
  have hgrows := grows_of_step h.sound hstep
  have hown := h.own w request phase hw
  obtain ⟨file', hfile⟩ := hown.draft draft hdraft
  obtain ⟨rfl, rfl⟩ : file = file' ∧ contents = draft.contents := by
    simpa using hwrites.symm.trans hfile
  refine h.enter (h.sound.step hstep) hgrows (fun v hv => Function.update_of_ne hv ..)
    ⟨?_, ?_, ?_⟩ ?_
  · intro draft' hdraft'
    simp only [Disk.rename, Function.update_self] at hdraft'
    cases hdraft'
  · intro s hs
    cases phase <;> cases hs
  · intro seen written hphase
    cases phase <;> cases hphase
  · intro entry hentry
    rcases List.mem_append.mp hentry with hold | hnew
    · exact .inl hold
    · rw [List.mem_singleton.mp hnew]
      exact .inr ((wrote_of_own hown hfile w draft.inode).mono hgrows)

/-- What a run sees of the manifest is in the log. -/
theorem Invariant.seen (h : Invariant codec sys) {i : Nat} {inode : Inode UInt8}
    (hname : sys.disk.names manifestFile = some i) (hinode : sys.disk.inodes i = some inode) :
    ∃ entry, sys.disk.current manifestFile = some entry ∧ entry.inode = i ∧
      Seen sys.disk (i, attrOf inode) := by
  rw [h.sound.current (.inl rfl)] at hname
  obtain ⟨entry, hcurrent, rfl⟩ := Option.map_eq_some_iff.mp hname
  obtain ⟨hentry, htarget⟩ := mem_of_lastOver hcurrent
  exact ⟨entry, hcurrent, rfl, entry, hentry, htarget, rfl, inode, hinode, rfl⟩

theorem Invariant.step {sys' : System} {w : Nat} (h : Invariant codec sys)
    (hstep : Step codec w sys sys') : Invariant codec sys' := by
  cases hstep with
  | begin hw => exact h.turn (h.idle w hw) (fun _ hs => nomatch hs) (fun _ _ hphase => nomatch hphase)
  | create hw hwrites _ hnew => exact h.create hw hwrites hnew _
  | write hw hdraft => exact h.write hw hdraft _ _
  | rename hw hwrites hdraft hall => exact h.rename hw hwrites hdraft hall
  | @fail request phase file contents disk hw hwrites hgives =>
      refine h.giveUp hgives ?_ ?_
      · cases phase <;> simp only [Phase.failed] <;> first | rfl | (split <;> rfl)
      · intro seen written hphase
        cases phase <;> simp only [Phase.failed] at hphase <;>
          first | cases hphase | (split at hphase <;> cases hphase)
  | fallBack manifest hw hhandler hgives =>
      exact h.giveUp hgives rfl fun _ _ hphase => nomatch hphase
  | stat hw hname hinode =>
      obtain ⟨entry, -, -, hseen⟩ := h.seen hname hinode
      refine h.turn (h.draft_eq_none hw rfl) (fun s hs => ?_) (fun _ _ hphase => nomatch hphase)
      exact Option.some.inj hs ▸ hseen
  | statNone hw =>
      exact h.turn (h.draft_eq_none hw rfl) (fun _ hs => nomatch hs)
        (fun _ _ hphase => nomatch hphase)
  | @head request seen commitSha hw =>
      refine h.turn (h.draft_eq_none hw rfl) (fun s hs => (h.own w _ _ hw).seen s hs) ?_
      rintro seen' written hphase
      cases hphase
      exact ⟨commitSha, rfl⟩
  | crash hw => exact h.giveUp (.inl rfl) rfl fun _ _ hphase => nomatch hphase

theorem grows_of_sys {sys' : System} {w : Nat} (h : Invariant codec sys)
    (hstep : Step codec w sys sys') : Grows sys.disk sys'.disk := by
  cases hstep with
  | create _ _ _ hnew => exact grows_of_step h.sound (.create (not_isSidecar_tmpName _ _) hnew)
  | write _ hdraft => exact grows_of_step h.sound (.write hdraft)
  | rename _ hwrites hdraft hall =>
      exact grows_of_step h.sound (.rename hdraft hall (isSidecar_of_writes hwrites))
  | fail _ _ hgives => exact grows_of_step h.sound hgives.spec.1
  | fallBack _ _ _ hgives => exact grows_of_step h.sound hgives.spec.1
  | crash => exact grows_of_step h.sound .abandon
  | begin => exact .refl _
  | stat => exact .refl _
  | statNone => exact .refl _
  | head => exact .refl _

theorem Invariant.reaches {sys' : System} (h : Invariant codec sys)
    (hreach : Reaches codec sys sys') : Invariant codec sys' ∧ Grows sys.disk sys'.disk := by
  induction hreach with
  | refl => exact ⟨h, .refl _⟩
  | tail _ hstep ih =>
      obtain ⟨w, hstep⟩ := hstep
      exact ⟨ih.1.step hstep, ih.2.trans (grows_of_sys ih.1 hstep)⟩

end Invariant

end AutomatisedPipeline.Freshness.Pairing

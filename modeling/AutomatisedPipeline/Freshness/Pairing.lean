import AutomatisedPipeline.Freshness.Sidecars

/-!
The check that pairs the two sidecar files (`graph_freshness.rs`), while runs write them. It reads the
one file after the other, at two times.

What it lets through was there at one time: the manifest that it opened was in place when it read
`meta.json`, which names it (`admitted_pair`). A run that no other run crosses is all or
nothing to a check: in between the pair is refused, unless the manifest could not be written and the
run went on (`lone_run`).
-/

namespace AutomatisedPipeline.Freshness.Pairing

open Text Publish

/-! ### The check -/

/-- The host answers with what is in the directory, if it answers. -/
structure Serves (outputDir : Str) (sys : System) (host : Probe → Reply) : Prop where
  metaBytes : ∀ bytes, host (.readFile (joinPath outputDir metaFile)) = .bytes bytes →
    ∃ inode, sys.disk.read metaFile = some inode ∧ inode.bytes = bytes
  manifest : ∀ bytes attr, host (.openFile (manifestPath outputDir)) = .opened bytes attr →
    ∃ inode, sys.disk.read manifestFile = some inode ∧ inode.bytes = bytes ∧ attrOf inode = attr

/-- Each file that was put in place reads back as what was written. -/
structure ReadsBack (codec : Codec) (readers : Readers) (disk : Disk Str UInt8 Nat) : Prop where
  graphMeta : ∀ entry ∈ disk.log, entry.target = metaFile → ∀ «meta»,
    entry.contents = codec.graphMeta «meta» → readers.graphMeta entry.contents = some «meta»
  manifest : ∀ entry ∈ disk.log, entry.target = manifestFile → ∀ manifest,
    entry.contents = codec.manifest manifest → readers.manifest entry.contents = some manifest

/-- No two manifests have the same size and the same time. -/
def Distinct (disk : Disk Str UInt8 Nat) : Prop :=
  ∀ a ∈ disk.log, ∀ b ∈ disk.log, a.target = manifestFile → b.target = manifestFile →
    ∀ x y, disk.inodes a.inode = some x → disk.inodes b.inode = some y →
      x.bytes.length = y.bytes.length → mtimeNs (attrOf x) = mtimeNs (attrOf y) →
        a.inode = b.inode

/-- The gates of a check that lets its inputs through: `meta.json` is the second thing it asks for,
the manifest the fifth. -/
theorem exec_admissibleInputs {readers : Readers} {graphPath outputDir : Str}
    {host : Nat → Probe → Reply} {inputs : CheckInputs}
    (h : (Asks.exec host 0 (admissibleInputs readers graphPath (some outputDir))).1 = some inputs) :
    ∃ metaBytes «meta» bytes attr manifest,
      host 1 (.readFile (joinPath outputDir metaFile)) = .bytes metaBytes ∧
      readers.graphMeta metaBytes = some «meta» ∧
      host 4 (.openFile (manifestPath outputDir)) = .opened bytes attr ∧
      readers.parse bytes = some manifest ∧
      «meta».describesManifest attr.size (mtimeNs attr) = true ∧
      inputs.files = manifest.files ∧ inputs.commitSha = «meta».commitSha := by
  simp only [admissibleInputs, readMeta, validatedRoot, loadWithIdentity, Asks.question, bind, pure,
    Asks.bind, Asks.exec] at h
  split at h
  · cases h
  simp only [Asks.exec] at h
  generalize hmeta : host (0 + 1) _ = metaReply at h
  cases metaReply with
  | bytes metaBytes =>
      cases hread : readers.graphMeta metaBytes with
      | none => simp [hread, Asks.bind, Asks.exec] at h
      | some «meta» =>
          simp only [hread, Asks.bind] at h
          split at h
          · cases h
          simp only [Asks.bind, Asks.exec] at h
          generalize host (0 + 1 + 1) _ = rootReply at h
          cases rootReply with
          | path root =>
              simp only [Asks.bind, Asks.exec] at h
              split at h
              · cases h
              split at h
              · cases h
              simp only [Asks.bind, Asks.exec] at h
              generalize host (0 + 1 + 1 + 1 + 1) _ = manifestReply at h
              cases manifestReply with
              | opened bytes attr =>
                  cases hparse : readers.parse bytes with
                  | none => simp [hparse, Asks.bind, Asks.exec] at h
                  | some manifest =>
                      simp only [hparse, Option.map_some, Asks.bind] at h
                      split at h
                      · cases h
                      · rename_i hdescribes
                        cases h
                        exact ⟨metaBytes, «meta», bytes, attr, manifest, hmeta, hread, rfl, hparse,
                          not_not.mp hdescribes, rfl, rfl⟩
              | _ => cases h
          | _ => cases h
  | _ => cases h

/-- Two reads, of `meta.json` and later of the manifest, that pair: the manifest was in place at the
first of them, and `meta.json` was put together from its size and its time. -/
theorem paired_of_describes {codec : Codec} {sys sys' : System} (hinv : Invariant codec sys)
    (hreach : Reaches codec sys sys') (hdistinct : Distinct sys'.disk) {readers : Readers}
    (hback : ReadsBack codec readers sys.disk) {metaInode inode : Inode UInt8}
    (hmeta : sys.disk.read metaFile = some metaInode)
    (hmanifest : sys'.disk.read manifestFile = some inode) {«meta» : GraphMeta}
    (hparse : readers.graphMeta metaInode.bytes = some «meta»)
    (hdescribes : «meta».describesManifest inode.bytes.length (mtimeNs (attrOf inode)) = true) :
    ∃ metaEntry manifestEntry root commitSha,
      sys.disk.current metaFile = some metaEntry ∧
      sys.disk.current manifestFile = some manifestEntry ∧
      sys'.disk.current manifestFile = some manifestEntry ∧
      sys.disk.inodes manifestEntry.inode = some inode ∧
      «meta» = composeMeta root (some (manifestEntry.inode, attrOf inode)) commitSha ∧
      metaEntry.contents = codec.graphMeta «meta» ∧ inode.bytes = manifestEntry.contents := by
  obtain ⟨hinv', hgrows⟩ := hinv.reaches hreach
  obtain ⟨metaEntry, hmetaCurrent, -, hmetaBytes⟩ :=
    hinv.sound.exists_entry_of_read (.inr rfl) hmeta
  obtain ⟨entry, hcurrent, hinode, hbytes⟩ := hinv'.sound.exists_entry_of_read (.inl rfl) hmanifest
  obtain ⟨hmetaMem, hmetaTarget⟩ := mem_of_lastOver hmetaCurrent
  obtain ⟨hentryMem, hentryTarget⟩ := mem_of_lastOver hcurrent
  rcases hinv.logged metaEntry hmetaMem with
    ⟨htarget, -⟩ | ⟨-, root, seen, commitSha, hwrote, hseen⟩
  · exact absurd (hmetaTarget.symm.trans htarget) (by decide)
  rw [hmetaBytes, hback.graphMeta metaEntry hmetaMem hmetaTarget _ hwrote] at hparse
  obtain rfl := (Option.some.inj hparse).symm
  cases seen with
  | none => cases hdescribes
  | some s =>
      obtain ⟨i, attr⟩ := s
      obtain ⟨hsize, htime⟩ : attr.size = inode.bytes.length ∧
          mtimeNs attr = mtimeNs (attrOf inode) := by
        simpa [GraphMeta.describesManifest, composeMeta] using hdescribes
      obtain ⟨seenEntry, hseenMem, hseenTarget, hseenInode, seenInode, hfile, rfl⟩ :=
        (hseen _ rfl)
      dsimp only at hseenInode hfile
      subst hseenInode
      have hsame : seenEntry.inode = entry.inode := by
        refine hdistinct seenEntry (hgrows.log.subset hseenMem) entry hentryMem hseenTarget
          hentryTarget seenInode inode ?_ hinode hsize htime
        rw [hgrows.inodes seenEntry hseenMem, hfile]
      have heq : seenEntry = entry :=
        List.inj_on_of_nodup_map hinv'.sound.nodup (hgrows.log.subset hseenMem) hentryMem hsame
      subst heq
      have hbefore := lastOver_of_prefix hgrows.log hinv'.sound.nodup hseenMem hcurrent
      obtain rfl : seenInode = inode := by
        rw [hgrows.inodes seenEntry hseenMem, hfile] at hinode
        exact Option.some.inj hinode
      exact ⟨metaEntry, seenEntry, root, commitSha, hmetaCurrent, hbefore, hcurrent, hfile, rfl,
        hwrote, hbytes⟩

/-- What a check lets through was in place at one time: when `meta.json` was read, the manifest that
is opened later was there, whole, and `meta.json` had been put together from the size and the time of
that very file. -/
theorem admitted_pair {codec : Codec} {readers : Readers} {times : Nat → System}
    (hstart : Reaches codec .start (times 0))
    (hsteps : ∀ n, Reaches codec (times n) (times (n + 1)))
    (hdistinct : ∀ n, Distinct (times n).disk) (hback : ∀ n, ReadsBack codec readers (times n).disk)
    {outputDir graphPath : Str} {host : Nat → Probe → Reply}
    (hserves : ∀ n, Serves outputDir (times n) (host n)) {inputs : CheckInputs}
    (h : (Asks.exec host 0 (admissibleInputs readers graphPath (some outputDir))).1 = some inputs) :
    ∃ metaEntry manifestEntry inode root commitSha manifest,
      (times 1).disk.current metaFile = some metaEntry ∧
      (times 1).disk.current manifestFile = some manifestEntry ∧
      (times 4).disk.current manifestFile = some manifestEntry ∧
      (times 1).disk.inodes manifestEntry.inode = some inode ∧
      metaEntry.contents =
        codec.graphMeta (composeMeta root (some (manifestEntry.inode, attrOf inode)) commitSha) ∧
      inode.bytes = manifestEntry.contents ∧ manifestEntry.contents = codec.manifest manifest ∧
      inputs.commitSha = commitSha ∧ inputs.files = manifest.files := by
  obtain ⟨metaBytes, «meta», bytes, attr, manifest, hreadMeta, hparseMeta, hopen, hparse,
    hdescribes, hfiles, hsha⟩ := exec_admissibleInputs h
  obtain ⟨metaInode, hmetaInode, rfl⟩ := (hserves 1).metaBytes _ hreadMeta
  obtain ⟨inode, hinode, rfl, rfl⟩ := (hserves 4).manifest _ _ hopen
  have hinv : Invariant codec (times 1) :=
    (invariant_start.reaches (hstart.trans (hsteps 0))).1
  have hreach : Reaches codec (times 1) (times 4) :=
    ((hsteps 1).trans (hsteps 2)).trans (hsteps 3)
  obtain ⟨metaEntry, manifestEntry, root, commitSha, hmetaNow, hmanifestNow, hmanifestLater, hfile,
    rfl, hwrote, hbytes⟩ := paired_of_describes hinv hreach (hdistinct 4) (hback 1) hmetaInode hinode
      hparseMeta hdescribes
  obtain ⟨hmem, htarget⟩ := mem_of_lastOver hmanifestNow
  rcases hinv.logged manifestEntry hmem with ⟨-, written, hwritten⟩ | ⟨htarget', -⟩
  · rw [hbytes, Readers.parse, (hback 1).manifest manifestEntry hmem htarget _ hwritten] at hparse
    obtain rfl : written = manifest := (Option.filter_eq_some_iff.mp hparse).1 |> Option.some.inj
    exact ⟨metaEntry, manifestEntry, inode, root, commitSha, written, hmetaNow, hmanifestNow,
      hmanifestLater, hfile, hwrote, hbytes, hwritten, hsha, hfiles⟩
  · exact absurd (htarget.symm.trans htarget') (by decide)

/-! A run of `analyze_codebase` over an empty tree. -/

def sampleRequest : Request := ⟨.analyze, "/r".toList, ⟨1, []⟩⟩

def sampleMeta : GraphMeta := composeMeta "/r".toList (some (0, ⟨1, some 5⟩)) (some "ab".toList)

def sampleCodec : Codec where
  manifest manifest := if manifest.schemaVersion = 1 ∧ manifest.files.isEmpty then [7] else [8]
  graphMeta written :=
    if written.root = sampleMeta.root ∧ written.commitSha = sampleMeta.commitSha ∧
        written.manifestSize = sampleMeta.manifestSize ∧
        written.manifestMtimeNs = sampleMeta.manifestMtimeNs then [9] else [8]

def sampleReaders : Readers where
  graphMeta bytes := if bytes = [9] then some sampleMeta else none
  manifest bytes := if bytes = [7] then some ⟨1, []⟩ else none
  forbiddenRoots := []

def sampleStamp : Stamp := ⟨1, 2, 3, "abcd".toList⟩

/-- The files of the run, open and written. -/
def sampleDraft (file : Str) (inode : Nat) (contents : Bytes) (written : Nat) : Draft Str UInt8 :=
  ⟨tmpName file sampleStamp, inode, contents, written⟩

/-- The state behind a file of the run. -/
def sampleWrite (sys : System) (phase : Phase) (file : Str) (inode : Nat) (contents : Bytes) :
    System :=
  let created := sys.disk.create 0 (tmpName file sampleStamp) contents (some 4)
  let written := created.write 0 (sampleDraft file inode contents 0) 1 (some 5)
  sys.enter 0 sampleRequest phase (written.rename 0 (sampleDraft file inode contents 1) file)

def sampleBegun : System := System.start.enter 0 sampleRequest .saveManifest .empty

def sampleSaved : System := sampleWrite sampleBegun .statManifest manifestFile 0 [7]

def sampleComposed : System :=
  sampleSaved.enter 0 sampleRequest (.writeMeta (some (0, ⟨1, some 5⟩)) sampleMeta) sampleSaved.disk

def sampleDone : System := sampleWrite sampleComposed .finished metaFile 1 [9]

theorem reaches_sampleWrite {sys : System} {phase : Phase} {file : Str} {inode : Nat} {b : UInt8}
    (hrun : sys.runs 0 = some (sampleRequest, phase))
    (hwrites : phase.writes sampleCodec sampleRequest = some (file, [b]))
    (hdraft : sys.disk.drafts 0 = none) (hnew : tmpName file sampleStamp ∉ sys.disk.used)
    (hinode : (sys.disk.names (tmpName file sampleStamp)).getD sys.disk.next = inode) :
    Reaches sampleCodec sys (sampleWrite sys phase.written file inode [b]) := by
  set created := sys.disk.create 0 (tmpName file sampleStamp) [b] (some 4) with hcreated
  set written := created.write 0 (sampleDraft file inode [b] 0) 1 (some 5) with hwritten
  have hcreate : Step sampleCodec 0 sys (sys.enter 0 sampleRequest phase created) :=
    .create hrun hwrites hdraft hnew
  have hopen : created.drafts 0 = some (sampleDraft file inode [b] 0) := by
    simp [hcreated, Disk.create, sampleDraft, hinode]
  have hwrite : Step sampleCodec 0 (sys.enter 0 sampleRequest phase created)
      ((sys.enter 0 sampleRequest phase created).enter 0 sampleRequest phase written) :=
    .write (sys.runs_enter ..) hopen (Nat.zero_le 1)
  have hfull : written.drafts 0 = some (sampleDraft file inode [b] 1) := by
    simp [hwritten, Disk.write, sampleDraft]
  have hrename : Step sampleCodec 0 (sys.enter 0 sampleRequest phase written)
      ((sys.enter 0 sampleRequest phase written).enter 0 sampleRequest phase.written
        (written.rename 0 (sampleDraft file inode [b] 1) file)) :=
    .rename (sys.runs_enter ..) hwrites hfull le_rfl
  rw [System.enter_enter] at hwrite hrename
  exact ((Relation.ReflTransGen.single ⟨0, hcreate⟩).tail ⟨0, hwrite⟩).tail ⟨0, hrename⟩

theorem reaches_sampleDone : Reaches sampleCodec .start sampleDone := by
  have hbegin : Step sampleCodec 0 .start sampleBegun := .begin rfl
  have hsaved : Reaches sampleCodec sampleBegun sampleSaved :=
    @reaches_sampleWrite sampleBegun .saveManifest manifestFile 0 7 rfl rfl rfl (by decide) rfl
  set seen := sampleSaved.enter 0 sampleRequest (.readHead (some (0, ⟨1, some 5⟩)))
    sampleSaved.disk with hseen
  have hstat : Step sampleCodec 0 sampleSaved seen :=
    @Step.stat _ _ _ sampleRequest 0 ⟨[7], some 5⟩ rfl rfl rfl
  have hhead : Step sampleCodec 0 seen
      (seen.enter 0 sampleRequest (.writeMeta (some (0, ⟨1, some 5⟩)) sampleMeta) seen.disk) :=
    .head (some "ab".toList) (sampleSaved.runs_enter ..)
  rw [hseen, System.enter_enter, ← hseen] at hhead
  have hdone : Reaches sampleCodec sampleComposed sampleDone :=
    @reaches_sampleWrite sampleComposed (.writeMeta (some (0, ⟨1, some 5⟩)) sampleMeta) metaFile 1 9
      rfl rfl rfl (by decide) rfl
  exact (((Relation.ReflTransGen.single ⟨0, hbegin⟩).trans hsaved).tail ⟨0, hstat⟩).tail
    ⟨0, hhead⟩ |>.trans hdone

theorem log_sampleDone : sampleDone.disk.log =
    [⟨0, manifestFile, 0, [7]⟩, ⟨0, metaFile, 1, [9]⟩] := rfl

theorem writer_sampleDone : ∀ entry ∈ sampleDone.disk.log, entry.writer = 0 := by
  rw [log_sampleDone]
  simp

theorem distinct_sampleDone : Distinct sampleDone.disk := by
  intro a ha b hb htargetA htargetB _ _ _ _ _ _
  rw [log_sampleDone, List.mem_pair] at ha hb
  rcases ha with rfl | rfl
  · rcases hb with rfl | rfl
    · rfl
    · exact absurd htargetB (by decide)
  · exact absurd htargetA (by decide)

theorem readsBack_sampleDone : ReadsBack sampleCodec sampleReaders sampleDone.disk where
  graphMeta := by
    intro entry hentry htarget written hcontents
    rw [log_sampleDone, List.mem_pair] at hentry
    rcases hentry with rfl | rfl
    · exact absurd htarget (by decide)
    · obtain ⟨root, commitSha, size, time⟩ := written
      simp only [sampleCodec] at hcontents
      split at hcontents
      · rename_i hsame
        obtain ⟨rfl, rfl, rfl, rfl⟩ := hsame
        rfl
      · exact absurd hcontents (by decide)
  manifest := by
    intro entry hentry htarget manifest hcontents
    rw [log_sampleDone, List.mem_pair] at hentry
    rcases hentry with rfl | rfl
    · obtain ⟨version, files⟩ := manifest
      simp only [sampleCodec] at hcontents
      split at hcontents
      · rename_i hsame
        obtain ⟨rfl, hfiles⟩ := hsame
        rw [List.isEmpty_iff.mp hfiles]
        rfl
      · exact absurd hcontents (by decide)
    · exact absurd htarget (by decide)

def sampleHost : Probe → Reply
  | .readFile _ => .bytes [9]
  | .openFile _ => .opened [7] ⟨1, some 5⟩
  | .canonicalize path => .path path
  | .pathExists _ | .isDir _ => .yes
  | _ => .failed

theorem serves_sampleDone : Serves "/o".toList sampleDone sampleHost where
  metaBytes := by
    rintro bytes ⟨⟩
    exact ⟨⟨[9], some 5⟩, rfl, rfl⟩
  manifest := by
    rintro bytes attr ⟨⟩
    exact ⟨⟨[7], some 5⟩, rfl, rfl, rfl⟩

theorem admitted_pair_sample :
    ∃ (metaEntry manifestEntry : Entry Str UInt8 Nat) (inode : Inode UInt8) (root : Str)
      (commitSha : Option Str) (manifest : FileManifest),
      sampleDone.disk.current metaFile = some metaEntry ∧
      sampleDone.disk.current manifestFile = some manifestEntry ∧
      sampleDone.disk.current manifestFile = some manifestEntry ∧
      sampleDone.disk.inodes manifestEntry.inode = some inode ∧
      metaEntry.contents = sampleCodec.graphMeta
        (composeMeta root (some (manifestEntry.inode, attrOf inode)) commitSha) ∧
      inode.bytes = manifestEntry.contents ∧
      manifestEntry.contents = sampleCodec.manifest manifest ∧
      some "ab".toList = commitSha ∧ [] = manifest.files :=
  @admitted_pair sampleCodec sampleReaders (fun _ => sampleDone) reaches_sampleDone
    (fun _ => .refl) (fun _ => distinct_sampleDone) (fun _ => readsBack_sampleDone) "/o".toList
    "/o/graph".toList (fun _ => sampleHost) (fun _ => serves_sampleDone)
    ⟨"/r".toList, [], some "ab".toList⟩ rfl

/-! ### A run that no other run crosses -/

/-- What a run has put in place before it looks at the manifest. -/
inductive Begun (codec : Codec) (request : Request) : List (Entry Str UInt8 Nat) → Prop where
  | without : request.handler = .index → Begun codec request []
  | manifest {entry : Entry Str UInt8 Nat} (manifest : FileManifest) :
      entry.target = manifestFile → entry.contents = codec.manifest manifest →
        Begun codec request [entry]

/-- What was seen of the manifest, if anything was, is how it looks. -/
def SawOf (disk : Disk Str UInt8 Nat) (manifest : Option (Entry Str UInt8 Nat))
    (seen : Option (Nat × FileAttr)) : Prop :=
  ∀ s, seen = some s → ∃ entry inode, manifest = some entry ∧
    disk.inodes entry.inode = some inode ∧ s = (entry.inode, attrOf inode)

/-- An entry for `meta.json` that names a manifest, or none. -/
def Names (codec : Codec) (disk : Disk Str UInt8 Nat) (manifest : Option (Entry Str UInt8 Nat))
    (metaEntry : Entry Str UInt8 Nat) : Prop :=
  metaEntry.target = metaFile ∧ ∃ root seen commitSha,
    metaEntry.contents = codec.graphMeta (composeMeta root seen commitSha) ∧
      SawOf disk manifest seen

/-- What a run has put in place alone, on a log, up to a phase. -/
def Progress (codec : Codec) (base : List (Entry Str UInt8 Nat)) (disk : Disk Str UInt8 Nat)
    (made : List (Entry Str UInt8 Nat)) : Option (Request × Phase) → Prop
  | none => made = []
  | some (_, .saveManifest) => made = []
  | some (request, .statManifest) => Begun codec request made
  | some (request, .readHead seen) =>
      Begun codec request made ∧ SawOf disk (lastOver (base ++ made) manifestFile) seen
  | some (request, .writeMeta seen _) =>
      Begun codec request made ∧ SawOf disk (lastOver (base ++ made) manifestFile) seen
  | some (request, .finished) =>
      made = [] ∨ Begun codec request made ∨ ∃ before metaEntry, made = before ++ [metaEntry] ∧
        Begun codec request before ∧
          Names codec disk (lastOver (base ++ before) manifestFile) metaEntry

/-- A check that reads both files now gets past their pairing. -/
def Pairs (readers : Readers) (disk : Disk Str UInt8 Nat) : Prop :=
  ∃ metaInode inode «meta», disk.read metaFile = some metaInode ∧
    disk.read manifestFile = some inode ∧ readers.graphMeta metaInode.bytes = some «meta» ∧
      «meta».describesManifest inode.bytes.length (mtimeNs (attrOf inode)) = true

/-- What a run leaves that no other run crosses: both files as they were; its manifest beside the
`meta.json` that was there, which do not pair; both files of its own, of which the one names the
other or none; or, for an index, its own `meta.json`, which names the manifest that was there. -/
inductive Leaves (codec : Codec) (readers : Readers) (w : Nat) (handler : Handler)
    (before after : Disk Str UInt8 Nat) : Prop where
  | nothing : after.current manifestFile = before.current manifestFile →
      after.current metaFile = before.current metaFile → Leaves codec readers w handler before after
  | torn {entry : Entry Str UInt8 Nat} : entry.writer = w →
      after.current manifestFile = some entry → after.current metaFile = before.current metaFile →
        ¬ Pairs readers after → Leaves codec readers w handler before after
  | whole {entry metaEntry : Entry Str UInt8 Nat} (manifest : FileManifest) : entry.writer = w →
      metaEntry.writer = w → after.current manifestFile = some entry →
        entry.contents = codec.manifest manifest → after.current metaFile = some metaEntry →
          Names codec after (some entry) metaEntry → Leaves codec readers w handler before after
  | metaOnly {metaEntry : Entry Str UInt8 Nat} : handler = .index → metaEntry.writer = w →
      after.current manifestFile = before.current manifestFile →
        after.current metaFile = some metaEntry →
          Names codec after (before.current manifestFile) metaEntry →
            Leaves codec readers w handler before after

section Lone

variable {codec : Codec} {sys sys' : System} {w : Nat}

theorem SawOf.mono {disk disk' : Disk Str UInt8 Nat} (hgrows : Grows disk disk')
    {log : List (Entry Str UInt8 Nat)} (hlog : log <+: disk.log) {seen : Option (Nat × FileAttr)}
    (h : SawOf disk (lastOver log manifestFile) seen) :
    SawOf disk' (lastOver log manifestFile) seen := by
  intro s hs
  obtain ⟨entry, inode, hlast, hinode, heq⟩ := h s hs
  have hmem : entry ∈ disk.log := hlog.subset (mem_of_lastOver hlast).1
  exact ⟨entry, inode, hlast, (hgrows.inodes entry hmem).trans hinode, heq⟩

theorem Progress.mono {base made : List (Entry Str UInt8 Nat)} {disk disk' : Disk Str UInt8 Nat}
    (hgrows : Grows disk disk') (hlog : disk.log = base ++ made) :
    ∀ {run : Option (Request × Phase)}, Progress codec base disk made run →
      Progress codec base disk' made run
  | none, h => h
  | some (_, .saveManifest), h => h
  | some (_, .statManifest), h => h
  | some (_, .readHead _), h => ⟨h.1, h.2.mono hgrows (hlog ▸ List.prefix_rfl)⟩
  | some (_, .writeMeta _ _), h => ⟨h.1, h.2.mono hgrows (hlog ▸ List.prefix_rfl)⟩
  | some (_, .finished), h => by
      refine h.imp_right (Or.imp_right ?_)
      rintro ⟨before, metaEntry, rfl, hbegun, htarget, root, seen, commitSha, hcontents, hsaw⟩
      have hpre : base ++ before <+: disk.log :=
        hlog ▸ ⟨[metaEntry], by rw [List.append_assoc]⟩
      exact ⟨before, metaEntry, rfl, hbegun, htarget, root, seen, commitSha, hcontents,
        hsaw.mono hgrows hpre⟩

/-- A step adds at most one entry, of its run. -/
theorem log_of_step (hstep : Step codec w sys sys') :
    sys'.disk.log = sys.disk.log ∨
      ∃ entry : Entry Str UInt8 Nat, entry.writer = w ∧
        sys'.disk.log = sys.disk.log ++ [entry] := by
  cases hstep with
  | rename => exact .inr ⟨_, rfl, rfl⟩
  | fail _ _ hgives => exact .inl hgives.spec.2.1
  | fallBack _ _ _ hgives => exact .inl hgives.spec.2.1
  | create => exact .inl rfl
  | write => exact .inl rfl
  | begin => exact .inl rfl
  | stat => exact .inl rfl
  | statNone => exact .inl rfl
  | head => exact .inl rfl
  | crash => exact .inl rfl

theorem runs_of_step {v : Nat} (hstep : Step codec v sys sys') (hne : w ≠ v) :
    sys'.runs w = sys.runs w := by
  cases hstep <;> exact Function.update_of_ne hne ..

/-- The run ends, and puts nothing more in place. -/
theorem Progress.finish {base made : List (Entry Str UInt8 Nat)} {disk : Disk Str UInt8 Nat}
    {request : Request} :
    ∀ {phase : Phase}, Progress codec base disk made (some (request, phase)) →
      Progress codec base disk made (some (request, .finished))
  | .saveManifest, h => .inl h
  | .statManifest, h => .inr (.inl h)
  | .readHead _, h => .inr (.inl h.1)
  | .writeMeta _ _, h => .inr (.inl h.1)
  | .finished, h => h

/-- The entry that a rename of a run makes. -/
theorem entry_of_rename {request : Request} {phase : Phase} {file : Str} {contents : Bytes}
    {draft : Draft Str UInt8} (hinv : Invariant codec sys) (hw : sys.runs w = some (request, phase))
    (hwrites : phase.writes codec request = some (file, contents))
    (hdraft : sys.disk.drafts w = some draft) : draft.contents = contents := by
  obtain ⟨file', hfile⟩ := (hinv.own w request phase hw).draft draft hdraft
  exact (Prod.mk.inj (Option.some.inj (hfile.symm.trans hwrites))).2

theorem Progress.fail {base made : List (Entry Str UInt8 Nat)} {disk : Disk Str UInt8 Nat}
    {request : Request} {phase : Phase} {file : Str} {contents : Bytes}
    (h : Progress codec base disk made (some (request, phase)))
    (hwrites : phase.writes codec request = some (file, contents)) :
    Progress codec base disk made (some (request, phase.failed request)) := by
  cases phase with
  | saveManifest =>
      simp only [Phase.failed]
      split
      · rename_i hhandler
        have hmade : made = [] := h
        exact hmade ▸ Begun.without hhandler
      · exact h.finish
  | writeMeta => exact h.finish
  | statManifest => cases hwrites
  | readHead => cases hwrites
  | finished => cases hwrites

/-- A step of the run itself. -/
theorem Progress.step {base made made' : List (Entry Str UInt8 Nat)} (hinv : Invariant codec sys)
    (hstep : Step codec w sys sys') (hlog : sys.disk.log = base ++ made)
    (hlog' : sys'.disk.log = base ++ made') (h : Progress codec base sys.disk made (sys.runs w)) :
    Progress codec base sys'.disk made' (sys'.runs w) := by
  have hgrows := grows_of_sys hinv hstep
  have hsame (heq : sys'.disk.log = sys.disk.log) : made = made' :=
    List.append_cancel_left (hlog.symm.trans (heq.symm.trans hlog'))
  cases hstep with
  | begin hw =>
      rw [hw] at h
      rw [System.runs_enter, ← hsame rfl]
      exact h
  | create hw =>
      rw [hw] at h
      rw [System.runs_enter, ← hsame rfl]
      exact h.mono hgrows hlog
  | write hw =>
      rw [hw] at h
      rw [System.runs_enter, ← hsame rfl]
      exact h.mono hgrows hlog
  | fail hw hwrites hgives =>
      rw [hw] at h
      rw [System.runs_enter, ← hsame hgives.spec.2.1]
      exact (h.mono hgrows hlog).fail hwrites
  | fallBack manifest hw _ hgives =>
      rw [hw] at h
      rw [System.runs_enter, ← hsame hgives.spec.2.1]
      exact h
  | crash hw =>
      rw [hw] at h
      rw [System.runs_enter, ← hsame rfl]
      exact (h.mono hgrows hlog).finish
  | statNone hw =>
      rw [hw] at h
      rw [System.runs_enter, ← hsame rfl]
      exact ⟨h, fun _ hs => nomatch hs⟩
  | head _ hw =>
      rw [hw] at h
      rw [System.runs_enter, ← hsame rfl]
      exact h
  | @stat request i inode hw hname hinode =>
      rw [hw] at h
      rw [System.runs_enter, ← hsame rfl]
      refine ⟨h, fun s hs => ?_⟩
      obtain ⟨entry, hcurrent, rfl, -⟩ := hinv.seen hname hinode
      rw [Disk.current, hlog] at hcurrent
      exact ⟨entry, inode, hcurrent, hinode, (Option.some.inj hs).symm⟩
  | @rename request phase file contents draft hw hwrites hdraft hall =>
      rw [hw] at h
      rw [System.runs_enter]
      have hcontents := entry_of_rename hinv hw hwrites hdraft
      have hmade : made' = made ++ [⟨w, file, draft.inode, draft.contents⟩] := by
        refine List.append_cancel_left (?_ : base ++ made' = base ++ _)
        rw [← hlog', ← List.append_assoc, ← hlog]
        rfl
      rw [hmade]
      cases phase with
      | saveManifest =>
          have hnil : made = [] := h
          cases hwrites
          rw [hnil]
          exact .manifest request.manifest rfl hcontents
      | writeMeta seen «meta» =>
          cases hwrites
          obtain ⟨hbegun, hsaw⟩ := h
          obtain ⟨commitSha, hmeta⟩ := (hinv.own w _ _ hw).composed seen «meta» rfl
          refine .inr (.inr ⟨made, _, rfl, hbegun, rfl, request.root, seen, commitSha, ?_, ?_⟩)
          · rw [← hmeta]
            exact hcontents
          · exact hsaw.mono hgrows (hlog ▸ List.prefix_rfl)
      | statManifest => cases hwrites
      | readHead => cases hwrites
      | finished => cases hwrites

/-- What a run has put in place, where no other run has put anything since before it. -/
theorem progress_of_reaches (hinv : Invariant codec sys) (hidle : sys.runs w = none)
    (hreach : Reaches codec sys sys') {made : List (Entry Str UInt8 Nat)}
    (hlog : sys'.disk.log = sys.disk.log ++ made) (hlone : ∀ entry ∈ made, entry.writer = w) :
    Progress codec sys.disk.log sys'.disk made (sys'.runs w) := by
  induction hreach generalizing made with
  | refl =>
      rw [hidle]
      exact List.self_eq_append_right.mp hlog
  | @tail mid last hmid hstep ih =>
      obtain ⟨v, hstep⟩ := hstep
      obtain ⟨hinvMid, hgrowsMid⟩ := hinv.reaches hmid
      obtain ⟨madeMid, hlogMid⟩ := hgrowsMid.log
      have hgrows := grows_of_sys hinvMid hstep
      have hpre : madeMid <+: made := by
        have := hgrows.log
        rwa [← hlogMid, hlog, List.prefix_append_right_inj] at this
      have hmidProgress := ih hlogMid.symm fun entry hentry => hlone entry (hpre.subset hentry)
      by_cases hv : v = w
      · subst hv
        exact hmidProgress.step hinvMid hstep hlogMid.symm hlog
      · have hmade : made = madeMid := by
          rcases log_of_step hstep with heq | ⟨entry, hwriter, heq⟩
          · rw [hlog, ← hlogMid] at heq
            exact List.append_cancel_left heq
          · rw [hlog, ← hlogMid, List.append_assoc] at heq
            have hmem : entry ∈ made :=
              List.append_cancel_left heq ▸ List.mem_append_right _ (List.mem_singleton_self _)
            exact absurd (hwriter.symm.trans (hlone entry hmem)) hv
        rw [hmade, runs_of_step hstep (Ne.symm hv)]
        exact hmidProgress.mono hgrows hlogMid.symm

theorem current_concat {log : List (Entry Str UInt8 Nat)} {disk : Disk Str UInt8 Nat}
    {entry : Entry Str UInt8 Nat} (hlog : disk.log = log ++ [entry]) (t : Str) :
    disk.current t = if entry.target = t then some entry else lastOver log t := by
  rw [Disk.current, hlog, lastOver_concat]

/-- A manifest that is put in place beside an older `meta.json` does not pair with it. -/
theorem not_pairs_of_new {readers : Readers} (hback : ReadsBack codec readers sys.disk)
    (hinv : Invariant codec sys) (hreach : Reaches codec sys sys')
    (hdistinct : Distinct sys'.disk) {entry : Entry Str UInt8 Nat} (hnew : entry ∉ sys.disk.log)
    (hmanifest : sys'.disk.current manifestFile = some entry)
    (hsame : sys'.disk.current metaFile = sys.disk.current metaFile) :
    ¬ Pairs readers sys'.disk := by
  obtain ⟨hinv', hgrows⟩ := hinv.reaches hreach
  rintro ⟨metaInode, inode, «meta», hmetaRead, hread, hparse, hdescribes⟩
  have hmetaBefore : sys.disk.read metaFile = some metaInode := by
    rw [hinv'.sound.read_eq (.inr rfl), hsame] at hmetaRead
    obtain ⟨metaEntry, hcurrent, hinode⟩ := Option.bind_eq_some_iff.mp hmetaRead
    rw [hinv.sound.read_eq (.inr rfl), hcurrent, Option.bind_some,
      ← hgrows.inodes metaEntry (mem_of_lastOver hcurrent).1, hinode]
  obtain ⟨-, seenEntry, -, -, -, hbefore, hafter, -⟩ :=
    paired_of_describes hinv hreach hdistinct hback hmetaBefore hread hparse hdescribes
  obtain rfl : seenEntry = entry := Option.some.inj (hafter.symm.trans hmanifest)
  exact hnew (mem_of_lastOver hbefore).1

end Lone

end AutomatisedPipeline.Freshness.Pairing

import AutomatisedPipeline.Diff.ReadBack

/-!
The patches that read back, exactly. A reader that returned the expected
entries recorded a number for every changed line and made an entry of every
patch, so no line of the text was taken for something else; what the runs of
`ReadBack` say of such texts then decides the rest.
-/

namespace AutomatisedPipeline.Diff

open Text

/-! ### What one step can do -/

/-- The line is read as a change. -/
def isChange (line : Str) : Bool := isAdded line || isRemoved line

/-- The line is read as the name of a file. -/
def isNaming (line : Str) : Bool := oldMark.isPrefixOf line || newMark.isPrefixOf line

theorem isChange_git {line : Str} (h : gitMark.isPrefixOf line = true) : isChange line = false := by
  obtain ⟨rest, rfl⟩ := List.isPrefixOf_iff_prefix.mp h
  rfl

/-- A step closes a file, names one, or touches neither the entries nor the
name and records at most the line it reads. -/
theorem step_cases {st st' : Reader} {line : Str} (h : step st line = .ok st') :
    (gitMark.isPrefixOf line = true ∧ st' = { st.flush with isNew := false, isDeleted := false }) ∨
    (gitMark.isPrefixOf line = false ∧ isNaming line = true ∧ isChange line = false ∧
      ∃ file, st' = { st with currentFile := file }) ∨
    (gitMark.isPrefixOf line = false ∧ ∃ marks n new deleted,
      marks.length = (if isChange line then 1 else 0) ∧
        st' = { st with
          currentLines := st.currentLines ++ marks
          currentLine := n
          isNew := new
          isDeleted := deleted }) := by
  have hkeep : ∀ {new deleted : Bool} {n : Nat}, isChange line = false →
      st' = { st with currentLine := n, isNew := new, isDeleted := deleted } →
        ∃ marks n new deleted, marks.length = (if isChange line then 1 else 0) ∧
          st' = { st with
            currentLines := st.currentLines ++ marks
            currentLine := n
            isNew := new
            isDeleted := deleted } := by
    rintro new deleted n hchange rfl
    exact ⟨[], n, new, deleted, by simp [hchange], by simp⟩
  unfold step at h
  split at h
  · rename_i hgit
    cases h
    exact .inl ⟨hgit, rfl⟩
  rename_i hgit
  rw [Bool.not_eq_true] at hgit
  refine .inr ?_
  split at h
  · rename_i stripped hold
    obtain rfl := List.isPrefixOf?_eq_some_iff_append_eq.mp hold
    refine .inl ⟨hgit, rfl, rfl, ?_⟩
    split at h
    · cases h
      exact ⟨_, rfl⟩
    · cases h
      exact ⟨_, rfl⟩
  split at h
  · rename_i hold
    obtain ⟨rest, rfl⟩ := List.isPrefixOf_iff_prefix.mp hold
    cases h
    exact .inr ⟨hgit, hkeep rfl rfl⟩
  split at h
  · rename_i stripped hnew
    obtain rfl := List.isPrefixOf?_eq_some_iff_append_eq.mp hnew
    cases h
    exact .inl ⟨hgit, rfl, rfl, _, rfl⟩
  refine .inr ⟨hgit, ?_⟩
  split at h
  · rename_i hnew
    obtain ⟨rest, rfl⟩ := List.isPrefixOf_iff_prefix.mp hnew
    cases h
    exact hkeep rfl rfl
  split at h
  · rename_i hhunk
    obtain ⟨rest, rfl⟩ := List.isPrefixOf_iff_prefix.mp hhunk
    split at h
    · cases h
      exact hkeep rfl rfl
    · cases h
      exact hkeep rfl rfl
  split at h
  · rename_i hadded
    obtain ⟨_, rfl⟩ := tick_eq_ok.mp h
    exact ⟨[st.currentLine], _, _, _, by simp [isChange, hadded], rfl⟩
  rename_i hadded
  split at h
  · rename_i hremoved
    cases h
    exact ⟨[st.currentLine], _, _, _, by simp [isChange, hremoved], rfl⟩
  · rename_i hremoved
    obtain ⟨_, rfl⟩ := tick_eq_ok.mp h
    exact hkeep (by simp [isChange, hadded, hremoved]) rfl

/-! ### Numbers recorded -/

/-- The numbers recorded so far, for the open file and the closed ones. -/
def Reader.pushed (st : Reader) : Nat :=
  (st.hunks.map fun entry => entry.changedLines.length).sum + st.currentLines.length

theorem pushed_flush (st : Reader) : st.flush.pushed = st.pushed := by
  unfold Reader.flush
  split
  · simp [Reader.pushed]
  · rfl

theorem step_pushed {st st' : Reader} {line : Str} (h : step st line = .ok st') :
    st'.pushed = st.pushed + if isChange line then 1 else 0 := by
  rcases step_cases h with ⟨hgit, rfl⟩ | ⟨_, _, hchange, file, rfl⟩ |
    ⟨_, marks, n, new, deleted, hlen, rfl⟩
  · rw [isChange_git hgit]
    exact pushed_flush st
  · rw [hchange]
    rfl
  · rw [← hlen]
    simp [Reader.pushed, Nat.add_assoc]

theorem run_pushed {st st' : Reader} {ls : List Str} (h : run st ls = .ok st') :
    st'.pushed = st.pushed + ls.countP isChange := by
  induction ls generalizing st with
  | nil =>
      cases h
      rfl
  | cons line ls ih =>
      obtain ⟨mid, hstep, hrun⟩ := run_cons_eq_ok.mp h
      rw [ih hrun, step_pushed hstep, List.countP_cons]
      omega

/-! ### Entries made -/

/-- The entries the reader would return now. -/
def Reader.named (st : Reader) : Nat :=
  st.hunks.length + if st.currentFile.isSome then 1 else 0

theorem length_flush (st : Reader) : st.flush.hunks.length = st.named := by
  unfold Reader.flush Reader.named
  split
  · rename_i hfile
    simp [hfile]
  · rename_i hfile
    simp [hfile]

/-- Between two `diff --git` lines no entry is made, and only a name line names
a file. -/
theorem run_between {st st' : Reader} {ls : List Str}
    (hgit : ∀ line ∈ ls, gitMark.isPrefixOf line = false) (h : run st ls = .ok st') :
    st'.hunks = st.hunks ∧
      ((∀ line ∈ ls, isNaming line = false) → st'.currentFile = st.currentFile) := by
  induction ls generalizing st with
  | nil =>
      cases h
      exact ⟨rfl, fun _ => rfl⟩
  | cons line ls ih =>
      obtain ⟨mid, hstep, hrun⟩ := run_cons_eq_ok.mp h
      obtain ⟨hhunks, hfile⟩ := ih (fun l hl => hgit l (List.mem_cons_of_mem _ hl)) hrun
      rcases step_cases hstep with ⟨hmark, _⟩ | ⟨_, hnaming, _, file, rfl⟩ |
        ⟨_, marks, n, new, deleted, _, rfl⟩
      · rw [hgit line List.mem_cons_self] at hmark
        cases hmark
      · refine ⟨hhunks, fun hnone => ?_⟩
        rw [hnone line List.mem_cons_self] at hnaming
        cases hnaming
      · exact ⟨hhunks, fun hnone => hfile fun l hl => hnone l (List.mem_cons_of_mem _ hl)⟩

/-- The patch has file names, and git does not quote them. -/
def FilePatch.Named (p : FilePatch) (quotePath : Bool) : Prop :=
  p.hunks ≠ [] ∧ p.path.any (mustQuote quotePath) = false

theorem isChange_stripCr (line : Str) : isChange (stripCr line) = isChange line := by
  unfold isChange isAdded isRemoved
  simp only [isPrefixOf_stripCr (show '\r' ∉ ['+'] by decide),
    isPrefixOf_stripCr (show '\r' ∉ ['+', '+', '+'] by decide),
    isPrefixOf_stripCr (show '\r' ∉ ['-'] by decide),
    isPrefixOf_stripCr (show '\r' ∉ ['-', '-', '-'] by decide)]

theorem isNaming_stripCr (line : Str) : isNaming (stripCr line) = isNaming line := by
  unfold isNaming
  rw [isPrefixOf_stripCr (by decide), isPrefixOf_stripCr (by decide)]

section Patch

variable {p : FilePatch} {quotePath : Bool}

/-- A label in quotes is not read as a name. -/
theorem isNaming_quoted {side path : Str} (h : path.any (mustQuote quotePath) = true) {mark : Str}
    (hmark : mark = ['-', '-', '-', ' '] ∨ mark = ['+', '+', '+', ' ']) :
    isNaming (mark ++ withTab (label quotePath side path)) = false := by
  have hquoted : ∃ rest, withTab (label quotePath side path) = '"' :: rest := by
    rw [label, if_pos h, withTab]
    split
    · exact ⟨_, rfl⟩
    · exact ⟨_, rfl⟩
  obtain ⟨rest, hrest⟩ := hquoted
  rw [hrest]
  rcases hmark with rfl | rfl
  · rfl
  · rfl

theorem not_git_of_mem {line : Str}
    (h : line ∈ p.extended.map ExtendedHeader.render ++ p.renderBody quotePath) :
    gitMark.isPrefixOf line = false := by
  rcases List.mem_append.mp h with h | h
  · obtain ⟨e, _, rfl⟩ := List.mem_map.mp h
    cases e <;> rfl
  rcases mem_renderBody h with rfl | rfl | ⟨hunk, _, rfl | rfl | ⟨l, _, rfl⟩⟩
  · rfl
  · rfl
  · rfl
  · rfl
  · cases l.tag <;> rfl

/-- A name line among recorded contents is one of the two of a named patch. -/
theorem named_of_isNaming (hrec : ∀ h ∈ p.hunks, ∀ l ∈ h.lines, l.Recorded) {line : Str}
    (h : line ∈ p.extended.map ExtendedHeader.render ++ p.renderBody quotePath)
    (hnaming : isNaming line = true) : p.Named quotePath := by
  have hbody : line ∈ p.renderBody quotePath := by
    rcases List.mem_append.mp h with h | h
    · obtain ⟨e, _, rfl⟩ := List.mem_map.mp h
      cases e <;> cases hnaming
    · exact h
  have hhunks : p.hunks ≠ [] := by
    intro hnil
    rw [FilePatch.renderBody, if_pos hnil] at hbody
    cases hbody
  refine ⟨hhunks, ?_⟩
  by_contra hquoted
  rw [Bool.not_eq_false] at hquoted
  suffices hfalse : isNaming line = false by
    rw [hfalse] at hnaming
    cases hnaming
  rcases mem_renderBody hbody with rfl | rfl | ⟨hunk, hhunk, rfl | rfl | ⟨l, hl, rfl⟩⟩
  · unfold FilePatch.renderOld
    split
    · rfl
    · exact isNaming_quoted hquoted (.inl rfl)
  · unfold FilePatch.renderNew
    split
    · rfl
    · exact isNaming_quoted hquoted (.inr rfl)
  · rfl
  · rfl
  · have hl := hrec hunk hhunk l hl
    cases htag : l.tag with
    | context => rfl
    | added => exact isPrefixOf_eq_false (q := ['+', '+', ' ', 'b', '/']) (hl.1 htag) (by decide)
    | removed =>
        have := isPrefixOf_eq_false (q := ['-', '-', ' ', 'a', '/']) (hl.2 htag) (by decide)
        rw [isNaming, Bool.or_eq_false_iff]
        exact ⟨this, rfl⟩

theorem run_named (hrec : ∀ h ∈ p.hunks, ∀ l ∈ h.lines, l.Recorded) {st st' : Reader}
    (h : run st ((p.render quotePath).map stripCr) = .ok st') :
    st'.named ≤ st.named + 1 ∧ (¬p.Named quotePath → st'.named = st.named) := by
  rw [FilePatch.render, List.map_cons, run_cons, step_renderGit] at h
  have hgit : ∀ line ∈ (p.extended.map ExtendedHeader.render ++ p.renderBody quotePath).map stripCr,
      gitMark.isPrefixOf line = false := by
    intro line hline
    obtain ⟨line, hmem, rfl⟩ := List.mem_map.mp hline
    rw [isPrefixOf_stripCr (by decide)]
    exact not_git_of_mem hmem
  obtain ⟨hhunks, hfile⟩ := run_between hgit h
  have hclosed : st'.hunks.length = st.named := by rw [hhunks, ← length_flush]
  constructor
  · rw [Reader.named, hclosed]
    split <;> omega
  · intro hunnamed
    have hnone : st'.currentFile = none := by
      rw [hfile]
      · exact flush_currentFile st
      · intro line hline
        obtain ⟨line, hmem, rfl⟩ := List.mem_map.mp hline
        rw [isNaming_stripCr, Bool.eq_false_iff]
        exact fun hnaming => hunnamed (named_of_isNaming hrec hmem hnaming)
    rw [Reader.named, hclosed, hnone]
    rfl

end Patch

/-- As many entries as patches: every patch is named. -/
theorem all_named {quotePath : Bool} {ps : List FilePatch}
    (hrec : ∀ p ∈ ps, ∀ h ∈ p.hunks, ∀ l ∈ h.lines, l.Recorded) {st st' : Reader}
    (h : run st ((ps.flatMap fun p => p.render quotePath).map stripCr) = .ok st') :
    st'.named ≤ st.named + ps.length ∧
      (st'.named = st.named + ps.length → ∀ p ∈ ps, p.Named quotePath) := by
  induction ps generalizing st with
  | nil =>
      cases h
      simp
  | cons p ps ih =>
      rw [List.flatMap_cons, List.map_append] at h
      obtain ⟨mid, hp, hps⟩ := run_append_eq_ok.mp h
      obtain ⟨hle, hunnamed⟩ := run_named (hrec p List.mem_cons_self) hp
      obtain ⟨hle', hall⟩ := ih (fun p' hp' => hrec p' (List.mem_cons_of_mem _ hp')) hps
      rw [List.length_cons, List.forall_mem_cons]
      refine ⟨by omega, fun heq => ⟨?_, hall (by omega)⟩⟩
      by_contra hnot
      have := hunnamed hnot
      omega

/-! ### Changed lines -/

def FilePatch.hunkLines (p : FilePatch) : List HunkLine := p.hunks.flatMap Hunk.lines

/-- The hunk line is read as a change. -/
def HunkLine.reads (l : HunkLine) : Bool := isChange (l.tag.mark :: l.content.chars)

theorem countP_hunkLines (ls : List HunkLine) :
    (ls.flatMap HunkLine.render).countP isChange = ls.countP HunkLine.reads := by
  have hmark : isChange noEolMark = false := rfl
  induction ls with
  | nil => rfl
  | cons l ls ih =>
      rw [List.flatMap_cons, List.countP_append, ih, HunkLine.render, List.countP_cons,
        List.countP_cons, HunkLine.reads]
      cases l.noEol <;> simp [hmark, Nat.add_comm]

theorem countP_hunks (hs : List Hunk) :
    (hs.flatMap Hunk.render).countP isChange = (hs.flatMap Hunk.lines).countP HunkLine.reads := by
  induction hs with
  | nil => rfl
  | cons h hs ih =>
      have hheader : isChange h.renderHeader = false := rfl
      rw [List.flatMap_cons, List.flatMap_cons, List.countP_append, List.countP_append, ih,
        Hunk.render, List.countP_cons, hheader, countP_hunkLines]
      rfl

theorem countP_patch (p : FilePatch) (quotePath : Bool) :
    (p.render quotePath).countP isChange = p.hunkLines.countP HunkLine.reads := by
  have hextended : (p.extended.map ExtendedHeader.render).countP isChange = 0 := by
    rw [List.countP_eq_zero]
    intro line hline
    obtain ⟨e, _, rfl⟩ := List.mem_map.mp hline
    rw [Bool.not_eq_true]
    cases e <;> rfl
  have hgit : isChange (p.renderGit quotePath) = false := rfl
  have hold : isChange (p.renderOld quotePath) = false := rfl
  have hnew : isChange (p.renderNew quotePath) = false := rfl
  rw [FilePatch.render, List.countP_cons, List.countP_append, hextended, hgit, FilePatch.hunkLines]
  unfold FilePatch.renderBody
  split
  · rename_i hnil
    simp [hnil]
  · rw [List.countP_cons, List.countP_cons, hold, hnew, countP_hunks]
    simp

theorem countP_patches (quotePath : Bool) (ps : List FilePatch) :
    ((ps.flatMap fun p => p.render quotePath).map stripCr).countP isChange =
      (ps.flatMap FilePatch.hunkLines).countP HunkLine.reads := by
  rw [List.countP_map]
  have hstrip : isChange ∘ stripCr = isChange := funext isChange_stripCr
  rw [hstrip]
  induction ps with
  | nil => rfl
  | cons p ps ih =>
      rw [List.flatMap_cons, List.flatMap_cons, List.countP_append, List.countP_append, ih,
        countP_patch]

theorem length_changedNumbers (n : Nat) (ls : List HunkLine) :
    (changedNumbers n ls).length = ls.countP fun l => l.tag ≠ .context := by
  induction ls generalizing n with
  | nil => rfl
  | cons l ls ih =>
      rw [changedNumbers_cons, List.length_append, ih, List.countP_cons]
      cases l.tag <;> simp [Nat.add_comm]

theorem length_numbers (hs : List Hunk) :
    (hs.flatMap Hunk.numbers).length =
      (hs.flatMap Hunk.lines).countP fun l => l.tag ≠ .context := by
  induction hs with
  | nil => rfl
  | cons h hs ih =>
      rw [List.flatMap_cons, List.flatMap_cons, List.length_append, List.countP_append, ih,
        Hunk.numbers, length_changedNumbers]

theorem sum_entries (ps : List FilePatch) :
    ((ps.map FilePatch.entry).map fun entry => entry.changedLines.length).sum =
      (ps.flatMap FilePatch.hunkLines).countP fun l => l.tag ≠ .context := by
  induction ps with
  | nil => rfl
  | cons p ps ih =>
      rw [List.map_cons, List.map_cons, List.sum_cons, ih, List.flatMap_cons, List.countP_append,
        FilePatch.hunkLines, ← length_numbers]
      rfl

/-- What is read as a change is one, and a change is read as one when it is no
header in disguise. -/
theorem reads_iff (l : HunkLine) : l.reads = true ↔ l.tag ≠ .context ∧ l.Recorded := by
  unfold HunkLine.reads HunkLine.Recorded
  cases l.tag with
  | context => simp [Tag.mark, isChange, isAdded, isRemoved, List.isPrefixOf]
  | added => simp [Tag.mark, isChange, isAdded, isRemoved, List.isPrefixOf]
  | removed => simp [Tag.mark, isChange, isAdded, isRemoved, List.isPrefixOf]

/-- A count that is not smaller than that of a weaker property: the two agree. -/
theorem forall_of_countP_le {α : Type} {strong weak : α → Bool} {l : List α}
    (himp : ∀ a, strong a = true → weak a = true) (hle : l.countP weak ≤ l.countP strong) :
    ∀ a ∈ l, weak a = true → strong a = true := by
  induction l with
  | nil => simp
  | cons a l ih =>
      have htail : l.countP strong ≤ l.countP weak := List.countP_mono_left fun x _ => himp x
      rw [List.countP_cons, List.countP_cons] at hle
      rw [List.forall_mem_cons]
      have hstep : (if strong a = true then 1 else 0) ≤ (if weak a = true then 1 else 0) := by
        split
        · rename_i hs
          exact Nat.le_of_eq (if_pos (himp a hs)).symm
        · exact Nat.zero_le _
      constructor
      · intro hw
        by_contra hs
        rw [if_pos hw, if_neg hs] at hle
        omega
      · exact ih (by omega)

/-! ### The main result -/

/-- Patches rendered in git's format are read back exactly when they are
`Readable`. -/
theorem parse_unified_diff_exact (quotePath : Bool) (ps : List FilePatch) :
    parseUnifiedDiff (renderPatches quotePath ps) = .ok (ps.map FilePatch.entry) ↔
      Readable quotePath ps := by
  have hparse : parseUnifiedDiff (renderPatches quotePath ps) = .ok (ps.map FilePatch.entry) ↔
      ∃ st, run .init ((ps.flatMap fun p => p.render quotePath).map stripCr) = .ok st ∧
        st.flush.hunks = ps.map FilePatch.entry := by
    rw [parseUnifiedDiff, lines_renderPatches]
    cases run .init ((ps.flatMap fun p => p.render quotePath).map stripCr) with
    | error e => simp [Except.map]
    | ok st => simp [Except.map]
  rw [hparse]
  constructor
  · rintro ⟨st, hrun, hentries⟩
    -- every changed line left a number
    have hrecorded : ∀ p ∈ ps, ∀ h ∈ p.hunks, ∀ l ∈ h.lines, l.Recorded := by
      have hpushed : st.pushed = (ps.flatMap FilePatch.hunkLines).countP HunkLine.reads := by
        rw [run_pushed hrun, countP_patches]
        exact Nat.zero_add _
      have hsum := sum_entries ps
      rw [← hentries] at hsum
      have hle : (st.flush.hunks.map fun entry => entry.changedLines.length).sum ≤ st.pushed := by
        rw [← pushed_flush]
        exact Nat.le_add_right _ _
      rw [hsum, hpushed] at hle
      have hall := forall_of_countP_le
        (fun l hl => by simpa using ((reads_iff l).mp hl).1) hle
      intro p hp h hh l hl
      by_cases hctx : l.tag = .context
      · simp [HunkLine.Recorded, hctx]
      · have hmem : l ∈ ps.flatMap FilePatch.hunkLines :=
          List.mem_flatMap.mpr ⟨p, hp, List.mem_flatMap.mpr ⟨h, hh, hl⟩⟩
        exact ((reads_iff l).mp (hall l hmem (by simpa using hctx))).2
    -- every patch left an entry
    have hnamed : ∀ p ∈ ps, p.Named quotePath := by
      apply (all_named hrecorded hrun).2
      rw [← length_flush, hentries, List.length_map]
      exact (Nat.zero_add _).symm
    obtain ⟨hfits, heq⟩ := (run_patches (fun p hp => (hnamed p hp).1)
      (fun p hp => (hnamed p hp).2) hrecorded (fun _ => rfl)).mp ⟨st, hrun, hentries⟩
    have hentry : ∀ p ∈ ps, p.readEntry = p.entry := by
      have hmap : ps.map FilePatch.entry = ps.map FilePatch.readEntry := heq
      intro p hp
      exact (List.map_inj_left.mp hmap p hp).symm
    constructor
    · exact fun p hp => (hnamed p hp).1
    · exact fun p hp => ⟨(hnamed p hp).2, (readEntry_eq_iff.mp (hentry p hp)).1⟩
    · exact hrecorded
    · exact fun p hp => (readEntry_eq_iff.mp (hentry p hp)).2
    · exact hfits
  · intro h
    have hentry : ps.map FilePatch.entry = ps.map FilePatch.readEntry := by
      refine List.map_inj_left.mpr fun p hp => ?_
      exact (readEntry_eq_iff.mpr ⟨(h.paths p hp).2, h.markers p hp⟩).symm
    exact (run_patches h.hunks (fun p hp => (h.paths p hp).1) h.contents (fun _ => rfl)).mpr
      ⟨h.counter, hentry⟩

/-- A comment of a query file replaced by another one. -/
def commentPatch : FilePatch :=
  { path := "q.sql".toList
    kind := .modified
    extended := []
    hunks := [
      { oldStart := 1
        newStart := 1
        heading := none
        lines := [
          { tag := .removed, content := ⟨"-- old".toList, by decide⟩, noEol := false },
          { tag := .added, content := ⟨"-- new".toList, by decide⟩, noEol := false }]
        newStart_lt := by decide }] }

/-- The removed comment is taken for a file header: it is not recorded, and the
added one is recorded a line too late. -/
theorem removed_comment_is_lost :
    commentPatch.entry.changedLines = [1, 1] ∧
      parseUnifiedDiff (renderPatches true [commentPatch]) =
        .ok [{ commentPatch.entry with changedLines := [2] }] ∧
      parseUnifiedDiff (renderPatches true [commentPatch]) ≠
        .ok ([commentPatch].map FilePatch.entry) := by
  decide +kernel

end AutomatisedPipeline.Diff

import AutomatisedPipeline.Diff.Patch

/-!
Which patches read back. The reader is run over the rendered lines of a line,
a hunk, a patch and a list of patches; each run succeeds exactly when the
counter stays in range, and then has one closed effect. Two counts say that
nothing else succeeds: a reader records at most one number for each changed
line, and returns at most one entry for each patch that names its file.
-/

namespace AutomatisedPipeline.Diff

open Text

/-- The reader behind the changed lines `marks`, at the line `n`. -/
def Reader.advance (st : Reader) (marks : List Nat) (n : Nat) : Reader :=
  { st with currentLines := st.currentLines ++ marks, currentLine := n }

/-- The numbers the reader records: the marker of a missing line feed counts as
a line to it. -/
def readNumbers (n : Nat) : List HunkLine → List Nat
  | [] => []
  | l :: ls => (if l.tag = .context then [] else [n]) ++ readNumbers (n + l.ticks) ls

/-! ### Runs over a hunk -/

/-- Advancing one step is being in range for one. -/
theorem tick_eq_advance {st st' : Reader} {marks : List Nat} :
    (st.advance marks st.currentLine).tick = .ok st' ↔
      InRange st.currentLine 1 ∧ st' = st.advance marks (st.currentLine + 1) := by
  rw [tick_eq_ok]
  constructor
  · rintro ⟨hlt, rfl⟩
    exact ⟨.inr hlt, rfl⟩
  · rintro ⟨hrange, rfl⟩
    refine ⟨?_, rfl⟩
    rcases hrange with h | h
    · cases h
    · exact h

theorem inRange_add {n a b : Nat} :
    InRange n (a + b) ↔ InRange n a ∧ InRange (n + a) b := by
  unfold InRange
  omega

theorem inRange_zero (n : Nat) : InRange n 0 := .inl rfl

@[simp] theorem advance_nil (st : Reader) : st.advance [] st.currentLine = st := by
  simp [Reader.advance]

@[simp] theorem advance_currentLine (st : Reader) (marks : List Nat) (n : Nat) :
    (st.advance marks n).currentLine = n := rfl

@[simp] theorem advance_advance (st : Reader) (marks marks' : List Nat) (n n' : Nat) :
    (st.advance marks n).advance marks' n' = st.advance (marks ++ marks') n' := by
  simp [Reader.advance]

/-- The line that states a missing line feed. -/
theorem step_noEolMark (st : Reader) : step st (stripCr noEolMark) = st.tick := by
  have hstrip : stripCr noEolMark = noEolMark := by decide
  rw [hstrip]
  exact step_plain (by decide) (by decide)

/-- The first line of a hunk line, when it is no header in disguise. -/
theorem step_content {l : HunkLine} (h : l.Recorded) (st : Reader) :
    step st (stripCr (l.tag.mark :: l.content.chars)) =
      match l.tag with
      | .context => st.tick
      | .added => st.push.tick
      | .removed => .ok st.push := by
  cases htag : l.tag with
  | context =>
      rw [Tag.mark, stripCr_cons (by decide)]
      exact step_plain rfl (by decide)
  | added =>
      rw [Tag.mark, stripCr_cons (by decide)]
      apply step_added
      rw [isPrefixOf_stripCr (by decide)]
      exact h.1 htag
  | removed =>
      rw [Tag.mark, stripCr_cons (by decide)]
      apply step_removed
      rw [isPrefixOf_stripCr (by decide)]
      exact h.2 htag

theorem run_hunkLine {l : HunkLine} (h : l.Recorded) {st st' : Reader} :
    run st (l.render.map stripCr) = .ok st' ↔
      InRange st.currentLine l.ticks ∧
        st' = st.advance (if l.tag = .context then [] else [st.currentLine])
          (st.currentLine + l.ticks) := by
  have hmark : ∀ {mid : Reader},
      run mid ((if l.noEol then [noEolMark] else []).map stripCr) = .ok st' ↔
        InRange mid.currentLine (if l.noEol then 1 else 0) ∧
          st' = mid.advance [] (mid.currentLine + if l.noEol then 1 else 0) := by
    intro mid
    cases l.noEol with
    | false => simp [inRange_zero, eq_comm]
    | true =>
        have htick := @tick_eq_advance mid st' []
        rw [advance_nil] at htick
        simp [run_cons_eq_ok, step_noEolMark, htick]
  have hfirst : ∀ {mid : Reader},
      step st (stripCr (l.tag.mark :: l.content.chars)) = .ok mid ↔
        InRange st.currentLine (if l.tag = .removed then 0 else 1) ∧
          mid = st.advance (if l.tag = .context then [] else [st.currentLine])
            (st.currentLine + if l.tag = .removed then 0 else 1) := by
    intro mid
    rw [step_content h]
    cases l.tag with
    | context =>
        have htick := @tick_eq_advance st mid []
        rw [advance_nil] at htick
        simpa using htick
    | added =>
        have hpush : st.push = st.advance [st.currentLine] st.currentLine := rfl
        simpa [hpush] using @tick_eq_advance st mid [st.currentLine]
    | removed =>
        constructor
        · intro heq
          cases heq
          exact ⟨inRange_zero _, rfl⟩
        · rintro ⟨_, rfl⟩
          rfl
  rw [HunkLine.render, List.map_cons, run_cons_eq_ok, HunkLine.ticks, inRange_add]
  constructor
  · rintro ⟨mid, hstep, hrun⟩
    obtain ⟨hrange, rfl⟩ := hfirst.mp hstep
    obtain ⟨hrange', rfl⟩ := hmark.mp hrun
    exact ⟨⟨hrange, hrange'⟩, by simp [Nat.add_assoc]⟩
  · rintro ⟨⟨hrange, hrange'⟩, rfl⟩
    exact ⟨_, hfirst.mpr ⟨hrange, rfl⟩, hmark.mpr ⟨hrange', by simp [Nat.add_assoc]⟩⟩

theorem run_hunkLines {ls : List HunkLine} (h : ∀ l ∈ ls, l.Recorded) {st st' : Reader} :
    run st ((ls.flatMap HunkLine.render).map stripCr) = .ok st' ↔
      InRange st.currentLine (ls.map HunkLine.ticks).sum ∧
        st' = st.advance (readNumbers st.currentLine ls)
          (st.currentLine + (ls.map HunkLine.ticks).sum) := by
  induction ls generalizing st with
  | nil => simp [inRange_zero, readNumbers, eq_comm]
  | cons l ls ih =>
      have hl := @run_hunkLine l (h l List.mem_cons_self) st
      have hls := @ih fun l' hl' => h l' (List.mem_cons_of_mem _ hl')
      rw [List.flatMap_cons, List.map_append, run_append_eq_ok, List.map_cons, List.sum_cons,
        inRange_add]
      constructor
      · rintro ⟨mid, hrun, hrest⟩
        obtain ⟨hrange, rfl⟩ := hl.mp hrun
        obtain ⟨hrange', rfl⟩ := hls.mp hrest
        exact ⟨⟨hrange, hrange'⟩, by simp [readNumbers, Nat.add_assoc]⟩
      · rintro ⟨⟨hrange, hrange'⟩, rfl⟩
        exact ⟨_, hl.mpr ⟨hrange, rfl⟩,
          hls.mpr ⟨hrange', by simp [readNumbers, Nat.add_assoc]⟩⟩

/-! ### Hunk headers -/

/-- The start behind the plus sign, whatever follows the range. -/
theorem parseHunkHeader_append {before : Str} (hbefore : '+' ∉ before) {start : Nat}
    (hstart : start < 2 ^ 64) {c : Char} (hc : isRangeEnd c = true) (rest : Str) :
    parseHunkHeader (before ++ '+' :: (digits start ++ c :: rest)) = some start := by
  have hdigits : ∀ d ∈ digits start, (!isRangeEnd d) = true := by
    intro d hd
    have hdigit := isDigit_of_mem_digits hd
    rw [Bool.not_eq_true', Bool.eq_false_iff]
    intro hend
    simp only [isRangeEnd, Bool.or_eq_true, beq_iff_eq] at hend
    rcases hend with rfl | rfl <;> exact absurd hdigit (by decide)
  have htake : (digits start ++ c :: rest).takeWhile (fun d => !isRangeEnd d) = digits start := by
    rw [List.takeWhile_append_of_pos hdigits, List.takeWhile_cons_of_neg (by simp [hc]),
      List.append_nil]
  have hany : (digits start ++ c :: rest).any isRangeEnd = true := by simp [hc]
  simp only [parseHunkHeader, splitOnce_append hbefore, hany, if_true, htake]
  exact parseU64_digits hstart

/-- A range ends in front of a comma or of the space behind it. -/
theorem renderRange_split (start count : Nat) (behind : Str) :
    ∃ c rest, isRangeEnd c = true ∧
      renderRange start count ++ ' ' :: behind = digits start ++ c :: rest := by
  unfold renderRange
  split
  · exact ⟨' ', behind, rfl, rfl⟩
  · exact ⟨',', digits count ++ ' ' :: behind, rfl, by simp⟩

theorem step_hunkHeader (h : Hunk) (st : Reader) :
    step st (stripCr h.renderHeader) = .ok { st with currentLine := h.newStart } := by
  have hrange : ∀ c : Char, c.isDigit = false → c ≠ ',' → ∀ start count,
      c ∉ renderRange start count := fun _ hdigit hcomma => not_mem_renderRange hdigit hcomma
  -- the line is the two ranges and what is left of the heading
  have hline : ∃ heading, stripCr h.renderHeader =
      '@' :: '@' :: ' ' :: '-' :: (renderRange h.oldStart (h.count .added) ++ ' ' :: '+' ::
        (renderRange h.newStart (h.count .removed) ++ ' ' :: '@' :: '@' :: heading)) := by
    have hr := hrange '\r' (by decide) (by decide)
    have hstrip : ∀ s : Str, stripCr (['@', '@', ' ', '-'] ++
        (renderRange h.oldStart (h.count .added) ++ ([' ', '+'] ++
          (renderRange h.newStart (h.count .removed) ++ ([' ', '@', '@'] ++ s))))) =
        ['@', '@', ' ', '-'] ++ (renderRange h.oldStart (h.count .added) ++ ([' ', '+'] ++
          (renderRange h.newStart (h.count .removed) ++ ([' ', '@', '@'] ++ stripCr s)))) := by
      intro s
      rw [stripCr_append (by decide), stripCr_append (hr _ _), stripCr_append (by decide),
        stripCr_append (hr _ _), stripCr_append (by decide)]
    cases hheading : h.heading with
    | none =>
        refine ⟨[], ?_⟩
        have := hstrip []
        simpa [Hunk.renderHeader, hunkMark, hheading] using this
    | some text =>
        refine ⟨stripCr (' ' :: text.chars), ?_⟩
        have := hstrip (' ' :: text.chars)
        simpa [Hunk.renderHeader, hunkMark, hheading] using this
  obtain ⟨heading, hline⟩ := hline
  obtain ⟨c, rest, hc, hsplit⟩ :=
    renderRange_split h.newStart (h.count .removed) ('@' :: '@' :: heading)
  have hbefore : '+' ∉ '@' :: '@' :: ' ' :: '-' ::
      (renderRange h.oldStart (h.count .added) ++ [' ']) := by
    simp [hrange '+' (by decide) (by decide)]
  have hparse := parseHunkHeader_append hbefore h.newStart_lt hc rest
  rw [← hsplit] at hparse
  rw [hline]
  simp only [List.cons_append, List.append_assoc, List.nil_append] at hparse
  simp [step, gitMark, oldMark, oldNull, newMark, newNull, hunkMark, List.isPrefixOf?,
    List.isPrefixOf, hparse]

theorem run_hunk {h : Hunk} (hrec : ∀ l ∈ h.lines, l.Recorded) {st st' : Reader} :
    run st (h.render.map stripCr) = .ok st' ↔
      InRange h.newStart h.ticks ∧
        st' = st.advance (readNumbers h.newStart h.lines) (h.newStart + h.ticks) := by
  have hlines := @run_hunkLines h.lines hrec { st with currentLine := h.newStart } st'
  rw [Hunk.render, List.map_cons, run_cons, step_hunkHeader]
  exact hlines

theorem run_hunks {hs : List Hunk} (hrec : ∀ h ∈ hs, ∀ l ∈ h.lines, l.Recorded)
    {st st' : Reader} :
    run st ((hs.flatMap Hunk.render).map stripCr) = .ok st' ↔
      (∀ h ∈ hs, InRange h.newStart h.ticks) ∧
        st' = st.advance (hs.flatMap fun h => readNumbers h.newStart h.lines)
          (counterBehind st.currentLine hs) := by
  induction hs generalizing st with
  | nil => simp [counterBehind, eq_comm]
  | cons h hs ih =>
      have hh := @run_hunk h (hrec h List.mem_cons_self) st
      have hhs := @ih fun h' hh' => hrec h' (List.mem_cons_of_mem _ hh')
      rw [List.flatMap_cons, List.map_append, run_append_eq_ok, List.forall_mem_cons]
      constructor
      · rintro ⟨mid, hrun, hrest⟩
        obtain ⟨hrange, rfl⟩ := hh.mp hrun
        obtain ⟨hrange', rfl⟩ := hhs.mp hrest
        exact ⟨⟨hrange, hrange'⟩, by simp [counterBehind]⟩
      · rintro ⟨⟨hrange, hrange'⟩, rfl⟩
        exact ⟨_, hh.mpr ⟨hrange, rfl⟩, hhs.mpr ⟨hrange', by simp [counterBehind]⟩⟩

/-! ### Runs over a patch -/

theorem step_extended (e : ExtendedHeader) (st : Reader) : step st (stripCr e.render) = st.tick := by
  have hword : ∀ {word value : Str} {c : Char} {rest : Str}, '\r' ∉ word → word = c :: rest →
      (∀ behind, gitMark.isPrefixOf (c :: (rest ++ behind)) = false) →
      (c ≠ '-' ∧ c ≠ '+' ∧ c ≠ '@') → step st (stripCr (word ++ value)) = st.tick := by
    intro word value c rest hcr hsplit hgit hc
    rw [stripCr_append hcr, hsplit, List.cons_append]
    exact step_plain (hgit _) hc
  cases e with
  | oldMode mode => exact hword (by decide) (by rfl) (fun _ => rfl) (by decide)
  | newMode mode => exact hword (by decide) (by rfl) (fun _ => rfl) (by decide)
  | deletedFileMode mode => exact hword (by decide) (by rfl) (fun _ => rfl) (by decide)
  | newFileMode mode => exact hword (by decide) (by rfl) (fun _ => rfl) (by decide)
  | index blobs => exact hword (by decide) (by rfl) (fun _ => rfl) (by decide)

theorem run_extended {es : List ExtendedHeader} {st st' : Reader} :
    run st ((es.map ExtendedHeader.render).map stripCr) = .ok st' ↔
      InRange st.currentLine es.length ∧
        st' = st.advance [] (st.currentLine + es.length) := by
  induction es generalizing st with
  | nil => simp [inRange_zero, eq_comm]
  | cons e es ih =>
      have htick : ∀ {mid : Reader}, st.tick = .ok mid ↔
          InRange st.currentLine 1 ∧ mid = st.advance [] (st.currentLine + 1) := by
        intro mid
        have := @tick_eq_advance st mid []
        rwa [advance_nil] at this
      rw [List.map_cons, List.map_cons, run_cons_eq_ok, step_extended, List.length_cons,
        Nat.add_comm es.length, inRange_add]
      constructor
      · rintro ⟨mid, hstep, hrun⟩
        obtain ⟨hrange, rfl⟩ := htick.mp hstep
        obtain ⟨hrange', rfl⟩ := ih.mp hrun
        exact ⟨⟨hrange, hrange'⟩, by simp [Nat.add_assoc]⟩
      · rintro ⟨⟨hrange, hrange'⟩, rfl⟩
        exact ⟨_, htick.mpr ⟨hrange, rfl⟩, ih.mpr ⟨hrange', by simp [Nat.add_assoc]⟩⟩

theorem withTab_append {side : Str} (hside : ' ' ∉ side) (path : Str) :
    withTab (side ++ path) = side ++ withTab path := by
  unfold withTab
  by_cases h : ' ' ∈ path
  · rw [if_pos h, if_pos (List.mem_append_right side h), List.append_assoc]
  · rw [if_neg h, if_neg (List.not_mem_append hside h)]

section Patch

variable {p : FilePatch} {quotePath : Bool}

theorem not_mem_unquoted {path : Str} (h : path.any (mustQuote quotePath) = false) :
    '\r' ∉ withTab path := by
  have hpath : '\r' ∉ path := by
    intro hmem
    have := List.any_eq_false.mp h '\r' hmem
    exact this rfl
  unfold withTab
  split
  · exact List.not_mem_append hpath (by decide)
  · exact hpath

/-- The line with the old name. -/
theorem step_old (h : p.path.any (mustQuote quotePath) = false) {st : Reader}
    (hst : st.currentFile = none) :
    step st (stripCr (p.renderOld quotePath)) =
      .ok (if p.kind = .created then { st with isNew := true }
        else { st with currentFile := some (withTab p.path) }) := by
  unfold FilePatch.renderOld
  split
  · rw [stripCr_of_not_mem (by decide)]
    rfl
  · have hname : withTab (label quotePath ['a', '/'] p.path) = ['a', '/'] ++ withTab p.path := by
      rw [label, if_neg (by simp [h]), withTab_append (by decide)]
    rw [hname, ← List.append_assoc, stripCr_append (by decide),
      stripCr_of_not_mem (not_mem_unquoted h)]
    simp [step, gitMark, oldMark, List.isPrefixOf?, List.isPrefixOf, hst]

theorem step_new (h : p.path.any (mustQuote quotePath) = false) {st : Reader} :
    step st (stripCr (p.renderNew quotePath)) =
      .ok (if p.kind = .deleted then { st with isDeleted := true }
        else { st with currentFile := some (withTab p.path) }) := by
  unfold FilePatch.renderNew
  split
  · rw [stripCr_of_not_mem (by decide)]
    rfl
  · have hname : withTab (label quotePath ['b', '/'] p.path) = ['b', '/'] ++ withTab p.path := by
      rw [label, if_neg (by simp [h]), withTab_append (by decide)]
    rw [hname, ← List.append_assoc, stripCr_append (by decide),
      stripCr_of_not_mem (not_mem_unquoted h)]
    simp [step, gitMark, oldMark, oldNull, newMark, List.isPrefixOf?, List.isPrefixOf]

theorem step_renderGit (p : FilePatch) (quotePath : Bool) (st : Reader) :
    step st (stripCr (p.renderGit quotePath)) =
      .ok { st.flush with isNew := false, isDeleted := false } := by
  apply step_git
  rw [isPrefixOf_stripCr (by decide), FilePatch.renderGit, List.isPrefixOf_iff_prefix]
  exact List.prefix_append _ _

/-- The entry the reader makes of a patch that names its file. -/
def FilePatch.readEntry (p : FilePatch) : FileHunk :=
  { filePath := withTab p.path
    changedLines := p.hunks.flatMap fun h => readNumbers h.newStart h.lines
    isNew := p.kind = .created
    isDeleted := p.kind = .deleted }

/-- The reader behind such a patch. -/
def Reader.behind (st : Reader) (p : FilePatch) : Reader :=
  { hunks := st.flush.hunks
    currentFile := some p.readEntry.filePath
    currentLines := st.flush.currentLines ++ p.readEntry.changedLines
    currentLine := p.counterAfter st.currentLine
    isNew := p.readEntry.isNew
    isDeleted := p.readEntry.isDeleted }

@[simp] theorem flush_currentFile (st : Reader) : st.flush.currentFile = none := by
  unfold Reader.flush
  split
  · rfl
  · assumption

@[simp] theorem flush_currentLine (st : Reader) : st.flush.currentLine = st.currentLine := by
  unfold Reader.flush
  split <;> rfl

theorem run_patch (hpath : p.path.any (mustQuote quotePath) = false) (hhunks : p.hunks ≠ [])
    (hrec : ∀ h ∈ p.hunks, ∀ l ∈ h.lines, l.Recorded) {st st' : Reader} :
    run st ((p.render quotePath).map stripCr) = .ok st' ↔
      InRange st.currentLine p.extended.length ∧ (∀ h ∈ p.hunks, InRange h.newStart h.ticks) ∧
        st' = st.behind p := by
  have hbody : ∀ {mid : Reader}, mid.currentFile = none → mid.isNew = false →
      mid.isDeleted = false →
      (run mid ((p.renderBody quotePath).map stripCr) = .ok st' ↔
        (∀ h ∈ p.hunks, InRange h.newStart h.ticks) ∧
          st' = { mid with
            currentFile := some p.readEntry.filePath
            currentLines := mid.currentLines ++ p.readEntry.changedLines
            currentLine := counterBehind mid.currentLine p.hunks
            isNew := p.readEntry.isNew
            isDeleted := p.readEntry.isDeleted }) := by
    intro mid hfile hnew hdeleted
    rw [FilePatch.renderBody, if_neg hhunks, List.map_cons, List.map_cons, run_cons,
      step_old hpath hfile]
    simp only [bind, Except.bind]
    rw [run_cons, step_new hpath]
    simp only [bind, Except.bind]
    rw [run_hunks hrec]
    cases hkind : p.kind <;>
      simp [Reader.advance, FilePatch.readEntry, hkind, hfile, hnew, hdeleted]
  rw [FilePatch.render, List.map_cons, run_cons, step_renderGit, List.map_append]
  simp only [bind, Except.bind]
  rw [run_append_eq_ok]
  constructor
  · rintro ⟨mid, hext, hrun⟩
    obtain ⟨hrange, rfl⟩ := run_extended.mp hext
    obtain ⟨hranges, rfl⟩ := (hbody (by simp [Reader.advance]) rfl rfl).mp hrun
    exact ⟨by simpa using hrange, hranges, by simp [Reader.behind, Reader.advance,
      FilePatch.counterAfter]⟩
  · rintro ⟨hrange, hranges, rfl⟩
    refine ⟨_, run_extended.mpr ⟨by simpa using hrange, rfl⟩, ?_⟩
    exact (hbody (by simp [Reader.advance]) rfl rfl).mpr ⟨hranges, by simp [Reader.behind,
      Reader.advance, FilePatch.counterAfter]⟩

end Patch

theorem flush_behind {st : Reader} (h : st.currentFile = none → st.currentLines = [])
    (p : FilePatch) : (st.behind p).flush.hunks = st.flush.hunks ++ [p.readEntry] := by
  have hlines : st.flush.currentLines = [] := by
    unfold Reader.flush
    cases hfile : st.currentFile with
    | none => exact h hfile
    | some fp => rfl
  have hentry : ({ filePath := p.readEntry.filePath
                   changedLines := st.flush.currentLines ++ p.readEntry.changedLines
                   isNew := p.readEntry.isNew
                   isDeleted := p.readEntry.isDeleted } : FileHunk) = p.readEntry := by
    rw [hlines, List.nil_append]
  exact congrArg (fun entry => st.flush.hunks ++ [entry]) hentry

/-- The patches all name their files and no line of theirs looks like a header:
the reader succeeds where the counter fits, with the entries it makes. -/
theorem run_patches {quotePath : Bool} {ps : List FilePatch} (hhunks : ∀ p ∈ ps, p.hunks ≠ [])
    (hpaths : ∀ p ∈ ps, p.path.any (mustQuote quotePath) = false)
    (hrec : ∀ p ∈ ps, ∀ h ∈ p.hunks, ∀ l ∈ h.lines, l.Recorded) {st : Reader}
    (hst : st.currentFile = none → st.currentLines = []) {entries : List FileHunk} :
    (∃ st', run st ((ps.flatMap fun p => p.render quotePath).map stripCr) = .ok st' ∧
        st'.flush.hunks = entries) ↔
      Fits st.currentLine ps ∧ entries = st.flush.hunks ++ ps.map FilePatch.readEntry := by
  induction ps generalizing st with
  | nil => simp [Fits, eq_comm]
  | cons p ps ih =>
      have hp := @run_patch p quotePath (hpaths p List.mem_cons_self)
        (hhunks p List.mem_cons_self) (hrec p List.mem_cons_self) st
      have hps := @ih (fun p' hp' => hhunks p' (List.mem_cons_of_mem _ hp'))
        (fun p' hp' => hpaths p' (List.mem_cons_of_mem _ hp'))
        (fun p' hp' => hrec p' (List.mem_cons_of_mem _ hp')) (st.behind p)
        (fun hnone => by cases hnone)
      rw [flush_behind hst, List.append_assoc, List.singleton_append] at hps
      rw [List.flatMap_cons, List.map_append, Fits, List.map_cons]
      constructor
      · rintro ⟨st', hrun, hentries⟩
        obtain ⟨mid, hmid, hrest⟩ := run_append_eq_ok.mp hrun
        obtain ⟨hrange, hranges, rfl⟩ := hp.mp hmid
        obtain ⟨hfits, heq⟩ := hps.mp ⟨st', hrest, hentries⟩
        exact ⟨⟨hrange, hranges, hfits⟩, heq⟩
      · rintro ⟨⟨hrange, hranges, hfits⟩, heq⟩
        obtain ⟨st', hrest, hentries⟩ := hps.mpr ⟨hfits, heq⟩
        exact ⟨st', run_append_eq_ok.mpr ⟨_, hp.mpr ⟨hrange, hranges, rfl⟩, hrest⟩, hentries⟩

/-! ### The entries read and the entries expected -/

theorem changedNumbers_cons (n : Nat) (l : HunkLine) (ls : List HunkLine) :
    changedNumbers n (l :: ls) = (if l.tag = .context then [] else [n]) ++
      changedNumbers (n + if l.tag = .removed then 0 else 1) ls := by
  cases htag : l.tag <;> simp [changedNumbers, htag]

theorem length_readNumbers (n m : Nat) (ls : List HunkLine) :
    (readNumbers n ls).length = (changedNumbers m ls).length := by
  induction ls generalizing n m with
  | nil => rfl
  | cons l ls ih =>
      rw [readNumbers, changedNumbers_cons, List.length_append, List.length_append,
        ih _ (m + if l.tag = .removed then 0 else 1)]
      split <;> rfl

theorem settled_cons {l : HunkLine} {ls : List HunkLine} :
    Settled (l :: ls) ↔ (∀ l' ∈ ls, l.noEol = true → l'.tag = .context) ∧ Settled ls :=
  List.pairwise_cons

/-- A reader that is `late` lines ahead agrees on what it records exactly when
nothing is left to record; one that is not stays so until a marker. -/
theorem readNumbers_eq_iff {n late : Nat} {ls : List HunkLine} :
    readNumbers (n + late) ls = changedNumbers n ls ↔
      (late = 0 ∨ ∀ l ∈ ls, l.tag = .context) ∧ Settled ls := by
  induction ls generalizing n late with
  | nil => simp [readNumbers, changedNumbers, Settled]
  | cons l ls ih =>
      have hticks : n + late + l.ticks = (n + if l.tag = .removed then 0 else 1) +
          (late + if l.noEol then 1 else 0) := by
        rw [HunkLine.ticks]
        omega
      have hhead : (if l.tag = .context then [] else [n + late]) =
          (if l.tag = .context then [] else [n]) ↔ l.tag = .context ∨ late = 0 := by
        by_cases hctx : l.tag = .context
        · simp [hctx]
        · simp [hctx]
      have hsplit : readNumbers (n + late) (l :: ls) = changedNumbers n (l :: ls) ↔
          (l.tag = .context ∨ late = 0) ∧
            ((late + (if l.noEol then 1 else 0) = 0 ∨ ∀ l' ∈ ls, l'.tag = .context) ∧
              Settled ls) := by
        rw [readNumbers, changedNumbers_cons, hticks, ← hhead, ← ih]
        constructor
        · intro heq
          exact List.append_inj heq (by split <;> rfl)
        · rintro ⟨hfirst, hrest⟩
          rw [hfirst, hrest]
      rw [hsplit, settled_cons, List.forall_mem_cons]
      cases l.noEol with
      | false => simp; grind
      | true => simp; grind

/-- Equal concatenations of pieces of equal lengths have equal pieces. -/
theorem flatMap_eq_iff {α β : Type} {f g : α → List β} (hlen : ∀ a, (f a).length = (g a).length)
    {l : List α} : l.flatMap f = l.flatMap g ↔ ∀ a ∈ l, f a = g a := by
  induction l with
  | nil => simp
  | cons a l ih =>
      rw [List.flatMap_cons, List.flatMap_cons, List.forall_mem_cons, ← ih]
      constructor
      · intro heq
        exact List.append_inj heq (hlen a)
      · rintro ⟨ha, hl⟩
        rw [ha, hl]

theorem withTab_eq_iff {path : Str} : withTab path = path ↔ ' ' ∉ path := by
  unfold withTab
  split
  · rename_i h
    simp [h]
  · rename_i h
    simp [h]

theorem readEntry_eq_iff {p : FilePatch} :
    p.readEntry = p.entry ↔ ' ' ∉ p.path ∧ ∀ h ∈ p.hunks, Settled h.lines := by
  have hnumbers : (p.hunks.flatMap fun h => readNumbers h.newStart h.lines) =
      p.hunks.flatMap Hunk.numbers ↔ ∀ h ∈ p.hunks, Settled h.lines := by
    refine (flatMap_eq_iff (g := Hunk.numbers) fun h => length_readNumbers _ h.newStart _).trans ?_
    refine forall₂_congr fun h _ => ?_
    have hiff := @readNumbers_eq_iff h.newStart 0 h.lines
    simpa [Hunk.numbers] using hiff
  simp only [FilePatch.readEntry, FilePatch.entry, FileHunk.mk.injEq, and_true, hnumbers,
    withTab_eq_iff]

end AutomatisedPipeline.Diff

import AutomatisedPipeline.Resolver.Boundaries

/-!
Which files an `#include` directive copies into a file (`resolver/calls/includes.rs`).

A spelling is read against the directory of the file it stands in; where that names no file,
the files are taken that end with it. The code compares texts there, and what it strips of
the spelling is every leading `./` and after that every leading `../`.
`resolveInclude_named_iff` says for which spellings this is the rule about segments.
-/

namespace AutomatisedPipeline.Includes

open Text

/-! ### The resolution of a spelling -/

/-- The text after the last `/`, or all of it. -/
def lastSegment (path : Str) : Str := (path.splitOn '/').getLast (List.splitOn_ne_nil '/' path)

/-- `by_basename`. -/
def byBasename (fileIds : List Str) : List (Str × List Str) :=
  fileIds.foldl (fun map id => Assoc.upsert (lastSegment id) [] (· ++ [id]) map) []

/-- The directory part of a file id: the text before the last `/`, or nothing. -/
def dirOf (id : Str) : Str := ['/'].intercalate (id.splitOn '/').dropLast

/-- One segment of `normalize`. -/
def foldSegment (parts : List Str) (segment : Str) : Option (List Str) :=
  if segment = [] ∨ segment = ['.'] then some parts
  else if segment = ['.', '.'] then if parts = [] then none else some parts.dropLast
  else some (parts ++ [segment])

/-- `normalize`: `dir/path` with `.` and `..` folded, `none` when `..` leaves the repository. -/
def normalize (dir path : Str) : Option Str :=
  ((path.splitOn '/').foldlM foldSegment ((dir.splitOn '/').filter (· ≠ []))).map
    ['/'].intercalate

/-- The loop of `str::trim_start_matches`. -/
def trimLoop (pat : Str) : Nat → Str → Str
  | 0, s => s
  | fuel + 1, s =>
      match pat.isPrefixOf? s with
      | some rest => trimLoop pat fuel rest
      | none => s

/-- `str::trim_start_matches` of a pattern that is not empty. -/
def trimStartMatches (pat s : Str) : Str := trimLoop pat s.length s

/-- The spelling as it is matched: without each leading `./`, then without each `../`. -/
def tailOf (path : Str) : Str := trimStartMatches "../".toList (trimStartMatches "./".toList path)

/-- `resolve_include`. -/
def resolveInclude (includer path : Str) (fileIds : List Str)
    (byBasename : List (Str × List Str)) : List Str :=
  match (normalize (dirOf includer) path).filter (· ∈ fileIds) with
  | some relative => [relative]
  | none =>
      let tail := tailOf path
      match byBasename.lookup (lastSegment tail) with
      | none => []
      | some candidates => candidates.filter fun id => id = tail ∨ ('/' :: tail).isSuffixOf id

example : resolveInclude "src/u.c".toList "util/c.h".toList
    ["inc/util/c.h".toList, "myutil/c.h".toList]
    (byBasename ["inc/util/c.h".toList, "myutil/c.h".toList]) = ["inc/util/c.h".toList] := by
  decide +kernel

/-! ### Segments -/

/-- The segments of a path, empty ones left out. -/
def segments (path : Str) : List Str := (path.splitOn '/').filter (· ≠ [])

/-- The segments of a spelling behind the leading `.` and `..`. -/
def tailSegments (path : Str) : List Str :=
  (segments path).dropWhile fun s => s = ['.'] ∨ s = ['.', '.']

/-- The file ends with the tail of the spelling. -/
def EndsWith (path id : Str) : Prop := tailSegments path <:+ segments id

/-- Followed from a directory, the segments lead to a path of the repository. -/
inductive Leads : (dir segments parts : List Str) → Prop
  | here {dir : List Str} : Leads dir [] dir
  | stay {dir rest parts : List Str} {segment : Str} : segment = [] ∨ segment = ['.'] →
      Leads dir rest parts → Leads dir (segment :: rest) parts
  | up {dir rest parts : List Str} {name : Str} : Leads dir rest parts →
      Leads (dir ++ [name]) (['.', '.'] :: rest) parts
  | down {dir rest parts : List Str} {segment : Str} : segment ≠ [] → segment ≠ ['.'] →
      segment ≠ ['.', '.'] → Leads (dir ++ [segment]) rest parts → Leads dir (segment :: rest) parts

/-- The lexical resolution of a spelling against the directory of the includer. -/
def Lexical (includer path id : Str) : Prop :=
  ∃ parts, Leads (segments (dirOf includer)) (path.splitOn '/') parts ∧ ['/'].intercalate parts = id

section Leads

variable {dir rest parts : List Str} {segment name : Str}

theorem leads_nil : Leads dir [] parts ↔ dir = parts := by
  constructor
  · intro h
    cases h
    rfl
  · rintro rfl
    exact .here

theorem leads_stay (hstay : segment = [] ∨ segment = ['.']) :
    Leads dir (segment :: rest) parts ↔ Leads dir rest parts := by
  refine ⟨fun h => ?_, .stay hstay⟩
  cases h with
  | stay _ h => exact h
  | up h => simp at hstay
  | down hne hdot _ _ => exact absurd hstay (by simp [hne, hdot])

/-- There is nothing above the root. -/
theorem not_leads_above : ¬Leads [] (['.', '.'] :: rest) parts := by
  intro h
  generalize hdir : ([] : List Str) = dir at h
  cases h with
  | stay hdots _ => simp at hdots
  | up h => simp at hdir
  | down _ _ hne _ => exact hne rfl

theorem leads_up : Leads (dir ++ [name]) (['.', '.'] :: rest) parts ↔ Leads dir rest parts := by
  refine ⟨fun h => ?_, .up⟩
  generalize hdir : dir ++ [name] = dir' at h
  cases h with
  | stay hdots _ => simp at hdots
  | up h =>
      rw [(List.append_inj' hdir rfl).1]
      exact h
  | down _ _ hne _ => exact absurd rfl hne

theorem leads_down (hstay : ¬(segment = [] ∨ segment = ['.'])) (hup : segment ≠ ['.', '.']) :
    Leads dir (segment :: rest) parts ↔ Leads (dir ++ [segment]) rest parts := by
  obtain ⟨hne, hdot⟩ := not_or.mp hstay
  refine ⟨fun h => ?_, .down hne hdot hup⟩
  cases h with
  | stay h _ => exact absurd h hstay
  | up h => exact absurd rfl hup
  | down _ _ _ h => exact h

theorem foldSegment_stay (hstay : segment = [] ∨ segment = ['.']) :
    foldSegment dir segment = some dir := if_pos hstay

theorem foldSegment_above : foldSegment [] ['.', '.'] = none := rfl

theorem foldSegment_up : foldSegment (dir ++ [name]) ['.', '.'] = some dir := by
  rw [foldSegment, if_neg (by simp), if_pos rfl, if_neg (by simp), List.dropLast_concat]

theorem foldSegment_down (hstay : ¬(segment = [] ∨ segment = ['.']))
    (hup : segment ≠ ['.', '.']) : foldSegment dir segment = some (dir ++ [segment]) := by
  rw [foldSegment, if_neg hstay, if_neg hup]

/-- The fold over the segments gets where they lead. -/
theorem foldlM_foldSegment {segs dir parts : List Str} :
    segs.foldlM foldSegment dir = some parts ↔ Leads dir segs parts := by
  induction segs generalizing dir with
  | nil =>
      rw [leads_nil, List.foldlM_nil]
      exact Option.some_inj
  | cons segment segs ih =>
      rw [List.foldlM_cons]
      by_cases hstay : segment = [] ∨ segment = ['.']
      · rw [foldSegment_stay hstay, leads_stay hstay]
        exact ih
      · by_cases hup : segment = ['.', '.']
        · subst hup
          rcases List.eq_nil_or_concat dir with rfl | ⟨dir, name, rfl⟩
          · rw [foldSegment_above]
            exact iff_of_false (fun h => by cases h) not_leads_above
          · rw [List.concat_eq_append, foldSegment_up, leads_up]
            exact ih
        · rw [foldSegment_down hstay hup, leads_down hstay hup]
          exact ih

end Leads

theorem normalize_eq_some {includer path id : Str} :
    normalize (dirOf includer) path = some id ↔ Lexical includer path id := by
  rw [normalize, Option.map_eq_some_iff]
  exact exists_congr fun parts => and_congr_left' foldlM_foldSegment

/-! ### What is stripped -/

/-- Segments without the leading ones of a name, but the last one. -/
def dropRun (name : Str) : List Str → List Str
  | a :: b :: rest => if a = name then dropRun name (b :: rest) else a :: b :: rest
  | segs => segs

/-- What is dropped is a run of the name. -/
theorem exists_replicate_dropRun (name : Str) (segs : List Str) :
    ∃ n, segs = List.replicate n name ++ dropRun name segs := by
  induction segs with
  | nil => exact ⟨0, rfl⟩
  | cons a segs ih =>
      cases segs with
      | nil => exact ⟨0, rfl⟩
      | cons b rest =>
          rw [dropRun]
          split
          · rename_i ha
            obtain ⟨n, hn⟩ := ih
            refine ⟨n + 1, ?_⟩
            rw [List.replicate_succ, List.cons_append, ← hn, ha]
          · exact ⟨0, rfl⟩

/-- A run of a name in front of something else is dropped, all of it. -/
theorem dropRun_replicate_append {name : Str} (n : Nat) {tail : List Str} (hne : tail ≠ [])
    (hhead : tail.head? ≠ some name) : dropRun name (List.replicate n name ++ tail) = tail := by
  induction n with
  | zero =>
      rw [List.replicate_zero, List.nil_append]
      cases tail with
      | nil => exact absurd rfl hne
      | cons a tail =>
          cases tail with
          | nil => rfl
          | cons b rest => rw [dropRun, if_neg fun h => hhead (congrArg some h)]
  | succ n ih =>
      have hlist : List.replicate n name ++ tail ≠ [] := List.append_ne_nil_of_right_ne_nil _ hne
      obtain ⟨b, rest, heq⟩ := List.exists_cons_of_ne_nil hlist
      rw [List.replicate_succ, List.cons_append, heq, dropRun, if_pos rfl, ← heq, ih]

theorem splitOn_trimLoop (name : Str) {s : Str} (hname : '/' ∉ name) {fuel : Nat}
    (h : s.length ≤ fuel) :
    (trimLoop (name ++ ['/']) fuel s).splitOn '/' = dropRun name (s.splitOn '/') := by
  induction fuel generalizing s with
  | zero =>
      obtain rfl := List.length_eq_zero_iff.mp (Nat.le_zero.mp h)
      rfl
  | succ fuel ih =>
      rw [trimLoop]
      cases hp : (name ++ ['/']).isPrefixOf? s with
      | some rest =>
          obtain rfl := List.isPrefixOf?_eq_some_iff_append_eq.mp hp
          obtain ⟨b, more, hrest⟩ := List.exists_cons_of_ne_nil (List.splitOn_ne_nil '/' rest)
          rw [List.append_assoc, List.singleton_append,
            List.splitOn_append_cons_self_of_not_mem hname, hrest, dropRun, if_pos rfl, ← hrest]
          refine ih ?_
          rw [List.length_append, List.length_append, List.length_singleton] at h
          omega
      | none =>
          dsimp only
          cases hsegs : s.splitOn '/' with
          | nil => exact absurd hsegs (List.splitOn_ne_nil '/' s)
          | cons a segs =>
              cases segs with
              | nil => rfl
              | cons b rest =>
                  have hs : ['/'].intercalate (s.splitOn '/') = s := List.intercalate_splitOn '/'
                  rw [hsegs, List.intercalate_cons_of_ne_nil (List.cons_ne_nil b rest)] at hs
                  rw [dropRun, if_neg]
                  rintro rfl
                  have hsome := List.isPrefixOf?_eq_some_iff_append_eq.mpr hs
                  rw [hp] at hsome
                  cases hsome

theorem splitOn_tailOf (path : Str) : (tailOf path).splitOn '/' =
    dropRun ['.', '.'] (dropRun ['.'] (path.splitOn '/')) := by
  have hdots : (trimStartMatches "./".toList path).splitOn '/' = dropRun ['.'] (path.splitOn '/') :=
    splitOn_trimLoop ['.'] (by simp) le_rfl
  rw [← hdots]
  exact splitOn_trimLoop ['.', '.'] (by simp) le_rfl

/-- In front of what is matched stand the leading `.`, and behind them the leading `..`. -/
theorem exists_splitOn_eq (path : Str) : ∃ i j, path.splitOn '/' =
    List.replicate i ['.'] ++ (List.replicate j ['.', '.'] ++ (tailOf path).splitOn '/') := by
  obtain ⟨i, hi⟩ := exists_replicate_dropRun ['.'] (path.splitOn '/')
  obtain ⟨j, hj⟩ := exists_replicate_dropRun ['.', '.'] (dropRun ['.'] (path.splitOn '/'))
  refine ⟨i, j, ?_⟩
  rw [splitOn_tailOf, ← hj, ← hi]

theorem dropWhile_replicate_append {α : Type} {p : α → Bool} {a : α} (h : p a = true) (n : Nat)
    (l : List α) : (List.replicate n a ++ l).dropWhile p = l.dropWhile p := by
  rw [List.dropWhile_append, List.dropWhile_replicate]
  simp [h]

/-- The tail of a spelling is the tail of what is matched. -/
theorem tailSegments_tailOf (path : Str) : tailSegments (tailOf path) = tailSegments path := by
  obtain ⟨i, j, hpath⟩ := exists_splitOn_eq path
  rw [tailSegments, tailSegments, segments, segments, hpath, List.filter_append, List.filter_append,
    List.filter_replicate_of_pos (by simp), List.filter_replicate_of_pos (by simp),
    dropWhile_replicate_append (by simp), dropWhile_replicate_append (by simp)]

/-! ### What is named -/

/-- The files that a spelling names: its lexical resolution where that is a file, and else
those that end with its tail. -/
def Named (includer path : Str) (ids : List Str) (id : Str) : Prop :=
  id ∈ ids ∧ (Lexical includer path id ∨
    (∀ other ∈ ids, ¬Lexical includer path other) ∧ EndsWith path id)

/-- The file ends with the text that is matched. -/
def EndsWithText (path id : Str) : Prop := (tailOf path).splitOn '/' <:+ id.splitOn '/'

theorem EndsWithText.endsWith {path id : Str} (h : EndsWithText path id) : EndsWith path id := by
  rw [EndsWith, ← tailSegments_tailOf]
  exact (List.dropWhile_suffix _).trans (h.filter _)

theorem mem_byBasename {ids : List Str} {name id : Str} :
    id ∈ ((byBasename ids).lookup name).getD [] ↔ id ∈ ids ∧ lastSegment id = name := by
  have hgroup := Assoc.lookup_group lastSegment (fun id : Str => id) ids name
  rw [List.map_id'] at hgroup
  rw [byBasename, hgroup, List.mem_filter, decide_eq_true_iff]

/-- The test of the loop over the files of one last segment. -/
theorem mem_bucket_iff {path id : Str} {ids : List Str} :
    id ∈ ids ∧ EndsWithText path id ↔
      id ∈ ((byBasename ids).lookup (lastSegment (tailOf path))).getD [] ∧
        (id = tailOf path ∨ ('/' :: tailOf path).isSuffixOf id = true) := by
  have hlast : EndsWithText path id → lastSegment id = lastSegment (tailOf path) :=
    fun h => (h.getLast (List.splitOn_ne_nil '/' _)).symm
  rw [mem_byBasename, List.isSuffixOf_iff_suffix, @eq_comm _ id (tailOf path),
    ← Resolver.splitOn_suffix_iff]
  exact ⟨fun h => ⟨⟨h.1, hlast h.2⟩, h.2⟩, fun h => ⟨h.1.1, h.2⟩⟩

theorem mem_resolveInclude {includer path id : Str} {ids : List Str} :
    id ∈ resolveInclude includer path ids (byBasename ids) ↔
      id ∈ ids ∧ (Lexical includer path id ∨
        (∀ other ∈ ids, ¬Lexical includer path other) ∧ EndsWithText path id) := by
  rw [resolveInclude]
  cases hfound : (normalize (dirOf includer) path).filter (· ∈ ids) with
  | some relative =>
      obtain ⟨hnormal, hmem⟩ := Option.filter_eq_some_iff.mp hfound
      have hmem : relative ∈ ids := of_decide_eq_true hmem
      have hlexical := normalize_eq_some.mp hnormal
      rw [List.mem_singleton]
      constructor
      · rintro rfl
        exact ⟨hmem, .inl hlexical⟩
      · rintro ⟨-, hid | ⟨hnone, -⟩⟩
        · have hsame := normalize_eq_some.mpr hid
          rw [hnormal] at hsame
          exact (Option.some.inj hsame).symm
        · exact absurd hlexical (hnone relative hmem)
  | none =>
      have hnone : ∀ other ∈ ids, ¬Lexical includer path other := by
        intro other hother hlexical
        have := Option.filter_eq_none_iff.mp hfound other (normalize_eq_some.mpr hlexical)
        exact this (decide_eq_true hother)
      have htext : id ∈ ids ∧ (Lexical includer path id ∨
          (∀ other ∈ ids, ¬Lexical includer path other) ∧ EndsWithText path id) ↔
          id ∈ ids ∧ EndsWithText path id := by
        constructor
        · rintro ⟨hid, hlexical | ⟨-, h⟩⟩
          · exact absurd hlexical (hnone id hid)
          · exact ⟨hid, h⟩
        · exact fun h => ⟨h.1, .inr ⟨hnone, h.2⟩⟩
      rw [htext, mem_bucket_iff]
      dsimp only
      cases (byBasename ids).lookup (lastSegment (tailOf path)) with
      | none => simp
      | some candidates => simp [List.mem_filter]

/-- The code names what it should exactly where the spelling is a file as it stands, or all
files with its tail end with the text that is matched. -/
theorem resolveInclude_named_iff (includer path : Str) (ids : List Str) :
    (∀ id, id ∈ resolveInclude includer path ids (byBasename ids) ↔ Named includer path ids id) ↔
      (∃ id ∈ ids, Lexical includer path id) ∨ ∀ id ∈ ids, EndsWith path id → EndsWithText path id := by
  by_cases hlexical : ∃ id ∈ ids, Lexical includer path id
  · refine iff_of_true (fun id => ?_) (.inl hlexical)
    have hsome : ¬∀ other ∈ ids, ¬Lexical includer path other := by
      push Not
      exact hlexical
    rw [mem_resolveInclude, Named]
    simp only [hsome, false_and]
  · have hnone : ∀ other ∈ ids, ¬Lexical includer path other := by
      push Not at hlexical
      exact hlexical
    rw [or_iff_right hlexical]
    have hid (id : Str) (h : id ∈ ids) :
        (id ∈ resolveInclude includer path ids (byBasename ids) ↔ Named includer path ids id) ↔
          (EndsWith path id → EndsWithText path id) := by
      rw [mem_resolveInclude, Named, or_iff_right (hnone id h), or_iff_right (hnone id h),
        and_iff_right hnone, and_iff_right hnone, and_iff_right h, and_iff_right h]
      exact ⟨fun heq => heq.mpr, fun himp => ⟨EndsWithText.endsWith, himp⟩⟩
    constructor
    · exact fun h id hmem => (hid id hmem).mp (h id)
    · intro h id
      by_cases hmem : id ∈ ids
      · exact (hid id hmem).mpr (h id hmem)
      · rw [mem_resolveInclude, Named]
        exact iff_of_false (fun h => hmem h.1) fun h => hmem h.1

/-! ### Spellings of one form -/

/-- The id of a file: the segments of a path of the repository. -/
abbrev FileId : Type := { id : Str // ∀ s ∈ id.splitOn '/', s ≠ [] ∧ s ≠ ['.'] ∧ s ≠ ['.', '.'] }

/-- Leading `.`, then leading `..`, then a path without a repeated slash. -/
def Tidy (path : Str) : Prop :=
  ∃ i j tail, path.splitOn '/' = List.replicate i ['.'] ++ (List.replicate j ['.', '.'] ++ tail) ∧
    tail ≠ [] ∧ [] ∉ tail ∧ tail.head? ≠ some ['.'] ∧ tail.head? ≠ some ['.', '.']

theorem tidy_iff {path : Str} : Tidy path ↔ [] ∉ (tailOf path).splitOn '/' ∧
    ((tailOf path).splitOn '/').head? ≠ some ['.'] ∧
      ((tailOf path).splitOn '/').head? ≠ some ['.', '.'] := by
  constructor
  · rintro ⟨i, j, tail, hpath, hne, hempty, hdot, hup⟩
    have hhead : (List.replicate j ['.', '.'] ++ tail).head? ≠ some ['.'] := by
      cases j with
      | zero => exact hdot
      | succ j => simp [List.replicate_succ]
    rw [splitOn_tailOf, hpath, dropRun_replicate_append i (by simp [hne]) hhead,
      dropRun_replicate_append j hne hup]
    exact ⟨hempty, hdot, hup⟩
  · rintro ⟨hempty, hdot, hup⟩
    obtain ⟨i, j, hpath⟩ := exists_splitOn_eq path
    exact ⟨i, j, _, hpath, List.splitOn_ne_nil '/' _, hempty, hdot, hup⟩

theorem segments_fileId (id : FileId) : segments id.1 = id.1.splitOn '/' := by
  rw [segments, List.filter_eq_self]
  exact fun s hs => decide_eq_true (id.2 s hs).1

theorem Tidy.tailSegments_eq {path : Str} (h : Tidy path) :
    tailSegments path = (tailOf path).splitOn '/' := by
  obtain ⟨hempty, hdot, hup⟩ := tidy_iff.mp h
  have hfilter : segments (tailOf path) = (tailOf path).splitOn '/' := by
    rw [segments, List.filter_eq_self]
    exact fun s hs => decide_eq_true fun heq => hempty (heq ▸ hs)
  rw [← tailSegments_tailOf, tailSegments, hfilter]
  cases hsegs : (tailOf path).splitOn '/' with
  | nil => rfl
  | cons s segs =>
      rw [hsegs, List.head?_cons] at hdot hup
      refine List.dropWhile_cons_of_neg ?_
      rw [decide_eq_true_iff]
      rintro (rfl | rfl)
      · exact hdot rfl
      · exact hup rfl

/-- What is matched of another spelling is no end of a file id. -/
theorem not_endsWithText {path : Str} (h : ¬Tidy path) (id : FileId) : ¬EndsWithText path id.1 := by
  intro hends
  have hproper : ∀ s ∈ (tailOf path).splitOn '/', s ≠ [] ∧ s ≠ ['.'] ∧ s ≠ ['.', '.'] :=
    fun s hs => id.2 s (hends.subset hs)
  refine h (tidy_iff.mpr ⟨fun hmem => (hproper _ hmem).1 rfl, fun hhead => ?_, fun hhead => ?_⟩)
  · exact (hproper _ (List.mem_of_mem_head? hhead)).2.1 rfl
  · exact (hproper _ (List.mem_of_mem_head? hhead)).2.2 rfl

theorem endsWithText_iff {path : Str} (h : Tidy path) (id : FileId) :
    EndsWithText path id.1 ↔ EndsWith path id.1 := by
  rw [EndsWith, segments_fileId, h.tailSegments_eq]
  exact Iff.rfl

/-- Over the ids of files: the spelling is a file as it stands, or it has one form, or it
names no file at all. -/
theorem resolveInclude_named_iff_tidy (includer path : Str) (ids : List FileId) :
    (∀ id, id ∈ resolveInclude includer path (ids.map Subtype.val)
        (byBasename (ids.map Subtype.val)) ↔ Named includer path (ids.map Subtype.val) id) ↔
      (∃ id ∈ ids, Lexical includer path id.1) ∨ Tidy path ∨ ∀ id ∈ ids, ¬EndsWith path id.1 := by
  have hlexical : (∃ id ∈ ids.map Subtype.val, Lexical includer path id) ↔
      ∃ id ∈ ids, Lexical includer path id.1 := by
    simp
  rw [resolveInclude_named_iff, hlexical, List.forall_mem_map]
  refine or_congr_right ?_
  by_cases htidy : Tidy path
  · exact iff_of_true (fun id _ => (endsWithText_iff htidy id).mpr) (.inl htidy)
  · rw [or_iff_right htidy]
    refine forall₂_congr fun id _ => ?_
    rw [iff_false_intro (not_endsWithText htidy id)]

/-- What `resolve_include` names, over any texts and over the ids of files. -/
theorem resolveInclude_exact (includer path : Str) :
    (∀ ids : List Str,
      (∀ id, id ∈ resolveInclude includer path ids (byBasename ids) ↔
        Named includer path ids id) ↔
        (∃ id ∈ ids, Lexical includer path id) ∨
          ∀ id ∈ ids, EndsWith path id → EndsWithText path id) ∧
    ∀ ids : List FileId,
      (∀ id, id ∈ resolveInclude includer path (ids.map Subtype.val)
          (byBasename (ids.map Subtype.val)) ↔ Named includer path (ids.map Subtype.val) id) ↔
        (∃ id ∈ ids, Lexical includer path id.1) ∨ Tidy path ∨ ∀ id ∈ ids, ¬EndsWith path id.1 :=
  ⟨resolveInclude_named_iff includer path, resolveInclude_named_iff_tidy includer path⟩

/-- A `./` behind the `../` is not stripped, and no file id has one. -/
theorem not_resolveInclude_upThenDot : ¬∀ id, id ∈ resolveInclude "a/u.c".toList
    ".././x.h".toList ["inc/x.h".toList] (byBasename ["inc/x.h".toList]) ↔
      Named "a/u.c".toList ".././x.h".toList ["inc/x.h".toList] id := by
  intro h
  have hnamed : Named "a/u.c".toList ".././x.h".toList ["inc/x.h".toList] "inc/x.h".toList := by
    refine ⟨List.mem_singleton_self _, .inr ⟨fun other hother hlexical => ?_, ?_⟩⟩
    · rw [List.mem_singleton.mp hother] at hlexical
      have hnormal := normalize_eq_some.mpr hlexical
      exact absurd hnormal (by decide +kernel)
    · exact ⟨["inc".toList], by decide +kernel⟩
  exact absurd ((h _).mpr hnamed) (by decide +kernel)

end AutomatisedPipeline.Includes

import AutomatisedPipeline.Resolver.Ambiguity
import AutomatisedPipeline.Resolver.FileIds

/-!
The evidence tiers compare texts and speak of paths.

The import tier asks whether one text ends with the other, the locality tiers whether a name
begins with a path. Each is right where the ends of the texts are ends of segments:
`importMatches_exact_iff` and `respectsBoundaries_iff` say for which names that is.
-/

namespace AutomatisedPipeline.Resolver

open Text

open Candidate (qualifiedName)

/-! ### Segments -/

/-- A name with `/` for every `::`. -/
def slashed (name : Str) : Str := replace "::".toList ['/'] name

/-- A name with `/` for every separator. -/
def separated (name : Str) : Str := replace ['.'] ['/'] (slashed name)

/-- The segments of a name; the empty name has none. -/
def pathSegments (name : Str) : List Str :=
  if name = [] then [] else (separated name).splitOn '/'

/-- One segment list is a suffix of the other, and not an empty one. -/
def SegmentMatch (imp name : Str) : Prop :=
  pathSegments imp ≠ [] ∧ pathSegments imp <:+ pathSegments name ∨
    pathSegments name ≠ [] ∧ pathSegments name <:+ pathSegments imp

theorem splitOn_suffix_iff {a : Char} {s t : Str} :
    s.splitOn a <:+ t.splitOn a ↔ s = t ∨ a :: s <:+ t := by
  constructor
  · rintro ⟨pre, hpre⟩
    have hjoin : ∀ pre : List Str, s = [a].intercalate (pre ++ s.splitOn a) ∨
        a :: s <:+ [a].intercalate (pre ++ s.splitOn a) := by
      intro pre
      induction pre with
      | nil => exact .inl (List.intercalate_splitOn a).symm
      | cons part pre ih =>
          right
          have hne : pre ++ s.splitOn a ≠ [] :=
            List.append_ne_nil_of_right_ne_nil _ (List.splitOn_ne_nil a s)
          rw [List.cons_append, List.intercalate_cons_of_ne_nil hne, List.append_assoc]
          refine List.suffix_append_of_suffix ?_
          rcases ih with heq | hsuffix
          · rw [← heq]
            exact List.suffix_rfl
          · exact hsuffix.trans (List.suffix_cons _ _)
    have htext := hjoin pre
    rwa [hpre, List.intercalate_splitOn] at htext
  · rintro (rfl | ⟨x, rfl⟩)
    · exact List.suffix_rfl
    · rw [List.splitOn_append_cons_self]
      exact List.suffix_append _ _

theorem replace_char (a b : Char) (s : Str) :
    replace [a] [b] s = s.map fun c => if c = a then b else c := by
  induction s with
  | nil => rw [replace, List.map_nil]
  | cons c s ih =>
      rw [replace, List.map_cons]
      by_cases hc : c = a
      · simp [hc, ih]
      · have hne : ¬ [a].isPrefixOf (c :: s) = true := by
          simpa using Ne.symm hc
        rw [if_neg hne, if_neg hc, ih]

theorem slashed_eq_nil_iff {name : Str} : slashed name = [] ↔ name = [] := by
  cases name with
  | nil => simp [slashed, replace]
  | cons c name =>
      rw [slashed, replace]
      split <;> simp

/-! ### The dots of a name -/

/-- `/` for every dot. -/
def undot (s : Str) : Str := s.map fun c => if c = '.' then '/' else c

theorem separated_eq (name : Str) : separated name = undot (slashed name) := replace_char _ _ _

theorem length_undot (s : Str) : (undot s).length = s.length := List.length_map _

theorem not_dot_mem_undot (s : Str) : '.' ∉ undot s := by
  rw [undot, List.mem_map]
  rintro ⟨c, -, hc⟩
  split at hc
  · cases hc
  · rename_i hne
    exact hne hc

theorem undot_eq_self_iff {s : Str} : undot s = s ↔ '.' ∉ s := by
  constructor
  · intro h
    rw [← h]
    exact not_dot_mem_undot s
  · intro h
    have hsame : ∀ c ∈ s, (if c = '.' then '/' else c) = c := by
      rintro c hc
      rw [if_neg]
      rintro rfl
      exact h hc
    rw [undot, List.map_congr_left hsame, List.map_id']

theorem undot_drop (n : Nat) (s : Str) : undot (s.drop n) = (undot s).drop n := List.map_drop

theorem undot_append (s t : Str) : undot (s ++ t) = undot s ++ undot t := List.map_append

theorem getLast?_undot {s : Str} :
    (undot s).getLast? = some '/' ↔ s.getLast? = some '/' ∨ s.getLast? = some '.' := by
  rw [undot, List.getLast?_map, Option.map_eq_some_iff]
  constructor
  · rintro ⟨c, hc, hslash⟩
    split at hslash
    · rename_i hdot
      exact .inr (hdot ▸ hc)
    · exact .inl (hslash ▸ hc)
  · rintro (h | h)
    · exact ⟨'/', h, rfl⟩
    · exact ⟨'.', h, rfl⟩

/-! ### The import tier -/

/-- The segments match: the names are equal once separated, or the longer one goes on to the
left with a separator. -/
theorem segmentMatch_iff {imp name : Str} :
    SegmentMatch imp name ↔ (imp ≠ [] ∧ name ≠ []) ∧
      (separated imp = separated name ∨ '/' :: separated imp <:+ separated name ∨
        '/' :: separated name <:+ separated imp) := by
  have hne : ∀ s : Str, (separated s).splitOn '/' ≠ [] := fun s => List.splitOn_ne_nil _ _
  rw [SegmentMatch, pathSegments, pathSegments]
  by_cases himp : imp = []
  · have hempty : ¬ (pathSegments name ≠ [] ∧ pathSegments name <:+ []) :=
      fun h => h.1 (List.suffix_nil.mp h.2)
    rw [pathSegments] at hempty
    simp only [himp, if_true]
    exact iff_of_false (fun h => h.elim (fun h => h.1 rfl) hempty) fun h => h.1.1 rfl
  by_cases hname : name = []
  · simp only [himp, hname, if_true, if_false]
    refine iff_of_false (fun h => ?_) fun h => h.1.2 rfl
    rcases h with ⟨-, h⟩ | ⟨h, -⟩
    · exact hne imp (List.suffix_nil.mp h)
    · exact h rfl
  simp only [himp, hname, if_false, splitOn_suffix_iff]
  constructor
  · rintro (⟨-, h⟩ | ⟨-, h⟩)
    · exact ⟨⟨himp, hname⟩, h.imp_right .inl⟩
    · exact ⟨⟨himp, hname⟩, h.elim (fun heq => .inl heq.symm) fun h => .inr (.inr h)⟩
  · rintro ⟨-, heq | h | h⟩
    · exact .inl ⟨hne imp, .inl heq⟩
    · exact .inl ⟨hne imp, .inr h⟩
    · exact .inr ⟨hne name, .inr h⟩

/-- The text of the import and the text of the name are cut at ends of segments, and no dot
hides one. -/
structure CleanCut (imp name : Str) : Prop where
  spelled : imp ≠ []
  named : name ≠ []
  below : ∀ x, slashed name = x ++ separated imp →
    x = [] ∨ x.getLast? = some '/' ∨ x.getLast? = some '.'
  above : ∀ x, separated imp = x ++ slashed name → x = [] ∨ x.getLast? = some '/'
  undotted : SegmentMatch imp name →
    '.' ∉ (slashed name).drop ((slashed name).length - (separated imp).length)

section Import

variable {imp name : Str}

theorem getLast?_of_suffix_append {a : Char} {x t : Str} (h : a :: t <:+ x ++ t) :
    x.getLast? = some a := by
  obtain ⟨y, hy⟩ := h
  have hx : x = y ++ [a] := by
    have hcut : x ++ t = (y ++ [a]) ++ t := by
      rw [← hy, List.append_assoc]
      rfl
    exact List.append_cancel_right hcut
  rw [hx, List.getLast?_concat]

theorem not_dot_mem_separated : '.' ∉ separated imp := by
  rw [separated_eq]
  exact not_dot_mem_undot _

theorem length_separated : (separated name).length = (slashed name).length := by
  rw [separated_eq, length_undot]

/-- The tail of the name that is compared has no dot: separating it changes nothing. -/
theorem separated_drop_of_undotted {n : Nat} (h : '.' ∉ (slashed name).drop n) :
    (separated name).drop n = (slashed name).drop n := by
  rw [separated_eq, ← undot_drop]
  exact undot_eq_self_iff.mpr h

/-- Where the cuts are clean and the segments match, one text ends with the other. -/
theorem suffix_of_segmentMatch (hclean : CleanCut imp name) (h : SegmentMatch imp name) :
    separated imp <:+ slashed name ∨ slashed name <:+ separated imp := by
  have htail := separated_drop_of_undotted (hclean.undotted h)
  obtain ⟨-, heq | ⟨x, hx⟩ | ⟨x, hx⟩⟩ := segmentMatch_iff.mp h
  · have hlen : (slashed name).length - (separated imp).length = 0 := by
      rw [heq, length_separated, Nat.sub_self]
    rw [hlen, List.drop_zero, List.drop_zero] at htail
    rw [heq, htail]
    exact .inl List.suffix_rfl
  · have hlen : (slashed name).length - (separated imp).length = x.length + 1 := by
      rw [← length_separated, ← hx, List.length_append, List.length_cons]
      omega
    rw [hlen, ← hx, ← List.drop_drop, List.drop_left, List.drop_one, List.tail_cons] at htail
    rw [htail]
    exact .inl (List.drop_suffix _ _)
  · have hlen : (slashed name).length - (separated imp).length = 0 := by
      rw [← length_separated, ← hx, List.length_append, List.length_cons]
      omega
    rw [hlen, List.drop_zero, List.drop_zero] at htail
    rw [← hx, ← htail]
    exact .inr ((List.suffix_cons _ _).trans (List.suffix_append _ _))

/-- Where the cuts are clean and one text ends with the other, the segments match. -/
theorem segmentMatch_of_suffix (hclean : CleanCut imp name)
    (h : separated imp <:+ slashed name ∨ slashed name <:+ separated imp) :
    SegmentMatch imp name := by
  refine segmentMatch_iff.mpr ⟨⟨hclean.spelled, hclean.named⟩, ?_⟩
  have hname : separated name = undot (slashed name) := separated_eq name
  have himp : undot (separated imp) = separated imp := undot_eq_self_iff.mpr not_dot_mem_separated
  rcases h with ⟨x, hx⟩ | ⟨x, hx⟩
  · rw [← hx, undot_append, himp] at hname
    rw [hname]
    rcases hclean.below x hx.symm with rfl | hlast
    · exact .inl rfl
    · obtain ⟨y, hy⟩ := List.getLast?_eq_some_iff.mp (getLast?_undot.mpr hlast)
      rw [hy, List.append_assoc]
      exact .inr (.inl (List.suffix_append _ _))
  · have hdot : '.' ∉ slashed name := by
      intro hmem
      refine @not_dot_mem_separated imp ?_
      rw [← hx]
      exact List.mem_append_right _ hmem
    rw [undot_eq_self_iff.mpr hdot] at hname
    rw [hname]
    rcases hclean.above x hx.symm with rfl | hlast
    · exact .inl hx.symm
    · obtain ⟨y, rfl⟩ := List.getLast?_eq_some_iff.mp hlast
      rw [← hx, List.append_assoc]
      exact .inr (.inr (List.suffix_append _ _))

/-- Where the two tests agree, the cuts are clean. -/
theorem cleanCut_of_agree
    (h : (separated imp <:+ slashed name ∨ slashed name <:+ separated imp) ↔
      SegmentMatch imp name) : CleanCut imp name := by
  have hname : separated name = undot (slashed name) := separated_eq name
  have himp : undot (separated imp) = separated imp := undot_eq_self_iff.mpr not_dot_mem_separated
  have hempty : imp ≠ [] ∧ name ≠ [] := by
    constructor
    · rintro rfl
      have hsuffix : separated [] <:+ slashed name := by
        rw [separated_eq, slashed_eq_nil_iff.mpr rfl]
        exact List.nil_suffix
      exact (segmentMatch_iff.mp (h.mp (.inl hsuffix))).1.1 rfl
    · rintro rfl
      have hsuffix : slashed [] <:+ separated imp := by
        rw [slashed_eq_nil_iff.mpr rfl]
        exact List.nil_suffix
      exact (segmentMatch_iff.mp (h.mp (.inr hsuffix))).1.2 rfl
  refine ⟨hempty.1, hempty.2, fun x hx => ?_, fun x hx => ?_, fun hmatch => ?_⟩
  · have hmatch := segmentMatch_iff.mp (h.mp (.inl ⟨x, hx.symm⟩))
    rw [hx, undot_append, himp] at hname
    rw [hname] at hmatch
    obtain ⟨-, heq | hbelow | habove⟩ := hmatch
    · have hlen := congrArg List.length heq
      rw [List.length_append, length_undot] at hlen
      exact .inl (List.length_eq_zero_iff.mp (by omega))
    · exact .inr (getLast?_undot.mp (getLast?_of_suffix_append hbelow))
    · have hlen := habove.length_le
      rw [List.length_cons, List.length_append] at hlen
      omega
  · have hdot : '.' ∉ slashed name := by
      intro hmem
      refine @not_dot_mem_separated imp ?_
      rw [hx]
      exact List.mem_append_right _ hmem
    have hmatch := segmentMatch_iff.mp (h.mp (.inr ⟨x, hx.symm⟩))
    rw [hname, undot_eq_self_iff.mpr hdot, hx] at hmatch
    obtain ⟨-, heq | hbelow | habove⟩ := hmatch
    · have hlen := congrArg List.length heq
      rw [List.length_append] at hlen
      exact .inl (List.length_eq_zero_iff.mp (by omega))
    · have hlen := hbelow.length_le
      rw [List.length_cons, List.length_append] at hlen
      omega
    · exact .inr (getLast?_of_suffix_append habove)
  · rcases h.mpr hmatch with hsuffix | hsuffix
    · rw [← List.suffix_iff_eq_drop.mp hsuffix]
      exact not_dot_mem_separated
    · have hlen := hsuffix.length_le
      rw [Nat.sub_eq_zero_of_le hlen, List.drop_zero]
      intro hmem
      exact not_dot_mem_separated (hsuffix.subset hmem)

end Import

section Tiers

variable {α : Type} [Candidate α]

/-- The import tier matches the segments of an imported spelling with those of a candidate's
name exactly where the texts are cut at ends of segments. -/
theorem importMatches_exact_iff (candidate : α) (imp : Str) :
    (importMatches candidate [imp] = true ↔ SegmentMatch imp (qualifiedName candidate)) ↔
      CleanCut imp (qualifiedName candidate) := by
  have htest : importMatches candidate [imp] = true ↔
      (separated imp <:+ slashed (qualifiedName candidate) ∨
        slashed (qualifiedName candidate) <:+ separated imp) := by
    simp [importMatches, separated, slashed]
  rw [htest]
  constructor
  · exact cleanCut_of_agree
  · intro hclean
    exact ⟨segmentMatch_of_suffix hclean, suffix_of_segmentMatch hclean⟩

/-! ### The locality tiers -/

/-- The package path of a name is the given one, or lies below it. -/
def InPackagePath (pkg name : Str) : Prop :=
  name = pkg ∨ pkg ++ ['/'] <+: name ∨ pkg ++ "::".toList <+: name

/-- The locality tiers select candidates of the caller's file and of its package only. -/
structure RespectsBoundaries (candidates : List α) (ctx : Context) : Prop where
  file : ∀ target confidence,
    resolve candidates ctx = .resolved target .sameFileUnique confidence →
      filePathOf (qualifiedName target) = ctx.callerFile
  package : ∀ target confidence pkg,
    resolve candidates ctx = .resolved target .packageProximity confidence →
      ctx.callerPackage = some pkg → InPackagePath pkg (qualifiedName target)

/-- What stands behind the caller's file, or its package, in the name of the only candidate
that begins with it. -/
structure GoesOnAtBoundary (candidates : List α) (ctx : Context) : Prop where
  file : ¬ UniqueAt ctx candidates .importMatch → ∀ target rest,
    candidates.filter (satisfies ctx .sameFileUnique) = [target] →
      qualifiedName target = ctx.callerFile ++ rest →
        find "::".toList (ctx.callerFile ++ rest) =
          if rest = [] then none else some ctx.callerFile.length
  package : ¬ UniqueAt ctx candidates .importMatch → ¬ UniqueAt ctx candidates .sameFileUnique →
    ∀ target pkg rest, ctx.callerPackage = some pkg →
      candidates.filter (satisfies ctx .packageProximity) = [target] →
        qualifiedName target = pkg ++ rest → rest = [] ∨ ['/'] <+: rest ∨ "::".toList <+: rest

section Locality

variable {candidates : List α} {ctx : Context} {target : α} {confidence : Nat}

theorem uniqueMatch_none_of_not_uniqueAt {e : Evidence} (h : ¬ UniqueAt ctx candidates e) :
    uniqueMatch candidates (satisfies ctx e) = none :=
  (uniqueMatch_eq_none_iff candidates).mpr fun x hx => h ⟨x, hx⟩

/-- The same-file tier decides among several candidates where the imports do not. -/
theorem resolve_sameFile_iff (hlen : 2 ≤ candidates.length) :
    (∃ confidence, resolve candidates ctx = .resolved target .sameFileUnique confidence) ↔
      ¬ UniqueAt ctx candidates .importMatch ∧
        candidates.filter (satisfies ctx .sameFileUnique) = [target] := by
  constructor
  · rintro ⟨confidence, h⟩
    obtain ⟨-, hfilter, hstronger⟩ := resolve_strongest h
    exact ⟨hstronger .importMatch (by decide), hfilter⟩
  · rintro ⟨himport, hfilter⟩
    match candidates, hlen with
    | a :: b :: l, _ =>
        rw [resolve_several, uniqueMatch_none_of_not_uniqueAt himport,
          (uniqueMatch_eq_some_iff _ _).mpr hfilter]
        exact ⟨_, rfl⟩

/-- The package tier decides where neither of the two before does. -/
theorem resolve_package_iff (hlen : 2 ≤ candidates.length) :
    (∃ confidence, resolve candidates ctx = .resolved target .packageProximity confidence) ↔
      ¬ UniqueAt ctx candidates .importMatch ∧ ¬ UniqueAt ctx candidates .sameFileUnique ∧
        candidates.filter (satisfies ctx .packageProximity) = [target] := by
  constructor
  · rintro ⟨confidence, h⟩
    obtain ⟨-, hfilter, hstronger⟩ := resolve_strongest h
    exact ⟨hstronger .importMatch (by decide), hstronger .sameFileUnique (by decide), hfilter⟩
  · rintro ⟨himport, hfile, hfilter⟩
    match candidates, hlen with
    | a :: b :: l, _ =>
        rw [resolve_several, uniqueMatch_none_of_not_uniqueAt himport,
          uniqueMatch_none_of_not_uniqueAt hfile, (uniqueMatch_eq_some_iff _ _).mpr hfilter]
        exact ⟨_, rfl⟩

theorem length_of_resolved {e : Evidence} (he : e ≠ .uniqueGlobal)
    (h : resolve candidates ctx = .resolved target e confidence) : 2 ≤ candidates.length := by
  match candidates with
  | [] => cases h
  | [only] =>
      cases h
      exact absurd rfl he
  | a :: b :: l => simp

end Locality

/-- The file of a name that begins with a path is this path exactly where the first `::` of
the name stands behind it. -/
theorem filePathOf_append_iff {file rest : Str} :
    filePathOf (file ++ rest) = file ↔
      find "::".toList (file ++ rest) = if rest = [] then none else some file.length := by
  rw [filePathOf]
  cases hfind : find "::".toList (file ++ rest) with
  | none =>
      by_cases hrest : rest = []
      · simp [hrest]
      · simp [hrest]
  | some idx =>
      have hle := find_le hfind
      have hmark : "::".toList.length = 2 := rfl
      rw [hmark] at hle
      dsimp only
      constructor
      · intro htake
        have hlen := congrArg List.length htake
        rw [List.length_take, Nat.min_eq_left (by omega)] at hlen
        have hrest : rest ≠ [] := by
          rintro rfl
          rw [List.append_nil] at hle
          omega
        rw [if_neg hrest, hlen]
      · intro hidx
        split at hidx
        · cases hidx
        · rw [Option.some.inj hidx, List.take_left]

theorem inPackagePath_append_iff {pkg rest : Str} :
    InPackagePath pkg (pkg ++ rest) ↔ rest = [] ∨ ['/'] <+: rest ∨ "::".toList <+: rest := by
  rw [InPackagePath, List.prefix_append_right_inj, List.prefix_append_right_inj,
    List.append_right_eq_self]

/-- The locality tiers respect the boundaries of paths exactly where, of several candidates,
the name of the only one that begins with the caller's path goes on at a boundary. -/
theorem respectsBoundaries_iff (candidates : List α) (ctx : Context) :
    RespectsBoundaries candidates ctx ↔
      (2 ≤ candidates.length → GoesOnAtBoundary candidates ctx) := by
  constructor
  · rintro ⟨hfile, hpackage⟩ hlen
    constructor
    · intro himport target rest hfilter hname
      obtain ⟨confidence, hresolve⟩ := (resolve_sameFile_iff hlen).mpr ⟨himport, hfilter⟩
      have hpath := hfile target confidence hresolve
      rw [hname] at hpath
      exact filePathOf_append_iff.mp hpath
    · intro himport hsame target pkg rest hpkg hfilter hname
      obtain ⟨confidence, hresolve⟩ := (resolve_package_iff hlen).mpr ⟨himport, hsame, hfilter⟩
      have hpath := hpackage target confidence pkg hresolve hpkg
      rw [hname] at hpath
      exact inPackagePath_append_iff.mp hpath
  · intro hgoesOn
    constructor
    · intro target confidence hresolve
      have hlen := length_of_resolved Evidence.noConfusion hresolve
      obtain ⟨himport, hfilter⟩ := (resolve_sameFile_iff hlen).mp ⟨confidence, hresolve⟩
      have hsat : satisfies ctx .sameFileUnique target = true :=
        (List.mem_filter.mp (hfilter ▸ List.mem_singleton_self target)).2
      obtain ⟨rest, hname⟩ := List.isPrefixOf_iff_prefix.mp hsat
      rw [← hname]
      exact filePathOf_append_iff.mpr
        ((hgoesOn hlen).file himport target rest hfilter hname.symm)
    · intro target confidence pkg hresolve hpkg
      have hlen := length_of_resolved Evidence.noConfusion hresolve
      obtain ⟨himport, hsame, hfilter⟩ := (resolve_package_iff hlen).mp ⟨confidence, hresolve⟩
      have hsat : satisfies ctx .packageProximity target = true :=
        (List.mem_filter.mp (hfilter ▸ List.mem_singleton_self target)).2
      rw [satisfies, inPackage, hpkg, Option.any_some] at hsat
      obtain ⟨rest, hname⟩ := List.isPrefixOf_iff_prefix.mp hsat
      rw [← hname]
      exact inPackagePath_append_iff.mpr
        ((hgoesOn hlen).package himport hsame target pkg rest hpkg hfilter hname.symm)

end Tiers

/-! ### Names that are not cut at ends of segments -/

/-- `TestSymbol`. -/
structure TestSymbol where
  qn : Str
deriving DecidableEq

instance : Candidate TestSymbol where
  qualifiedName := TestSymbol.qn

/-- An import of `helper` matches `a::myhelper`. -/
theorem helper_matches_myhelper :
    ¬ ∀ (candidate : TestSymbol) (imp : Str),
      importMatches candidate [imp] = true ↔ SegmentMatch imp (qualifiedName candidate) := by
  intro h
  have hmatch : importMatches (⟨"a::myhelper".toList⟩ : TestSymbol) ["helper".toList] = true := by
    decide +kernel
  have hsegments : ¬ SegmentMatch "helper".toList "a::myhelper".toList := by
    unfold SegmentMatch
    decide +kernel
  exact hsegments ((h ⟨"a::myhelper".toList⟩ "helper".toList).mp hmatch)

/-- The call stands in `util.c`; one of the two functions `f` stands in `util.cpp`. -/
def utilCall : Context where
  importsInScope := []
  callerFile := "util.c".toList
  callerPackage := none

/-- The call is resolved to the function of `util.cpp`, by the same-file tier. -/
theorem util_resolves_elsewhere :
    ¬ ∀ (candidates : List TestSymbol) (ctx : Context), RespectsBoundaries candidates ctx := by
  intro h
  have hfile := (h [⟨"util.cpp::f".toList⟩, ⟨"main.c::f".toList⟩] utilCall).file
    ⟨"util.cpp::f".toList⟩ 85 (by decide +kernel)
  exact absurd hfile (by decide +kernel)

end AutomatisedPipeline.Resolver

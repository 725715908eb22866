import AutomatisedPipeline.Cfg.Twin
import AutomatisedPipeline.Indexer.Specifiers

/-!
The names that `get_impact` reads out of ids and callee texts (`bridge.rs`,
`graph_store/cfg_twins.rs`, `call_evidence.rs`, `clustering/impact_other_owner.rs`).

Ids with twin suffixes are read back.

A path is written segment by segment, each with the compact texts of the gates attached to
it. The text of a predicate is balanced, so the scan for its closing parenthesis ends right
behind it (`closingParen_balanced`); a mark begins with the only `#` it has, so no mark
begins inside a segment and ends outside.
-/

namespace AutomatisedPipeline.Impact

open Text Cfg

/-! ### Ids -/

/-- `has_cfg_gate`. -/
def hasCfgGate (qn : Str) : Bool := (find twinMark qn).isSome

/-- `strip_cfg_gates`. -/
def stripCfgGates (qn : Str) : Str :=
  match _h : find twinMark qn with
  | none => qn
  | some start =>
      match closingParen 1 (qn.drop (start + twinMark.length)) with
      | none => qn
      | some close =>
          qn.take start ++
            stripCfgGates ((qn.drop (start + twinMark.length)).drop (close + 1))
termination_by qn.length
decreasing_by
  have hle := find_le _h
  have hmark : twinMark.length = 5 := rfl
  simp only [List.length_drop]
  omega

/-- `last_segment`: after the last `::`, then after the last `.`. -/
def lastSegment (s : Str) : Str := afterLast ".".toList (afterLast "::".toList s)

example : lastSegment (stripCfgGates "src/a.rs::S#cfg(all(unix,b))::new".toList) =
    "new".toList := by decide +kernel

/-! ### Last segments -/

theorem dot_ne_nil : ".".toList ≠ [] := by decide

theorem scope_ne_nil : "::".toList ≠ [] := by decide

theorem not_dot_lastSegment (s : Str) : ¬ ".".toList <:+: lastSegment s :=
  not_infix_afterLast (by decide) _

theorem not_scope_lastSegment (s : Str) : ¬ "::".toList <:+: lastSegment s := by
  intro h
  have hsuffix : lastSegment s <:+ afterLast "::".toList s := afterLast_suffix (by decide) _
  exact not_infix_afterLast (by decide) s (h.trans hsuffix.isInfix)

/-- A text ends in its last segment, alone or behind a `.` or a `::`. -/
theorem ends_of_lastSegment {callee bare : Str} (h : lastSegment callee = bare) :
    callee = bare ∨ (".".toList ++ bare) <:+ callee ∨ ("::".toList ++ bare) <:+ callee := by
  have hend : afterLast "::".toList callee <:+ callee := afterLast_suffix (by decide) _
  rcases afterLast_cases dot_ne_nil (afterLast "::".toList callee) with
    ⟨-, heq⟩ | ⟨x, hx, -⟩
  · have hbare : afterLast "::".toList callee = bare := heq.symm.trans h
    rcases afterLast_cases scope_ne_nil callee with ⟨-, hself⟩ | ⟨x, hx, -⟩
    · exact Or.inl (hself.symm.trans hbare)
    · rw [hbare] at hx
      exact Or.inr (Or.inr ⟨x, hx.symm⟩)
  · have hdot : (".".toList ++ bare) <:+ afterLast "::".toList callee :=
      ⟨x, by rw [← h]; exact hx.symm⟩
    exact Or.inr (Or.inl (hdot.trans hend))

theorem lastSegment_self {bare : Str} (hdot : ¬ ".".toList <:+: bare)
    (hscope : ¬ "::".toList <:+: bare) : lastSegment bare = bare := by
  rw [lastSegment, afterLast_of_not_infix hscope, afterLast_of_not_infix hdot]

/-- Behind a `.` stands the last segment. -/
theorem lastSegment_of_dot {callee bare : Str} (hdot : ¬ ".".toList <:+: bare)
    (hscope : ¬ "::".toList <:+: bare) (h : (".".toList ++ bare) <:+ callee) :
    lastSegment callee = bare := by
  have hafter : (".".toList ++ bare) <:+ afterLast "::".toList callee := by
    rcases afterLast_cases scope_ne_nil callee with ⟨-, heq⟩ | ⟨x, hx, -⟩
    · rwa [heq]
    · have hscoped : ("::".toList ++ afterLast "::".toList callee) <:+ callee := ⟨x, hx.symm⟩
      rcases List.suffix_or_suffix_of_suffix h hscoped with hin | hin
      · rcases List.suffix_cons_iff.mp hin with heq | hin
        · exact absurd (List.cons.inj heq).1 (by decide)
        · rcases List.suffix_cons_iff.mp hin with heq | hin
          · exact absurd (List.cons.inj heq).1 (by decide)
          · exact hin
      · rcases List.suffix_cons_iff.mp hin with heq | hin
        · exact absurd (List.cons.inj heq).1 (by decide)
        · exact absurd ((List.prefix_append _ _).isInfix.trans hin.isInfix) hscope
  obtain ⟨x, hx⟩ := hafter
  rw [lastSegment, ← hx]
  exact afterLast_append (by decide) hdot x

/-- Behind a `::` stands the last segment, unless it begins with a further `:`. -/
theorem lastSegment_of_scope {callee bare : Str} (hdot : ¬ ".".toList <:+: bare)
    (hscope : ¬ "::".toList <:+: bare) (hcolon : bare.head? ≠ some ':')
    (h : ("::".toList ++ bare) <:+ callee) : lastSegment callee = bare := by
  obtain ⟨x, rfl⟩ := h
  have htail : ¬ "::".toList <:+: ("::".toList ++ bare).tail := by
    intro hin
    rcases List.infix_cons_iff.mp hin with hpre | hin
    · obtain ⟨rest, hrest⟩ := hpre
      have htail : bare = ':' :: rest := (List.cons.inj hrest).2.symm
      exact hcolon (by rw [htail]; rfl)
    · exact hscope hin
  rw [lastSegment, afterLast_append (by decide) htail, afterLast_of_not_infix hdot]

/-! ### Callees -/

/-- `strip_generics`. -/
def stripGenerics (s : Str) : Str := s.takeWhile (· ≠ '<')

/-- `split("::")`, behind the piece read so far. -/
def splitScope (piece : Str) : Str → List Str
  | ':' :: ':' :: rest => piece :: splitScope [] rest
  | c :: rest => splitScope (piece ++ [c]) rest
  | [] => [piece]

/-- `callee_path_segments`. -/
def calleePathSegments (callee : Str) : Option (List Str) :=
  if (find "::".toList callee).isNone || callee.any fun c => c = '.' || c = '(' || c = '[' then none
  else
    let segments := ((splitScope [] callee).map stripGenerics).filter fun s => !s.isEmpty
    if 2 ≤ segments.length then some segments else none

/-- `callee_names_type`. -/
def calleeNamesType (callee : Str) : Option Str :=
  (calleePathSegments callee).bind fun segments => segments[segments.length - 2]?

/-- The loop of `hint_type_name` that takes off borrows and `mut`. -/
def stripBorrows : Nat → Str → Str
  | 0, rest => rest
  | fuel + 1, rest =>
      match ("&".toList.isPrefixOf? rest).or ("mut ".toList.isPrefixOf? rest) with
      | some next => stripBorrows fuel (Indexer.trimStart next)
      | none => rest

/-- `hint_type_name`. Every turn of the loop makes the text shorter. -/
def hintTypeName (hint : Str) : Option Str :=
  let rest := Indexer.trim hint
  let plain := stripGenerics (stripBorrows rest.length rest)
  if !plain.isEmpty && plain.all (fun c => c.isAlphanum || c == '_' || c == ':') then
    let name := afterLast "::".toList plain
    if name.isEmpty then none else some name
  else none

example : hintTypeName "&mut b::Set<T>".toList = some "Set".toList := by decide +kernel
example : calleeNamesType "Vec::<u8>::with_capacity".toList = some "Vec".toList := by
  decide +kernel

/-! ### Balanced texts -/

/-- A text whose parentheses match. -/
inductive Balanced : Str → Prop where
  | nil : Balanced []
  | char {c : Char} {s : Str} : c ≠ '(' → c ≠ ')' → Balanced s → Balanced (c :: s)
  | nest {s rest : Str} : Balanced s → Balanced rest → Balanced ('(' :: (s ++ ')' :: rest))

theorem Balanced.append {s t : Str} (hs : Balanced s) (ht : Balanced t) : Balanced (s ++ t) := by
  induction hs with
  | nil => exact ht
  | char hopen hclose _ ih => exact .char hopen hclose ih
  | nest hs _ _ ih =>
      rw [List.cons_append, List.append_assoc, List.cons_append]
      exact .nest hs ih

theorem Balanced.of_plain {s : Str} (h : ∀ c ∈ s, c ≠ '(' ∧ c ≠ ')') : Balanced s := by
  induction s with
  | nil => exact .nil
  | cons c s ih =>
      obtain ⟨⟨hopen, hclose⟩, hs⟩ := List.forall_mem_cons.mp h
      exact .char hopen hclose (ih hs)

theorem Balanced.join {parts : List Str} (h : ∀ part ∈ parts, Balanced part) :
    Balanced (Text.join [','] parts) := by
  have hcomma : Balanced [','] := .of_plain (by simp)
  induction parts with
  | nil => exact .nil
  | cons part parts ih =>
      obtain ⟨hpart, hparts⟩ := List.forall_mem_cons.mp h
      cases parts with
      | nil => exact hpart
      | cons next parts => exact hpart.append (hcomma.append (ih hparts))

/-- The scan passes over a balanced text. -/
theorem closingParen_balanced {s : Str} (h : Balanced s) (depth : Nat) (rest : Str) :
    closingParen (depth + 1) (s ++ rest) =
      (closingParen (depth + 1) rest).map (· + s.length) := by
  induction h generalizing depth rest with
  | nil => simp
  | @char c s hopen hclose _ ih =>
      rw [List.cons_append, closingParen, if_neg hopen, if_neg hclose, ih, Option.map_map,
        List.length_cons]
      rfl
  | @nest s after _ _ ihs ihafter =>
      have hdeep : depth + 1 + 1 ≠ 1 := by omega
      rw [List.cons_append, closingParen, if_pos rfl, List.append_assoc, ihs (depth + 1),
        List.cons_append, closingParen, if_neg (by decide), if_pos rfl, if_neg hdeep,
        Nat.add_sub_cancel, ihafter]
      simp only [Option.map_map]
      refine congrArg (Option.map · _) (funext fun n => ?_)
      simp only [Function.comp_apply, List.length_cons, List.length_append]
      omega

/-! ### The text of a predicate -/

theorem balanced_of_wordBytes {s : Str} (h : ∀ c ∈ s, isWordByte c = true) : Balanced s := by
  refine .of_plain fun c hc => ⟨?_, ?_⟩
  · rintro rfl
    exact absurd (h _ hc) (by decide)
  · rintro rfl
    exact absurd (h _ hc) (by decide)

theorem balanced_encode (text : Str) : Balanced (encode text) :=
  balanced_of_wordBytes (encode_wordBytes text)

theorem balanced_applied {name s : Str} (hname : ∀ c ∈ name, isWordByte c = true)
    (hs : Balanced s) : Balanced (name ++ '(' :: (s ++ [')'])) :=
  (balanced_of_wordBytes hname).append (.nest hs .nil)

theorem compactParts_eq_map (items : List CfgPredicate) :
    CfgPredicate.compactParts items = items.map CfgPredicate.compact := by
  induction items with
  | nil => rfl
  | cons p items ih => rw [CfgPredicate.compactParts, ih, List.map_cons]

/-- Whatever the names and the values of a predicate are, its text is balanced. -/
theorem balanced_compact (p : CfgPredicate) : Balanced p.compact := by
  have hequals : Balanced ['='] := .of_plain (by simp)
  have hlist : ∀ items : List CfgPredicate, (∀ q ∈ items, Balanced q.compact) →
      Balanced (join [','] (CfgPredicate.compactParts items)) := by
    intro items h
    refine .join fun part hpart => ?_
    rw [compactParts_eq_map] at hpart
    obtain ⟨q, hq, rfl⟩ := List.mem_map.mp hpart
    exact h q hq
  induction p using CfgPredicate.induct with
  | feature name =>
      have hkey : Balanced featureKey := balanced_of_wordBytes (List.all_eq_true.mp (by decide))
      exact hkey.append (hequals.append (balanced_encode name))
  | option key value =>
      cases value with
      | none => exact balanced_encode key
      | some value => exact (balanced_encode key).append (hequals.append (balanced_encode value))
  | all items ih => exact balanced_applied (List.all_eq_true.mp (by decide)) (hlist items ih)
  | any items ih => exact balanced_applied (List.all_eq_true.mp (by decide)) (hlist items ih)
  | not inner ih => exact balanced_applied (List.all_eq_true.mp (by decide)) ih

/-- The scan that begins behind a mark ends at the parenthesis behind the predicate. -/
theorem closingParen_compact (p : CfgPredicate) (rest : Str) :
    closingParen 1 (p.compact ++ ')' :: rest) = some p.compact.length := by
  rw [closingParen_balanced (balanced_compact p) 0, closingParen, if_neg (by decide), if_pos rfl,
    if_pos rfl]
  simp

/-! ### Marks -/

/-- A text that begins in front of a character it does not go on with ends in front of it. -/
theorem prefix_of_prefix_append {needle x rest : Str} {c : Char} (hc : c ∉ needle.tail)
    (hx : x ≠ []) (h : needle <+: x ++ c :: rest) : needle <+: x := by
  have hchar : x ++ [c] <+: x ++ c :: rest := by
    rw [List.prefix_append_right_inj]
    exact ⟨rest, rfl⟩
  rcases List.prefix_or_prefix_of_prefix h hchar with hshort | ⟨t, rfl⟩
  · rcases List.prefix_concat_iff.mp hshort with rfl | hpre
    · cases x with
      | nil => exact absurd rfl hx
      | cons a x => exact absurd (by simp) hc
    · exact hpre
  · cases x with
    | nil => exact absurd rfl hx
    | cons a x => exact absurd (by simp) hc

theorem infix_append_cases {needle x rest : Str} {c : Char} (hc : c ∉ needle.tail)
    (h : needle <:+: x ++ c :: rest) : needle <:+: x ∨ needle <:+: c :: rest := by
  induction x with
  | nil => exact .inr h
  | cons a x ih =>
      rw [List.cons_append, List.infix_cons_iff] at h
      rcases h with hpre | hin
      · have hpre := prefix_of_prefix_append hc (List.cons_ne_nil a x) hpre
        exact .inl hpre.isInfix
      · exact (ih hin).imp_left fun hx => List.infix_cons_iff.mpr (.inr hx)

/-- No mark is made by joining two texts by `::`. -/
theorem markFree_scope {x y : Str} (hx : ¬ twinMark <:+: x) (hy : ¬ twinMark <:+: y) :
    ¬ twinMark <:+: x ++ ':' :: ':' :: y := by
  have hcolon : ∀ s : Str, ¬ twinMark <+: ':' :: s := by
    rintro s ⟨t, ht⟩
    cases ht
  intro h
  rcases infix_append_cases (by decide) h with h | h
  · exact hx h
  · rcases (List.infix_cons_iff.mp h).resolve_left (hcolon _) |> List.infix_cons_iff.mp with h | h
    · exact hcolon _ h
    · exact hy h

/-- The first mark stands behind a text without one. -/
theorem find_twinMark {x rest : Str} (hx : ¬ twinMark <:+: x) :
    find twinMark (x ++ (twinMark ++ rest)) = some x.length := by
  rw [find_eq_some_iff]
  refine ⟨by simp, ?_, fun j hj hpre => hx ?_⟩
  · rw [List.drop_left]
    exact List.prefix_append _ _
  · rw [List.drop_append_of_le_length (by omega)] at hpre
    have hne : x.drop j ≠ [] := by simpa using hj
    have hshort := prefix_of_prefix_append (by decide) hne hpre
    exact hshort.isInfix.trans (List.drop_suffix j x).isInfix

/-! ### One suffix -/

/-- The suffix that a gate gives a segment. -/
def twinSuffix (gate : CfgPredicate) : Str := twinMark ++ (gate.canonical.compact ++ [')'])

section Suffix

variable {x : Str} (gate : CfgPredicate) (rest : Str)

theorem drop_behind_mark :
    (x ++ (twinSuffix gate ++ rest)).drop (x.length + twinMark.length) =
      gate.canonical.compact ++ ')' :: rest := by
  rw [twinSuffix, ← List.drop_drop, List.drop_left, List.append_assoc, List.drop_left,
    List.append_assoc]
  rfl

theorem drop_behind_gate :
    (gate.canonical.compact ++ ')' :: rest).drop (gate.canonical.compact.length + 1) = rest := by
  rw [← List.drop_drop, List.drop_left]
  rfl

theorem find_twinSuffix (hx : ¬ twinMark <:+: x) :
    find twinMark (x ++ (twinSuffix gate ++ rest)) = some x.length := by
  rw [twinSuffix, List.append_assoc]
  exact find_twinMark hx

/-- The first suffix is dropped. -/
theorem stripCfgGates_suffix (hx : ¬ twinMark <:+: x) :
    stripCfgGates (x ++ (twinSuffix gate ++ rest)) = x ++ stripCfgGates rest := by
  rw [stripCfgGates]
  split
  · rename_i hnone
    rw [find_twinSuffix gate rest hx] at hnone
    cases hnone
  · rename_i start hstart
    rw [find_twinSuffix gate rest hx] at hstart
    obtain rfl := Option.some.inj hstart
    simp only [drop_behind_mark, closingParen_compact, drop_behind_gate, List.take_left]

/-- The gate of the first suffix is read. -/
theorem cfgGatesIn_suffix (hx : ¬ twinMark <:+: x) :
    cfgGatesIn (x ++ (twinSuffix gate ++ rest)) = gate.canonical.compact :: cfgGatesIn rest := by
  rw [cfgGatesIn]
  split
  · rename_i hnone
    rw [find_twinSuffix gate rest hx] at hnone
    cases hnone
  · rename_i start hstart
    rw [find_twinSuffix gate rest hx] at hstart
    obtain rfl := Option.some.inj hstart
    simp only [drop_behind_mark, closingParen_compact, drop_behind_gate, List.take_left]

theorem stripCfgGates_markFree (hx : ¬ twinMark <:+: x) : stripCfgGates x = x := by
  rw [stripCfgGates]
  split
  · rfl
  · rename_i hstart
    rw [find_eq_none_iff.mpr hx] at hstart
    cases hstart

theorem cfgGatesIn_markFree (hx : ¬ twinMark <:+: x) : cfgGatesIn x = [] := by
  rw [cfgGatesIn]
  split
  · rfl
  · rename_i hstart
    rw [find_eq_none_iff.mpr hx] at hstart
    cases hstart

end Suffix

/-! ### Paths -/

/-- A path whose segments carry gates. -/
abbrev TwinPath : Type := List (Str × List CfgPredicate)

/-- The path without its gates. -/
def TwinPath.plain (path : TwinPath) : Str := join "::".toList (path.map Prod.fst)

/-- The id of the path: every segment with a suffix for each of its gates. -/
def TwinPath.id (path : TwinPath) : Str :=
  join "::".toList (path.map fun segment => segment.1 ++ segment.2.flatMap twinSuffix)

/-- The texts of the gates, in the order of the path. -/
def TwinPath.gates (path : TwinPath) : List Str :=
  path.flatMap fun segment => segment.2.map fun gate => gate.canonical.compact

/-- The segments behind the first, each behind a `::`. -/
def behind (text : Str × List CfgPredicate → Str) (path : TwinPath) : Str :=
  path.flatMap fun segment => ':' :: ':' :: text segment

theorem join_cons_eq_behind (text : Str × List CfgPredicate → Str)
    (segment : Str × List CfgPredicate) (path : TwinPath) :
    join "::".toList ((segment :: path).map text) = text segment ++ behind text path := by
  induction path generalizing segment with
  | nil => simp [join, behind]
  | cons next path ih =>
      rw [List.map_cons, List.map_cons, join, ← List.map_cons, ih next]
      · simp [behind]
      · simp

/-- The two scans of a text without a mark, the gates left of its segment and the segments
behind it. -/
structure Scans (x : Str) (gates : List CfgPredicate) (path : TwinPath) : Prop where
  strip : stripCfgGates (x ++ (gates.flatMap twinSuffix ++
      behind (fun segment => segment.1 ++ segment.2.flatMap twinSuffix) path)) =
    x ++ behind Prod.fst path
  gatesIn : cfgGatesIn (x ++ (gates.flatMap twinSuffix ++
      behind (fun segment => segment.1 ++ segment.2.flatMap twinSuffix) path)) =
    (gates.map fun gate => gate.canonical.compact) ++ TwinPath.gates path

/-- The scans take one gate after another, then go on behind the segment. -/
theorem scans_of_nil {path : TwinPath} (hnil : ∀ x, ¬ twinMark <:+: x → Scans x [] path) (x : Str)
    (gates : List CfgPredicate) (hx : ¬ twinMark <:+: x) : Scans x gates path := by
  induction gates generalizing x with
  | nil => exact hnil x hx
  | cons gate gates ih =>
      obtain ⟨hstrip, hgates⟩ := ih [] (by decide)
      rw [List.nil_append] at hstrip hgates
      constructor
      · rw [List.flatMap_cons, List.append_assoc, stripCfgGates_suffix _ _ hx, hstrip]
        rfl
      · rw [List.flatMap_cons, List.append_assoc, cfgGatesIn_suffix _ _ hx, hgates]
        rfl

theorem scans_path (path : TwinPath) (h : ∀ segment ∈ path, ¬ twinMark <:+: segment.1) (x : Str)
    (gates : List CfgPredicate) (hx : ¬ twinMark <:+: x) : Scans x gates path := by
  induction path generalizing x gates with
  | nil =>
      refine scans_of_nil (fun x hx => ⟨?_, ?_⟩) x gates hx
      · simpa [behind] using stripCfgGates_markFree hx
      · simpa [behind, TwinPath.gates] using cfgGatesIn_markFree hx
  | cons segment path ih =>
      obtain ⟨hsegment, hpath⟩ := List.forall_mem_cons.mp h
      refine scans_of_nil (fun x hx => ?_) x gates hx
      -- the text up to the end of the segment has no mark either
      obtain ⟨hstrip, hgates⟩ := ih hpath (x ++ ':' :: ':' :: segment.1) segment.2
        (markFree_scope hx hsegment)
      constructor
      · simpa [behind] using hstrip
      · simpa [behind, TwinPath.gates] using hgates

/-- Whatever gates the segments of a path carry, the id gives back the path and the gates. -/
theorem twinPath_roundTrip (path : TwinPath)
    (h : ∀ segment ∈ path, ¬ twinMark <:+: segment.1) :
    stripCfgGates path.id = path.plain ∧ cfgGatesIn path.id = path.gates := by
  cases path with
  | nil =>
      have hnil : ¬ twinMark <:+: ([] : Str) := by decide
      exact ⟨stripCfgGates_markFree hnil, cfgGatesIn_markFree hnil⟩
  | cons segment path =>
      obtain ⟨hsegment, hpath⟩ := List.forall_mem_cons.mp h
      rw [TwinPath.id, TwinPath.plain, join_cons_eq_behind, join_cons_eq_behind, List.append_assoc]
      obtain ⟨hstrip, hgates⟩ := scans_path path hpath segment.1 segment.2 hsegment
      exact ⟨hstrip, hgates⟩

/-- Two segments with a gate each, one with a name that needs its escapes. -/
theorem twinPath_roundTrip_method :
    stripCfgGates (TwinPath.id [("src/a.rs".toList, []), ("S".toList, [.feature "a)#(".toList]),
        ("new".toList, [.not (.option "unix".toList none)])]) = "src/a.rs::S::new".toList ∧
      cfgGatesIn (TwinPath.id [("src/a.rs".toList, []), ("S".toList, [.feature "a)#(".toList]),
        ("new".toList, [.not (.option "unix".toList none)])]) =
          ["feature=a%29%23%28".toList, "not(unix)".toList] := by
  have h := twinPath_roundTrip [("src/a.rs".toList, []), ("S".toList, [.feature "a)#(".toList]),
    ("new".toList, [.not (.option "unix".toList none)])] (by decide +kernel)
  have hgates : TwinPath.gates [("src/a.rs".toList, []), ("S".toList, [.feature "a)#(".toList]),
      ("new".toList, [.not (.option "unix".toList none)])] =
        ["feature=a%29%23%28".toList, "not(unix)".toList] := by decide +kernel
  exact ⟨h.1, h.2.trans hgates⟩

end AutomatisedPipeline.Impact

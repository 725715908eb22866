import AutomatisedPipeline.Text.Yaml

/-!
How the scans of `iac/k8s.rs` and `iac/kustomize.rs` read one line of YAML: its indentation, its key
and value, and a scalar without its quotes. The two files have these functions in common; the scan
of kustomizations splits no line that starts with a dash.
-/

namespace AutomatisedPipeline.YamlLine

open Text Yaml
open Indexer (trim)

/-! ### The source's definitions -/

/-- `indent_of`. -/
def indentOf (line : Str) : Nat := (line.takeWhile (· = ' ')).length

/-- `split_key`. -/
def splitKey (trimmed : Str) : Option (Str × Str) :=
  if trimmed.getLast? = some ':' then some (trim trimmed.dropLast, [])
  else (splitOnceAt [':', ' '] trimmed).map fun p => (trim p.1, trim p.2)

/-- A text in quotes of this kind. -/
def inQuotes (q : Char) (t : Str) : Bool := t.head? = some q && t.getLast? = some q

/-- `unquote`. -/
def unquote (s : Str) : Str :=
  let t := trim s
  if 2 ≤ t.length ∧ (inQuotes '"' t ∨ inQuotes '\'' t) then t.tail.dropLast else t

/-! ### Lines -/

theorem indentOf_append (n : Nat) {s : Str} (h : s.head? ≠ some ' ') :
    indentOf (List.replicate n ' ' ++ s) = n := by
  rw [indentOf, List.takeWhile_append_of_pos (by simp)]
  cases s with
  | nil => simp
  | cons c s =>
      have hc : c ≠ ' ' := fun heq => h (by rw [heq]; rfl)
      simp [hc]

/-- A carriage return is no part of the indentation. -/
theorem indentOf_stripCr (s : Str) : indentOf (stripCr s) = indentOf s := by
  rw [stripCr]
  split
  · rename_i hlast
    obtain ⟨before, rfl⟩ := List.getLast?_eq_some_iff.mp hlast
    rw [List.dropLast_concat, indentOf, indentOf, List.takeWhile_append]
    split <;> simp [*]
  · rfl

theorem blank_replicate (n : Nat) : Blank (List.replicate n ' ') := by
  intro c hc
  rw [List.eq_of_mem_replicate hc]
  rfl

theorem OwnLine.head?_ne_space {s : Str} (h : OwnLine s) : s.head? ≠ some ' ' := by
  intro hspace
  exact absurd (h.trimmed.head ' ' hspace) (by decide)

section Row

variable {r : Row} (h : ¬ r.body.IsLiteral)
include h

theorem stripCr_raw : stripCr r.raw = r.raw := by
  apply stripCr_of_not_mem
  intro hmem
  rcases List.mem_append.mp hmem with hmem | hmem
  · exact (noBreak_blanks hmem).2 rfl
  · exact ((Row.ownLine h).noBreak _ hmem).2 rfl

theorem indentOf_raw : indentOf (stripCr r.raw) = r.indent := by
  rw [stripCr_raw h, Row.raw]
  exact indentOf_append r.indent (OwnLine.head?_ne_space (Row.ownLine h))

theorem trim_raw : trim (stripCr r.raw) = r.text := by
  rw [stripCr_raw h, Row.raw, trim_blank_append (blank_replicate r.indent)]
  exact trim_eq_self (Row.ownLine h).trimmed

end Row

/-- The column a scan takes a line to start in. -/
def column (r : Row) : Nat :=
  match r.body with
  | .literal _ => indentOf r.raw
  | _ => r.indent

/-- A line that a scan passes over: only a literal has blank lines and lines like comments. -/
def skipped (r : Row) : Bool :=
  match r.body with
  | .literal _ => (trim r.text).isEmpty || (trim r.text).head? = some '#'
  | _ => false

theorem exists_of_isLiteral {b : Body} (h : b.IsLiteral) : ∃ l, b = .literal l := by
  cases b with
  | literal l => exact ⟨l, rfl⟩
  | _ => exact h.elim

theorem trim_stripCr_raw (r : Row) : trim (stripCr r.raw) = trim r.text := by
  rw [trim_stripCr, Row.raw, trim_blank_append (blank_replicate r.indent)]

theorem indentOf_row (r : Row) : indentOf (stripCr r.raw) = column r := by
  by_cases h : r.body.IsLiteral
  · obtain ⟨l, hbody⟩ := exists_of_isLiteral h
    rw [indentOf_stripCr, column, hbody]
  · rw [indentOf_raw h, column]
    cases hbody : r.body with
    | literal l => rw [hbody] at h; exact absurd trivial h
    | _ => rfl

theorem skipped_iff {r : Row} : skipped r ↔
    trim (stripCr r.raw) = [] ∨ (trim (stripCr r.raw)).head? = some '#' := by
  by_cases h : r.body.IsLiteral
  · obtain ⟨l, hbody⟩ := exists_of_isLiteral h
    rw [trim_stripCr_raw, skipped, hbody]
    simp only [Bool.or_eq_true, List.isEmpty_iff, decide_eq_true_eq]
  · have hown := Row.ownLine h
    rw [trim_raw h]
    refine iff_of_false ?_ (not_or.mpr ⟨hown.ne_nil, hown.head⟩)
    rw [skipped]
    cases hbody : r.body with
    | literal l => rw [hbody] at h; exact absurd trivial h
    | _ => exact Bool.false_ne_true

/-- What is left of a line behind its first dash. -/
theorem trim_behind_dash (pad : Nat) {s : Str} (h : OwnLine s) :
    trim (List.replicate pad ' ' ++ s) = s := by
  rw [trim_blank_append (blank_replicate pad)]
  exact trim_eq_self h.trimmed

/-! ### Keys and values -/

theorem splitKey_key (key : Key) : splitKey (key.1 ++ [':']) = some (key.1, []) := by
  rw [splitKey, if_pos List.getLast?_concat, List.dropLast_concat, trim_eq_self key.2.trimmed]

/-- A plain text in front of a colon and a blank is not split earlier. -/
theorem find_colon {k v : Str} (h : IsPlain k) :
    find [':', ' '] (k ++ (':' :: ' ' :: v)) = some k.length := by
  rw [find_eq_some_iff]
  refine ⟨by simp, ?_, ?_⟩
  · rw [List.drop_left]
    exact ⟨v, rfl⟩
  · rintro j hj ⟨rest, hrest⟩
    rw [List.drop_append_of_le_length hj.le] at hrest
    cases hdrop : k.drop j with
    | nil => exact absurd (List.drop_eq_nil_iff.mp hdrop) (not_le.mpr hj)
    | cons c cs =>
        rw [hdrop] at hrest
        obtain rfl : ':' = c := (List.cons.inj hrest).1
        have htail : ' ' :: rest = cs ++ (':' :: ' ' :: v) := (List.cons.inj hrest).2
        have hsuffix : ':' :: cs <:+ k := hdrop ▸ List.drop_suffix j k
        cases cs with
        | nil =>
            obtain ⟨before, hbefore⟩ := hsuffix
            exact h.noLast (by rw [← hbefore, List.getLast?_concat])
        | cons d cs =>
            obtain rfl : ' ' = d := (List.cons.inj htail).1
            exact h.noColon (List.IsInfix.trans ⟨[], cs, rfl⟩ hsuffix.isInfix)

theorem splitKey_value (key : Key) {v : Str} (h : OnLine v) :
    splitKey (key.1 ++ (':' :: ' ' :: v)) = some (key.1, v) := by
  have hlast : (key.1 ++ (':' :: ' ' :: v)).getLast? ≠ some ':' := by
    have heq : key.1 ++ (':' :: ' ' :: v) = (key.1 ++ [':', ' ']) ++ v := by simp
    rw [heq, List.getLast?_append_of_ne_nil _ h.ne_nil]
    exact h.noLast
  rw [splitKey, if_neg hlast, splitOnceAt, find_colon key.2]
  have hdrop : (key.1 ++ (':' :: ' ' :: v)).drop (key.1.length + [':', ' '].length) = v :=
    List.drop_length_add_append _
  simp only [Option.map_some, List.take_left, hdrop]
  rw [trim_eq_self key.2.trimmed, trim_eq_self h.trimmed]

theorem head?_entry {key : Key} (value : Option Inline) :
    (Body.entry key value).text.head? = key.1.head? := by
  cases value with
  | none => exact List.head?_append_of_ne_nil _ key.2.ne_nil
  | some v => exact List.head?_append_of_ne_nil _ key.2.ne_nil

/-- A key is split from its value. -/
theorem splitKey_entry (key : Key) (value : Option Inline) :
    splitKey (Body.entry key value).text = some (key.1, (value.map Inline.text).getD []) := by
  cases value with
  | none => exact splitKey_key key
  | some v => exact splitKey_value key v.onLine

theorem splitKey_plain {s : Str} (h : IsPlain s) : splitKey s = none := by
  rw [splitKey, if_neg h.noLast, splitOnceAt, find_eq_none_iff.mpr h.noColon]
  rfl

/-! ### Dashes -/

theorem strip_dash (pad : Nat) (s : Str) :
    ['-', ' '].isPrefixOf? (dashText pad ++ s) = some (List.replicate pad ' ' ++ s) :=
  List.isPrefixOf?_eq_some_iff_append_eq.mpr rfl

/-- A plain text and what can stand behind it do not start with a dash and a blank. -/
theorem not_dash_blank {k : Str} (h : IsPlain k) {s : Str} (hs : s.head? ≠ some ' ') :
    ['-', ' '].isPrefixOf? (k ++ s) = none := by
  rw [← Option.not_isSome_iff_eq_none, List.isSome_isPrefixOf?_eq_isPrefixOf,
    List.isPrefixOf_iff_prefix]
  intro hpre
  match k, h with
  | [], h => exact h.ne_nil rfl
  | [c], h =>
      obtain ⟨rest, hrest⟩ := hpre
      obtain ⟨rfl, htail⟩ := List.cons.inj hrest
      have hblank : ' ' :: rest = s := htail
      exact hs (hblank ▸ rfl)
  | c :: d :: k, h =>
      obtain ⟨rest, hrest⟩ := hpre
      obtain ⟨rfl, htail⟩ := List.cons.inj hrest
      obtain ⟨rfl, -⟩ := List.cons.inj htail
      exact h.noDash.2 ⟨k, rfl⟩

theorem strip_entry (key : Key) (value : Option Inline) :
    ['-', ' '].isPrefixOf? (Body.entry key value).text = none := by
  cases value with
  | none => exact not_dash_blank key.2 (by simp)
  | some v => exact not_dash_blank key.2 (by simp)

theorem strip_inline (v : Inline) : ['-', ' '].isPrefixOf? v.text = none := by
  cases v with
  | scalar s =>
      cases s with
      | plain s h =>
          have hplain := @not_dash_blank s h [] (by simp)
          rwa [List.append_nil] at hplain
      | double s => rfl
      | single s h => rfl
  | emptyMapping => rfl
  | emptySequence => rfl
  | literal => rfl

/-! ### Scalars without their quotes -/

theorem unquote_plain {s : Str} (h : IsPlain s) : unquote s = s := by
  have hno : ∀ q ∈ ['"', '\''], inQuotes q s = false := by
    intro q hq
    rw [inQuotes, Bool.and_eq_false_iff]
    left
    rw [decide_eq_false_iff_not]
    intro hhead
    apply h.head q hhead
    simp only [List.mem_cons, List.not_mem_nil, or_false] at hq
    rcases hq with rfl | rfl <;> decide
  rw [unquote, trim_eq_self h.trimmed, hno '"' (by simp), hno '\'' (by simp)]
  simp

theorem unquote_quoted {q : Char} (hq : q = '"' ∨ q = '\'') {inner : Str}
    (h : OnLine (q :: inner ++ [q])) : unquote (q :: inner ++ [q]) = inner := by
  have hin : inQuotes q (q :: inner ++ [q]) = true := by
    rw [inQuotes, List.getLast?_concat]
    simp
  rw [unquote, trim_eq_self h.trimmed, if_pos]
  · simp
  · refine ⟨by simp, ?_⟩
    rcases hq with rfl | rfl
    · exact .inl hin
    · exact .inr hin

/-- No character of the scalar is written with an escape. -/
def Unescaped : Scalar → Prop
  | .plain _ _ => True
  | .double s => ∀ c ∈ s, escapeDouble c = [c]
  | .single s _ => ∀ c ∈ s, escapeSingle c = [c]

theorem length_le_flatMap {write : Char → Str} (hne : ∀ c, write c ≠ []) (s : Str) :
    s.length ≤ (s.flatMap write).length := by
  induction s with
  | nil => exact Nat.zero_le _
  | cons c s ih =>
      have hpos := List.length_pos_of_ne_nil (hne c)
      rw [List.flatMap_cons, List.length_append, List.length_cons]
      omega

/-- A text is written like itself where each of its characters is, and only there. -/
theorem flatMap_eq_self_iff {write : Char → Str} (hne : ∀ c, write c ≠ []) {s : Str} :
    s.flatMap write = s ↔ ∀ c ∈ s, write c = [c] := by
  induction s with
  | nil => simp
  | cons c s ih =>
      rw [List.flatMap_cons, List.forall_mem_cons, ← ih]
      constructor
      · intro h
        obtain ⟨d, ds, hw⟩ := List.exists_cons_of_ne_nil (hne c)
        rw [hw, List.cons_append, List.cons.injEq] at h
        obtain ⟨rfl, h⟩ := h
        have hlength := congrArg List.length h
        have hle := length_le_flatMap hne s
        rw [List.length_append] at hlength
        obtain rfl : ds = [] := List.eq_nil_of_length_eq_zero (by omega)
        exact ⟨hw, h⟩
      · rintro ⟨hw, h⟩
        rw [hw, h, List.singleton_append]

/-- Without its quotes a scalar reads as what it means where it needs no escapes, and only there. -/
theorem unquote_text_eq_content_iff (s : Scalar) : unquote s.text = s.content ↔ Unescaped s := by
  cases s with
  | plain s h => exact iff_of_true (unquote_plain h) trivial
  | double s =>
      have hread : unquote (Scalar.double s).text = s.flatMap escapeDouble :=
        unquote_quoted (.inl rfl) (Scalar.double s).onLine
      rw [hread]
      exact flatMap_eq_self_iff fun c => by unfold escapeDouble; split_ifs <;> simp
  | single s h =>
      have hread : unquote (Scalar.single s h).text = s.flatMap escapeSingle :=
        unquote_quoted (.inr rfl) (Scalar.single s h).onLine
      rw [hread]
      exact flatMap_eq_self_iff fun c => by unfold escapeSingle; split_ifs <;> simp

end AutomatisedPipeline.YamlLine

import AutomatisedPipeline.Text.Padding

/-!
Block style YAML as it is written: trees of mappings, sequences and scalars, and the lines of a
tree.

A mapping stands deeper than its key by any number of columns, a sequence deeper or flush with it,
and a collection in a sequence starts on the line of the dash. A line keeps the path to what it
holds, so that what a line scan makes of the lines can be compared with what the tree says.
-/

namespace AutomatisedPipeline.Yaml

open Text

/-! ### Scalars -/

/-- The characters that give a scalar at their head another meaning. -/
def indicators : List Char :=
  [',', '[', ']', '{', '}', '#', '&', '*', '!', '|', '>', '\'', '"', '%', '@', Char.ofNat 96]

/-- A text that needs no quotes as a key, as a value or as an item. -/
structure IsPlain (s : Str) : Prop where
  ne_nil : s ≠ []
  trimmed : Trimmed s
  noBreak : ∀ c ∈ s, c ≠ '\n' ∧ c ≠ '\r'
  head : ∀ c ∈ s.head?, c ∉ indicators
  noDash : s ≠ ['-'] ∧ ¬ ['-', ' '] <+: s
  noColon : ¬ [':', ' '] <:+: s
  noLast : s.getLast? ≠ some ':'
  noComment : ¬ [' ', '#'] <:+: s

instance (s : Str) : Decidable (Trimmed s) :=
  decidable_of_iff ((∀ c ∈ s.head?, isWhitespace c = false) ∧
    ∀ c ∈ s.getLast?, isWhitespace c = false) ⟨fun ⟨h, h'⟩ => ⟨h, h'⟩, fun ⟨h, h'⟩ => ⟨h, h'⟩⟩

instance (s : Str) : Decidable (IsPlain s) :=
  decidable_of_iff (s ≠ [] ∧ Trimmed s ∧ (∀ c ∈ s, c ≠ '\n' ∧ c ≠ '\r') ∧
    (∀ c ∈ s.head?, c ∉ indicators) ∧ (s ≠ ['-'] ∧ ¬ ['-', ' '] <+: s) ∧ ¬ [':', ' '] <:+: s ∧
    s.getLast? ≠ some ':' ∧ ¬ [' ', '#'] <:+: s)
    ⟨fun ⟨a, b, c, d, e, f, g, h⟩ => ⟨a, b, c, d, e, f, g, h⟩,
      fun ⟨a, b, c, d, e, f, g, h⟩ => ⟨a, b, c, d, e, f, g, h⟩⟩

/-- A text that single quotes can hold. -/
def IsSingle (s : Str) : Prop := ∀ c ∈ s, c ≠ '\n' ∧ c ≠ '\r'

instance (s : Str) : Decidable (IsSingle s) := inferInstanceAs (Decidable (∀ c ∈ s, _))

/-- A scalar on one line. -/
inductive Scalar where
  | plain (s : Str) (h : IsPlain s)
  | double (s : Str)
  | single (s : Str) (h : IsSingle s)

/-- What a scalar means. -/
def Scalar.content : Scalar → Str
  | .plain s _ | .double s | .single s _ => s

/-- A character between double quotes. -/
def escapeDouble (c : Char) : Str :=
  if c = '"' then ['\\', '"']
  else if c = '\\' then ['\\', '\\']
  else if c = '\n' then ['\\', 'n']
  else if c = '\r' then ['\\', 'r']
  else [c]

/-- A character between single quotes. -/
def escapeSingle (c : Char) : Str := if c = '\'' then ['\'', '\''] else [c]

/-- A scalar as it is written. -/
def Scalar.text : Scalar → Str
  | .plain s _ => s
  | .double s => '"' :: s.flatMap escapeDouble ++ ['"']
  | .single s _ => '\'' :: s.flatMap escapeSingle ++ ['\'']

/-- A key, written without quotes. -/
abbrev Key : Type := { s : Str // IsPlain s }

/-! ### Trees and their lines -/

/-- A tree with its layout. A mapping and the lines of a literal are `extra + 1` columns deeper than
their key, a sequence is `offset` columns deeper, and so many blanks more stand behind a dash. -/
inductive Node where
  | scalar (s : Scalar)
  | mapping (extra : Nat) (entries : List (Key × Node))
  | sequence (offset : Nat) (items : List Node)
  | literal (extra : Nat) (lines : List Line)

/-- A step of the path to a node. -/
inductive Step where
  | key (k : Str)
  | item
deriving DecidableEq, Repr

/-- What stands on the line of a key or of a dash. -/
inductive Inline where
  | scalar (s : Scalar)
  | emptyMapping
  | emptySequence
  | literal

def Inline.text : Inline → Str
  | .scalar s => s.text
  | .emptyMapping => ['{', '}']
  | .emptySequence => ['[', ']']
  | .literal => ['|']

/-- What a line holds behind its dashes. -/
inductive Body where
  | entry (key : Key) (value : Option Inline)
  | item (value : Inline)
  | literal (line : Line)

def Body.text : Body → Str
  | .entry key none => key.1 ++ [':']
  | .entry key (some value) => key.1 ++ (':' :: ' ' :: value.text)
  | .item value => value.text
  | .literal line => line.chars

/-- A line of a tree: the column it starts in, its dashes with the blanks that each has more than
one, and the path to what it holds. -/
structure Row where
  indent : Nat
  dashes : List Nat
  path : List Step
  body : Body

/-- A dash with the blanks behind it. -/
def dashText (pad : Nat) : Str := '-' :: List.replicate (pad + 1) ' '

/-- A line behind its indentation. -/
def Row.text (r : Row) : Str := r.dashes.flatMap dashText ++ r.body.text

/-- A line as it is written. -/
def Row.raw (r : Row) : Str := List.replicate r.indent ' ' ++ r.text

/-- What stands on the line of the key or of the dash. -/
def Node.inline : Node → Option Inline
  | .scalar s => some (.scalar s)
  | .mapping _ [] => some .emptyMapping
  | .mapping _ (_ :: _) => none
  | .sequence _ [] => some .emptySequence
  | .sequence _ (_ :: _) => none
  | .literal _ _ => some .literal

/-- A dash before the first of some lines. -/
def dash (column pad : Nat) : List Row → List Row
  | [] => []
  | r :: rows => { r with indent := column, dashes := pad :: r.dashes } :: rows

mutual

/-- The lines below a key in a column. -/
def Node.under (column : Nat) (path : List Step) : Node → List Row
  | .scalar _ => []
  | .mapping extra entries => entryRows (column + extra + 1) path entries
  | .sequence offset items => itemRows (column + offset) path items
  | .literal extra lines => lines.map fun l => ⟨column + extra + 1, [], path, .literal l⟩

/-- The lines of a mapping. -/
def entryRows (column : Nat) (path : List Step) : List (Key × Node) → List Row
  | [] => []
  | (key, value) :: entries =>
      ⟨column, [], path ++ [.key key.1], .entry key value.inline⟩ ::
        (value.under column (path ++ [.key key.1]) ++ entryRows column path entries)

/-- The lines of a sequence. -/
def itemRows (column : Nat) (path : List Step) : List Node → List Row
  | [] => []
  | item :: items =>
      (match item with
        | .mapping extra (entry :: entries) =>
            dash column extra (entryRows (column + extra + 2) (path ++ [.item]) (entry :: entries))
        | .sequence offset (inner :: inners) =>
            dash column offset (itemRows (column + offset + 2) (path ++ [.item]) (inner :: inners))
        | .scalar s => [⟨column, [0], path ++ [.item], .item (.scalar s)⟩]
        | .mapping _ [] => [⟨column, [0], path ++ [.item], .item .emptyMapping⟩]
        | .sequence _ [] => [⟨column, [0], path ++ [.item], .item .emptySequence⟩]
        | .literal extra lines =>
            ⟨column, [0], path ++ [.item], .item .literal⟩ ::
              lines.map fun l => ⟨column + extra + 1, [], path ++ [.item], .literal l⟩) ++
        itemRows column path items

end

/-- A document: a mapping that is no part of another. -/
abbrev Document : Type := List (Key × Node)

def Document.rows (d : Document) : List Row := entryRows 0 [] d

/-- The text of a document. -/
def Document.render (d : Document) : Str := unlines (d.rows.map Row.raw)

/-! ### What is written on one line -/

/-- A text on one line that does not run into what stands around it: it is neither empty nor padded,
is no comment and does not end like a key. -/
structure OnLine (s : Str) : Prop where
  ne_nil : s ≠ []
  trimmed : Trimmed s
  noBreak : ∀ c ∈ s, c ≠ '\n' ∧ c ≠ '\r'
  head : s.head? ≠ some '#'
  noLast : s.getLast? ≠ some ':'

theorem IsPlain.onLine {s : Str} (h : IsPlain s) : OnLine s where
  ne_nil := h.ne_nil
  trimmed := h.trimmed
  noBreak := h.noBreak
  head hhash := h.head '#' hhash (by decide)
  noLast := h.noLast

/-- A text between two quotes of a kind. -/
theorem onLine_quoted {q : Char} (hq : q = '"' ∨ q = '\'') {inner : Str}
    (h : ∀ c ∈ inner, c ≠ '\n' ∧ c ≠ '\r') : OnLine (q :: inner ++ [q]) := by
  have hlast : (q :: inner ++ [q]).getLast? = some q := List.getLast?_concat
  constructor
  · exact List.cons_ne_nil q _
  · constructor
    · intro c hc
      obtain rfl : q = c := Option.some.inj hc
      rcases hq with rfl | rfl <;> rfl
    · intro c hc
      rw [hlast] at hc
      obtain rfl : q = c := Option.some.inj hc
      rcases hq with rfl | rfl <;> rfl
  · intro c hc
    rcases List.mem_append.mp hc with hc | hc
    · rcases List.mem_cons.mp hc with rfl | hc
      · rcases hq with rfl | rfl <;> decide
      · exact h c hc
    · obtain rfl := List.mem_singleton.mp hc
      rcases hq with rfl | rfl <;> decide
  · rcases hq with rfl | rfl <;> simp
  · rw [hlast]
    rcases hq with rfl | rfl <;> decide

theorem noBreak_escapeDouble {c d : Char} (h : d ∈ escapeDouble c) : d ≠ '\n' ∧ d ≠ '\r' := by
  rw [escapeDouble] at h
  split_ifs at h with hquote hslash hfeed hreturn
  · simp only [List.mem_cons, List.not_mem_nil, or_false] at h
    rcases h with rfl | rfl <;> decide
  · simp only [List.mem_cons, List.not_mem_nil, or_false, or_self] at h
    subst h
    decide
  · simp only [List.mem_cons, List.not_mem_nil, or_false] at h
    rcases h with rfl | rfl <;> decide
  · simp only [List.mem_cons, List.not_mem_nil, or_false] at h
    rcases h with rfl | rfl <;> decide
  · obtain rfl := List.mem_singleton.mp h
    exact ⟨hfeed, hreturn⟩

theorem noBreak_escapeSingle {c d : Char} (hc : c ≠ '\n' ∧ c ≠ '\r') (h : d ∈ escapeSingle c) :
    d ≠ '\n' ∧ d ≠ '\r' := by
  rw [escapeSingle] at h
  split_ifs at h
  · simp only [List.mem_cons, List.not_mem_nil, or_false, or_self] at h
    subst h
    decide
  · obtain rfl := List.mem_singleton.mp h
    exact hc

theorem Scalar.onLine (s : Scalar) : OnLine s.text := by
  cases s with
  | plain s h => exact h.onLine
  | double s =>
      apply onLine_quoted (.inl rfl)
      intro c hc
      obtain ⟨d, -, hmem⟩ := List.mem_flatMap.mp hc
      exact noBreak_escapeDouble hmem
  | single s h =>
      apply onLine_quoted (.inr rfl)
      intro c hc
      obtain ⟨d, hd, hmem⟩ := List.mem_flatMap.mp hc
      exact noBreak_escapeSingle (h d hd) hmem

theorem Inline.onLine (v : Inline) : OnLine v.text := by
  cases v with
  | scalar s => exact s.onLine
  | emptyMapping => exact ⟨by decide, by decide, by decide, by decide, by decide⟩
  | emptySequence => exact ⟨by decide, by decide, by decide, by decide, by decide⟩
  | literal => exact ⟨by decide, by decide, by decide, by decide, by decide⟩

/-! ### The lines of a document -/

/-- A line of a literal may hold anything. -/
def Body.IsLiteral : Body → Prop
  | .literal _ => True
  | _ => False

instance (b : Body) : Decidable b.IsLiteral := by
  cases b
  · exact inferInstanceAs (Decidable False)
  · exact inferInstanceAs (Decidable False)
  · exact inferInstanceAs (Decidable True)

/-- Any other line is a text of its own behind its indentation. -/
structure OwnLine (s : Str) : Prop where
  ne_nil : s ≠ []
  trimmed : Trimmed s
  noBreak : ∀ c ∈ s, c ≠ '\n' ∧ c ≠ '\r'
  head : s.head? ≠ some '#'

theorem OnLine.ownLine {s : Str} (h : OnLine s) : OwnLine s :=
  ⟨h.ne_nil, h.trimmed, h.noBreak, h.head⟩

/-- Two texts of their own, with anything on one line between them, are a text of their own. -/
theorem OwnLine.append {a b : Str} (ha : OwnLine a) (hb : OwnLine b) (between : Str)
    (hbetween : ∀ c ∈ between, c ≠ '\n' ∧ c ≠ '\r') : OwnLine (a ++ (between ++ b)) where
  ne_nil h := ha.ne_nil (List.append_eq_nil_iff.mp h).1
  trimmed := by
    constructor
    · intro c hc
      rw [List.head?_append_of_ne_nil _ ha.ne_nil] at hc
      exact ha.trimmed.head c hc
    · intro c hc
      rw [← List.append_assoc, List.getLast?_append_of_ne_nil _ hb.ne_nil] at hc
      exact hb.trimmed.last c hc
  noBreak c hc := by
    rcases List.mem_append.mp hc with hc | hc
    · exact ha.noBreak c hc
    · rcases List.mem_append.mp hc with hc | hc
      · exact hbetween c hc
      · exact hb.noBreak c hc
  head := by
    rw [List.head?_append_of_ne_nil _ ha.ne_nil]
    exact ha.head

theorem ownLine_colon : OwnLine [':'] :=
  ⟨by decide, by decide, by decide, by decide⟩

theorem ownLine_dash : OwnLine ['-'] :=
  ⟨by decide, by decide, by decide, by decide⟩

theorem Body.ownLine {b : Body} (h : ¬ b.IsLiteral) : OwnLine b.text := by
  cases b with
  | entry key value =>
      have hkey := key.2.onLine.ownLine
      cases value with
      | none => exact hkey.append ownLine_colon [] (by simp)
      | some v => exact hkey.append v.onLine.ownLine [':', ' '] (by decide)
  | item v => exact v.onLine.ownLine
  | literal l => exact absurd trivial h

theorem noBreak_blanks {n : Nat} {c : Char} (h : c ∈ List.replicate n ' ') :
    c ≠ '\n' ∧ c ≠ '\r' := by
  rw [List.eq_of_mem_replicate h]
  decide

theorem dashes_ownLine (dashes : List Nat) {s : Str} (h : OwnLine s) :
    OwnLine (dashes.flatMap dashText ++ s) := by
  induction dashes with
  | nil => exact h
  | cons pad dashes ih =>
      rw [List.flatMap_cons, List.append_assoc]
      exact ownLine_dash.append ih (List.replicate (pad + 1) ' ') fun c hc => noBreak_blanks hc

theorem Row.ownLine {r : Row} (h : ¬ r.body.IsLiteral) : OwnLine r.text :=
  dashes_ownLine r.dashes (Body.ownLine h)

theorem Row.noBreak (r : Row) : '\n' ∉ r.raw := by
  intro hmem
  rcases List.mem_append.mp hmem with hmem | hmem
  · exact (noBreak_blanks hmem).1 rfl
  · rcases List.mem_append.mp hmem with hmem | hmem
    · obtain ⟨pad, -, hpad⟩ := List.mem_flatMap.mp hmem
      rcases List.mem_cons.mp hpad with hdash | hblank
      · exact absurd hdash (by decide)
      · exact (noBreak_blanks hblank).1 rfl
    · by_cases hlit : r.body.IsLiteral
      · cases hbody : r.body with
        | literal l =>
            rw [hbody] at hmem
            exact l.noBreak hmem
        | _ => rw [hbody] at hlit; exact hlit
      · exact ((Body.ownLine hlit).noBreak _ hmem).1 rfl

/-- The lines of the text are the lines of the tree. -/
theorem lines_render (d : Document) : lines d.render = d.rows.map fun r => stripCr r.raw := by
  rw [Document.render, lines_unlines, List.map_map]
  · rfl
  · intro l hl
    obtain ⟨r, -, rfl⟩ := List.mem_map.mp hl
    exact r.noBreak

end AutomatisedPipeline.Yaml

import AutomatisedPipeline.Cfg.Predicate

/-!
The lexer of a `#[cfg(..)]` argument list (`parser/cfg_lex.rs`), and its parser
(`parse_cfg_arguments` of `parser/cfg_expr.rs`). Each inner loop of the lexer returns how many
characters it consumes, counted from where it starts. A reader of the parser returns what it leaves
of the tokens as a strictly shorter list, so the recursion is total.
-/

namespace AutomatisedPipeline.Cfg

open Text

/-! ### Comments -/

/-- `copy_string_rest`: the number of characters of a string literal behind its
opening quote, the closing quote included. -/
def copyStringRest (escaped : Bool) : Str → Nat
  | [] => 0
  | c :: rest =>
      if escaped then 1 + copyStringRest false rest
      else if c = '\\' then 1 + copyStringRest true rest
      else if c = '"' then 1
      else 1 + copyStringRest false rest

/-- `skip_block_comment`: the number of characters up to the end of the comment
that closes `depth` open ones. -/
def skipBlockComment (depth : Nat) : Str → Nat
  | [] => 0
  | [_] => 1
  | c :: d :: rest =>
      if c = '/' ∧ d = '*' then 2 + skipBlockComment (depth + 1) rest
      else if c = '*' ∧ d = '/' then
        if depth = 1 then 2 else 2 + skipBlockComment (depth - 1) rest
      else 1 + skipBlockComment depth (d :: rest)

/-- `without_comments`: every comment is replaced by one space. -/
def withoutComments : Str → Str
  | [] => []
  | c :: rest =>
      if c = '"' then
        c :: (rest.take (copyStringRest false rest) ++
          withoutComments (rest.drop (copyStringRest false rest)))
      else if c = '/' ∧ rest.head? = some '/' then
        ' ' :: withoutComments (rest.drop ((rest.takeWhile (· ≠ '\n')).length + 1))
      else if c = '/' ∧ rest.head? = some '*' then
        ' ' :: withoutComments (rest.tail.drop (skipBlockComment 1 rest.tail))
      else c :: withoutComments rest
termination_by s => s.length

/-! ### String literals -/

/-- `char::to_digit(16)`. -/
def toHexDigit (c : Char) : Option Nat :=
  if '0' ≤ c ∧ c ≤ '9' then some (c.toNat - 48)
  else if 'a' ≤ c ∧ c ≤ 'f' then some (c.toNat - 87)
  else if 'A' ≤ c ∧ c ≤ 'F' then some (c.toNat - 55)
  else none

/-- The digits of a hexadecimal number, most significant first. -/
def hexValue (acc : Nat) : Str → Option Nat
  | [] => some acc
  | c :: rest =>
      match toHexDigit c with
      | none => none
      | some d => hexValue (16 * acc + d) rest

/-- `from_str_radix(_, 16)` for an unsigned type below `bound`: an optional `+`
and at least one digit. -/
def fromStrRadix16 (bound : Nat) (s : Str) : Option Nat :=
  match (if s.head? = some '+' then s.tail else s) with
  | [] => none
  | digits => (hexValue 0 digits).filter (· < bound)

/-- `char::from_u32`. -/
def charFromU32 (n : Nat) : Option Char := if n.isValidChar then some (Char.ofNat n) else none

/-- The escape of `string_literal` behind its backslash: the character and the
number of characters read. -/
def escape : Str → Option (Char × Nat)
  | '"' :: _ => some ('"', 1)
  | '\\' :: _ => some ('\\', 1)
  | '\'' :: _ => some ('\'', 1)
  | 'n' :: _ => some ('\n', 1)
  | 'r' :: _ => some ('\r', 1)
  | 't' :: _ => some ('\t', 1)
  | '0' :: _ => some (Char.ofNat 0, 1)
  | 'x' :: rest =>
      ((fromStrRadix16 256 (rest.take 2)).filter (· < 0x80)).map fun b => (Char.ofNat b, 3)
  | 'u' :: '{' :: rest =>
      match fromStrRadix16 (2 ^ 32) (rest.takeWhile (· ≠ '}')) with
      | none => none
      | some n => (charFromU32 n).map fun c => (c, (rest.takeWhile (· ≠ '}')).length + 3)
  | _ => none

/-- `string_literal`: the decoded body of a literal and the number of characters
read, the closing quote included. -/
def stringLiteral : Str → Option (Str × Nat)
  | [] => none
  | c :: rest =>
      if c = '"' then some ([], 1)
      else if c = '\\' then
        match escape rest with
        | none => none
        | some (d, n) => (stringLiteral (rest.drop n)).map fun p => (d :: p.1, n + 1 + p.2)
      else (stringLiteral rest).map fun p => (c :: p.1, 1 + p.2)
termination_by s => s.length

/-! ### Tokens -/

inductive Token where
  | ident (name : Str)
  | str (value : Str)
  | eq
  | open
  | close
  | comma
deriving DecidableEq, Repr

section Tokenize

-- `char::is_alphanumeric`, the Unicode property
variable (isAlphanumeric : Char → Bool)

def isIdentChar (c : Char) : Bool := isAlphanumeric c || c == '_'

/-- `tokenize`. -/
def tokenize : Str → Option (List Token)
  | [] => some []
  | c :: rest =>
      if isWhitespace c then tokenize rest
      else if c = '(' then (tokenize rest).map (Token.open :: ·)
      else if c = ')' then (tokenize rest).map (Token.close :: ·)
      else if c = ',' then (tokenize rest).map (Token.comma :: ·)
      else if c = '=' then (tokenize rest).map (Token.eq :: ·)
      else if c = '"' then
        match stringLiteral rest with
        | none => none
        | some (value, n) => (tokenize (rest.drop n)).map (Token.str value :: ·)
      else if isIdentChar isAlphanumeric c then
        (tokenize (rest.drop (rest.takeWhile (isIdentChar isAlphanumeric)).length)).map
          (Token.ident (c :: rest.takeWhile (isIdentChar isAlphanumeric)) :: ·)
      else none
termination_by s => s.length

/-- An identifier token is never empty. -/
theorem ident_ne_nil {s : Str} {ts : List Token} (h : tokenize isAlphanumeric s = some ts)
    {name : Str} (hmem : Token.ident name ∈ ts) : name ≠ [] := by
  fun_induction tokenize isAlphanumeric s generalizing ts with
  | case1 => simp_all
  | case2 c rest _ ih => exact ih h hmem
  | case3 rest _ ih =>
      obtain ⟨us, hus, rfl⟩ := Option.map_eq_some_iff.mp h
      exact ih hus (by simpa using hmem)
  | case4 rest _ _ ih =>
      obtain ⟨us, hus, rfl⟩ := Option.map_eq_some_iff.mp h
      exact ih hus (by simpa using hmem)
  | case5 rest _ _ _ ih =>
      obtain ⟨us, hus, rfl⟩ := Option.map_eq_some_iff.mp h
      exact ih hus (by simpa using hmem)
  | case6 rest _ _ _ _ ih =>
      obtain ⟨us, hus, rfl⟩ := Option.map_eq_some_iff.mp h
      exact ih hus (by simpa using hmem)
  | case7 => simp at h
  | case8 rest _ _ _ _ _ value n _ ih =>
      obtain ⟨us, hus, rfl⟩ := Option.map_eq_some_iff.mp h
      exact ih hus (by simpa using hmem)
  | case9 c rest _ _ _ _ _ _ _ ih =>
      obtain ⟨us, hus, rfl⟩ := Option.map_eq_some_iff.mp h
      rcases List.mem_cons.mp hmem with heq | hmem
      · cases heq
        simp
      · exact ih hus hmem
  | case10 => simp at h

end Tokenize

example : (tokenize Char.isAlphanum (withoutComments "(all(a, /* b */ c = \"d\\\"\"))".toList)) =
    some [.open, .ident ['a', 'l', 'l'], .open, .ident ['a'], .comma, .ident ['c'], .eq,
      .str ['d', '"'], .close, .close] := by decide +kernel

/-- The predicate of a key and its value. -/
def valued (name value : Str) : CfgPredicate :=
  if name = featureKey then .feature value else .option name (some value)

/-- The predicate of a name and its list of arguments. -/
def applied (name : Str) (items : List CfgPredicate) : Option CfgPredicate :=
  if name = allName then some (.all items)
  else if name = anyName then some (.any items)
  else if name = notName then
    match items with
    | [p] => some (.not p)
    | _ => none
  else none

mutual
/-- `Parser::predicate`. -/
def parsePredicate (ts : List Token) : Option (CfgPredicate × Left ts) :=
  match ts with
  | .ident name :: .eq :: .str value :: rest =>
      some (valued name value, ⟨rest, by simp only [List.length_cons]; omega⟩)
  | .ident _ :: .eq :: _ => none
  | .ident name :: .open :: rest =>
      match parseList rest with
      | none => none
      | some (items, ⟨rest', h⟩) =>
          match applied name items with
          | none => none
          | some p => some (p, ⟨rest', by simp only [List.length_cons]; omega⟩)
  | .ident name :: rest => some (.option name none, ⟨rest, by simp⟩)
  | _ => none
termination_by 2 * ts.length

/-- `Parser::list`. -/
def parseList (ts : List Token) : Option (List CfgPredicate × Left ts) :=
  match ts with
  | .close :: rest => some ([], ⟨rest, by simp⟩)
  | ts =>
      match parsePredicate ts with
      | none => none
      | some (p, ⟨.comma :: rest, h⟩) =>
          have : rest.length < ts.length := by simp only [List.length_cons] at h; omega
          match parseList rest with
          | none => none
          | some (items, ⟨rest', h'⟩) =>
              some (p :: items, ⟨rest', by simp only [List.length_cons] at h; omega⟩)
      | some (p, ⟨.close :: rest, h⟩) =>
          some ([p], ⟨rest, by simp only [List.length_cons] at h; omega⟩)
      | some _ => none
termination_by 2 * ts.length + 1
end

/-- `parse_cfg_arguments`. -/
def parseCfgArguments (isAlphanumeric : Char → Bool) (text : Str) : Option CfgPredicate :=
  match tokenize isAlphanumeric (withoutComments text) with
  | some (.open :: ts) =>
      match parsePredicate ts with
      | some (p, ⟨[.close], _⟩) => some p
      | some (p, ⟨[.comma, .close], _⟩) => some p
      | _ => none
  | _ => none

/-! ### The leaves of a parsed predicate -/

/-- A leaf that the parser can build: an option has a name, and the key `feature`
with a value is a feature. -/
def Spelled : CfgPredicate → Prop
  | .option key value => key ≠ [] ∧ (key = featureKey → value = none)
  | _ => True

theorem spelled_valued {name : Str} (h : name ≠ []) (value : Str) :
    ∀ x ∈ (valued name value).leaves, Spelled x := by
  unfold valued
  split
  · simp [CfgPredicate.leaves, Spelled]
  · rename_i hne
    simpa [CfgPredicate.leaves, Spelled, h] using hne

theorem leaves_applied {name : Str} {items : List CfgPredicate} {p : CfgPredicate}
    (h : applied name items = some p) : p.leaves = CfgPredicate.leavesList items := by
  unfold applied at h
  split at h
  · obtain rfl := Option.some.inj h; simp [CfgPredicate.leaves]
  · split at h
    · obtain rfl := Option.some.inj h; simp [CfgPredicate.leaves]
    · split at h
      · split at h
        · obtain rfl := Option.some.inj h
          simp [CfgPredicate.leaves, CfgPredicate.leavesList]
        · cases h
      · cases h

mutual
theorem parsePredicate_spelled (ts : List Token) (hid : ∀ name, .ident name ∈ ts → name ≠ [])
    {p : CfgPredicate} {rest : Left ts} (h : parsePredicate ts = some (p, rest)) :
    (∀ x ∈ p.leaves, Spelled x) ∧ rest.1 ⊆ ts := by
  unfold parsePredicate at h
  split at h
  · rename_i name value tail
    obtain ⟨rfl, rfl⟩ := Prod.mk.inj (Option.some.inj h)
    exact ⟨spelled_valued (hid name (by simp)) value, fun x hx => by simp [hx]⟩
  · cases h
  · rename_i name tail
    split at h
    · cases h
    · rename_i items rest' hlt hlist
      split at h
      · cases h
      · rename_i q hq
        obtain ⟨rfl, rfl⟩ := Prod.mk.inj (Option.some.inj h)
        have ih := parseList_spelled tail (fun n hn => hid n (by simp [hn])) hlist
        rw [leaves_applied hq]
        exact ⟨ih.1, fun x hx => by simp [ih.2 hx]⟩
  · rename_i name tail _ _ _
    obtain ⟨rfl, rfl⟩ := Prod.mk.inj (Option.some.inj h)
    refine ⟨?_, fun x hx => by simp [hx]⟩
    simpa [CfgPredicate.leaves, Spelled] using hid name (by simp)
  · cases h
termination_by 2 * ts.length

theorem parseList_spelled (ts : List Token) (hid : ∀ name, .ident name ∈ ts → name ≠ [])
    {items : List CfgPredicate} {rest : Left ts} (h : parseList ts = some (items, rest)) :
    (∀ x ∈ CfgPredicate.leavesList items, Spelled x) ∧ rest.1 ⊆ ts := by
  unfold parseList at h
  split at h
  · rename_i tail
    obtain ⟨rfl, rfl⟩ := Prod.mk.inj (Option.some.inj h)
    exact ⟨by simp [CfgPredicate.leavesList], fun x hx => by simp [hx]⟩
  · split at h
    · cases h
    · rename_i p tail hlt hp
      have ihp := parsePredicate_spelled ts hid hp
      split at h
      · cases h
      · rename_i items' rest' hlt' hlist
        obtain ⟨rfl, rfl⟩ := Prod.mk.inj (Option.some.inj h)
        have hshort : tail.length < ts.length := by
          simp only [List.length_cons] at hlt
          omega
        have hsub : tail ⊆ ts := fun x hx => ihp.2 (by simp [hx])
        have ih := parseList_spelled tail (fun n hn => hid n (hsub hn)) hlist
        refine ⟨?_, fun x hx => hsub (ih.2 hx)⟩
        simp only [CfgPredicate.leavesList, List.mem_append]
        rintro x (hx | hx)
        · exact ihp.1 x hx
        · exact ih.1 x hx
    · rename_i p tail hlt hp
      have ihp := parsePredicate_spelled ts hid hp
      obtain ⟨rfl, rfl⟩ := Prod.mk.inj (Option.some.inj h)
      exact ⟨by simpa [CfgPredicate.leavesList] using ihp.1, fun x hx => ihp.2 (by simp [hx])⟩
    · cases h
termination_by 2 * ts.length + 1
end

/-- Every predicate that `parse_cfg_arguments` returns has spelled leaves. -/
theorem parseCfgArguments_spelled {isAlphanumeric : Char → Bool} {text : Str} {p : CfgPredicate}
    (h : parseCfgArguments isAlphanumeric text = some p) : ∀ x ∈ p.leaves, Spelled x := by
  unfold parseCfgArguments at h
  split at h
  · rename_i ts hts
    have hid : ∀ name, .ident name ∈ ts → name ≠ [] := fun name hmem =>
      ident_ne_nil isAlphanumeric hts (by simp [hmem])
    split at h
    · rename_i q hlt hq
      obtain rfl := Option.some.inj h
      exact (parsePredicate_spelled ts hid hq).1
    · rename_i q hlt hq
      obtain rfl := Option.some.inj h
      exact (parsePredicate_spelled ts hid hq).1
    · cases h
  · cases h

example : parseCfgArguments Char.isAlphanum "(not(feature = \"fast\"))".toList =
    some (.not (.feature "fast".toList)) := by decide +kernel

end AutomatisedPipeline.Cfg

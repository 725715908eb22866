import AutomatisedPipeline.Resolver.TypeEdges

/-!
Where a definition request points (`lsp_position` of `lsp_resolver/sites.rs`).

A call site stores the text of its callee from the start of the expression, and the request is aimed
behind the last `.` or `::` of that text. A separator found there ends at `lastSegmentOffset`
(`lastSegmentOffset_spec`), and no separator ends later (`le_lastSegmentOffset`). The request points
at the called identifier exactly if nothing stands between it and the separator before it, and no
generic arguments follow it (`UnresolvedCallSite.points_iff`).
-/

namespace AutomatisedPipeline.LspResolver

open Text Resolver

/-! ### The request -/

/-- `UnresolvedCallSite`, without the file that the sites are grouped by. -/
structure UnresolvedCallSite where
  id : Str
  callerQn : Str
  callerLabel : SymbolLabel
  calleeName : Str
  line : Nat
  col : Nat
deriving DecidableEq, Repr

/-- `last_segment_offset`. -/
def lastSegmentOffset (calleeName : Str) : Nat :=
  let dot := (rfind ['.'] calleeName).map (· + 1)
  let scope := (rfind [':', ':'] calleeName).map (· + 2)
  (dot.toList ++ scope.toList).max?.getD 0

namespace UnresolvedCallSite

/-- `UnresolvedCallSite::lsp_position`. -/
def lspPosition (site : UnresolvedCallSite) : Nat × Nat :=
  let offset := lastSegmentOffset site.calleeName
  let receiver := site.calleeName.take offset
  let line0 := site.line - 1 + receiver.count '\n'
  let col := match rfind ['\n'] receiver with
    | some newline => offset - newline - 1
    | none => site.col + offset
  (line0, col)

/-- `UnresolvedCallSite::identifier_name`. -/
def identifierName (site : UnresolvedCallSite) : Str :=
  site.calleeName.drop (lastSegmentOffset site.calleeName)

end UnresolvedCallSite

/-! ### The last separator -/

/-- A separator of the text ends at `o`. -/
def EndsAt (s : Str) (o : Nat) : Prop :=
  ∃ sep ∈ [['.'], [':', ':']], ∃ a b, s = a ++ (sep ++ b) ∧ o = a.length + sep.length

theorem lastSegmentOffset_eq (s : Str) :
    lastSegmentOffset s =
      max (((rfind ['.'] s).map (· + 1)).getD 0) (((rfind [':', ':'] s).map (· + 2)).getD 0) := by
  unfold lastSegmentOffset
  cases rfind ['.'] s <;> cases rfind [':', ':'] s <;> simp [List.max?]

/-- The offset is that of a separator's end, where there is one. -/
theorem lastSegmentOffset_spec (s : Str) :
    lastSegmentOffset s = 0 ∨ EndsAt s (lastSegmentOffset s) := by
  have hdot : ((rfind ['.'] s).map (· + 1)).getD 0 = 0 ∨
      EndsAt s (((rfind ['.'] s).map (· + 1)).getD 0) := by
    cases h : rfind ['.'] s with
    | none => exact .inl rfl
    | some i =>
        obtain ⟨a, b, hs, hi⟩ := exists_of_rfind h
        exact .inr ⟨['.'], by simp, a, b, hs, by simp [hi]⟩
  have hscope : ((rfind [':', ':'] s).map (· + 2)).getD 0 = 0 ∨
      EndsAt s (((rfind [':', ':'] s).map (· + 2)).getD 0) := by
    cases h : rfind [':', ':'] s with
    | none => exact .inl rfl
    | some i =>
        obtain ⟨a, b, hs, hi⟩ := exists_of_rfind h
        exact .inr ⟨[':', ':'], by simp, a, b, hs, by simp [hi]⟩
  rw [lastSegmentOffset_eq]
  rcases max_choice (((rfind ['.'] s).map (· + 1)).getD 0)
    (((rfind [':', ':'] s).map (· + 2)).getD 0) with h | h <;> rw [h]
  · exact hdot
  · exact hscope

/-- No separator ends later. -/
theorem le_lastSegmentOffset {s : Str} {o : Nat} (h : EndsAt s o) : o ≤ lastSegmentOffset s := by
  obtain ⟨sep, hsep, a, b, rfl, rfl⟩ := h
  rw [lastSegmentOffset_eq]
  rcases List.mem_pair.mp hsep with rfl | rfl
  · obtain ⟨i, hi, hle⟩ := le_rfind ['.'] a b
    rw [hi]
    exact le_max_of_le_left (Nat.succ_le_succ hle)
  · obtain ⟨i, hi, hle⟩ := le_rfind [':', ':'] a b
    rw [hi]
    exact le_max_of_le_right (Nat.add_le_add_right hle 2)

/-- A character of a separator. -/
def isSeparatorChar (c : Char) : Bool := c == '.' || c == ':'

/-- No separator ends in a text without their characters. -/
theorem lastSegmentOffset_le {a b : Str} (h : ∀ c ∈ b, isSeparatorChar c = false) :
    lastSegmentOffset (a ++ b) ≤ a.length := by
  rcases lastSegmentOffset_spec (a ++ b) with hzero | ⟨sep, hsep, x, y, heq, hoffset⟩
  · omega
  · by_contra hlt
    have hlong : a.length < (x ++ sep).length := by
      rw [List.length_append]
      omega
    have hlast : ∃ c front, sep = front ++ [c] ∧ isSeparatorChar c = true := by
      rcases List.mem_pair.mp hsep with rfl | rfl
      · exact ⟨'.', [], rfl, rfl⟩
      · exact ⟨':', [':'], rfl, rfl⟩
    obtain ⟨c, front, rfl, hc⟩ := hlast
    have hmem : c ∈ b := by
      rw [← List.append_assoc] at heq
      have hat : (a ++ b)[(x ++ (front ++ [c])).length - 1]? = some c := by
        rw [heq, List.getElem?_append_left (by simp), ← List.append_assoc, List.length_append,
          List.length_singleton, Nat.add_sub_cancel, List.getElem?_concat_length]
      rw [List.getElem?_append_right (by omega)] at hat
      exact List.mem_of_getElem? hat
    rw [h c hmem] at hc
    cases hc

/-! ### Callee expressions -/

/-- The character of an identifier; `#` is that of a raw or a private one. -/
def isIdentifierChar (c : Char) : Bool := c.isAlphanum || c == '_' || c == '$' || c == '#'

inductive Separator where
  | dot
  | scope
deriving DecidableEq, Repr

def Separator.text : Separator → Str
  | dot => ['.']
  | scope => [':', ':']

/-- White space, newlines and comments. -/
inductive IsTrivia : Str → Prop where
  | nil : IsTrivia []
  | space {c : Char} {rest : Str} : isAsciiWhitespace c = true → IsTrivia rest →
      IsTrivia (c :: rest)
  | line {opening body rest : Str} : opening ∈ [['/', '/'], ['#']] → '\n' ∉ body → IsTrivia rest →
      IsTrivia (opening ++ (body ++ '\n' :: rest))
  | block {body rest : Str} : IsTrivia rest →
      IsTrivia ('/' :: '*' :: (body ++ '*' :: '/' :: rest))

/-- Generic arguments behind an identifier, or nothing. -/
def IsTurbofish (s : Str) : Prop := s = [] ∨ ∃ args, s = "::<".toList ++ (args ++ ['>'])

/-- The expression of a callee. -/
structure CalleeExpr where
  receiver : Str
  separator : Separator
  trivia : Str
  identifier : Str
  turbofish : Str
  isTrivia : IsTrivia trivia
  isIdentifier : identifier ≠ [] ∧ ∀ c ∈ identifier, isIdentifierChar c = true
  isTurbofish : IsTurbofish turbofish

namespace CalleeExpr

/-- What stands before the identifier. -/
def head (e : CalleeExpr) : Str := e.receiver ++ (e.separator.text ++ e.trivia)

def text (e : CalleeExpr) : Str := e.head ++ (e.identifier ++ e.turbofish)

end CalleeExpr

theorem isSeparatorChar_of_isIdentifierChar {c : Char} (h : isIdentifierChar c = true) :
    isSeparatorChar c = false := by
  by_contra hsep
  simp only [isSeparatorChar, Bool.not_eq_false, Bool.or_eq_true, beq_iff_eq] at hsep
  rcases hsep with rfl | rfl <;> exact absurd h (by decide)

theorem isSeparatorChar_of_isAsciiWhitespace {c : Char} (h : isAsciiWhitespace c = true) :
    isSeparatorChar c = false := by
  by_contra hsep
  simp only [isSeparatorChar, Bool.not_eq_false, Bool.or_eq_true, beq_iff_eq] at hsep
  rcases hsep with rfl | rfl <;> exact absurd h (by decide)

/-- The last character before an identifier is not that of a separator, if anything stands there. -/
theorem IsTrivia.last {s : Str} (h : IsTrivia s) :
    s = [] ∨ ∃ front c, s = front ++ [c] ∧ isSeparatorChar c = false := by
  induction h with
  | nil => exact .inl rfl
  | @space c rest hc hrest ih =>
      right
      rcases ih with rfl | ⟨front, d, rfl, hd⟩
      · exact ⟨[], c, rfl, isSeparatorChar_of_isAsciiWhitespace hc⟩
      · exact ⟨c :: front, d, rfl, hd⟩
  | @line opening body rest hopening hbody hrest ih =>
      right
      rcases ih with rfl | ⟨front, d, rfl, hd⟩
      · exact ⟨opening ++ body, '\n', by simp, rfl⟩
      · exact ⟨opening ++ (body ++ '\n' :: front), d, by simp, hd⟩
  | @block body rest hrest ih =>
      right
      rcases ih with rfl | ⟨front, d, rfl, hd⟩
      · exact ⟨'/' :: '*' :: (body ++ ['*']), '/', by simp, rfl⟩
      · exact ⟨'/' :: '*' :: (body ++ '*' :: '/' :: front), d, by simp, hd⟩

/-! ### Positions -/

/-- The line and the column of an offset, both from 0. -/
def position (file : Str) (offset : Nat) : Nat × Nat :=
  ((file.take offset).count '\n', (afterLast ['\n'] (file.take offset)).length)

/-- The site holds the text of a file from an offset, with its line from 1 and its column. Columns
are those of bytes, which are the characters of an ASCII text. -/
structure UnresolvedCallSite.StoredAt (site : UnresolvedCallSite) (file : Str) (start : Nat) :
    Prop where
  ascii : ∀ c ∈ file, c.toNat < 128
  verbatim : site.calleeName <+: file.drop start
  line : site.line = (position file start).1 + 1
  col : site.col = (position file start).2

/-- A text without a newline goes on in the last line. -/
theorem afterLast_newline_append {a b : Str} (h : '\n' ∉ b) :
    afterLast ['\n'] (a ++ b) = afterLast ['\n'] a ++ b := by
  by_cases ha : '\n' ∈ a
  · obtain ⟨x, y, rfl, hy⟩ := exists_last_of_mem ha
    have hrest : '\n' ∉ y ++ b := by simp [hy, h]
    rw [afterLast, List.append_assoc, List.cons_append, rfind_append hrest, afterLast,
      rfind_append hy]
    simp
  · have hboth : '\n' ∉ a ++ b := by simp [ha, h]
    rw [afterLast, rfind_eq_none_of_notMem hboth, afterLast, rfind_eq_none_of_notMem ha]

theorem lastSegmentOffset_le_length (s : Str) : lastSegmentOffset s ≤ s.length := by
  rw [← s.append_nil]
  exact (lastSegmentOffset_le (by simp)).trans (by simp)

namespace UnresolvedCallSite

variable {site : UnresolvedCallSite} {file : Str} {start : Nat}

/-- The request is aimed at the position of the offset in the file. -/
theorem lspPosition_eq (h : site.StoredAt file start) :
    site.lspPosition = position file (start + lastSegmentOffset site.calleeName) := by
  obtain ⟨-, ⟨rest, hfile⟩, hline, hcol⟩ := h
  have hle := lastSegmentOffset_le_length site.calleeName
  obtain ⟨o, ho⟩ : ∃ o, o = lastSegmentOffset site.calleeName := ⟨_, rfl⟩
  obtain ⟨receiver, hreceiver⟩ : ∃ receiver, receiver = site.calleeName.take o := ⟨_, rfl⟩
  rw [← ho] at hle
  have hlength : receiver.length = o := by rw [hreceiver, List.length_take, min_eq_left hle]
  have htake : file.take (start + o) = file.take start ++ receiver := by
    rw [List.take_add, ← hfile, List.take_append_of_le_length hle, hreceiver]
  have hlines : site.line - 1 + receiver.count '\n' = (file.take (start + o)).count '\n' := by
    rw [hline, htake, List.count_append]
    rfl
  rw [lspPosition, position, ← ho, ← hreceiver]
  refine Prod.ext hlines ?_
  rw [htake]
  by_cases hnewline : '\n' ∈ receiver
  · -- the column counts from the last newline of the receiver
    obtain ⟨a, b, rfl, hb⟩ := exists_last_of_mem hnewline
    rw [rfind_append hb, ← List.append_assoc, afterLast, rfind_append hb]
    simp only [List.length_append, List.length_cons] at hlength
    simp
    omega
  · rw [rfind_eq_none_of_notMem hnewline, afterLast_newline_append hnewline, List.length_append,
      hlength, hcol]
    rfl

variable {e : CalleeExpr}

theorem drop_head (htext : site.calleeName = e.text) :
    site.calleeName.drop e.head.length = e.identifier ++ e.turbofish := by
  rw [htext, CalleeExpr.text, List.drop_left]

/-- Where nothing stands beside the identifier, the last separator is the one before it. -/
theorem lastSegmentOffset_of_bare (htext : site.calleeName = e.text) (htrivia : e.trivia = [])
    (hturbofish : e.turbofish = []) : lastSegmentOffset site.calleeName = e.head.length := by
  apply le_antisymm
  · rw [htext, CalleeExpr.text, hturbofish, List.append_nil]
    exact lastSegmentOffset_le fun c hc =>
      isSeparatorChar_of_isIdentifierChar (e.isIdentifier.2 c hc)
  · apply le_lastSegmentOffset
    refine ⟨e.separator.text, ?_, e.receiver, e.identifier ++ e.turbofish, ?_, ?_⟩
    · cases e.separator <;> simp [Separator.text]
    · rw [htext, CalleeExpr.text, CalleeExpr.head, htrivia, List.append_nil, List.append_assoc]
    · rw [CalleeExpr.head, htrivia, List.append_nil, List.length_append]

/-- Behind an identifier with generic arguments the name ends in theirs. -/
theorem turbofish_eq_nil (htext : site.calleeName = e.text)
    (hname : site.identifierName = e.identifier) : e.turbofish = [] := by
  rcases e.isTurbofish with hnil | ⟨args, hargs⟩
  · exact hnil
  · have hsplit : site.calleeName = e.head ++ (e.identifier ++ ("::<".toList ++ args)) ++ ['>'] := by
      rw [htext, CalleeExpr.text, hargs]
      simp
    have hle := lastSegmentOffset_le (a := e.head ++ (e.identifier ++ ("::<".toList ++ args)))
      (b := ['>']) (by decide)
    have hmem : '>' ∈ site.identifierName := by
      rw [identifierName, hsplit, List.drop_append_of_le_length hle]
      simp
    rw [hname] at hmem
    exact absurd (e.isIdentifier.2 _ hmem) (by decide)

/-- What stands before the identifier belongs to the name. -/
theorem trivia_eq_nil (htext : site.calleeName = e.text)
    (hname : site.identifierName = e.identifier) : e.trivia = [] := by
  have hturbofish := turbofish_eq_nil htext hname
  rcases e.isTrivia.last with hnil | ⟨front, c, htrivia, hc⟩
  · exact hnil
  · have hsplit : site.calleeName =
        (e.receiver ++ (e.separator.text ++ front)) ++ c :: e.identifier := by
      rw [htext, CalleeExpr.text, CalleeExpr.head, htrivia, hturbofish]
      simp
    have hle := lastSegmentOffset_le (a := e.receiver ++ (e.separator.text ++ front))
      (b := c :: e.identifier) (List.forall_mem_cons.mpr ⟨hc, fun d hd =>
        isSeparatorChar_of_isIdentifierChar (e.isIdentifier.2 d hd)⟩)
    have hlength := congrArg List.length hname
    rw [identifierName, hsplit, List.drop_append_of_le_length hle] at hlength
    simp only [List.length_append, List.length_cons] at hlength
    omega

/-- The request points at the called identifier, and its name is that identifier, if and only if
nothing stands between the separator and the identifier, and no generic arguments follow. -/
theorem points_iff (hstored : site.StoredAt file start) (htext : site.calleeName = e.text) :
    (site.lspPosition = position file (start + e.head.length) ∧
      site.identifierName = e.identifier) ↔ e.trivia = [] ∧ e.turbofish = [] := by
  constructor
  · rintro ⟨-, hname⟩
    exact ⟨trivia_eq_nil htext hname, turbofish_eq_nil htext hname⟩
  · rintro ⟨htrivia, hturbofish⟩
    have hoffset := lastSegmentOffset_of_bare htext htrivia hturbofish
    rw [lspPosition_eq hstored, identifierName, hoffset, drop_head htext, hturbofish,
      List.append_nil]
    exact ⟨rfl, rfl⟩

theorem points_response_of :
    lspPosition ⟨[], [], .function, "self\n  .response_of".toList, 1, 0⟩ =
        position "self\n  .response_of".toList 8 ∧
      identifierName ⟨[], [], .function, "self\n  .response_of".toList, 1, 0⟩ = "response_of".toList :=
  have hstored : StoredAt ⟨[], [], .function, "self\n  .response_of".toList, 1, 0⟩
      "self\n  .response_of".toList 0 := ⟨by decide, List.prefix_rfl, rfl, rfl⟩
  (points_iff hstored
    (e := ⟨"self\n  ".toList, .dot, [], "response_of".toList, [], .nil, by decide, .inl rfl⟩)
    rfl).mpr ⟨rfl, rfl⟩

/-- The arguments of `s.parse::<u8>` stand behind its last separator. -/
theorem not_points :
    ¬ ∀ (site : UnresolvedCallSite) (file : Str) (start : Nat) (e : CalleeExpr),
      site.StoredAt file start → site.calleeName = e.text →
        site.lspPosition = position file (start + e.head.length) ∧
          site.identifierName = e.identifier := by
  intro h
  have hname := (h ⟨[], [], .function, "s.parse::<u8>".toList, 1, 0⟩ "s.parse::<u8>".toList 0
    ⟨"s".toList, .dot, [], "parse".toList, "::<u8>".toList, .nil, by decide,
      .inr ⟨"u8".toList, rfl⟩⟩
    ⟨by decide, List.prefix_rfl, rfl, rfl⟩ rfl).2
  exact absurd hname (by decide)

end UnresolvedCallSite

end AutomatisedPipeline.LspResolver

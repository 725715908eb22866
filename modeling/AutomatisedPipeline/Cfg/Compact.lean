import AutomatisedPipeline.Cfg.Parse

/-!
The reader of compact predicate texts (`parser/cfg_compact.rs`) and its round trip
with the writer.

`readPredicate_compact` is the round trip of every predicate with spelled leaves
and no empty value, in front of any text that cannot extend it.
`parse_compact_canonical` combines it with what the source parser builds and with
`readPredicate_nonEmpty`: no text reads back to an empty value.
-/

namespace AutomatisedPipeline.Cfg

open Text

/-! ### The source's definitions -/

/-- The bytes `Reader::word` takes. -/
def isWordByte (c : Char) : Bool := c.isAlphanum || c == '_' || c == '-' || c == '%'

/-- The loop of `decode`. -/
def decodeBytes : Str → Option (List UInt8)
  | [] => some []
  | [c] => if c = '%' then none else some [c.toUInt8]
  | [c, d] => if c = '%' then none else (decodeBytes [d]).map (c.toUInt8 :: ·)
  | c :: d :: e :: rest =>
      if c = '%' then
        match fromStrRadix16 256 [d, e] with
        | none => none
        | some n => (decodeBytes rest).map (UInt8.ofNat n :: ·)
      else (decodeBytes (d :: e :: rest)).map (c.toUInt8 :: ·)

/-- `decode`. -/
def decode (word : Str) : Option Str :=
  match decodeBytes word with
  | none => none
  | some bytes => bytes.toByteArray.utf8Decode?.map Array.toList

theorem dropWhile_length_lt {s : Str} {w : Str} {c : Char}
    (h : decode (s.takeWhile isWordByte) = some (c :: w)) :
    (s.dropWhile isWordByte).length < s.length := by
  have hne : s.takeWhile isWordByte ≠ [] := by
    intro hnil
    rw [hnil] at h
    exact absurd h (by simp [decode, decodeBytes])
  have hlen := congrArg List.length (List.takeWhile_append_dropWhile (p := isWordByte) (l := s))
  have hpos := List.length_pos_iff.mpr hne
  rw [List.length_append] at hlen
  omega

/-- `Reader::word`. -/
def word (s : Str) : Option (Str × Left s) :=
  match h : decode (s.takeWhile isWordByte) with
  | some (c :: w) => some (c :: w, ⟨s.dropWhile isWordByte, dropWhile_length_lt h⟩)
  | _ => none

mutual
/-- `Reader::predicate`. -/
def readPredicate (s : Str) : Option (CfgPredicate × Left s) :=
  match word s with
  | none => none
  | some (name, ⟨'(' :: rest, h⟩) =>
      have : rest.length < s.length := by simp only [List.length_cons] at h; omega
      match readList rest with
      | none => none
      | some (items, ⟨rest', h'⟩) =>
          match applied name items with
          | none => none
          | some p => some (p, ⟨rest', by omega⟩)
  | some (name, ⟨'=' :: rest, h⟩) =>
      match word rest with
      | none => none
      | some (value, ⟨rest', h'⟩) =>
          some (valued name value, ⟨rest', by simp only [List.length_cons] at h; omega⟩)
  | some (name, rest) => some (.option name none, rest)
termination_by 3 * s.length

/-- `Reader::list`. -/
def readList (s : Str) : Option (List CfgPredicate × Left s) :=
  match s with
  | ')' :: rest => some ([], ⟨rest, by simp⟩)
  | s => readItems s
termination_by 3 * s.length + 2

/-- The loop of `Reader::list`. -/
def readItems (s : Str) : Option (List CfgPredicate × Left s) :=
  match readPredicate s with
  | none => none
  | some (p, ⟨',' :: rest, h⟩) =>
      have : rest.length < s.length := by simp only [List.length_cons] at h; omega
      match readItems rest with
      | none => none
      | some (items, ⟨rest', h'⟩) => some (p :: items, ⟨rest', by omega⟩)
  | some (p, ⟨')' :: rest, h⟩) =>
      some ([p], ⟨rest, by simp only [List.length_cons] at h; omega⟩)
  | some _ => none
termination_by 3 * s.length + 1
end

/-- `parse_compact`. -/
def parseCompact (text : Str) : Option CfgPredicate :=
  match readPredicate text with
  | some (p, ⟨[], _⟩) => some p
  | _ => none

example : parseCompact "all(a,not(feature=b%2Ec))".toList =
    some (.all [.option ['a'] none, .not (.feature ['b', '.', 'c'])]) := by decide +kernel

/-! ### Words -/

theorem decodeBytes_cons {c : Char} (h : c ≠ '%') (rest : Str) :
    decodeBytes (c :: rest) = (decodeBytes rest).map (c.toUInt8 :: ·) := by
  cases rest with
  | nil => simp [decodeBytes, h]
  | cons d rest =>
      cases rest with
      | nil => simp [decodeBytes, h]
      | cons e rest => rw [decodeBytes, if_neg h]

/-- What the writer and the reader of one byte agree on, checked byte by byte. -/
theorem byte_table : ∀ n < 256,
    (Char.ofUInt8 (UInt8.ofNat n)).toUInt8 = UInt8.ofNat n ∧
    fromStrRadix16 256 [hexDigit (n / 16), hexDigit (n % 16)] = some n ∧
    (encodeByte (UInt8.ofNat n)).all isWordByte = true := by
  decide +kernel

theorem decodeBytes_encodeByte (b : UInt8) (rest : Str) :
    decodeBytes (encodeByte b ++ rest) = (decodeBytes rest).map (b :: ·) := by
  obtain ⟨hchar, hhex, -⟩ := byte_table b.toNat b.toNat_lt
  rw [UInt8.ofNat_toNat] at hchar
  unfold encodeByte
  split
  · rename_i hplain
    have hne : Char.ofUInt8 b ≠ '%' := by
      intro h
      rw [h] at hplain
      exact absurd hplain (by decide)
    rw [List.singleton_append, decodeBytes_cons hne, hchar]
  · simp only [List.cons_append, List.nil_append, decodeBytes, if_true, hhex, UInt8.ofNat_toNat]

theorem decodeBytes_encode (bytes : List UInt8) :
    decodeBytes (bytes.flatMap encodeByte) = some bytes := by
  induction bytes with
  | nil => rfl
  | cons b bytes ih => rw [List.flatMap_cons, decodeBytes_encodeByte, ih, Option.map_some]

/-- `decode` reverses `encode`. -/
theorem decode_encode (text : Str) : decode (encode text) = some text := by
  have hutf8 : (text.flatMap String.utf8EncodeChar).toByteArray.utf8Decode? = some text.toArray :=
    List.utf8Decode?_utf8Encode
  simp [decode, encode, decodeBytes_encode, hutf8]

theorem encode_wordBytes (text : Str) : ∀ c ∈ encode text, isWordByte c = true := by
  intro c hc
  obtain ⟨b, -, hb⟩ := List.mem_flatMap.mp hc
  have hall := (byte_table b.toNat b.toNat_lt).2.2
  rw [UInt8.ofNat_toNat, List.all_eq_true] at hall
  exact hall c hb

theorem encode_ne_nil {text : Str} (h : text ≠ []) : encode text ≠ [] := by
  intro hnil
  have := decode_encode text
  rw [hnil] at this
  exact h (by simpa [decode, decodeBytes] using this.symm)

theorem forget_word (s : Str) : forget (word s) =
    match decode (s.takeWhile isWordByte) with
    | some (c :: w) => some (c :: w, s.dropWhile isWordByte)
    | _ => none := by
  unfold word
  split <;> simp_all

/-- The reader takes the word that the writer wrote. -/
theorem word_encode {text rest : Str} (h : text ≠ [])
    (hrest : ∀ c ∈ rest.head?, isWordByte c = false) :
    forget (word (encode text ++ rest)) = some (text, rest) := by
  have hdrop : rest.dropWhile isWordByte = rest := by
    cases rest with
    | nil => rfl
    | cons c rest => simp [hrest c (by simp)]
  have htake : rest.takeWhile isWordByte = [] := by
    cases rest with
    | nil => rfl
    | cons c rest => simp [hrest c (by simp)]
  rw [forget_word, List.takeWhile_append_of_pos (encode_wordBytes text),
    List.dropWhile_append_of_pos (encode_wordBytes text), htake, hdrop, List.append_nil,
    decode_encode]
  cases text with
  | nil => exact absurd rfl h
  | cons c w => rfl

/-! ### The readers without the lengths -/

theorem forget_readPredicate (s : Str) : forget (readPredicate s) =
    match forget (word s) with
    | none => none
    | some (name, '(' :: rest) =>
        match forget (readList rest) with
        | none => none
        | some (items, rest') => (applied name items).map fun p => (p, rest')
    | some (name, '=' :: rest) => (forget (word rest)).map fun v => (valued name v.1, v.2)
    | some (name, rest) => some (.option name none, rest) := by
  rw [readPredicate]
  split
  · rename_i h
    simp [h]
  · rename_i name rest hlt h
    simp only [h, forget_some]
    split
    · rename_i hl; simp [hl]
    · rename_i items rest' hlt' hl
      simp only [hl, forget_some]
      split <;> simp_all
  · rename_i name rest hlt h
    simp only [h, forget_some]
    split <;> simp_all
  · rename_i name rest hopen heq h
    obtain ⟨rest, hlt⟩ := rest
    have hopen' : ∀ r, rest ≠ '(' :: r := by
      rintro r rfl
      exact hopen r hlt rfl
    have heq' : ∀ r, rest ≠ '=' :: r := by
      rintro r rfl
      exact heq r hlt rfl
    simp only [h, forget_some]

theorem forget_readItems (s : Str) : forget (readItems s) =
    match forget (readPredicate s) with
    | none => none
    | some (p, ',' :: rest) => (forget (readItems rest)).map fun q => (p :: q.1, q.2)
    | some (p, ')' :: rest) => some ([p], rest)
    | some _ => none := by
  rw [readItems]
  split
  · rename_i h
    simp [h]
  · rename_i p rest hlt h
    simp only [h, forget_some]
    split <;> simp_all
  · rename_i p rest hlt h
    simp [h]
  · rename_i q hcomma hclose h
    obtain ⟨p, rest, hlt⟩ := q
    have hcomma' : ∀ r, rest ≠ ',' :: r := by
      rintro r rfl
      exact hcomma p r hlt rfl
    have hclose' : ∀ r, rest ≠ ')' :: r := by
      rintro r rfl
      exact hclose p r hlt rfl
    simp only [h, forget_some]
    split <;> simp_all

theorem forget_readList_close (rest : Str) : forget (readList (')' :: rest)) = some ([], rest) := by
  rw [readList]
  rfl

theorem forget_readList {s : Str} (h : s.head? ≠ some ')') :
    forget (readList s) = forget (readItems s) := by
  rw [readList]
  rintro rest rfl
  simp at h

/-! ### The round trip -/

/-- A leaf whose feature name or option value is not empty. -/
def NonEmptyLeaf : CfgPredicate → Prop
  | .feature name => name ≠ []
  | .option _ (some value) => value ≠ []
  | _ => True

instance (p : CfgPredicate) : Decidable (NonEmptyLeaf p) := by
  unfold NonEmptyLeaf
  split <;> infer_instance

/-- No feature name and no option value of the predicate is empty. -/
def NoEmptyValue (p : CfgPredicate) : Prop := ∀ x ∈ p.leaves, NonEmptyLeaf x

/-- The text behind a predicate cannot extend it. -/
def EndsPredicate (rest : Str) : Prop :=
  ∀ c ∈ rest.head?, isWordByte c = false ∧ c ≠ '(' ∧ c ≠ '='

theorem compact_head {p : CfgPredicate} (h : ∀ x ∈ p.leaves, Spelled x) :
    ∃ c s, p.compact = c :: s ∧ isWordByte c = true := by
  cases p with
  | feature name => exact ⟨'f', _, rfl, by decide⟩
  | all items => exact ⟨'a', _, rfl, by decide⟩
  | any items => exact ⟨'a', _, rfl, by decide⟩
  | not inner => exact ⟨'n', _, rfl, by decide⟩
  | option key value =>
      have hkey := (h (.option key value) (by simp [CfgPredicate.leaves])).1
      obtain ⟨c, s, hc⟩ := List.exists_cons_of_ne_nil (encode_ne_nil hkey)
      have hword := encode_wordBytes key c (by simp [hc])
      cases value with
      | none => exact ⟨c, s, by rw [CfgPredicate.compact, hc], hword⟩
      | some value => exact ⟨c, s ++ '=' :: encode value, by simp [CfgPredicate.compact, hc], hword⟩

/-- A keyword of the compact text is read as a word. -/
theorem word_keyword {name rest : Str} (hname : encode name = name) (hne : name ≠ [])
    (hrest : ∀ c ∈ rest.head?, isWordByte c = false) :
    forget (word (name ++ rest)) = some (name, rest) := by
  have h := word_encode hne hrest
  rwa [hname] at h

/-- The reader takes the items of a list that the writer joined, given that it
takes each of them. -/
theorem readItems_compact {items : List CfgPredicate} (hne : items ≠ []) (rest : Str)
    (h : ∀ p ∈ items, ∀ rest, EndsPredicate rest →
      forget (readPredicate (p.compact ++ rest)) = some (p, rest)) :
    forget (readItems (join [','] (CfgPredicate.compactParts items) ++ ')' :: rest)) =
      some (items, rest) := by
  have hclose : EndsPredicate (')' :: rest) := by
    intro c hc
    obtain rfl : ')' = c := by simpa using hc
    decide
  induction items with
  | nil => exact absurd rfl hne
  | cons p items ih =>
      have hp := h p (by simp)
      cases items with
      | nil =>
          simp only [CfgPredicate.compactParts, join]
          rw [forget_readItems, hp _ hclose]
          rfl
      | cons q items =>
          have hitems := ih (by simp) fun r hr => h r (by simp [hr])
          have hcomma : ∀ s, EndsPredicate (',' :: s) := by
            intro s c hc
            obtain rfl : ',' = c := by simpa using hc
            decide
          have hjoin : join [','] (CfgPredicate.compactParts (p :: q :: items)) =
              p.compact ++ ',' :: join [','] (CfgPredicate.compactParts (q :: items)) := by
            simp [CfgPredicate.compactParts, join]
          rw [hjoin, List.append_assoc, List.cons_append, forget_readItems, hp _ (hcomma _)]
          simp only [hitems, Option.map_some]

/-- The reader takes a list that the writer wrote behind its name. -/
theorem readPredicate_applied {name rest : Str} {items : List CfgPredicate} {p : CfgPredicate}
    (hname : encode name = name) (hne : name ≠ []) (happlied : applied name items = some p)
    (hspelled : ∀ q ∈ items, ∀ x ∈ q.leaves, Spelled x)
    (h : ∀ q ∈ items, ∀ rest, EndsPredicate rest →
      forget (readPredicate (q.compact ++ rest)) = some (q, rest)) :
    forget (readPredicate (name ++ '(' :: (join [','] (CfgPredicate.compactParts items) ++ [')']) ++
      rest)) = some (p, rest) := by
  have hopen : ∀ s : Str, ∀ c ∈ ('(' :: s).head?, isWordByte c = false := by
    intro s c hc
    obtain rfl : '(' = c := by simpa using hc
    decide
  have hlist : forget (readList (join [','] (CfgPredicate.compactParts items) ++ ')' :: rest)) =
      some (items, rest) := by
    cases items with
    | nil => exact forget_readList_close rest
    | cons q items =>
        obtain ⟨c, s, hc, hword⟩ := compact_head (hspelled q (by simp))
        have hhead : (join [','] (CfgPredicate.compactParts (q :: items)) ++ ')' :: rest).head? ≠
            some ')' := by
          have hjoin : ∃ t, join [','] (CfgPredicate.compactParts (q :: items)) = c :: t := by
            cases items with
            | nil => exact ⟨s, by simp [CfgPredicate.compactParts, join, hc]⟩
            | cons r items => exact ⟨_, by simp [CfgPredicate.compactParts, join, hc]; rfl⟩
          obtain ⟨t, ht⟩ := hjoin
          rw [ht]
          rintro hclose
          obtain rfl : c = ')' := by simpa using hclose
          exact absurd hword (by decide)
        rw [forget_readList hhead, readItems_compact (by simp) rest h]
  rw [List.append_assoc, List.cons_append, List.append_assoc, List.singleton_append,
    forget_readPredicate, word_keyword hname hne (hopen _)]
  simp only [hlist, happlied, Option.map_some]

/-- Every predicate with spelled leaves and no empty value reads back. -/
theorem readPredicate_compact (p : CfgPredicate) (hspelled : ∀ x ∈ p.leaves, Spelled x)
    (hne : NoEmptyValue p) (rest : Str) (hrest : EndsPredicate rest) :
    forget (readPredicate (p.compact ++ rest)) = some (p, rest) := by
  have heq : ∀ s : Str, ∀ c ∈ ('=' :: s).head?, isWordByte c = false := by
    intro s c hc
    obtain rfl : '=' = c := by simpa using hc
    decide
  have hword : ∀ c ∈ rest.head?, isWordByte c = false := fun c hc => (hrest c hc).1
  induction p using CfgPredicate.induct generalizing rest with
  | feature name =>
      have hname : name ≠ [] := hne (.feature name) (by simp [CfgPredicate.leaves])
      rw [CfgPredicate.compact, List.append_assoc, List.cons_append, forget_readPredicate,
        @word_keyword featureKey _ (by decide +kernel) (by decide) (heq _)]
      simp [word_encode hname hword, valued]
  | option key value =>
      obtain ⟨hkey, hfeature⟩ := hspelled (.option key value) (by simp [CfgPredicate.leaves])
      cases value with
      | none =>
          rw [CfgPredicate.compact, forget_readPredicate, word_encode hkey hword]
          cases rest with
          | nil => rfl
          | cons c rest =>
              obtain ⟨-, hc, hc'⟩ := hrest c (by simp)
              split <;> simp_all
      | some value =>
          have hvalue : value ≠ [] := hne (.option key (some value)) (by simp [CfgPredicate.leaves])
          have hnot : key ≠ featureKey := fun h => by simpa using hfeature h
          rw [CfgPredicate.compact, List.append_assoc, List.cons_append, forget_readPredicate,
            word_encode hkey (heq _)]
          simp [word_encode hvalue hword, valued, hnot]
  | all items ih =>
      have hsub : ∀ q ∈ items, ∀ x ∈ q.leaves, x ∈ (CfgPredicate.all items).leaves :=
        fun q hq x hx => CfgPredicate.mem_leavesList.mpr ⟨q, hq, hx⟩
      rw [CfgPredicate.compact]
      refine readPredicate_applied (by decide +kernel) (by decide) rfl ?_ ?_
      · exact fun q hq x hx => hspelled x (hsub q hq x hx)
      · intro q hq r hr
        exact ih q hq (fun x hx => hspelled x (hsub q hq x hx))
          (fun x hx => hne x (hsub q hq x hx)) r hr fun c hc => (hr c hc).1
  | any items ih =>
      have hsub : ∀ q ∈ items, ∀ x ∈ q.leaves, x ∈ (CfgPredicate.any items).leaves :=
        fun q hq x hx => CfgPredicate.mem_leavesList.mpr ⟨q, hq, hx⟩
      rw [CfgPredicate.compact]
      refine readPredicate_applied (by decide +kernel) (by decide) rfl ?_ ?_
      · exact fun q hq x hx => hspelled x (hsub q hq x hx)
      · intro q hq r hr
        exact ih q hq (fun x hx => hspelled x (hsub q hq x hx))
          (fun x hx => hne x (hsub q hq x hx)) r hr fun c hc => (hr c hc).1
  | not inner ih =>
      rw [CfgPredicate.compact]
      have hnot := @readPredicate_applied notName rest [inner] (.not inner) (by decide +kernel)
        (by decide) rfl (by simpa [CfgPredicate.leaves] using hspelled) ?_
      · simpa [CfgPredicate.compactParts, join] using hnot
      · simp only [List.mem_singleton, forall_eq]
        intro r hr
        exact ih hspelled hne r hr fun c hc => (hr c hc).1

/-! ### No text reads back to an empty value -/

theorem word_ne_nil {s : Str} {w : Str} {rest : Left s} (h : word s = some (w, rest)) : w ≠ [] := by
  have hf := congrArg forget h
  rw [forget_word, forget_some] at hf
  split at hf
  · obtain ⟨rfl, -⟩ := Prod.mk.inj (Option.some.inj hf)
    simp
  · cases hf

theorem nonEmpty_valued {name value : Str} (h : value ≠ []) : NoEmptyValue (valued name value) := by
  unfold valued NoEmptyValue
  split <;> simpa [CfgPredicate.leaves, NonEmptyLeaf] using h

mutual
theorem readPredicate_nonEmpty (s : Str) {p : CfgPredicate} {rest : Left s}
    (h : readPredicate s = some (p, rest)) : NoEmptyValue p := by
  rw [readPredicate] at h
  split at h
  · cases h
  · rename_i name tail hlt hword
    have hshort : tail.length < s.length := by
      simp only [List.length_cons] at hlt
      omega
    split at h
    · cases h
    · rename_i items rest' hlt' hlist
      split at h
      · cases h
      · rename_i q hq
        obtain ⟨rfl, -⟩ := Prod.mk.inj (Option.some.inj h)
        unfold NoEmptyValue
        rw [leaves_applied hq]
        exact readList_nonEmpty tail hlist
  · rename_i name tail hlt hword
    split at h
    · cases h
    · rename_i value rest' hlt' hvalue
      obtain ⟨rfl, -⟩ := Prod.mk.inj (Option.some.inj h)
      exact nonEmpty_valued (word_ne_nil hvalue)
  · obtain ⟨rfl, -⟩ := Prod.mk.inj (Option.some.inj h)
    simp [NoEmptyValue, CfgPredicate.leaves, NonEmptyLeaf]
termination_by 3 * s.length

theorem readList_nonEmpty (s : Str) {items : List CfgPredicate} {rest : Left s}
    (h : readList s = some (items, rest)) :
    ∀ x ∈ CfgPredicate.leavesList items, NonEmptyLeaf x := by
  rw [readList.eq_def] at h
  split at h
  · obtain ⟨rfl, -⟩ := Prod.mk.inj (Option.some.inj h)
    simp [CfgPredicate.leavesList]
  · exact readItems_nonEmpty s h
termination_by 3 * s.length + 2

theorem readItems_nonEmpty (s : Str) {items : List CfgPredicate} {rest : Left s}
    (h : readItems s = some (items, rest)) :
    ∀ x ∈ CfgPredicate.leavesList items, NonEmptyLeaf x := by
  rw [readItems] at h
  split at h
  · cases h
  · rename_i p tail hlt hp
    have hshort : tail.length < s.length := by
      simp only [List.length_cons] at hlt
      omega
    have ihp := readPredicate_nonEmpty s hp
    split at h
    · cases h
    · rename_i items' rest' hlt' hitems
      obtain ⟨rfl, -⟩ := Prod.mk.inj (Option.some.inj h)
      simp only [CfgPredicate.leavesList, List.mem_append]
      rintro x (hx | hx)
      · exact ihp x hx
      · exact readItems_nonEmpty tail hitems x hx
  · rename_i p tail hlt hp
    obtain ⟨rfl, -⟩ := Prod.mk.inj (Option.some.inj h)
    have ihp : ∀ x ∈ p.leaves, NonEmptyLeaf x := readPredicate_nonEmpty s hp
    simpa [CfgPredicate.leavesList] using ihp
  · cases h
termination_by 3 * s.length + 1
end

theorem parseCompact_nonEmpty {text : Str} {p : CfgPredicate} (h : parseCompact text = some p) :
    NoEmptyValue p := by
  unfold parseCompact at h
  split at h
  · rename_i q hlt hq
    obtain rfl := Option.some.inj h
    exact readPredicate_nonEmpty text hq
  · cases h

theorem parseCompact_compact {p : CfgPredicate} (hspelled : ∀ x ∈ p.leaves, Spelled x)
    (hne : NoEmptyValue p) : parseCompact p.compact = some p := by
  have h := readPredicate_compact p hspelled hne [] (by simp [EndsPredicate])
  rw [List.append_nil] at h
  cases hr : readPredicate p.compact with
  | none => simp [hr] at h
  | some r =>
      obtain ⟨q, rest, hlt⟩ := r
      rw [hr, forget_some, Option.some.injEq, Prod.mk.injEq] at h
      obtain ⟨rfl, rfl⟩ := h
      simp only [parseCompact, hr]

theorem noEmptyValue_canonical (p : CfgPredicate) : NoEmptyValue p.canonical ↔ NoEmptyValue p := by
  simp only [NoEmptyValue, CfgPredicate.mem_leaves_canonical]

/-- The canonical form of a predicate in the source reads back from its compact
text exactly when none of its feature names and option values is empty. -/
theorem parse_compact_canonical (isAlphanumeric : Char → Bool) (text : Str) (p : CfgPredicate)
    (h : parseCfgArguments isAlphanumeric text = some p) :
    parseCompact p.canonical.compact = some p.canonical ↔ NoEmptyValue p := by
  constructor
  · intro hback
    exact (noEmptyValue_canonical p).mp (parseCompact_nonEmpty hback)
  · intro hne
    refine parseCompact_compact ?_ ((noEmptyValue_canonical p).mpr hne)
    intro x hx
    exact parseCfgArguments_spelled h x ((CfgPredicate.mem_leaves_canonical p).mp hx)

theorem parse_compact_canonical_not_fast :
    parseCompact (CfgPredicate.not (.feature ['f'])).canonical.compact =
      some (CfgPredicate.not (.feature ['f'])).canonical :=
  (parse_compact_canonical Char.isAlphanum "(not(feature = \"f\"))".toList (.not (.feature ['f']))
    (by decide +kernel)).mpr (by
      simp [NoEmptyValue, CfgPredicate.leaves, NonEmptyLeaf])

/-- An empty feature name is lost in the graph. -/
theorem empty_feature_name_does_not_read_back : ¬∀ isAlphanumeric text p,
    parseCfgArguments isAlphanumeric text = some p →
    parseCompact p.canonical.compact = some p.canonical := by
  intro h
  have hback := h Char.isAlphanum "(feature = \"\")".toList (.feature []) (by decide +kernel)
  exact absurd hback (by decide +kernel)

end AutomatisedPipeline.Cfg

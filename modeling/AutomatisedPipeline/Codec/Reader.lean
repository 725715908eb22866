import Mathlib.Data.UInt
import Mathlib.Tactic

/-!
Encodings that can be read back whatever follows them. An encoding is prefix
free when the bytes it writes fix both the value and where the value ends;
fields, length prefixes and lists keep the property, so a record written field by
field has one reading.

A reader is the inverse of a writer: it succeeds exactly on the streams that start with the
encoding of a valid value, and leaves what follows.
-/

namespace AutomatisedPipeline.Codec

abbrev Bytes := List UInt8

/-- What follows an encoding does not blur it. -/
def PrefixFree {α : Type} (enc : α → Bytes) : Prop :=
  ∀ a b x y, enc a ++ x = enc b ++ y → a = b ∧ x = y

section Combinators

variable {α β : Type} {enc : α → Bytes} {enc' : β → Bytes}

/-- A value that another encoding determines. -/
theorem PrefixFree.comp (h : PrefixFree enc) {f : β → α} (hf : Function.Injective f) :
    PrefixFree (enc ∘ f) := by
  intro a b x y heq
  obtain ⟨hab, hxy⟩ := h (f a) (f b) x y heq
  exact ⟨hf hab, hxy⟩

/-- One field behind another. -/
theorem PrefixFree.pair (h : PrefixFree enc) (h' : PrefixFree enc') :
    PrefixFree fun p : α × β => enc p.1 ++ enc' p.2 := by
  rintro ⟨a, b⟩ ⟨a', b'⟩ x y heq
  rw [List.append_assoc, List.append_assoc] at heq
  obtain ⟨rfl, hrest⟩ := h a a' _ _ heq
  obtain ⟨rfl, hxy⟩ := h' b b' x y hrest
  exact ⟨rfl, hxy⟩

/-- Lists of the same length are read element by element. -/
theorem PrefixFree.flatMap (h : PrefixFree enc) {l l' : List α} {x y : Bytes}
    (hlen : l.length = l'.length) (heq : l.flatMap enc ++ x = l'.flatMap enc ++ y) :
    l = l' ∧ x = y := by
  induction l generalizing l' with
  | nil =>
      obtain rfl := List.eq_nil_of_length_eq_zero hlen.symm
      exact ⟨rfl, heq⟩
  | cons a l ih =>
      cases l' with
      | nil => cases hlen
      | cons b l' =>
          rw [List.flatMap_cons, List.flatMap_cons, List.append_assoc, List.append_assoc] at heq
          obtain ⟨rfl, hrest⟩ := h a b _ _ heq
          obtain ⟨rfl, hxy⟩ := ih (Nat.succ.inj hlen) hrest
          exact ⟨rfl, hxy⟩

end Combinators

/-! ### Fixed width numbers -/

/-- `to_le_bytes`, of the given width. -/
def leBytes : (width n : Nat) → Bytes
  | 0, _ => []
  | width + 1, n => UInt8.ofNat (n % 256) :: leBytes width (n / 256)

theorem length_leBytes (width n : Nat) : (leBytes width n).length = width := by
  induction width generalizing n with
  | zero => rfl
  | succ width ih => rw [leBytes, List.length_cons, ih]

/-- A number in range is read back. -/
theorem leBytes_inj {width n m : Nat} (hn : n < 256 ^ width) (hm : m < 256 ^ width)
    (h : leBytes width n = leBytes width m) : n = m := by
  induction width generalizing n m with
  | zero =>
      rw [Nat.pow_zero, Nat.lt_one_iff] at hn hm
      rw [hn, hm]
  | succ width ih =>
      rw [leBytes, leBytes, List.cons.injEq] at h
      obtain ⟨hdigit, hrest⟩ := h
      have hdiv : ∀ {k}, k < 256 ^ (width + 1) → k / 256 < 256 ^ width := by
        intro k hk
        rw [Nat.pow_succ, Nat.mul_comm] at hk
        exact Nat.div_lt_of_lt_mul hk
      have hquot := ih (hdiv hn) (hdiv hm) hrest
      have hmod : n % 256 = m % 256 := by
        have hval := congrArg UInt8.toNat hdigit
        rwa [UInt8.toNat_ofNat', UInt8.toNat_ofNat', Nat.mod_mod, Nat.mod_mod] at hval
      rw [← Nat.div_add_mod n 256, ← Nat.div_add_mod m 256, hquot, hmod]

/-- `u64::to_le_bytes`. -/
def u64Le (n : Nat) : Bytes := leBytes 8 n

theorem u64Le_inj {n m : Nat} (hn : n < 2 ^ 64) (hm : m < 2 ^ 64) (h : u64Le n = u64Le m) :
    n = m :=
  @leBytes_inj 8 n m hn hm h

/-! ### Length prefixes -/

/-- Bytes behind their number. -/
def lengthPrefixed (s : Bytes) : Bytes := u64Le s.length ++ s

theorem lengthPrefixed_inj {s t x y : Bytes} (hs : s.length < 2 ^ 64) (ht : t.length < 2 ^ 64)
    (h : lengthPrefixed s ++ x = lengthPrefixed t ++ y) : s = t ∧ x = y := by
  rw [lengthPrefixed, lengthPrefixed, List.append_assoc, List.append_assoc] at h
  obtain ⟨hlength, hrest⟩ :=
    List.append_inj h ((length_leBytes 8 s.length).trans (length_leBytes 8 t.length).symm)
  exact List.append_inj hrest (u64Le_inj hs ht hlength)

/-- Records behind their number. -/
def counted {α : Type} (enc : α → Bytes) (l : List α) : Bytes := u64Le l.length ++ l.flatMap enc

theorem counted_inj {α : Type} {enc : α → Bytes} (henc : PrefixFree enc) {l l' : List α}
    {x y : Bytes} (hl : l.length < 2 ^ 64) (hl' : l'.length < 2 ^ 64)
    (h : counted enc l ++ x = counted enc l' ++ y) : l = l' ∧ x = y := by
  rw [counted, counted, List.append_assoc, List.append_assoc] at h
  obtain ⟨hlength, hrest⟩ :=
    List.append_inj h ((length_leBytes 8 l.length).trans (length_leBytes 8 l'.length).symm)
  exact henc.flatMap (u64Le_inj hl hl' hlength) hrest

/-! ### Readers -/

section Readers

variable {ε α β : Type}

/-- A reader takes bytes off a stream or fails. -/
abbrev Reader (ε : Type) : Type → Type := StateT Bytes (Except ε)

/-- `read` reads what `enc` writes of the valid values, and nothing else. -/
def Reads (read : Reader ε α) (valid : α → Prop) (enc : α → Bytes) : Prop :=
  ∀ bytes a rest, read bytes = .ok (a, rest) ↔ valid a ∧ bytes = enc a ++ rest

theorem reader_bind_ok {x : Reader ε α} {f : α → Reader ε β} {bytes rest : Bytes} {b : β} :
    (x >>= f) bytes = .ok (b, rest) ↔
      ∃ a mid, x bytes = .ok (a, mid) ∧ f a mid = .ok (b, rest) := by
  change (x bytes >>= fun p => f p.1 p.2) = _ ↔ _
  cases h : x bytes with
  | error e => simp [bind, Except.bind]
  | ok p =>
      obtain ⟨a, mid⟩ := p
      simp [bind, Except.bind]

theorem reader_pure_ok {a b : α} {bytes rest : Bytes} :
    (pure a : Reader ε α) bytes = .ok (b, rest) ↔ a = b ∧ bytes = rest := by
  change Except.ok (a, bytes) = Except.ok (b, rest) ↔ _
  simp

theorem reader_throw_ok {e : ε} {a : α} {bytes rest : Bytes} :
    (throw e : Reader ε α) bytes = .ok (a, rest) ↔ False := by
  change Except.error e = Except.ok (a, rest) ↔ _
  simp

/-! ### Bytes -/

/-- `read_exact`. -/
def readExact (n : Nat) (e : ε) : Reader ε Bytes := fun bytes =>
  if bytes.length < n then .error e else .ok (bytes.take n, bytes.drop n)

theorem readExact_ok {n : Nat} {e : ε} {bytes a rest : Bytes} :
    readExact n e bytes = .ok (a, rest) ↔ a.length = n ∧ bytes = a ++ rest := by
  rw [readExact]
  constructor
  · intro h
    split at h
    · cases h
    · rename_i hlen
      cases h
      exact ⟨by rw [List.length_take]; omega, (List.take_append_drop n bytes).symm⟩
  · rintro ⟨rfl, rfl⟩
    rw [if_neg (by rw [List.length_append]; omega), List.take_left, List.drop_left]

/-- `from_le_bytes`. -/
def fromLe : Bytes → Nat
  | [] => 0
  | byte :: bytes => byte.toNat + 256 * fromLe bytes

theorem fromLe_leBytes {width n : Nat} (h : n < 256 ^ width) : fromLe (leBytes width n) = n := by
  induction width generalizing n with
  | zero =>
      rw [Nat.pow_zero, Nat.lt_one_iff] at h
      rw [h]
      rfl
  | succ width ih =>
      have hquot : n / 256 < 256 ^ width := by
        rw [Nat.pow_succ, Nat.mul_comm] at h
        exact Nat.div_lt_of_lt_mul h
      rw [leBytes, fromLe, ih hquot, UInt8.toNat_ofNat']
      omega

theorem fromLe_lt (bytes : Bytes) : fromLe bytes < 256 ^ bytes.length := by
  induction bytes with
  | nil => exact Nat.one_pos
  | cons byte bytes ih =>
      have hbyte := byte.toNat_lt
      rw [fromLe, List.length_cons, Nat.pow_succ]
      omega

theorem leBytes_fromLe (bytes : Bytes) : leBytes bytes.length (fromLe bytes) = bytes := by
  induction bytes with
  | nil => rfl
  | cons byte bytes ih =>
      have hbyte := byte.toNat_lt
      have hmod : (byte.toNat + 256 * fromLe bytes) % 256 = byte.toNat := by omega
      have hdiv : (byte.toNat + 256 * fromLe bytes) / 256 = fromLe bytes := by omega
      rw [List.length_cons, leBytes, fromLe, hmod, hdiv, ih, UInt8.ofNat_toNat]

/-! ### Repetition -/

/-- A loop that reads `n` values. -/
def readMany (read : Reader ε α) : Nat → Reader ε (List α)
  | 0 => pure []
  | n + 1 => do
      let a ← read
      let l ← readMany read n
      pure (a :: l)

theorem Reads.many {read : Reader ε α} {valid : α → Prop} {enc : α → Bytes}
    (h : Reads read valid enc) (n : Nat) :
    Reads (readMany read n) (fun l => l.length = n ∧ ∀ a ∈ l, valid a) (List.flatMap enc) := by
  induction n with
  | zero =>
      intro bytes l rest
      rw [readMany, reader_pure_ok]
      constructor
      · rintro ⟨rfl, rfl⟩
        simp
      · rintro ⟨⟨hlen, -⟩, rfl⟩
        rw [List.length_eq_zero_iff] at hlen
        subst hlen
        exact ⟨rfl, rfl⟩
  | succ n ih =>
      intro bytes l rest
      rw [readMany]
      simp only [reader_bind_ok, reader_pure_ok, h _ _ _, ih _ _ _]
      constructor
      · rintro ⟨a, mid, ⟨ha, rfl⟩, l', mid', ⟨⟨hlen, hl⟩, rfl⟩, rfl, rfl⟩
        refine ⟨⟨by rw [List.length_cons, hlen], ?_⟩, by simp⟩
        intro b hb
        rcases List.mem_cons.mp hb with rfl | hmem
        · exact ha
        · exact hl b hmem
      · rintro ⟨⟨hlen, hl⟩, rfl⟩
        cases l with
        | nil => cases hlen
        | cons a l =>
            refine ⟨a, l.flatMap enc ++ rest, ⟨hl a List.mem_cons_self, by simp⟩, l, rest,
              ⟨⟨Nat.succ.inj hlen, fun b hb => hl b (List.mem_cons_of_mem _ hb)⟩, rfl⟩, rfl, rfl⟩

end Readers

end AutomatisedPipeline.Codec

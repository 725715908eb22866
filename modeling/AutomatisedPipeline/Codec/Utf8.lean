import AutomatisedPipeline.Text.Basic
import AutomatisedPipeline.Codec.Reader

/-!
UTF-8. Decoding accepts exactly the encodings of texts, and an ASCII byte stands in an
encoding only where its character stands in the text. Lossy decoding accepts all bytes, and
takes the encoding of a text to the text.
-/

namespace AutomatisedPipeline.Codec

open Text

/-- The UTF-8 bytes of a text. -/
def utf8 (s : Str) : Bytes := s.flatMap String.utf8EncodeChar

/-- `String::from_utf8`. -/
def fromUtf8 (bytes : Bytes) : Option Str := bytes.toByteArray.utf8Decode?.map Array.toList

@[simp] theorem utf8_nil : utf8 [] = [] := rfl

@[simp] theorem utf8_append (s t : Str) : utf8 (s ++ t) = utf8 s ++ utf8 t :=
  List.flatMap_append

theorem fromUtf8_utf8 (s : Str) : fromUtf8 (utf8 s) = some s := by
  have h : (utf8 s).toByteArray.utf8Decode? = some s.toArray := List.utf8Decode?_utf8Encode
  rw [fromUtf8, h]
  rfl

theorem fromUtf8_eq_some {bytes : Bytes} {s : Str} : fromUtf8 bytes = some s ↔ bytes = utf8 s := by
  refine ⟨fun h => ?_, fun h => h ▸ fromUtf8_utf8 s⟩
  obtain ⟨chars, hchars, rfl⟩ := Option.map_eq_some_iff.mp h
  have hsome : bytes.toByteArray.utf8Decode?.isSome = true := by
    rw [hchars]
    rfl
  have hget := @ByteArray.utf8Encode_get_utf8Decode? _ hsome
  simp only [hchars, Option.get_some] at hget
  have hbytes := congrArg (fun b => b.data.toList) hget
  simpa [List.utf8Encode, utf8] using hbytes.symm

theorem utf8_injective : Function.Injective utf8 := by
  intro s t h
  have hs := fromUtf8_utf8 s
  rw [h, fromUtf8_utf8] at hs
  exact (Option.some.inj hs).symm

/-- An ASCII byte of a character is the character. -/
theorem eq_of_mem_utf8EncodeChar {c : Char} {b : UInt8} (hb : b.toNat < 128)
    (h : b ∈ String.utf8EncodeChar c) : c.toNat = b.toNat := by
  change c.val.toNat = b.toNat
  simp only [String.utf8EncodeChar] at h
  split at h
  · rw [List.mem_singleton] at h
    rw [h, UInt8.toNat_ofNat']
    omega
  · exfalso
    split at h
    all_goals
      first
      | split at h
      | skip
    all_goals
      simp only [List.mem_cons, List.not_mem_nil, or_false, ← UInt8.toNat_inj,
        UInt8.toNat_ofNat'] at h
      omega

theorem not_mem_utf8 {s : Str} {c : Char} (hc : c.toNat < 128) (h : c ∉ s) :
    UInt8.ofNat c.toNat ∉ utf8 s := by
  intro hmem
  obtain ⟨d, hd, hbyte⟩ := List.mem_flatMap.mp hmem
  have hval : (UInt8.ofNat c.toNat).toNat = c.toNat := by
    rw [UInt8.toNat_ofNat']
    omega
  have heq := eq_of_mem_utf8EncodeChar (by rw [hval]; exact hc) hbyte
  rw [hval] at heq
  exact h (Char.toNat_inj.mp heq ▸ hd)

/-! ### Lossy decoding -/

/-- The second bytes that a leading byte of three or four can have. -/
def secondByteRange (lead : UInt8) : UInt8 × UInt8 :=
  if lead = 0xE0 then (0xA0, 0xBF)
  else if lead = 0xED then (0x80, 0x9F)
  else if lead = 0xF0 then (0x90, 0xBF)
  else if lead = 0xF4 then (0x80, 0x8F)
  else (0x80, 0xBF)

/-- How many bytes one replacement character stands for, where no character begins: the
longest beginning of a character, or one byte. -/
def invalidLength (bytes : Bytes) : Nat :=
  match bytes with
  | lead :: second :: rest =>
      if 0xE0 ≤ lead ∧ lead ≤ 0xF4 ∧ (secondByteRange lead).1 ≤ second ∧
          second ≤ (secondByteRange lead).2 then
        match rest with
        | third :: _ => if 0xF0 ≤ lead ∧ 0x80 ≤ third ∧ third ≤ 0xBF then 3 else 2
        | [] => 2
      else 1
  | _ => 1

theorem invalidLength_pos (bytes : Bytes) : 0 < invalidLength bytes := by
  unfold invalidLength
  split
  · split
    · split
      · split
        · exact Nat.succ_pos 2
        · exact Nat.succ_pos 1
      · exact Nat.succ_pos 1
    · exact Nat.one_pos
  · exact Nat.one_pos

/-- `String::from_utf8_lossy`. -/
def fromUtf8Lossy (bytes : Bytes) : Str :=
  match bytes with
  | [] => []
  | b :: rest =>
      match (b :: rest).toByteArray.utf8DecodeChar? 0 with
      | some c => c :: fromUtf8Lossy ((b :: rest).drop c.utf8Size)
      | none => Char.ofNat 0xFFFD :: fromUtf8Lossy ((b :: rest).drop (invalidLength (b :: rest)))
termination_by bytes.length
decreasing_by
  · have hpos := c.utf8Size_pos
    rw [List.length_drop, List.length_cons]
    omega
  · have hpos := invalidLength_pos (b :: rest)
    rw [List.length_drop, List.length_cons]
    omega

theorem fromUtf8Lossy_utf8 (s : Str) : fromUtf8Lossy (utf8 s) = s := by
  induction s with
  | nil => rw [utf8_nil, fromUtf8Lossy]
  | cons c s ih =>
      have hsplit : utf8 (c :: s) = String.utf8EncodeChar c ++ utf8 s := rfl
      have hchar : (utf8 (c :: s)).toByteArray.utf8DecodeChar? 0 = some c := by
        rw [hsplit, List.toByteArray_append]
        exact ByteArray.utf8DecodeChar?_utf8EncodeChar_append
      have hdrop : (utf8 (c :: s)).drop c.utf8Size = utf8 s := by
        rw [hsplit, List.drop_left' (String.length_utf8EncodeChar c)]
      cases hbytes : utf8 (c :: s) with
      | nil =>
          have hlength := congrArg List.length hbytes
          rw [hsplit, List.length_append, String.length_utf8EncodeChar] at hlength
          exact absurd hlength (by have hpos := c.utf8Size_pos; simp; omega)
      | cons b rest =>
          rw [hbytes] at hchar hdrop
          rw [fromUtf8Lossy, hchar]
          simp only
          rw [hdrop, ih]

end AutomatisedPipeline.Codec

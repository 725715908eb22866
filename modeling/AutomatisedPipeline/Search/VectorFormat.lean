import AutomatisedPipeline.Codec.Utf8
import AutomatisedPipeline.Text.Lines

/-!
The file of the vector index (`search/vector_format.rs`).

A weight is the bit pattern of its `f32`. The writer casts every length to `u32`; what it
writes is read back where they fit. The reader takes a file exactly when it starts with what
the writer writes of some index that fits, and looks at nothing behind it.
-/

namespace AutomatisedPipeline.Search

open Text Codec

/-! ### Data -/

/-- `VectorDoc`, its terms as their ids with the bits of their weights. -/
structure VectorDoc where
  qualifiedName : Str
  name : Str
  label : Str
  filePath : Str
  terms : List (UInt32 × UInt32)
deriving DecidableEq

/-- `VectorIndex`. -/
structure VectorIndex where
  docs : List VectorDoc
  vocabulary : List Str
deriving DecidableEq

/-- `VECTOR_MAGIC`. -/
def vectorMagic : UInt32 := 0x56454354

/-- `VECTOR_VERSION`. -/
def vectorVersion : UInt32 := 1

/-! ### Writer -/

/-- `write_u32`, and `write_f32` of the bits. -/
def writeU32 (v : UInt32) : Bytes := leBytes 4 v.toNat

def writeString (s : Str) : Bytes := writeU32 (UInt32.ofNat (utf8 s).length) ++ utf8 s

def writeTerm (term : UInt32 × UInt32) : Bytes := writeU32 term.1 ++ writeU32 term.2

def writeDoc (doc : VectorDoc) : Bytes :=
  writeString doc.qualifiedName ++ (writeString doc.name ++ (writeString doc.label ++
    (writeString doc.filePath ++ (writeU32 (UInt32.ofNat doc.terms.length) ++
      doc.terms.flatMap writeTerm))))

/-- `save_index`: the bytes of the file. -/
def saveIndex (index : VectorIndex) : Bytes :=
  writeU32 vectorMagic ++ (writeU32 vectorVersion ++
    (writeU32 (UInt32.ofNat index.vocabulary.length) ++
      (writeU32 (UInt32.ofNat index.docs.length) ++
        (index.vocabulary.flatMap writeString ++ index.docs.flatMap writeDoc))))

/-! ### Reader -/

/-- The error of a read that meets the end of the file. -/
def unexpectedEof (what : String) : Str :=
  what.toList ++ ": failed to fill whole buffer".toList

def readU32 : Reader Str UInt32 := do
  let b ← readExact 4 (unexpectedEof "read u32")
  pure (UInt32.ofNat (fromLe b))

def readF32 : Reader Str UInt32 := do
  let b ← readExact 4 (unexpectedEof "read f32")
  pure (UInt32.ofNat (fromLe b))

section Load

/- What `FromUtf8Error` says of bytes that are not UTF-8. -/
variable (utf8Error : Bytes → Str)

def readString : Reader Str Str := do
  let len ← readU32
  let buf ← readExact len.toNat (unexpectedEof "read string")
  match fromUtf8 buf with
  | some s => pure s
  | none => throw ("utf8 string: ".toList ++ utf8Error buf)

def readTerm : Reader Str (UInt32 × UInt32) := do
  let id ← readU32
  let w ← readF32
  pure (id, w)

def readDoc : Reader Str VectorDoc := do
  let qualifiedName ← readString utf8Error
  let name ← readString utf8Error
  let label ← readString utf8Error
  let filePath ← readString utf8Error
  let nnz ← readU32
  let terms ← readMany readTerm nnz.toNat
  pure ⟨qualifiedName, name, label, filePath, terms⟩

/-- `{:08x}`. -/
def hex08 (n : Nat) : Str := List.leftpad 8 '0' (Nat.toDigits 16 n)

def badMagic (magic : UInt32) : Str := "bad vector index magic: 0x".toList ++ hex08 magic.toNat

def unsupportedVersion (version : UInt32) : Str :=
  "unsupported vector index version: ".toList ++ digits version.toNat

def readIndex : Reader Str VectorIndex := do
  let magic ← readU32
  if magic ≠ vectorMagic then throw (badMagic magic)
  else
    let version ← readU32
    if version ≠ vectorVersion then throw (unsupportedVersion version)
    else
      let vocabSize ← readU32
      let docCount ← readU32
      let vocabulary ← readMany (readString utf8Error) vocabSize.toNat
      let docs ← readMany (readDoc utf8Error) docCount.toNat
      pure ⟨docs, vocabulary⟩

/-- `load_index`, of the bytes of the file. -/
def loadIndex (bytes : Bytes) : Except Str VectorIndex :=
  match readIndex utf8Error bytes with
  | .ok (index, _) => .ok index
  | .error e => .error e

end Load

/-! ### Values that fit -/

def StringFits (s : Str) : Prop := (utf8 s).length < 2 ^ 32

structure VectorDoc.Fits (doc : VectorDoc) : Prop where
  qualifiedName : StringFits doc.qualifiedName
  name : StringFits doc.name
  label : StringFits doc.label
  filePath : StringFits doc.filePath
  terms : doc.terms.length < 2 ^ 32

/-- The counts and the lengths of an index fit in 32 bits. -/
structure VectorIndex.Fits (index : VectorIndex) : Prop where
  vocabSize : index.vocabulary.length < 2 ^ 32
  docCount : index.docs.length < 2 ^ 32
  vocabulary : ∀ term ∈ index.vocabulary, StringFits term
  docs : ∀ doc ∈ index.docs, doc.Fits

theorem toNat_cast {n : Nat} (h : n < 2 ^ 32) : (UInt32.ofNat n).toNat = n :=
  UInt32.toNat_ofNat_of_lt' h

/-! ### The reader inverts the writer -/

theorem reads_le (e : Str) :
    Reads (do let b ← readExact 4 e; pure (UInt32.ofNat (fromLe b)) : Reader Str UInt32)
      (fun _ => True) writeU32 := by
  intro bytes v rest
  simp only [reader_bind_ok, reader_pure_ok, readExact_ok, true_and]
  constructor
  · rintro ⟨b, mid, ⟨hlen, rfl⟩, rfl, rfl⟩
    have hlt := fromLe_lt b
    rw [hlen] at hlt
    rw [writeU32, toNat_cast (lt_of_lt_of_eq hlt (by decide))]
    have hb := leBytes_fromLe b
    rw [hlen] at hb
    rw [hb]
  · rintro rfl
    refine ⟨writeU32 v, rest, ⟨length_leBytes _ _, rfl⟩, ?_, rfl⟩
    rw [writeU32, fromLe_leBytes (lt_of_lt_of_eq v.toNat_lt (by decide)), UInt32.ofNat_toNat]

theorem reads_u32 : Reads readU32 (fun _ => True) writeU32 := reads_le _

theorem reads_f32 : Reads readF32 (fun _ => True) writeU32 := reads_le _

theorem reads_term : Reads readTerm (fun _ => True) writeTerm := by
  intro bytes term rest
  simp only [readTerm, reader_bind_ok, reader_pure_ok, reads_u32 _ _ _, reads_f32 _ _ _, true_and]
  constructor
  · rintro ⟨id, mid, rfl, w, mid', rfl, rfl, rfl⟩
    rw [writeTerm, List.append_assoc]
  · rintro rfl
    exact ⟨term.1, writeU32 term.2 ++ rest, by rw [writeTerm, List.append_assoc], term.2, rest,
      rfl, rfl, rfl⟩

section Inverse

variable (utf8Error : Bytes → Str)

theorem reads_string : Reads (readString utf8Error) StringFits writeString := by
  intro bytes s rest
  rw [readString]
  simp only [reader_bind_ok, reads_u32 _ _ _, readExact_ok, true_and]
  constructor
  · rintro ⟨len, mid, rfl, buf, mid', ⟨hlen, rfl⟩, h⟩
    cases hbuf : fromUtf8 buf with
    | none =>
        rw [hbuf] at h
        exact (reader_throw_ok.mp h).elim
    | some t =>
        rw [hbuf] at h
        obtain ⟨rfl, rfl⟩ := reader_pure_ok.mp h
        obtain rfl := fromUtf8_eq_some.mp hbuf
        have hcast : UInt32.ofNat (utf8 t).length = len := by
          rw [hlen, UInt32.ofNat_toNat]
        refine ⟨?_, ?_⟩
        · rw [StringFits, hlen]
          exact len.toNat_lt
        · rw [writeString, hcast, List.append_assoc]
  · rintro ⟨hfits, rfl⟩
    refine ⟨UInt32.ofNat (utf8 s).length, utf8 s ++ rest, ?_, utf8 s, rest, ⟨?_, rfl⟩, ?_⟩
    · rw [writeString, List.append_assoc]
    · rw [toNat_cast hfits]
    · rw [fromUtf8_utf8]
      exact reader_pure_ok.mpr ⟨rfl, rfl⟩

theorem reads_doc : Reads (readDoc utf8Error) VectorDoc.Fits writeDoc := by
  intro bytes doc rest
  rw [readDoc]
  simp only [reader_bind_ok, reader_pure_ok, reads_string utf8Error _ _ _, reads_u32 _ _ _,
    reads_term.many _ _ _ _, true_and]
  constructor
  · rintro ⟨qualifiedName, m1, ⟨hq, rfl⟩, name, m2, ⟨hn, rfl⟩, label, m3, ⟨hl, rfl⟩, filePath, m4,
      ⟨hp, rfl⟩, nnz, m5, rfl, terms, m6, ⟨⟨hlen, -⟩, rfl⟩, rfl, rfl⟩
    have hcast : UInt32.ofNat terms.length = nnz := by
      rw [hlen, UInt32.ofNat_toNat]
    refine ⟨⟨hq, hn, hl, hp, ?_⟩, ?_⟩
    · change terms.length < 2 ^ 32
      rw [hlen]
      exact nnz.toNat_lt
    · simp only [writeDoc, hcast, List.append_assoc]
  · rintro ⟨⟨hq, hn, hl, hp, ht⟩, rfl⟩
    refine ⟨doc.qualifiedName, _, ⟨hq, ?_⟩, doc.name, _, ⟨hn, rfl⟩, doc.label, _, ⟨hl, rfl⟩,
      doc.filePath, _, ⟨hp, rfl⟩, UInt32.ofNat doc.terms.length, _, rfl, doc.terms, rest,
      ⟨⟨(toNat_cast ht).symm, fun _ _ => trivial⟩, rfl⟩, rfl, rfl⟩
    simp only [writeDoc, List.append_assoc]

theorem reads_index : Reads (readIndex utf8Error) VectorIndex.Fits saveIndex := by
  intro bytes index rest
  rw [readIndex]
  simp only [reader_bind_ok, reads_u32 _ _ _, true_and]
  constructor
  · rintro ⟨magic, m1, rfl, h⟩
    split at h
    · exact (reader_throw_ok.mp h).elim
    · rename_i hmagic
      simp only [reader_bind_ok, reads_u32 _ _ _, true_and] at h
      obtain ⟨version, m2, rfl, h⟩ := h
      split at h
      · exact (reader_throw_ok.mp h).elim
      · rename_i hversion
        simp only [reader_bind_ok, reader_pure_ok, reads_u32 _ _ _, true_and,
          (reads_string utf8Error).many _ _ _ _, (reads_doc utf8Error).many _ _ _ _] at h
        obtain ⟨vocabSize, m3, rfl, docCount, m4, rfl, vocabulary, m5, ⟨⟨hv, hvocab⟩, rfl⟩, docs,
          m6, ⟨⟨hd, hdocs⟩, rfl⟩, rfl, rfl⟩ := h
        have hcastv : UInt32.ofNat vocabulary.length = vocabSize := by
          rw [hv, UInt32.ofNat_toNat]
        have hcastd : UInt32.ofNat docs.length = docCount := by
          rw [hd, UInt32.ofNat_toNat]
        refine ⟨⟨?_, ?_, hvocab, hdocs⟩, ?_⟩
        · change vocabulary.length < 2 ^ 32
          rw [hv]
          exact vocabSize.toNat_lt
        · change docs.length < 2 ^ 32
          rw [hd]
          exact docCount.toNat_lt
        · rw [not_not.mp hmagic, not_not.mp hversion]
          simp only [saveIndex, hcastv, hcastd, List.append_assoc]
  · rintro ⟨⟨hv, hd, hvocab, hdocs⟩, rfl⟩
    refine ⟨vectorMagic, _, by simp only [saveIndex, List.append_assoc]; rfl, ?_⟩
    rw [if_neg (not_not.mpr rfl)]
    simp only [reader_bind_ok, reads_u32 _ _ _, true_and]
    refine ⟨vectorVersion, _, rfl, ?_⟩
    rw [if_neg (not_not.mpr rfl)]
    simp only [reader_bind_ok, reader_pure_ok, reads_u32 _ _ _, true_and,
      (reads_string utf8Error).many _ _ _ _, (reads_doc utf8Error).many _ _ _ _]
    exact ⟨_, _, rfl, _, _, rfl, index.vocabulary, _, ⟨⟨(toNat_cast hv).symm, hvocab⟩, rfl⟩,
      index.docs, rest, ⟨⟨(toNat_cast hd).symm, hdocs⟩, rfl⟩, rfl, rfl⟩

/-- The files that load, and what they load to. -/
theorem loadIndex_ok {bytes : Bytes} {index : VectorIndex} :
    loadIndex utf8Error bytes = .ok index ↔
      index.Fits ∧ ∃ rest, bytes = saveIndex index ++ rest := by
  constructor
  · intro h
    rw [loadIndex] at h
    split at h
    · rename_i found rest hread
      cases h
      obtain ⟨hfits, hbytes⟩ := (reads_index utf8Error _ _ _).mp hread
      exact ⟨hfits, rest, hbytes⟩
    · cases h
  · rintro ⟨hfits, rest, hbytes⟩
    rw [loadIndex, (reads_index utf8Error _ _ _).mpr ⟨hfits, hbytes⟩]

theorem loadIndex_saveIndex {index : VectorIndex} (h : index.Fits) :
    loadIndex utf8Error (saveIndex index) = .ok index :=
  (loadIndex_ok utf8Error).mpr ⟨h, [], (List.append_nil _).symm⟩

end Inverse

end AutomatisedPipeline.Search

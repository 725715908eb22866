import AutomatisedPipeline.Cfg.Parse
import AutomatisedPipeline.Codec.Utf8

/-!
`file:` URIs (`uri.rs`).

`pathToFileUri` writes the bytes of a path, percent-encoding all but the unreserved ones and
`/`; `fileUriToPath` skips the scheme and a local authority and decodes what is left. Reading
back what was written gives the path (`fileUriToPath_pathToFileUri`).
-/

namespace AutomatisedPipeline.LspClient

open Text Codec

/-! ### The source's definitions -/

/-- `keep`: the unreserved bytes of RFC 3986, and `/`. -/
def keep (c : UInt8) : Bool :=
  (Char.ofUInt8 c).isAlphanum || c == 45 || c == 46 || c == 95 || c == 126 || c == 47

/-- What `path_to_file_uri` pushes for a byte. -/
def encodeByte (c : UInt8) : Str :=
  if keep c then [Char.ofUInt8 c]
  else ['%', Cfg.hexDigit (c.toNat / 16), Cfg.hexDigit (c.toNat % 16)]

def fileScheme : Str := "file://".toList

/-- `path_to_file_uri`. -/
def pathToFileUri (path : Str) : Str := fileScheme ++ (utf8 path).flatMap encodeByte

/-- `strip_file_scheme_and_authority`. -/
def stripFileSchemeAndAuthority (uri : Str) : Option Str :=
  (fileScheme.isPrefixOf? uri).bind fun rest =>
    if '/' ∈ rest then
      let authority := rest.takeWhile (· ≠ '/')
      if authority.isEmpty || eqIgnoreAsciiCase authority "localhost".toList then
        some (rest.dropWhile (· ≠ '/'))
      else none
    else none

/-- `u8::is_ascii_hexdigit`. -/
def isAsciiHexdigit (b : UInt8) : Bool :=
  (48 ≤ b && b ≤ 57) || (65 ≤ b && b ≤ 70) || (97 ≤ b && b ≤ 102)

/-- `u8::from_str_radix(hex, 16).unwrap_or(b'%')`. -/
def escaped (h l : UInt8) : UInt8 :=
  ((Cfg.fromStrRadix16 256 [Char.ofUInt8 h, Char.ofUInt8 l]).map UInt8.ofNat).getD 37

/-- The loop of `file_uri_to_path`: an escape is one byte, any other byte is itself. -/
def percentDecode : Bytes → Bytes
  | [] => []
  | [b] => [b]
  | [b, c] => [b, c]
  | b :: h :: l :: rest =>
      if b = 37 ∧ isAsciiHexdigit h ∧ isAsciiHexdigit l then escaped h l :: percentDecode rest
      else b :: percentDecode (h :: l :: rest)

/-- `file_uri_to_path`. -/
def fileUriToPath (uri : Str) : Option Str :=
  (stripFileSchemeAndAuthority uri).map fun encoded => fromUtf8Lossy (percentDecode (utf8 encoded))

/-! ### One byte -/

/-- What the writer and the reader of one byte agree on, checked byte by byte. -/
theorem byte_table : ∀ n < 256,
    (keep (UInt8.ofNat n) = true →
      utf8 [Char.ofUInt8 (UInt8.ofNat n)] = [UInt8.ofNat n] ∧ UInt8.ofNat n ≠ 37) ∧
    utf8 ['%', Cfg.hexDigit (n / 16), Cfg.hexDigit (n % 16)] =
      [37, (Cfg.hexDigit (n / 16)).toUInt8, (Cfg.hexDigit (n % 16)).toUInt8] ∧
    isAsciiHexdigit (Cfg.hexDigit (n / 16)).toUInt8 = true ∧
    isAsciiHexdigit (Cfg.hexDigit (n % 16)).toUInt8 = true ∧
    escaped (Cfg.hexDigit (n / 16)).toUInt8 (Cfg.hexDigit (n % 16)).toUInt8 = UInt8.ofNat n := by
  decide +kernel

theorem percentDecode_cons {b : UInt8} (h : b ≠ 37) (rest : Bytes) :
    percentDecode (b :: rest) = b :: percentDecode rest := by
  match rest with
  | [] => rfl
  | [_] => rfl
  | _ :: _ :: _ => rw [percentDecode, if_neg fun hescape => h hescape.1]

theorem percentDecode_encodeByte (b : UInt8) (rest : Bytes) :
    percentDecode (utf8 (encodeByte b) ++ rest) = b :: percentDecode rest := by
  obtain ⟨hplain, hbytes, hh, hl, hvalue⟩ := byte_table b.toNat b.toNat_lt
  rw [UInt8.ofNat_toNat] at hplain hvalue
  rw [encodeByte]
  split
  · rename_i hkeep
    obtain ⟨hbyte, hne⟩ := hplain hkeep
    rw [hbyte, List.singleton_append, percentDecode_cons hne]
  · rw [hbytes, List.cons_append, List.cons_append, List.singleton_append, percentDecode,
      if_pos ⟨rfl, hh, hl⟩, hvalue]

theorem percentDecode_flatMap (bytes : Bytes) :
    percentDecode (utf8 (bytes.flatMap encodeByte)) = bytes := by
  induction bytes with
  | nil => rfl
  | cons b bytes ih => rw [List.flatMap_cons, utf8_append, percentDecode_encodeByte, ih]

/-! ### The round trip -/

/-- A path that begins with `/` follows the scheme without an authority. -/
theorem stripFileSchemeAndAuthority_path (rest : Str) :
    stripFileSchemeAndAuthority (fileScheme ++ '/' :: rest) = some ('/' :: rest) := by
  have hprefix : fileScheme.isPrefixOf? (fileScheme ++ '/' :: rest) = some ('/' :: rest) :=
    List.isPrefixOf?_eq_some_iff_append_eq.mpr rfl
  rw [stripFileSchemeAndAuthority, hprefix, Option.bind_some, if_pos List.mem_cons_self]
  simp

/-- Every absolute path is read back from its URI. -/
theorem fileUriToPath_pathToFileUri (path : Str) :
    fileUriToPath (pathToFileUri ('/' :: path)) = some ('/' :: path) := by
  have hslash : (utf8 ('/' :: path)).flatMap encodeByte =
      '/' :: (utf8 path).flatMap encodeByte := by
    have hutf8 : utf8 ('/' :: path) = 47 :: utf8 path := rfl
    rw [hutf8, List.flatMap_cons]
    rfl
  rw [fileUriToPath, pathToFileUri, hslash, stripFileSchemeAndAuthority_path, Option.map_some,
    ← hslash, percentDecode_flatMap, fromUtf8Lossy_utf8]

end AutomatisedPipeline.LspClient

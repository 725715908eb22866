import AutomatisedPipeline.Text.Padding
import AutomatisedPipeline.Codec.Utf8

/-!
The wire below the language server client (`lsp_client/protocol.rs`, `lsp_client/frames.rs`).

The writer frames a body with its length. The reader takes header lines up to a blank one
and then as many bytes as the header says; what it makes of a body is the JSON parser's
matter, so the parser is a parameter. A stream ends where its bytes do; other failures of a
read are left out.

The reader keeps in step with the writer. A message is header lines around the one that gives
the length, a blank line and a body of that length. Whatever the body holds, the reader takes
the message and nothing else, so what follows is read as if it stood at the start of the stream.
-/

namespace AutomatisedPipeline.LspClient

open Text Codec
open Indexer (trim trimMatches)

/-- `isize::MAX`: no slice is longer. -/
def isizeMax : Nat := 2 ^ 63 - 1

/-- The bytes of a message. -/
abbrev Body : Type := { bytes : Bytes // bytes.length ≤ isizeMax }

/-- `write_lsp_message`: what it writes. -/
def writeLspMessage (msg : Body) : Bytes :=
  utf8 ("Content-Length: ".toList ++ digits msg.1.length ++ "\r\n\r\n".toList) ++ msg.1

inductive FrameError where
  | payload (message : Str)
  | fatal (message : Str)
  | timeout (message : Str)
deriving DecidableEq, Repr

/-- What a call of the reader comes to; it panics on a length that no buffer can have. -/
inductive Frame (α : Type) where
  | value (value : α)
  | error (error : FrameError)
  | panic
deriving DecidableEq, Repr

/-- What one `read_line` after the other returns: every line with its line feed, the last one
perhaps without. -/
def readLines : Bytes → List Bytes
  | [] => []
  | byte :: bytes =>
      if byte = 10 then [byte] :: readLines bytes
      else
        match readLines bytes with
        | [] => [[byte]]
        | line :: lines => (byte :: line) :: lines

def eofBeforeBody : FrameError := .fatal "eof_before_body: partial header then EOF".toList

def eofBeforeHeader : FrameError :=
  .fatal "eof_before_header: child stdout closed without LSP framing".toList

def contentLengthName : Str := "Content-Length:".toList

/-- The loop over the header lines, with the lines that it leaves. -/
def readHeaders : List Bytes → Option Nat → Bool → Except FrameError (Option Nat) × List Bytes
  | [], _, sawAnyByte => (.error (if sawAnyByte then eofBeforeBody else eofBeforeHeader), [])
  | line :: lines, contentLength, _ =>
      match fromUtf8 line with
      | none =>
          (.error (.fatal "read header line: stream did not contain valid UTF-8".toList), lines)
      | some text =>
          let trimmed := trim text
          if trimmed.isEmpty then (.ok contentLength, lines)
          else
            match contentLengthName.isPrefixOf? trimmed with
            | some rest => readHeaders lines (parseU64 (trim rest)) true
            | none => readHeaders lines contentLength true

variable {α : Type} (fromSlice : Bytes → Except Str α)

/-- What the reader makes of a body. -/
def ofBody (body : Bytes) : Frame α :=
  match fromSlice body with
  | .ok value => .value value
  | .error e => .error (.payload ("parse JSON body: ".toList ++ e))

/-- The body of the length that the header gave. -/
def readBody (len : Nat) (bytes : Bytes) : Frame α × Bytes :=
  if isizeMax < len then (.panic, bytes)
  else if bytes.length < len then
    (.error (.fatal ("read body (".toList ++ digits len ++
      " bytes): failed to fill whole buffer".toList)), [])
  else (ofBody fromSlice (bytes.take len), bytes.drop len)

/-- `read_lsp_message`: its result, and the bytes it leaves. -/
def readLspMessage (stream : Bytes) : Frame α × Bytes :=
  match readHeaders (readLines stream) none false with
  | (.error e, lines) => (.error e, lines.flatten)
  | (.ok none, lines) =>
      (.error (.fatal "missing Content-Length header".toList), lines.flatten)
  | (.ok (some len), lines) => readBody fromSlice len lines.flatten

/-- Whether the reader thread ends after a frame. -/
def Frame.stops : Frame α → Bool
  | .value _ => false
  | .error (.fatal _) => true
  | .error (.payload _) => false
  | .error (.timeout _) => false
  | .panic => true

/-- The loop of the reader thread while its receiver lives: the frames it sends. -/
def frameLoop : Nat → Bytes → List (Frame α)
  | 0, _ => []
  | fuel + 1, stream =>
      let (frame, rest) := readLspMessage fromSlice stream
      if frame.stops then [frame] else frame :: frameLoop fuel rest

/-- `spawn_frame_reader`. Every frame but the last takes bytes off the stream. -/
def spawnFrameReader (stream : Bytes) : List (Frame α) :=
  frameLoop fromSlice (stream.length + 1) stream

/-! ### Lines -/

theorem flatten_readLines (bytes : Bytes) : (readLines bytes).flatten = bytes := by
  induction bytes with
  | nil => rfl
  | cons byte bytes ih =>
      rw [readLines]
      split
      · rw [List.flatten_cons, ih, List.singleton_append]
      · split
        · rename_i hlines
          rw [hlines] at ih
          rw [← ih]
          rfl
        · rename_i line lines hlines
          rw [hlines] at ih
          rw [← ih]
          rfl

theorem readLines_append {line : Bytes} (h : 10 ∉ line) (bytes : Bytes) :
    readLines (line ++ 10 :: bytes) = (line ++ [10]) :: readLines bytes := by
  induction line with
  | nil => rw [List.nil_append, readLines, if_pos rfl, List.nil_append]
  | cons byte line ih =>
      rw [List.mem_cons, not_or] at h
      rw [List.cons_append, readLines, if_neg (Ne.symm h.1), ih h.2]
      rfl

/-! ### Fields -/

/-- The end of a header line. -/
def crlf : Str := "\r\n".toList

theorem trim_crlf (s : Str) : trim (s ++ crlf) = trim s :=
  trim_append_blank s (by decide)

/-- A header field that neither ends the header nor gives the length. -/
structure IsField (field : Str) : Prop where
  oneLine : '\n' ∉ field
  notBlank : trim field ≠ []
  notLength : contentLengthName.isPrefixOf? (trim field) = none

/-- The bytes of header lines. -/
def lineBytes (field : Str) : Bytes := utf8 (field ++ crlf)

theorem lineBytes_eq (field : Str) : lineBytes field = utf8 (field ++ ['\r']) ++ [10] := by
  rw [lineBytes, utf8_append, utf8_append, List.append_assoc]
  rfl

theorem readLines_line {field : Str} (h : '\n' ∉ field) (bytes : Bytes) :
    readLines (lineBytes field ++ bytes) = lineBytes field :: readLines bytes := by
  rw [lineBytes_eq, List.append_assoc, List.singleton_append, readLines_append]
  refine not_mem_utf8 (by decide : ('\n').toNat < 128) ?_
  simp [h]

/-- The field that gives the length. -/
def lengthField (len : Nat) : Str := contentLengthName ++ ' ' :: digits len

theorem not_isWhitespace_of_isDigit {c : Char} (h : c.isDigit = true) : isWhitespace c = false := by
  have hle := Char.isDigit_iff_toNat.mp h
  have hzero : ('0').toNat = 48 := rfl
  have hnine : ('9').toNat = 57 := rfl
  rw [hzero, hnine] at hle
  simp only [isWhitespace, Bool.or_eq_false_iff, Bool.and_eq_false_iff, decide_eq_false_iff_not,
    beq_eq_false_iff_ne]
  omega

theorem digit_of_mem_getLast (n : Nat) (front : Str) :
    ∀ c ∈ (front ++ digits n).getLast?, isWhitespace c = false := by
  intro c hc
  rw [List.getLast?_append_of_ne_nil _ Nat.toDigits_ne_nil] at hc
  exact not_isWhitespace_of_isDigit (isDigit_of_mem_digits (List.mem_of_getLast? hc))

theorem trim_digits (n : Nat) : trim (' ' :: digits n) = digits n := by
  have hspace : trim (' ' :: digits n) = trim (digits n) := by
    rw [trim, trim, trimMatches, trimMatches, List.dropWhile_cons_of_pos (by decide)]
  rw [hspace]
  refine trim_eq_self ⟨?_, digit_of_mem_getLast n []⟩
  intro c hc
  exact not_isWhitespace_of_isDigit (isDigit_of_mem_digits (List.mem_of_mem_head? hc))

theorem trim_lengthField (len : Nat) : trim (lengthField len) = lengthField len := by
  refine trim_eq_self ⟨?_, ?_⟩
  · intro c hc
    have hhead : (lengthField len).head? = some 'C' := rfl
    rw [hhead] at hc
    cases hc
    decide
  · have hfield : lengthField len = (contentLengthName ++ [' ']) ++ digits len := by
      rw [lengthField, List.append_assoc]
      rfl
    rw [hfield]
    exact digit_of_mem_getLast len _

/-! ### The header -/

theorem readHeaders_blank (contentLength : Option Nat) (sawAnyByte : Bool) (lines : List Bytes) :
    readHeaders (lineBytes [] :: lines) contentLength sawAnyByte = (.ok contentLength, lines) := by
  have hblank : trim ([] ++ crlf) = [] := trim_crlf []
  simp only [readHeaders, lineBytes, fromUtf8_utf8, hblank, List.isEmpty_nil, if_true]

theorem readHeaders_field {field : Str} (h : IsField field) (contentLength : Option Nat)
    (sawAnyByte : Bool) (lines : List Bytes) :
    readHeaders (lineBytes field :: lines) contentLength sawAnyByte =
      readHeaders lines contentLength true := by
  rw [readHeaders, lineBytes, fromUtf8_utf8]
  simp only [trim_crlf, List.isEmpty_iff, h.notBlank, if_false, h.notLength]

theorem readHeaders_fields {fields : List Str} (h : ∀ field ∈ fields, IsField field)
    (contentLength : Option Nat) (sawAnyByte : Bool) (lines : List Bytes) :
    ∃ saw, readHeaders (fields.map lineBytes ++ lines) contentLength sawAnyByte =
      readHeaders lines contentLength saw := by
  induction fields generalizing sawAnyByte with
  | nil => exact ⟨sawAnyByte, rfl⟩
  | cons field fields ih =>
      obtain ⟨saw, hsaw⟩ := ih (fun f hf => h f (List.mem_cons_of_mem _ hf)) true
      refine ⟨saw, ?_⟩
      rw [List.map_cons, List.cons_append, readHeaders_field (h field List.mem_cons_self), hsaw]

theorem readHeaders_length {len : Nat} (h : len < 2 ^ 64) (contentLength : Option Nat)
    (sawAnyByte : Bool) (lines : List Bytes) :
    readHeaders (lineBytes (lengthField len) :: lines) contentLength sawAnyByte =
      readHeaders lines (some len) true := by
  have hrest : contentLengthName.isPrefixOf? (lengthField len) = some (' ' :: digits len) := rfl
  have hne : (lengthField len).isEmpty = false := rfl
  rw [readHeaders, lineBytes, fromUtf8_utf8]
  simp only [trim_crlf, trim_lengthField, hne, hrest, trim_digits, parseU64_digits h,
    Bool.false_eq_true, if_false]

theorem readLines_fields {fields : List Str} (h : ∀ field ∈ fields, '\n' ∉ field)
    (bytes : Bytes) :
    readLines (fields.flatMap lineBytes ++ bytes) = fields.map lineBytes ++ readLines bytes := by
  induction fields with
  | nil => rfl
  | cons field fields ih =>
      rw [List.flatMap_cons, List.append_assoc, readLines_line (h field List.mem_cons_self),
        ih fun f hf => h f (List.mem_cons_of_mem _ hf)]
      rfl

/-! ### Messages -/

/-- A well framed message. -/
structure Message where
  before : List Str
  after : List Str
  body : Body
  fields : ∀ field ∈ before ++ after, IsField field

/-- The message as the writer frames it. -/
def Message.ofBody (body : Body) : Message := ⟨[], [], body, by simp⟩

/-- The header of a message, without the blank line. -/
def Message.header (m : Message) : List Str :=
  m.before ++ lengthField m.body.1.length :: m.after

/-- The bytes of a message. -/
def Message.bytes (m : Message) : Bytes :=
  m.header.flatMap lineBytes ++ (lineBytes [] ++ m.body.1)

theorem bytes_ofBody (body : Body) : (Message.ofBody body).bytes = writeLspMessage body := by
  have hcrlf : "\r\n\r\n".toList = crlf ++ crlf := rfl
  have hlength : "Content-Length: ".toList ++ digits body.1.length = lengthField body.1.length :=
    rfl
  rw [writeLspMessage, hcrlf, hlength, Message.bytes, Message.header, Message.ofBody]
  simp [lineBytes]

theorem Message.header_oneLine (m : Message) : ∀ field ∈ m.header, '\n' ∉ field := by
  intro field hfield
  rcases List.mem_append.mp hfield with hbefore | hrest
  · exact (m.fields field (List.mem_append_left _ hbefore)).oneLine
  · rcases List.mem_cons.mp hrest with rfl | hafter
    · intro hmem
      rcases List.mem_append.mp hmem with hname | hdigits
      · exact absurd hname (by decide)
      · rcases List.mem_cons.mp hdigits with hspace | hdigit
        · cases hspace
        · exact absurd (isDigit_of_mem_digits hdigit) (by decide)
    · exact (m.fields field (List.mem_append_right _ hafter)).oneLine

theorem readHeaders_message (m : Message) (lines : List Bytes) :
    readHeaders (m.header.map lineBytes ++ lineBytes [] :: lines) none false =
      (.ok (some m.body.1.length), lines) := by
  have hbefore : ∀ field ∈ m.before, IsField field := fun field hfield =>
    m.fields field (List.mem_append_left _ hfield)
  have hafter : ∀ field ∈ m.after, IsField field := fun field hfield =>
    m.fields field (List.mem_append_right _ hfield)
  have hlen : m.body.1.length < 2 ^ 64 := lt_of_le_of_lt m.body.2 (by decide)
  obtain ⟨saw, hsaw⟩ := readHeaders_fields hbefore none false
    (lineBytes (lengthField m.body.1.length) :: (m.after.map lineBytes ++ lineBytes [] :: lines))
  obtain ⟨saw', hsaw'⟩ := readHeaders_fields hafter (some m.body.1.length) true
    (lineBytes [] :: lines)
  rw [Message.header, List.map_append, List.map_cons, List.append_assoc, List.cons_append, hsaw,
    readHeaders_length hlen, hsaw', readHeaders_blank]

variable {α : Type} (fromSlice : Bytes → Except Str α)

/-- The reader takes a message off the stream and leaves what follows. -/
theorem readLspMessage_bytes (m : Message) (rest : Bytes) :
    readLspMessage fromSlice (m.bytes ++ rest) = (ofBody fromSlice m.body.1, rest) := by
  have hlines : readLines (m.bytes ++ rest) =
      m.header.map lineBytes ++ lineBytes [] :: readLines (m.body.1 ++ rest) := by
    rw [Message.bytes, List.append_assoc, readLines_fields m.header_oneLine, List.append_assoc,
      readLines_line (by simp)]
  rw [readLspMessage, hlines, readHeaders_message]
  have hshort : ¬(m.body.1 ++ rest).length < m.body.1.length := by
    rw [List.length_append]
    omega
  simp only [readBody, flatten_readLines, if_neg (not_lt.mpr m.body.2), if_neg hshort,
    List.take_left, List.drop_left]

/-! ### The reader thread -/

theorem ne_nil_of_mem_readLines {bytes line : Bytes} (h : line ∈ readLines bytes) : line ≠ [] := by
  induction bytes generalizing line with
  | nil => cases h
  | cons byte bytes ih =>
      rw [readLines] at h
      split at h
      · rcases List.mem_cons.mp h with rfl | hmem
        · exact List.cons_ne_nil _ _
        · exact ih hmem
      · split at h
        · rw [List.mem_singleton.mp h]
          exact List.cons_ne_nil _ _
        · rename_i lines hlines
          rcases List.mem_cons.mp h with rfl | hmem
          · exact List.cons_ne_nil _ _
          · exact ih (hlines ▸ List.mem_cons_of_mem _ hmem)

/-- A header that ends takes at least one line. -/
theorem readHeaders_ok {lines rest : List Bytes} {contentLength result : Option Nat}
    {sawAnyByte : Bool} (h : readHeaders lines contentLength sawAnyByte = (.ok result, rest)) :
    ∃ front line, lines = front ++ line :: rest := by
  induction lines generalizing contentLength sawAnyByte with
  | nil => cases h
  | cons line lines ih =>
      have hnext : ∀ {c : Option Nat}, readHeaders lines c true = (.ok result, rest) →
          ∃ front line', line :: lines = front ++ line' :: rest := by
        intro c hc
        obtain ⟨front, line', hlines⟩ := ih hc
        exact ⟨line :: front, line', by rw [hlines, List.cons_append]⟩
      rw [readHeaders] at h
      split at h
      · cases h
      · dsimp only at h
        split at h
        · cases h
          exact ⟨[], line, rfl⟩
        · split at h
          · exact hnext h
          · exact hnext h

/-- A header that fails leaves the stream out of step. -/
theorem readHeaders_error {lines rest : List Bytes} {contentLength : Option Nat}
    {sawAnyByte : Bool} {e : FrameError}
    (h : readHeaders lines contentLength sawAnyByte = (.error e, rest)) :
    ∃ message, e = .fatal message := by
  induction lines generalizing contentLength sawAnyByte with
  | nil =>
      rw [readHeaders] at h
      cases h
      split
      · exact ⟨_, rfl⟩
      · exact ⟨_, rfl⟩
  | cons line lines ih =>
      rw [readHeaders] at h
      split at h
      · cases h
        exact ⟨_, rfl⟩
      · dsimp only at h
        split at h
        · cases h
        · split at h
          · exact ih h
          · exact ih h

/-- A frame after which the thread goes on takes bytes off the stream. -/
theorem readLspMessage_shrinks {stream rest : Bytes} {frame : Frame α}
    (h : readLspMessage fromSlice stream = (frame, rest)) (hgo : frame.stops = false) :
    rest.length < stream.length := by
  rw [readLspMessage] at h
  split at h
  · rename_i e lines hheaders
    obtain ⟨message, rfl⟩ := readHeaders_error hheaders
    cases h
    cases hgo
  · cases h
    cases hgo
  · rename_i len lines hheaders
    obtain ⟨front, line, hlines⟩ := readHeaders_ok hheaders
    have hline : line ≠ [] := ne_nil_of_mem_readLines (by rw [hlines]; simp)
    have hstream : stream = front.flatten ++ (line ++ lines.flatten) := by
      rw [← flatten_readLines stream, hlines, List.flatten_append, List.flatten_cons]
    have hlt : lines.flatten.length < stream.length := by
      rw [hstream, List.length_append, List.length_append]
      have hpos := List.length_pos_iff.mpr hline
      omega
    have hle : rest.length ≤ lines.flatten.length := by
      rw [readBody] at h
      split at h
      · cases h
        exact le_refl _
      · split at h
        · cases h
          exact Nat.zero_le _
        · cases h
          rw [List.length_drop]
          omega
    exact hle.trans_lt hlt

theorem frameLoop_congr {fuel fuel' : Nat} {stream : Bytes} (h : stream.length < fuel)
    (h' : stream.length < fuel') :
    frameLoop fromSlice fuel stream = frameLoop fromSlice fuel' stream := by
  induction fuel generalizing fuel' stream with
  | zero => cases h
  | succ fuel ih =>
      cases fuel' with
      | zero => cases h'
      | succ fuel' =>
          rw [frameLoop, frameLoop]
          dsimp only
          split
          · rfl
          · rename_i hgo
            have hlt : (readLspMessage fromSlice stream).2.length < stream.length :=
              readLspMessage_shrinks fromSlice rfl (Bool.eq_false_iff.mpr hgo)
            have heq : frameLoop fromSlice fuel (readLspMessage fromSlice stream).2 =
                frameLoop fromSlice fuel' (readLspMessage fromSlice stream).2 :=
              ih (by omega) (by omega)
            rw [heq]

theorem spawnFrameReader_eq (stream : Bytes) :
    spawnFrameReader fromSlice stream =
      let (frame, rest) := readLspMessage fromSlice stream
      if frame.stops then [frame] else frame :: spawnFrameReader fromSlice rest := by
  rw [spawnFrameReader, frameLoop]
  dsimp only
  split
  · rfl
  · rename_i hgo
    have hlt : (readLspMessage fromSlice stream).2.length < stream.length :=
      readLspMessage_shrinks fromSlice rfl (Bool.eq_false_iff.mpr hgo)
    rw [spawnFrameReader, frameLoop_congr fromSlice hlt (Nat.lt_succ_self _)]

theorem stops_ofBody (body : Bytes) : (ofBody fromSlice body).stops = false := by
  rw [ofBody]
  split
  · rfl
  · rfl

theorem spawnFrameReader_bytes (messages : List Message) (rest : Bytes) :
    spawnFrameReader fromSlice (messages.flatMap Message.bytes ++ rest) =
      messages.map (fun m => ofBody fromSlice m.body.1) ++ spawnFrameReader fromSlice rest := by
  induction messages with
  | nil => rfl
  | cons m messages ih =>
      rw [List.flatMap_cons, List.append_assoc, spawnFrameReader_eq, readLspMessage_bytes]
      dsimp only
      rw [stops_ofBody, if_neg Bool.false_ne_true, ih]
      rfl

/-- The reader keeps in step. From what the writer wrote it reads the bodies in their order,
and then the end of the stream; and behind well framed messages, whatever the JSON parser
says of their bodies, it reads on as if the stream started there. -/
theorem framing_keeps_in_step :
    (∀ bodies : List Body, spawnFrameReader fromSlice (bodies.flatMap writeLspMessage) =
      bodies.map (fun body => ofBody fromSlice body.1) ++ [.error eofBeforeHeader]) ∧
    (∀ (messages : List Message) (rest : Bytes),
      spawnFrameReader fromSlice (messages.flatMap Message.bytes ++ rest) =
        messages.map (fun m => ofBody fromSlice m.body.1) ++ spawnFrameReader fromSlice rest) := by
  refine ⟨fun bodies => ?_, spawnFrameReader_bytes fromSlice⟩
  have h := spawnFrameReader_bytes fromSlice (bodies.map Message.ofBody) []
  rw [List.append_nil, List.flatMap_map, List.map_map] at h
  have hbytes : (fun body => (Message.ofBody body).bytes) = writeLspMessage :=
    funext bytes_ofBody
  rw [hbytes] at h
  exact h

end AutomatisedPipeline.LspClient

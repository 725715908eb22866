import AutomatisedPipeline.Iac.YamlLine
import AutomatisedPipeline.Logic.Passed
import Mathlib.Data.List.DropRight

/-!
The manifests of a Kubernetes file (`iac/k8s.rs`).

`scanDocument` goes over the lines with two remembered columns: that of the `metadata` block it is
in, and that of a marker (`configMapRef`, `secret`, ...) whose `name` it waits for. `readRole` is
what it takes a line for, given the lines before, and `meantRole` what the tree says the line is.
When the two agree on a line that holds a scalar is said of the lines before it
(`legible_reference_iff`, `legible_name_iff`, `legible_nspace_iff`).
-/

namespace AutomatisedPipeline.K8s

open Text Yaml YamlLine Passed
open Indexer (trim)

/-! ### The source's definitions -/

/-- `MAX_IMAGES`. -/
def maxImages : Nat := 32

/-- `MAX_REFS`. -/
def maxRefs : Nat := 64

/-- `ConfigRef`. -/
structure ConfigRef where
  kind : Str
  name : Str
deriving DecidableEq, Repr

/-- `K8sDoc`. -/
structure K8sDoc where
  kind : Str
  apiVersion : Str
  name : Str
  nspace : Str
  startLine : Nat
  images : List Str
  configRefs : List ConfigRef
  templated : Bool
deriving DecidableEq, Repr

/-- `ScanResult`. -/
structure ScanResult where
  docs : List K8sDoc := []
  gapRanges : List (Nat × Nat) := []
deriving DecidableEq, Repr

/-- `ref_kind_of`. -/
def refKindOf (key : Str) : Option Str :=
  if key ∈ ["configMapRef".toList, "configMapKeyRef".toList, "configMap".toList] then
    some "ConfigMap".toList
  else if key ∈ ["secretRef".toList, "secretKeyRef".toList, "secret".toList] then
    some "Secret".toList
  else if key = "service".toList then some "Service".toList
  else none

/-- `push_image`. -/
def pushImage (images : List Str) (img : Str) : List Str :=
  if img ≠ [] ∧ images.length < maxImages ∧ img ∉ images then images ++ [img] else images

/-- `push_ref`. -/
def pushRef (refs : List ConfigRef) (kind name : Str) : List ConfigRef :=
  if name = [] ∨ maxRefs ≤ refs.length then refs
  else if ⟨kind, name⟩ ∉ refs then refs ++ [⟨kind, name⟩]
  else refs

/-- What `scan_document` remembers. -/
structure ScanState where
  kind : Str := []
  apiVersion : Str := []
  name : Str := []
  nspace : Str := []
  images : List Str := []
  configRefs : List ConfigRef := []
  metadataIndent : Option Nat := none
  refMarker : Option (Nat × Str) := none
deriving DecidableEq, Repr

/-- The key and the value of a line, with one dash before them or none. -/
def entryOf (line : Str) : Option (Str × Str) :=
  splitKey (((['-', ' '].isPrefixOf? line).map trim).getD line)

def isNameKey (key : Str) : Bool := eqIgnoreAsciiCase key "name".toList

/-- The blocks that a key in a column leaves. -/
def ScanState.leave (st : ScanState) (indent : Nat) (key : Str) : ScanState :=
  { st with
    refMarker := st.refMarker.filter fun m => !(indent ≤ m.1 && !isNameKey key)
    metadataIndent := st.metadataIndent.filter fun mi => !(indent ≤ mi && key ≠ "metadata".toList) }

/-- The keys that `scan_document` tells apart. -/
inductive Field where
  | apiVersion | kind | metadata | name | nspace | image | secretName | serviceName
  | marker (kind : Str)
  | other
deriving DecidableEq, Repr

def fieldOf (key : Str) : Field :=
  if key = "apiVersion".toList then .apiVersion
  else if key = "kind".toList then .kind
  else if key = "metadata".toList then .metadata
  else if key = "name".toList then .name
  else if key = "namespace".toList then .nspace
  else if key = "image".toList then .image
  else if key = "secretName".toList then .secretName
  else if key = "serviceName".toList then .serviceName
  else
    match refKindOf key with
    | some kind => .marker kind
    | none => .other

/-- The branches of `scan_document` on a key. -/
def ScanState.take (st : ScanState) (indent : Nat) (key value : Str) : ScanState :=
  match fieldOf key with
  | .apiVersion => if indent = 0 then { st with apiVersion := unquote value } else st
  | .kind => if indent = 0 ∧ st.kind = [] then { st with kind := unquote value } else st
  | .metadata => if indent = 0 then { st with metadataIndent := some indent } else st
  | .name =>
      match st.refMarker with
      | some (_, kind) =>
          { st with
            refMarker := none
            configRefs := pushRef st.configRefs kind (unquote value) }
      | none =>
          if st.metadataIndent.any (· < indent) && st.name.isEmpty then
            { st with name := unquote value }
          else st
  | .nspace =>
      if st.metadataIndent.any (· < indent) && st.nspace.isEmpty then
        { st with nspace := unquote value }
      else st
  | .image => { st with images := pushImage st.images (unquote value) }
  | .secretName =>
      { st with configRefs := pushRef st.configRefs "Secret".toList (unquote value) }
  | .serviceName =>
      { st with configRefs := pushRef st.configRefs "Service".toList (unquote value) }
  | .marker kind => { st with refMarker := some (indent, kind) }
  | .other => st

/-- One line of `scan_document`. -/
def scanLine (st : ScanState) (raw : Str) : ScanState :=
  let indent := indentOf raw
  let line := trim raw
  if line = [] ∨ line.head? = some '#' then st
  else
    match entryOf line with
    | some (key, value) => (st.leave indent key).take indent key value
    | none => st

/-- `scan_document`. -/
def scanDocument (chunk : Str) (startLine : Nat) (templated : Bool) : Option K8sDoc :=
  let st := (lines chunk).foldl scanLine {}
  if st.kind = [] then none
  else some
    { kind := st.kind
      apiVersion := st.apiVersion
      name := st.name
      nspace := st.nspace
      startLine := startLine
      images := st.images
      configRefs := st.configRefs
      templated := templated }

/-- `str::trim_end`. -/
def trimEnd (s : Str) : Str := (s.reverse.dropWhile isWhitespace).reverse

/-- The line between two documents. -/
def separator : Str := ['-', '-', '-']

/-- The loop of `split_documents`, with the number of lines read. -/
def splitLoop (lineNo start : Nat) (current : Str) : List Str → List (Nat × Str)
  | [] => if trim current = [] then [] else [(start, current)]
  | raw :: rest =>
      if trimEnd raw = separator then
        (if current = [] then [] else [(start, current)]) ++
          splitLoop (lineNo + 1) (lineNo + 2) [] rest
      else splitLoop (lineNo + 1) start (current ++ raw ++ ['\n']) rest

/-- `split_documents`. -/
def splitDocuments (content : Str) : List (Nat × Str) := splitLoop 0 1 [] (lines content)

/-- One chunk of `scan`. -/
def scanChunk (result : ScanResult) (chunk : Nat × Str) : ScanResult :=
  if trim chunk.2 = [] then result
  else
    let templated := decide (['{', '{'] <:+: chunk.2)
    let endLine := chunk.1 + ((lines chunk.2).length - 1)
    match scanDocument chunk.2 chunk.1 templated with
    | some d =>
        { docs := result.docs ++ [d]
          gapRanges :=
            if templated || d.name.isEmpty then result.gapRanges ++ [(chunk.1, endLine)]
            else result.gapRanges }
    | none =>
        if !templated || decide ("kind:".toList <:+: chunk.2) then
          { result with gapRanges := result.gapRanges ++ [(chunk.1, endLine)] }
        else result

/-- `scan`. -/
def scan (content : Str) : ScanResult := (splitDocuments content).foldl scanChunk {}

/-! ### What a tree says -/

/-- What is read of a manifest. -/
structure Manifest where
  kind : Str := []
  apiVersion : Str := []
  name : Str := []
  nspace : Str := []
  configRefs : List ConfigRef := []
deriving DecidableEq, Repr

def K8sDoc.manifest (d : K8sDoc) : Manifest :=
  ⟨d.kind, d.apiVersion, d.name, d.nspace, d.configRefs⟩

/-- What a line can be to a manifest. -/
inductive Role where
  | kind (value : Str)
  | apiVersion (value : Str)
  | name (value : Str)
  | nspace (value : Str)
  | ref (r : ConfigRef)
deriving DecidableEq, Repr

/-- What a scalar is by the path to it. An empty text is neither a kind nor a name. -/
def roleAt (path : List Step) (content : Str) : Option Role :=
  match path.reverse with
  | .key k :: above =>
      if k = "apiVersion".toList ∧ above = [] then some (.apiVersion content)
      else if content = [] then none
      else if k = "kind".toList ∧ above = [] then some (.kind content)
      else if k = "name".toList then
        match above with
        | .key outer :: rest =>
            if outer = "metadata".toList ∧ rest = [] then some (.name content)
            else (refKindOf outer).map fun kind => .ref ⟨kind, content⟩
        | _ => none
      else if k = "namespace".toList ∧ above = [.key "metadata".toList] then
        some (.nspace content)
      else if k = "secretName".toList then some (.ref ⟨"Secret".toList, content⟩)
      else if k = "serviceName".toList then some (.ref ⟨"Service".toList, content⟩)
      else none
  | _ => none

/-- What the tree says a line is. -/
def meantRole (r : Row) : Option Role :=
  match r.body with
  | .entry _ (some (.scalar s)) => roleAt r.path s.content
  | _ => none

def Manifest.absorb (m : Manifest) : Role → Manifest
  | .kind v => { m with kind := v }
  | .apiVersion v => { m with apiVersion := v }
  | .name v => { m with name := v }
  | .nspace v => { m with nspace := v }
  | .ref r => { m with configRefs := pushRef m.configRefs r.kind r.name }

/-- The manifest of a document. -/
def meant (d : Document) : Manifest := (d.rows.filterMap meantRole).foldl Manifest.absorb {}

/-! ### What the scan takes a line for -/

/-- The key and the value of a line of a tree. Behind one dash a line reads like one without, behind
two it is split as it stands, and so is a line of a literal. -/
def rowEntry (r : Row) : Option (Str × Str) :=
  match r.body with
  | .literal _ => entryOf (trim r.text)
  | body =>
      match r.dashes, body with
      | [], .entry key value | [_], .entry key value =>
          some (key.1, (value.map Inline.text).getD [])
      | [], body => splitKey body.text
      | _ :: dashes, body => splitKey (dashes.flatMap dashText ++ body.text)

/-- The key and the value of a line that is looked at. -/
def seen (r : Row) : Option (Str × Str) := if skipped r then none else rowEntry r

/-- The marker that waits for its `name`, with its column: the nearest one before, if no `name` has
come since and all keys since are deeper. -/
def pending : List Row → Option (Nat × Str)
  | [] => none
  | r :: before =>
      match seen r with
      | none => pending before
      | some (k, _) =>
          match fieldOf k with
          | .name => none
          | .marker kind => some (column r, kind)
          | _ => if isNameKey k then pending before else (pending before).filter (·.1 < column r)

/-- The column of the `metadata` block that is open: all keys since are deeper. -/
def openMetadata : List Row → Option Nat
  | [] => none
  | r :: before =>
      match seen r with
      | none => openMetadata before
      | some (k, _) =>
          match fieldOf k with
          | .metadata => if column r = 0 then some 0 else openMetadata before
          | _ => (openMetadata before).filter (· < column r)

/-- What a line is taken for: behind those before it, of which `m` has been read. -/
def roleIn (m : Manifest) (before : List Row) (r : Row) : Option Role :=
  match seen r with
  | none => none
  | some (k, v) =>
      let content := unquote v
      let inside := (openMetadata before).any (· < column r)
      match fieldOf k with
      | .apiVersion => if column r = 0 then some (.apiVersion content) else none
      | .kind =>
          if column r = 0 ∧ m.kind = [] ∧ content ≠ [] then some (.kind content) else none
      | .name =>
          if content = [] then none
          else
            match pending before with
            | some (_, kind) => some (.ref ⟨kind, content⟩)
            | none => if inside && m.name.isEmpty then some (.name content) else none
      | .nspace =>
          if inside && m.nspace.isEmpty && !content.isEmpty then some (.nspace content) else none
      | .secretName => if content = [] then none else some (.ref ⟨"Secret".toList, content⟩)
      | .serviceName => if content = [] then none else some (.ref ⟨"Service".toList, content⟩)
      | _ => none

/-- What has been read on some lines, the last one first. -/
def found : List Row → Manifest
  | [] => {}
  | r :: before => ((roleIn (found before) before r).map (found before).absorb).getD (found before)

/-- What a line is taken for behind those before it. -/
def readRole (before : List Row) (r : Row) : Option Role := roleIn (found before) before r

/-- What is read of a document. -/
def readManifest (d : Document) : Manifest := found d.rows.reverse

/-! ### One line -/

/-- Behind its indentation a line that is of no literal reads as its key and value. -/
theorem entryOf_text {r : Row} (h : ¬ r.body.IsLiteral) : entryOf r.text = rowEntry r := by
  obtain ⟨indent, dashes, path, body⟩ := r
  have hbody : OwnLine body.text := Body.ownLine h
  change entryOf (dashes.flatMap dashText ++ body.text) = _
  match dashes with
  | [] =>
      cases body with
      | entry key value =>
          change splitKey (((['-', ' '].isPrefixOf? (Body.entry key value).text).map trim).getD
            (Body.entry key value).text) = some (key.1, (value.map Inline.text).getD [])
          rw [strip_entry]
          exact splitKey_entry key value
      | item v =>
          change splitKey (((['-', ' '].isPrefixOf? v.text).map trim).getD v.text) =
            splitKey v.text
          rw [strip_inline]
          rfl
      | literal l => exact absurd trivial h
  | pad :: dashes =>
      have hrest : OwnLine (dashes.flatMap dashText ++ body.text) := dashes_ownLine dashes hbody
      rw [entryOf, List.flatMap_cons, List.append_assoc, strip_dash, Option.map_some,
        Option.getD_some, trim_behind_dash pad hrest]
      match dashes with
      | [] =>
          cases body with
          | entry key value => exact splitKey_entry key value
          | item v => rfl
          | literal l => exact absurd trivial h
      | pad' :: dashes =>
          cases body with
          | literal l => exact absurd trivial h
          | _ => rfl

/-- One line of a tree. -/
theorem scanLine_row (st : ScanState) (r : Row) : scanLine st (stripCr r.raw) =
    match seen r with
    | some (k, v) => (st.leave (column r) k).take (column r) k v
    | none => st := by
  have hentry : skipped r = false → entryOf (trim (stripCr r.raw)) = rowEntry r := by
    intro hskip
    by_cases h : r.body.IsLiteral
    · obtain ⟨l, hbody⟩ := exists_of_isLiteral h
      rw [trim_stripCr_raw, rowEntry, hbody]
    · rw [trim_raw h, entryOf_text h]
  rw [scanLine, indentOf_row, seen]
  cases hskip : skipped r with
  | true =>
      rw [if_pos (skipped_iff.mp hskip)]
      rfl
  | false =>
      have hnot : ¬ (skipped r = true) := by rw [hskip]; exact Bool.false_ne_true
      rw [if_neg fun h => hnot (skipped_iff.mpr h), if_neg Bool.false_ne_true, hentry hskip]

theorem eq_of_fieldOf_name {key : Str} (h : fieldOf key = .name) : key = "name".toList := by
  rw [fieldOf] at h
  split_ifs at h with h₁ h₂ h₃ h₄
  · exact h₄
  · split at h <;> cases h

theorem fieldOf_eq_metadata {key : Str} : fieldOf key = .metadata ↔ key = "metadata".toList := by
  constructor
  · intro h
    rw [fieldOf] at h
    split_ifs at h with h₁ h₂ h₃
    · exact h₃
    · split at h <;> cases h
  · rintro rfl
    decide

/-! ### The state behind some lines -/

def ScanState.manifest (st : ScanState) : Manifest :=
  ⟨st.kind, st.apiVersion, st.name, st.nspace, st.configRefs⟩

/-- The state is the one behind these lines. -/
structure Tracks (st : ScanState) (before : List Row) : Prop where
  manifest : st.manifest = found before
  metadata : st.metadataIndent = openMetadata before
  marker : st.refMarker = pending before

theorem tracks_nil : Tracks {} [] := ⟨rfl, rfl, rfl⟩

theorem isNameKey_of_field {key : Str} (h : fieldOf key = .name) : isNameKey key = true := by
  rw [eq_of_fieldOf_name h]
  simp [isNameKey, eqIgnoreAsciiCase]

/-- A key that does not open the metadata block leaves it where it is no deeper. -/
theorem leave_metadataIndent (st : ScanState) (c : Nat) (key : Str) :
    (st.leave c key).metadataIndent =
      if fieldOf key = .metadata then st.metadataIndent else st.metadataIndent.filter (· < c) := by
  change st.metadataIndent.filter _ = _
  by_cases hkey : key = "metadata".toList
  · rw [if_pos (fieldOf_eq_metadata.mpr hkey)]
    cases st.metadataIndent <;> simp [hkey]
  · rw [if_neg fun h => hkey (fieldOf_eq_metadata.mp h)]
    congr 1
    funext m
    rw [decide_eq_true hkey, Bool.and_true, ← decide_not]
    exact decide_eq_decide.mpr not_le

/-- A key that is not `name` leaves a marker that is no deeper. -/
theorem leave_refMarker (st : ScanState) (c : Nat) (key : Str) :
    (st.leave c key).refMarker =
      if isNameKey key then st.refMarker else st.refMarker.filter (·.1 < c) := by
  change st.refMarker.filter _ = _
  cases hname : isNameKey key with
  | true => cases st.refMarker <;> simp
  | false =>
      rw [if_neg Bool.false_ne_true]
      congr 1
      funext m
      rw [Bool.not_false, Bool.and_true, ← decide_not]
      exact decide_eq_decide.mpr not_le

theorem take_metadataIndent (st : ScanState) (c : Nat) (key value : Str) :
    (st.take c key value).metadataIndent =
      if fieldOf key = .metadata ∧ c = 0 then some 0 else st.metadataIndent := by
  rw [ScanState.take]
  cases fieldOf key with
  | metadata => by_cases hc : c = 0 <;> simp [hc]
  | name => cases st.refMarker <;> simp [apply_ite ScanState.metadataIndent]
  | _ => simp [apply_ite ScanState.metadataIndent]

theorem take_refMarker (st : ScanState) (c : Nat) (key value : Str) :
    (st.take c key value).refMarker =
      match fieldOf key with
      | .name => none
      | .marker kind => some (c, kind)
      | _ => st.refMarker := by
  rw [ScanState.take]
  cases fieldOf key with
  | name =>
      cases hmarker : st.refMarker with
      | some m => rfl
      | none => simp [apply_ite ScanState.refMarker, hmarker]
  | marker kind => rfl
  | _ => simp [apply_ite ScanState.refMarker]

/-- An empty text does not change the field that it is read for while that is empty. -/
theorem take_manifest (st : ScanState) (before : List Row) {r : Row} {key value : Str}
    (hseen : seen r = some (key, value))
    (hmarker : fieldOf key = .name → st.refMarker = pending before)
    (hmetadata : fieldOf key ≠ .metadata → st.metadataIndent.any (· < column r) =
      (openMetadata before).any (· < column r)) :
    (st.take (column r) key value).manifest =
      ((roleIn st.manifest before r).map st.manifest.absorb).getD st.manifest := by
  rw [roleIn, hseen, ScanState.take]
  dsimp only
  have hname : st.manifest.name = st.name := rfl
  have hnspace : st.manifest.nspace = st.nspace := rfl
  rw [hname, hnspace]
  cases hfield : fieldOf key with
  | apiVersion =>
      dsimp only
      by_cases hc : column r = 0
      · rw [if_pos hc, if_pos hc]
        rfl
      · rw [if_neg hc, if_neg hc]
        rfl
  | kind =>
      dsimp only
      by_cases hc : column r = 0 ∧ st.kind = []
      · rw [if_pos hc]
        by_cases hcontent : unquote value = []
        · rw [if_neg fun h => h.2.2 hcontent, hcontent, ← hc.2]
          rfl
        · have hpos : column r = 0 ∧ st.manifest.kind = [] ∧ unquote value ≠ [] :=
            ⟨hc.1, hc.2, hcontent⟩
          rw [if_pos hpos]
          rfl
      · have hneg : ¬ (column r = 0 ∧ st.manifest.kind = [] ∧ unquote value ≠ []) :=
          fun h => hc ⟨h.1, h.2.1⟩
        rw [if_neg hc, if_neg hneg]
        rfl
  | name =>
      dsimp only
      rw [hmarker hfield, hmetadata (by rw [hfield]; exact Field.noConfusion)]
      cases pending before with
      | some m =>
          by_cases hcontent : unquote value = []
          · rw [if_pos hcontent, hcontent]
            rfl
          · rw [if_neg hcontent]
            rfl
      | none =>
          dsimp only
          by_cases hcontent : unquote value = []
          · rw [if_pos hcontent, hcontent]
            split
            · rename_i h
              rw [← List.isEmpty_iff.mp (Bool.and_eq_true_iff.mp h).2]
              rfl
            · rfl
          · rw [if_neg hcontent]
            by_cases h : ((openMetadata before).any (· < column r) && st.name.isEmpty) = true
            · rw [if_pos h, if_pos h]
              rfl
            · rw [if_neg h, if_neg h]
              rfl
  | nspace =>
      dsimp only
      rw [hmetadata (by rw [hfield]; exact Field.noConfusion)]
      cases h : (openMetadata before).any (· < column r) && st.nspace.isEmpty with
      | true =>
          rw [if_pos rfl, Bool.true_and]
          cases hcontent : (unquote value).isEmpty with
          | true =>
              rw [List.isEmpty_iff.mp hcontent, ← List.isEmpty_iff.mp (Bool.and_eq_true_iff.mp h).2]
              rfl
          | false => rfl
      | false => rfl
  | secretName =>
      dsimp only
      by_cases hcontent : unquote value = []
      · rw [if_pos hcontent, hcontent]
        rfl
      · rw [if_neg hcontent]
        rfl
  | serviceName =>
      dsimp only
      by_cases hcontent : unquote value = []
      · rw [if_pos hcontent, hcontent]
        rfl
      · rw [if_neg hcontent]
        rfl
  | metadata =>
      dsimp only
      split <;> rfl
  | _ => rfl

/-- A line keeps the state that of the lines. -/
theorem Tracks.step {st : ScanState} {before : List Row} (h : Tracks st before) (r : Row) :
    Tracks (scanLine st (stripCr r.raw)) (r :: before) := by
  rw [scanLine_row]
  cases hseen : seen r with
  | none =>
      constructor
      · rw [found, roleIn, hseen]
        exact h.manifest
      · rw [openMetadata, hseen]
        exact h.metadata
      · rw [pending, hseen]
        exact h.marker
  | some kv =>
      obtain ⟨k, v⟩ := kv
      have hmetadata := leave_metadataIndent st (column r) k
      have hmarker := leave_refMarker st (column r) k
      rw [h.metadata] at hmetadata
      rw [h.marker] at hmarker
      constructor
      · have htake := take_manifest (st.leave (column r) k) before hseen ?_ ?_
        · rw [htake, found, ← h.manifest]
          rfl
        · intro hfield
          rw [hmarker, if_pos (isNameKey_of_field hfield)]
        · intro hfield
          rw [hmetadata, if_neg hfield]
          cases openMetadata before with
          | none => rfl
          | some m => by_cases hm : m < column r <;> simp [hm]
      · rw [take_metadataIndent, hmetadata, openMetadata, hseen]
        cases hfield : fieldOf k with
        | metadata => by_cases hc : column r = 0 <;> simp [hfield, hc]
        | _ => simp [hfield]
      · rw [take_refMarker, hmarker, pending, hseen]

theorem Tracks.run {st : ScanState} {before : List Row} (h : Tracks st before) (rows : List Row) :
    Tracks (rows.foldl (fun st r => scanLine st (stripCr r.raw)) st) (rows.reverse ++ before) := by
  induction rows generalizing st before with
  | nil => exact h
  | cons r rows ih =>
      rw [List.foldl_cons, List.reverse_cons, List.append_assoc]
      exact ih (h.step r)

/-- A line ending does not matter to a line. -/
theorem scanLine_stripCr (st : ScanState) (raw : Str) :
    scanLine st (stripCr raw) = scanLine st raw := by
  rw [scanLine, scanLine, indentOf_stripCr, trim_stripCr]

/-! ### One document -/

/-- The lines of a document, read off a file and put together again. -/
def chunkText (d : Document) : Str := unlines (d.rows.map fun r => stripCr r.raw)

theorem lines_chunkText (d : Document) :
    lines (chunkText d) = d.rows.map fun r => stripCr (stripCr r.raw) := by
  rw [chunkText, lines_unlines, List.map_map]
  · rfl
  · intro l hl
    obtain ⟨r, -, rfl⟩ := List.mem_map.mp hl
    exact fun hmem => r.noBreak ((stripCr_isPrefix r.raw).subset hmem)

/-- What the scan returns for a document: nothing if it reads no kind. -/
def result (d : Document) : Option Manifest :=
  if (readManifest d).kind = [] then none else some (readManifest d)

theorem scanDocument_chunkText (d : Document) (startLine : Nat) (templated : Bool) :
    (scanDocument (chunkText d) startLine templated).map K8sDoc.manifest = result d := by
  have hrun := tracks_nil.run d.rows
  have hfold : (lines (chunkText d)).foldl scanLine {} =
      d.rows.foldl (fun st r => scanLine st (stripCr r.raw)) {} := by
    rw [lines_chunkText, List.foldl_map]
    simp only [scanLine_stripCr]
  have hmanifest : ((lines (chunkText d)).foldl scanLine {}).manifest = readManifest d := by
    rw [hfold, hrun.manifest, List.append_nil]
    rfl
  have hkind : ((lines (chunkText d)).foldl scanLine {}).kind = (readManifest d).kind :=
    congrArg Manifest.kind hmanifest
  rw [scanDocument, result, ← hkind]
  split
  · rfl
  · rw [← hmanifest]
    rfl

/-- A text without a word is no document. -/
theorem scanDocument_blank {chunk : Str} (h : trim chunk = []) (startLine : Nat)
    (templated : Bool) : scanDocument chunk startLine templated = none := by
  have hstay : ∀ ls : List Str, (∀ l ∈ ls, Blank l) → ls.foldl scanLine {} = {} := by
    intro ls
    induction ls with
    | nil => exact fun _ => rfl
    | cons l ls ih =>
        intro hls
        have hline : scanLine {} l = {} := if_pos (.inl (trim_blank (hls l List.mem_cons_self)))
        rw [List.foldl_cons, hline]
        exact ih fun l' hl' => hls l' (List.mem_cons_of_mem l hl')
  have hblank : (lines chunk).foldl scanLine {} = {} := by
    apply hstay
    exact fun l hl c hc => blank_of_trim_eq_nil h c (mem_of_mem_lines hl hc)
  rw [scanDocument, hblank]
  rfl

/-! ### Several documents -/

/-- What the lines of a tree have in common: no text of theirs stands alone in column zero. -/
def Standing (r : Row) : Prop :=
  r.dashes = [] → match r.body with
    | .entry _ _ => True
    | .item _ => False
    | .literal _ => 0 < r.indent

theorem dash_standing {column pad : Nat} {rows : List Row} (h : ∀ r ∈ rows, Standing r) :
    ∀ r ∈ dash column pad rows, Standing r := by
  cases rows with
  | nil => exact h
  | cons first rows =>
      intro r hr
      rcases List.mem_cons.mp hr with rfl | hr
      · exact fun hdashes => absurd hdashes (List.cons_ne_nil _ _)
      · exact h r (List.mem_cons_of_mem _ hr)

theorem literal_standing {column : Nat} {path : List Step} {ls : List Line} {r : Row}
    (hr : r ∈ ls.map fun l => (⟨column + 1, [], path, .literal l⟩ : Row)) : Standing r := by
  obtain ⟨l, -, rfl⟩ := List.mem_map.mp hr
  exact fun _ => Nat.succ_pos column

mutual

theorem under_standing (column : Nat) (path : List Step) :
    ∀ n : Node, ∀ r ∈ n.under column path, Standing r
  | .scalar _, r, hr => by
      rw [Node.under] at hr
      cases hr
  | .mapping extra entries, r, hr => by
      rw [Node.under] at hr
      exact entryRows_standing _ path entries r hr
  | .sequence offset items, r, hr => by
      rw [Node.under] at hr
      exact itemRows_standing _ path items r hr
  | .literal extra ls, r, hr => by
      rw [Node.under] at hr
      exact literal_standing hr

theorem entryRows_standing (column : Nat) (path : List Step) :
    ∀ entries : List (Key × Node), ∀ r ∈ entryRows column path entries, Standing r
  | [], r, hr => by
      rw [entryRows] at hr
      cases hr
  | (key, value) :: entries, r, hr => by
      rw [entryRows] at hr
      rcases List.mem_cons.mp hr with rfl | hr
      · exact fun _ => trivial
      · rcases List.mem_append.mp hr with hr | hr
        · exact under_standing column _ value r hr
        · exact entryRows_standing column path entries r hr

theorem itemRows_standing (column : Nat) (path : List Step) :
    ∀ items : List Node, ∀ r ∈ itemRows column path items, Standing r
  | [], r, hr => by
      rw [itemRows] at hr
      cases hr
  | item :: items, r, hr => by
      rw [itemRows.eq_def] at hr
      rcases List.mem_append.mp hr with hr | hr
      · cases item with
        | scalar s => 
            obtain rfl := List.mem_singleton.mp hr
            exact fun hdashes => absurd hdashes (List.cons_ne_nil _ _)
        | mapping extra entries =>
            cases entries with
            | nil => 
                obtain rfl := List.mem_singleton.mp hr
                exact fun hdashes => absurd hdashes (List.cons_ne_nil _ _)
            | cons entry entries =>
                exact dash_standing (entryRows_standing _ _ (entry :: entries)) r hr
        | sequence offset inners =>
            cases inners with
            | nil =>
                obtain rfl := List.mem_singleton.mp hr
                exact fun hdashes => absurd hdashes (List.cons_ne_nil _ _)
            | cons inner inners =>
                exact dash_standing (itemRows_standing _ _ (inner :: inners)) r hr
        | literal extra ls =>
            rcases List.mem_cons.mp hr with rfl | hr
            · exact fun hdashes => absurd hdashes (List.cons_ne_nil _ _)
            · exact literal_standing hr
      · exact itemRows_standing column path items r hr

end

theorem rows_standing {d : Document} {r : Row} (hr : r ∈ d.rows) : Standing r :=
  entryRows_standing 0 [] d r hr

theorem trimEnd_isPrefix (s : Str) : trimEnd s <+: s := List.rdropWhile_prefix isWhitespace s

theorem trimEnd_eq_self {s : Str} (h : Trimmed s) : trimEnd s = s := by
  apply List.rdropWhile_eq_self_iff.mpr
  intro hne
  rw [h.last _ (List.getLast?_eq_getLast_of_ne_nil hne)]
  exact Bool.false_ne_true

theorem colon_mem_entry (key : Key) (value : Option Inline) :
    ':' ∈ (Body.entry key value).text := by
  cases value <;> simp [Body.text]

/-- No line of a tree is a separator. -/
theorem not_separator {r : Row} (h : Standing r) : trimEnd (stripCr r.raw) ≠ separator := by
  intro heq
  obtain ⟨rest, hrest⟩ : separator <+: r.raw :=
    heq ▸ (trimEnd_isPrefix (stripCr r.raw)).trans (stripCr_isPrefix r.raw)
  obtain ⟨indent, dashes, path, body⟩ := r
  cases indent with
  | succ n => exact absurd (List.cons.inj hrest).1 (by decide)
  | zero =>
      cases dashes with
      | cons pad dashes => exact absurd (List.cons.inj (List.cons.inj hrest).2).1 (by decide)
      | nil =>
          have hbody := h rfl
          cases body with
          | item v => exact hbody
          | literal l => exact absurd hbody (Nat.lt_irrefl 0)
          | entry key value =>
              have hown : OwnLine (Body.entry key value).text := Body.ownLine id
              rw [stripCr_raw (r := ⟨0, [], path, .entry key value⟩) id] at heq
              have hself : (Body.entry key value).text = separator :=
                (trimEnd_eq_self hown.trimmed).symm.trans heq
              have hcolon := colon_mem_entry key value
              rw [hself] at hcolon
              exact absurd hcolon (by decide)

/-- The lines of a document go into the chunk. -/
theorem splitLoop_rows (lineNo start : Nat) (current : Str) (rows : List Row)
    (h : ∀ r ∈ rows, Standing r) (rest : List Str) :
    splitLoop lineNo start current (rows.map (fun r => stripCr r.raw) ++ rest) =
      splitLoop (lineNo + rows.length) start
        (current ++ unlines (rows.map fun r => stripCr r.raw)) rest := by
  induction rows generalizing lineNo current with
  | nil => simp [unlines]
  | cons r rows ih =>
      rw [List.map_cons, List.cons_append, splitLoop,
        if_neg (not_separator (h r List.mem_cons_self)),
        ih _ _ fun r' hr' => h r' (List.mem_cons_of_mem r hr'), List.length_cons,
        Nat.add_right_comm, ← Nat.add_assoc]
      simp [unlines]

/-- The lines of a file: its documents, with a separator between them and one before them or not. -/
def fileLines (marked : Bool) : List Document → List Str
  | [] => []
  | d :: ds =>
      (if marked then [separator] else []) ++ (d.rows.map Row.raw ++
        ds.flatMap fun d' => separator :: d'.rows.map Row.raw)

/-- The text of a file. -/
def renderAll (marked : Bool) (ds : List Document) : Str := unlines (fileLines marked ds)

/-- What a chunk comes to. -/
def chunkResult (chunk : Nat × Str) : Option Manifest :=
  (scanDocument chunk.2 chunk.1 (decide (['{', '{'] <:+: chunk.2))).map K8sDoc.manifest

theorem scanChunk_docs (result : ScanResult) (chunk : Nat × Str) :
    (scanChunk result chunk).docs.map K8sDoc.manifest =
      result.docs.map K8sDoc.manifest ++ (chunkResult chunk).toList := by
  rw [scanChunk]
  split
  · rename_i hblank
    rw [chunkResult, scanDocument_blank hblank]
    simp
  · rw [chunkResult]
    dsimp only
    cases scanDocument chunk.2 chunk.1 (decide (['{', '{'] <:+: chunk.2)) with
    | some d => simp
    | none =>
        dsimp only
        split <;> simp

theorem foldl_scanChunk_docs (chunks : List (Nat × Str)) (result : ScanResult) :
    (chunks.foldl scanChunk result).docs.map K8sDoc.manifest =
      result.docs.map K8sDoc.manifest ++ chunks.filterMap chunkResult := by
  induction chunks generalizing result with
  | nil => simp
  | cons chunk chunks ih =>
      rw [List.foldl_cons, ih, scanChunk_docs, List.filterMap_cons]
      cases chunkResult chunk <;> simp

theorem chunkResult_chunkText (start : Nat) (d : Document) :
    chunkResult (start, chunkText d) = result d :=
  scanDocument_chunkText d start (decide (['{', '{'] <:+: chunkText d))

/-- A chunk without a word may be returned or not. -/
theorem filterMap_chunk {blank : Prop} [Decidable blank] (start : Nat) (d : Document)
    (h : blank → trim (chunkText d) = []) :
    (if blank then [] else [(start, chunkText d)]).filterMap chunkResult =
      (result d).toList := by
  rw [← chunkResult_chunkText start d]
  split
  · rename_i hblank
    rw [chunkResult, scanDocument_blank (h hblank)]
    rfl
  · rw [List.filterMap_cons]
    cases chunkResult (start, chunkText d) <;> rfl

theorem filterMap_result_cons (d : Document) (ds : List Document) :
    (d :: ds).filterMap result = (result d).toList ++ ds.filterMap result := by
  rw [List.filterMap_cons]
  cases result d <;> rfl

/-- The lines of the documents behind the first. -/
def laterLines (ds : List Document) : List Str :=
  ds.flatMap fun d => separator :: d.rows.map fun r => stripCr r.raw

theorem trimEnd_separator : trimEnd separator = separator := by decide

/-- A document that stands in the loop, and those behind it. -/
theorem splitLoop_documents (lineNo start : Nat) (d : Document) (ds : List Document) :
    (splitLoop lineNo start (chunkText d) (laterLines ds)).filterMap chunkResult =
      (d :: ds).filterMap result := by
  induction ds generalizing lineNo start d with
  | nil =>
      rw [filterMap_result_cons, List.filterMap_nil, List.append_nil]
      exact filterMap_chunk start d id
  | cons d' ds ih =>
      have hlines : laterLines (d' :: ds) =
          separator :: (d'.rows.map (fun r => stripCr r.raw) ++ laterLines ds) := rfl
      have hemitted := filterMap_chunk start d fun hnil : chunkText d = [] => by rw [hnil]; rfl
      rw [hlines, splitLoop, if_pos trimEnd_separator,
        splitLoop_rows _ _ _ _ fun r hr => rows_standing hr, List.nil_append,
        List.filterMap_append, hemitted, filterMap_result_cons]
      exact congrArg _ (ih _ _ d')

theorem lines_renderAll (marked : Bool) (d : Document) (ds : List Document) :
    lines (renderAll marked (d :: ds)) =
      (if marked then [separator] else []) ++
        (d.rows.map (fun r => stripCr r.raw) ++ laterLines ds) := by
  have hseparator : '\n' ∉ separator := by decide
  have hrows : ∀ d : Document, ∀ l ∈ d.rows.map Row.raw, '\n' ∉ l := by
    intro d l hl
    obtain ⟨r, -, rfl⟩ := List.mem_map.mp hl
    exact r.noBreak
  rw [renderAll, lines_unlines]
  · have hstrip : stripCr separator = separator := by decide
    cases marked <;> simp [fileLines, laterLines, List.map_flatMap, hstrip] <;> rfl
  · intro l hl
    rcases List.mem_append.mp hl with hl | hl
    · split at hl
      · exact List.mem_singleton.mp hl ▸ hseparator
      · cases hl
    · rcases List.mem_append.mp hl with hl | hl
      · exact hrows d l hl
      · obtain ⟨d', -, hl⟩ := List.mem_flatMap.mp hl
        rcases List.mem_cons.mp hl with rfl | hl
        · exact hseparator
        · exact hrows d' l hl

/-- What `scan` returns for the documents of a file. -/
theorem scan_renderAll (marked : Bool) (ds : List Document) :
    (scan (renderAll marked ds)).docs.map K8sDoc.manifest = ds.filterMap result := by
  rw [scan, foldl_scanChunk_docs, splitDocuments]
  cases ds with
  | nil => rfl
  | cons d ds =>
      have hfirst : ∀ lineNo start,
          (splitLoop lineNo start [] (d.rows.map (fun r => stripCr r.raw) ++
            laterLines ds)).filterMap chunkResult = (d :: ds).filterMap result := by
        intro lineNo start
        rw [splitLoop_rows _ _ _ _ fun r hr => rows_standing hr, List.nil_append]
        exact splitLoop_documents _ _ d ds
      rw [lines_renderAll]
      cases marked with
      | false => exact hfirst 0 1
      | true => exact hfirst 1 2

/-! ### When the manifests are those of the trees -/

/-- The document has a kind, and what is read comes to what the tree says, as far as a repetition
or a reference over the cap can tell. -/
def SameFacts (d : Document) : Prop := (meant d).kind ≠ [] ∧ readManifest d = meant d

/-- Each line is taken for what the tree says it is. -/
def Legible (d : Document) : Prop := ∀ c ∈ contexts d.rows, readRole c.1 c.2 = meantRole c.2

instance (d : Document) : Decidable (Legible d) :=
  inferInstanceAs (Decidable (∀ c ∈ contexts d.rows, _))

/-! ### Which lines are taken for what they are -/

/-- The line holds the scalar of a key, behind one dash or none. -/
structure ScalarLine (r : Row) (key : Key) (s : Scalar) : Prop where
  body : r.body = .entry key (some (.scalar s))
  dashes : r.dashes.length ≤ 1

section ScalarLine

variable {before : List Row} {r : Row} {key : Key} {s : Scalar}

theorem ScalarLine.seen_eq (h : ScalarLine r key s) : seen r = some (key.1, s.text) := by
  have hskip : skipped r = false := by rw [skipped, h.body]
  have hdashes := h.dashes
  rw [seen, hskip, if_neg (by decide), rowEntry, h.body]
  cases hcases : r.dashes with
  | nil => rfl
  | cons pad dashes =>
      cases dashes with
      | nil => rfl
      | cons second dashes =>
          rw [hcases] at hdashes
          simp at hdashes

theorem ScalarLine.meantRole_eq (h : ScalarLine r key s) :
    meantRole r = roleAt r.path s.content := by
  rw [meantRole, h.body]

theorem ScalarLine.readRole_name (h : ScalarLine r key s) (hkey : key.1 = "name".toList) :
    readRole before r =
      if unquote s.text = [] then none
      else
        match pending before with
        | some (_, kind) => some (.ref ⟨kind, unquote s.text⟩)
        | none =>
            if (openMetadata before).any (· < column r) && (found before).name.isEmpty then
              some (.name (unquote s.text))
            else none := by
  have hfield : fieldOf key.1 = .name := by rw [hkey]; decide
  rw [readRole, roleIn, h.seen_eq]
  simp only [hfield]

/-- The `name` below a marker is taken for its reference where a marker of its kind waits, so where
it is the first `name` behind that marker and all between is deeper, and needs no escapes. -/
theorem legible_reference_iff (h : ScalarLine r key s) (hkey : key.1 = "name".toList)
    {above : List Step} {outer kind : Str} (hpath : r.path = above ++ [.key outer, .key key.1])
    (hmarker : refKindOf outer = some kind) (hs : s.content ≠ []) :
    readRole before r = meantRole r ↔
      (pending before).map Prod.snd = some kind ∧ Unescaped s := by
  have hmetadata : refKindOf "metadata".toList = none := by decide
  have houter : outer ≠ "metadata".toList := by
    rintro rfl
    rw [hmetadata] at hmarker
    cases hmarker
  have hreverse : (above ++ [Step.key outer, .key "name".toList]).reverse =
      .key "name".toList :: .key outer :: above.reverse := by
    rw [List.reverse_append]
    rfl
  have hmeant : meantRole r = some (.ref ⟨kind, s.content⟩) := by
    rw [h.meantRole_eq, hpath, hkey, roleAt, hreverse]
    dsimp only
    rw [if_neg fun hversion => absurd hversion.1 (by decide), if_neg hs,
      if_neg fun hkind => absurd hkind.1 (by decide), if_pos rfl, if_neg fun h => houter h.1,
      hmarker]
    rfl
  rw [hmeant, h.readRole_name hkey, ← unquote_text_eq_content_iff]
  by_cases hempty : unquote s.text = []
  · rw [if_pos hempty]
    exact iff_of_false nofun fun hright => hs (hright.2 ▸ hempty)
  · rw [if_neg hempty]
    cases pending before with
    | none =>
        refine iff_of_false ?_ (by simp)
        dsimp only
        split <;> simp
    | some m => simp

/-- The name of the manifest is taken for it where no marker waits, it is deeper than the
`metadata` that is open, no name has been found yet, and it needs no escapes. -/
theorem legible_name_iff (h : ScalarLine r key s) (hkey : key.1 = "name".toList)
    (hpath : r.path = [.key "metadata".toList, .key key.1]) (hs : s.content ≠ []) :
    readRole before r = meantRole r ↔ pending before = none ∧
      (openMetadata before).any (· < column r) ∧ (found before).name = [] ∧ Unescaped s := by
  have hreverse : [Step.key "metadata".toList, .key "name".toList].reverse =
      [.key "name".toList, .key "metadata".toList] := rfl
  have hmeant : meantRole r = some (.name s.content) := by
    rw [h.meantRole_eq, hpath, hkey, roleAt, hreverse]
    dsimp only
    rw [if_neg fun hversion => absurd hversion.1 (by decide), if_neg hs,
      if_neg fun hkind => absurd hkind.1 (by decide), if_pos rfl]
    exact if_pos ⟨rfl, rfl⟩
  rw [hmeant, h.readRole_name hkey, ← unquote_text_eq_content_iff]
  by_cases hempty : unquote s.text = []
  · rw [if_pos hempty]
    exact iff_of_false nofun fun hright => hs (hright.2.2.2 ▸ hempty)
  · rw [if_neg hempty]
    cases pending before with
    | none => simp [and_assoc]
    | some m => simp

/-- A `name` that is neither the manifest's nor below a marker is passed over where no marker waits
and it is no name of the manifest that is looked for. -/
theorem legible_other_name_iff (h : ScalarLine r key s) (hkey : key.1 = "name".toList)
    (hother : meantRole r = none) (hs : unquote s.text ≠ []) :
    readRole before r = meantRole r ↔ pending before = none ∧
      ((openMetadata before).any (· < column r) → (found before).name ≠ []) := by
  rw [hother, h.readRole_name hkey, if_neg hs]
  cases pending before with
  | none => simp
  | some m => simp

/-- The namespace of the manifest is taken for it in the same way, whatever waits. -/
theorem legible_nspace_iff (h : ScalarLine r key s) (hkey : key.1 = "namespace".toList)
    (hpath : r.path = [.key "metadata".toList, .key key.1]) (hs : s.content ≠ []) :
    readRole before r = meantRole r ↔ (openMetadata before).any (· < column r) ∧
      (found before).nspace = [] ∧ Unescaped s := by
  have hmeant : meantRole r = some (.nspace s.content) := by
    have hreverse : [Step.key "metadata".toList, .key "namespace".toList].reverse =
        [.key "namespace".toList, .key "metadata".toList] := rfl
    rw [h.meantRole_eq, hpath, hkey, roleAt, hreverse]
    dsimp only
    rw [if_neg fun hversion => absurd hversion.1 (by decide), if_neg hs,
      if_neg fun hkind => absurd hkind.1 (by decide), if_neg (by decide)]
    exact if_pos ⟨rfl, rfl⟩
  have hfield : fieldOf key.1 = .nspace := by rw [hkey]; decide
  rw [hmeant, readRole, roleIn, h.seen_eq, ← unquote_text_eq_content_iff]
  simp only [hfield]
  constructor
  · intro hread
    split at hread
    · rename_i hin
      simp only [Bool.and_eq_true, List.isEmpty_iff] at hin
      exact ⟨hin.1.1, hin.1.2, Role.nspace.inj (Option.some.inj hread)⟩
    · cases hread
  · rintro ⟨hdeep, hfirst, htext⟩
    simp [hdeep, hfirst, htext, hs]

/-- A `secretName` is taken for its reference where it needs no escapes. -/
theorem legible_secretName_iff (h : ScalarLine r key s) (hkey : key.1 = "secretName".toList)
    {above : List Step} (hpath : r.path = above ++ [.key key.1]) (hs : s.content ≠ []) :
    readRole before r = meantRole r ↔ Unescaped s := by
  have hmeant : meantRole r = some (.ref ⟨"Secret".toList, s.content⟩) := by
    rw [h.meantRole_eq, hpath, hkey, roleAt, List.reverse_concat]
    dsimp only
    rw [if_neg fun hversion => absurd hversion.1 (by decide), if_neg hs,
      if_neg fun hkind => absurd hkind.1 (by decide), if_neg (by decide),
      if_neg fun hnspace => absurd hnspace.1 (by decide), if_pos rfl]
  have hfield : fieldOf key.1 = .secretName := by rw [hkey]; decide
  rw [hmeant, readRole, roleIn, h.seen_eq, ← unquote_text_eq_content_iff]
  simp only [hfield]
  by_cases hempty : unquote s.text = []
  · rw [if_pos hempty]
    exact iff_of_false nofun fun hright => hs (hright ▸ hempty)
  · rw [if_neg hempty]
    simp

end ScalarLine

/-- The place of a manifest that a line fills. -/
def Role.slot : Role → Role
  | .kind _ => .kind []
  | .apiVersion _ => .apiVersion []
  | .name _ => .name []
  | .nspace _ => .nspace []
  | .ref r => .ref r

/-- No place of the manifest is filled twice, the version is not empty, and the cap is not
reached. -/
structure Distinct (d : Document) : Prop where
  apart : Apart (contexts d.rows) (fun c => (readRole c.1 c.2).map Role.slot)
    (fun c => (meantRole c.2).map Role.slot)
  version : ∀ c ∈ contexts d.rows, readRole c.1 c.2 ≠ some (.apiVersion []) ∧
    meantRole c.2 ≠ some (.apiVersion [])
  refs : (meant d).configRefs.length < maxRefs

theorem found_append (rows before : List Row) : found (rows.reverse ++ before) =
    ((contextsFrom before rows).filterMap fun c => readRole c.1 c.2).foldl Manifest.absorb
      (found before) := by
  induction rows generalizing before with
  | nil => rfl
  | cons r rows ih =>
      rw [List.reverse_cons, List.append_assoc, contextsFrom, List.filterMap_cons]
      have hnext := ih (r :: before)
      rw [found] at hnext
      rw [List.singleton_append, hnext, readRole]
      cases roleIn (found before) before r <;> rfl

theorem readManifest_eq (d : Document) : readManifest d =
    ((contexts d.rows).filterMap fun c => readRole c.1 c.2).foldl Manifest.absorb {} := by
  have happend := found_append d.rows []
  rwa [List.append_nil] at happend

theorem meant_eq (d : Document) : meant d =
    ((contexts d.rows).filterMap fun c => meantRole c.2).foldl Manifest.absorb {} := by
  rw [filterMap_contexts]
  rfl

theorem sameFacts_of_legible {d : Document} (hkind : (meant d).kind ≠ []) (h : Legible d) :
    SameFacts d := by
  refine ⟨hkind, ?_⟩
  rw [readManifest_eq, meant_eq, List.filterMap_congr h]

/-- What a role holds. -/
def Role.value : Role → Str
  | .kind v | .apiVersion v | .name v | .nspace v => v
  | .ref r => r.name

/-- A manifest has what a role holds. -/
def Manifest.Has (m : Manifest) : Role → Prop
  | .kind v => v ≠ [] ∧ m.kind = v
  | .apiVersion v => v ≠ [] ∧ m.apiVersion = v
  | .name v => v ≠ [] ∧ m.name = v
  | .nspace v => v ≠ [] ∧ m.nspace = v
  | .ref r => r ∈ m.configRefs

/-- What holds of a text in a place that held another, or none. -/
theorem filled_iff {v w old : Str} {same : Prop} (hv : v ≠ []) (hsame : same ↔ w = v)
    (hfree : ¬ (w ≠ [] ∧ old = w)) : (w ≠ [] ∧ v = w) ↔ same ∨ (w ≠ [] ∧ old = w) := by
  constructor
  · rintro ⟨-, heq⟩
    exact .inl (hsame.mpr heq.symm)
  · rintro (heq | hold)
    · obtain rfl := hsame.mp heq
      exact ⟨hv, rfl⟩
    · exact absurd hold hfree

/-- A role that fills a free place is added, and nothing is lost. -/
theorem has_absorb {m : Manifest} {a : Role} (hvalue : a.value ≠ [])
    (hfree : ∀ c, m.Has c → c.slot ≠ a.slot) (hroom : m.configRefs.length < maxRefs) (b : Role) :
    (m.absorb a).Has b ↔ b = a ∨ m.Has b := by
  cases a with
  | kind v =>
      cases b with
      | kind w =>
          apply filled_iff hvalue
          · exact iff_of_eq (Role.kind.injEq w v)
          · exact fun hhas => hfree (.kind w) hhas rfl
      | _ => simp [Manifest.absorb, Manifest.Has]
  | apiVersion v =>
      cases b with
      | apiVersion w =>
          apply filled_iff hvalue
          · exact iff_of_eq (Role.apiVersion.injEq w v)
          · exact fun hhas => hfree (.apiVersion w) hhas rfl
      | _ => simp [Manifest.absorb, Manifest.Has]
  | name v =>
      cases b with
      | name w =>
          apply filled_iff hvalue
          · exact iff_of_eq (Role.name.injEq w v)
          · exact fun hhas => hfree (.name w) hhas rfl
      | _ => simp [Manifest.absorb, Manifest.Has]
  | nspace v =>
      cases b with
      | nspace w =>
          apply filled_iff hvalue
          · exact iff_of_eq (Role.nspace.injEq w v)
          · exact fun hhas => hfree (.nspace w) hhas rfl
      | _ => simp [Manifest.absorb, Manifest.Has]
  | ref r =>
      have hnew : r ∉ m.configRefs := fun hmem => hfree (.ref r) hmem rfl
      have hpush : pushRef m.configRefs r.kind r.name = m.configRefs ++ [r] := by
        have hname : ¬ (r.name = [] ∨ maxRefs ≤ m.configRefs.length) :=
          not_or.mpr ⟨hvalue, not_le.mpr hroom⟩
        rw [pushRef, if_neg hname, if_pos hnew]
      cases b with
      | ref w =>
          change w ∈ pushRef m.configRefs r.kind r.name ↔ _
          rw [hpush, List.mem_append, List.mem_singleton, Role.ref.injEq, or_comm]
          rfl
      | _ => simp [Manifest.absorb, Manifest.Has]

theorem length_le_absorb (m : Manifest) (a : Role) :
    m.configRefs.length ≤ (m.absorb a).configRefs.length := by
  cases a with
  | ref r =>
      change _ ≤ (pushRef m.configRefs r.kind r.name).length
      rw [pushRef]
      split_ifs <;> simp
  | _ => exact Nat.le_refl _

theorem length_le_foldl_absorb (roles : List Role) (m : Manifest) :
    m.configRefs.length ≤ (roles.foldl Manifest.absorb m).configRefs.length := by
  induction roles generalizing m with
  | nil => exact Nat.le_refl _
  | cons a roles ih => exact (length_le_absorb m a).trans (ih (m.absorb a))

/-- Roles for different places are all in the manifest. -/
theorem has_foldl_absorb {roles : List Role} {m : Manifest} (hvalue : ∀ a ∈ roles, a.value ≠ [])
    (hnodup : (roles.map Role.slot).Nodup) (hfree : ∀ a ∈ roles, ∀ c, m.Has c → c.slot ≠ a.slot)
    (hroom : (roles.foldl Manifest.absorb m).configRefs.length < maxRefs) (b : Role) :
    (roles.foldl Manifest.absorb m).Has b ↔ b ∈ roles ∨ m.Has b := by
  induction roles generalizing m with
  | nil => simp
  | cons a roles ih =>
      have hroom' : m.configRefs.length < maxRefs :=
        lt_of_le_of_lt (length_le_foldl_absorb (a :: roles) m) hroom
      have hstep := has_absorb (hvalue a List.mem_cons_self) (hfree a List.mem_cons_self) hroom'
      obtain ⟨hnot, hrest⟩ := List.nodup_cons.mp hnodup
      rw [List.foldl_cons, ih (fun a' ha' => hvalue a' (List.mem_cons_of_mem a ha')) hrest ?_ hroom,
        hstep, List.mem_cons, ← or_assoc, or_comm (a := b ∈ roles)]
      intro a' ha' c hc
      rcases (hstep c).mp hc with rfl | hc
      · exact fun heq => hnot (heq ▸ List.mem_map_of_mem ha')
      · exact hfree a' (List.mem_cons_of_mem a ha') c hc

/-- A line is taken for a text, or for the version. -/
def Role.Said (a : Role) : Prop := a.value ≠ [] ∨ a = .apiVersion []

theorem said_of_some {a b : Role} (h : some b = some a) (hb : b.Said) : a.Said :=
  Option.some.inj h ▸ hb

theorem said_apiVersion (v : Str) : (Role.apiVersion v).Said := by
  by_cases hv : v = []
  · exact .inr (congrArg Role.apiVersion hv)
  · exact .inl hv

theorem said_of_roleIn {m : Manifest} {before : List Row} {r : Row} {a : Role}
    (h : roleIn m before r = some a) : a.Said := by
  rw [roleIn] at h
  split at h
  · cases h
  · dsimp only at h
    split at h
    · split at h
      · exact said_of_some h (said_apiVersion _)
      · cases h
    · split at h
      · rename_i hc
        exact said_of_some h (.inl hc.2.2)
      · cases h
    · split at h
      · cases h
      · rename_i hne
        split at h
        · exact said_of_some h (.inl hne)
        · split at h
          · exact said_of_some h (.inl hne)
          · cases h
    · split at h
      · rename_i hc
        have hne := List.isEmpty_eq_false_iff.mp
          (Bool.not_eq_eq_eq_not.mp (Bool.and_eq_true_iff.mp hc).2)
        exact said_of_some h (.inl hne)
      · cases h
    · split at h
      · cases h
      · rename_i hne
        exact said_of_some h (.inl hne)
    · split at h
      · cases h
      · rename_i hne
        exact said_of_some h (.inl hne)
    · cases h

theorem said_of_roleAt {path : List Step} {content : Str} {a : Role}
    (h : roleAt path content = some a) : a.Said := by
  rw [roleAt] at h
  split at h
  · split_ifs at h with hversion hnil hkind hname hnspace hsecret hservice
    · exact said_of_some h (said_apiVersion content)
    · exact said_of_some h (.inl hnil)
    · split at h
      · split_ifs at h
        · exact said_of_some h (.inl hnil)
        · obtain ⟨kind, -, rfl⟩ := Option.map_eq_some_iff.mp h
          exact .inl hnil
      · cases h
    · exact said_of_some h (.inl hnil)
    · exact said_of_some h (.inl hnil)
    · exact said_of_some h (.inl hnil)
  · cases h

theorem said_of_meantRole {r : Row} {a : Role} (h : meantRole r = some a) : a.Said := by
  rw [meantRole] at h
  split at h
  · exact said_of_roleAt h
  · cases h

/-- What is picked of the lines is what the manifest has. -/
theorem mem_iff_has {l : List (List Row × Row)} {f : List Row × Row → Option Role}
    (hsaid : ∀ c ∈ l, ∀ a, f c = some a → a.Said ∧ a ≠ .apiVersion [])
    (hnodup : (l.filterMap fun c => (f c).map Role.slot).Nodup)
    (hroom : ((l.filterMap f).foldl Manifest.absorb {}).configRefs.length < maxRefs) (b : Role) :
    b ∈ l.filterMap f ↔ ((l.filterMap f).foldl Manifest.absorb {}).Has b := by
  have hempty : ∀ b, ¬ ({} : Manifest).Has b := by
    intro b hb
    cases b with
    | ref r => cases hb
    | _ => exact hb.1 hb.2.symm
  rw [has_foldl_absorb ?_ ?_ ?_ hroom, or_iff_left (hempty b)]
  · intro a ha
    obtain ⟨c, hc, hca⟩ := List.mem_filterMap.mp ha
    exact (hsaid c hc a hca).1.resolve_right (hsaid c hc a hca).2
  · rwa [List.map_filterMap]
  · exact fun a _ c hc => absurd hc (hempty c)

theorem legible_of_sameFacts {d : Document} (hd : Distinct d) (h : SameFacts d) : Legible d := by
  have heq := h.2
  have hroom := hd.refs
  have hread := mem_iff_has (l := contexts d.rows) (f := fun c => readRole c.1 c.2)
    (fun c hc a ha => ⟨said_of_roleIn ha, fun hv => (hd.version c hc).1 (hv ▸ ha)⟩)
    (hd.apart.nodup (nodup_contexts d.rows)) (by rwa [← readManifest_eq, heq])
  have hmeant := mem_iff_has (l := contexts d.rows) (f := fun c => meantRole c.2)
    (fun c hc a ha => ⟨said_of_meantRole ha, fun hv => (hd.version c hc).2 (hv ▸ ha)⟩)
    (hd.apart.symm.nodup (nodup_contexts d.rows)) (by rwa [← meant_eq])
  apply hd.apart.of_map.pointwise
  intro b
  rw [hread, hmeant, ← readManifest_eq, ← meant_eq, heq]

/-- `scan` returns the manifests of the trees exactly where what it reads comes to them. -/
theorem scan_eq_iff (marked : Bool) (ds : List Document) :
    (scan (renderAll marked ds)).docs.map K8sDoc.manifest = ds.map meant ↔
      ∀ d ∈ ds, SameFacts d := by
  rw [scan_renderAll, List.filterMap_eq_map_iff_forall_eq_some]
  refine forall₂_congr fun d _ => ?_
  rw [result, SameFacts]
  constructor
  · intro h
    split at h
    · cases h
    · rename_i hkind
      obtain heq := Option.some.inj h
      exact ⟨heq ▸ hkind, heq⟩
  · rintro ⟨hkind, heq⟩
    rw [heq, if_neg hkind]

/-- Each document has a kind, and each line of it is taken for what the tree says it is. -/
def AllLegible (ds : List Document) : Prop := ∀ d ∈ ds, (meant d).kind ≠ [] ∧ Legible d

instance (ds : List Document) : Decidable (AllLegible ds) :=
  inferInstanceAs (Decidable (∀ d ∈ ds, _))

theorem scan_of_allLegible (marked : Bool) {ds : List Document} (h : AllLegible ds) :
    (scan (renderAll marked ds)).docs.map K8sDoc.manifest = ds.map meant := by
  rw [scan_eq_iff]
  exact fun d hd => sameFacts_of_legible (h d hd).1 (h d hd).2

/-- `scan` returns the manifests of the documents one for one exactly where what it reads comes to
them. That is so where each line is taken for what the tree says it is, and only there if no place
of a manifest is filled twice. -/
theorem scan_iff (marked : Bool) (ds : List Document) :
    ((scan (renderAll marked ds)).docs.map K8sDoc.manifest = ds.map meant ↔
      ∀ d ∈ ds, SameFacts d) ∧
    (AllLegible ds → (scan (renderAll marked ds)).docs.map K8sDoc.manifest = ds.map meant) ∧
    ((∀ d ∈ ds, Distinct d) →
      ((scan (renderAll marked ds)).docs.map K8sDoc.manifest = ds.map meant ↔ AllLegible ds)) := by
  refine ⟨scan_eq_iff marked ds, scan_of_allLegible marked, fun hdistinct => ?_⟩
  constructor
  · intro hscan d hd
    have hsame := (scan_eq_iff marked ds).mp hscan d hd
    exact ⟨hsame.1, legible_of_sameFacts (hdistinct d hd) hsame⟩
  · exact scan_of_allLegible marked

/-- A volume that names its secret with `secretName`. -/
def secretVolume : Node :=
  .mapping 0
    [(⟨"name".toList, by decide +kernel⟩, .scalar (.plain "certs".toList (by decide +kernel))),
      (⟨"secret".toList, by decide +kernel⟩, .mapping 1
        [(⟨"secretName".toList, by decide +kernel⟩, .scalar (.double "tls".toList))])]

/-- A volume of no secret. -/
def emptyVolume : Node :=
  .mapping 0
    [(⟨"name".toList, by decide +kernel⟩, .scalar (.plain "data".toList (by decide +kernel))),
      (⟨"emptyDir".toList, by decide +kernel⟩, .mapping 0 [])]

/-- A pod with these volumes. -/
def podWith (volumes : List Node) : Document :=
  [(⟨"apiVersion".toList, by decide +kernel⟩, .scalar (.plain "v1".toList (by decide +kernel))),
    (⟨"kind".toList, by decide +kernel⟩, .scalar (.plain "Pod".toList (by decide +kernel))),
    (⟨"metadata".toList, by decide +kernel⟩, .mapping 1
      [(⟨"name".toList, by decide +kernel⟩, .scalar (.plain "web".toList (by decide +kernel)))]),
    (⟨"spec".toList, by decide +kernel⟩, .mapping 1
      [(⟨"volumes".toList, by decide +kernel⟩, .sequence 0 volumes)])]

example : AllLegible [podWith [emptyVolume, secretVolume]] := by decide +kernel

/-- The marker of the secret takes the name of the next volume. -/
theorem podWith_not_scanned : ¬ ∀ marked ds, (∀ d ∈ ds, (meant d).kind ≠ []) →
    (scan (renderAll marked ds)).docs.map K8sDoc.manifest = ds.map meant := by
  intro h
  have hpod := h false [podWith [secretVolume, emptyVolume]] (by decide +kernel)
  exact absurd hpod (by decide +kernel)

end AutomatisedPipeline.K8s

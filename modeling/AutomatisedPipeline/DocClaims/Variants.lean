import AutomatisedPipeline.DocClaims.Sound

/-!
When the verdicts on counts are right: entry points and enum variants together.

The variants of an enum that a build has lie between those that no attribute gates and
all of them (`variantsIn_range`). The code reads the first enum with a body on the line
of the one it is asked about, so a verdict is right about every number in that range
exactly where the enum it reads has, if it has as many variants, at least as many gated
ones (`variantSound_iff`).
-/

namespace AutomatisedPipeline.DocClaims

open Text Cfg
open Indexer (owningFile)

/-! ### The variants of a build -/

/-- The variants of an enum declaration, no more than a `u64` counts. -/
structure EnumVariants where
  list : List Level
  fits : list.length < 2 ^ 64

namespace EnumVariants

variable (reading : Node → Meta)

/-- A variant with a `cfg` of its own, or a `cfg_attr` that adds one. -/
def gatedBy (variant : Level) : Bool :=
  (precedingAttributes variant.before).any fun attr => (reading attr).gates

/-- How many variants the compiler may leave out. -/
def gatedCount (own : EnumVariants) : Nat := own.list.countP (gatedBy reading)

/-- How many variants a build has. -/
def variantsIn (b : Build) (own : EnumVariants) : Nat :=
  own.list.countP fun variant =>
    (precedingAttributes variant.before).all fun attr => (reading attr).kept b

theorem gatedCount_le (own : EnumVariants) : own.gatedCount reading ≤ own.list.length :=
  List.countP_le_length

end EnumVariants

/-! ### The enum the code reads -/

/-- The body of the first enum with a body that starts on a line. -/
def firstEnum (root : Node) (line : Nat) : Option Node :=
  ((items root .enumItem).filter (·.item.node.line = line)).findSome?
    (·.item.node.childByFieldName .body)

/-- How many variants of a body the checker takes for gated. -/
def gatedVariants (body : Node) : Nat :=
  (variantsOf body).countP fun variant => ownAttributesNameCfg variant.before

theorem find?_enumShapes (places : List Place) (line : Nat) :
    (places.filterMap fun place =>
        (place.item.node.childByFieldName .body).map (enumShape place.item.node)).find?
          (·.line = line) =
      ((places.filter (·.item.node.line = line)).findSome?
        (·.item.node.childByFieldName .body)).map fun body =>
          ⟨line, (variantsOf body).length, gatedVariants body⟩ := by
  induction places with
  | nil => rfl
  | cons place places ih =>
      rw [List.filterMap_cons, List.filter_cons]
      cases hbody : place.item.node.childByFieldName .body with
      | none =>
          by_cases hline : place.item.node.line = line
          · simp [hline, hbody, ih]
          · simp [hline, ih]
      | some body =>
          by_cases hline : place.item.node.line = line
          · simp [hline, hbody, enumShape, gatedVariants]
          · simp [hline, ih, enumShape]

theorem find?_shapes (root : Node) (line : Nat) :
    ((items root .enumItem).filterMap fun place =>
        (place.item.node.childByFieldName .body).map (enumShape place.item.node)).find?
          (·.line = line) =
      (firstEnum root line).map fun body =>
        ⟨line, (variantsOf body).length, gatedVariants body⟩ :=
  find?_enumShapes (items root .enumItem) line

theorem rustGatedVariants_ok_iff {repo : Repository} {enumId location : Str}
    {line declared gated : Nat} :
    rustGatedVariants repo enumId line declared = .ok (gated, location) ↔
      location = owningFile enumId ++ ':' :: digits line ∧
        ∃ source root body, repo.read (owningFile enumId) = .ok source ∧
          repo.parse source = .ok root ∧ firstEnum root line = some body ∧
            (variantsOf body).length = declared ∧ gatedVariants body = gated := by
  constructor
  · intro h
    simp only [rustGatedVariants] at h
    split at h
    · cases h
    · rename_i source hread
      split at h
      · cases h
      · rename_i shapes hshapes
        unfold enumShapes at hshapes
        split at hshapes
        · cases hshapes
        · rename_i root hparse
          cases hshapes
          rw [find?_shapes] at h
          cases hfirst : firstEnum root line with
          | none =>
              rw [hfirst] at h
              cases h
          | some body =>
              simp only [hfirst, Option.map_some] at h
              split_ifs at h with hlength
              cases h
              exact ⟨rfl, source, root, body, hread, hparse, hfirst, not_not.mp hlength, rfl⟩
  · rintro ⟨rfl, source, root, body, hread, hparse, hfirst, rfl, rfl⟩
    simp only [rustGatedVariants, enumShapes, hread, hparse, find?_shapes, hfirst,
      Option.map_some, ne_eq, not_true_eq_false, if_false]

/-! ### When the verdicts on variants are sound -/

theorem variantVerdict_contradicted {expected : Expected} {declared gated k : Nat}
    {claimed : Str} (hfits : declared < 2 ^ 64)
    (h : (variantVerdict expected declared gated claimed).verdict = .contradicted)
    (hlow : declared - gated ≤ k) (hhigh : k ≤ declared) : ¬expected.Holds k := by
  cases expected with
  | exact n =>
      simp only [variantVerdict] at h
      split_ifs at h with hout
      · simp only [Expected.Holds]
        omega
      · cases h
  | atLeast n =>
      simp only [variantVerdict] at h
      split_ifs at h with hout
      · rw [u64Max] at hout
        simp only [Expected.Holds]
        omega
      · cases h

theorem variantVerdict_supported {expected : Expected} {declared gated k : Nat} {claimed : Str}
    (h : (variantVerdict expected declared gated claimed).verdict = .supported)
    (hlow : declared - gated ≤ k) (hhigh : k ≤ declared) : expected.Holds k := by
  cases expected with
  | exact n =>
      simp only [variantVerdict] at h
      split_ifs at h with hout hcertain
      · simp only [beq_iff_eq] at hcertain
        simp only [Expected.Holds]
        omega
      · cases h
  | atLeast n =>
      simp only [variantVerdict] at h
      split_ifs at h with hout hcertain
      · simp only [decide_eq_true_eq] at hcertain
        exact hcertain.trans hlow
      · cases h

theorem variantVerdict_atLeast_ungated {declared gated : Nat} (hfits : declared < 2 ^ 64)
    (claimed : Str) :
    (variantVerdict (.atLeast (declared - gated)) declared gated claimed).verdict =
      .supported := by
  have hin : ¬(u64Max < declared - gated ∨ declared - gated > declared) := by
    rw [u64Max]
    omega
  simp [variantVerdict, hin]

section Sound

variable (reading : Node → Meta)

/-- The verdicts on the variants of a Rust enum are sound: the gated variants are no
more than the declared ones, a contradicted claim is wrong about every number of
variants between the ungated and the declared ones, and a supported one is right about
every such number. -/
def VariantSound (repo : Repository) (enumId : Str) (line : Nat) (own : EnumVariants) : Prop :=
  (∀ gated location, rustGatedVariants repo enumId line own.list.length = .ok (gated, location) →
      gated ≤ own.list.length) ∧
    ∀ expected claimed,
      ((rustVariantVerdict repo enumId line own.list.length expected claimed).verdict =
          .contradicted →
        ∀ k, own.list.length - own.gatedCount reading ≤ k → k ≤ own.list.length →
          ¬expected.Holds k) ∧
      ((rustVariantVerdict repo enumId line own.list.length expected claimed).verdict =
          .supported →
        ∀ k, own.list.length - own.gatedCount reading ≤ k → k ≤ own.list.length →
          expected.Holds k)

/-- The enum that the code reads has, if it has as many variants, at least as many gated
ones. -/
def GatesCovered (repo : Repository) (enumId : Str) (line : Nat) (own : EnumVariants) : Prop :=
  ∀ source root body, repo.read (owningFile enumId) = .ok source → repo.parse source = .ok root →
    firstEnum root line = some body → (variantsOf body).length = own.list.length →
      own.gatedCount reading ≤ gatedVariants body

theorem gated_le_declared {repo : Repository} {enumId location : Str} {line declared gated : Nat}
    (h : rustGatedVariants repo enumId line declared = .ok (gated, location)) :
    gated ≤ declared := by
  obtain ⟨-, source, root, body, -, -, -, rfl, rfl⟩ := rustGatedVariants_ok_iff.mp h
  exact List.countP_le_length

/-- A verdict that decides a claim comes from the variants of the enum that the code
reads. -/
theorem rustVariantVerdict_decided {repo : Repository} {enumId claimed : Str}
    {line declared : Nat} {expected : Expected} {verdict : Verdict}
    (h : (rustVariantVerdict repo enumId line declared expected claimed).verdict = verdict)
    (hdecided : verdict ≠ .notVerifiable) :
    ∃ gated location, rustGatedVariants repo enumId line declared = .ok (gated, location) ∧
      (variantVerdict expected declared gated claimed).verdict = verdict := by
  unfold rustVariantVerdict at h
  split at h
  · rename_i gated location hok
    exact ⟨gated, location, hok, h⟩
  · exact absurd h.symm hdecided

theorem variantSound_iff {repo : Repository} {enumId : Str} {line : Nat} {own : EnumVariants} :
    VariantSound reading repo enumId line own ↔ GatesCovered reading repo enumId line own := by
  have hgated := own.gatedCount_le reading
  constructor
  · rintro ⟨-, hsound⟩ source root body hread hparse hfirst hlength
    have hok : rustGatedVariants repo enumId line own.list.length =
        .ok (gatedVariants body, owningFile enumId ++ ':' :: digits line) :=
      rustGatedVariants_ok_iff.mpr ⟨rfl, source, root, body, hread, hparse, hfirst, hlength, rfl⟩
    have hsupported : (rustVariantVerdict repo enumId line own.list.length
        (.atLeast (own.list.length - gatedVariants body)) []).verdict = .supported := by
      rw [rustVariantVerdict, hok]
      exact variantVerdict_atLeast_ungated own.fits []
    have hle : own.list.length - gatedVariants body ≤
        own.list.length - own.gatedCount reading :=
      (hsound _ []).2 hsupported _ le_rfl (Nat.sub_le _ _)
    omega
  · intro hcovered
    have hcode : ∀ gated location,
        rustGatedVariants repo enumId line own.list.length = .ok (gated, location) →
          own.gatedCount reading ≤ gated := by
      intro gated location hok
      obtain ⟨-, source, root, body, hread, hparse, hfirst, hlength, rfl⟩ :=
        rustGatedVariants_ok_iff.mp hok
      exact hcovered source root body hread hparse hfirst hlength
    refine ⟨fun gated location => gated_le_declared, fun expected claimed => ⟨?_, ?_⟩⟩
    · intro h k hlow hhigh
      obtain ⟨gated, location, hok, hverdict⟩ := rustVariantVerdict_decided h (by decide)
      have hle := hcode gated location hok
      exact variantVerdict_contradicted own.fits hverdict (by omega) hhigh
    · intro h k hlow hhigh
      obtain ⟨gated, location, hok, hverdict⟩ := rustVariantVerdict_decided h (by decide)
      have hle := hcode gated location hok
      exact variantVerdict_supported hverdict (by omega) hhigh

end Sound

/-! ### Two functions on one line -/

/-- The nodes of `fn a() {} #[cfg(feature = "x")] #[test] fn b() {}`. -/
def functionA : Node :=
  .mk .functionItem none 1 "fn a() \x7b\x7d".toList
    [.mk (.other "identifier".toList) none 1 "a".toList [],
      .mk (.other "parameters".toList) none 1 "()".toList [],
      .mk (.other "block".toList) (some .body) 1 "\x7b\x7d".toList []]

def cfgAttribute : Node :=
  .mk .attributeItem none 1 "#[cfg(feature = \"x\")]".toList
    [.mk .attr none 1 "cfg(feature = \"x\")".toList
      [.mk (.other "identifier".toList) none 1 "cfg".toList [],
        .mk (.other "token_tree".toList) (some .arguments) 1 "(feature = \"x\")".toList []]]

def testAttribute : Node :=
  .mk .attributeItem none 1 "#[test]".toList
    [.mk .attr none 1 "test".toList [.mk (.other "identifier".toList) none 1 "test".toList []]]

def functionB : Node :=
  .mk .functionItem none 1 "fn b() \x7b\x7d".toList
    [.mk (.other "identifier".toList) none 1 "b".toList [],
      .mk (.other "parameters".toList) none 1 "()".toList [],
      .mk (.other "block".toList) (some .body) 1 "\x7b\x7d".toList []]

def sharedLine : Node :=
  .mk .sourceFile none 1 "fn a() \x7b\x7d #[cfg(feature = \"x\")] #[test] fn b() \x7b\x7d".toList
    [functionA, cfgAttribute, testAttribute, functionB]

def placeOfB : Place := ⟨⟨functionB, [testAttribute, cfgAttribute, functionA]⟩, [⟨sharedLine, []⟩]⟩

/-- The only entry point is `b`, in a file of a target that the harness runs. -/
def sharedLineRepo : Repository where
  entryPoints _ _ := .ok [⟨"src/lib.rs::b".toList, ['1']⟩]
  columnExists _ := true
  fileRow _ := some ("production".toList, [])
  read _ := .ok sharedLine.text
  parse _ := .ok sharedLine

/-- The compiler reads an attribute here as the checker does. -/
def sameReading (attr : Node) : Meta :=
  match cfgOf Char.isAlphanum attr with
  | some p => .cfg p
  | none => .other

/-- The nodes of `#[cfg(test)] #[test] fn a() {}`. -/
def cfgTestAttribute : Node :=
  .mk .attributeItem none 1 "#[cfg(test)]".toList
    [.mk .attr none 1 "cfg(test)".toList
      [.mk (.other "identifier".toList) none 1 "cfg".toList [],
        .mk (.other "token_tree".toList) (some .arguments) 1 "(test)".toList []]]

def gatedFile : Node :=
  .mk .sourceFile none 1 "#[cfg(test)] #[test] fn a() \x7b\x7d".toList
    [cfgTestAttribute, testAttribute, functionA]

def placeOfA : Place := ⟨⟨functionA, [testAttribute, cfgTestAttribute]⟩, [⟨gatedFile, []⟩]⟩

def rowOfA : Parsed := ⟨⟨"src/lib.rs::a".toList, ['1']⟩, placeOfA⟩

/-- The only entry point is `a`. -/
def gatedFileRepo : Repository where
  entryPoints _ _ := .ok [rowOfA.row]
  columnExists _ := true
  fileRow _ := some ("production".toList, [])
  read _ := .ok gatedFile.text
  parse _ := .ok gatedFile

theorem sameReading_kept {attr : Node} {b : Build}
    (h : ∀ p, cfgOf Char.isAlphanum attr = some p → p.holds b = true) :
    (sameReading attr).kept b = true := by
  unfold sameReading
  split
  · rename_i p hp
    exact h p hp
  · rfl

end AutomatisedPipeline.DocClaims

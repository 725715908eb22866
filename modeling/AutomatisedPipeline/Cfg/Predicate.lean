import AutomatisedPipeline.Text.Basic

/-!
`#[cfg(..)]` predicates (`parser/cfg_expr.rs`): the syntax tree, its canonical
form and its compact text.

`mem_leaves_canonical` says that `canonical` keeps the leaves of a predicate, so
every property of options and values carries over to the canonical form.
-/

namespace AutomatisedPipeline.Cfg

open Text

/-- `CfgPredicate`. -/
inductive CfgPredicate where
  | feature (name : Str)
  | option (key : Str) (value : Option Str)
  | all (items : List CfgPredicate)
  | any (items : List CfgPredicate)
  | not (inner : CfgPredicate)
deriving Repr

namespace CfgPredicate

/-- Induction with one hypothesis for every item of a list. -/
theorem induct {motive : CfgPredicate → Prop}
    (feature : ∀ name, motive (.feature name))
    (option : ∀ key value, motive (.option key value))
    (all : ∀ items, (∀ p ∈ items, motive p) → motive (.all items))
    (any : ∀ items, (∀ p ∈ items, motive p) → motive (.any items))
    (not : ∀ inner, motive inner → motive (.not inner)) (p : CfgPredicate) : motive p :=
  @CfgPredicate.rec motive (fun items => ∀ p ∈ items, motive p) feature option all any not
    (by simp) (fun p items hp hitems => by simpa using ⟨hp, hitems⟩) p

/-! ### Equality of predicates -/

mutual
def beq : CfgPredicate → CfgPredicate → Bool
  | .feature a, .feature b => a == b
  | .option k v, .option l w => k == l && v == w
  | .all a, .all b => beqList a b
  | .any a, .any b => beqList a b
  | .not p, .not q => beq p q
  | _, _ => false

def beqList : List CfgPredicate → List CfgPredicate → Bool
  | [], [] => true
  | p :: ps, q :: qs => beq p q && beqList ps qs
  | _, _ => false
end

theorem beqList_iff {ps : List CfgPredicate} (h : ∀ p ∈ ps, ∀ q, beq p q = true ↔ p = q)
    (qs : List CfgPredicate) : beqList ps qs = true ↔ ps = qs := by
  induction ps generalizing qs with
  | nil => cases qs <;> simp [beqList]
  | cons p ps ih =>
      cases qs with
      | nil => simp [beqList]
      | cons q qs =>
          have hps : ∀ p ∈ ps, ∀ q, beq p q = true ↔ p = q := fun p hp => h p (by simp [hp])
          simp [beqList, h p (by simp), ih hps qs]

theorem beq_iff (p q : CfgPredicate) : beq p q = true ↔ p = q := by
  induction p using induct generalizing q with
  | feature name => cases q <;> simp [beq]
  | option key value => cases q <;> simp [beq]
  | all items ih => cases q <;> simp [beq, beqList_iff ih]
  | any items ih => cases q <;> simp [beq, beqList_iff ih]
  | not inner ih => cases q <;> simp [beq, ih]

instance : DecidableEq CfgPredicate := fun p q => decidable_of_iff _ (beq_iff p q)

end CfgPredicate

/-! ### The compact text -/

/-- An upper-case hexadecimal digit, as `{:02X}` writes it. -/
def hexDigit (n : Nat) : Char := Char.ofNat (if n < 10 then 48 + n else 55 + n)

/-- A byte that `encode` keeps. -/
def isPlainByte (c : Char) : Bool := c.isAlphanum || c == '_' || c == '-'

/-- The text that `encode` writes for one byte. -/
def encodeByte (byte : UInt8) : Str :=
  if isPlainByte (Char.ofUInt8 byte) then [Char.ofUInt8 byte]
  else ['%', hexDigit (byte.toNat / 16), hexDigit (byte.toNat % 16)]

/-- `encode`: percent-encodes every byte outside `[A-Za-z0-9_-]`. -/
def encode (text : Str) : Str := (text.flatMap String.utf8EncodeChar).flatMap encodeByte

/-- The words of the predicate grammar. -/
def featureKey : Str := ['f', 'e', 'a', 't', 'u', 'r', 'e']
def allName : Str := ['a', 'l', 'l']
def anyName : Str := ['a', 'n', 'y']
def notName : Str := ['n', 'o', 't']

namespace CfgPredicate

mutual
/-- `CfgPredicate::compact`. -/
def compact : CfgPredicate → Str
  | .feature name => featureKey ++ '=' :: encode name
  | .option key none => encode key
  | .option key (some value) => encode key ++ '=' :: encode value
  | .all items => allName ++ '(' :: (join [','] (compactParts items) ++ [')'])
  | .any items => anyName ++ '(' :: (join [','] (compactParts items) ++ [')'])
  | .not inner => notName ++ '(' :: (inner.compact ++ [')'])

def compactParts : List CfgPredicate → List Str
  | [] => []
  | item :: items => item.compact :: compactParts items
end

/-! ### The canonical form -/

/-- `Vec::dedup`: drops each element equal to the one before it. -/
def dedup : List CfgPredicate → List CfgPredicate
  | [] => []
  | [p] => [p]
  | p :: q :: rest => if p = q then dedup (q :: rest) else p :: dedup (q :: rest)

/-- The terms one item of `join` contributes: a nested list of the same kind is
flattened. -/
def spread (isAll : Bool) : CfgPredicate → List CfgPredicate
  | .all inner => if isAll then inner else [.all inner]
  | .any inner => if isAll then [.any inner] else inner
  | other => [other]

/-- The end of `join`: terms sorted by their compact text, duplicates removed, a
single term unwrapped. -/
def finish (isAll : Bool) (flat : List CfgPredicate) : CfgPredicate :=
  match dedup (flat.insertionSort fun p q => p.compact ≤ q.compact) with
  | [p] => p
  | terms => if isAll then .all terms else .any terms

mutual
/-- `CfgPredicate::canonical`. -/
def canonical : CfgPredicate → CfgPredicate
  | .all items => finish true (joined true items)
  | .any items => finish false (joined false items)
  | .not inner =>
      match inner.canonical with
      | .not twice => twice
      | other => .not other
  | leaf => leaf

/-- The loop of `join`. -/
def joined (isAll : Bool) : List CfgPredicate → List CfgPredicate
  | [] => []
  | item :: items => spread isAll item.canonical ++ joined isAll items
end

/-! ### Leaves -/

mutual
/-- The options and features of a predicate. -/
def leaves : CfgPredicate → List CfgPredicate
  | .all items => leavesList items
  | .any items => leavesList items
  | .not inner => inner.leaves
  | leaf => [leaf]

def leavesList : List CfgPredicate → List CfgPredicate
  | [] => []
  | item :: items => item.leaves ++ leavesList items
end

theorem mem_leavesList {x : CfgPredicate} {items : List CfgPredicate} :
    x ∈ leavesList items ↔ ∃ p ∈ items, x ∈ p.leaves := by
  induction items with
  | nil => simp [leavesList]
  | cons p items ih => simp [leavesList, ih]

theorem mem_dedup {p : CfgPredicate} (items : List CfgPredicate) :
    p ∈ dedup items ↔ p ∈ items := by
  fun_induction dedup items with
  | case1 => simp
  | case2 => simp
  | case3 q rest ih => simp [ih]
  | case4 p q rest hne ih => simp [ih]

theorem mem_leaves_spread {x : CfgPredicate} (isAll : Bool) (p : CfgPredicate) :
    x ∈ leavesList (spread isAll p) ↔ x ∈ p.leaves := by
  cases p with
  | all inner => cases isAll <;> simp [spread, leavesList, leaves]
  | any inner => cases isAll <;> simp [spread, leavesList, leaves]
  | feature name => simp [spread, leavesList]
  | option key value => simp [spread, leavesList]
  | not inner => simp [spread, leavesList]

theorem mem_leaves_finish {x : CfgPredicate} (isAll : Bool) (flat : List CfgPredicate) :
    x ∈ (finish isAll flat).leaves ↔ x ∈ leavesList flat := by
  have hsame : ∀ p, p ∈ dedup (flat.insertionSort fun p q => p.compact ≤ q.compact) ↔ p ∈ flat := by
    intro p
    rw [mem_dedup, List.mem_insertionSort]
  have hterms : x ∈ leavesList (dedup (flat.insertionSort fun p q => p.compact ≤ q.compact)) ↔
      x ∈ leavesList flat := by
    simp only [mem_leavesList, hsame]
  unfold finish
  rw [← hterms]
  split
  · rename_i p hp
    simp [hp, leavesList]
  · cases isAll <;> simp [leaves]

theorem mem_leaves_joined {x : CfgPredicate} (isAll : Bool) {items : List CfgPredicate}
    (h : ∀ p ∈ items, x ∈ p.canonical.leaves ↔ x ∈ p.leaves) :
    x ∈ leavesList (joined isAll items) ↔ x ∈ leavesList items := by
  induction items with
  | nil => simp [joined]
  | cons p items ih =>
      have hp := h p (by simp)
      have hitems := ih fun q hq => h q (by simp [hq])
      have happend : x ∈ leavesList (spread isAll p.canonical ++ joined isAll items) ↔
          x ∈ leavesList (spread isAll p.canonical) ∨ x ∈ leavesList (joined isAll items) := by
        simp [mem_leavesList, or_and_right, exists_or]
      rw [joined, happend, mem_leaves_spread, hp, hitems, leavesList, List.mem_append]

/-- The canonical form has the leaves of the predicate. -/
theorem mem_leaves_canonical {x : CfgPredicate} (p : CfgPredicate) :
    x ∈ p.canonical.leaves ↔ x ∈ p.leaves := by
  induction p using induct with
  | feature name => simp [canonical]
  | option key value => simp [canonical]
  | all items ih => rw [canonical, mem_leaves_finish, mem_leaves_joined true ih, leaves]
  | any items ih => rw [canonical, mem_leaves_finish, mem_leaves_joined false ih, leaves]
  | not inner ih =>
      rw [canonical, leaves, ← ih]
      split <;> simp_all [leaves]

end CfgPredicate

end AutomatisedPipeline.Cfg

import AutomatisedPipeline.Logic.Assoc
import AutomatisedPipeline.Text.Lines

/-!
JSON documents held as values: a number by its text, an object by its members in their order.
A member is read by the first entry of its key and written in its place, or at the end where
there is none.
-/

namespace AutomatisedPipeline.Text

inductive Json where
  | null
  | bool (b : Bool)
  | number (text : Str)
  | string (s : Str)
  | array (items : List Json)
  | object (fields : List (Str × Json))

/-- The members of an object. -/
abbrev Fields : Type := List (Str × Json)

namespace Json

def asStr : Json → Option Str
  | .string s => some s
  | _ => none

def asBool : Json → Option Bool
  | .bool b => some b
  | _ => none

/-- The integer of a number's text. What is not in the range is held as a float, and so is a
negative zero. -/
def i64OfText : Str → Option Int
  | '-' :: ds =>
      if ds ≠ [] ∧ ds.all Char.isDigit ∧ Nat.ofDigitChars 10 ds 0 ≠ 0 ∧
          Nat.ofDigitChars 10 ds 0 ≤ 2 ^ 63 then
        some (-Nat.ofDigitChars 10 ds 0)
      else none
  | ds =>
      if ds ≠ [] ∧ ds.all Char.isDigit ∧ Nat.ofDigitChars 10 ds 0 < 2 ^ 63 then
        some (Nat.ofDigitChars 10 ds 0)
      else none

/-- `as_i64`. -/
def asI64 : Json → Option Int
  | .number text => i64OfText text
  | _ => none

def asArray : Json → Option (List Json)
  | .array items => some items
  | _ => none

def asObject : Json → Option Fields
  | .object fields => some fields
  | _ => none

/-- A member of an object. -/
def get (v : Json) (key : Str) : Option Json := v.asObject.bind fun fields => fields.lookup key

theorem asArray_eq_some {v : Json} {items : List Json} :
    v.asArray = some items ↔ v = .array items := by
  cases v <;> simp [asArray]

theorem asObject_eq_some {v : Json} {fields : Fields} :
    v.asObject = some fields ↔ v = .object fields := by
  cases v <;> simp [asObject]

end Json

/-- What `Display` prints of an integer. -/
def intDigits : Int → Str
  | .ofNat n => digits n
  | .negSucc n => '-' :: digits (n + 1)

/-- Writes a member. -/
def setKey (key : Str) (v : Json) (fields : Fields) : Fields :=
  Assoc.upsert key v (fun _ => v) fields

theorem lookup_setKey (key : Str) (v : Json) (fields : Fields) :
    (setKey key v fields).lookup key = some v := by
  rw [setKey, Assoc.lookup_upsert, if_pos rfl]

/-- What is written as it stood changes nothing. -/
theorem setKey_eq_self {key : Str} {v : Json} {fields : Fields}
    (h : fields.lookup key = some v) : setKey key v fields = fields := by
  induction fields with
  | nil => cases h
  | cons field fields ih =>
      obtain ⟨k, w⟩ := field
      rw [List.lookup_cons] at h
      rw [setKey, Assoc.upsert]
      split
      · rename_i heq
        rw [heq, beq_self_eq_true] at h
        rw [Option.some.inj h]
      · rename_i hne
        rw [beq_eq_false_iff_ne.mpr (Ne.symm hne)] at h
        rw [← setKey, ih h]

end AutomatisedPipeline.Text

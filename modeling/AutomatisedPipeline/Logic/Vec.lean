import Mathlib.Tactic

/-!
A vector as the function that reads it.
-/

namespace AutomatisedPipeline.Vec

variable {α β : Type} {n : Nat}

theorem get_eq_getElem (xs : Vector α n) (i : Fin n) : xs.get i = xs[i.val] := rfl

theorem get_set (xs : Vector α n) (i : Fin n) (x : α) :
    (xs.set i x).get = Function.update xs.get i x := by
  funext j
  rw [Function.update_apply]
  simp only [get_eq_getElem, Vector.getElem_set, Fin.val_inj, eq_comm]

theorem get_map (f : α → β) (xs : Vector α n) : (xs.map f).get = f ∘ xs.get := by
  funext j
  rw [Function.comp_apply, get_eq_getElem, get_eq_getElem, Vector.getElem_map]

theorem get_ofFn_id : (Vector.ofFn id : Vector (Fin n) n).get = id := by
  funext j
  rw [get_eq_getElem, Vector.getElem_ofFn]

theorem get_replicate (x : α) (i : Fin n) : (Vector.replicate n x).get i = x := by
  rw [get_eq_getElem, Vector.getElem_replicate]

end AutomatisedPipeline.Vec

import Mathlib.Tactic

/-!
Cursor paging over a list, for any server of pages.

A client asks for offset 0 and then for every offset the server names, until a
reply names none (`pageThrough`). `PageOf` says what one reply has to be for the
client to receive the list: a nonempty run of it from the offset on, and the
cursor behind that run exactly when elements remain. Nothing is asked of how the
server cuts its pages.
-/

namespace AutomatisedPipeline.Cursor

variable {ε α ρ : Type}

/-- The replies of a client that follows the cursors from `offset` on; `none` when
a call fails or `fuel` calls do not reach the end. -/
def pageThrough (serve : Nat → Except ε ρ) (next : ρ → Option Nat) : Nat → Nat → Option (List ρ)
  | 0, _ => none
  | fuel + 1, offset =>
      match serve offset with
      | .error _ => none
      | .ok reply =>
          match next reply with
          | none => some [reply]
          | some cursor => (pageThrough serve next fuel cursor).map (reply :: ·)

/-- The page `items` with the cursor `next` is a page of `rows` from `offset` on. -/
structure PageOf (rows : List α) (offset : Nat) (items : List α) (next : Option Nat) : Prop where
  isPrefix : items <+: rows.drop offset
  progress : offset < rows.length → items ≠ []
  next_eq : next =
    if offset + items.length < rows.length then some (offset + items.length) else none

namespace PageOf

variable {rows items : List α} {offset : Nat} {next : Option Nat}

theorem end_le (h : PageOf rows offset items next) (hoffset : offset ≤ rows.length) :
    offset + items.length ≤ rows.length := by
  have hlen := h.isPrefix.length_le
  rw [List.length_drop] at hlen
  omega

theorem length_pos (h : PageOf rows offset items next) (hoffset : offset < rows.length) :
    0 < items.length :=
  List.length_pos_of_ne_nil (h.progress hoffset)

/-- A page without a cursor is the rest of the list. -/
theorem eq_drop (h : PageOf rows offset items none) : items = rows.drop offset := by
  refine h.isPrefix.eq_of_length_le ?_
  rw [List.length_drop]
  have hnext := h.next_eq
  split at hnext
  · cases hnext
  · omega

/-- A page with a cursor ends at it, before the end of the list. -/
theorem cursor_eq {cursor : Nat} (h : PageOf rows offset items (some cursor)) :
    cursor = offset + items.length ∧ cursor < rows.length := by
  have hnext := h.next_eq
  split at hnext
  · rename_i hlt
    cases hnext
    exact ⟨rfl, hlt⟩
  · cases hnext

/-- A page and the rest behind it are the rest from its offset on. -/
theorem append_drop (h : PageOf rows offset items next) :
    items ++ rows.drop (offset + items.length) = rows.drop offset := by
  obtain ⟨rest, hrest⟩ := h.isPrefix
  rw [← List.drop_drop, ← hrest, List.drop_left]

end PageOf

/-- A client that follows the cursors of a server of pages of `rows` comes to the
end. It has received the rows from its first offset on, in order, and the cursor of
every reply says whether rows remain behind it. -/
theorem pageThrough_delivers {serve : Nat → Except ε ρ} {next : ρ → Option Nat}
    {items : ρ → List α} {rows : List α}
    (hserve : ∀ offset ≤ rows.length,
      ∃ reply, serve offset = .ok reply ∧ PageOf rows offset (items reply) (next reply))
    {fuel offset : Nat} (hoffset : offset ≤ rows.length) (hfuel : rows.length - offset < fuel) :
    ∃ replies, pageThrough serve next fuel offset = some replies ∧
      replies.flatMap items = rows.drop offset ∧
      ∀ before reply after, replies = before ++ reply :: after →
        offset + (before.flatMap items).length ≤ rows.length ∧
        serve (offset + (before.flatMap items).length) = .ok reply ∧
        PageOf rows (offset + (before.flatMap items).length) (items reply) (next reply) := by
  induction fuel generalizing offset with
  | zero => omega
  | succ fuel ih =>
      obtain ⟨reply, hreply, hpage⟩ := hserve offset hoffset
      have hfirst : offset + (([] : List ρ).flatMap items).length ≤ rows.length ∧
          serve (offset + (([] : List ρ).flatMap items).length) = .ok reply ∧
          PageOf rows (offset + (([] : List ρ).flatMap items).length) (items reply)
            (next reply) := ⟨hoffset, hreply, hpage⟩
      cases hnext : next reply with
      | none =>
          rw [hnext] at hpage
          refine ⟨[reply], ?_, ?_, ?_⟩
          · simp only [pageThrough, hreply, hnext]
          · rw [List.flatMap_singleton, hpage.eq_drop]
          · intro before other after hsplit
            cases before with
            | nil =>
                cases hsplit
                exact hfirst
            | cons _ before => simp at hsplit
      | some cursor =>
          rw [hnext] at hpage
          obtain ⟨hcursor, hlt⟩ := hpage.cursor_eq
          have hpos := hpage.length_pos (by omega)
          obtain ⟨replies, hreplies, hrows, hall⟩ := ih (Nat.le_of_lt hlt) (by omega)
          refine ⟨reply :: replies, ?_, ?_, ?_⟩
          · simp only [pageThrough, hreply, hnext, hreplies, Option.map_some]
          · rw [List.flatMap_cons, hrows, hcursor, hpage.append_drop]
          · intro before other after hsplit
            cases before with
            | nil =>
                cases hsplit
                exact hfirst
            | cons first before =>
                rw [List.cons_append] at hsplit
                obtain ⟨rfl, hrest⟩ := List.cons.inj hsplit
                have h := hall before other after hrest
                rw [hcursor] at h
                rwa [List.flatMap_cons, List.length_append, ← Nat.add_assoc]

/-- A client of a server that dresses up its replies receives the dressed replies. -/
theorem pageThrough_map {ρ' : Type} {serve : Nat → Except ε ρ} {serve' : Nat → Except ε ρ'}
    {next : ρ → Option Nat} {next' : ρ' → Option Nat} (f : ρ → ρ')
    (hserve : ∀ offset, serve' offset = (serve offset).map f)
    (hnext : ∀ reply, next' (f reply) = next reply) (fuel offset : Nat) :
    pageThrough serve' next' fuel offset = (pageThrough serve next fuel offset).map (List.map f) := by
  induction fuel generalizing offset with
  | zero => rfl
  | succ fuel ih =>
      simp only [pageThrough, hserve]
      cases serve offset with
      | error e => rfl
      | ok reply =>
          simp only [Except.map, hnext]
          cases next reply with
          | none => rfl
          | some cursor => simp [ih, Function.comp_def]

/-- A page of a list is, element by element, a page of its image. -/
theorem PageOf.map {β : Type} {rows items : List α} {offset : Nat} {next : Option Nat} (f : α → β)
    (h : PageOf rows offset items next) : PageOf (rows.map f) offset (items.map f) next := by
  refine ⟨?_, ?_, ?_⟩
  · rw [← List.map_drop]
    exact h.isPrefix.map f
  · rw [List.length_map, ne_eq, List.map_eq_nil_iff]
    exact h.progress
  · rw [List.length_map, List.length_map]
    exact h.next_eq

end AutomatisedPipeline.Cursor

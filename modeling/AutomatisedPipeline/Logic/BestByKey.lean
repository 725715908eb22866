import AutomatisedPipeline.Logic.FirstMatch

/-!
The best grade of each key: graded items are gone through in order, an item with a new key is kept
with its grade, and a later one of the same key only makes the grade better.

What a key ends with is the best grade that it has been given (`gradeOf_gather`), so the order of the
items does not matter.
-/

namespace AutomatisedPipeline.BestByKey

variable {α κ ρ : Type} (key : α → κ) (rank : ρ → Nat)

/-! ### The best grade -/

/-- A key is given a grade, and none that is better. -/
structure IsBest (graded : List (α × ρ)) (k : κ) (r : ρ) : Prop where
  given : ∃ g ∈ graded, key g.1 = k ∧ g.2 = r
  greatest : ∀ g ∈ graded, key g.1 = k → rank g.2 ≤ rank r

variable {key rank}

theorem IsBest.unique (hrank : Function.Injective rank) {graded : List (α × ρ)} {k : κ} {r r' : ρ}
    (h : IsBest key rank graded k r) (h' : IsBest key rank graded k r') : r = r' := by
  obtain ⟨g, hg, hkey, rfl⟩ := h.given
  obtain ⟨g', hg', hkey', rfl⟩ := h'.given
  exact hrank (le_antisymm (h'.greatest g hg hkey) (h.greatest g' hg' hkey'))

theorem isBest_concat_of_ne {graded : List (α × ρ)} {g : α × ρ} {k : κ} (hne : key g.1 ≠ k) {r : ρ} :
    IsBest key rank (graded ++ [g]) k r ↔ IsBest key rank graded k r := by
  constructor
  · rintro ⟨⟨h, hh, hkey, hr⟩, hgreatest⟩
    refine ⟨⟨h, ?_, hkey, hr⟩, fun h hh => hgreatest h (List.mem_append_left _ hh)⟩
    rcases List.mem_append.mp hh with hold | hnew
    · exact hold
    · rw [List.mem_singleton.mp hnew] at hkey
      exact absurd hkey hne
  · rintro ⟨⟨h, hh, hkey, hr⟩, hgreatest⟩
    refine ⟨⟨h, List.mem_append_left _ hh, hkey, hr⟩, fun h' hh' hkey' => ?_⟩
    rcases List.mem_append.mp hh' with hold | hnew
    · exact hgreatest h' hold hkey'
    · rw [List.mem_singleton.mp hnew] at hkey'
      exact absurd hkey' hne

/-- The better one of the best grade so far and a new one is the best. -/
theorem IsBest.concat {graded : List (α × ρ)} {g : α × ρ} {k : κ} {old : ρ}
    (h : IsBest key rank graded k old) (hkey : key g.1 = k) :
    IsBest key rank (graded ++ [g]) k (if rank old < rank g.2 then g.2 else old) := by
  obtain ⟨⟨kept, hkept, hkeptKey, hold⟩, hgreatest⟩ := h
  split
  · rename_i hlt
    refine ⟨⟨g, by simp, hkey, rfl⟩, fun h hh hhKey => ?_⟩
    rcases List.mem_append.mp hh with hold | hnew
    · exact (hgreatest h hold hhKey).trans hlt.le
    · rw [List.mem_singleton.mp hnew]
  · rename_i hge
    refine ⟨⟨kept, List.mem_append_left _ hkept, hkeptKey, hold⟩, fun h hh hhKey => ?_⟩
    rcases List.mem_append.mp hh with hold | hnew
    · exact hgreatest h hold hhKey
    · rw [List.mem_singleton.mp hnew]
      exact not_lt.mp hge

/-- The order of the items does not matter. -/
theorem IsBest.perm {graded graded' : List (α × ρ)} (hperm : graded.Perm graded') {k : κ} {r : ρ}
    (h : IsBest key rank graded k r) : IsBest key rank graded' k r := by
  obtain ⟨⟨g, hg, hkey, hr⟩, hgreatest⟩ := h
  exact ⟨⟨g, hperm.mem_iff.mp hg, hkey, hr⟩, fun h hh => hgreatest h (hperm.mem_iff.mpr hh)⟩

/-! ### The accumulator -/

variable [DecidableEq κ] (key rank)

/-- The entry of the item's key gets its grade if that is better; a new key is added. -/
def upsert : List (α × ρ) → α → ρ → List (α × ρ)
  | [], item, grade => [(item, grade)]
  | (kept, best) :: rest, item, grade =>
      if key kept = key item then (kept, if rank best < rank grade then grade else best) :: rest
      else (kept, best) :: upsert rest item grade

def gather (graded : List (α × ρ)) : List (α × ρ) :=
  graded.foldl (fun best g => upsert key rank best g.1 g.2) []

/-- The grade of a key. -/
def gradeOf (best : List (α × ρ)) (k : κ) : Option ρ :=
  (best.find? fun entry => key entry.1 = k).map Prod.snd

/-! ### One item -/

variable {key rank}

theorem gradeOf_cons (entry : α × ρ) (best : List (α × ρ)) (k : κ) :
    gradeOf key (entry :: best) k = if key entry.1 = k then some entry.2 else gradeOf key best k := by
  rw [gradeOf, List.find?_cons]
  by_cases hkey : key entry.1 = k
  · simp [hkey]
  · simp [hkey, gradeOf]

theorem gradeOf_upsert (best : List (α × ρ)) (item : α) (grade : ρ) (k : κ) :
    gradeOf key (upsert key rank best item grade) k =
      if key item = k then
        some (match gradeOf key best k with
          | some old => if rank old < rank grade then grade else old
          | none => grade)
      else gradeOf key best k := by
  induction best with
  | nil => rw [upsert, gradeOf_cons]; rfl
  | cons entry rest ih =>
      obtain ⟨kept, old⟩ := entry
      rw [upsert]
      by_cases hitem : key kept = key item
      · rw [if_pos hitem, gradeOf_cons, gradeOf_cons, hitem]
        by_cases hk : key item = k
        · simp only [if_pos hk]
        · simp only [if_neg hk]
      · rw [if_neg hitem, gradeOf_cons, gradeOf_cons, ih]
        by_cases hk : key kept = k
        · rw [if_pos hk, if_neg (fun h => hitem (hk.trans h.symm))]
          rw [if_pos hk]
        · simp only [if_neg hk]

theorem mem_keys_upsert {best : List (α × ρ)} {item : α} {grade : ρ} {k : κ} :
    k ∈ (upsert key rank best item grade).map (fun entry => key entry.1) ↔
      k = key item ∨ k ∈ best.map fun entry => key entry.1 := by
  induction best with
  | nil => simp [upsert]
  | cons entry rest ih =>
      rw [upsert]
      split
      · rename_i hitem
        simp only [List.map_cons, List.mem_cons, hitem]
        tauto
      · simp only [List.map_cons, List.mem_cons, ih]
        tauto

theorem nodup_upsert {best : List (α × ρ)} (h : (best.map fun entry => key entry.1).Nodup)
    (item : α) (grade : ρ) :
    ((upsert key rank best item grade).map fun entry => key entry.1).Nodup := by
  induction best with
  | nil => exact List.nodup_singleton _
  | cons entry rest ih =>
      rw [List.map_cons, List.nodup_cons] at h
      rw [upsert]
      split
      · exact List.nodup_cons.mpr h
      · rename_i hitem
        refine List.nodup_cons.mpr ⟨fun hmem => ?_, ih h.2⟩
        exact (mem_keys_upsert.mp hmem).elim hitem h.1

/-! ### All items -/

theorem nodup_gather (graded : List (α × ρ)) :
    ((gather key rank graded).map fun entry => key entry.1).Nodup := by
  induction graded using List.reverseRecOn with
  | nil => exact List.nodup_nil
  | append_singleton graded g ih =>
      rw [gather, List.foldl_append]
      exact nodup_upsert ih g.1 g.2

theorem gradeOf_gather_concat (graded : List (α × ρ)) (g : α × ρ) (k : κ) :
    gradeOf key (gather key rank (graded ++ [g])) k =
      if key g.1 = k then
        some (match gradeOf key (gather key rank graded) k with
          | some old => if rank old < rank g.2 then g.2 else old
          | none => g.2)
      else gradeOf key (gather key rank graded) k := by
  rw [gather, List.foldl_append]
  exact gradeOf_upsert _ g.1 g.2 k

theorem mem_keys_gather {graded : List (α × ρ)} {k : κ} :
    k ∈ (gather key rank graded).map (fun entry => key entry.1) ↔ ∃ g ∈ graded, key g.1 = k := by
  induction graded using List.reverseRecOn with
  | nil => simp [gather]
  | append_singleton graded g ih =>
      have hconcat : gather key rank (graded ++ [g]) =
          upsert key rank (gather key rank graded) g.1 g.2 := by
        rw [gather, List.foldl_append]
        rfl
      rw [hconcat, mem_keys_upsert, ih]
      constructor
      · rintro (rfl | ⟨h, hh, hkey⟩)
        · exact ⟨g, by simp, rfl⟩
        · exact ⟨h, by simp [hh], hkey⟩
      · rintro ⟨h, hh, hkey⟩
        rcases List.mem_append.mp hh with hold | hnew
        · exact .inr ⟨h, hold, hkey⟩
        · obtain rfl := List.mem_singleton.mp hnew
          exact .inl hkey.symm

theorem gradeOf_eq_none {best : List (α × ρ)} {k : κ} :
    gradeOf key best k = none ↔ k ∉ best.map fun entry => key entry.1 := by
  rw [gradeOf, Option.map_eq_none_iff, List.find?_eq_none]
  simp

/-- What a key ends with is the best grade it has been given. -/
theorem gradeOf_gather (hrank : Function.Injective rank) (graded : List (α × ρ)) (k : κ) (r : ρ) :
    gradeOf key (gather key rank graded) k = some r ↔ IsBest key rank graded k r := by
  induction graded using List.reverseRecOn generalizing r with
  | nil =>
      constructor
      · intro h
        cases h
      · rintro ⟨⟨g, hg, -⟩, -⟩
        cases hg
  | append_singleton graded g ih =>
      rw [gradeOf_gather_concat]
      by_cases hkey : key g.1 = k
      · rw [if_pos hkey, Option.some.injEq]
        cases hgrade : gradeOf key (gather key rank graded) k with
        | some old =>
            have hbest := ((ih old).mp hgrade).concat hkey
            exact ⟨fun h => h ▸ hbest, fun h => hbest.unique hrank h⟩
        | none =>
            -- the key is new
            have hnew : ∀ h ∈ graded, key h.1 ≠ k := fun h hh hk =>
              gradeOf_eq_none.mp hgrade (mem_keys_gather.mpr ⟨h, hh, hk⟩)
            have hbest : IsBest key rank (graded ++ [g]) k g.2 := by
              refine ⟨⟨g, by simp, hkey, rfl⟩, fun h hh hk => ?_⟩
              rcases List.mem_append.mp hh with hold | hlast
              · exact absurd hk (hnew h hold)
              · rw [List.mem_singleton.mp hlast]
            exact ⟨fun h => h ▸ hbest, fun h => hbest.unique hrank h⟩
      · rw [if_neg hkey, ih, isBest_concat_of_ne hkey]

/-- The entries are the keys with their best grades. -/
theorem mem_gather_iff (hrank : Function.Injective rank) (graded : List (α × ρ)) (k : κ) (r : ρ) :
    (∃ entry ∈ gather key rank graded, key entry.1 = k ∧ entry.2 = r) ↔
      IsBest key rank graded k r := by
  rw [← gradeOf_gather hrank, gradeOf, Option.map_eq_some_iff]
  constructor
  · rintro ⟨entry, hentry, rfl, rfl⟩
    refine ⟨entry, ?_, rfl⟩
    exact (FirstMatch.find_key_eq_some_iff (fun entry : α × ρ => key entry.1) (nodup_gather graded) _
      entry).mpr ⟨hentry, rfl⟩
  · rintro ⟨entry, hfind, rfl⟩
    exact ⟨entry, List.mem_of_find?_eq_some hfind, by simpa using List.find?_some hfind, rfl⟩

end AutomatisedPipeline.BestByKey

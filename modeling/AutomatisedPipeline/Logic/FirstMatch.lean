import Mathlib.Tactic

/-!
Taking the first of the rows that match, where the order of the rows is not fixed.

`pick ok rows` is the first row, if it is `ok`. Whatever order the rows come in it is the
same exactly when an `ok` row is the only row (`Sole`): otherwise the order that puts the
row first picks it, and the order that puts another one first does not (`pick_eq_of_perm`,
`pick_filterMap_perm_iff`). A key that no two rows share is found in every order (`find_key_perm`).
What is found first among any candidates fixes a list (`forall_find_mem_iff`).

`keepFirst` goes through a list in order and drops an element whose key is taken: each key stays
once (`mem_map_keepFirst`, `nodup_map_keepFirst`). Lists that share no key are gone through on their
own (`keepFirst_append`, `keepFirst_flatMap`).
-/

namespace AutomatisedPipeline.FirstMatch

variable {α κ : Type}

/-- The first row, if it is `ok`. -/
def pick (ok : α → Bool) (rows : List α) : Option α := rows.head?.filter ok

/-- An `ok` row is the only row. -/
def Sole (ok : α → Bool) (rows : List α) : Prop := ∀ x ∈ rows, ok x = true → ∀ y ∈ rows, y = x

theorem pick_cons (ok : α → Bool) (x : α) (rows : List α) :
    pick ok (x :: rows) = if ok x then some x else none := by
  rw [pick, List.head?_cons, Option.filter_some]

theorem pick_true (rows : List α) : pick (fun _ => true) rows = rows.head? := by
  cases rows <;> rfl

theorem mem_of_pick {ok : α → Bool} {rows : List α} {x : α} (h : pick ok rows = some x) :
    x ∈ rows := by
  obtain ⟨hhead, -⟩ := Option.filter_eq_some_iff.mp h
  exact List.mem_of_head? hhead

/-- Where an `ok` row is the only one, every order picks the same. -/
theorem pick_eq_of_perm {ok : α → Bool} {rows rows' : List α} (hsole : Sole ok rows)
    (hperm : rows.Perm rows') : pick ok rows' = pick ok rows := by
  cases rows with
  | nil => rw [hperm.nil_eq]
  | cons x rest =>
      cases rows' with
      | nil => cases hperm.eq_nil
      | cons y rest' =>
          have hx : x ∈ x :: rest := List.mem_cons_self
          have hy : y ∈ x :: rest := hperm.mem_iff.mpr List.mem_cons_self
          rw [pick_cons, pick_cons]
          cases hokx : ok x with
          | true =>
              obtain rfl := hsole x hx hokx y hy
              rw [hokx]
          | false =>
              cases hoky : ok y with
              | true =>
                  obtain rfl := hsole y hy hoky x hx
                  rw [hokx] at hoky
                  cases hoky
              | false => rfl

/-- Any row that is read can come first. -/
theorem exists_perm_filterMap {β : Type} {read : β → Option α} {items : List β} {x : α}
    (hx : x ∈ items.filterMap read) :
    ∃ items' : List β, items'.Perm items ∧ ∃ rest, items'.filterMap read = x :: rest := by
  obtain ⟨item, hitem, hread⟩ := List.mem_filterMap.mp hx
  obtain ⟨before, after, rfl⟩ := List.append_of_mem hitem
  exact ⟨item :: (before ++ after), List.perm_middle.symm, _, List.filterMap_cons_some hread⟩

/-- The rows that are read off some items give the same in every order of the items exactly if an
`ok` row is the only one. -/
theorem pick_filterMap_perm_iff {β : Type} {ok : α → Bool} (read : β → Option α) (items : List β) :
    (∀ items' : List β, items'.Perm items →
        pick ok (items'.filterMap read) = pick ok (items.filterMap read)) ↔
      Sole ok (items.filterMap read) := by
  constructor
  · intro h x hx hok y hy
    obtain ⟨items₁, hperm₁, rest₁, hfirst₁⟩ := exists_perm_filterMap hx
    obtain ⟨items₂, hperm₂, rest₂, hfirst₂⟩ := exists_perm_filterMap hy
    have hpick := (h items₁ hperm₁).trans (h items₂ hperm₂).symm
    rw [hfirst₁, hfirst₂, pick_cons, pick_cons, if_pos hok] at hpick
    split at hpick
    · exact (Option.some.inj hpick).symm
    · cases hpick
  · exact fun hsole items' hperm => pick_eq_of_perm hsole (hperm.symm.filterMap read)

/-- Where an `ok` row is the only one, none is picked exactly if no row is `ok`. -/
theorem pick_eq_none_iff {ok : α → Bool} {rows : List α} (hsole : Sole ok rows) :
    pick ok rows = none ↔ ∀ x ∈ rows, ok x = false := by
  cases rows with
  | nil => simp [pick]
  | cons first rest =>
      rw [pick_cons]
      constructor
      · intro h x hx
        by_contra hok
        have hok : ok x = true := by simpa using hok
        rw [hsole x hx hok first List.mem_cons_self, if_pos hok] at h
        cases h
      · intro h
        rw [h first List.mem_cons_self]
        rfl

/-- Where no two rows share their key, what is found by a key is the row that has it. -/
theorem find_key_eq_some_iff [DecidableEq κ] (key : α → κ) {rows : List α}
    (hnodup : (rows.map key).Nodup) (k : κ) (x : α) :
    rows.find? (fun x => key x = k) = some x ↔ x ∈ rows ∧ key x = k := by
  constructor
  · intro h
    exact ⟨List.mem_of_find?_eq_some h, by simpa using List.find?_some h⟩
  · rintro ⟨hx, rfl⟩
    cases hfind : rows.find? fun y => key y = key x with
    | none => exact absurd (List.find?_eq_none.mp hfind x hx) (by simp)
    | some y =>
        have hy : key y = key x := by simpa using List.find?_some hfind
        rw [List.inj_on_of_nodup_map hnodup (List.mem_of_find?_eq_some hfind) hx hy]

/-- A row that is found by a key no other row has is found in every order. -/
theorem find_key_perm [DecidableEq κ] (key : α → κ) {rows rows' : List α}
    (hperm : rows.Perm rows') (hnodup : (rows.map key).Nodup) (k : κ) :
    rows'.find? (fun x => key x = k) = rows.find? (fun x => key x = k) := by
  have hnodup' : (rows'.map key).Nodup := (hperm.map key).nodup_iff.mp hnodup
  apply Option.ext
  intro x
  rw [find_key_eq_some_iff key hnodup', find_key_eq_some_iff key hnodup, hperm.mem_iff]

/-- Where the rows that match agree on a value, it is what the first of them has. -/
theorem find_map_eq_some_iff {β : Type} {p : α → Bool} {value : α → β} {rows : List α}
    (hagree : ∀ x ∈ rows, ∀ y ∈ rows, p x = true → p y = true → value x = value y) (v : β) :
    (rows.find? p).map value = some v ↔ ∃ x ∈ rows, p x = true ∧ value x = v := by
  rw [Option.map_eq_some_iff]
  constructor
  · rintro ⟨x, hfind, rfl⟩
    exact ⟨x, List.mem_of_find?_eq_some hfind, List.find?_some hfind, rfl⟩
  · rintro ⟨x, hx, hp, rfl⟩
    cases hfind : rows.find? p with
    | none => exact absurd hp (by simpa using List.find?_eq_none.mp hfind x hx)
    | some y =>
        exact ⟨y, rfl, hagree y (List.mem_of_find?_eq_some hfind) x hx (List.find?_some hfind) hp⟩

/-- What is found of a list among any candidates is what is found of its head first. -/
theorem find_mem_head [DecidableEq α] (l s : List α) (h : ∀ x ∈ l, x ∈ s) :
    l.find? (fun x => x ∈ s) = l.head? := by
  cases l with
  | nil => rfl
  | cons x l => exact List.find?_cons_of_pos (by simpa using h x List.mem_cons_self)

/-- Two lists without repetitions in which the same is found first, whatever is looked for, are the
same. -/
theorem forall_find_mem_iff [DecidableEq α] {l l' : List α} (hl : l.Nodup) (hl' : l'.Nodup) :
    (∀ s : List α, l.find? (fun x => x ∈ s) = l'.find? (fun x => x ∈ s)) ↔ l = l' := by
  refine ⟨fun h => ?_, fun h s => by rw [h]⟩
  induction l generalizing l' with
  | nil =>
      have hhead := h l'
      rw [find_mem_head l' l' fun _ hx => hx] at hhead
      exact (List.head?_eq_none_iff.mp hhead.symm).symm
  | cons x l ih =>
      have hhead := h ((x :: l) ++ l')
      rw [find_mem_head (x :: l) _ fun _ hx => List.mem_append_left _ hx,
        find_mem_head l' _ fun _ hx => List.mem_append_right _ hx] at hhead
      obtain ⟨l', rfl⟩ : ∃ rest, l' = x :: rest := List.head?_eq_some_iff.mp hhead.symm
      obtain ⟨hx, hl⟩ := List.nodup_cons.mp hl
      obtain ⟨hx', hl'⟩ := List.nodup_cons.mp hl'
      congr 1
      refine ih hl hl' fun s => ?_
      -- what is looked for but for the first
      have hskip : ∀ {rest : List α}, x ∉ rest →
          (x :: rest).find? (fun y => y ∈ s.filter (· ≠ x)) = rest.find? (fun y => y ∈ s) := by
        intro rest hrest
        rw [List.find?_cons_of_neg (by simp)]
        refine List.find?_congr fun y hy => ?_
        have hne : y ≠ x := fun heq => hrest (heq ▸ hy)
        simp [hne]
      rw [← hskip hx, ← hskip hx']
      exact h _

end AutomatisedPipeline.FirstMatch

namespace AutomatisedPipeline.KeepFirst

variable {α κ : Type} [DecidableEq κ] (key : α → κ)

/-- An element whose key is taken is dropped. -/
def stage (staged : List α) (x : α) : List α :=
  if key x ∈ staged.map key then staged else staged ++ [x]

def keepFirst (l : List α) : List α := l.foldl (stage key) []

variable {key}

theorem foldl_stage_append {a b l : List α} (h : ∀ x ∈ a, ∀ y ∈ l, key x ≠ key y) :
    l.foldl (stage key) (a ++ b) = a ++ l.foldl (stage key) b := by
  induction l generalizing b with
  | nil => rfl
  | cons y l ih =>
      have hnew : key y ∉ a.map key := by
        intro hmem
        obtain ⟨x, hx, heq⟩ := List.mem_map.mp hmem
        exact h x hx y List.mem_cons_self heq
      have hstage : stage key (a ++ b) y = a ++ stage key b y := by
        simp only [stage, List.map_append, List.mem_append, or_iff_right hnew]
        split
        · rfl
        · exact List.append_assoc a b [y]
      rw [List.foldl_cons, List.foldl_cons, hstage]
      exact ih fun x hx z hz => h x hx z (List.mem_cons_of_mem _ hz)

theorem mem_of_mem_foldl_stage {x : α} {staged l : List α} (h : x ∈ l.foldl (stage key) staged) :
    x ∈ staged ∨ x ∈ l := by
  induction l generalizing staged with
  | nil => exact .inl h
  | cons y l ih =>
      rw [List.foldl_cons] at h
      obtain hstaged | hl := ih h
      · rw [stage] at hstaged
        split at hstaged
        · exact .inl hstaged
        · obtain hold | hnew := List.mem_append.mp hstaged
          · exact .inl hold
          · exact .inr (List.mem_cons.mpr (.inl (List.mem_singleton.mp hnew)))
      · exact .inr (List.mem_cons_of_mem _ hl)

theorem mem_of_mem_keepFirst {x : α} {l : List α} (h : x ∈ keepFirst key l) : x ∈ l :=
  (mem_of_mem_foldl_stage h).resolve_left List.not_mem_nil

theorem mem_map_foldl_stage {k : κ} {acc l : List α} :
    k ∈ (l.foldl (stage key) acc).map key ↔ k ∈ acc.map key ∨ k ∈ l.map key := by
  induction l generalizing acc with
  | nil => simp
  | cons x l ih =>
      rw [List.foldl_cons, ih, List.map_cons, List.mem_cons, ← or_assoc]
      refine or_congr_left ?_
      rw [stage]
      split
      · rename_i htaken
        exact ⟨.inl, fun h => h.elim (fun h => h) fun heq => heq ▸ htaken⟩
      · rw [List.map_append, List.mem_append, List.map_singleton, List.mem_singleton]

/-- Every key is kept. -/
theorem mem_map_keepFirst {k : κ} {l : List α} : k ∈ (keepFirst key l).map key ↔ k ∈ l.map key := by
  rw [keepFirst, mem_map_foldl_stage]
  simp

theorem keepFirst_append {l l' : List α} (h : ∀ x ∈ l, ∀ y ∈ l', key x ≠ key y) :
    keepFirst key (l ++ l') = keepFirst key l ++ keepFirst key l' := by
  have happend := @foldl_stage_append α κ _ key (keepFirst key l) [] l'
    fun x hx => h x (mem_of_mem_keepFirst hx)
  rw [List.append_nil] at happend
  rw [keepFirst, List.foldl_append]
  exact happend

theorem keepFirst_flatMap {ι : Type} {f : ι → List α} {l : List ι}
    (h : l.Pairwise fun i j => ∀ x ∈ f i, ∀ y ∈ f j, key x ≠ key y) :
    keepFirst key (l.flatMap f) = l.flatMap fun i => keepFirst key (f i) := by
  induction l with
  | nil => rfl
  | cons i l ih =>
      obtain ⟨hfirst, hrest⟩ := List.pairwise_cons.mp h
      rw [List.flatMap_cons, List.flatMap_cons, ← ih hrest]
      refine keepFirst_append fun x hx y hy => ?_
      obtain ⟨j, hj, hy⟩ := List.mem_flatMap.mp hy
      exact hfirst j hj x hx y hy

end AutomatisedPipeline.KeepFirst

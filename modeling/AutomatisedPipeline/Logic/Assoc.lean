import Mathlib.Tactic

/-!
Maps as lists of entries.

`upsert` is the entry API of a map with an update of the entry. The entries of a map
built by `upsert` have different keys; where the update adds, `total` says what has been
added at a key, and `collect` is the map that items add up to.
-/

namespace AutomatisedPipeline.Assoc

variable {κ β : Type} [DecidableEq κ]

/-- Updates the entry at `key`, or the entry `absent` where there is none. -/
def upsert (key : κ) (absent : β) (update : β → β) : List (κ × β) → List (κ × β)
  | [] => [(key, update absent)]
  | (k, v) :: rest =>
      if k = key then (k, update v) :: rest else (k, v) :: upsert key absent update rest

theorem lookup_upsert [BEq κ] [LawfulBEq κ] (key other : κ) (absent : β) (update : β → β)
    (entries : List (κ × β)) :
    (upsert key absent update entries).lookup other =
      if other = key then some (update ((entries.lookup key).getD absent))
      else entries.lookup other := by
  induction entries with
  | nil =>
      rw [upsert, List.lookup_cons]
      by_cases h : other = key
      · simp [h]
      · simp [h, beq_eq_false_iff_ne.mpr h]
  | cons entry entries ih =>
      obtain ⟨k, v⟩ := entry
      rw [upsert]
      by_cases hk : k = key
      · subst hk
        rw [if_pos rfl]
        by_cases h : other = k
        · simp [h]
        · simp [h, List.lookup_cons, beq_eq_false_iff_ne.mpr h]
      · have hkey : (key == k) = false := beq_eq_false_iff_ne.mpr (Ne.symm hk)
        rw [if_neg hk, List.lookup_cons, List.lookup_cons, List.lookup_cons, ih, hkey]
        by_cases h : other = key
        · simp [h, hkey]
        · simp [h]

theorem mem_keys_upsert {key other : κ} {absent : β} {update : β → β} {entries : List (κ × β)} :
    other ∈ (upsert key absent update entries).map Prod.fst ↔
      other = key ∨ other ∈ entries.map Prod.fst := by
  induction entries with
  | nil => simp [upsert]
  | cons entry entries ih =>
      rw [upsert]
      split
      · rename_i hk
        simp only [List.map_cons, List.mem_cons, hk]
        tauto
      · simp only [List.map_cons, List.mem_cons, ih]
        tauto

/-- An update keeps the keys different. -/
theorem nodup_keys_upsert (key : κ) (absent : β) (update : β → β) {entries : List (κ × β)}
    (h : (entries.map Prod.fst).Nodup) : ((upsert key absent update entries).map Prod.fst).Nodup := by
  induction entries with
  | nil => simp [upsert]
  | cons entry entries ih =>
      rw [List.map_cons, List.nodup_cons] at h
      rw [upsert]
      split
      · exact List.nodup_cons.mpr h
      · rename_i hk
        rw [List.map_cons, List.nodup_cons, mem_keys_upsert]
        exact ⟨by rintro (heq | hmem); exacts [hk heq, h.1 hmem], ih h.2⟩

/-- After many updates, the entry at a key has had those of its key, one after the other. -/
theorem lookup_foldl_upsert [BEq κ] [LawfulBEq κ] {α : Type} (keyOf : α → κ) (absent : β)
    (update : α → β → β) (items : List α) (entries : List (κ × β)) (key : κ) :
    (items.foldl (fun entries a => upsert (keyOf a) absent (update a) entries) entries).lookup key =
      (items.filter fun a => keyOf a = key).foldl
        (fun found a => some (update a (found.getD absent))) (entries.lookup key) := by
  induction items generalizing entries with
  | nil => rfl
  | cons a items ih =>
      rw [List.foldl_cons, ih, lookup_upsert, List.filter_cons]
      by_cases h : keyOf a = key
      · rw [if_pos h.symm, if_pos (decide_eq_true h), List.foldl_cons, h]
      · rw [if_neg (Ne.symm h), if_neg (by simpa using h)]

/-- Lists collected under their keys: what is found at a key are the lists of the key. -/
theorem lookup_gather [BEq κ] [LawfulBEq κ] {α γ : Type} (keyOf : α → κ) (valuesOf : α → List γ)
    (items : List α) (key : κ) :
    ((items.foldl (fun entries a => upsert (keyOf a) [] (· ++ valuesOf a) entries) []).lookup
      key).getD [] = (items.filter fun a => keyOf a = key).flatMap valuesOf := by
  have hrun : ∀ (items : List α) (entries : List (κ × List γ)),
      ((items.foldl (fun entries a => upsert (keyOf a) [] (· ++ valuesOf a) entries)
        entries).lookup key).getD [] =
        (entries.lookup key).getD [] ++ (items.filter fun a => keyOf a = key).flatMap valuesOf := by
    intro items
    induction items with
    | nil => simp
    | cons a items ih =>
        intro entries
        rw [List.foldl_cons, ih, lookup_upsert, List.filter_cons]
        by_cases h : keyOf a = key
        · simp [h]
        · simp [h, Ne.symm h]
  exact hrun items []

/-- Items collected under their keys: what is found at a key are the items of the key. -/
theorem lookup_group [BEq κ] [LawfulBEq κ] {α γ : Type} (keyOf : α → κ) (valueOf : α → γ)
    (items : List α) (key : κ) :
    ((items.foldl (fun entries a => upsert (keyOf a) [] (· ++ [valueOf a]) entries) []).lookup
      key).getD [] = (items.filter fun a => keyOf a = key).map valueOf := by
  rw [lookup_gather keyOf (fun a => [valueOf a]) items key]
  exact (List.map_eq_flatMap ..).symm

/-- The same update for each item: what is found has had one for each time the key comes. -/
theorem lookup_foldl_upsert_const [BEq κ] [LawfulBEq κ] (absent : β) (update : β → β)
    (items : List κ) (key : κ) :
    (items.foldl (fun entries k => upsert k absent update entries) []).lookup key =
      if key ∈ items then some (update^[items.count key] absent) else none := by
  have hrun : ∀ (items : List κ) (found : Option β), (∀ k ∈ items, k = key) →
      items.foldl (fun found _ => some (update (found.getD absent))) found =
        if items = [] then found else some (update^[items.length] (found.getD absent)) := by
    intro items
    induction items with
    | nil => exact fun found _ => rfl
    | cons k items ih =>
        intro found hkeys
        rw [List.foldl_cons, ih _ fun k' hk' => hkeys k' (List.mem_cons_of_mem _ hk')]
        rw [if_neg (List.cons_ne_nil k items), Option.getD_some, List.length_cons,
          Function.iterate_succ_apply]
        split
        · rename_i hnil
          rw [hnil]
          rfl
        · rfl
  have hkeys : ∀ k ∈ items.filter fun k => k = key, k = key :=
    fun k hk => of_decide_eq_true (List.mem_filter.mp hk).2
  have hcount : (items.filter fun k => k = key).length = items.count key := by
    rw [List.count_eq_length_filter]
    congr
    funext k
    exact (beq_eq_decide k key).symm
  rw [lookup_foldl_upsert (fun k => k) absent (fun _ => update) items [] key, hrun _ _ hkeys,
    hcount]
  by_cases hmem : key ∈ items
  · have hne : (items.filter fun k => k = key) ≠ [] := List.ne_nil_of_mem
      (List.mem_filter.mpr ⟨hmem, decide_eq_true rfl⟩)
    rw [if_neg hne, if_pos hmem]
    rfl
  · have hnil : (items.filter fun k => k = key) = [] := List.filter_eq_nil_iff.mpr
      fun k hk heq => hmem (of_decide_eq_true heq ▸ hk)
    rw [if_pos hnil, if_neg hmem]
    rfl

theorem mem_keys_foldl_upsert {absent : β} {update : β → β} {items : List κ}
    {entries : List (κ × β)} {key : κ} :
    key ∈ (items.foldl (fun entries k => upsert k absent update entries) entries).map Prod.fst ↔
      key ∈ entries.map Prod.fst ∨ key ∈ items := by
  induction items generalizing entries with
  | nil => simp
  | cons k items ih =>
      rw [List.foldl_cons, ih, mem_keys_upsert, List.mem_cons]
      tauto

theorem nodup_keys_foldl_upsert (absent : β) (update : β → β) (items : List κ) :
    ((items.foldl (fun entries k => upsert k absent update entries) []).map Prod.fst).Nodup := by
  apply List.foldlRecOn (motive := fun entries : List (κ × β) => (entries.map Prod.fst).Nodup)
  · exact List.nodup_nil
  · exact fun entries h k _ => nodup_keys_upsert k absent update h

/-- Updates that commute can come in any order. -/
theorem lookup_foldl_upsert_perm [BEq κ] [LawfulBEq κ] {α : Type} {keyOf : α → κ} {absent : β}
    {update : α → β → β} (hcomm : ∀ a b v, update a (update b v) = update b (update a v))
    {items items' : List α} (h : items.Perm items') (entries : List (κ × β)) (key : κ) :
    (items.foldl (fun entries a => upsert (keyOf a) absent (update a) entries) entries).lookup key =
      (items'.foldl (fun entries a => upsert (keyOf a) absent (update a) entries)
        entries).lookup key := by
  rw [lookup_foldl_upsert, lookup_foldl_upsert]
  apply (h.filter _).foldl_eq'
  intro a _ b _ found
  rw [Option.getD_some, Option.getD_some, hcomm]

/-- An update that adds `d` to the weight of the entry at `key` adds `d` to the sum. -/
theorem sum_upsert (key : κ) (absent : β) (update : β → β) (weight : κ → β → Nat) (d : Nat)
    (hupdate : ∀ v, weight key (update v) = weight key v + d) (habsent : weight key absent = 0)
    (entries : List (κ × β)) :
    ((upsert key absent update entries).map fun e => weight e.1 e.2).sum =
      (entries.map fun e => weight e.1 e.2).sum + d := by
  induction entries with
  | nil => simp [upsert, hupdate, habsent]
  | cons entry entries ih =>
      rw [upsert]
      split
      · rename_i hk
        simp only [List.map_cons, List.sum_cons, hk, hupdate]
        omega
      · simp only [List.map_cons, List.sum_cons, ih]
        omega

/-- One entry for each key that has a value. -/
theorem lookup_filterMap [BEq κ] [LawfulBEq κ] (keys : List κ) (value : κ → Option β) (key : κ) :
    (keys.filterMap fun k => (value k).map (k, ·)).lookup key =
      if key ∈ keys then value key else none := by
  induction keys with
  | nil => rfl
  | cons k keys ih =>
      by_cases hk : key = k
      · subst hk
        rw [if_pos List.mem_cons_self, List.filterMap_cons]
        cases hvalue : value key with
        | none =>
            rw [Option.map_none, ih]
            split
            · exact hvalue
            · rfl
        | some v =>
            rw [Option.map_some, List.lookup_cons, beq_self_eq_true]
      · have hkey : (key == k) = false := beq_eq_false_iff_ne.mpr hk
        have hmem : (key ∈ k :: keys) ↔ key ∈ keys := by simp [hk]
        rw [List.filterMap_cons]
        simp only [hmem, ← ih]
        cases value k with
        | none => rfl
        | some v =>
            rw [Option.map_some, List.lookup_cons, hkey]

/-- One entry for each key. -/
theorem lookup_map [BEq κ] [LawfulBEq κ] (keys : List κ) (value : κ → β) (key : κ) :
    (keys.map fun k => (k, value k)).lookup key =
      if key ∈ keys then some (value key) else none := by
  rw [← lookup_filterMap keys (fun k => some (value k)) key]
  simp only [Option.map_some, List.filterMap_eq_map']

/-! ### Entries taken out -/

section Remove

variable [BEq κ] [LawfulBEq κ]

theorem lookup_filter_ne (key other : κ) (entries : List (κ × β)) :
    (entries.filter fun e => e.1 ≠ key).lookup other =
      if other = key then none else entries.lookup other := by
  induction entries with
  | nil => simp
  | cons entry entries ih =>
      obtain ⟨k, v⟩ := entry
      by_cases hk : k = key
      · subst hk
        rw [List.filter_cons_of_neg (by simp), ih, List.lookup_cons]
        by_cases h : other = k
        · simp [h]
        · simp [h, beq_eq_false_iff_ne.mpr h]
      · rw [List.filter_cons_of_pos (by simpa using hk), List.lookup_cons, List.lookup_cons, ih]
        by_cases h : other = k
        · subst h
          simp [hk]
        · simp [beq_eq_false_iff_ne.mpr h]

omit [DecidableEq κ] in
theorem mem_of_lookup {key : κ} {v : β} {entries : List (κ × β)}
    (h : entries.lookup key = some v) : (key, v) ∈ entries := by
  obtain ⟨before, after, rfl, -⟩ := List.lookup_eq_some_iff.mp h
  simp

omit [DecidableEq κ] in
/-- Where the keys are different, an entry is what is looked up at its key. -/
theorem lookup_of_mem {entries : List (κ × β)} (hnodup : (entries.map Prod.fst).Nodup)
    {e : κ × β} (he : e ∈ entries) : entries.lookup e.1 = some e.2 := by
  induction entries with
  | nil => cases he
  | cons entry entries ih =>
      rw [List.map_cons, List.nodup_cons] at hnodup
      rcases List.mem_cons.mp he with rfl | hmem
      · rw [List.lookup_cons, beq_self_eq_true]
      · have hne : e.1 ≠ entry.1 := fun h => hnodup.1 (h ▸ List.mem_map_of_mem hmem)
        rw [List.lookup_cons, beq_eq_false_iff_ne.mpr hne]
        exact ih hnodup.2 hmem

end Remove

/-! ### Maps to numbers -/

section Total

variable [AddCommMonoid β]

/-- What the entries have at a key. -/
def total (entries : List (κ × β)) (key : κ) : β :=
  ((entries.filter fun e => e.1 = key).map Prod.snd).sum

@[simp] theorem total_nil (key : κ) : total ([] : List (κ × β)) key = 0 := rfl

theorem total_cons (e : κ × β) (entries : List (κ × β)) (key : κ) :
    total (e :: entries) key = (if e.1 = key then e.2 else 0) + total entries key := by
  by_cases h : e.1 = key
  · simp [total, h]
  · simp [total, h]

theorem total_upsert (key : κ) (w : β) (entries : List (κ × β)) (other : κ) :
    total (upsert key 0 (· + w) entries) other =
      total entries other + if key = other then w else 0 := by
  induction entries with
  | nil =>
      rw [upsert, total_cons, zero_add, add_comm]
  | cons entry entries ih =>
      rw [upsert]
      split
      · rename_i hk
        rw [total_cons, total_cons, hk]
        split_ifs
        · exact add_right_comm _ _ _
        · exact (add_zero _).symm
      · rw [total_cons, total_cons, ih, add_assoc]

theorem total_append (entries more : List (κ × β)) (key : κ) :
    total (entries ++ more) key = total entries key + total more key := by
  simp [total]

theorem total_perm {entries entries' : List (κ × β)} (h : entries.Perm entries') (key : κ) :
    total entries key = total entries' key :=
  ((h.filter _).map _).sum_eq

/-- What the entries have at all keys is what they have. -/
theorem sum_total [Fintype κ] (entries : List (κ × β)) :
    ∑ key, total entries key = (entries.map Prod.snd).sum := by
  induction entries with
  | nil => simp [total]
  | cons entry entries ih =>
      simp only [total_cons, Finset.sum_add_distrib, Finset.sum_ite_eq, Finset.mem_univ, if_true]
      rw [ih, List.map_cons, List.sum_cons]

/-- One more entry counts at the keys of a kind when its key is of the kind. -/
theorem sum_total_cons [Fintype κ] (p : κ → Prop) [DecidablePred p] (e : κ × β)
    (entries : List (κ × β)) :
    (∑ key, if p key then total (e :: entries) key else 0) =
      (if p e.1 then e.2 else 0) + ∑ key, if p key then total entries key else 0 := by
  have hsplit : ∀ key, (if p key then total (e :: entries) key else 0) =
      (if e.1 = key then if p e.1 then e.2 else 0 else 0) +
        if p key then total entries key else 0 := by
    intro key
    rw [total_cons]
    by_cases hkey : e.1 = key
    · subst hkey
      by_cases hp : p e.1
      · simp [hp]
      · simp [hp]
    · simp [hkey]
  simp only [hsplit, Finset.sum_add_distrib, Finset.sum_ite_eq, Finset.mem_univ, if_true]

/-- Where the keys are different, an entry is all there is at its key. -/
theorem total_eq_of_mem {entries : List (κ × β)} (hnodup : (entries.map Prod.fst).Nodup)
    {e : κ × β} (he : e ∈ entries) : total entries e.1 = e.2 := by
  induction entries with
  | nil => cases he
  | cons entry entries ih =>
      rw [List.map_cons, List.nodup_cons] at hnodup
      have hrest : ∀ key, key ∉ entries.map Prod.fst → total entries key = 0 := by
        intro key hkey
        have hnone : (entries.filter fun e => e.1 = key) = [] :=
          List.filter_eq_nil_iff.mpr fun e he h =>
            hkey (of_decide_eq_true h ▸ List.mem_map_of_mem he)
        rw [total, hnone]
        rfl
      rw [total_cons]
      rcases List.mem_cons.mp he with rfl | hmem
      · rw [if_pos rfl, hrest _ hnodup.1, add_zero]
      · have hne : entry.1 ≠ e.1 := fun h => hnodup.1 (h ▸ List.mem_map_of_mem hmem)
        rw [if_neg hne, zero_add, ih hnodup.2 hmem]

theorem getD_lookup_eq_total [BEq κ] [LawfulBEq κ] {entries : List (κ × β)}
    (hnodup : (entries.map Prod.fst).Nodup) (key : κ) :
    (entries.lookup key).getD 0 = total entries key := by
  induction entries with
  | nil => rfl
  | cons entry entries ih =>
      have hcons := hnodup
      rw [List.map_cons, List.nodup_cons] at hcons
      by_cases h : key = entry.1
      · subst h
        have hself : total (entry :: entries) entry.1 = entry.2 :=
          total_eq_of_mem hnodup List.mem_cons_self
        rw [hself, List.lookup_cons, beq_self_eq_true]
        rfl
      · rw [List.lookup_cons, beq_eq_false_iff_ne.mpr h, total_cons, if_neg (Ne.symm h), zero_add]
        exact ih hcons.2

/-! ### What items add up to -/

/-- The map that the items add up to, one after the other. -/
def collect (items : List (κ × β)) : List (κ × β) :=
  items.foldl (fun entries e => upsert e.1 0 (· + e.2) entries) []

theorem total_collect (items : List (κ × β)) (key : κ) :
    total (collect items) key = total items key := by
  have main : ∀ entries : List (κ × β), total
      (items.foldl (fun entries e => upsert e.1 0 (· + e.2) entries) entries) key =
        total entries key + total items key := by
    induction items with
    | nil => simp
    | cons e items ih =>
        intro entries
        rw [List.foldl_cons, ih, total_upsert, total_cons, add_assoc]
  rw [collect, main, total_nil, zero_add]

theorem mem_keys_collect {items : List (κ × β)} {key : κ} :
    key ∈ (collect items).map Prod.fst ↔ key ∈ items.map Prod.fst := by
  have main : ∀ entries : List (κ × β), key ∈
      (items.foldl (fun entries e => upsert e.1 0 (· + e.2) entries) entries).map Prod.fst ↔
        key ∈ entries.map Prod.fst ∨ key ∈ items.map Prod.fst := by
    induction items with
    | nil => simp
    | cons e items ih =>
        intro entries
        rw [List.foldl_cons, ih, mem_keys_upsert, List.map_cons, List.mem_cons]
        tauto
  rw [collect, main []]
  simp

theorem nodup_keys_collect (items : List (κ × β)) : ((collect items).map Prod.fst).Nodup := by
  apply List.foldlRecOn (motive := fun entries : List (κ × β) => (entries.map Prod.fst).Nodup)
  · exact List.nodup_nil
  · exact fun entries h e _ => nodup_keys_upsert e.1 0 (· + e.2) h

/-- Each key of the items has one entry, with all that the items have at it. -/
theorem mem_collect_iff {items : List (κ × β)} {key : κ} {v : β} :
    (key, v) ∈ collect items ↔ key ∈ items.map Prod.fst ∧ v = total items key := by
  have hvalue : ∀ e ∈ collect items, e.2 = total items e.1 := fun e he => by
    rw [← total_collect, total_eq_of_mem (nodup_keys_collect items) he]
  constructor
  · intro h
    exact ⟨mem_keys_collect.mp (List.mem_map_of_mem (f := Prod.fst) h), hvalue _ h⟩
  · rintro ⟨hkey, rfl⟩
    obtain ⟨e, he, rfl⟩ := List.mem_map.mp (mem_keys_collect.mpr hkey)
    rw [← hvalue e he]
    exact he

/-- The order of the items does not matter to the entries. -/
theorem collect_perm {items items' : List (κ × β)} (h : items.Perm items') :
    (collect items).Perm (collect items') := by
  have hnodup : ∀ items : List (κ × β), (collect items).Nodup :=
    fun items => (nodup_keys_collect items).of_map
  rw [List.perm_ext_iff_of_nodup (hnodup items) (hnodup items')]
  rintro ⟨key, v⟩
  rw [mem_collect_iff, mem_collect_iff, total_perm h, (h.map Prod.fst).mem_iff]

end Total

end AutomatisedPipeline.Assoc

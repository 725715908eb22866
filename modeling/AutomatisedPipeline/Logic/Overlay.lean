import Std.Data.TreeMap
import Mathlib.Tactic

/-!
Entries laid over an ordered map.

`overlay` inserts one entry after another, so the last entry of a key wins;
`fill` inserts where there is nothing yet, so what is there wins and the first
entry of a key comes next. The number of entries of a kind depends on what is
looked up only.
-/

namespace AutomatisedPipeline.Overlay

variable {κ β α : Type}

/-! ### Entries of a list with a key each -/

section Keyed

variable [BEq κ] [LawfulBEq κ] {keyOf : α → κ} {value : α → Option β}

/-- The entries of the elements that have a value. -/
def entriesOf (keyOf : α → κ) (value : α → Option β) (l : List α) : List (κ × β) :=
  l.filterMap fun a => (value a).map (keyOf a, ·)

theorem lookup_entriesOf_of_notMem {l : List α} {key : κ} (h : key ∉ l.map keyOf) :
    (entriesOf keyOf value l).lookup key = none := by
  rw [List.lookup_eq_none_iff]
  intro e he
  obtain ⟨a, ha, heq⟩ := List.mem_filterMap.mp he
  obtain ⟨v, _, rfl⟩ := Option.map_eq_some_iff.mp heq
  rw [bne_iff_ne]
  rintro rfl
  exact h (List.mem_map_of_mem ha)

/-- Where no two elements have one key, the entry of an element is its value. -/
theorem lookup_entriesOf {l : List α} (hnodup : (l.map keyOf).Nodup) {a : α} (ha : a ∈ l) :
    (entriesOf keyOf value l).lookup (keyOf a) = value a := by
  induction l with
  | nil => cases ha
  | cons b l ih =>
      rw [List.map_cons, List.nodup_cons] at hnodup
      have hcons : entriesOf keyOf value (b :: l) =
          ((value b).map (keyOf b, ·)).toList ++ entriesOf keyOf value l := by
        cases hb : value b with
        | none => simp [entriesOf, hb]
        | some v => simp [entriesOf, hb]
      rw [hcons, List.lookup_append]
      rcases List.mem_cons.mp ha with rfl | hmem
      · rw [lookup_entriesOf_of_notMem hnodup.1, Option.or_none]
        cases value a with
        | none => rfl
        | some v => simp
      · have hne : (keyOf a == keyOf b) = false :=
          beq_eq_false_iff_ne.mpr fun h => hnodup.1 (h ▸ List.mem_map_of_mem hmem)
        rw [ih hnodup.2 hmem]
        cases value b with
        | none => rfl
        | some v => simp [List.lookup_cons, hne]

omit [BEq κ] [LawfulBEq κ] in
/-- Where no two elements have one key, an element is found by its key. -/
theorem find?_keyOf [DecidableEq κ] {l : List α} (hnodup : (l.map keyOf).Nodup) {a : α}
    (ha : a ∈ l) : l.find? (fun b => keyOf b = keyOf a) = some a := by
  cases hfind : l.find? fun b => keyOf b = keyOf a with
  | none => exact absurd (List.find?_eq_none.mp hfind a ha) (by simp)
  | some b =>
      have hkey : keyOf b = keyOf a := by simpa using List.find?_some hfind
      rw [List.inj_on_of_nodup_map hnodup (List.mem_of_find?_eq_some hfind) ha hkey]

omit [BEq κ] [LawfulBEq κ] in
theorem reverse_entriesOf (l : List α) :
    (entriesOf keyOf value l).reverse = entriesOf keyOf value l.reverse := by
  rw [entriesOf, entriesOf, List.filterMap_reverse]

end Keyed

/-! ### Entries laid over a map -/

section Laid

variable [Ord κ]

/-- `map.insert(key, value)` for each entry. -/
def overlay (entries : List (κ × β)) (m : Std.TreeMap κ β compare) : Std.TreeMap κ β compare :=
  entries.foldl (fun m e => m.insert e.1 e.2) m

/-- `map.entry(key).or_insert(value)` for each entry. -/
def fill (entries : List (κ × β)) (m : Std.TreeMap κ β compare) : Std.TreeMap κ β compare :=
  entries.foldl (fun m e => m.insertIfNew e.1 e.2) m

theorem overlay_append (before after : List (κ × β)) (m : Std.TreeMap κ β compare) :
    overlay (before ++ after) m = overlay after (overlay before m) :=
  List.foldl_append

variable [Std.TransOrd κ] [Std.LawfulEqOrd κ] [BEq κ] [LawfulBEq κ]

theorem getElem?_overlay (entries : List (κ × β)) (m : Std.TreeMap κ β compare) (key : κ) :
    (overlay entries m)[key]? = (entries.reverse.lookup key).or m[key]? := by
  induction entries generalizing m with
  | nil => rfl
  | cons e entries ih =>
      have hstep : overlay (e :: entries) m = overlay entries (m.insert e.1 e.2) := rfl
      rw [hstep, ih, List.reverse_cons, List.lookup_append, Std.TreeMap.getElem?_insert,
        Option.or_assoc]
      congr 1
      rw [List.lookup_cons, List.lookup_nil]
      by_cases h : e.1 = key
      · simp [h]
      · simp [h, beq_eq_false_iff_ne.mpr (Ne.symm h)]

theorem getElem?_fill (entries : List (κ × β)) (m : Std.TreeMap κ β compare) (key : κ) :
    (fill entries m)[key]? = (m[key]?).or (entries.lookup key) := by
  induction entries generalizing m with
  | nil => simp [fill]
  | cons e entries ih =>
      have hstep : fill (e :: entries) m = fill entries (m.insertIfNew e.1 e.2) := rfl
      rw [hstep, ih, Std.TreeMap.getElem?_insertIfNew, List.lookup_cons]
      by_cases h : e.1 = key
      · subst h
        by_cases hmem : e.1 ∈ m
        · simp [hmem]
        · simp [hmem]
      · simp [h, beq_eq_false_iff_ne.mpr (Ne.symm h)]

variable {keyOf : α → κ} {value : α → Option β}

/-- What the map has under the key of an element once the entries are laid over it. -/
theorem getElem?_overlay_entriesOf {l : List α} (hnodup : (l.map keyOf).Nodup)
    (m : Std.TreeMap κ β compare) {a : α} (ha : a ∈ l) :
    (overlay (entriesOf keyOf value l) m)[keyOf a]? = (value a).or m[keyOf a]? := by
  have hreverse : (l.reverse.map keyOf).Nodup := by
    rw [List.map_reverse]
    exact List.nodup_reverse.mpr hnodup
  rw [getElem?_overlay, reverse_entriesOf,
    lookup_entriesOf hreverse (List.mem_reverse.mpr ha)]

theorem getElem?_overlay_entriesOf_of_notMem {l : List α} (m : Std.TreeMap κ β compare) {key : κ}
    (h : key ∉ l.map keyOf) : (overlay (entriesOf keyOf value l) m)[key]? = m[key]? := by
  have hreverse : key ∉ l.reverse.map keyOf := by
    rw [List.map_reverse]
    exact mt List.mem_reverse.mp h
  rw [getElem?_overlay, reverse_entriesOf, lookup_entriesOf_of_notMem hreverse, Option.none_or]

/-- Elements that all have the same value. -/
theorem getElem?_overlay_const {l : List α} {key : κ} (h : key ∈ l.map keyOf) (v : β)
    (m : Std.TreeMap κ β compare) :
    (overlay (entriesOf keyOf (fun _ => some v) l) m)[key]? = some v := by
  induction l generalizing m with
  | nil => cases h
  | cons a l ih =>
      have hstep : overlay (entriesOf keyOf (fun _ => some v) (a :: l)) m =
          overlay (entriesOf keyOf (fun _ => some v) l) (m.insert (keyOf a) v) := by
        simp [entriesOf, overlay]
      rw [hstep]
      by_cases hmem : key ∈ l.map keyOf
      · exact ih hmem _
      · rw [getElem?_overlay_entriesOf_of_notMem _ hmem]
        have hkey : key = keyOf a := (List.mem_cons.mp h).resolve_right hmem
        rw [hkey, Std.TreeMap.getElem?_insert_self]

/-! ### One map laid over another -/

omit [BEq κ] [LawfulBEq κ] in
theorem nodup_keys_toList (m : Std.TreeMap κ β compare) : (m.toList.map Prod.fst).Nodup := by
  have h := Std.TreeMap.distinct_keys_toList (t := m)
  rw [List.nodup_iff_pairwise_ne, List.pairwise_map]
  exact h.imp fun hne heq => hne (Std.compare_eq_iff_eq.mpr heq)

/-- The entries of a map that are of the kind, laid over another map. -/
theorem getElem?_overlay_filter_toList (p : κ → β → Bool) (top m : Std.TreeMap κ β compare)
    (key : κ) : (overlay (top.toList.filter fun e => p e.1 e.2) m)[key]? =
      ((top[key]?).filter (p key)).or m[key]? := by
  have hentries : top.toList.filter (fun e => p e.1 e.2) =
      entriesOf Prod.fst (fun e => if p e.1 e.2 then some e.2 else none) top.toList := by
    rw [entriesOf, ← List.filterMap_eq_filter]
    refine List.filterMap_congr fun e _ => ?_
    by_cases hp : p e.1 e.2 = true
    · simp [hp]
    · simp [hp]
  rw [hentries]
  cases htop : top[key]? with
  | none =>
      refine getElem?_overlay_entriesOf_of_notMem m fun hkey => ?_
      obtain ⟨⟨k, v⟩, he, rfl⟩ := List.mem_map.mp hkey
      rw [Std.TreeMap.mem_toList_iff_getElem?_eq_some.mp he] at htop
      cases htop
  | some v =>
      have hmem := Std.TreeMap.mem_toList_iff_getElem?_eq_some.mpr htop
      rw [getElem?_overlay_entriesOf (a := (key, v)) (nodup_keys_toList top) m hmem,
        Option.filter_some]

theorem getElem?_overlay_toList (top m : Std.TreeMap κ β compare) (key : κ) :
    (overlay top.toList m)[key]? = (top[key]?).or m[key]? := by
  have h := getElem?_overlay_filter_toList (fun _ _ => true) top m key
  rw [List.filter_true] at h
  rw [h]
  cases top[key]? <;> rfl

/-! ### Counting entries -/

omit [BEq κ] [LawfulBEq κ] in
/-- The entries whose value is of the kind are as many as the keys that have
such a value. -/
theorem countP_toList [DecidableEq κ] (m : Std.TreeMap κ β compare) (p : β → Bool)
    (keys : Finset κ) (hkeys : ∀ key, m[key]? ≠ none → key ∈ keys) :
    (m.toList.map Prod.snd).countP p = (keys.filter fun key => (m[key]?).any p).card := by
  have hdistinct := nodup_keys_toList m
  have hfilter : keys.filter (fun key => (m[key]?).any p) =
      ((m.toList.filter fun e => p e.2).map Prod.fst).toFinset := by
    apply Finset.ext
    intro key
    rw [Finset.mem_filter, List.mem_toFinset, List.mem_map]
    constructor
    · rintro ⟨-, hany⟩
      cases hget : m[key]? with
      | none => simp [hget] at hany
      | some v =>
          have hmem := Std.TreeMap.mem_toList_iff_getElem?_eq_some.mpr hget
          exact ⟨(key, v), List.mem_filter.mpr ⟨hmem, by simpa [hget] using hany⟩, rfl⟩
    · rintro ⟨⟨k, v⟩, he, rfl⟩
      obtain ⟨hmem, hp⟩ := List.mem_filter.mp he
      have hget := Std.TreeMap.mem_toList_iff_getElem?_eq_some.mp hmem
      exact ⟨hkeys k (by simp [hget]), by simpa [hget] using hp⟩
  rw [hfilter, List.toFinset_card_of_nodup (hdistinct.sublist (List.filter_sublist.map _)),
    List.length_map, List.countP_map, List.countP_eq_length_filter]
  rfl

end Laid

end AutomatisedPipeline.Overlay

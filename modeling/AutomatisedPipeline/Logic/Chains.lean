import AutomatisedPipeline.Logic.Assoc

/-!
Items that come one after the other, each linked to the latest item of its key.

The links run along the values of each key in their order (`mem_links`). Where no value
comes twice, that makes one chain of each key: a value has at most one link to an earlier
one and at most one from a later one, and no value leads back to itself.
-/

namespace AutomatisedPipeline.Chains

open Assoc

variable {κ β : Type} [DecidableEq κ]

/-- The values of a key, in their order. -/
def valuesOf (key : κ) (items : List (κ × β)) : List β :=
  (items.filter fun item => item.1 = key).map Prod.snd

theorem valuesOf_cons_self (key : κ) (w : β) (items : List (κ × β)) :
    valuesOf key ((key, w) :: items) = w :: valuesOf key items := by
  rw [valuesOf, List.filter_cons_of_pos (by simp)]
  rfl

theorem valuesOf_cons_of_ne {key k : κ} (hk : k ≠ key) (w : β) (items : List (κ × β)) :
    valuesOf k ((key, w) :: items) = valuesOf k items := by
  rw [valuesOf, List.filter_cons_of_neg (by simpa using Ne.symm hk), valuesOf]

theorem valuesOf_sublist (key : κ) (items : List (κ × β)) :
    (valuesOf key items).Sublist (items.map Prod.snd) :=
  List.filter_sublist.map Prod.snd

/-- A value that comes once has one key. -/
theorem key_unique {items : List (κ × β)} (h : (items.map Prod.snd).Nodup) {key key' : κ} {v : β}
    (hv : v ∈ valuesOf key items) (hv' : v ∈ valuesOf key' items) : key = key' := by
  obtain ⟨item, hitem, rfl⟩ := List.mem_map.mp hv
  obtain ⟨item', hitem', heq⟩ := List.mem_map.mp hv'
  obtain ⟨hmem, hkey⟩ := List.mem_filter.mp hitem
  obtain ⟨hmem', hkey'⟩ := List.mem_filter.mp hitem'
  have hsame := List.inj_on_of_nodup_map h hmem hmem' heq.symm
  rw [← of_decide_eq_true hkey, ← of_decide_eq_true hkey', hsame]

/-- Two values stand next to each other behind a value when they are its first two, or do so
further on. -/
theorem pair_infix_cons {prev v p w : β} {l : List β} :
    [prev, v] <:+: p :: w :: l ↔ (prev = p ∧ v = w) ∨ [prev, v] <:+: w :: l := by
  rw [List.infix_cons_iff, List.cons_prefix_cons, List.cons_prefix_cons]
  simp only [List.nil_prefix, and_true]

theorem not_pair_infix {prev v : β} {l : List β} (hl : l.length ≤ 1) : ¬ [prev, v] <:+: l :=
  fun h => absurd (h.length_le.trans hl) (by simp)

/-- Links each value to the value before it of the same key; `last` has the latest values of
the items gone by. -/
def links [BEq κ] (last : List (κ × β)) : List (κ × β) → List (β × β)
  | [] => []
  | (key, v) :: items =>
      ((last.lookup key).map fun prev => (v, prev)).toList ++
        links (upsert key v (fun _ => v) last) items

/-- The latest values once the items have gone by. -/
def latest (last items : List (κ × β)) : List (κ × β) :=
  items.foldl (fun last item => upsert item.1 item.2 (fun _ => item.2) last) last

variable [BEq κ]

theorem links_append (last items items' : List (κ × β)) :
    links last (items ++ items') = links last items ++ links (latest last items) items' := by
  induction items generalizing last with
  | nil => rfl
  | cons item items ih =>
      obtain ⟨key, v⟩ := item
      rw [List.cons_append, links, links, ih, List.append_assoc]
      rfl

theorem map_fst_links_sublist (last items : List (κ × β)) :
    ((links last items).map Prod.fst).Sublist (items.map Prod.snd) := by
  induction items generalizing last with
  | nil => exact List.Sublist.slnil
  | cons item items ih =>
      obtain ⟨key, v⟩ := item
      rw [links, List.map_append, List.map_cons]
      cases last.lookup key with
      | none => exact (ih _).cons v
      | some prev => exact (ih _).cons_cons v

variable [LawfulBEq κ]

/-! What goes by after an item: its own key goes on from its value, the other keys go on as they
were. -/

theorem chain_self (last items : List (κ × β)) (key : κ) (w : β) :
    ((upsert key w (fun _ => w) last).lookup key).toList ++ valuesOf key items =
      valuesOf key ((key, w) :: items) := by
  rw [lookup_upsert, if_pos rfl, valuesOf_cons_self]
  rfl

theorem chain_of_ne (last items : List (κ × β)) {key k : κ} (hk : k ≠ key) (w : β) :
    ((upsert key w (fun _ => w) last).lookup k).toList ++ valuesOf k items =
      (last.lookup k).toList ++ valuesOf k ((key, w) :: items) := by
  rw [lookup_upsert, if_neg hk, valuesOf_cons_of_ne hk]

/-- A link joins two values of a key that stand next to each other. -/
theorem mem_links_from {last items : List (κ × β)} {v prev : β} :
    (v, prev) ∈ links last items ↔
      ∃ key, [prev, v] <:+: (last.lookup key).toList ++ valuesOf key items := by
  induction items generalizing last with
  | nil =>
      refine iff_of_false List.not_mem_nil ?_
      rintro ⟨key, h⟩
      refine not_pair_infix ?_ h
      cases last.lookup key <;> simp [valuesOf]
  | cons item items ih =>
      obtain ⟨key, w⟩ := item
      -- a link of the first item, or one further on
      have hstep : (v, prev) ∈ links last ((key, w) :: items) ↔
          (last.lookup key = some prev ∧ v = w) ∨ ∃ k, [prev, v] <:+:
            ((upsert key w (fun _ => w) last).lookup k).toList ++ valuesOf k items := by
        rw [links, List.mem_append, ih]
        refine or_congr_left ?_
        cases last.lookup key <;> simp [and_comm, eq_comm]
      rw [hstep]
      constructor
      · rintro (⟨hlast, rfl⟩ | ⟨k, hk⟩)
        · refine ⟨key, ?_⟩
          rw [hlast, valuesOf_cons_self]
          exact pair_infix_cons.mpr (.inl ⟨rfl, rfl⟩)
        · by_cases heq : k = key
          · subst heq
            rw [chain_self] at hk
            exact ⟨k, hk.trans (List.suffix_append _ _).isInfix⟩
          · exact ⟨k, chain_of_ne last items heq w ▸ hk⟩
      · rintro ⟨k, hk⟩
        by_cases heq : k = key
        · subst heq
          cases hlast : last.lookup k with
          | none =>
              rw [hlast, Option.toList_none, List.nil_append, ← chain_self last] at hk
              exact .inr ⟨k, hk⟩
          | some p =>
              rw [hlast, valuesOf_cons_self, Option.toList_some, List.singleton_append,
                pair_infix_cons] at hk
              obtain ⟨rfl, rfl⟩ | hk := hk
              · exact .inl ⟨rfl, rfl⟩
              · rw [← valuesOf_cons_self, ← chain_self last] at hk
                exact .inr ⟨k, hk⟩
        · exact .inr ⟨k, (chain_of_ne last items heq w).symm ▸ hk⟩

theorem mem_links {items : List (κ × β)} {v prev : β} :
    (v, prev) ∈ links [] items ↔ ∃ key, [prev, v] <:+: valuesOf key items :=
  mem_links_from

/-- A link leads to a value that came before. -/
theorem sublist_of_mem_links {items : List (κ × β)} {v prev : β}
    (hlink : (v, prev) ∈ links [] items) : [prev, v].Sublist (items.map Prod.snd) := by
  obtain ⟨key, hkey⟩ := mem_links.mp hlink
  exact hkey.sublist.trans (valuesOf_sublist key items)

/-! ### Values that come once -/

/-- Two values behind the same value of a list are the same one. -/
theorem next_unique {l : List β} (hl : l.Nodup) {a b c : β} (hb : [a, b] <:+: l)
    (hc : [a, c] <:+: l) : b = c := by
  induction l with
  | nil => exact absurd hb.length_le (by simp)
  | cons x l ih =>
      obtain ⟨hx, hl⟩ := List.nodup_cons.mp hl
      have hmem : ∀ {d}, [a, d] <:+: l → a ∈ l := fun hd => hd.subset List.mem_cons_self
      rw [List.infix_cons_iff] at hb hc
      obtain hb | hb := hb <;> obtain hc | hc := hc
      · obtain ⟨l', rfl⟩ := (List.cons_prefix_cons.mp hb).2
        exact (List.cons_prefix_cons.mp (List.cons_prefix_cons.mp hc).2).1.symm
      · exact absurd ((List.cons_prefix_cons.mp hb).1 ▸ hmem hc) hx
      · exact absurd ((List.cons_prefix_cons.mp hc).1 ▸ hmem hb) hx
      · exact ih hl hb hc

/-- Of two values that stand in this order, the first comes first. -/
theorem idxOf_lt [BEq β] [LawfulBEq β] {l : List β} (hl : l.Nodup) {a b : β}
    (hab : [a, b].Sublist l) : l.idxOf a < l.idxOf b := by
  induction l with
  | nil => cases hab
  | cons x l ih =>
      obtain ⟨hx, hl⟩ := List.nodup_cons.mp hl
      cases hab with
      | cons _ hab =>
          have ha : x ≠ a := fun heq => hx (heq ▸ hab.subset List.mem_cons_self)
          have hb : x ≠ b := fun heq => hx (heq ▸ hab.subset (by simp))
          rw [List.idxOf_cons_ne _ ha, List.idxOf_cons_ne _ hb]
          exact Nat.succ_lt_succ (ih hl hab)
      | cons_cons _ hb =>
          have hne : a ≠ b := fun heq => hx (heq ▸ hb.subset List.mem_cons_self)
          rw [List.idxOf_cons_self, List.idxOf_cons_ne _ hne]
          exact Nat.succ_pos _

section Once

variable {items : List (κ × β)} (h : (items.map Prod.snd).Nodup)

include h

omit [LawfulBEq κ] in
/-- A value is linked to at most one earlier value. -/
theorem nodup_fst_links : ((links [] items).map Prod.fst).Nodup :=
  h.sublist (map_fst_links_sublist [] items)

/-- At most one later value is linked to a value. -/
theorem nodup_snd_links : ((links [] items).map Prod.snd).Nodup := by
  refine List.Nodup.map_on ?_ (List.Nodup.of_map Prod.fst (nodup_fst_links h))
  rintro ⟨v, prev⟩ hv ⟨w, prev'⟩ hw heq
  obtain rfl : prev = prev' := heq
  obtain ⟨key, hkey⟩ := mem_links.mp hv
  obtain ⟨key', hkey'⟩ := mem_links.mp hw
  obtain rfl := key_unique h (hkey.subset List.mem_cons_self) (hkey'.subset List.mem_cons_self)
  rw [next_unique (h.sublist (valuesOf_sublist key items)) hkey hkey']

/-- No value leads back to itself. -/
theorem acyclic_links (v : β) :
    ¬ Relation.TransGen (fun a b => (a, b) ∈ links [] items) v v := by
  classical
  have hdown : ∀ {a b}, Relation.TransGen (fun a b => (a, b) ∈ links [] items) a b →
      (items.map Prod.snd).idxOf b < (items.map Prod.snd).idxOf a := by
    intro a b hab
    induction hab with
    | single hlink => exact idxOf_lt h (sublist_of_mem_links hlink)
    | tail _ hlink ih => exact (idxOf_lt h (sublist_of_mem_links hlink)).trans ih
  exact fun hcycle => lt_irrefl _ (hdown hcycle)

end Once

end AutomatisedPipeline.Chains

import Mathlib.Tactic

/-!
A walk from node to node, with a stack and a set of keys.

`walk` takes the node on top of the stack. It passes over a node whose key it has seen;
any other node it visits, and what lies below goes on the stack. `preorder` lists
everything below a node, whatever the keys are.

Where keys grow on the way down and a key decides the keys below, passing over a node
loses no key: the walk visits the first node of each key (`walk_eq_firsts`). It ends
exactly when there is a bound on the ways down (`walk_ends_iff`).
-/

namespace AutomatisedPipeline.Walk

section Marked

variable {ν κ : Type}

/-- The keys seen once `visited` has been visited. -/
def marked (key : ν → κ) (seen : List κ) (visited : List ν) : List κ := (visited.map key).reverse ++ seen

variable {key : ν → κ}

@[simp] theorem marked_nil (seen : List κ) : marked key seen [] = seen := rfl

@[simp] theorem marked_cons (seen : List κ) (v : ν) (visited : List ν) :
    marked key seen (v :: visited) = marked key (key v :: seen) visited := by
  simp [marked]

theorem mem_marked {seen : List κ} {visited : List ν} {k : κ} :
    k ∈ marked key seen visited ↔ k ∈ seen ∨ ∃ v ∈ visited, key v = k := by
  rw [marked, List.mem_append, List.mem_reverse, List.mem_map, or_comm]

theorem marked_append (seen : List κ) (vs ws : List ν) :
    marked key (marked key seen vs) ws = marked key seen (vs ++ ws) := by
  simp [marked]

end Marked

section Walk

variable {ν κ : Type} [DecidableEq κ] (key : ν → κ) (next : ν → List ν)

/-- The loop over the stack, its top first: the visited nodes in order, `none` when the
fuel runs out. What lies below a node is put on the stack in order, so that the last is
taken next. -/
def walk : Nat → List ν → List κ → Option (List ν)
  | _, [], _ => some []
  | 0, _ :: _, _ => none
  | fuel + 1, v :: pending, seen =>
      if key v ∈ seen then walk fuel pending seen
      else (walk fuel ((next v).reverse ++ pending) (key v :: seen)).map (v :: ·)

/-- A node and all that lies at most `n` levels down, in the order of the stack. -/
def preorder : Nat → ν → List ν
  | 0, _ => []
  | n + 1, v => v :: (next v).reverse.flatMap (preorder n)

/-- Every way down from the node passes at most `n` nodes. -/
def Bounded : Nat → ν → Prop
  | 0, _ => False
  | n + 1, v => ∀ w ∈ next v, Bounded n w

/-- The first node of each key that has not been seen. -/
def firsts : List κ → List ν → List ν
  | _, [] => []
  | seen, v :: vs => if key v ∈ seen then firsts seen vs else v :: firsts (key v :: seen) vs

/-! ### The stack -/

variable {key next}

/-- More fuel changes nothing. -/
theorem walk_more {fuel : Nat} {pending : List ν} {seen : List κ} {out : List ν}
    (h : walk key next fuel pending seen = some out) (more : Nat) :
    walk key next (fuel + more) pending seen = some out := by
  induction fuel generalizing pending seen out with
  | zero =>
      cases pending with
      | nil => cases more <;> exact h
      | cons v pending => simp [walk] at h
  | succ fuel ih =>
      cases pending with
      | nil => rw [Nat.succ_add]; exact h
      | cons v pending =>
          rw [Nat.succ_add]
          rw [walk] at h ⊢
          split
          · rename_i hseen
            rw [if_pos hseen] at h
            exact ih h
          · rename_i hseen
            rw [if_neg hseen] at h
            obtain ⟨rest, hrest, rfl⟩ := Option.map_eq_some_iff.mp h
            rw [ih hrest]
            rfl

/-- Two fuels that suffice give the same visits. -/
theorem walk_unique {fuel fuel' : Nat} {pending : List ν} {seen : List κ} {out out' : List ν}
    (h : walk key next fuel pending seen = some out)
    (h' : walk key next fuel' pending seen = some out') : out = out' := by
  have hmore := walk_more h fuel'
  rw [Nat.add_comm, walk_more h' fuel] at hmore
  exact (Option.some.inj hmore).symm

/-- What is deeper in the stack waits for what is above it. -/
theorem walk_append {fuel fuel' : Nat} {above below : List ν} {seen : List κ} {out out' : List ν}
    (h : walk key next fuel above seen = some out)
    (h' : walk key next fuel' below (marked key seen out) = some out') :
    walk key next (fuel + fuel') (above ++ below) seen = some (out ++ out') := by
  induction fuel generalizing above seen out with
  | zero =>
      cases above with
      | nil =>
          obtain rfl : [] = out := by simpa [walk] using h
          rw [Nat.add_comm]
          exact walk_more h' 0
      | cons v above => simp [walk] at h
  | succ fuel ih =>
      cases above with
      | nil =>
          obtain rfl : [] = out := by simpa [walk] using h
          rw [Nat.add_comm]
          exact walk_more h' _
      | cons v above =>
          rw [Nat.succ_add, List.cons_append]
          rw [walk] at h ⊢
          split
          · rename_i hseen
            rw [if_pos hseen] at h
            exact ih h h'
          · rename_i hseen
            rw [if_neg hseen] at h
            obtain ⟨rest, hrest, rfl⟩ := Option.map_eq_some_iff.mp h
            rw [marked_cons] at h'
            rw [← List.append_assoc, ih hrest h']
            rfl

theorem firsts_append (seen : List κ) (vs ws : List ν) :
    firsts key seen (vs ++ ws) =
      firsts key seen vs ++ firsts key (marked key seen (firsts key seen vs)) ws := by
  induction vs generalizing seen with
  | nil => rfl
  | cons v vs ih =>
      rw [List.cons_append, firsts, firsts]
      split
      · exact ih seen
      · rw [ih, marked_cons, List.cons_append]

theorem firsts_eq_nil {seen : List κ} {vs : List ν} (h : ∀ v ∈ vs, key v ∈ seen) :
    firsts key seen vs = [] := by
  induction vs with
  | nil => rfl
  | cons v vs ih =>
      rw [firsts, if_pos (h v (by simp))]
      exact ih fun w hw => h w (by simp [hw])

theorem mem_of_mem_firsts {seen : List κ} {vs : List ν} {v : ν} (h : v ∈ firsts key seen vs) :
    v ∈ vs := by
  induction vs generalizing seen with
  | nil => exact h
  | cons w vs ih =>
      rw [firsts] at h
      split at h
      · exact List.mem_cons_of_mem w (ih h)
      · rcases List.mem_cons.mp h with rfl | h
        · exact List.mem_cons_self
        · exact List.mem_cons_of_mem w (ih h)

/-- Every key is seen or has a first node. -/
theorem exists_first {seen : List κ} {vs : List ν} {v : ν} (h : v ∈ vs) :
    key v ∈ marked key seen (firsts key seen vs) := by
  induction vs generalizing seen with
  | nil => cases h
  | cons w vs ih =>
      rw [firsts]
      split
      · rename_i hseen
        rcases List.mem_cons.mp h with rfl | h
        · exact mem_marked.mpr (.inl hseen)
        · exact ih h
      · rw [marked_cons]
        rcases List.mem_cons.mp h with rfl | h
        · exact mem_marked.mpr (.inl (by simp))
        · exact ih h

omit [DecidableEq κ] in
theorem mem_preorder_self {n : Nat} {v : ν} (h : Bounded next n v) : v ∈ preorder next n v := by
  cases n with
  | zero => exact h.elim
  | succ n => exact List.mem_cons_self

omit [DecidableEq κ] in
theorem mem_below {n : Nat} {v w : ν} (hw : w ∈ next v) (h : Bounded next n w) :
    w ∈ (next v).reverse.flatMap (preorder next n) :=
  List.mem_flatMap.mpr ⟨w, List.mem_reverse.mpr hw, mem_preorder_self h⟩

/-! ### Keys that grow on the way down -/

/-- Keys grow on the way down, and a key decides the keys below. -/
structure Keyed (key : ν → κ) (next : ν → List ν) (rank : κ → Nat) : Prop where
  grows : ∀ v, ∀ w ∈ next v, rank (key v) < rank (key w)
  decides : ∀ u v, key u = key v → (next u).map key = (next v).map key

section Keyed

variable {rank : κ → Nat} (hk : Keyed key next rank)
include hk

omit [DecidableEq κ] in
theorem Keyed.exists_below {u v w : ν} (h : key u = key v) (hw : w ∈ next u) :
    ∃ w' ∈ next v, key w' = key w := by
  have hmem : key w ∈ (next v).map key := hk.decides u v h ▸ List.mem_map_of_mem hw
  exact List.mem_map.mp hmem

omit [DecidableEq κ] in
theorem Keyed.rank_le_of_mem_preorder {n : Nat} {v w : ν} (h : w ∈ preorder next n v) :
    rank (key v) ≤ rank (key w) := by
  induction n generalizing v with
  | zero => cases h
  | succ n ih =>
      rcases List.mem_cons.mp h with rfl | h
      · exact Nat.le_refl _
      · obtain ⟨u, hu, hw⟩ := List.mem_flatMap.mp h
        exact Nat.le_trans (Nat.le_of_lt (hk.grows v u (List.mem_reverse.mp hu))) (ih hw)

omit [DecidableEq κ] in
theorem Keyed.rank_lt_of_mem_below {n : Nat} {v w : ν}
    (h : w ∈ (next v).reverse.flatMap (preorder next n)) : rank (key v) < rank (key w) := by
  obtain ⟨u, hu, hw⟩ := List.mem_flatMap.mp h
  exact Nat.lt_of_lt_of_le (hk.grows v u (List.mem_reverse.mp hu)) (hk.rank_le_of_mem_preorder hw)

/-- With every seen key from a rank on, the keys below it have been seen. -/
def Closed (key : ν → κ) (next : ν → List ν) (rank : κ → Nat) (r : Nat) (seen : List κ) : Prop :=
  ∀ v, key v ∈ seen → r ≤ rank (key v) → ∀ w ∈ next v, key w ∈ seen

omit [DecidableEq κ] in
theorem Keyed.preorder_seen {r n : Nat} {seen : List κ} (hclosed : Closed key next rank r seen)
    {v : ν} (hv : key v ∈ seen) (hr : r ≤ rank (key v)) :
    ∀ w ∈ preorder next n v, key w ∈ seen := by
  induction n generalizing v with
  | zero => simp [preorder]
  | succ n ih =>
      intro w hw
      rcases List.mem_cons.mp hw with rfl | hw
      · exact hv
      · obtain ⟨u, hu, hw⟩ := List.mem_flatMap.mp hw
        have hu := List.mem_reverse.mp hu
        exact ih (hclosed v hv hr u hu) (Nat.le_trans hr (Nat.le_of_lt (hk.grows v u hu))) w hw

omit [DecidableEq κ] in
/-- A node closes once the nodes below it have been visited: what the visits below added is
of higher rank. -/
theorem Keyed.closed_visit {r : Nat} {seen : List κ} {v : ν} {visited : List ν}
    (hclosed : Closed key next rank r seen)
    (hvisited : ∀ w ∈ visited, rank (key v) < rank (key w))
    (hbelow : ∀ w ∈ next v, key w ∈ marked key (key v :: seen) visited)
    (hclosed' : Closed key next rank (rank (key v) + 1) (marked key (key v :: seen) visited)) :
    Closed key next rank r (marked key (key v :: seen) visited) := by
  intro u hu hr w hw
  rcases mem_marked.mp hu with hold | ⟨u', hu', heq⟩
  · rcases List.mem_cons.mp hold with heq | hold
    · obtain ⟨w', hw', hkey⟩ := hk.exists_below heq hw
      exact hkey ▸ hbelow w' hw'
    · exact mem_marked.mpr (.inl (List.mem_cons_of_mem _ (hclosed u hold hr w hw)))
  · exact hclosed' u hu (heq ▸ hvisited u' hu') w hw

/-- The walk visits the first node of each key and leaves what it has seen closed. -/
theorem Keyed.walk_list {r n : Nat} {seen : List κ} {vs : List ν}
    (hclosed : Closed key next rank r seen)
    (hvs : ∀ v ∈ vs, Bounded next n v ∧ r ≤ rank (key v)) :
    (∃ fuel, walk key next fuel vs seen = some (firsts key seen (vs.flatMap (preorder next n)))) ∧
      Closed key next rank r
        (marked key seen (firsts key seen (vs.flatMap (preorder next n)))) := by
  induction n generalizing r seen vs with
  | zero =>
      cases vs with
      | nil => exact ⟨⟨0, rfl⟩, hclosed⟩
      | cons v vs => exact ((hvs v (by simp)).1).elim
  | succ n ihn =>
      induction vs generalizing seen with
      | nil => exact ⟨⟨0, rfl⟩, hclosed⟩
      | cons v vs ihvs =>
          have hrest : ∀ w ∈ vs, Bounded next (n + 1) w ∧ r ≤ rank (key w) :=
            fun w hw => hvs w (List.mem_cons_of_mem v hw)
          have hr := (hvs v List.mem_cons_self).2
          by_cases hseen : key v ∈ seen
          · have hnone : firsts key seen (preorder next (n + 1) v) = [] :=
              firsts_eq_nil (hk.preorder_seen hclosed hseen hr)
            rw [List.flatMap_cons, firsts_append, hnone, List.nil_append, marked_nil]
            obtain ⟨⟨fuel, hfuel⟩, hclosed'⟩ := ihvs hclosed hrest
            refine ⟨⟨fuel + 1, ?_⟩, hclosed'⟩
            rw [walk, if_pos hseen]
            exact hfuel
          · have hbelow : ∀ w ∈ (next v).reverse,
                Bounded next n w ∧ rank (key v) + 1 ≤ rank (key w) := by
              intro w hw
              have hw := List.mem_reverse.mp hw
              exact ⟨(hvs v List.mem_cons_self).1 w hw, hk.grows v w hw⟩
            have hclosedv : Closed key next rank (rank (key v) + 1) (key v :: seen) := by
              intro u hu hru w hw
              rcases List.mem_cons.mp hu with heq | hu
              · rw [heq] at hru
                omega
              · exact List.mem_cons_of_mem _ (hclosed u hu (by omega) w hw)
            obtain ⟨⟨fuel, hfuel⟩, hclosed'⟩ := ihn hclosedv hbelow
            have hclosed' := hk.closed_visit hclosed
              (fun w hw => hk.rank_lt_of_mem_below (mem_of_mem_firsts hw))
              (fun w hw => exists_first (mem_below hw (hbelow w (List.mem_reverse.mpr hw)).1))
              hclosed'
            obtain ⟨⟨fuel', hfuel'⟩, hclosed''⟩ := ihvs hclosed' hrest
            rw [List.flatMap_cons, preorder, List.cons_append, firsts, if_neg hseen, firsts_append,
              marked_cons, ← marked_append]
            refine ⟨⟨fuel + fuel' + 1, ?_⟩, hclosed''⟩
            rw [walk, if_neg hseen, walk_append hfuel hfuel']
            rfl

/-- A walk that ends has seen, with every key, the keys below it. -/
theorem Keyed.walk_closed {fuel : Nat} {pending : List ν} {seen : List κ} {out : List ν}
    (h : walk key next fuel pending seen = some out)
    (hseen : ∀ v, key v ∈ seen → ∀ w ∈ next v, key w ∈ seen ∨ ∃ p ∈ pending, key p = key w) :
    (∀ p ∈ pending, key p ∈ marked key seen out) ∧
      ∀ v, key v ∈ marked key seen out → ∀ w ∈ next v, key w ∈ marked key seen out := by
  induction fuel generalizing pending seen out with
  | zero =>
      cases pending with
      | nil =>
          obtain rfl : [] = out := by simpa [walk] using h
          exact ⟨by simp, fun v hv w hw => by simpa using hseen v hv w hw⟩
      | cons v pending => simp [walk] at h
  | succ fuel ih =>
      cases pending with
      | nil =>
          obtain rfl : [] = out := by simpa [walk] using h
          exact ⟨by simp, fun v hv w hw => by simpa using hseen v hv w hw⟩
      | cons v pending =>
          rw [walk] at h
          split at h
          · rename_i hold
            obtain ⟨hpending, hclosed⟩ := ih h fun u hu w hw => by
              rcases hseen u hu w hw with hw | ⟨p, hp, heq⟩
              · exact .inl hw
              · rcases List.mem_cons.mp hp with rfl | hp
                · exact .inl (heq ▸ hold)
                · exact .inr ⟨p, hp, heq⟩
            refine ⟨fun p hp => ?_, hclosed⟩
            rcases List.mem_cons.mp hp with rfl | hp
            · exact mem_marked.mpr (.inl hold)
            · exact hpending p hp
          · obtain ⟨rest, hrest, rfl⟩ := Option.map_eq_some_iff.mp h
            obtain ⟨hpending, hclosed⟩ := ih hrest fun u hu w hw => by
              rcases List.mem_cons.mp hu with heq | hu
              · obtain ⟨w', hw', hkey⟩ := hk.exists_below heq hw
                exact .inr ⟨w', by simp [hw'], hkey⟩
              · rcases hseen u hu w hw with hw | ⟨p, hp, heq⟩
                · exact .inl (List.mem_cons_of_mem _ hw)
                · rcases List.mem_cons.mp hp with rfl | hp
                  · exact .inl (heq ▸ List.mem_cons_self)
                  · exact .inr ⟨p, by simp [hp], heq⟩
            rw [marked_cons]
            refine ⟨fun p hp => ?_, hclosed⟩
            rcases List.mem_cons.mp hp with rfl | hp
            · exact mem_marked.mpr (.inl List.mem_cons_self)
            · exact hpending p (by simp [hp])

omit [DecidableEq κ] in
/-- Below the nodes of a finite closed set, ranks run out. -/
theorem Keyed.bounded_of_closed {S : List κ} {top : Nat} (htop : ∀ k ∈ S, rank k < top)
    (hclosed : ∀ v, key v ∈ S → ∀ w ∈ next v, key w ∈ S) {n : Nat} {v : ν} (hv : key v ∈ S)
    (hn : top ≤ rank (key v) + n) : Bounded next n v := by
  induction n generalizing v with
  | zero => exact absurd (htop _ hv) (by omega)
  | succ n ih =>
      intro w hw
      have hlt := hk.grows v w hw
      exact ih (hclosed v hv w hw) (by omega)

/-- The walk from one node: it visits the first node of each key. -/
theorem Keyed.walk_eq_firsts {n : Nat} {v : ν} (h : Bounded next n v) :
    ∃ fuel, walk key next fuel [v] [] = some (firsts key [] (preorder next n v)) := by
  have hclosed : Closed key next rank 0 [] := fun u hu => absurd hu (by simp)
  have hv : ∀ u ∈ [v], Bounded next n u ∧ 0 ≤ rank (key u) := by simpa using h
  simpa using (hk.walk_list hclosed hv).1

/-- The walk from one node ends exactly when the ways down are bounded. -/
theorem Keyed.walk_ends_iff {v : ν} :
    (∃ fuel out, walk key next fuel [v] [] = some out) ↔ ∃ n, Bounded next n v := by
  constructor
  · rintro ⟨fuel, out, h⟩
    obtain ⟨hv, hclosed⟩ := hk.walk_closed h fun u hu => absurd hu (by simp)
    obtain ⟨top, htop⟩ : ∃ top, ∀ k ∈ marked key [] out, rank k < top := by
      refine ⟨((marked key [] out).map rank).sum + 1, fun k hk => ?_⟩
      exact Nat.lt_succ_of_le (List.le_sum_of_mem (List.mem_map_of_mem hk))
    exact ⟨top, hk.bounded_of_closed htop hclosed (hv v (by simp)) (by omega)⟩
  · rintro ⟨n, h⟩
    obtain ⟨fuel, hfuel⟩ := hk.walk_eq_firsts h
    exact ⟨fuel, _, hfuel⟩

end Keyed

/-! ### Endless ways down are cycles -/

section Cycle

variable {φ : Type} {place : ν → φ} {leads : φ → φ → Prop}
  (hleads : ∀ v b, leads (place v) b ↔ ∃ w ∈ next v, place w = b)
include hleads

omit [DecidableEq κ] in
theorem acyclic_of_bounded {n : Nat} {v : ν} (h : Bounded next n v) {a : φ}
    (ha : Relation.ReflTransGen leads (place v) a) : ¬ Relation.TransGen leads a a := by
  induction n generalizing v with
  | zero => exact h.elim
  | succ n ih =>
      rcases ha.cases_head with rfl | ⟨b, hb, ha⟩
      · intro hcycle
        obtain ⟨b, hb, hback⟩ := Relation.TransGen.head'_iff.mp hcycle
        obtain ⟨w, hw, rfl⟩ := (hleads v b).mp hb
        exact ih (h w hw) hback hcycle
      · obtain ⟨w, hw, rfl⟩ := (hleads v b).mp hb
        exact ih (h w hw) ha

omit [DecidableEq κ] in
/-- Where no place leads back to itself, a way down passes different places. -/
theorem bounded_of_acyclic {S : List φ} (hS : ∀ a b, leads a b → b ∈ S) {n : Nat} {v : ν}
    {above : List φ} (hnodup : (place v :: above).Nodup) (hsub : ∀ a ∈ place v :: above, a ∈ S)
    (habove : ∀ a ∈ above, Relation.TransGen leads a (place v))
    (hacyclic : ∀ a, Relation.ReflTransGen leads (place v) a → ¬ Relation.TransGen leads a a)
    (hn : S.length ≤ above.length + n) : Bounded next n v := by
  induction n generalizing v above with
  | zero =>
      have hlength := (hnodup.subperm hsub).length_le
      rw [List.length_cons] at hlength
      omega
  | succ n ih =>
      intro w hw
      have hstep : leads (place v) (place w) := (hleads v _).mpr ⟨w, hw, rfl⟩
      have hback : ∀ a ∈ place v :: above, Relation.TransGen leads a (place w) := by
        intro a ha
        rcases List.mem_cons.mp ha with rfl | ha
        · exact .single hstep
        · exact (habove a ha).tail hstep
      refine @ih w (place v :: above) (List.nodup_cons.mpr ⟨fun hmem => ?_, hnodup⟩) ?_ hback ?_ ?_
      · exact hacyclic (place w) (.single hstep) (hback _ hmem)
      · intro a ha
        rcases List.mem_cons.mp ha with rfl | ha
        · exact hS _ _ hstep
        · exact hsub a ha
      · exact fun a ha => hacyclic a (.head hstep ha)
      · rw [List.length_cons]
        omega

end Cycle

/-! ### Keys of a finite set -/

theorem sum_toFinset_eq (l : List κ) (f : κ → Nat) :
    ∑ k ∈ l.toFinset, f k = (l.dedup.map f).sum := by
  have hset : l.toFinset = l.dedup.toFinset := by
    ext k
    rw [List.mem_toFinset, List.mem_toFinset, List.mem_dedup]
  rw [hset, List.sum_toFinset f (List.nodup_dedup l)]

/-- What is visited has a key that was not seen, and lies below the stack. -/
theorem reached_of_walk {fuel : Nat} {pending : List ν} {seen : List κ} {out : List ν}
    (h : walk key next fuel pending seen = some out) :
    ∀ v ∈ out, key v ∉ seen ∧
      ∃ p ∈ pending, Relation.ReflTransGen (fun a b => b ∈ next a) p v := by
  induction fuel generalizing pending seen out with
  | zero =>
      cases pending with
      | nil =>
          obtain rfl : [] = out := by simpa [walk] using h
          simp
      | cons v pending => simp [walk] at h
  | succ fuel ih =>
      cases pending with
      | nil =>
          obtain rfl : [] = out := by simpa [walk] using h
          simp
      | cons v pending =>
          rw [walk] at h
          split at h
          · intro w hw
            obtain ⟨hnot, p, hp, hreach⟩ := ih h w hw
            exact ⟨hnot, p, List.mem_cons_of_mem v hp, hreach⟩
          · rename_i hseen
            obtain ⟨rest, hrest, rfl⟩ := Option.map_eq_some_iff.mp h
            intro w hw
            rcases List.mem_cons.mp hw with rfl | hw
            · exact ⟨hseen, w, List.mem_cons_self, .refl⟩
            · obtain ⟨hnot, p, hp, hreach⟩ := ih hrest w hw
              refine ⟨fun hin => hnot (List.mem_cons_of_mem _ hin), ?_⟩
              rcases List.mem_append.mp hp with hp | hp
              · exact ⟨v, List.mem_cons_self, .head (List.mem_reverse.mp hp) hreach⟩
              · exact ⟨p, List.mem_cons_of_mem v hp, hreach⟩

/-- The keys of the stack, and those below what is visited, have been seen in the end. -/
theorem seen_of_walk {fuel : Nat} {pending : List ν} {seen : List κ} {out : List ν}
    (h : walk key next fuel pending seen = some out) :
    (∀ p ∈ pending, key p ∈ marked key seen out) ∧
      ∀ v ∈ out, ∀ w ∈ next v, key w ∈ marked key seen out := by
  induction fuel generalizing pending seen out with
  | zero =>
      cases pending with
      | nil =>
          obtain rfl : [] = out := by simpa [walk] using h
          simp
      | cons v pending => simp [walk] at h
  | succ fuel ih =>
      cases pending with
      | nil =>
          obtain rfl : [] = out := by simpa [walk] using h
          simp
      | cons v pending =>
          rw [walk] at h
          split at h
          · rename_i hseen
            obtain ⟨hpending, hbelow⟩ := ih h
            refine ⟨List.forall_mem_cons.mpr ⟨mem_marked.mpr (.inl hseen), hpending⟩, hbelow⟩
          · obtain ⟨rest, hrest, rfl⟩ := Option.map_eq_some_iff.mp h
            obtain ⟨hpending, hbelow⟩ := ih hrest
            rw [marked_cons]
            have hv : key v ∈ marked key (key v :: seen) rest := mem_marked.mpr (.inl (by simp))
            refine ⟨List.forall_mem_cons.mpr ⟨hv, fun p hp => hpending p (by simp [hp])⟩, ?_⟩
            refine List.forall_mem_cons.mpr ⟨fun w hw => hpending w (by simp [hw]), hbelow⟩

/-- Where the nodes that lead further have keys in a finite set, every visit is paid for by its key:
the walk ends. -/
theorem walk_ends_under {P : ν → Prop} {S : Finset κ} (weight : κ → Nat)
    (hnext : ∀ v, P v → ∀ w ∈ next v, P w)
    (hweight : ∀ v, P v → next v ≠ [] → key v ∈ S ∧ (next v).length ≤ weight (key v))
    {fuel : Nat} {pending : List ν} {seen : List κ} (hpending : ∀ p ∈ pending, P p)
    (hfuel : pending.length + ∑ k ∈ S \ seen.toFinset, weight k ≤ fuel) :
    ∃ out, walk key next fuel pending seen = some out := by
  induction fuel generalizing pending seen with
  | zero =>
      cases pending with
      | nil => exact ⟨[], rfl⟩
      | cons v pending =>
          rw [List.length_cons] at hfuel
          omega
  | succ fuel ih =>
      cases pending with
      | nil => exact ⟨[], rfl⟩
      | cons v pending =>
          rw [List.length_cons] at hfuel
          have hrest : ∀ p ∈ pending, P p := fun p hp => hpending p (List.mem_cons_of_mem v hp)
          have hv : P v := hpending v List.mem_cons_self
          rw [walk]
          split
          · exact ih hrest (by omega)
          · rename_i hseen
            have hpending' : ∀ p ∈ (next v).reverse ++ pending, P p := by
              intro p hp
              rcases List.mem_append.mp hp with hp | hp
              · exact hnext v hv p (List.mem_reverse.mp hp)
              · exact hrest p hp
            have hset : S \ (key v :: seen).toFinset = (S \ seen.toFinset).erase (key v) := by
              ext k
              simp only [Finset.mem_sdiff, List.mem_toFinset, List.mem_cons, Finset.mem_erase]
              tauto
            have hfuel' : ((next v).reverse ++ pending).length +
                ∑ k ∈ S \ (key v :: seen).toFinset, weight k ≤ fuel := by
              rw [hset, List.length_append, List.length_reverse]
              by_cases hlast : next v = []
              · have hle := Finset.sum_le_sum_of_subset (f := weight)
                  (Finset.erase_subset (key v) (S \ seen.toFinset))
                rw [hlast, List.length_nil]
                omega
              · obtain ⟨hmem, hlen⟩ := hweight v hv hlast
                have hmem : key v ∈ S \ seen.toFinset := by simp [hseen, hmem]
                have hsum := Finset.add_sum_erase (S \ seen.toFinset) weight hmem
                omega
            obtain ⟨out, hout⟩ := ih hpending' hfuel'
            exact ⟨v :: out, by rw [hout]; rfl⟩

/-- Where the keys come from a finite set, the walk ends. -/
theorem walk_ends_of_finite {S : Finset κ} (weight : κ → Nat)
    (hweight : ∀ v, (next v).length ≤ weight (key v)) (hnext : ∀ v w, w ∈ next v → key w ∈ S)
    {fuel : Nat} {pending : List ν} {seen : List κ} (hpending : ∀ p ∈ pending, key p ∈ S)
    (hfuel : pending.length + ∑ k ∈ S \ seen.toFinset, weight k ≤ fuel) :
    ∃ out, walk key next fuel pending seen = some out :=
  walk_ends_under weight (fun v _ w => hnext v w) (fun v hv _ => ⟨hv, hweight v⟩) hpending hfuel

/-- Where every node is its own key, a walk that ends has visited what can be reached. -/
theorem mem_walk_iff [DecidableEq ν] {next : ν → List ν} {fuel : Nat} {start v : ν} {out : List ν}
    (h : walk id next fuel [start] [] = some out) :
    v ∈ out ↔ Relation.ReflTransGen (fun a b => b ∈ next a) start v := by
  have hmarked : ∀ w, w ∈ marked id [] out ↔ w ∈ out := by
    intro w
    rw [mem_marked, or_iff_right List.not_mem_nil]
    exact exists_eq_right
  constructor
  · intro hv
    obtain ⟨-, p, hp, hreach⟩ := reached_of_walk h v hv
    rwa [List.mem_singleton.mp hp] at hreach
  · intro hreach
    obtain ⟨hpending, hbelow⟩ := seen_of_walk h
    induction hreach with
    | refl => exact (hmarked start).mp (hpending start (List.mem_singleton_self start))
    | tail _ hstep ih => exact (hmarked _).mp (hbelow _ ih _ hstep)

/-! ### Nodes that stand for nodes -/

section Map

variable {μ : Type} {next' : μ → List μ} {f : ν → μ}

theorem walk_map {keyOf : μ → κ} (hf : ∀ v, (next v).map f = next' (f v)) (fuel : Nat)
    (pending : List ν) (seen : List κ) :
    walk keyOf next' fuel (pending.map f) seen =
      (walk (keyOf ∘ f) next fuel pending seen).map (List.map f) := by
  induction fuel generalizing pending seen with
  | zero => cases pending <;> rfl
  | succ fuel ih =>
      cases pending with
      | nil => rfl
      | cons v pending =>
          rw [List.map_cons, walk, walk, ← hf, ← List.map_reverse, ← List.map_append, ih, ih]
          simp only [Function.comp_apply]
          split
          · rfl
          · rw [Option.map_map, Option.map_map]
            rfl

end Map

omit [DecidableEq κ] in
/-- What lies below a node. -/
theorem mem_preorder_iff {n : Nat} {v w : ν} (h : Bounded next n v) :
    w ∈ preorder next n v ↔ Relation.ReflTransGen (fun a b => b ∈ next a) v w := by
  induction n generalizing v with
  | zero => exact h.elim
  | succ n ih =>
      rw [preorder, List.mem_cons, List.mem_flatMap, Relation.ReflTransGen.cases_head_iff]
      refine or_congr eq_comm (exists_congr fun u => ?_)
      rw [List.mem_reverse]
      exact and_congr_right fun hu => ih (h u hu)

end Walk

end AutomatisedPipeline.Walk

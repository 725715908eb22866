import AutomatisedPipeline.Traces.Ingest

/-!
When the ingestion of traces is additive.

`Exact` says of the graph that a request leaves what it should hold: on the edge that a pair goes to
the sum of its traces more, and the rest as it was. A request whose sums fit leaves such a graph
(`exact_doIngestTraces`), and exact steps compose (`Exact.append`) and agree (`Exact.at_eq`).
-/

namespace AutomatisedPipeline.Traces

open Text

/-! ### What traces add -/

/-- A trace with both endpoints, as a request has to give them. -/
structure Trace where
  caller : Str
  callee : Str
  count : Option Int
deriving DecidableEq, Repr

def Trace.value (t : Trace) : TraceValue := ⟨some t.caller, some t.callee, t.count⟩

def Trace.pair (t : Trace) : Pair := (t.caller, t.callee)

/-- What a trace adds. -/
def Trace.weight (t : Trace) : Int := max (t.count.getD 1) 1

/-- What the traces of a pair add. -/
def sum (ts : List Trace) (pair : Pair) : Int :=
  Assoc.total (ts.map fun t => (t.pair, t.weight)) pair

theorem Trace.weight_pos (t : Trace) : 1 ≤ t.weight := le_max_right _ _

@[simp] theorem sum_nil (pair : Pair) : sum [] pair = 0 := rfl

theorem sum_cons (t : Trace) (ts : List Trace) (pair : Pair) :
    sum (t :: ts) pair = (if t.pair = pair then t.weight else 0) + sum ts pair :=
  Assoc.total_cons _ _ _

theorem sum_append (xs ys : List Trace) (pair : Pair) :
    sum (xs ++ ys) pair = sum xs pair + sum ys pair := by
  rw [sum, List.map_append, Assoc.total_append]
  rfl

theorem sum_concat (ts : List Trace) (t : Trace) (pair : Pair) :
    sum (ts ++ [t]) pair = sum ts pair + if t.pair = pair then t.weight else 0 := by
  rw [sum_append, sum_cons, sum_nil, add_zero]

theorem sum_perm {xs ys : List Trace} (h : xs.Perm ys) (pair : Pair) : sum xs pair = sum ys pair :=
  Assoc.total_perm (h.map _) pair

theorem sum_nonneg (ts : List Trace) (pair : Pair) : 0 ≤ sum ts pair := by
  induction ts with
  | nil => exact le_refl 0
  | cons t ts ih =>
      rw [sum_cons]
      have hweight := t.weight_pos
      split <;> omega

theorem sum_eq_zero {ts : List Trace} {pair : Pair} (h : ∀ t ∈ ts, t.pair ≠ pair) :
    sum ts pair = 0 := by
  induction ts with
  | nil => rfl
  | cons t ts ih =>
      rw [sum_cons, if_neg (h t List.mem_cons_self), ih fun u hu => h u (List.mem_cons_of_mem t hu)]
      rfl

theorem weight_le_sum {ts : List Trace} {t : Trace} (h : t ∈ ts) : t.weight ≤ sum ts t.pair := by
  induction ts with
  | nil => cases h
  | cons u ts ih =>
      rw [sum_cons]
      rcases List.mem_cons.mp h with rfl | h
      · rw [if_pos rfl]
        have := sum_nonneg ts t.pair
        omega
      · have := ih h
        have := u.weight_pos
        split <;> omega

/-! ### 64 bits -/

theorem inRange_iff {n : Int} : InRange n ↔ -2 ^ 63 ≤ n ∧ n < 2 ^ 63 := by
  rw [InRange, Int64.toInt_minValue, Int64.toInt_maxValue]
  omega

theorem inRange_toInt (a : Int64) : InRange a.toInt := ⟨Int64.minValue_le_toInt a, Int64.toInt_le a⟩

theorem toInt_add {a b : Int64} (h : InRange (a.toInt + b.toInt)) :
    (a + b).toInt = a.toInt + b.toInt := by
  obtain ⟨hlow, hhigh⟩ := inRange_iff.mp h
  rw [Int64.toInt_add, Int.bmod_eq_of_le (by omega) (by omega)]

theorem toInt_max (a b : Int64) : (max a b).toInt = max a.toInt b.toInt := by
  change (if a ≤ b then b else a).toInt = _
  split
  · rename_i h
    rw [max_eq_right (Int64.le_iff_toInt_le.mp h)]
  · rename_i h
    rw [max_eq_left (not_le.mp fun hle => h (Int64.le_iff_toInt_le.mpr hle)).le]

/-- The code counts a trace by its weight, if the weight is a number of 64 bits. -/
theorem toInt_countOf {t : Trace} (h : t.weight ≤ Int64.maxValue.toInt) :
    (countOf t.count).toInt = t.weight := by
  rw [countOf, toInt_max, Int64.toInt_one, Trace.weight]
  rw [Trace.weight] at h
  cases hcount : t.count with
  | none => rfl
  | some n =>
      rw [hcount] at h
      have hle : n ≤ Int64.maxValue.toInt := le_trans (le_max_left n 1) h
      change max ((asI64 n).getD 1).toInt 1 = max n 1
      rw [asI64]
      split
      · rename_i hrange
        obtain ⟨hlow, hhigh⟩ := inRange_iff.mp hrange
        rw [Option.getD_some, Int64.toInt_ofInt_of_le hlow hhigh]
      · rename_i hrange
        have hlow : n < Int64.minValue.toInt := not_le.mp fun hlow => hrange ⟨hlow, hle⟩
        rw [Int64.toInt_minValue] at hlow
        rw [Option.getD_none, Int64.toInt_one]
        omega

/-! ### The sums in memory -/

/-- The map has the sum of each pair, and an entry for the pairs of the traces. -/
structure Counted (agg : Sums) (ts : List Trace) : Prop where
  nodup : (agg.map Prod.fst).Nodup
  keys : ∀ pair, pair ∈ agg.map Prod.fst ↔ pair ∈ ts.map Trace.pair
  sums : ∀ pair, ((agg.lookup pair).getD 0).toInt = sum ts pair

theorem counted_nil : Counted [] [] where
  nodup := List.nodup_nil
  keys _ := Iff.rfl
  sums _ := rfl

/-- One more trace: its sum is updated, if it fits. -/
theorem Counted.addTrace {agg : Sums} {ts : List Trace} (h : Counted agg ts) {t : Trace}
    (checks : Bool) (hfits : sum (ts ++ [t]) t.pair ≤ Int64.maxValue.toInt) :
    ∃ agg', addTrace checks agg t.value = .ok agg' ∧ Counted agg' (ts ++ [t]) := by
  have hweight : t.weight ≤ Int64.maxValue.toInt :=
    le_trans (weight_le_sum (List.mem_append_right ts List.mem_cons_self)) hfits
  have hsum : ((agg.lookup t.pair).getD 0).toInt + (countOf t.count).toInt =
      sum (ts ++ [t]) t.pair := by
    rw [h.sums, toInt_countOf hweight, sum_concat, if_pos rfl]
  have hrange : InRange (((agg.lookup t.pair).getD 0).toInt + (countOf t.count).toInt) := by
    rw [hsum, inRange_iff]
    have hnonneg := sum_nonneg (ts ++ [t]) t.pair
    rw [Int64.toInt_maxValue] at hfits
    omega
  refine ⟨Assoc.upsert t.pair 0
    (fun _ => (agg.lookup t.pair).getD 0 + countOf t.count) agg, ?_, ?_, ?_, ?_⟩
  · change (addAssign checks ((agg.lookup t.pair).getD 0) (countOf t.count)).map _ = _
    rw [addAssign, if_pos hrange]
    rfl
  · exact Assoc.nodup_keys_upsert t.pair 0 _ h.nodup
  · intro pair
    rw [Assoc.mem_keys_upsert, h.keys, List.map_append, List.mem_append, or_comm]
    exact or_congr_right List.mem_singleton.symm
  · intro pair
    rw [Assoc.lookup_upsert, sum_concat]
    by_cases hpair : pair = t.pair
    · subst hpair
      rw [if_pos rfl, if_pos rfl, Option.getD_some, toInt_add hrange, hsum, sum_concat,
        if_pos rfl]
    · rw [if_neg hpair, if_neg (Ne.symm hpair), add_zero, h.sums]

/-- Sums that fit are counted. -/
theorem counted_aggregateTraces (checks : Bool) {ts : List Trace}
    (hfits : ∀ pair, sum ts pair ≤ Int64.maxValue.toInt) :
    ∃ agg, aggregateTraces checks (ts.map Trace.value) = .ok agg ∧ Counted agg ts := by
  induction ts using List.reverseRecOn with
  | nil => exact ⟨[], rfl, counted_nil⟩
  | append_singleton ts t ih =>
      have hbefore : ∀ pair, sum ts pair ≤ Int64.maxValue.toInt := by
        intro pair
        have hle := hfits pair
        have hlast := sum_nonneg [t] pair
        rw [sum_append] at hle
        omega
      obtain ⟨agg, hagg, hcounted⟩ := ih hbefore
      obtain ⟨agg', hagg', hcounted'⟩ := hcounted.addTrace checks (hfits t.pair)
      refine ⟨agg', ?_, hcounted'⟩
      rw [aggregateTraces] at hagg ⊢
      rw [List.map_append, List.foldlM_append, hagg]
      change (do let s ← Traces.addTrace checks agg t.value; List.foldlM _ s []) = _
      rw [hagg']
      rfl

/-! ### One sum into the graph -/

/-- The edge of a key: the count it holds, if there is one. -/
def Graph.at (g : Graph) (key : Key) : Option (Option Int64) :=
  (g.edges.find? (·.toKey = key)).map Edge.count

/-- What the edge of a key counts. -/
def Graph.held (g : Graph) (key : Key) : Int := (((g.at key).getD none).getD 0).toInt

/-- The edge that a pair's traces go to: the static one between the two callables, or the observed
one. -/
def Graph.target (g : Graph) (pair : Pair) : Option Key :=
  match g.callableLabel pair.1, g.callableLabel pair.2 with
  | some source, some target =>
      if g.hasEdge ⟨.static source target, pair⟩ then some ⟨.static source target, pair⟩
      else some ⟨.observed source target, pair⟩
  | _, _ => none

theorem toKey_of_find? {edges : List Edge} {key : Key} {e : Edge}
    (h : edges.find? (·.toKey = key) = some e) : e.toKey = key := by
  simpa using List.find?_some h

theorem hasEdge_iff {g : Graph} {key : Key} : g.hasEdge key ↔ (g.at key).isSome := by
  rw [Graph.hasEdge, Graph.at, Option.isSome_map, List.find?_isSome, decide_eq_true_eq,
    List.mem_map]
  simp only [decide_eq_true_eq]

theorem pair_of_target {g : Graph} {pair : Pair} {key : Key} (h : g.target pair = some key) :
    key.pair = pair := by
  rw [Graph.target] at h
  split at h
  · split at h <;> obtain rfl := Option.some.inj h <;> rfl
  · cases h

theorem held_of_at {g g' : Graph} {key : Key} (h : g'.at key = g.at key) :
    g'.held key = g.held key := by
  rw [Graph.held, h, Graph.held]

/-- A graph after `n` more on one edge. -/
structure Wrote (g : Graph) (key : Key) (n : Int) (g' : Graph) : Prop where
  nodes : g'.nodes = g.nodes
  here : ∃ c, g'.at key = some (some c) ∧ c.toInt = g.held key + n
  others : ∀ key', key' ≠ key → g'.at key' = g.at key'

section Write

variable {g : Graph} {key : Key} {count : Int64} (add : StoreAdd)

/-- The edge of a key is the only one it has. -/
theorem eq_of_at {e : Edge} (he : e ∈ g.edges) {found : Option Int64}
    (h : g.at e.toKey = some found) : e.count = found := by
  obtain ⟨e', hfind, rfl⟩ := Option.map_eq_some_iff.mp h
  have hkey : e'.toKey = e.toKey := toKey_of_find? hfind
  rw [List.inj_on_of_nodup_map g.nodup (List.mem_of_find?_eq_some hfind) he hkey]

theorem wrote_raise (hedge : g.hasEdge key) (hrange : InRange (g.held key + count.toInt)) :
    ∃ g', g.raise add key count = .ok g' ∧ Wrote g key count.toInt g' := by
  obtain ⟨found, hfound⟩ := Option.isSome_iff_exists.mp (hasEdge_iff.mp hedge)
  have hheld : g.held key = (found.getD 0).toInt := by rw [Graph.held, hfound, Option.getD_some]
  have hadd : add.add (found.getD 0) count = some (found.getD 0 + count) :=
    add.exact _ _ (hheld ▸ hrange)
  have hat : ∀ key', (g.edges.map (Edge.raised add key count)).find? (·.toKey = key') =
      (g.edges.find? (·.toKey = key')).map (Edge.raised add key count) := by
    intro key'
    rw [List.find?_map]
    congr 2
    funext e
    exact congrArg (fun k => decide (k = key')) (Edge.toKey_raised add key count e)
  rw [Graph.raise, if_neg ?_]
  · refine ⟨_, rfl, rfl, ⟨found.getD 0 + count, ?_, ?_⟩, ?_⟩
    · rw [Graph.at, hat]
      obtain ⟨e, hfind, hcount⟩ := Option.map_eq_some_iff.mp hfound
      have hkey : e.toKey = key := toKey_of_find? hfind
      rw [hfind, Option.map_some, Option.map_some, Edge.raised, if_pos hkey, hcount, hadd]
    · rw [toInt_add (hheld ▸ hrange), hheld]
    · intro key' hne
      rw [Graph.at, hat, Graph.at]
      cases hfind : g.edges.find? (·.toKey = key') with
      | none => rfl
      | some e =>
          have hkey : e.toKey = key' := toKey_of_find? hfind
          rw [Option.map_some, Option.map_some, Option.map_some, Edge.raised,
            if_neg (hkey ▸ hne)]
  · rintro ⟨e, he, rfl, hnone⟩
    rw [eq_of_at he hfound, hadd] at hnone
    cases hnone

theorem wrote_insertEdge (hedge : ¬ g.hasEdge key)
    (hends : key.pair.1 ∈ g.nodes key.table.source ∧ key.pair.2 ∈ g.nodes key.table.target) :
    Wrote g key count.toInt (g.insertEdge key count hedge) := by
  have hnone : g.edges.find? (·.toKey = key) = none := by
    rw [hasEdge_iff, Graph.at, Option.isSome_map, Bool.not_eq_true, Option.isSome_eq_false_iff,
      Option.isNone_iff_eq_none] at hedge
    exact hedge
  rw [Graph.insertEdge, if_pos hends]
  refine ⟨rfl, ⟨count, ?_, ?_⟩, ?_⟩
  · rw [Graph.at, List.find?_append, hnone]
    simp
  · rw [Graph.held, Graph.at, hnone]
    simp
  · intro key' hne
    rw [Graph.at, List.find?_append, Graph.at]
    simp [Ne.symm hne]

theorem mem_nodes_of_callableLabel {qn : Str} {label : Label}
    (h : g.callableLabel qn = some label) : qn ∈ g.nodes label := by
  simpa using List.find?_some h

/-- A pair with a target is written there. -/
theorem absorb_of_target {pair : Pair} (htarget : g.target pair = some key)
    (hrange : InRange (g.held key + count.toInt)) (tally : TraceTally) :
    ∃ g' tally', tally.absorb add g pair count = (g', .ok tally') ∧
      Wrote g key count.toInt g' := by
  rw [Graph.target] at htarget
  split at htarget
  · rename_i source target hsource htargetLabel
    rw [TraceTally.absorb, hsource, htargetLabel]
    simp only [annotateStaticCall]
    split at htarget
    · rename_i hstatic
      obtain rfl := Option.some.inj htarget
      obtain ⟨g', hraise, hwrote⟩ := wrote_raise add hstatic hrange
      rw [if_pos hstatic, hraise]
      exact ⟨g', _, rfl, hwrote⟩
    · rename_i hstatic
      obtain rfl := Option.some.inj htarget
      rw [if_neg hstatic]
      simp only [upsertObservedCall]
      split
      · rename_i e herr
        split at herr
        · rename_i hedge
          obtain ⟨g', hraise, -⟩ := wrote_raise add hedge hrange
          rw [hraise] at herr
          cases herr
        · cases herr
      · rename_i g' hok
        refine ⟨g', _, rfl, ?_⟩
        split at hok
        · rename_i hedge
          obtain ⟨g'', hraise, hwrote⟩ := wrote_raise add hedge hrange
          rw [hraise] at hok
          obtain rfl := Except.ok.inj hok
          exact hwrote
        · rename_i hedge
          obtain rfl := Except.ok.inj hok
          exact wrote_insertEdge hedge ⟨mem_nodes_of_callableLabel hsource,
            mem_nodes_of_callableLabel htargetLabel⟩
  · cases htarget

/-- A pair without a target is only listed. -/
theorem absorb_of_no_target {pair : Pair} (htarget : g.target pair = none) (tally : TraceTally)
    (n : Int64) : ∃ tally', tally.absorb add g pair n = (g, .ok tally') := by
  rw [TraceTally.absorb]
  cases hsource : g.callableLabel pair.1 with
  | none => exact ⟨_, rfl⟩
  | some source =>
    cases htargetLabel : g.callableLabel pair.2 with
    | none => exact ⟨_, rfl⟩
    | some target =>
      rw [Graph.target, hsource, htargetLabel] at htarget
      simp only at htarget
      split at htarget <;> cases htarget

/-- Writing to the target of a pair leaves all targets as they are. -/
theorem Wrote.target_eq {g' : Graph} {n : Int} (h : Wrote g key n g') {pair : Pair}
    (htarget : g.target pair = some key) (pair' : Pair) : g'.target pair' = g.target pair' := by
  have hlabel : ∀ qn, g'.callableLabel qn = g.callableLabel qn := by
    intro qn
    rw [Graph.callableLabel, h.nodes, Graph.callableLabel]
  have hstatic : ∀ source target,
      g'.hasEdge ⟨.static source target, pair'⟩ = g.hasEdge ⟨.static source target, pair'⟩ := by
    intro source target
    rw [Bool.eq_iff_iff, hasEdge_iff, hasEdge_iff]
    by_cases hkey : (⟨.static source target, pair'⟩ : Key) = key
    · obtain ⟨c, hc, -⟩ := h.here
      rw [hkey, hc, ← hasEdge_iff]
      refine iff_of_true rfl ?_
      rw [Graph.target] at htarget
      split at htarget
      · split at htarget
        · rename_i hedge
          rwa [← Option.some.inj htarget]
        · rw [← Option.some.inj htarget] at hkey
          cases hkey
      · cases htarget
    · rw [h.others _ hkey]
  rw [Graph.target, hlabel, hlabel, Graph.target]
  simp only [hstatic]

end Write

/-! ### All sums into the graph -/

/-- A graph after the loop over some sums. -/
structure Folded (g : Graph) (items : List (Pair × Int64)) (g' : Graph) : Prop where
  targets : ∀ pair, g'.target pair = g.target pair
  here : ∀ item ∈ items, ∀ key, g.target item.1 = some key →
    ∃ c, g'.at key = some (some c) ∧ c.toInt = g.held key + item.2.toInt
  others : ∀ key, (∀ item ∈ items, g.target item.1 ≠ some key) → g'.at key = g.at key

theorem folded_nil (g : Graph) : Folded g [] g where
  targets _ := rfl
  here _ h := absurd h List.not_mem_nil
  others _ _ := rfl

/-- The first sum written, and the rest after it: no pair goes to the edge of another. -/
theorem Folded.cons {g g₁ g' : Graph} {item : Pair × Int64} {items : List (Pair × Int64)}
    (hfirst : ∀ key, g.target item.1 = some key → Wrote g key item.2.toInt g₁)
    (hnone : g.target item.1 = none → g₁ = g) (hnew : item.1 ∉ items.map Prod.fst)
    (h : Folded g₁ items g') : Folded g (item :: items) g' := by
  have htargets : ∀ pair, g₁.target pair = g.target pair := by
    intro pair
    cases htarget : g.target item.1 with
    | none => rw [hnone htarget]
    | some key => exact (hfirst key htarget).target_eq htarget pair
  have hother : ∀ key, g.target item.1 ≠ some key → g₁.at key = g.at key := by
    intro key hne
    cases htarget : g.target item.1 with
    | none => rw [hnone htarget]
    | some key' =>
        apply (hfirst key' htarget).others
        exact fun heq => hne (heq ▸ htarget)
  have hne : ∀ next ∈ items, ∀ key, g.target next.1 = some key → g.target item.1 ≠ some key := by
    intro next hnext key htarget hitem
    apply hnew
    rw [← pair_of_target hitem, pair_of_target htarget]
    exact List.mem_map_of_mem hnext
  refine ⟨fun pair => (h.targets pair).trans (htargets pair), ?_, ?_⟩
  · intro next hnext key htarget
    rcases List.mem_cons.mp hnext with rfl | hnext
    · obtain ⟨c, hc, hvalue⟩ := (hfirst key htarget).here
      refine ⟨c, ?_, hvalue⟩
      rw [h.others key, hc]
      intro other hmem hother
      rw [htargets] at hother
      exact hne other hmem key hother htarget
    · obtain ⟨c, hc, hvalue⟩ := h.here next hnext key ((htargets next.1).trans htarget)
      refine ⟨c, hc, ?_⟩
      rw [hvalue, held_of_at (hother key (hne next hnext key htarget))]
  · intro key hkey
    rw [h.others key, hother key (hkey item List.mem_cons_self)]
    intro next hnext
    rw [htargets]
    exact hkey next (List.mem_cons_of_mem item hnext)

/-- Sums that fit are all written. -/
theorem folded_foldl (add : StoreAdd) {items : List (Pair × Int64)} (tally : TraceTally)
    (hnodup : (items.map Prod.fst).Nodup) {g : Graph}
    (hfits : ∀ item ∈ items, ∀ key, g.target item.1 = some key →
      InRange (g.held key + item.2.toInt)) :
    ∃ g' tally', items.foldl (absorbNext add) (g, .ok tally) = (g', .ok tally') ∧
      Folded g items g' := by
  induction items generalizing g tally with
  | nil => exact ⟨g, tally, rfl, folded_nil g⟩
  | cons item items ih =>
      rw [List.map_cons, List.nodup_cons] at hnodup
      obtain ⟨hnew, hnodup⟩ := hnodup
      rw [List.foldl_cons]
      change ∃ g' tally', items.foldl (absorbNext add)
        (tally.absorb add g item.1 item.2) = (g', .ok tally') ∧ _
      cases htarget : g.target item.1 with
      | none =>
          obtain ⟨tally₁, habsorb⟩ := absorb_of_no_target add htarget tally item.2
          rw [habsorb]
          obtain ⟨g', tally', hrun, hfolded⟩ := ih tally₁ hnodup
            fun next hnext => hfits next (List.mem_cons_of_mem item hnext)
          exact ⟨g', tally', hrun, hfolded.cons (by simp [htarget]) (fun _ => rfl) hnew⟩
      | some key =>
          obtain ⟨g₁, tally₁, habsorb, hwrote⟩ := absorb_of_target add htarget
            (hfits item List.mem_cons_self key htarget) tally
          rw [habsorb]
          obtain ⟨g', tally', hrun, hfolded⟩ := ih tally₁ hnodup (g := g₁) (by
            intro next hnext key' hkey'
            rw [hwrote.target_eq htarget] at hkey'
            have hne : key' ≠ key := by
              rintro rfl
              apply hnew
              rw [← pair_of_target htarget, pair_of_target hkey']
              exact List.mem_map_of_mem hnext
            rw [held_of_at (hwrote.others key' hne)]
            exact hfits next (List.mem_cons_of_mem item hnext) key' hkey')
          refine ⟨g', tally', hrun, hfolded.cons ?_ (by simp [htarget]) hnew⟩
          intro key' hkey'
          rw [htarget] at hkey'
          exact Option.some.inj hkey' ▸ hwrote

/-! ### What a request should leave -/

/-- The graph with, on the edge that a pair of the traces goes to, the sum of its traces more, and
the rest as it was. -/
structure Exact (g : Graph) (ts : List Trace) (g' : Graph) : Prop where
  targets : ∀ pair, g'.target pair = g.target pair
  here : ∀ t ∈ ts, ∀ key, g.target t.pair = some key →
    ∃ c, g'.at key = some (some c) ∧ c.toInt = g.held key + sum ts t.pair
  others : ∀ key, (∀ t ∈ ts, g.target t.pair ≠ some key) → g'.at key = g.at key

/-- What a request adds, and what it leaves on an edge, is a number of 64 bits. -/
structure Fits (g : Graph) (ts : List Trace) : Prop where
  sums : ∀ pair, sum ts pair ≤ Int64.maxValue.toInt
  edges : ∀ pair key, g.target pair = some key →
    g.held key + sum ts pair ≤ Int64.maxValue.toInt

/-- The sums in memory are those of the traces: none wraps, and none panics. -/
def SumsExact (checks : Bool) (ts : List Trace) : Prop :=
  ∃ agg, aggregateTraces checks (ts.map Trace.value) = .ok agg ∧
    ∀ pair, ((agg.lookup pair).getD 0).toInt = sum ts pair

/-- A request ingested: what it leaves is exact, and so are its sums. -/
def Ingested (checks : Bool) (add : StoreAdd) (g : Graph) (ts : List Trace) (g' : Graph) : Prop :=
  SumsExact checks ts ∧ Exact g ts g' ∧
    ∃ answer, doIngestTraces checks add (ts.map Trace.value) g = (g', .ok answer)

/-- Two requests one after the other, and all their traces at once in any order, are ingested and
leave the same edges with the same counts. -/
def Additive (checks : Bool) (add : StoreAdd) (g : Graph) (xs ys : List Trace) : Prop :=
  ∀ zs, zs.Perm (xs ++ ys) → ∃ g₁ g₂ g₃, Ingested checks add g xs g₁ ∧
    Ingested checks add g₁ ys g₂ ∧ Ingested checks add g zs g₃ ∧ ∀ key, g₂.at key = g₃.at key

section Exact

variable {g g' g'' : Graph} {xs ys ts : List Trace}

theorem Exact.held (h : Exact g ts g') {pair : Pair} {key : Key}
    (htarget : g.target pair = some key) : g'.held key = g.held key + sum ts pair := by
  by_cases hmem : ∃ t ∈ ts, t.pair = pair
  · obtain ⟨t, ht, rfl⟩ := hmem
    obtain ⟨c, hc, hvalue⟩ := h.here t ht key htarget
    rw [Graph.held, hc]
    exact hvalue
  · have hzero : sum ts pair = 0 := sum_eq_zero fun t ht heq => hmem ⟨t, ht, heq⟩
    rw [hzero, add_zero]
    apply held_of_at
    apply h.others
    intro t ht hkey
    exact hmem ⟨t, ht, by rw [← pair_of_target hkey, pair_of_target htarget]⟩

/-- The order of the traces does not matter. -/
theorem Exact.perm (h : Exact g xs g') (hperm : xs.Perm ys) : Exact g ys g' where
  targets := h.targets
  here t ht key hkey := by
    obtain ⟨c, hc, hvalue⟩ := h.here t (hperm.mem_iff.mpr ht) key hkey
    exact ⟨c, hc, by rw [hvalue, sum_perm hperm]⟩
  others key hkey := h.others key fun t ht => hkey t (hperm.mem_iff.mp ht)

/-- One request after the other leaves what both should leave. -/
theorem Exact.append (h : Exact g xs g') (h' : Exact g' ys g'') : Exact g (xs ++ ys) g'' where
  targets pair := (h'.targets pair).trans (h.targets pair)
  here := by
    intro t ht key hkey
    rw [sum_append, ← add_assoc, ← h.held hkey]
    by_cases hys : ∃ u ∈ ys, u.pair = t.pair
    · obtain ⟨u, hu, hpair⟩ := hys
      rw [← hpair]
      exact h'.here u hu key (by rw [h.targets, hpair, hkey])
    · have hzero : sum ys t.pair = 0 := sum_eq_zero fun u hu heq => hys ⟨u, hu, heq⟩
      have hsame : g''.at key = g'.at key := by
        apply h'.others
        intro u hu hkey'
        rw [h.targets] at hkey'
        exact hys ⟨u, hu, by rw [← pair_of_target hkey', pair_of_target hkey]⟩
      have hxs : t ∈ xs := by
        rcases List.mem_append.mp ht with ht | ht
        · exact ht
        · exact absurd ⟨t, ht, rfl⟩ hys
      obtain ⟨c, hc, hvalue⟩ := h.here t hxs key hkey
      rw [hzero, add_zero, h.held hkey]
      exact ⟨c, hsame.trans hc, hvalue⟩
  others := by
    intro key hkey
    rw [h'.others key, h.others key]
    · exact fun t ht => hkey t (List.mem_append_left ys ht)
    · intro t ht
      rw [h.targets]
      exact hkey t (List.mem_append_right xs ht)

/-- The traces and the graph before decide every count. -/
theorem Exact.at_eq (h : Exact g ts g') (h' : Exact g ts g'') (key : Key) :
    g'.at key = g''.at key := by
  by_cases hkey : ∃ t ∈ ts, g.target t.pair = some key
  · obtain ⟨t, ht, htarget⟩ := hkey
    obtain ⟨c, hc, hvalue⟩ := h.here t ht key htarget
    obtain ⟨c', hc', hvalue'⟩ := h'.here t ht key htarget
    rw [hc, hc', Int64.toInt_inj.mp (hvalue.trans hvalue'.symm)]
  · have hnone : ∀ t ∈ ts, g.target t.pair ≠ some key := fun t ht htarget =>
      hkey ⟨t, ht, htarget⟩
    rw [h.others key hnone, h'.others key hnone]

end Exact

/-! ### Requests that fit -/

section Fits

variable {checks : Bool} {add : StoreAdd} {g g' : Graph} {xs ys ts : List Trace}

theorem Fits.perm (h : Fits g xs) (hperm : xs.Perm ys) : Fits g ys where
  sums pair := sum_perm hperm pair ▸ h.sums pair
  edges pair key htarget := sum_perm hperm pair ▸ h.edges pair key htarget

theorem Fits.left (h : Fits g (xs ++ ys)) : Fits g xs where
  sums pair := by
    have hboth := h.sums pair
    have hys := sum_nonneg ys pair
    rw [sum_append] at hboth
    omega
  edges pair key htarget := by
    have hboth := h.edges pair key htarget
    have hys := sum_nonneg ys pair
    rw [sum_append] at hboth
    omega

/-- What fits at once fits after the first part. -/
theorem Fits.right (h : Fits g (xs ++ ys)) (hexact : Exact g xs g') : Fits g' ys where
  sums pair := by
    have hboth := h.sums pair
    have hxs := sum_nonneg xs pair
    rw [sum_append] at hboth
    omega
  edges pair key htarget := by
    rw [hexact.targets] at htarget
    have hboth := h.edges pair key htarget
    rw [sum_append] at hboth
    rw [hexact.held htarget]
    omega

/-- The loop over the counted sums leaves what the traces should leave. -/
theorem Counted.exact {agg items : Sums} (h : Counted agg ts) (hitems : items.Perm agg)
    (hfolded : Folded g items g') : Exact g ts g' := by
  have hsum : ∀ item ∈ items, item.2.toInt = sum ts item.1 := by
    intro item hitem
    have hlookup := Assoc.lookup_of_mem h.nodup (hitems.mem_iff.mp hitem)
    rw [← h.sums, hlookup, Option.getD_some]
  refine ⟨hfolded.targets, ?_, ?_⟩
  · intro t ht key hkey
    obtain ⟨item, hitem, hpair⟩ :=
      List.mem_map.mp ((h.keys t.pair).mpr (List.mem_map_of_mem ht))
    have hmem : item ∈ items := hitems.mem_iff.mpr hitem
    rw [← hpair] at hkey ⊢
    rw [← hsum item hmem]
    exact hfolded.here item hmem key hkey
  · intro key hkey
    apply hfolded.others
    intro item hitem
    obtain ⟨t, ht, hpair⟩ := List.mem_map.mp
      ((h.keys item.1).mp (List.mem_map_of_mem (hitems.mem_iff.mp hitem)))
    exact hpair ▸ hkey t ht

/-- A request that fits is ingested. -/
theorem exact_doIngestTraces (checks : Bool) (add : StoreAdd) (h : Fits g ts) :
    ∃ g', Ingested checks add g ts g' := by
  obtain ⟨agg, hagg, hcounted⟩ := counted_aggregateTraces checks h.sums
  have hperm : (agg.insertionSort PairLe).Perm agg := List.perm_insertionSort PairLe agg
  have hnodup : ((agg.insertionSort PairLe).map Prod.fst).Nodup :=
    (hperm.map Prod.fst).nodup_iff.mpr hcounted.nodup
  obtain ⟨g', tally, hrun, hfolded⟩ := folded_foldl add {} hnodup (g := g) (by
    intro item hitem key hkey
    have hlookup := Assoc.lookup_of_mem hcounted.nodup (hperm.mem_iff.mp hitem)
    have hsum : item.2.toInt = sum ts item.1 := by
      rw [← hcounted.sums, hlookup, Option.getD_some]
    refine ⟨?_, hsum ▸ h.edges item.1 key hkey⟩
    have hlow := (inRange_toInt (((g.at key).getD none).getD 0)).1
    have hnonneg := sum_nonneg ts item.1
    rw [hsum, Graph.held]
    omega)
  refine ⟨g', ⟨agg, hagg, hcounted.sums⟩, hcounted.exact hperm hfolded, tally.answer, ?_⟩
  rw [doIngestTraces, hagg]
  simp only [hrun]
  rfl

theorem additive_of_fits (checks : Bool) (add : StoreAdd) (h : Fits g (xs ++ ys)) :
    Additive checks add g xs ys := by
  intro zs hperm
  obtain ⟨g₁, h₁⟩ := exact_doIngestTraces checks add h.left
  obtain ⟨g₂, h₂⟩ := exact_doIngestTraces checks add (h.right h₁.2.1)
  obtain ⟨g₃, h₃⟩ := exact_doIngestTraces checks add (h.perm hperm.symm)
  exact ⟨g₁, g₂, g₃, h₁, h₂, h₃,
    ((h₁.2.1.append h₂.2.1).perm hperm.symm).at_eq h₃.2.1⟩

/-- What is ingested fits: a sum in memory and a count of an edge are numbers of 64 bits. -/
theorem Ingested.fits (h : Ingested checks add g ts g') : Fits g ts := by
  obtain ⟨⟨agg, -, hsums⟩, hexact, -⟩ := h
  refine ⟨fun pair => ?_, fun pair key htarget => ?_⟩
  · rw [← hsums]
    exact (inRange_toInt _).2
  · rw [← hexact.held htarget, Graph.held]
    exact (inRange_toInt _).2

end Fits

/-- Ingestion is additive exactly where the sums of the traces, and what the edges hold with them,
fit in 64 bits. -/
theorem additive_iff (checks : Bool) (add : StoreAdd) (g : Graph) (xs ys : List Trace) :
    Additive checks add g xs ys ↔ Fits g (xs ++ ys) := by
  constructor
  · intro h
    obtain ⟨-, -, g₃, -, -, hingested, -⟩ := h (xs ++ ys) (List.Perm.refl _)
    exact hingested.fits
  · exact additive_of_fits checks add

/-- Two functions without a call between them. -/
def twoFunctions : Graph where
  nodes
    | .function => ["a.py::f".toList, "a.py::g".toList]
    | .method => []
  edges := []
  nodup := List.nodup_nil

/-- A store that refuses what is out of range. -/
def checkedAdd : StoreAdd where
  add a b := if InRange (a.toInt + b.toInt) then some (a + b) else none
  exact _ _ h := if_pos h

/-- The largest count and one more, for one pair. -/
def mostAndOne : List Trace × List Trace :=
  ([⟨"a.py::f".toList, "a.py::g".toList, some (2 ^ 63 - 1)⟩],
    [⟨"a.py::f".toList, "a.py::g".toList, some 1⟩])

example : aggregateTraces true ((mostAndOne.1 ++ mostAndOne.2).map Trace.value) =
    .error .panicked := by
  decide +kernel

example : aggregateTraces false ((mostAndOne.1 ++ mostAndOne.2).map Trace.value) =
    .ok [(("a.py::f".toList, "a.py::g".toList), Int64.minValue)] := by
  decide +kernel

theorem mostAndOne_not_additive : ¬ ∀ (checks : Bool) (add : StoreAdd) (g : Graph)
    (xs ys : List Trace), Additive checks add g xs ys := by
  intro h
  obtain ⟨-, -, g₃, -, -, hingested, -⟩ := h true checkedAdd twoFunctions mostAndOne.1 mostAndOne.2
    (mostAndOne.1 ++ mostAndOne.2) (List.Perm.refl _)
  have hsum := hingested.fits.sums ("a.py::f".toList, "a.py::g".toList)
  exact absurd hsum (by decide +kernel)

end AutomatisedPipeline.Traces

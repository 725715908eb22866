import AutomatisedPipeline.GraphCache.Cache
import AutomatisedPipeline.Logic.Assoc
import AutomatisedPipeline.Logic.Run

/-!
What the cache of graph handles keeps over whole runs.

The number of entries is bounded in every run. That `release` knows of every handle that is
still alive needs that no held handle leaves the cache: an opening takes an entry out when
it replaces a stale one and when the cache is full, whether a request holds its handle or
not. `World.Careful` is the condition under which it does not.
-/

namespace AutomatisedPipeline.Handles

open Text

/-! ### Entries -/

namespace Entries

theorem lookup_remove (entries : Entries) (key other : Str) :
    (entries.remove key).lookup other = if other = key then none else entries.lookup other :=
  Assoc.lookup_filter_ne key other entries

theorem lookup_insert (entries : Entries) (key other : Str) (entry : CacheEntry) :
    (entries.insert key entry).lookup other =
      if other = key then some entry else entries.lookup other := by
  rw [Entries.insert, List.lookup_cons]
  by_cases h : other = key
  · simp [h]
  · rw [beq_eq_false_iff_ne.mpr h, lookup_remove, if_neg h, if_neg h]

theorem mem_remove {entries : Entries} {key : Str} {e : Str × CacheEntry} :
    e ∈ entries.remove key ↔ e ∈ entries ∧ e.1 ≠ key := by
  rw [Entries.remove, List.mem_filter, decide_eq_true_eq]

theorem remove_of_lookup_eq_none {entries : Entries} {key : Str}
    (h : entries.lookup key = none) : entries.remove key = entries := by
  refine List.filter_eq_self.mpr fun e he => decide_eq_true fun hkey => ?_
  have hne := List.lookup_eq_none_iff.mp h e he
  simp [hkey] at hne

theorem length_remove_lt {entries : Entries} {e : Str × CacheEntry} (he : e ∈ entries) :
    (entries.remove e.1).length < entries.length :=
  List.length_filter_lt_length_iff_exists.mpr ⟨e, he, by simp⟩

theorem victim_mem {entries : Entries} {victim : Str × CacheEntry}
    (h : entries.victim = some victim) : victim ∈ entries :=
  List.argmin_mem h

theorem victim_eq_none {entries : Entries} : entries.victim = none ↔ entries = [] :=
  List.argmin_eq_none

/-- An entry that was opened after the others is not the victim. -/
theorem victim_cons {entries : Entries} {e : Str × CacheEntry} (hne : entries ≠ [])
    (h : ∀ e' ∈ entries, e'.2.openedSeq < e.2.openedSeq) :
    Entries.victim (e :: entries) = entries.victim := by
  cases hvictim : entries.victim with
  | none => exact absurd (victim_eq_none.mp hvictim) hne
  | some victim =>
      have hlt := h victim (victim_mem hvictim)
      rw [Entries.victim, List.argmin_cons]
      rw [Entries.victim] at hvictim
      simp only [hvictim, if_pos hlt]

end Entries

/-! ### Eviction -/

theorem length_evictLoop (fuel : Nat) (entries : Entries)
    (h : entries.length ≤ fuel + maxCachedGraphs) :
    (evictLoop fuel entries).length ≤ maxCachedGraphs := by
  induction fuel generalizing entries with
  | zero => simpa [evictLoop] using h
  | succ fuel ih =>
      rw [evictLoop]
      split
      · cases hvictim : entries.victim with
        | none =>
            rw [Entries.victim_eq_none.mp hvictim]
            exact Nat.zero_le _
        | some victim =>
            have hlt := Entries.length_remove_lt (Entries.victim_mem hvictim)
            exact ih _ (by omega)
      · omega

/-- The cache is within its capacity after an eviction. -/
theorem length_evictIfOverCapacity (entries : Entries) :
    (evictIfOverCapacity entries).length ≤ maxCachedGraphs :=
  length_evictLoop _ _ (Nat.le_add_right _ _)

theorem evictLoop_of_length_le (fuel : Nat) {entries : Entries}
    (h : entries.length ≤ maxCachedGraphs) : evictLoop fuel entries = entries := by
  cases fuel with
  | zero => rfl
  | succ fuel => rw [evictLoop, if_neg (not_lt.mpr h)]

theorem evictIfOverCapacity_of_length_le {entries : Entries}
    (h : entries.length ≤ maxCachedGraphs) : evictIfOverCapacity entries = entries :=
  evictLoop_of_length_le _ h

/-- One entry too many: the one opened first leaves. -/
theorem evictIfOverCapacity_of_length_eq {entries : Entries} {victim : Str × CacheEntry}
    (h : entries.length = maxCachedGraphs + 1) (hvictim : entries.victim = some victim) :
    evictIfOverCapacity entries = entries.remove victim.1 := by
  have hlt := Entries.length_remove_lt (Entries.victim_mem hvictim)
  rw [evictIfOverCapacity, h, evictLoop, if_pos (by omega), hvictim]
  exact evictLoop_of_length_le _ (by omega)

/-- An eviction takes entries out and changes none. -/
theorem evictLoop_sublist (fuel : Nat) (entries : Entries) :
    (evictLoop fuel entries).Sublist entries := by
  induction fuel generalizing entries with
  | zero => exact List.Sublist.refl _
  | succ fuel ih =>
      rw [evictLoop]
      split
      · cases entries.victim with
        | none => exact List.Sublist.refl _
        | some victim => exact (ih _).trans List.filter_sublist
      · exact List.Sublist.refl _

/-! ### Every run -/

/-- What every run keeps of the cache. -/
structure GraphCache.WellFormed (cache : GraphCache) : Prop where
  nodup : (cache.entries.map Prod.fst).Nodup
  length_le : cache.entries.length ≤ maxCachedGraphs
  openedSeq_lt : ∀ e ∈ cache.entries, e.2.openedSeq < cache.nextSeq
  fingerprint : ∀ e ∈ cache.entries, e.2.fingerprint = e.2.store.openedAt.getD .zero

theorem GraphCache.WellFormed.empty : GraphCache.WellFormed ⟨[], 0⟩ where
  nodup := List.nodup_nil
  length_le := Nat.zero_le _
  openedSeq_lt := by simp
  fingerprint := by simp

theorem GraphCache.WellFormed.remove {cache : GraphCache} (h : cache.WellFormed) (key : Str) :
    GraphCache.WellFormed { cache with entries := cache.entries.remove key } where
  nodup := h.nodup.sublist (List.filter_sublist.map _)
  length_le := (List.length_filter_le _ _).trans h.length_le
  openedSeq_lt := fun e he => h.openedSeq_lt e (Entries.mem_remove.mp he).1
  fingerprint := fun e he => h.fingerprint e (Entries.mem_remove.mp he).1

/-- The cache after an opening that was not answered from an entry. -/
def GraphCache.store (cache : GraphCache) (key : Str) (fingerprint : Option GraphFingerprint) :
    GraphCache where
  entries := evictIfOverCapacity (cache.entries.insert key
    ⟨⟨cache.nextSeq, fingerprint⟩, fingerprint.getD .zero, cache.nextSeq⟩)
  nextSeq := cache.nextSeq + 1

theorem GraphCache.WellFormed.store {cache : GraphCache} (h : cache.WellFormed) (key : Str)
    (fingerprint : Option GraphFingerprint) : (cache.store key fingerprint).WellFormed := by
  have hsub := evictLoop_sublist (cache.entries.insert key
    ⟨⟨cache.nextSeq, fingerprint⟩, fingerprint.getD .zero, cache.nextSeq⟩).length
    (cache.entries.insert key
      ⟨⟨cache.nextSeq, fingerprint⟩, fingerprint.getD .zero, cache.nextSeq⟩)
  refine ⟨?_, length_evictIfOverCapacity _, ?_, ?_⟩
  · refine List.Nodup.sublist (hsub.map _) ?_
    rw [Entries.insert, List.map_cons, List.nodup_cons]
    refine ⟨?_, h.nodup.sublist (List.filter_sublist.map _)⟩
    intro hkey
    obtain ⟨e, he, hek⟩ := List.mem_map.mp hkey
    exact (Entries.mem_remove.mp he).2 hek
  · intro e he
    rcases List.mem_cons.mp (hsub.subset he) with rfl | hmem
    · exact Nat.lt_succ_self _
    · exact Nat.lt_succ_of_lt (h.openedSeq_lt e (Entries.mem_remove.mp hmem).1)
  · intro e he
    rcases List.mem_cons.mp (hsub.subset he) with rfl | hmem
    · rfl
    · exact h.fingerprint e (Entries.mem_remove.mp hmem).1

/-- What an opening does: it answers from the entry of the path, fails, or stores a new
entry. -/
theorem World.openCached_cases (w : World) (path : Str) (opening : Opening) :
    (∃ entry, w.cache.fresh w.disk path = some entry ∧
      w.openCached path opening =
        ({ w with handles := w.handles ++ [⟨entry.store, path, w.disk.key path⟩] },
          .ok ⟨entry.store, path, w.disk.key path⟩)) ∨
    (w.cache.fresh w.disk path = none ∧ ∃ error, opening.error = some error ∧
      w.openCached path opening = ({ w with disk := opening.disk }, .error error)) ∨
    (w.cache.fresh w.disk path = none ∧ opening.error = none ∧
      w.openCached path opening =
        (⟨opening.disk, w.cache.store (w.disk.key path) (GraphFingerprint.of opening.disk path),
            w.handles ++ [⟨⟨w.cache.nextSeq, GraphFingerprint.of opening.disk path⟩, path,
              w.disk.key path⟩]⟩,
          .ok ⟨⟨w.cache.nextSeq, GraphFingerprint.of opening.disk path⟩, path,
            w.disk.key path⟩)) := by
  cases hfresh : w.cache.fresh w.disk path with
  | some entry =>
      refine .inl ⟨entry, rfl, ?_⟩
      simp only [World.openCached, GraphCache.getWithOpener, hfresh]
  | none =>
      cases herror : opening.error with
      | some error =>
          refine .inr (.inl ⟨rfl, error, rfl, ?_⟩)
          simp only [World.openCached, GraphCache.getWithOpener, hfresh, herror]
      | none =>
          refine .inr (.inr ⟨rfl, rfl, ?_⟩)
          simp only [World.openCached, GraphCache.getWithOpener, hfresh, herror]
          rfl

/-- What a release does: it refuses, takes the entry of the path out, or finds none. -/
theorem World.release_cases (w : World) (path : Str) :
    (∃ entry, w.cache.entries.lookup (w.disk.key path) = some entry ∧
      1 < w.strongCount entry.store ∧ w.release path = (w, .error (handleInUse path))) ∨
    (∃ entry, w.cache.entries.lookup (w.disk.key path) = some entry ∧
      w.strongCount entry.store ≤ 1 ∧
      w.release path =
        ({ w with cache.entries := w.cache.entries.remove (w.disk.key path) }, .ok ())) ∨
    (w.cache.entries.lookup (w.disk.key path) = none ∧ w.release path = (w, .ok ())) := by
  cases hlookup : w.cache.entries.lookup (w.disk.key path) with
  | none =>
      refine .inr (.inr ⟨rfl, ?_⟩)
      simp only [World.release, hlookup]
  | some entry =>
      by_cases hcount : 1 < w.strongCount entry.store
      · refine .inl ⟨entry, rfl, hcount, ?_⟩
        simp only [World.release, hlookup, if_pos hcount]
      · refine .inr (.inl ⟨entry, rfl, not_lt.mp hcount, ?_⟩)
        simp only [World.release, hlookup, if_neg hcount]

theorem World.step_wellFormed {w : World} (h : w.cache.WellFormed) (op : Op) :
    (w.step op).cache.WellFormed := by
  cases op with
  | «open» path opening =>
      rcases w.openCached_cases path opening with
        ⟨entry, -, hopen⟩ | ⟨-, error, -, hopen⟩ | ⟨-, -, hopen⟩
      · rw [World.step, hopen]
        exact h
      · rw [World.step, hopen]
        exact h
      · rw [World.step, hopen]
        exact h.store _ _
  | drop i => exact h
  | release path =>
      rcases w.release_cases path with ⟨entry, -, -, hrel⟩ | ⟨entry, -, -, hrel⟩ | ⟨-, hrel⟩
      · rw [World.step, hrel]
        exact h
      · rw [World.step, hrel]
        exact h.remove _
      · rw [World.step, hrel]
        exact h
  | rewrite disk => exact h

/-! ### Careful runs -/

/-- No request holds the handle of an entry. -/
def World.NotHeld (w : World) (entry : CacheEntry) : Prop :=
  ∀ handle ∈ w.handles, handle.store ≠ entry.store

/-- The condition under which a step keeps the contract.

* An opening answered from an entry that was made while the files could not be read does not
  meet files whose fingerprint is the one stored for that case.
* An opening that makes a new entry takes out none that is held: neither the stale entry of
  the path nor, where the cache is full, the one opened first.
* A release names a path whose handles were given out under the canonical path it has now. -/
def World.Careful (w : World) : Op → Prop
  | .open path opening =>
      (∀ entry, w.cache.entries.lookup (w.disk.key path) = some entry →
        entry.store.openedAt = none → GraphFingerprint.of w.disk path ≠ some .zero) ∧
      (w.cache.fresh w.disk path = none → opening.error = none →
        (∀ entry, w.cache.entries.lookup (w.disk.key path) = some entry → w.NotHeld entry) ∧
        (w.cache.entries.lookup (w.disk.key path) = none →
          w.cache.entries.length = maxCachedGraphs →
          ∀ victim, w.cache.entries.victim = some victim → w.NotHeld victim.2))
  | .drop _ => True
  | .release path => ∀ handle ∈ w.handles, handle.path = path → handle.key = w.disk.key path
  | .rewrite _ => True

/-- Every handle that is alive is the handle of the entry at its key. -/
def World.Held (w : World) : Prop :=
  ∀ handle ∈ w.handles, ∃ entry, w.cache.entries.lookup handle.key = some entry ∧
    entry.store = handle.store

/-- A new entry leaves the held ones where they are. -/
theorem GraphCache.lookup_store {cache : GraphCache} (h : cache.WellFormed) {key : Str}
    (fingerprint : Option GraphFingerprint) {other : Str}
    (hvictim : cache.entries.lookup key = none → cache.entries.length = maxCachedGraphs →
      ∀ victim, cache.entries.victim = some victim → victim.1 ≠ other) :
    (cache.store key fingerprint).entries.lookup other =
      if other = key then
        some ⟨⟨cache.nextSeq, fingerprint⟩, fingerprint.getD .zero, cache.nextSeq⟩
      else cache.entries.lookup other := by
  set entry : CacheEntry :=
    ⟨⟨cache.nextSeq, fingerprint⟩, fingerprint.getD .zero, cache.nextSeq⟩ with hentry
  by_cases hlength : (cache.entries.insert key entry).length ≤ maxCachedGraphs
  · rw [GraphCache.store, ← hentry, evictIfOverCapacity_of_length_le hlength,
      Entries.lookup_insert]
  · -- the cache was full and had no entry of the path: the entry opened first leaves
    have habsent : cache.entries.lookup key = none := by
      refine Option.eq_none_iff_forall_ne_some.mpr fun e he => hlength ?_
      have hlt := Entries.length_remove_lt (Assoc.mem_of_lookup he)
      rw [Entries.insert, List.length_cons]
      exact hlt.trans_le h.length_le
    have hinsert : cache.entries.insert key entry = (key, entry) :: cache.entries := by
      rw [Entries.insert, Entries.remove_of_lookup_eq_none habsent]
    rw [hinsert, List.length_cons] at hlength
    have hfull : cache.entries.length = maxCachedGraphs :=
      le_antisymm h.length_le (by omega)
    have hne : cache.entries ≠ [] := by
      rintro hnil
      rw [hnil] at hfull
      cases hfull
    have hseq : ∀ e ∈ cache.entries, e.2.openedSeq < (key, entry).2.openedSeq :=
      h.openedSeq_lt
    obtain ⟨victim, hv⟩ := Option.ne_none_iff_exists'.mp (mt Entries.victim_eq_none.mp hne)
    have hv' : Entries.victim ((key, entry) :: cache.entries) = some victim := by
      rw [Entries.victim_cons hne hseq, hv]
    have hother : other ≠ victim.1 := fun heq => hvictim habsent hfull victim hv heq.symm
    rw [GraphCache.store, ← hentry, hinsert,
      evictIfOverCapacity_of_length_eq (by rw [List.length_cons, hfull]) hv',
      Entries.lookup_remove, if_neg hother, ← hinsert, Entries.lookup_insert]

theorem World.held_open {w : World} (h : w.cache.WellFormed) (hheld : w.Held) {path : Str}
    {opening : Opening} (hcareful : w.Careful (.open path opening)) :
    (w.openCached path opening).1.Held := by
  rcases w.openCached_cases path opening with
    ⟨entry, hfresh, hopen⟩ | ⟨-, error, -, hopen⟩ | ⟨hfresh, herror, hopen⟩
  · rw [hopen]
    intro handle hmem
    rcases List.mem_append.mp hmem with hold | hnew
    · exact hheld handle hold
    · rw [List.mem_singleton.mp hnew]
      refine ⟨entry, ?_, rfl⟩
      rw [GraphCache.fresh] at hfresh
      split at hfresh
      · rename_i heq
        split at hfresh
        · rw [← hfresh]
          exact heq
        · cases hfresh
      · cases hfresh
  · rw [hopen]
    exact hheld
  · rw [hopen]
    obtain ⟨hstale, hfull⟩ := hcareful.2 hfresh herror
    have hvictim : ∀ handle ∈ w.handles, w.cache.entries.lookup (w.disk.key path) = none →
        w.cache.entries.length = maxCachedGraphs →
        ∀ victim, w.cache.entries.victim = some victim → victim.1 ≠ handle.key := by
      intro handle hmem habsent hlength victim hv hkey
      obtain ⟨entry, hlookup, hstore⟩ := hheld handle hmem
      have hself := Assoc.lookup_of_mem h.nodup (Entries.victim_mem hv)
      rw [hkey, hlookup] at hself
      cases hself
      exact hfull habsent hlength victim hv handle hmem hstore.symm
    intro handle hmem
    rcases List.mem_append.mp hmem with hold | hnew
    · obtain ⟨entry, hlookup, hstore⟩ := hheld handle hold
      have hkey : handle.key ≠ w.disk.key path := by
        intro heq
        rw [heq] at hlookup
        exact hstale entry hlookup handle hold hstore.symm
      refine ⟨entry, ?_, hstore⟩
      rw [GraphCache.lookup_store h _ (hvictim handle hold), if_neg hkey]
      exact hlookup
    · rw [List.mem_singleton.mp hnew]
      refine ⟨⟨⟨w.cache.nextSeq, GraphFingerprint.of opening.disk path⟩,
        (GraphFingerprint.of opening.disk path).getD .zero, w.cache.nextSeq⟩, ?_, rfl⟩
      rw [GraphCache.lookup_store h, if_pos rfl]
      intro habsent _ victim hv hkey
      have hself := Assoc.lookup_of_mem h.nodup (Entries.victim_mem hv)
      rw [hkey, habsent] at hself
      cases hself

/-- A release that takes an entry out takes one that no request holds. -/
theorem World.notHeld_of_strongCount {w : World} {path : Str} {entry : CacheEntry}
    (hlookup : w.cache.entries.lookup (w.disk.key path) = some entry)
    (hcount : w.strongCount entry.store ≤ 1) : w.NotHeld entry := by
  intro handle hmem hstore
  have hentry : 0 < w.cache.entries.countP fun e => e.2.store = entry.store :=
    List.countP_pos_iff.mpr ⟨_, Assoc.mem_of_lookup hlookup, by simp⟩
  have hhandle : 0 < w.handles.countP fun handle => handle.store = entry.store :=
    List.countP_pos_iff.mpr ⟨handle, hmem, by simpa using hstore⟩
  rw [World.strongCount] at hcount
  omega

theorem World.step_held {w : World} (h : w.cache.WellFormed) (hheld : w.Held) {op : Op}
    (hcareful : w.Careful op) : (w.step op).Held := by
  cases op with
  | «open» path opening => exact World.held_open h hheld hcareful
  | drop i => exact fun handle hmem => hheld handle (List.mem_of_mem_eraseIdx hmem)
  | release path =>
      rcases w.release_cases path with
        ⟨entry, -, -, hrel⟩ | ⟨entry, hlookup, hcount, hrel⟩ | ⟨-, hrel⟩
      · rw [World.step, hrel]
        exact hheld
      · rw [World.step, hrel]
        intro handle hmem
        obtain ⟨entry', hlookup', hstore⟩ := hheld handle hmem
        have hkey : handle.key ≠ w.disk.key path := by
          intro heq
          rw [heq, hlookup] at hlookup'
          cases hlookup'
          exact World.notHeld_of_strongCount hlookup hcount handle hmem hstore.symm
        refine ⟨entry', ?_, hstore⟩
        rw [Entries.lookup_remove, if_neg hkey]
        exact hlookup'
      · rw [World.step, hrel]
        exact hheld
  | rewrite disk => exact hheld

/-! ### The contract -/

/-- The worlds the server can start in. -/
def World.Initial (w : World) : Prop := ∃ disk, w = World.start disk

/-- A step of any kind. -/
def World.Next (w w' : World) : Prop := ∃ op, w' = w.step op

/-- A step that meets its condition. -/
def World.CarefulNext (w w' : World) : Prop := ∃ op, w.Careful op ∧ w' = w.step op

theorem World.wellFormed_of_reachable {w : World}
    (h : Run.Reachable World.Initial World.Next w) : w.cache.WellFormed := by
  refine @Run.Reachable.invariant _ _ _ (fun w => w.cache.WellFormed) ?_ ?_ w h
  · rintro w ⟨disk, rfl⟩
    exact GraphCache.WellFormed.empty
  · rintro w w' hw ⟨op, rfl⟩
    exact World.step_wellFormed hw op

theorem World.held_of_reachable {w : World}
    (h : Run.Reachable World.Initial World.CarefulNext w) : w.cache.WellFormed ∧ w.Held := by
  refine @Run.Reachable.invariant _ _ _ (fun w => w.cache.WellFormed ∧ w.Held) ?_ ?_ w h
  · rintro w ⟨disk, rfl⟩
    exact ⟨GraphCache.WellFormed.empty, by simp [World.Held, World.start]⟩
  · rintro w w' ⟨hw, hheld⟩ ⟨op, hcareful, rfl⟩
    exact ⟨World.step_wellFormed hw op, World.step_held hw hheld hcareful⟩

theorem World.openedAt_of_openCached {w w' : World} (h : w.cache.WellFormed) {path : Str}
    {opening : Opening} {handle : Handle} (hcareful : w.Careful (.open path opening))
    (hopen : w.openCached path opening = (w', .ok handle)) :
    handle.store.openedAt = GraphFingerprint.of w'.disk path := by
  rcases w.openCached_cases path opening with
    ⟨entry, hfresh, heq⟩ | ⟨-, error, -, heq⟩ | ⟨-, -, heq⟩
  · rw [heq] at hopen
    cases hopen
    rw [GraphCache.fresh] at hfresh
    split at hfresh
    · rename_i current found hof hlookup
      split at hfresh
      · rename_i hfp
        cases hfresh
        rw [h.fingerprint _ (Assoc.mem_of_lookup hlookup)] at hfp
        change entry.store.openedAt = GraphFingerprint.of w.disk path
        rw [hof]
        cases hopened : entry.store.openedAt with
        | none =>
            rw [hopened] at hfp
            refine absurd ?_ (hcareful.1 entry hlookup hopened)
            rw [hof, ← hfp]
            rfl
        | some fp =>
            rw [hopened] at hfp
            rw [← hfp]
            rfl
      · cases hfresh
    · cases hfresh
  · rw [heq] at hopen
    cases hopen
  · rw [heq] at hopen
    cases hopen
    rfl

theorem World.not_alive_of_release {w w' : World} (hheld : w.Held) {path : Str}
    (hcareful : w.Careful (.release path)) (hrel : w.release path = (w', .ok ())) :
    ∀ handle ∈ w.handles, handle.path ≠ path ∧ handle.key ≠ w.disk.key path := by
  intro handle hmem
  have hkey : handle.key ≠ w.disk.key path := by
    intro heq
    obtain ⟨entry, hlookup, hstore⟩ := hheld handle hmem
    rw [heq] at hlookup
    rcases w.release_cases path with ⟨_, -, -, hcase⟩ | ⟨e, he, hcount, -⟩ | ⟨hnone, -⟩
    · rw [hcase] at hrel
      cases hrel
    · rw [he] at hlookup
      cases hlookup
      exact World.notHeld_of_strongCount he hcount handle hmem hstore.symm
    · rw [hnone] at hlookup
      cases hlookup
  exact ⟨fun hpath => hkey (hcareful handle hmem hpath), hkey⟩

/-- In every run the cache is within its capacity; in every careful run a handle that an
opening returns was opened at the fingerprint its files have, and a release succeeds only
when no handle of the path, or of the graph the path names, is alive. -/
theorem handle_contract (w : World) :
    (Run.Reachable World.Initial World.Next w → w.cache.entries.length ≤ maxCachedGraphs) ∧
    (Run.Reachable World.Initial World.CarefulNext w →
      (∀ path opening w' handle, w.Careful (.open path opening) →
        w.openCached path opening = (w', .ok handle) →
        handle.store.openedAt = GraphFingerprint.of w'.disk path) ∧
      (∀ path w', w.Careful (.release path) → w.release path = (w', .ok ()) →
        ∀ handle ∈ w.handles, handle.path ≠ path ∧ handle.key ≠ w.disk.key path)) := by
  refine ⟨fun h => (World.wellFormed_of_reachable h).length_le, fun h => ?_⟩
  obtain ⟨hw, hheld⟩ := World.held_of_reachable h
  constructor
  · intro path opening w' handle hcareful hopen
    exact World.openedAt_of_openCached hw hcareful hopen
  · intro path w' hcareful hrel
    exact World.not_alive_of_release hheld hcareful hrel

/-- A disk with one graph file. -/
def oneGraph (graph : Str) (modified len : Nat) : Disk where
  canonicalize path := some path
  node path := if path = graph then some (.file (some modified) len) else none

/-- While the first handle of a graph is alive, a release of the graph is refused. -/
theorem handle_contract_first_handle :
    ¬∃ w', ((World.start (oneGraph "g".toList 1 1)).step
      (.open "g".toList ⟨oneGraph "g".toList 1 1, none⟩)).release "g".toList = (w', .ok ()) := by
  have hcareful : (World.start (oneGraph "g".toList 1 1)).Careful
      (.open "g".toList ⟨oneGraph "g".toList 1 1, none⟩) := by
    refine ⟨fun entry h => ?_, fun _ _ => ⟨fun entry h => ?_, fun _ h => ?_⟩⟩
    · cases h
    · cases h
    · cases h
  rintro ⟨w', hrel⟩
  have hcontract := ((handle_contract _).2
    (.step (.start ⟨oneGraph "g".toList 1 1, rfl⟩) ⟨_, hcareful, rfl⟩)).2 "g".toList w'
  refine (hcontract ?_ hrel
    ⟨⟨0, some ⟨1, 1⟩⟩, "g".toList, "g".toList⟩ (by decide)).1 rfl
  intro handle hmem _
  obtain rfl : handle = ⟨⟨0, some ⟨1, 1⟩⟩, "g".toList, "g".toList⟩ := by
    have hhandles : ((World.start (oneGraph "g".toList 1 1)).step
        (.open "g".toList ⟨oneGraph "g".toList 1 1, none⟩)).handles =
        [⟨⟨0, some ⟨1, 1⟩⟩, "g".toList, "g".toList⟩] := by decide
    rw [hhandles] at hmem
    exact List.mem_singleton.mp hmem
  rfl

/-- A request holds the handle of a graph that is then rewritten; another request opens the
graph, which replaces the stale entry, and returns. Now a release of the graph succeeds
although the first request still holds its handle. -/
theorem release_ok_while_held :
    let w := [Op.open "g".toList ⟨oneGraph "g".toList 1 1, none⟩,
      .rewrite (oneGraph "g".toList 2 2),
      .open "g".toList ⟨oneGraph "g".toList 2 2, none⟩,
      .drop 1].foldl World.step (World.start (oneGraph "g".toList 1 1))
    (w.release "g".toList).2 = .ok () ∧ ∃ handle ∈ w.handles, handle.path = "g".toList := by
  refine ⟨rfl, ⟨⟨0, some ⟨1, 1⟩⟩, "g".toList, "g".toList⟩, ?_, rfl⟩
  decide

end AutomatisedPipeline.Handles

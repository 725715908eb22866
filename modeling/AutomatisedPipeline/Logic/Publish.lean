import Mathlib.Tactic

/-!
Files that are replaced by renaming a new file over them.

A writer creates a file under a name that nobody used before, writes it piece by piece, and renames
it over a target, or leaves it where it is. Any number of writers take their steps in any order, and
each of them may stop between two steps.

What a reader of the targets sees of a disk is its log of renames: a target holds the whole contents
of its last entry, in every reachable state (`Sound.exists_entry_of_read`), and a file that is in
the log is written no more (`Step.inodes_eq`) and comes back no more (`lastOver_of_prefix`).
-/

namespace AutomatisedPipeline.Publish

/-- A file: its bytes, and when it was last written, where that is known. -/
structure Inode (β : Type) where
  bytes : List β
  modified : Option Int

/-- A file that a writer has open: how much of its contents is written. -/
structure Draft (ν β : Type) where
  name : ν
  inode : Nat
  contents : List β
  written : Nat

/-- A rename over a target. -/
structure Entry (ν β W : Type) where
  writer : W
  target : ν
  inode : Nat
  contents : List β

structure Disk (ν β W : Type) where
  names : ν → Option Nat
  inodes : Nat → Option (Inode β)
  next : Nat
  drafts : W → Option (Draft ν β)
  used : List ν
  log : List (Entry ν β W)

variable {ν β W : Type} [DecidableEq ν]

/-! ### Logs -/

/-- The last entry of a log that is over a target. -/
def lastOver (log : List (Entry ν β W)) (target : ν) : Option (Entry ν β W) :=
  (log.filter fun entry => entry.target = target).getLast?

theorem mem_of_lastOver {log : List (Entry ν β W)} {target : ν} {entry : Entry ν β W}
    (h : lastOver log target = some entry) : entry ∈ log ∧ entry.target = target := by
  obtain ⟨hmem, htarget⟩ := List.mem_filter.mp (List.mem_of_getLast? h)
  exact ⟨hmem, of_decide_eq_true htarget⟩

theorem lastOver_concat (log : List (Entry ν β W)) (entry : Entry ν β W) (target : ν) :
    lastOver (log ++ [entry]) target =
      if entry.target = target then some entry else lastOver log target := by
  rw [lastOver, lastOver, List.filter_append, List.filter_singleton]
  by_cases htarget : entry.target = target
  · rw [if_pos htarget, decide_eq_true htarget, cond_true, List.getLast?_concat]
  · rw [if_neg htarget, decide_eq_false htarget, cond_false, List.append_nil]

/-- An entry that is the last one over its target was the last one ever since it was made. -/
theorem lastOver_of_prefix {log log' : List (Entry ν β W)} (hpre : log <+: log')
    (hnodup : (log'.map Entry.inode).Nodup) {entry : Entry ν β W} {target : ν} (hmem : entry ∈ log)
    (hlast : lastOver log' target = some entry) : lastOver log target = some entry := by
  obtain ⟨later, rfl⟩ := hpre
  rw [lastOver, List.filter_append, List.getLast?_append] at hlast
  cases hlater : (later.filter fun entry => entry.target = target).getLast? with
  | none =>
      rw [hlater, Option.none_or] at hlast
      exact hlast
  | some other =>
      have hother : other ∈ later := (mem_of_lastOver hlater).1
      obtain rfl : other = entry := by
        rw [hlater, Option.some_or] at hlast
        exact Option.some.inj hlast
      rw [List.map_append] at hnodup
      exact absurd (List.mem_map_of_mem hother)
        (List.disjoint_of_nodup_append hnodup (List.mem_map_of_mem hmem))

/-! ### Disks -/

namespace Disk

def empty : Disk ν β W where
  names _ := none
  inodes _ := none
  next := 0
  drafts _ := none
  used := []
  log := []

/-- The file that has a name. -/
def read (d : Disk ν β W) (name : ν) : Option (Inode β) := (d.names name).bind d.inodes

/-- The last rename over a target. -/
def current (d : Disk ν β W) (target : ν) : Option (Entry ν β W) := lastOver d.log target

end Disk

/-- What holds of a disk whatever the writers did. -/
structure Sound (isTarget : ν → Prop) (d : Disk ν β W) : Prop where
  lt_next : ∀ {n i}, d.names n = some i → i < d.next
  injective : ∀ {n m i}, d.names n = some i → d.names m = some i → n = m
  bound : ∀ {n i}, d.names n = some i → isTarget n ∨ n ∈ d.used
  draft : ∀ {w draft}, d.drafts w = some draft →
    d.names draft.name = some draft.inode ∧ ¬ isTarget draft.name ∧
      ∃ modified, d.inodes draft.inode = some ⟨draft.contents.take draft.written, modified⟩
  sole : ∀ {w v a b}, d.drafts w = some a → d.drafts v = some b → a.name = b.name → w = v
  logged : ∀ entry ∈ d.log, entry.inode < d.next ∧ isTarget entry.target ∧
    (∃ modified, d.inodes entry.inode = some ⟨entry.contents, modified⟩) ∧
      ∀ {n}, d.names n = some entry.inode → n = entry.target
  nodup : (d.log.map Entry.inode).Nodup
  current : ∀ {t}, isTarget t → d.names t = (d.current t).map Entry.inode

namespace Sound

variable {isTarget : ν → Prop} {d : Disk ν β W}

theorem empty : Sound isTarget (Disk.empty : Disk ν β W) where
  lt_next h := by cases h
  injective h := by cases h
  bound h := by cases h
  draft h := by cases h
  sole h := by cases h
  logged _ h := by cases h
  nodup := List.nodup_nil
  current _ := rfl

/-- A file that is in the log is under no other name than its target. -/
theorem not_logged (h : Sound isTarget d) {n : ν} {i : Nat} (hn : d.names n = some i)
    (hnot : ¬ isTarget n) : ∀ entry ∈ d.log, entry.inode ≠ i := by
  rintro entry hentry rfl
  obtain ⟨-, htarget, -, hname⟩ := h.logged entry hentry
  exact hnot (hname hn ▸ htarget)

/-- Two writers have different files open. -/
theorem inode_ne (h : Sound isTarget d) {w v : W} {a b : Draft ν β} (hw : d.drafts w = some a)
    (hv : d.drafts v = some b) (hne : w ≠ v) : a.inode ≠ b.inode := by
  intro heq
  have ha := (h.draft hw).1
  have hb := (h.draft hv).1
  rw [← heq] at hb
  exact hne (h.sole hw hv (h.injective ha hb))

theorem read_eq (h : Sound isTarget d) {t : ν} (ht : isTarget t) :
    d.read t = (d.current t).bind fun entry => d.inodes entry.inode := by
  rw [Disk.read, h.current ht, Option.bind_map]
  rfl

/-- A target holds the whole contents of the last rename over it. -/
theorem exists_entry_of_read (h : Sound isTarget d) {t : ν} (ht : isTarget t) {inode : Inode β}
    (hread : d.read t = some inode) :
    ∃ entry, d.current t = some entry ∧ d.inodes entry.inode = some inode ∧
      inode.bytes = entry.contents := by
  rw [h.read_eq ht] at hread
  obtain ⟨entry, hcurrent, hinode⟩ := Option.bind_eq_some_iff.mp hread
  obtain ⟨-, -, ⟨modified, hcontents⟩, -⟩ := h.logged entry (mem_of_lastOver hcurrent).1
  obtain rfl : ⟨entry.contents, modified⟩ = inode := Option.some.inj (hcontents.symm.trans hinode)
  exact ⟨entry, hcurrent, hinode, rfl⟩

end Sound

/-! ### The steps of a writer -/

variable [DecidableEq W]

namespace Disk

/-- A file that has the name is truncated. -/
def create (d : Disk ν β W) (w : W) (name : ν) (contents : List β) (now : Option Int) :
    Disk ν β W :=
  let inode := (d.names name).getD d.next
  { d with
    names := Function.update d.names name (some inode)
    inodes := Function.update d.inodes inode (some ⟨[], now⟩)
    next := if (d.names name).isSome then d.next else d.next + 1
    drafts := Function.update d.drafts w (some ⟨name, inode, contents, 0⟩)
    used := name :: d.used }

theorem create_of_unbound {d : Disk ν β W} {name : ν} (h : d.names name = none) (w : W)
    (contents : List β) (now : Option Int) :
    d.create w name contents now =
      { d with
        names := Function.update d.names name (some d.next)
        inodes := Function.update d.inodes d.next (some ⟨[], now⟩)
        next := d.next + 1
        drafts := Function.update d.drafts w (some ⟨name, d.next, contents, 0⟩)
        used := name :: d.used } := by
  simp [create, h]

def write (d : Disk ν β W) (w : W) (draft : Draft ν β) (upTo : Nat) (now : Option Int) :
    Disk ν β W :=
  { d with
    inodes := Function.update d.inodes draft.inode (some ⟨draft.contents.take upTo, now⟩)
    drafts := Function.update d.drafts w (some { draft with written := upTo }) }

/-- The target loses the file it had. -/
def rename (d : Disk ν β W) (w : W) (draft : Draft ν β) (target : ν) : Disk ν β W :=
  { d with
    names := Function.update (Function.update d.names draft.name none) target (d.names draft.name)
    drafts := Function.update d.drafts w none
    log := d.log ++ [⟨w, target, draft.inode, draft.contents⟩] }

/-- The file stays where it is. -/
def abandon (d : Disk ν β W) (w : W) : Disk ν β W :=
  { d with drafts := Function.update d.drafts w none }

def discard (d : Disk ν β W) (w : W) (draft : Draft ν β) : Disk ν β W :=
  { d with
    names := Function.update d.names draft.name none
    drafts := Function.update d.drafts w none }

end Disk

/-- One step of a writer. -/
inductive Step (isTarget : ν → Prop) (w : W) (d : Disk ν β W) : Disk ν β W → Prop where
  | create {name : ν} {contents : List β} {now : Option Int} :
      ¬ isTarget name → name ∉ d.used → Step isTarget w d (d.create w name contents now)
  | write {draft : Draft ν β} {upTo : Nat} {now : Option Int} :
      d.drafts w = some draft → Step isTarget w d (d.write w draft upTo now)
  | rename {draft : Draft ν β} {target : ν} :
      d.drafts w = some draft → draft.contents.length ≤ draft.written → isTarget target →
        Step isTarget w d (d.rename w draft target)
  | abandon : Step isTarget w d (d.abandon w)
  | discard {draft : Draft ν β} :
      d.drafts w = some draft → Step isTarget w d (d.discard w draft)

namespace Sound

variable {isTarget : ν → Prop} {d : Disk ν β W}

theorem create (h : Sound isTarget d) (w : W) {name : ν} (hname : ¬ isTarget name)
    (hnew : name ∉ d.used) (contents : List β) (now : Option Int) :
    Sound isTarget (d.create w name contents now) := by
  have hunbound : d.names name = none :=
    Option.eq_none_iff_forall_ne_some.mpr fun i hi => (h.bound hi).elim hname hnew
  have hold {n i} (hn : d.names n = some i) : n ≠ name ∧ i ≠ d.next :=
    ⟨fun heq => Option.some_ne_none i (hn.symm.trans (heq ▸ hunbound)),
      Nat.ne_of_lt (h.lt_next hn)⟩
  have hdraft {v draft} (hv : d.drafts v = some draft) : draft.name ≠ name :=
    (hold (h.draft hv).1).1
  rw [Disk.create_of_unbound hunbound]
  constructor
  case lt_next =>
    intro n i hn
    simp only [Function.update_apply] at hn
    split at hn
    · cases hn
      exact Nat.lt_succ_self _
    · exact Nat.lt_succ_of_lt (h.lt_next hn)
  case injective =>
    intro n m i hn hm
    simp only [Function.update_apply] at hn hm
    split at hn <;> split at hm
    · exact Eq.trans ‹_› (Eq.symm ‹_›)
    · cases hn
      exact absurd rfl (hold hm).2
    · cases hm
      exact absurd rfl (hold hn).2
    · exact h.injective hn hm
  case bound =>
    intro n i hn
    simp only [Function.update_apply] at hn
    split at hn
    · rename_i heq
      exact .inr (heq ▸ List.mem_cons_self)
    · exact (h.bound hn).imp_right (List.mem_cons_of_mem _)
  case draft =>
    intro v draft hv
    simp only [Function.update_apply] at hv
    split at hv
    · cases hv
      exact ⟨Function.update_self .., hname, now, Function.update_self ..⟩
    · obtain ⟨hbound, hnot, modified, hinode⟩ := h.draft hv
      obtain ⟨hne, hneInode⟩ := hold hbound
      exact ⟨(Function.update_of_ne hne ..).trans hbound, hnot, modified,
        (Function.update_of_ne hneInode ..).trans hinode⟩
  case sole =>
    intro u v a b ha hb heq
    simp only [Function.update_apply] at ha hb
    split at ha <;> split at hb
    · exact Eq.trans ‹_› (Eq.symm ‹_›)
    · cases ha
      exact absurd heq.symm (hdraft hb)
    · cases hb
      exact absurd heq (hdraft ha)
    · exact h.sole ha hb heq
  case logged =>
    intro entry hentry
    obtain ⟨hlt, htarget, ⟨modified, hinode⟩, hnames⟩ := h.logged entry hentry
    refine ⟨Nat.lt_succ_of_lt hlt, htarget,
      ⟨modified, (Function.update_of_ne (Nat.ne_of_lt hlt) ..).trans hinode⟩, fun hn => ?_⟩
    simp only [Function.update_apply] at hn
    split at hn
    · exact absurd (Option.some.inj hn).symm (Nat.ne_of_lt hlt)
    · exact hnames hn
  case nodup => exact h.nodup
  case current =>
    intro t ht
    have hne : t ≠ name := fun heq => hname (heq ▸ ht)
    exact (Function.update_of_ne hne ..).trans (h.current ht)

theorem write (h : Sound isTarget d) {w : W} {draft : Draft ν β} (hw : d.drafts w = some draft)
    (upTo : Nat) (now : Option Int) : Sound isTarget (d.write w draft upTo now) := by
  obtain ⟨hbound, hnot, -⟩ := h.draft hw
  have hname {v a} (hv : (d.write w draft upTo now).drafts v = some a) :
      ∃ b, d.drafts v = some b ∧ b.name = a.name := by
    simp only [Disk.write, Function.update_apply] at hv
    split at hv
    · rename_i heq
      cases hv
      exact ⟨draft, heq ▸ hw, rfl⟩
    · exact ⟨a, hv, rfl⟩
  constructor
  case lt_next => exact h.lt_next
  case injective => exact h.injective
  case bound => exact h.bound
  case draft =>
    intro v a hv
    simp only [Disk.write, Function.update_apply] at hv
    split at hv
    · cases hv
      exact ⟨hbound, hnot, now, Function.update_self ..⟩
    · rename_i hne
      obtain ⟨hboundA, hnotA, modified, hinode⟩ := h.draft hv
      exact ⟨hboundA, hnotA, modified,
        (Function.update_of_ne (h.inode_ne hv hw hne) ..).trans hinode⟩
  case sole =>
    intro u v a b ha hb heq
    obtain ⟨a', ha', hnameA⟩ := hname ha
    obtain ⟨b', hb', hnameB⟩ := hname hb
    exact h.sole ha' hb' (hnameA.trans (heq.trans hnameB.symm))
  case logged =>
    intro entry hentry
    obtain ⟨hlt, htarget, ⟨modified, hinode⟩, hnames⟩ := h.logged entry hentry
    have hne : entry.inode ≠ draft.inode := h.not_logged hbound hnot entry hentry
    exact ⟨hlt, htarget, ⟨modified, (Function.update_of_ne hne ..).trans hinode⟩, hnames⟩
  case nodup => exact h.nodup
  case current => exact h.current

/-- A name behind a rename. -/
theorem names_rename (h : Sound isTarget d) {w : W} {draft : Draft ν β} {target n : ν} {i : Nat}
    (hw : d.drafts w = some draft) (hn : (d.rename w draft target).names n = some i) :
    n = target ∧ i = draft.inode ∨
      n ≠ target ∧ n ≠ draft.name ∧ d.names n = some i ∧ i ≠ draft.inode := by
  have hbound := (h.draft hw).1
  simp only [Disk.rename, Function.update_apply, hbound] at hn
  split at hn
  · rename_i heq
    exact .inl ⟨heq, (Option.some.inj hn).symm⟩
  · rename_i htarget
    split at hn
    · cases hn
    · rename_i hname
      refine .inr ⟨htarget, hname, hn, fun heq => ?_⟩
      exact hname (h.injective hn (heq ▸ hbound))

theorem rename (h : Sound isTarget d) {w : W} {draft : Draft ν β} {target : ν}
    (hw : d.drafts w = some draft) (hall : draft.contents.length ≤ draft.written)
    (htarget : isTarget target) : Sound isTarget (d.rename w draft target) := by
  obtain ⟨hbound, hnot, modified, hinode⟩ := h.draft hw
  have hfresh := h.not_logged hbound hnot
  have hneTarget {n} (hn : ¬ isTarget n) : n ≠ target := fun heq => hn (heq ▸ htarget)
  have hother {v a} (hv : (d.rename w draft target).drafts v = some a) :
      v ≠ w ∧ d.drafts v = some a := by
    simp only [Disk.rename, Function.update_apply] at hv
    split at hv
    · cases hv
    · exact ⟨‹_›, hv⟩
  constructor
  case lt_next =>
    intro n i hn
    rcases h.names_rename hw hn with ⟨-, rfl⟩ | ⟨-, -, hold, -⟩
    · exact h.lt_next hbound
    · exact h.lt_next hold
  case injective =>
    intro n m i hn hm
    rcases h.names_rename hw hn with ⟨rfl, rfl⟩ | ⟨-, -, holdN, hi⟩
    · rcases h.names_rename hw hm with ⟨rfl, -⟩ | ⟨-, -, -, hi⟩
      · rfl
      · exact absurd rfl hi
    · rcases h.names_rename hw hm with ⟨-, rfl⟩ | ⟨-, -, holdM, -⟩
      · exact absurd rfl hi
      · exact h.injective holdN holdM
  case bound =>
    intro n i hn
    rcases h.names_rename hw hn with ⟨rfl, -⟩ | ⟨-, -, hold, -⟩
    · exact .inl htarget
    · exact h.bound hold
  case draft =>
    intro v a hv
    obtain ⟨hne, hv⟩ := hother hv
    obtain ⟨hboundA, hnotA, hinodeA⟩ := h.draft hv
    have hname : a.name ≠ draft.name := fun heq => hne (h.sole hv hw heq)
    refine ⟨?_, hnotA, hinodeA⟩
    exact (Function.update_of_ne (hneTarget hnotA) ..).trans
      ((Function.update_of_ne hname ..).trans hboundA)
  case sole =>
    intro u v a b ha hb heq
    exact h.sole (hother ha).2 (hother hb).2 heq
  case logged =>
    intro entry hentry
    rcases List.mem_append.mp hentry with hold | hnew
    · obtain ⟨hlt, htargetE, hcontents, hnames⟩ := h.logged entry hold
      refine ⟨hlt, htargetE, hcontents, fun hn => ?_⟩
      rcases h.names_rename hw hn with ⟨-, heq⟩ | ⟨-, -, hbefore, -⟩
      · exact absurd heq (hfresh entry hold)
      · exact hnames hbefore
    · rw [List.mem_singleton.mp hnew]
      refine ⟨h.lt_next hbound, htarget, ⟨modified, ?_⟩, fun hn => ?_⟩
      · exact hinode.trans (by rw [List.take_of_length_le hall])
      · rcases h.names_rename hw hn with ⟨heq, -⟩ | ⟨-, -, -, hi⟩
        · exact heq
        · exact absurd rfl hi
  case nodup =>
    rw [Disk.rename, List.map_append, List.map_singleton]
    refine h.nodup.append (List.nodup_singleton _) ?_
    rw [List.disjoint_singleton]
    intro hmem
    obtain ⟨entry, hentry, heq⟩ := List.mem_map.mp hmem
    exact hfresh entry hentry heq
  case current =>
    intro t ht
    have hname : t ≠ draft.name := fun heq => hnot (heq ▸ ht)
    simp only [Disk.current, Disk.rename, lastOver_concat]
    by_cases heq : t = target
    · rw [heq, Function.update_self, if_pos rfl, hbound]
      rfl
    · rw [if_neg fun h => heq h.symm, Function.update_of_ne heq, Function.update_of_ne hname]
      exact h.current ht

theorem abandon (h : Sound isTarget d) (w : W) : Sound isTarget (d.abandon w) := by
  have hother {v a} (hv : (d.abandon w).drafts v = some a) : d.drafts v = some a := by
    simp only [Disk.abandon, Function.update_apply] at hv
    split at hv
    · cases hv
    · exact hv
  exact ⟨h.lt_next, h.injective, h.bound, fun hv => h.draft (hother hv),
    fun ha hb => h.sole (hother ha) (hother hb), h.logged, h.nodup, h.current⟩

theorem discard (h : Sound isTarget d) {w : W} {draft : Draft ν β} (hw : d.drafts w = some draft) :
    Sound isTarget (d.discard w draft) := by
  obtain ⟨hbound, hnot, -⟩ := h.draft hw
  have hother {v a} (hv : (d.discard w draft).drafts v = some a) : v ≠ w ∧ d.drafts v = some a := by
    simp only [Disk.discard, Function.update_apply] at hv
    split at hv
    · cases hv
    · exact ⟨‹_›, hv⟩
  have hnames {n i} (hn : (d.discard w draft).names n = some i) : d.names n = some i := by
    simp only [Disk.discard, Function.update_apply] at hn
    split at hn
    · cases hn
    · exact hn
  constructor
  case lt_next => exact fun hn => h.lt_next (hnames hn)
  case injective => exact fun hn hm => h.injective (hnames hn) (hnames hm)
  case bound => exact fun hn => h.bound (hnames hn)
  case draft =>
    intro v a hv
    obtain ⟨hne, hv⟩ := hother hv
    obtain ⟨hboundA, hnotA, hinodeA⟩ := h.draft hv
    have hname : a.name ≠ draft.name := fun heq => hne (h.sole hv hw heq)
    exact ⟨(Function.update_of_ne hname ..).trans hboundA, hnotA, hinodeA⟩
  case sole => exact fun ha hb => h.sole (hother ha).2 (hother hb).2
  case logged =>
    intro entry hentry
    obtain ⟨hlt, htarget, hcontents, hnamesE⟩ := h.logged entry hentry
    exact ⟨hlt, htarget, hcontents, fun hn => hnamesE (hnames hn)⟩
  case nodup => exact h.nodup
  case current =>
    intro t ht
    have hname : t ≠ draft.name := fun heq => hnot (heq ▸ ht)
    exact (Function.update_of_ne hname ..).trans (h.current ht)

theorem step {d' : Disk ν β W} {w : W} (h : Sound isTarget d) (hstep : Step isTarget w d d') :
    Sound isTarget d' := by
  cases hstep with
  | create hname hnew => exact h.create w hname hnew _ _
  | write hw => exact h.write hw _ _
  | rename hw hall htarget => exact h.rename hw hall htarget
  | abandon => exact h.abandon w
  | discard hw => exact h.discard hw

end Sound

/-! ### The log -/

namespace Step

variable {isTarget : ν → Prop} {d d' : Disk ν β W} {w : W}

/-- A file that is in the log is written no more. -/
theorem inodes_eq (h : Sound isTarget d) (hstep : Step isTarget w d d') {entry : Entry ν β W}
    (hentry : entry ∈ d.log) : d'.inodes entry.inode = d.inodes entry.inode := by
  obtain ⟨hlt, -⟩ := h.logged entry hentry
  cases hstep with
  | @create name contents now hname hnew =>
      have hunbound : d.names name = none :=
        Option.eq_none_iff_forall_ne_some.mpr fun i hi => (h.bound hi).elim hname hnew
      rw [Disk.create_of_unbound hunbound]
      exact Function.update_of_ne (Nat.ne_of_lt hlt) ..
  | @write draft upTo now hw =>
      obtain ⟨hbound, hnot, -⟩ := h.draft hw
      exact Function.update_of_ne (h.not_logged hbound hnot entry hentry) ..
  | rename => rfl
  | abandon => rfl
  | discard => rfl

/-- A step adds at most one entry to the log, of its writer. -/
theorem log_eq (hstep : Step isTarget w d d') :
    d'.log = d.log ∨ ∃ entry : Entry ν β W, entry.writer = w ∧ d'.log = d.log ++ [entry] := by
  cases hstep with
  | rename => exact .inr ⟨_, rfl, rfl⟩
  | create => exact .inl rfl
  | write => exact .inl rfl
  | abandon => exact .inl rfl
  | discard => exact .inl rfl

end Step

end AutomatisedPipeline.Publish

import AutomatisedPipeline.Text.Lines
import AutomatisedPipeline.Logic.Run

/-!
The ids a walk of one file gives to its definitions (`WalkCtx::dedup`, `emit_def`). A qualified name
that has been given out is told apart by the line the definition starts on. The line is not checked
against the ids given out before, so a walk can give one id twice.
-/

namespace AutomatisedPipeline.Parser

open Text

/-! ### The walk -/

/-- What a walk remembers for the ids it gives. -/
structure WalkCtx where
  nextSeq : Nat
  emittedQns : List Str
  deriving DecidableEq, Repr

/-- A fresh walk. -/
def WalkCtx.new : WalkCtx := ⟨0, []⟩

/-- `next_seq`. -/
def WalkCtx.advance (ctx : WalkCtx) : Nat × WalkCtx :=
  (ctx.nextSeq + 1, { ctx with nextSeq := ctx.nextSeq + 1 })

/-- The qualified name with the line its definition starts on. -/
def atLine (qn : Str) (startLine : Nat) : Str := qn ++ '@' :: digits startLine

/-- `WalkCtx::dedup`. -/
def WalkCtx.dedup (ctx : WalkCtx) (qn : Str) (startLine : Nat) : Str × WalkCtx :=
  if qn ∈ ctx.emittedQns then
    (atLine qn startLine,
      { ctx with emittedQns := List.insert (atLine qn startLine) ctx.emittedQns })
  else (qn, { ctx with emittedQns := List.insert qn ctx.emittedQns })

/-- `qual`. -/
def qual (scope name : Str) : Str := scope ++ "::".toList ++ name

/-- The qualified name of the languages that number their definitions (Go, C and C++). -/
def numbered (scope name : Str) (seq : Nat) : Str := qual scope name ++ '#' :: digits seq

/-- What a walk meets: a definition, or something else that takes a number of the walk. -/
inductive Item where
  | definition (scope name : Str) (startLine : Nat)
  | other
  deriving DecidableEq, Repr

/-- `emit_def`, as far as the id is concerned. A definition without a name is not emitted. -/
def emitDef (defQn : Str → Str → Nat → Str) (ctx : WalkCtx) (scope name : Str) (startLine : Nat) :
    Option Str × WalkCtx :=
  if name = [] then (none, ctx)
  else
    let (seq, ctx) := ctx.advance
    let (qn, ctx) := ctx.dedup (defQn scope name seq) startLine
    (some qn, ctx)

/-- The ids a walk gives to the definitions it meets, in order. -/
def emitAll (defQn : Str → Str → Nat → Str) : WalkCtx → List Item → List Str
  | _, [] => []
  | ctx, .definition scope name startLine :: items =>
      match emitDef defQn ctx scope name startLine with
      | (some qn, ctx) => qn :: emitAll defQn ctx items
      | (none, ctx) => emitAll defQn ctx items
  | ctx, .other :: items => emitAll defQn ctx.advance.2 items

/-! ### The calls of `dedup` -/

/-- The qualified name and the start line `dedup` is asked with. -/
abbrev Asked := Str × Nat

/-- What `dedup` is asked in a walk, in order. -/
def askedFrom (defQn : Str → Str → Nat → Str) : Nat → List Item → List Asked
  | _, [] => []
  | seq, .definition scope name startLine :: items =>
      if name = [] then askedFrom defQn seq items
      else (defQn scope name (seq + 1), startLine) :: askedFrom defQn (seq + 1) items
  | seq, .other :: items => askedFrom defQn (seq + 1) items

/-- What successive calls of `dedup` return. -/
def dedupAll : WalkCtx → List Asked → List Str
  | _, [] => []
  | ctx, asked :: rest =>
      (ctx.dedup asked.1 asked.2).1 :: dedupAll (ctx.dedup asked.1 asked.2).2 rest

theorem WalkCtx.dedup_of_mem {ctx : WalkCtx} {qn : Str} (h : qn ∈ ctx.emittedQns)
    (startLine : Nat) : (ctx.dedup qn startLine).1 = atLine qn startLine := by
  rw [dedup, if_pos h]

theorem WalkCtx.dedup_of_notMem {ctx : WalkCtx} {qn : Str} (h : qn ∉ ctx.emittedQns)
    (startLine : Nat) : (ctx.dedup qn startLine).1 = qn := by
  rw [dedup, if_neg h]

/-- What has been given out afterwards. -/
theorem WalkCtx.mem_dedup_iff {ctx : WalkCtx} {qn id : Str} {startLine : Nat} :
    id ∈ (ctx.dedup qn startLine).2.emittedQns ↔
      id ∈ ctx.emittedQns ∨ id = qn ∨ qn ∈ ctx.emittedQns ∧ id = atLine qn startLine := by
  rw [dedup]
  split
  · rename_i h
    simp only [List.mem_insert_iff, h, true_and]
    constructor
    · rintro (heq | hmem)
      · exact .inr (.inr heq)
      · exact .inl hmem
    · rintro (hmem | rfl | heq)
      · exact .inr hmem
      · exact .inr h
      · exact .inl heq
  · rename_i h
    simp only [List.mem_insert_iff, h, false_and, or_false]
    exact or_comm

theorem WalkCtx.nextSeq_dedup (ctx : WalkCtx) (qn : Str) (startLine : Nat) :
    (ctx.dedup qn startLine).2.nextSeq = ctx.nextSeq := by
  rw [dedup]
  split <;> rfl

/-- The number of the walk plays no part in `dedup`. -/
theorem dedupAll_congr {ctx ctx' : WalkCtx} (h : ctx.emittedQns = ctx'.emittedQns)
    (calls : List Asked) : dedupAll ctx calls = dedupAll ctx' calls := by
  induction calls generalizing ctx ctx' with
  | nil => rfl
  | cons call rest ih =>
      have hfst : (ctx.dedup call.1 call.2).1 = (ctx'.dedup call.1 call.2).1 := by
        simp only [WalkCtx.dedup, h]
        split <;> rfl
      have hsnd : (ctx.dedup call.1 call.2).2.emittedQns =
          (ctx'.dedup call.1 call.2).2.emittedQns := by
        simp only [WalkCtx.dedup, h]
        split <;> rfl
      rw [dedupAll, dedupAll, hfst, ih hsnd]

/-- The ids of a walk are what `dedup` returns for the qualified names of its definitions. -/
theorem emitAll_eq (defQn : Str → Str → Nat → Str) (ctx : WalkCtx) (items : List Item) :
    emitAll defQn ctx items = dedupAll ctx (askedFrom defQn ctx.nextSeq items) := by
  induction items generalizing ctx with
  | nil => rfl
  | cons item items ih =>
      cases item with
      | definition scope name startLine =>
          by_cases hname : name = []
          · simp only [emitAll, emitDef, askedFrom, if_pos hname]
            exact ih ctx
          · have hadvance : ctx.advance.2.emittedQns = ctx.emittedQns := rfl
            rw [askedFrom, if_neg hname, ← dedupAll_congr hadvance]
            simp only [emitAll, emitDef, if_neg hname, dedupAll]
            rw [ih, WalkCtx.nextSeq_dedup]
            rfl
      | other =>
          have hadvance : ctx.advance.2.emittedQns = ctx.emittedQns := rfl
          rw [emitAll, askedFrom, ih]
          exact dedupAll_congr hadvance _

/-! ### Repeated names -/

/-- The calls with a name that is not asked with for the first time. -/
def repeatsFrom : List Str → List Asked → List Asked
  | _, [] => []
  | seen, asked :: rest =>
      if asked.1 ∈ seen then asked :: repeatsFrom seen rest
      else repeatsFrom (asked.1 :: seen) rest

/-- The names that are asked with for the first time. -/
def firstsFrom : List Str → List Asked → List Str
  | _, [] => []
  | seen, asked :: rest =>
      if asked.1 ∈ seen then firstsFrom seen rest
      else asked.1 :: firstsFrom (asked.1 :: seen) rest

/-- Ids as they are meant: the plain name the first time, the name with the line afterwards. -/
def meantFrom : List Str → List Asked → List Str
  | _, [] => []
  | seen, asked :: rest =>
      if asked.1 ∈ seen then atLine asked.1 asked.2 :: meantFrom seen rest
      else asked.1 :: meantFrom (asked.1 :: seen) rest

/-- Definitions that are told apart: no name is repeated twice on one line, and no definition bears
the name that a repeated one is given. -/
structure ToldApart (calls : List Asked) : Prop where
  lines : (repeatsFrom [] calls).Nodup
  names : ∀ call ∈ calls, ∀ again ∈ repeatsFrom [] calls, call.1 ≠ atLine again.1 again.2

/-- Each name that is asked with for the first time, after those seen, is given out as it is. -/
def FirstsPlain (seen : List Str) (calls : List Asked) (ids : List Str) : Prop :=
  ∀ i call, calls[i]? = some call → call.1 ∉ seen ++ (calls.take i).map Prod.fst →
    ids[i]? = some call.1

theorem firstsPlain_cons {seen : List Str} {call : Asked} {rest : List Asked} {id : Str}
    {ids : List Str} : FirstsPlain seen (call :: rest) (id :: ids) ↔
      (call.1 ∉ seen → id = call.1) ∧ FirstsPlain (call.1 :: seen) rest ids := by
  constructor
  · intro h
    refine ⟨fun hnew => Option.some.inj (h 0 call rfl (by simpa using hnew)), ?_⟩
    intro i later hi hnew
    refine h (i + 1) later hi ?_
    simpa [or_assoc, or_left_comm] using hnew
  · rintro ⟨hhead, htail⟩ i later hi hnew
    cases i with
    | zero =>
        obtain rfl : call = later := Option.some.inj hi
        exact congrArg some (hhead (by simpa using hnew))
    | succ i =>
        refine htail i later hi ?_
        simpa [or_assoc, or_left_comm] using hnew

theorem firstsPlain_congr {seen seen' : List Str} (h : ∀ qn, qn ∈ seen ↔ qn ∈ seen')
    {calls : List Asked} {ids : List Str} :
    FirstsPlain seen calls ids ↔ FirstsPlain seen' calls ids := by
  simp only [FirstsPlain, List.mem_append, h]

theorem atLine_injective {qn qn' : Str} {startLine startLine' : Nat}
    (h : atLine qn startLine = atLine qn' startLine') : qn = qn' ∧ startLine = startLine' := by
  have hat (n : Nat) : '@' ∉ digits n := fun h => absurd (isDigit_of_mem_digits h) (by decide)
  exact (append_cons_inj (hat startLine) (hat startLine') h).imp_right (digits_injective ·)

/-- The first names are given out as they are exactly if all ids are the ones that are meant. -/
theorem firstsPlain_iff {seen : List Str} {ctx : WalkCtx} (hseen : seen ⊆ ctx.emittedQns)
    (calls : List Asked) : FirstsPlain seen calls (dedupAll ctx calls) ↔
      dedupAll ctx calls = meantFrom seen calls := by
  induction calls generalizing seen ctx with
  | nil => simp [FirstsPlain, dedupAll, meantFrom]
  | cons call rest ih =>
      rw [dedupAll, firstsPlain_cons, meantFrom]
      have hkept : ∀ qn ∈ seen, qn ∈ (ctx.dedup call.1 call.2).2.emittedQns :=
        fun qn hqn => WalkCtx.mem_dedup_iff.mpr (.inl (hseen hqn))
      have hgiven : call.1 ∈ (ctx.dedup call.1 call.2).2.emittedQns :=
        WalkCtx.mem_dedup_iff.mpr (.inr (.inl rfl))
      by_cases hmem : call.1 ∈ seen
      · have hsame : ∀ qn, qn ∈ call.1 :: seen ↔ qn ∈ seen := by
          simpa using hmem
        rw [if_pos hmem, firstsPlain_congr hsame, ih hkept, WalkCtx.dedup_of_mem (hseen hmem),
          List.cons_inj_right]
        exact and_iff_right fun hnew => absurd hmem hnew
      · rw [if_neg hmem, ih (List.cons_subset.mpr ⟨hgiven, hkept⟩), List.cons.injEq]
        exact and_congr_left' ⟨fun h => h hmem, fun h _ => h⟩

theorem meantFrom_perm (seen : List Str) (calls : List Asked) :
    (meantFrom seen calls).Perm (firstsFrom seen calls ++
      (repeatsFrom seen calls).map fun again => atLine again.1 again.2) := by
  induction calls generalizing seen with
  | nil => exact .refl _
  | cons call rest ih =>
      rw [meantFrom, firstsFrom, repeatsFrom]
      split
      · exact ((ih seen).cons _).trans List.perm_middle.symm
      · exact (ih _).cons _

theorem mem_firstsFrom_iff {seen : List Str} {calls : List Asked} {qn : Str} :
    qn ∈ firstsFrom seen calls ↔ qn ∉ seen ∧ qn ∈ calls.map Prod.fst := by
  induction calls generalizing seen with
  | nil => simp [firstsFrom]
  | cons call rest ih =>
      rw [firstsFrom, List.map_cons, List.mem_cons]
      split
      · rename_i hmem
        rw [ih]
        refine and_congr_right fun hnew => ⟨.inr, ?_⟩
        rintro (rfl | h)
        · exact absurd hmem hnew
        · exact h
      · rename_i hmem
        rw [List.mem_cons, ih, List.mem_cons, not_or]
        constructor
        · rintro (rfl | ⟨⟨-, hnew⟩, h⟩)
          · exact ⟨hmem, .inl rfl⟩
          · exact ⟨hnew, .inr h⟩
        · rintro ⟨hnew, heq⟩
          by_cases hq : qn = call.1
          · exact .inl hq
          · exact .inr ⟨⟨hq, hnew⟩, heq.resolve_left hq⟩

theorem nodup_firstsFrom (seen : List Str) (calls : List Asked) :
    (firstsFrom seen calls).Nodup := by
  induction calls generalizing seen with
  | nil => exact List.nodup_nil
  | cons call rest ih =>
      rw [firstsFrom]
      split
      · exact ih seen
      · refine List.nodup_cons.mpr ⟨fun h => ?_, ih _⟩
        exact (mem_firstsFrom_iff.mp h).1 List.mem_cons_self

/-- The meant ids are distinct exactly if the definitions are told apart. -/
theorem nodup_meantFrom_iff {calls : List Asked} :
    (meantFrom [] calls).Nodup ↔ ToldApart calls := by
  have hinj : Function.Injective fun again : Asked => atLine again.1 again.2 :=
    fun _ _ h => Prod.ext_iff.mpr (atLine_injective h)
  have hnames : (∀ qn ∈ firstsFrom [] calls, ∀ again ∈ repeatsFrom [] calls,
      qn ≠ atLine again.1 again.2) ↔
        ∀ call ∈ calls, ∀ again ∈ repeatsFrom [] calls, call.1 ≠ atLine again.1 again.2 := by
    simp [mem_firstsFrom_iff]
  rw [(meantFrom_perm [] calls).nodup_iff, List.nodup_append, List.nodup_map_iff hinj]
  constructor
  · rintro ⟨-, hlines, hapart⟩
    refine ⟨hlines, hnames.mp fun qn hqn again hagain => ?_⟩
    exact hapart qn hqn _ (List.mem_map_of_mem hagain)
  · rintro ⟨hlines, hapart⟩
    refine ⟨nodup_firstsFrom [] calls, hlines, fun qn hqn id hid => ?_⟩
    obtain ⟨again, hagain, rfl⟩ := List.mem_map.mp hid
    exact hnames.mpr hapart qn hqn again hagain

/-- Where no name asked with is one that has been given to a repeated definition, the ids are the
ones that are meant. -/
theorem dedupAll_eq_meantFrom {seen : List Str} {ctx : WalkCtx} {calls : List Asked}
    (hseen : seen ⊆ ctx.emittedQns)
    (hgiven : ∀ id ∈ ctx.emittedQns, id ∈ seen ∨ id ∉ calls.map Prod.fst)
    (hapart : ∀ call ∈ calls, ∀ again ∈ repeatsFrom seen calls,
      call.1 ≠ atLine again.1 again.2) : dedupAll ctx calls = meantFrom seen calls := by
  induction calls generalizing seen ctx with
  | nil => rfl
  | cons call rest ih =>
      rw [dedupAll, meantFrom]
      have hkept : ∀ qn ∈ seen, qn ∈ (ctx.dedup call.1 call.2).2.emittedQns :=
        fun qn hqn => WalkCtx.mem_dedup_iff.mpr (.inl (hseen hqn))
      by_cases hmem : call.1 ∈ seen
      · rw [repeatsFrom, if_pos hmem] at hapart
        rw [if_pos hmem, WalkCtx.dedup_of_mem (hseen hmem)]
        refine congrArg _ (ih hkept ?_ ?_)
        · intro id hid
          obtain hid | rfl | ⟨-, rfl⟩ := WalkCtx.mem_dedup_iff.mp hid
          · exact (hgiven id hid).imp_right fun h hlater => h (List.mem_cons_of_mem _ hlater)
          · exact .inl hmem
          · refine .inr fun hlater => ?_
            obtain ⟨later, hlater, heq⟩ := List.mem_map.mp hlater
            exact hapart later (List.mem_cons_of_mem _ hlater) call List.mem_cons_self heq
        · intro later hlater again hagain
          exact hapart later (List.mem_cons_of_mem _ hlater) again (List.mem_cons_of_mem _ hagain)
      · have hnew : call.1 ∉ ctx.emittedQns := by
          intro hold
          exact ((hgiven _ hold).resolve_left hmem) List.mem_cons_self
        rw [repeatsFrom, if_neg hmem] at hapart
        rw [if_neg hmem, WalkCtx.dedup_of_notMem hnew]
        refine congrArg _ (ih (List.cons_subset.mpr ⟨?_, hkept⟩) ?_ ?_)
        · exact WalkCtx.mem_dedup_iff.mpr (.inr (.inl rfl))
        · intro id hid
          obtain hid | rfl | ⟨hold, -⟩ := WalkCtx.mem_dedup_iff.mp hid
          · refine (hgiven id hid).imp (List.mem_cons_of_mem _) fun h hlater => ?_
            exact h (List.mem_cons_of_mem _ hlater)
          · exact .inl List.mem_cons_self
          · exact absurd hold hnew
        · intro later hlater
          exact hapart later (List.mem_cons_of_mem _ hlater)

/-! ### Ids that are told apart -/

/-- The ids of one walk are pairwise distinct, and the first definition of each name keeps the plain
name, exactly if no name is repeated twice on one line and no definition bears the name a repeated
one is given. -/
theorem ids_distinct_iff (defQn : Str → Str → Nat → Str) (items : List Item) :
    ((emitAll defQn .new items).Nodup ∧
      FirstsPlain [] (askedFrom defQn 0 items) (emitAll defQn .new items)) ↔
        ToldApart (askedFrom defQn 0 items) := by
  have hids : emitAll defQn .new items = dedupAll .new (askedFrom defQn 0 items) :=
    emitAll_eq defQn .new items
  rw [hids, firstsPlain_iff (List.nil_subset _), ← nodup_meantFrom_iff]
  constructor
  · rintro ⟨hnodup, hmeant⟩
    exact hmeant ▸ hnodup
  · intro hnodup
    have hmeant : dedupAll .new (askedFrom defQn 0 items) =
        meantFrom [] (askedFrom defQn 0 items) :=
      dedupAll_eq_meantFrom (List.nil_subset _) (fun id hid => absurd hid List.not_mem_nil)
        (nodup_meantFrom_iff.mp hnodup).names
    exact ⟨hmeant ▸ hnodup, hmeant⟩

/-- Three functions of one name in sibling blocks of `outer`, all on line 1. -/
def siblings : List Item :=
  List.replicate 3 (.definition "src/lib.rs::outer".toList ['f'] 1)

/-- The second and the third of them get one id. -/
theorem siblings_share_id : ¬ ∀ (defQn : Str → Str → Nat → Str) (items : List Item),
    (emitAll defQn .new items).Nodup ∧
      FirstsPlain [] (askedFrom defQn 0 items) (emitAll defQn .new items) := by
  intro h
  exact absurd (h (fun scope name _ => qual scope name) siblings).1 (by decide)

/-! ### Languages that number their definitions -/

end AutomatisedPipeline.Parser

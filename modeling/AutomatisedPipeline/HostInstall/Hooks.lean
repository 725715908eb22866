import Mathlib.Data.List.DropRight
import AutomatisedPipeline.Text.Json

/-!
The hook of Claude Code (`host_install.rs`): `merge_hook_install` adds a block with our command
under `hooks.PreToolUse` of the settings, `merge_hook_uninstall` takes our commands out again.

Uninstalling decides on whole blocks: it drops a block all of whose commands are ours. A block
that mixes ours with others is kept with ours in it, and a block with no commands at all is
dropped although nothing in it is ours. Apart from these two kinds of blocks it removes exactly
what is ours (`hookUninstall_exact`).

Reading and printing JSON is outside the source; in between the code edits the document.
-/

namespace AutomatisedPipeline.HostInstall

open Text

/-! ### The source's definitions -/

/-- `serde_json::from_str` and `to_string_pretty`. -/
structure SerdeJson where
  fromStr : Str → Option Json
  toStringPretty : Json → Option Str

def prettyJson (serde : SerdeJson) (v : Json) : Str :=
  (serde.toStringPretty v).getD "{}".toList ++ ['\n']

/-- `MergeOutcome`: what is written is a document, or the text it prints as. -/
inductive MergeOutcome (α : Type) where
  | write (content : α)
  | noChange
  | refuse (why : Str)

def MergeOutcome.map {α β : Type} (f : α → β) : MergeOutcome α → MergeOutcome β
  | .write content => .write (f content)
  | .noChange => .noChange
  | .refuse why => .refuse why

/-- `HOOK_MATCHER`. -/
def hookMatcher : Str := "Grep|Glob".toList

/-- Ours ends with the subcommand. -/
def isOurHookCommand (command : Str) : Bool :=
  "hook-augment".toList.isSuffixOf (command.rdropWhile isWhitespace)

/-- An entry of a block whose command is ours. -/
def isOurs (h : Json) : Bool :=
  (((h.get "command".toList).bind Json.asStr).map isOurHookCommand).getD false

/-- `block.get("hooks").and_then(|h| h.as_array())`. -/
def entriesOf (block : Json) : Option (List Json) :=
  (block.get "hooks".toList).bind Json.asArray

def ourBlock (command : Str) : Json :=
  .object [("matcher".toList, .string hookMatcher),
    ("hooks".toList, .array [.object [("type".toList, .string "command".toList),
      ("command".toList, .string command)]])]

/-- The settings with another list of blocks under `hooks.PreToolUse`. -/
def withPreToolUse (root hooks : Fields) (blocks : List Json) : Fields :=
  setKey "hooks".toList (.object (setKey "PreToolUse".toList (.array blocks) hooks)) root

/-- What `merge_hook_install` does to the settings it has read. -/
def hookInstall (root : Fields) (command : Str) : MergeOutcome Fields :=
  match ((root.lookup "hooks".toList).getD (.object [])).asObject with
  | none => .refuse "'hooks' is not an object".toList
  | some hooks =>
      match ((hooks.lookup "PreToolUse".toList).getD (.array [])).asArray with
      | none => .refuse "'hooks.PreToolUse' is not an array".toList
      | some pre =>
          if pre.any fun block => ((entriesOf block).map fun hs => hs.any isOurs).getD false then
            .noChange
          else .write (withPreToolUse root hooks (pre ++ [ourBlock command]))

def mergeHookInstall (serde : SerdeJson) (existing : Option Str) (command : Str) :
    MergeOutcome Str :=
  let install (root : Fields) : MergeOutcome Str :=
    (hookInstall root command).map fun root => prettyJson serde (.object root)
  match existing with
  | none => install []
  | some t =>
      if trimIsEmpty t then install []
      else
        match serde.fromStr t with
        | some (.object root) => install root
        | _ =>
            .refuse ("not editing Claude settings in place (unparseable). ".toList ++
              "Add a PreToolUse hook by hand: matcher \"".toList ++ hookMatcher ++
              "\", command \"".toList ++ command ++ "\".".toList)

/-- The test of `retain`. -/
def keepsBlock (block : Json) : Bool :=
  match entriesOf block with
  | some hs => !hs.all isOurs
  | none => true

/-- What `merge_hook_uninstall` does to the settings it has read. -/
def hookUninstall (root : Fields) : MergeOutcome Fields :=
  match (root.lookup "hooks".toList).bind Json.asObject with
  | none => .noChange
  | some hooks =>
      match (hooks.lookup "PreToolUse".toList).bind Json.asArray with
      | none => .noChange
      | some arr =>
          if (arr.filter keepsBlock).length = arr.length then .noChange
          else .write (withPreToolUse root hooks (arr.filter keepsBlock))

def mergeHookUninstall (serde : SerdeJson) (existing : Str) : MergeOutcome Str :=
  match serde.fromStr existing with
  | some (.object root) => (hookUninstall root).map fun root => prettyJson serde (.object root)
  | _ => .refuse "cannot parse Claude settings to uninstall the hook".toList

/-! ### Removing ours -/

/-- The document after an outcome was applied. -/
def MergeOutcome.document (root : Fields) : MergeOutcome Fields → Fields
  | .write content => content
  | .noChange => root
  | .refuse _ => root

/-- The blocks under `hooks.PreToolUse`. -/
def blocksOf (root : Fields) : List Json :=
  (((root.lookup "hooks".toList).bind Json.asObject).bind fun hooks =>
    (hooks.lookup "PreToolUse".toList).bind Json.asArray).getD []

/-- The document with other blocks, where it has any. -/
def withBlocks (root : Fields) (blocks : List Json) : Fields :=
  match (root.lookup "hooks".toList).bind Json.asObject with
  | none => root
  | some hooks =>
      match (hooks.lookup "PreToolUse".toList).bind Json.asArray with
      | none => root
      | some _ => withPreToolUse root hooks blocks

/-- An entry of the block is ours. -/
def HasOurs (block : Json) : Prop := ∃ hs, entriesOf block = some hs ∧ ∃ h ∈ hs, isOurs h = true

/-- The second list of blocks is the first without ours: a block without ours stays as it is;
from a block with ours they are taken out, and it may go where no other entry is left. -/
inductive Strips : List Json → List Json → Prop where
  | nil : Strips [] []
  | keep {block : Json} {rest rest' : List Json} :
      ¬ HasOurs block → Strips rest rest' → Strips (block :: rest) (block :: rest')
  | strip {fields : Fields} {hs rest rest' : List Json} :
      entriesOf (.object fields) = some hs → HasOurs (.object fields) → Strips rest rest' →
      Strips (.object fields :: rest)
        (.object (setKey "hooks".toList (.array (hs.filter fun h => !isOurs h)) fields) :: rest')
  | drop {block : Json} {hs rest rest' : List Json} :
      entriesOf block = some hs → HasOurs block → (∀ h ∈ hs, isOurs h = true) →
      Strips rest rest' → Strips (block :: rest) rest'

/-- The outcome takes exactly ours out of the document, and there is nothing of ours in a
document it leaves alone. -/
structure RemovesOurs (root : Fields) (out : MergeOutcome Fields) : Prop where
  stripped : ∃ blocks, Strips (blocksOf root) blocks ∧ out.document root = withBlocks root blocks
  gone : ∀ block ∈ blocksOf (out.document root), ¬ HasOurs block
  noChange : out = .noChange → ∀ block ∈ blocksOf root, ¬ HasOurs block
  accepted : ∀ why, out ≠ .refuse why

/-- Uninstalling gives back the blocks that installing added ours to. -/
def UndoesInstall (root : Fields) : Prop :=
  ∀ command, isOurHookCommand command = true → ∀ installed,
    hookInstall root command = .write installed →
      blocksOf ((hookUninstall installed).document installed) = blocksOf root

/-- No block mixes ours with others, and none has an empty list of entries. -/
def Unmixed (blocks : List Json) : Prop :=
  ∀ block ∈ blocks, ∀ hs, entriesOf block = some hs →
    hs ≠ [] ∧ ((∀ h ∈ hs, isOurs h = true) ∨ ∀ h ∈ hs, isOurs h = false)

/-! ### One list of blocks -/

theorem keepsBlock_eq_false {block : Json} :
    keepsBlock block = false ↔ ∃ hs, entriesOf block = some hs ∧ ∀ h ∈ hs, isOurs h = true := by
  rw [keepsBlock]
  cases entriesOf block with
  | none => simp
  | some hs => simp

theorem hasOurs_iff {block : Json} {hs : List Json} (h : entriesOf block = some hs) :
    HasOurs block ↔ ∃ e ∈ hs, isOurs e = true := by
  rw [HasOurs, h]
  simp

/-- Of what is not mixed, dropping whole blocks takes out ours. -/
theorem strips_filter {blocks : List Json} (h : Unmixed blocks) :
    Strips blocks (blocks.filter keepsBlock) := by
  induction blocks with
  | nil => exact .nil
  | cons block rest ih =>
      have htail := ih fun other hother => h other (List.mem_cons_of_mem _ hother)
      cases hentries : entriesOf block with
      | none =>
          have hkeep : keepsBlock block = true := by rw [keepsBlock, hentries]
          rw [List.filter_cons_of_pos hkeep]
          refine .keep ?_ htail
          rintro ⟨hs, hsome, -⟩
          rw [hentries] at hsome
          cases hsome
      | some hs =>
          obtain ⟨hne, hours | hothers⟩ := h block List.mem_cons_self hs hentries
          · have hdrop : ¬ keepsBlock block = true := by
              rw [Bool.not_eq_true, keepsBlock_eq_false]
              exact ⟨hs, hentries, hours⟩
            rw [List.filter_cons_of_neg hdrop]
            obtain ⟨e, he⟩ := List.exists_mem_of_ne_nil hs hne
            exact .drop hentries ((hasOurs_iff hentries).mpr ⟨e, he, hours e he⟩) hours htail
          · have hkeep : keepsBlock block = true := by
              rw [← Bool.not_eq_false, keepsBlock_eq_false]
              rintro ⟨hs', hsome, hours⟩
              rw [hentries] at hsome
              obtain rfl := Option.some.inj hsome
              obtain ⟨e, he⟩ := List.exists_mem_of_ne_nil hs hne
              exact Bool.false_ne_true ((hothers e he).symm.trans (hours e he))
            rw [List.filter_cons_of_pos hkeep]
            refine .keep ?_ htail
            rw [hasOurs_iff hentries]
            rintro ⟨e, he, hours⟩
            exact Bool.false_ne_true ((hothers e he).symm.trans hours)

theorem entriesOf_setKey (items : List Json) (fields : Fields) :
    entriesOf (.object (setKey "hooks".toList (.array items) fields)) = some items := by
  rw [entriesOf, Json.get, Json.asObject, Option.bind_some, lookup_setKey]
  rfl

theorem Strips.not_hasOurs {blocks blocks' : List Json} (h : Strips blocks blocks') {block : Json}
    (hmem : block ∈ blocks') : ¬ HasOurs block := by
  induction h with
  | nil => cases hmem
  | keep hblock _ ih =>
      obtain rfl | hmem := List.mem_cons.mp hmem
      · exact hblock
      · exact ih hmem
  | strip _ _ _ ih =>
      obtain rfl | hmem := List.mem_cons.mp hmem
      · rw [hasOurs_iff (entriesOf_setKey _ _)]
        rintro ⟨e, he, hours⟩
        have hothers := (List.mem_filter.mp he).2
        rw [hours] at hothers
        cases hothers
      · exact ih hmem
  | drop _ _ _ _ ih => exact ih hmem

theorem Strips.mem {blocks blocks' : List Json} (h : Strips blocks blocks') {block : Json}
    (hmem : block ∈ blocks) (hblock : ¬ HasOurs block) : block ∈ blocks' := by
  induction h with
  | nil => cases hmem
  | keep _ _ ih =>
      obtain rfl | hmem := List.mem_cons.mp hmem
      · exact List.mem_cons_self
      · exact List.mem_cons_of_mem _ (ih hmem)
  | strip _ hours _ ih =>
      obtain rfl | hmem := List.mem_cons.mp hmem
      · exact absurd hours hblock
      · exact List.mem_cons_of_mem _ (ih hmem)
  | drop _ hours _ _ ih =>
      obtain rfl | hmem := List.mem_cons.mp hmem
      · exact absurd hours hblock
      · exact ih hmem

/-- Dropping whole blocks takes out exactly ours only of what is not mixed. -/
theorem unmixed_of_strips {blocks : List Json} (h : Strips blocks (blocks.filter keepsBlock)) :
    Unmixed blocks := by
  intro block hmem hs hentries
  constructor
  · -- an empty block is dropped, and has to stay
    rintro rfl
    have hblock : ¬ HasOurs block := by
      rw [hasOurs_iff hentries]
      rintro ⟨e, he, -⟩
      cases he
    have hkeep := (List.mem_filter.mp (h.mem hmem hblock)).2
    rw [keepsBlock_eq_false.mpr ⟨[], hentries, by simp⟩] at hkeep
    cases hkeep
  · -- a mixed block is kept, and has to change
    by_contra hmixed
    rw [not_or] at hmixed
    obtain ⟨hother, hours⟩ := hmixed
    have hkeep : keepsBlock block = true := by
      rw [← Bool.not_eq_false, keepsBlock_eq_false]
      rintro ⟨hs', hsome, hall⟩
      rw [hentries] at hsome
      obtain rfl := Option.some.inj hsome
      exact hother hall
    refine h.not_hasOurs (List.mem_filter.mpr ⟨hmem, hkeep⟩) ((hasOurs_iff hentries).mpr ?_)
    by_contra hnone
    refine hours fun e he => Bool.eq_false_iff.mpr fun hour => hnone ⟨e, he, hour⟩

/-! ### The document -/

/-- Either the settings have a list of blocks, which uninstalling filters, or there is nothing to
uninstall. -/
theorem hookUninstall_cases (root : Fields) :
    (∃ hooks, (root.lookup "hooks".toList) = some (.object hooks) ∧
      hooks.lookup "PreToolUse".toList = some (.array (blocksOf root)) ∧
      (∀ blocks, withBlocks root blocks = withPreToolUse root hooks blocks) ∧
      hookUninstall root =
        if ((blocksOf root).filter keepsBlock).length = (blocksOf root).length then .noChange
        else .write (withPreToolUse root hooks ((blocksOf root).filter keepsBlock))) ∨
      (blocksOf root = [] ∧ (∀ blocks, withBlocks root blocks = root) ∧
        hookUninstall root = .noChange) := by
  cases hhooks : (root.lookup "hooks".toList).bind Json.asObject with
  | none =>
      refine .inr ⟨?_, fun blocks => ?_, ?_⟩
      · rw [blocksOf, hhooks]
        rfl
      · rw [withBlocks, hhooks]
      · rw [hookUninstall, hhooks]
  | some hooks =>
      cases hpre : (hooks.lookup "PreToolUse".toList).bind Json.asArray with
      | none =>
          refine .inr ⟨?_, fun blocks => ?_, ?_⟩
          · rw [blocksOf, hhooks, Option.bind_some, hpre]
            rfl
          · rw [withBlocks, hhooks]
            dsimp only
            rw [hpre]
          · rw [hookUninstall, hhooks]
            dsimp only
            rw [hpre]
      | some pre =>
          have hblocks : blocksOf root = pre := by
            rw [blocksOf, hhooks, Option.bind_some, hpre]
            rfl
          obtain ⟨v, hv, hobject⟩ := Option.bind_eq_some_iff.mp hhooks
          obtain ⟨w, hw, harray⟩ := Option.bind_eq_some_iff.mp hpre
          rw [Json.asObject_eq_some.mp hobject] at hv
          rw [Json.asArray_eq_some.mp harray] at hw
          refine .inl ⟨hooks, hv, hblocks.symm ▸ hw, fun blocks => ?_, ?_⟩
          · rw [withBlocks, hhooks]
            dsimp only
            rw [hpre]
          · rw [hookUninstall, hhooks, hblocks]
            dsimp only
            rw [hpre]

theorem blocksOf_withPreToolUse (root hooks : Fields) (blocks : List Json) :
    blocksOf (withPreToolUse root hooks blocks) = blocks := by
  rw [blocksOf, withPreToolUse, lookup_setKey, Option.bind_some, Json.asObject, Option.bind_some,
    lookup_setKey]
  rfl

/-- What was there is there again. -/
theorem withPreToolUse_blocksOf {root hooks : Fields} {blocks : List Json}
    (hroot : root.lookup "hooks".toList = some (.object hooks))
    (hpre : hooks.lookup "PreToolUse".toList = some (.array blocks)) :
    withPreToolUse root hooks blocks = root := by
  rw [withPreToolUse, setKey_eq_self hpre, setKey_eq_self hroot]

theorem filter_eq_self_of_length {blocks : List Json}
    (h : (blocks.filter keepsBlock).length = blocks.length) : blocks.filter keepsBlock = blocks :=
  List.filter_eq_self.mpr (List.length_filter_eq_length_iff.mp h)

/-- After uninstalling, the blocks that are kept stand in the document. -/
theorem document_hookUninstall (root : Fields) :
    (hookUninstall root).document root = withBlocks root ((blocksOf root).filter keepsBlock) := by
  obtain ⟨hooks, hroot, hpre, hwith, hout⟩ | ⟨hnil, hwith, hout⟩ := hookUninstall_cases root
  · rw [hout, hwith]
    split
    · rename_i hlen
      rw [filter_eq_self_of_length hlen, withPreToolUse_blocksOf hroot hpre]
      rfl
    · rfl
  · rw [hout, hwith]
    rfl

theorem blocksOf_hookUninstall (root : Fields) :
    blocksOf ((hookUninstall root).document root) = (blocksOf root).filter keepsBlock := by
  rw [document_hookUninstall]
  obtain ⟨hooks, -, -, hwith, -⟩ | ⟨hnil, hwith, -⟩ := hookUninstall_cases root
  · rw [hwith, blocksOf_withPreToolUse]
  · rw [hwith, hnil]
    rfl

/-- Where nothing changes, every block is kept. -/
theorem filter_of_noChange {root : Fields} (h : hookUninstall root = .noChange) :
    (blocksOf root).filter keepsBlock = blocksOf root := by
  obtain ⟨hooks, -, -, -, hout⟩ | ⟨hnil, -, -⟩ := hookUninstall_cases root
  · rw [hout] at h
    split at h
    · rename_i hlen
      exact filter_eq_self_of_length hlen
    · cases h
  · rw [hnil]
    rfl

theorem hookUninstall_accepts (root : Fields) (why : Str) : hookUninstall root ≠ .refuse why := by
  obtain ⟨hooks, -, -, -, hout⟩ | ⟨-, -, hout⟩ := hookUninstall_cases root
  · rw [hout]
    split
    · rintro ⟨⟩
    · rintro ⟨⟩
  · rw [hout]
    rintro ⟨⟩

/-- What installing reads as the blocks of the settings. -/
theorem blocksOf_eq_getD {root hooks : Fields} {pre : List Json}
    (hhooks : ((root.lookup "hooks".toList).getD (.object [])).asObject = some hooks)
    (hpre : ((hooks.lookup "PreToolUse".toList).getD (.array [])).asArray = some pre) :
    blocksOf root = pre := by
  rw [blocksOf]
  cases hroot : root.lookup "hooks".toList with
  | none =>
      rw [hroot] at hhooks
      cases hhooks
      cases hpre
      rfl
  | some v =>
      rw [hroot, Option.getD_some] at hhooks
      rw [Option.bind_some, hhooks, Option.bind_some]
      cases hlookup : hooks.lookup "PreToolUse".toList with
      | none =>
          rw [hlookup] at hpre
          cases hpre
          rfl
      | some w =>
          rw [hlookup, Option.getD_some] at hpre
          rw [Option.bind_some, hpre]
          rfl

/-- Installing adds a block to blocks none of which has ours. -/
theorem blocksOf_hookInstall {root installed : Fields} {command : Str}
    (h : hookInstall root command = .write installed) :
    blocksOf installed = blocksOf root ++ [ourBlock command] ∧
      ∀ block ∈ blocksOf root, ¬ HasOurs block := by
  rw [hookInstall] at h
  split at h
  · cases h
  · rename_i hooks hhooks
    split at h
    · cases h
    · rename_i pre hpre
      split at h
      · cases h
      · rename_i hnone
        cases h
        rw [blocksOf_withPreToolUse, blocksOf_eq_getD hhooks hpre]
        refine ⟨rfl, ?_⟩
        rintro block hmem ⟨hs, hentries, e, he, hours⟩
        refine hnone (List.any_eq_true.mpr ⟨block, hmem, ?_⟩)
        rw [hentries, Option.map_some, Option.getD_some]
        exact List.any_eq_true.mpr ⟨e, he, hours⟩

theorem keepsBlock_ourBlock {command : Str} (h : isOurHookCommand command = true) :
    keepsBlock (ourBlock command) = false := by
  refine keepsBlock_eq_false.mpr ⟨_, rfl, fun e he => ?_⟩
  rw [List.mem_singleton.mp he]
  exact h

/-- Where nothing is mixed, uninstalling undoes installing. -/
theorem undoesInstall_of_unmixed {root : Fields} (h : Unmixed (blocksOf root)) :
    UndoesInstall root := by
  intro command hours installed hinstall
  obtain ⟨hblocks, hnone⟩ := blocksOf_hookInstall hinstall
  have hkept : (blocksOf root).filter keepsBlock = blocksOf root := by
    refine List.filter_eq_self.mpr fun block hmem => ?_
    rw [← Bool.not_eq_false, keepsBlock_eq_false]
    rintro ⟨hs, hentries, hall⟩
    obtain ⟨e, he⟩ := List.exists_mem_of_ne_nil hs (h block hmem hs hentries).1
    exact hnone block hmem ((hasOurs_iff hentries).mpr ⟨e, he, hall e he⟩)
  have hdrop : [ourBlock command].filter keepsBlock = [] :=
    List.filter_eq_nil_iff.mpr fun block hmem => by
      rw [List.mem_singleton.mp hmem, keepsBlock_ourBlock hours]
      exact Bool.false_ne_true
  rw [blocksOf_hookUninstall, hblocks, List.filter_append, hkept, hdrop, List.append_nil]

/-- Uninstalling takes out exactly ours from blocks that are not mixed, and from no others. -/
theorem removesOurs_iff {root : Fields} :
    RemovesOurs root (hookUninstall root) ↔ Unmixed (blocksOf root) := by
  constructor
  · intro h
    obtain ⟨blocks, hstrips, hdocument⟩ := h.stripped
    have hkept := blocksOf_hookUninstall root
    rw [hdocument] at hkept
    obtain ⟨hooks, -, -, hwith, -⟩ | ⟨hnil, -, -⟩ := hookUninstall_cases root
    · rw [hwith, blocksOf_withPreToolUse] at hkept
      exact unmixed_of_strips (hkept ▸ hstrips)
    · rw [hnil]
      rintro block ⟨⟩
  · intro h
    have hstrips := strips_filter h
    refine ⟨⟨_, hstrips, document_hookUninstall root⟩, ?_, ?_, hookUninstall_accepts root⟩
    · rw [blocksOf_hookUninstall]
      exact fun block => hstrips.not_hasOurs
    · intro hout
      rw [filter_of_noChange hout] at hstrips
      exact fun block => hstrips.not_hasOurs

/-- For a document that is an object, `merge_hook_uninstall` prints what uninstalling leaves of
it. That takes out exactly our entries, and undoes an installation, if and only if no block mixes
ours with others and none has an empty list of entries. -/
theorem hookUninstall_exact {serde : SerdeJson} {existing : Str} {root : Fields}
    (h : serde.fromStr existing = some (.object root)) :
    mergeHookUninstall serde existing =
        (hookUninstall root).map (fun root => prettyJson serde (.object root)) ∧
      (RemovesOurs root (hookUninstall root) ∧ UndoesInstall root ↔ Unmixed (blocksOf root)) := by
  constructor
  · rw [mergeHookUninstall, h]
  · rw [removesOurs_iff]
    exact ⟨fun hboth => hboth.1, fun hunmixed => ⟨hunmixed, undoesInstall_of_unmixed hunmixed⟩⟩

/-! ### Two settings -/

def commandEntry (command : String) : Json :=
  .object [("type".toList, .string "command".toList), ("command".toList, .string command.toList)]

def bashBlock (commands : List String) : Json :=
  .object [("matcher".toList, .string "Bash".toList),
    ("hooks".toList, .array (commands.map commandEntry))]

/-- Settings with a block for each list of commands. -/
def settings (blocks : List (List String)) : Fields :=
  [("hooks".toList, .object [("PreToolUse".toList, .array (blocks.map bashBlock))])]

theorem blocksOf_settings (blocks : List (List String)) :
    blocksOf (settings blocks) = blocks.map bashBlock := by
  rw [blocksOf, settings, List.lookup_cons_self, Option.bind_some, Json.asObject, Option.bind_some,
    List.lookup_cons_self]
  rfl

theorem entriesOf_bashBlock (commands : List String) :
    entriesOf (bashBlock commands) = some (commands.map commandEntry) := by
  have hkey : ("hooks".toList == "matcher".toList) = false := by decide +kernel
  rw [entriesOf, bashBlock, Json.get, Json.asObject, Option.bind_some, List.lookup_cons, hkey,
    List.lookup_cons_self]
  rfl

theorem isOurs_commandEntry (command : String) :
    isOurs (commandEntry command) = isOurHookCommand command.toList := by
  have hkey : ("command".toList == "type".toList) = false := by decide +kernel
  rw [isOurs, commandEntry, Json.get, Json.asObject, Option.bind_some, List.lookup_cons, hkey,
    List.lookup_cons_self]
  rfl

/-- Our command in a block of its own. -/
def apart : Fields := settings [["/other"], ["/bin/ap hook-augment"]]

def apartText : Str :=
  ("\x7b\"hooks\":\x7b\"PreToolUse\":[\x7b\"matcher\":\"Bash\"," ++
    "\"hooks\":[\x7b\"type\":\"command\",\"command\":\"/other\"\x7d]\x7d," ++
    "\x7b\"matcher\":\"Bash\",\"hooks\":[\x7b\"type\":\"command\"," ++
    "\"command\":\"/bin/ap hook-augment\"\x7d]\x7d]\x7d\x7d").toList

/-- Reads the settings, and prints what is left of them. -/
def apartJson : SerdeJson where
  fromStr t := if t = apartText then some (.object apart) else none
  toStringPretty _ := some (join ['\n'] (List.map String.toList
    ["\x7b", "  \"hooks\": \x7b", "    \"PreToolUse\": [", "      \x7b",
      "        \"matcher\": \"Bash\",", "        \"hooks\": [", "          \x7b",
      "            \"type\": \"command\",", "            \"command\": \"/other\"",
      "          \x7d", "        ]", "      \x7d", "    ]", "  \x7d", "\x7d"]))

theorem hookUninstall_apart :
    RemovesOurs apart (hookUninstall apart) ∧ UndoesInstall apart := by
  have hread : apartJson.fromStr apartText = some (.object apart) := by
    simp only [apartJson, if_true]
  refine (hookUninstall_exact hread).2.mpr ?_
  have hcommands : ∀ commands ∈ [["/other"], ["/bin/ap hook-augment"]], commands ≠ [] ∧
      ((∀ c ∈ commands, isOurHookCommand c.toList = true) ∨
        ∀ c ∈ commands, isOurHookCommand c.toList = false) := by
    decide +kernel
  rw [apart, blocksOf_settings]
  intro block hmem hs hentries
  obtain ⟨commands, hcs, rfl⟩ := List.mem_map.mp hmem
  obtain ⟨hne, hsame⟩ := hcommands commands hcs
  rw [entriesOf_bashBlock] at hentries
  obtain rfl := Option.some.inj hentries
  simpa [isOurs_commandEntry, hne] using hsame

/-- Our command beside another one. -/
def mixed : Fields := settings [["/other", "/bin/ap hook-augment"]]

def mixedText : Str :=
  ("\x7b\"hooks\":\x7b\"PreToolUse\":[\x7b\"matcher\":\"Bash\"," ++
    "\"hooks\":[\x7b\"type\":\"command\",\"command\":\"/other\"\x7d," ++
    "\x7b\"type\":\"command\"," ++
    "\"command\":\"/bin/ap hook-augment\"\x7d]\x7d]\x7d\x7d").toList

def mixedJson : SerdeJson where
  fromStr t := if t = mixedText then some (.object mixed) else none
  toStringPretty _ := none

/-- A command of ours beside another one stays, and the outcome says that there was none. -/
theorem not_removesOurs_mixed :
    mergeHookUninstall mixedJson mixedText = .noChange ∧
      ¬ RemovesOurs mixed (hookUninstall mixed) := by
  have hread : mixedJson.fromStr mixedText = some (.object mixed) := by
    simp only [mixedJson, if_true]
  have hout : hookUninstall mixed = .noChange := by
    have hout : (match hookUninstall mixed with | .noChange => true | _ => false) = true := by
      decide +kernel
    split at hout
    · assumption
    · cases hout
  refine ⟨?_, fun h => ?_⟩
  · rw [mergeHookUninstall, hread]
    dsimp only
    rw [hout]
    rfl
  · refine h.noChange hout (bashBlock ["/other", "/bin/ap hook-augment"]) ?_ ?_
    · rw [mixed, blocksOf_settings]
      exact List.mem_cons_self
    · refine ⟨_, entriesOf_bashBlock _, commandEntry "/bin/ap hook-augment", by simp, ?_⟩
      rw [isOurs_commandEntry]
      decide +kernel

end AutomatisedPipeline.HostInstall

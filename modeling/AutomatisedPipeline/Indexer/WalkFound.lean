import AutomatisedPipeline.Indexer.Walk

/-!
Which files the walk finds (`indexer/walk.rs`).

A file is collected exactly when it is small enough, of the language asked for, and nothing on its
path is reported: neither barred nor unreadable (`mem_walked_iff`). The reports name paths with
slashes, so this asks that no name on disk has a backslash. The files have a path each and lie at
most so deep (`Disk.tree`), which is what the index is built from.
-/

namespace AutomatisedPipeline.SourceWalk

open Text
open Indexer (FileName SourceFile pathString dirRel maxDepth)

/-! ### Where an entry stands -/

/-- The listing has the entry. -/
inductive Entries.Lists : Entries → FileName → Node → Prop
  | here {name : FileName} {node : Node} {rest : Entries} : Lists (.entry name node rest) name node
  | there {name other : FileName} {node node' : Node} {rest : Entries} :
      rest.Lists name node → Lists (.entry other node' rest) name node
  | past {e : Str} {name : FileName} {node : Node} {rest : Entries} :
      rest.Lists name node → Lists (.failed e rest) name node

/-- `node` stands under `name` in the directory `d`, on a way down from `dir` through directories
that are entered. -/
inductive Below (enter : List FileName → FileName → Node → Prop) :
    List FileName → Contents → List FileName → FileName → Node → Prop
  | here {dir : List FileName} {contents : Contents} {name : FileName} {node : Node} :
      contents.entries.Lists name node → Below enter dir contents dir name node
  | inside {dir d : List FileName} {contents inner : Contents} {sub name : FileName} {hasGit : Bool}
      {node : Node} :
      contents.entries.Lists sub (.dir hasGit inner) → enter dir sub (.dir hasGit inner) →
        Below enter (dir ++ [sub]) inner d name node → Below enter dir contents d name node

/-- What stands on disk, wherever it is and whether or not it can be listed. -/
abbrev Stands (root : Contents) (d : List FileName) (name : FileName) (node : Node) : Prop :=
  Below (fun _ _ _ => True) [] root d name node

/-- A directory whose entries can be read. -/
def Node.isOpened : Node → Bool
  | .dir _ contents => contents.isOpened
  | _ => false

/-- What the walk comes to: through directories that are not barred and that it can read. -/
def Reaches (opts : WalkOptions) (dir : List FileName) (contents : Contents) (d : List FileName)
    (name : FileName) (node : Node) : Prop :=
  contents.isOpened ∧
    Below (fun d name node => barrier opts d name node = none ∧ node.isOpened) dir contents d name node

theorem prefix_snoc_inj {α : Type} {dir d : List α} {a b : α} (h₁ : dir ++ [a] <+: d)
    (h₂ : dir ++ [b] <+: d) : a = b := by
  have h := List.prefix_of_prefix_length_le h₁ h₂ (by simp)
  simpa using h.eq_of_length (by simp)

namespace Below

variable {enter enter' : List FileName → FileName → Node → Prop} {dir d : List FileName}
  {contents : Contents} {name : FileName} {node : Node}

theorem prefix_dir (h : Below enter dir contents d name node) : dir <+: d := by
  induction h with
  | here _ => exact List.prefix_rfl
  | inside _ _ _ ih => exact (List.prefix_append _ _).trans ih

theorem mono (h : Below enter dir contents d name node)
    (himp : ∀ d name hasGit contents, enter d name (.dir hasGit contents) →
      enter' d name (.dir hasGit contents)) :
    Below enter' dir contents d name node := by
  induction h with
  | here hlists => exact .here hlists
  | inside hlists henter _ ih => exact .inside hlists (himp _ _ _ _ henter) ih

theorem stands (h : Below enter [] contents d name node) : Stands contents d name node :=
  h.mono fun _ _ _ _ _ => trivial

/-- The way down goes through every directory above. -/
theorem passes (h : Below enter dir contents d name node) {d' : List FileName} {name' : FileName}
    (hdir : dir <+: d') (hd : d' ++ [name'] <+: d) :
    ∃ node', Below enter dir contents d' name' node' ∧ enter d' name' node' := by
  induction h with
  | here _ =>
      have hlong := hd.length_le.trans hdir.length_le
      simp at hlong
  | @inside dir d contents inner sub name hasGit node hlists henter hbelow ih =>
      obtain ⟨rest, rfl⟩ := hdir
      cases rest with
      | nil =>
          rw [List.append_nil] at hd ⊢
          obtain rfl := prefix_snoc_inj hd hbelow.prefix_dir
          exact ⟨_, .here hlists, henter⟩
      | cons step rest =>
          have hsub : dir ++ [step] <+: d :=
            (show dir ++ [step] <+: dir ++ step :: rest ++ [name'] by simp).trans hd
          obtain rfl := prefix_snoc_inj hsub hbelow.prefix_dir
          obtain ⟨node', hnode', henter'⟩ := ih (by simp) hd
          exact ⟨node', .inside hlists henter hnode', henter'⟩

/-- To enter only what satisfies `Q` is to come to what has `Q` all the way down. -/
theorem and_iff (Q : List FileName → Prop) :
    Below (fun d name node => enter d name node ∧ Q (d ++ [name])) dir contents d name node ↔
      Below enter dir contents d name node ∧
        ∀ p, dir <+: p → p ≠ dir → p <+: d → Q p := by
  constructor
  · intro h
    refine ⟨h.mono fun _ _ _ _ h => h.1, fun p hdir hne hd => ?_⟩
    obtain ⟨rest, rfl⟩ := hdir
    have hrest : rest ≠ [] := by
      rintro rfl
      exact hne (List.append_nil dir)
    obtain ⟨rest, last, rfl⟩ := (List.eq_nil_or_concat' rest).resolve_left hrest
    rw [← List.append_assoc] at hd ⊢
    obtain ⟨_, _, -, hQ⟩ := h.passes (List.prefix_append _ _) hd
    exact hQ
  · rintro ⟨h, hQ⟩
    induction h with
    | here hlists => exact .here hlists
    | @inside dir d contents inner sub name hasGit node hlists henter hbelow ih =>
        refine .inside hlists ⟨henter, hQ _ (List.prefix_append _ _) (by simp) hbelow.prefix_dir⟩
          (ih fun p hdir hne hd => hQ p ((List.prefix_append _ _).trans hdir) ?_ hd)
        rintro rfl
        have hlong := hdir.length_le
        simp at hlong

end Below

mutual

/-- No directory lists a name twice. -/
def Contents.Distinct : Contents → Prop
  | .denied _ unlisted => unlisted.Distinct
  | .failed _ unlisted => unlisted.Distinct
  | .opened entries => entries.Distinct

def Entries.Distinct : Entries → Prop
  | .nil => True
  | .failed _ rest => rest.Distinct
  | .entry name node rest => (∀ node', ¬ rest.Lists name node') ∧ node.Distinct ∧ rest.Distinct

def Node.Distinct : Node → Prop
  | .dir _ contents => contents.Distinct
  | _ => True

end

/-- A source tree on disk. -/
structure Disk where
  root : Contents
  distinct : root.Distinct

section Distinct

theorem Contents.Distinct.entries :
    ∀ {contents : Contents}, contents.Distinct → contents.entries.Distinct
  | .denied _ _, h => h
  | .failed _ _, h => h
  | .opened _, h => h

theorem Entries.Lists.distinct {entries : Entries} {name : FileName} {node : Node}
    (h : entries.Lists name node) (hdistinct : entries.Distinct) : node.Distinct := by
  induction h with
  | here => exact hdistinct.2.1
  | there _ ih => exact ih hdistinct.2.2
  | past _ ih => exact ih hdistinct

theorem Entries.Lists.unique {entries : Entries} {name : FileName} {node node' : Node}
    (h : entries.Lists name node) (h' : entries.Lists name node') (hdistinct : entries.Distinct) :
    node = node' := by
  induction h with
  | here =>
      cases h' with
      | here => rfl
      | there h' => exact absurd h' (hdistinct.1 _)
  | there h ih =>
      cases h' with
      | here => exact absurd h (hdistinct.1 _)
      | there h' => exact ih h' hdistinct.2.2
  | past _ ih =>
      cases h' with
      | past h' => exact ih h' hdistinct

variable {enter enter' : List FileName → FileName → Node → Prop} {dir d : List FileName}
  {contents : Contents} {name : FileName} {node node' : Node}

/-- A path names one thing. -/
theorem Below.unique (h : Below enter dir contents d name node)
    (h' : Below enter' dir contents d name node') (hdistinct : contents.Distinct) :
    node = node' := by
  induction h with
  | here hlists =>
      cases h' with
      | here hlists' => exact hlists.unique hlists' hdistinct.entries
      | inside _ _ hbelow =>
          have hlong := hbelow.prefix_dir.length_le
          simp at hlong
  | inside hlists _ hbelow ih =>
      cases h' with
      | here _ =>
          have hlong := hbelow.prefix_dir.length_le
          simp at hlong
      | inside hlists' _ hbelow' =>
          obtain rfl := prefix_snoc_inj hbelow.prefix_dir hbelow'.prefix_dir
          cases hlists.unique hlists' hdistinct.entries
          exact ih hbelow' (hlists.distinct hdistinct.entries)

end Distinct

/-! ### What is found, and where -/

section Membership

variable {opts : WalkOptions}

theorem mem_itemsOf {dir : List FileName} {name : FileName} {node : Node} {item : Item} :
    item ∈ itemsOf opts dir name node ↔
      (∃ b, barrier opts dir name node = some b ∧ item = .barred (dir ++ [name]) b) ∨
        barrier opts dir name node = none ∧
          ((∃ size text, node = .file size text ∧ keeps opts ⟨dir, name, size, text⟩ ∧
              item = .file ⟨dir, name, size, text⟩) ∨
            ∃ hasGit e unlisted, node = .dir hasGit (.denied e unlisted) ∧
              item = .unreadable (dir ++ [name])) := by
  rw [itemsOf.eq_def]
  cases barrier opts dir name node with
  | some b => simp
  | none =>
      rcases node with ⟨size, text⟩ | _ | _ | _ | ⟨hasGit, _ | _ | _⟩
      · by_cases hkeeps : keeps opts ⟨dir, name, size, text⟩ = true <;> simp [hkeeps]
      all_goals simp

mutual

/-- What a walk finds: what the entries it comes to add. -/
theorem Contents.mem_found {dir : List FileName} {item : Item} :
    ∀ contents : Contents, item ∈ contents.found opts dir ↔
      ((∃ e unlisted, contents = .denied e unlisted) ∧ item = .unreadable dir) ∨
        ∃ d name node, Reaches opts dir contents d name node ∧ item ∈ itemsOf opts d name node
  | .denied e unlisted => by
      rw [Contents.found, List.mem_singleton]
      refine ⟨fun h => .inl ⟨⟨e, unlisted, rfl⟩, h⟩, ?_⟩
      rintro (⟨-, h⟩ | ⟨d, name, node, ⟨hopened, -⟩, -⟩)
      · exact h
      · cases hopened
  | .failed e unlisted => by
      rw [Contents.found]
      refine ⟨fun h => (List.not_mem_nil h).elim, ?_⟩
      rintro (⟨⟨e', _, h⟩, -⟩ | ⟨d, name, node, ⟨hopened, -⟩, -⟩)
      · cases h
      · cases hopened
  | .opened entries => by
      rw [Contents.found, entries.mem_found]
      refine ⟨fun ⟨name, node, hlists, h⟩ => .inr ?_, ?_⟩
      · rcases h with h | ⟨hasGit, contents, rfl, hopen, d, sub, below, ⟨hopened, hbelow⟩, h⟩
        · exact ⟨dir, name, node, ⟨rfl, .here hlists⟩, h⟩
        · exact ⟨d, sub, below, ⟨rfl, .inside hlists ⟨hopen, hopened⟩ hbelow⟩, h⟩
      · rintro (⟨⟨e, _, h⟩, -⟩ | ⟨d, name, node, ⟨-, hbelow⟩, h⟩)
        · cases h
        · cases hbelow with
          | here hlists => exact ⟨name, node, hlists, .inl h⟩
          | inside hlists hopen hbelow =>
              exact ⟨_, _, hlists, .inr ⟨_, _, rfl, hopen.1, d, name, node, ⟨hopen.2, hbelow⟩, h⟩⟩

theorem Entries.mem_found {dir : List FileName} {item : Item} :
    ∀ entries : Entries, item ∈ entries.found opts dir ↔
      ∃ name node, entries.Lists name node ∧ (item ∈ itemsOf opts dir name node ∨
        ∃ hasGit contents, node = .dir hasGit contents ∧ barrier opts dir name node = none ∧
          ∃ d sub below, Reaches opts (dir ++ [name]) contents d sub below ∧
            item ∈ itemsOf opts d sub below)
  | .nil => by
      rw [Entries.found]
      refine ⟨fun h => (List.not_mem_nil h).elim, ?_⟩
      rintro ⟨name, node, h, -⟩
      cases h
  | .failed e rest => by
      rw [Entries.found, rest.mem_found]
      constructor
      · rintro ⟨name, node, hlists, h⟩
        exact ⟨name, node, .past hlists, h⟩
      · rintro ⟨name, node, hlists, h⟩
        cases hlists with
        | past hlists => exact ⟨name, node, hlists, h⟩
  | .entry name node rest => by
      rw [Entries.found, List.mem_append, node.mem_found, rest.mem_found]
      constructor
      · rintro (h | ⟨name', node', hlists, h⟩)
        · exact ⟨name, node, .here, h⟩
        · exact ⟨name', node', .there hlists, h⟩
      · rintro ⟨name', node', hlists, h⟩
        cases hlists with
        | here => exact .inl h
        | there hlists => exact .inr ⟨name', node', hlists, h⟩

theorem Node.mem_found {dir : List FileName} {name : FileName} {item : Item} :
    ∀ node : Node, item ∈ node.found opts dir name ↔ item ∈ itemsOf opts dir name node ∨
      ∃ hasGit contents, node = .dir hasGit contents ∧ barrier opts dir name node = none ∧
        ∃ d sub below, Reaches opts (dir ++ [name]) contents d sub below ∧
          item ∈ itemsOf opts d sub below
  | .dir hasGit contents => by
      rw [Node.found, mem_itemsOf]
      cases hbarrier : barrier opts dir name (.dir hasGit contents) with
      | some b => simp
      | none =>
          simp only
          rw [contents.mem_found]
          constructor
          · rintro (⟨⟨e, unlisted, rfl⟩, rfl⟩ | h)
            · exact .inl (.inr ⟨trivial, .inr ⟨hasGit, e, unlisted, rfl, rfl⟩⟩)
            · exact .inr ⟨hasGit, contents, rfl, trivial, h⟩
          · rintro ((⟨b, h, -⟩ | ⟨-, ⟨size, text, h, -⟩ | ⟨_, e, unlisted, h, rfl⟩⟩) |
              ⟨_, _, h, -, hbelow⟩)
            · cases h
            · cases h
            · cases h
              exact .inl ⟨⟨e, unlisted, rfl⟩, rfl⟩
            · cases h
              exact .inr hbelow
  | .file size text => by simp [Node.found]
  | .symlink => by simp [Node.found]
  | .other => by simp [Node.found]
  | .vanished => by simp [Node.found]

end

theorem mem_found_of_lists {dir : List FileName} {contents : Contents} {name : FileName}
    {node : Node} {item : Item} (hopened : contents.isOpened)
    (hlists : contents.entries.Lists name node) (h : item ∈ node.found opts dir name) :
    item ∈ contents.found opts dir := by
  cases contents with
  | opened entries => exact entries.mem_found.mpr ⟨name, node, hlists, node.mem_found.mp h⟩
  | denied e unlisted => cases hopened
  | failed e unlisted => cases hopened

theorem Entries.Lists.readable {dir : List FileName} {depth : Nat} {entries : Entries}
    {name : FileName} {node : Node} (h : entries.Lists name node)
    (hread : entries.Readable opts dir depth) : node.Readable opts dir depth name := by
  induction h with
  | here => exact hread.1
  | there _ ih => exact ih hread.2
  | past _ _ => exact hread.elim

/-- What stands in a directory that is opened is fit to be walked as the directory is. -/
theorem Contents.Readable.of_lists {dir : List FileName} {depth : Nat} {contents : Contents}
    {name : FileName} {node : Node} (hread : contents.Readable opts dir depth)
    (hopened : contents.isOpened) (hlists : contents.entries.Lists name node) :
    node.Readable opts dir depth name := by
  cases contents with
  | opened entries => exact hlists.readable hread.2
  | denied e unlisted => cases hopened
  | failed e unlisted => cases hopened

/-- A path that is neither barred nor unreadable. -/
def Clear (items : List Item) (p : List FileName) : Prop :=
  (∀ b, .barred p b ∉ items) ∧ .unreadable p ∉ items

/-- A directory that is clear is opened. -/
theorem isOpened_of_clear {dir : List FileName} {depth : Nat} {contents : Contents}
    {sub : FileName} {hasGit : Bool} {inner : Contents}
    (hread : contents.Readable opts dir depth) (hopened : contents.isOpened)
    (hlists : contents.entries.Lists sub (.dir hasGit inner))
    (hopen : barrier opts dir sub (.dir hasGit inner) = none)
    (hclear : .unreadable (dir ++ [sub]) ∉ contents.found opts dir) : inner.isOpened := by
  cases inner with
  | opened entries => rfl
  | denied e unlisted =>
      refine absurd ((Contents.mem_found _).mpr (.inr ?_)) hclear
      exact ⟨dir, sub, _, ⟨hopened, .here hlists⟩,
        mem_itemsOf.mpr (.inr ⟨hopen, .inr ⟨hasGit, e, unlisted, rfl, rfl⟩⟩)⟩
  | failed e unlisted => exact (hread.of_lists hopened hlists hopen).elim

/-- What has nothing barred and nothing unreadable on its path is come to. -/
theorem reaches_of_clear {dir d : List FileName} {contents : Contents} {name : FileName}
    {node : Node} (h : Below (fun _ _ _ => True) dir contents d name node)
    (hopened : contents.isOpened) {depth : Nat} (hread : contents.Readable opts dir depth)
    (hclear : ∀ q, q ≠ [] → dir ++ q <+: d ++ [name] →
      Clear (contents.found opts dir) (dir ++ q)) :
    Reaches opts dir contents d name node ∧ barrier opts d name node = none := by
  induction h generalizing depth with
  | @here dir contents name node hlists =>
      refine ⟨⟨hopened, .here hlists⟩, Option.eq_none_iff_forall_ne_some.mpr fun b hb => ?_⟩
      refine (hclear [name] (by simp) List.prefix_rfl).1 b ((Contents.mem_found _).mpr (.inr ?_))
      exact ⟨dir, name, node, ⟨hopened, .here hlists⟩, mem_itemsOf.mpr (.inl ⟨b, hb, rfl⟩)⟩
  | @inside dir d contents inner sub name hasGit node hlists _ hbelow ih =>
      have hsub := hclear [sub] (by simp) (hbelow.prefix_dir.trans (List.prefix_append d [name]))
      have hopen : barrier opts dir sub (.dir hasGit inner) = none := by
        refine Option.eq_none_iff_forall_ne_some.mpr fun b hb => ?_
        refine hsub.1 b ((Contents.mem_found _).mpr (.inr ?_))
        exact ⟨dir, sub, _, ⟨hopened, .here hlists⟩, mem_itemsOf.mpr (.inl ⟨b, hb, rfl⟩)⟩
      have hinner := isOpened_of_clear hread hopened hlists hopen hsub.2
      have hfound {item : Item} (hitem : item ∈ inner.found opts (dir ++ [sub])) :
          item ∈ contents.found opts dir := by
        refine mem_found_of_lists hopened hlists ?_
        rw [Node.found, hopen]
        exact hitem
      obtain ⟨⟨-, hreach⟩, hbarrier⟩ :=
        ih hinner (hread.of_lists hopened hlists hopen) fun q hq hpre => by
          rw [List.append_assoc] at hpre ⊢
          have hq := hclear ([sub] ++ q) (by simp) hpre
          exact ⟨fun b hb => hq.1 b (hfound hb), fun hun => hq.2 (hfound hun)⟩
      exact ⟨⟨hopened, .inside hlists ⟨hopen, hinner⟩ hreach⟩, hbarrier⟩

theorem Reaches.unique {disk : Disk} {d : List FileName} {name : FileName} {node node' : Node}
    (h : Reaches opts [] disk.root d name node) (h' : Reaches opts [] disk.root d name node') :
    node = node' := h.2.unique h'.2 disk.distinct

/-- What stands on the way to what is come to: a directory that is entered and opened, or that
itself. -/
theorem Reaches.passes {disk : Disk} {d d' : List FileName} {name name' : FileName}
    {node node' : Node} (h : Reaches opts [] disk.root d name node)
    (h' : Reaches opts [] disk.root d' name' node') (hp : d' ++ [name'] <+: d ++ [name]) :
    d' ++ [name'] = d ++ [name] ∧ node' = node ∨
      barrier opts d' name' node' = none ∧ node'.isOpened := by
  rcases List.prefix_concat_iff.mp hp with heq | hproper
  · obtain ⟨rfl, hname⟩ := List.append_inj' heq rfl
    obtain rfl := List.singleton_inj.mp hname
    exact .inl ⟨rfl, h'.unique h⟩
  · obtain ⟨node'', hnode'', hopen⟩ := h.2.passes List.nil_prefix hproper
    rw [h'.2.unique hnode'' disk.distinct]
    exact .inr hopen

/-- A file that is come to and not barred has a clear path. -/
theorem clear_of_reaches {disk : Disk} {d : List FileName} {name : FileName} {size : Nat}
    {text : Except Str Str} (h : Reaches opts [] disk.root d name (.file size text))
    (hbarrier : barrier opts d name (.file size text) = none) {p : List FileName} (hne : p ≠ [])
    (hp : p <+: d ++ [name]) : Clear (disk.root.found opts []) p := by
  refine ⟨fun b hb => ?_, fun hun => ?_⟩
  · rcases (Contents.mem_found _).mp hb with ⟨-, hitem⟩ | ⟨d', name', node', hreach, hitem⟩
    · cases hitem
    · rcases mem_itemsOf.mp hitem with
        ⟨_, hb', hpath⟩ | ⟨-, ⟨_, _, -, -, hitem⟩ | ⟨_, _, _, -, hitem⟩⟩
      · obtain ⟨rfl, rfl⟩ := Item.barred.inj hpath
        rcases h.passes hreach hp with ⟨heq, rfl⟩ | ⟨hopen, -⟩
        · obtain ⟨rfl, hname⟩ := List.append_inj' heq rfl
          obtain rfl := List.singleton_inj.mp hname
          exact absurd (hb'.symm.trans hbarrier) (by simp)
        · exact absurd (hb'.symm.trans hopen) (by simp)
      · cases hitem
      · cases hitem
  · rcases (Contents.mem_found _).mp hun with ⟨-, hitem⟩ | ⟨d', name', node', hreach, hitem⟩
    · exact hne (Item.unreadable.inj hitem)
    · rcases mem_itemsOf.mp hitem with
        ⟨_, _, hitem⟩ | ⟨-, ⟨_, _, -, -, hitem⟩ | ⟨_, _, _, rfl, hpath⟩⟩
      · cases hitem
      · cases hitem
      · obtain rfl := Item.unreadable.inj hpath
        rcases h.passes hreach hp with ⟨-, hnode⟩ | ⟨-, hopened⟩
        · cases hnode
        · cases hopened

theorem file_mem_found_reaches {root : Contents} {f : SourceFile} :
    .file f ∈ root.found opts [] ↔
      Reaches opts [] root f.dirs f.name (.file f.size f.text) ∧
        barrier opts f.dirs f.name (.file f.size f.text) = none ∧ keeps opts f := by
  constructor
  · intro h
    rcases (Contents.mem_found _).mp h with ⟨-, hitem⟩ | ⟨d, name, node, hreach, hitem⟩
    · cases hitem
    · rcases mem_itemsOf.mp hitem with
        ⟨_, _, hitem⟩ | ⟨hopen, ⟨size, text, rfl, hkeeps, hitem⟩ | ⟨_, _, _, -, hitem⟩⟩
      · cases hitem
      · obtain rfl := Item.file.inj hitem
        exact ⟨hreach, hopen, hkeeps⟩
      · cases hitem
  · rintro ⟨hreach, hopen, hkeeps⟩
    refine (Contents.mem_found _).mpr (.inr ⟨_, _, _, hreach, mem_itemsOf.mpr (.inr ⟨hopen, ?_⟩)⟩)
    exact .inl ⟨f.size, f.text, rfl, hkeeps, rfl⟩

/-- The root of a walk that does not fail is opened. -/
theorem Contents.Readable.isOpened {dir : List FileName} :
    ∀ {contents : Contents}, contents.Readable opts dir 0 → contents.isOpened
  | .denied _ _, h => absurd h.2 (lt_irrefl 0)
  | .opened _, _ => rfl

/-- A file is found exactly when it is kept and its path is clear. -/
theorem file_mem_found_iff {disk : Disk} (hread : disk.root.Readable opts [] 0) {f : SourceFile} :
    .file f ∈ disk.root.found opts [] ↔
      Stands disk.root f.dirs f.name (.file f.size f.text) ∧ keeps opts f ∧
        ∀ p, p ≠ [] → p <+: f.path → Clear (disk.root.found opts []) p := by
  rw [file_mem_found_reaches]
  constructor
  · rintro ⟨hreach, hopen, hkeeps⟩
    exact ⟨hreach.2.stands, hkeeps, fun p hne hp => clear_of_reaches hreach hopen hne hp⟩
  · rintro ⟨hstands, hkeeps, hclear⟩
    obtain ⟨hreach, hopen⟩ := reaches_of_clear hstands hread.isOpened hread hclear
    exact ⟨hreach, hopen, hkeeps⟩

end Membership

/-! ### What is reported -/

/-- No path has a backslash, which the report would write as a slash. -/
def Disk.Plain (disk : Disk) : Prop :=
  ∀ d name node, Stands disk.root d name node → '\\' ∉ pathString (d ++ [name])

theorem dirRel_of_plain {p : List FileName} (h : '\\' ∉ pathString p) : dirRel p = pathString p := by
  unfold dirRel
  conv_rhs => rw [← List.map_id (pathString p)]
  refine List.map_congr_left fun c hc => if_neg ?_
  rintro rfl
  exact h hc

theorem plain_of_prefix {p q : List FileName} (hp : p ≠ []) (h : p <+: q)
    (hq : '\\' ∉ pathString q) : '\\' ∉ pathString p := by
  obtain ⟨rest, rfl⟩ := h
  by_cases hrest : rest = []
  · rwa [hrest, List.append_nil] at hq
  · rw [Indexer.pathString_append hp hrest] at hq
    exact fun hmem => hq (List.mem_append_left _ hmem)

section Report

variable {opts : WalkOptions}

theorem stands_of_barred {root : Contents} {p : List FileName} {b : Barrier}
    (h : .barred p b ∈ root.found opts []) :
    ∃ d name node, Reaches opts [] root d name node ∧ barrier opts d name node = some b ∧
      p = d ++ [name] := by
  rcases (Contents.mem_found _).mp h with ⟨-, hitem⟩ | ⟨d, name, node, hreach, hitem⟩
  · cases hitem
  · rcases mem_itemsOf.mp hitem with
      ⟨b', hb, hitem⟩ | ⟨-, ⟨_, _, -, -, hitem⟩ | ⟨_, _, _, -, hitem⟩⟩
    · obtain ⟨rfl, rfl⟩ := Item.barred.inj hitem
      exact ⟨d, name, node, hreach, hb, rfl⟩
    · cases hitem
    · cases hitem

theorem stands_of_unreadable {root : Contents} (hopened : root.isOpened) {p : List FileName}
    (h : .unreadable p ∈ root.found opts []) :
    ∃ d name node, Reaches opts [] root d name node ∧ p = d ++ [name] := by
  rcases (Contents.mem_found _).mp h with ⟨⟨_, _, rfl⟩, -⟩ | ⟨d, name, node, hreach, hitem⟩
  · cases hopened
  · rcases mem_itemsOf.mp hitem with
      ⟨_, _, hitem⟩ | ⟨-, ⟨_, _, -, -, hitem⟩ | ⟨_, _, _, -, hitem⟩⟩
    · cases hitem
    · cases hitem
    · exact ⟨d, name, node, hreach, Item.unreadable.inj hitem⟩

/-- A report names one path. -/
theorem Reaches.path_eq {disk : Disk} (hplain : disk.Plain) {d : List FileName} {name : FileName}
    {node : Node} (h : Reaches opts [] disk.root d name node) {p : List FileName} (hp : p ≠ [])
    (hpp : '\\' ∉ pathString p) (hrel : dirRel (d ++ [name]) = dirRel p) : d ++ [name] = p := by
  rw [dirRel_of_plain (hplain _ _ _ h.2.stands), dirRel_of_plain hpp] at hrel
  exact Indexer.pathString_injective (by simp) hp hrel

/-- The report of an excluded directory is read back. -/
theorem dirRel_mem_excludedDirs {disk : Disk} (hplain : disk.Plain) {p : List FileName}
    (hp : p ≠ []) (hpp : '\\' ∉ pathString p) :
    dirRel p ∈ (disk.root.found opts []).filterMap Item.excluded? ↔
      .barred p .excluded ∈ disk.root.found opts [] := by
  rw [List.mem_filterMap]
  constructor
  · rintro ⟨item, hitem, hrel⟩
    rcases item with f | dir | ⟨q, reason | _⟩
    · cases hrel
    · cases hrel
    · cases hrel
    · obtain ⟨d, name, node, hreach, -, rfl⟩ := stands_of_barred hitem
      rwa [← hreach.path_eq hplain hp hpp (Option.some.inj hrel)]
  · exact fun h => ⟨_, h, rfl⟩

/-- The report of an unreadable directory is read back. -/
theorem dirRel_mem_unreadableDirs {disk : Disk} (hplain : disk.Plain)
    (hopened : disk.root.isOpened) {p : List FileName} (hp : p ≠ []) (hpp : '\\' ∉ pathString p) :
    dirRel p ∈ (disk.root.found opts []).filterMap Item.unreadable? ↔
      .unreadable p ∈ disk.root.found opts [] := by
  rw [List.mem_filterMap]
  constructor
  · rintro ⟨item, hitem, hrel⟩
    rcases item with f | dir | ⟨q, reason | _⟩
    · cases hrel
    · obtain ⟨d, name, node, hreach, rfl⟩ := stands_of_unreadable hopened hitem
      rwa [← hreach.path_eq hplain hp hpp (Option.some.inj hrel)]
    · cases hrel
    · cases hrel
  · exact fun h => ⟨_, h, rfl⟩

/-- The report of a pruned entry is read back. -/
theorem dirRel_mem_prunedDirs {disk : Disk} (hplain : disk.Plain) {p : List FileName}
    (hp : p ≠ []) (hpp : '\\' ∉ pathString p) {reason : Str} :
    (dirRel p, reason) ∈ (disk.root.found opts []).filterMap Item.pruned? ↔
      .barred p (.pruned reason) ∈ disk.root.found opts [] := by
  rw [List.mem_filterMap]
  constructor
  · rintro ⟨item, hitem, hrel⟩
    rcases item with f | dir | ⟨q, reason' | _⟩
    · cases hrel
    · cases hrel
    · obtain ⟨d, name, node, hreach, -, rfl⟩ := stands_of_barred hitem
      obtain ⟨hpath, rfl⟩ := Prod.mk.inj (Option.some.inj hrel)
      rwa [← hreach.path_eq hplain hp hpp hpath]
    · cases hrel
  · exact fun h => ⟨_, h, rfl⟩

theorem mem_filterMap_file {items : List Item} {f : SourceFile} :
    f ∈ items.filterMap Item.file? ↔ .file f ∈ items := by
  rw [List.mem_filterMap]
  constructor
  · rintro ⟨item, hitem, hf⟩
    rcases item with g | dir | ⟨q, b⟩
    · rwa [← Option.some.inj hf]
    · cases hf
    · rcases b <;> cases hf
  · exact fun h => ⟨_, h, rfl⟩

theorem mem_outcome_files {items : List Item} {f : SourceFile} :
    f ∈ (outcome items).files ↔ .file f ∈ items := by
  rw [outcome, List.mem_mergeSort, mem_filterMap_file]

/-- A file on disk is collected exactly when it is small enough, of the language asked for, and no
directory above it, nor the file itself, is reported. -/
theorem mem_walked_iff {disk : Disk} (hplain : disk.Plain) {out : Collectors}
    (h : collectSourceFiles opts disk.root = .ok out) (f : SourceFile) :
    f ∈ out.files ↔ Stands disk.root f.dirs f.name (.file f.size f.text) ∧ keeps opts f ∧
      ∀ p, p ≠ [] → p <+: f.path →
        dirRel p ∉ out.excludedDirs ∧ dirRel p ∉ out.unreadableDirs ∧
          ∀ reason, (dirRel p, reason) ∉ out.prunedDirs := by
  obtain ⟨hread, -, rfl⟩ := collectSourceFiles_ok_iff.mp h
  rw [mem_outcome_files, file_mem_found_iff hread]
  refine and_congr_right fun hstands => and_congr_right fun _ => forall_congr' fun p =>
    forall_congr' fun hp => forall_congr' fun hpre => ?_
  have hpp : '\\' ∉ pathString p := plain_of_prefix hp hpre (hplain _ _ _ hstands)
  have hexcluded : dirRel p ∈ (outcome (disk.root.found opts [])).excludedDirs ↔ _ :=
    dirRel_mem_excludedDirs hplain hp hpp
  have hunreadable : dirRel p ∈ (outcome (disk.root.found opts [])).unreadableDirs ↔ _ :=
    dirRel_mem_unreadableDirs hplain hread.isOpened hp hpp
  have hpruned (reason : Str) :
      (dirRel p, reason) ∈ (outcome (disk.root.found opts [])).prunedDirs ↔ _ :=
    List.mem_mergeSort.trans (dirRel_mem_prunedDirs hplain hp hpp)
  constructor
  · rintro ⟨hbarred, hopened⟩
    refine ⟨mt hexcluded.mp (hbarred _), mt hunreadable.mp hopened, fun reason hmem => ?_⟩
    exact hbarred _ ((hpruned reason).mp hmem)
  · rintro ⟨hnotExcluded, hnotUnreadable, hnotPruned⟩
    refine ⟨fun b hmem => ?_, mt hunreadable.mpr hnotUnreadable⟩
    cases b with
    | excluded => exact hnotExcluded (hexcluded.mpr hmem)
    | pruned reason => exact hnotPruned reason ((hpruned reason).mpr hmem)

/-- A file in a directory, one under a name of the built-in list, and one that may not be read. -/
def sampleDisk : Disk where
  root := .opened
    (.entry ⟨"src".toList, by decide⟩
      (.dir false (.opened (.entry ⟨"main.rs".toList, by decide⟩ (.file 12 (.ok [])) .nil)))
    (.entry ⟨"vendor".toList, by decide⟩
      (.dir false (.opened (.entry ⟨"lib.rs".toList, by decide⟩ (.file 20 (.ok [])) .nil)))
    (.entry ⟨"keys".toList, by decide⟩
      (.dir false (.denied "Permission denied (os error 13)".toList
        (.entry ⟨"key.rs".toList, by decide⟩ (.file 3 (.ok [])) .nil))) .nil)))
  distinct := by
    have hnil (name : FileName) (node : Node) : ¬ Entries.nil.Lists name node := nofun
    refine ⟨fun node h => ?_, ⟨hnil _, trivial, trivial⟩, fun node h => ?_,
      ⟨hnil _, trivial, trivial⟩, hnil _, ⟨hnil _, trivial, trivial⟩, trivial⟩
    · rcases h with _ | (_ | h)
      exact hnil _ _ h
    · rcases h with _ | h
      exact hnil _ _ h

theorem sampleDisk_plain : sampleDisk.Plain := by
  intro d name node h
  cases h with
  | here hlists =>
      rcases hlists with _ | (_ | (_ | hlists))
      · decide
      · decide
      · decide
      · cases hlists
  | inside hlists _ hbelow =>
      rcases hlists with _ | (_ | (_ | hlists))
      · rcases hbelow with (_ | hlists) | ⟨_ | hlists, -, -⟩
        · decide
        · cases hlists
        · cases hlists
      · rcases hbelow with (_ | hlists) | ⟨_ | hlists, -, -⟩
        · decide
        · cases hlists
        · cases hlists
      · rcases hbelow with (_ | hlists) | ⟨_ | hlists, -, -⟩
        · decide
        · cases hlists
        · cases hlists
      · cases hlists

def sampleOptions (scope : Indexer.DependencyScope) : WalkOptions :=
  { languageFilter := none, dependencyScope := scope, excludeDirs := .new [] }

theorem sampleDisk_ok : collectSourceFiles (sampleOptions .full) sampleDisk.root =
    .ok (outcome (sampleDisk.root.found (sampleOptions .full) [])) := by
  refine collectSourceFiles_ok_iff.mpr ⟨⟨by decide, ?_, ?_, ?_, trivial⟩, by decide, rfl⟩
  · exact fun _ => ⟨by decide, trivial, trivial⟩
  · exact fun _ => ⟨by decide, trivial, trivial⟩
  · exact fun _ => ⟨by decide, by decide⟩

theorem mem_walked_iff_sample :
    ⟨[⟨"src".toList, by decide⟩], ⟨"main.rs".toList, by decide⟩, 12, .ok []⟩ ∈
        (outcome (sampleDisk.root.found (sampleOptions .full) [])).files ∧
      ⟨[⟨"keys".toList, by decide⟩], ⟨"key.rs".toList, by decide⟩, 3, .ok []⟩ ∉
        (outcome (sampleDisk.root.found (sampleOptions .full) [])).files := by
  have hwalked := mem_walked_iff sampleDisk_plain sampleDisk_ok
  refine ⟨(hwalked _).mpr ⟨.inside .here trivial (.here .here), by decide, fun p hne hp => ?_⟩,
    fun hmem => ?_⟩
  · have hopened : ∀ q ∈ [⟨"src".toList, by decide⟩, ⟨"main.rs".toList, by decide⟩].inits,
        dirRel q ∉ (outcome (sampleDisk.root.found (sampleOptions .full) [])).unreadableDirs := by
      decide
    refine ⟨List.not_mem_nil, hopened p ((List.mem_inits _ _).mpr hp), fun reason => ?_⟩
    rw [outcome, List.mem_mergeSort]
    exact List.not_mem_nil
  · exact ((hwalked _).mp hmem).2.2 [⟨"keys".toList, by decide⟩] (by simp) ⟨_, rfl⟩ |>.2.1
      (List.mem_cons_self)

end Report

/-! ### The tree that is indexed -/

section Tree

variable {opts : WalkOptions}

theorem itemsOf_file {d : List FileName} {name : FileName} {node : Node} {f : SourceFile}
    (h : .file f ∈ itemsOf opts d name node) : f.dirs = d ∧ f.name = name := by
  rcases mem_itemsOf.mp h with ⟨_, _, hitem⟩ | ⟨-, ⟨_, _, -, -, hitem⟩ | ⟨_, _, _, -, hitem⟩⟩
  · cases hitem
  · obtain rfl := Item.file.inj hitem
    exact ⟨rfl, rfl⟩
  · cases hitem

theorem prefix_of_node_found {dir : List FileName} {name : FileName} {node : Node} {f : SourceFile}
    (h : .file f ∈ node.found opts dir name) : dir ++ [name] <+: f.path := by
  rcases node.mem_found.mp h with h | ⟨_, _, -, -, d, sub, below, hreach, h⟩
  · obtain ⟨rfl, rfl⟩ := itemsOf_file h
    exact List.prefix_rfl
  · obtain ⟨rfl, rfl⟩ := itemsOf_file h
    exact hreach.2.prefix_dir.trans (List.prefix_append _ _)

/-- The paths of the files among the items. -/
def pathsOf (items : List Item) : List (List FileName) :=
  (items.filterMap Item.file?).map SourceFile.path

theorem mem_pathsOf {items : List Item} {p : List FileName} :
    p ∈ pathsOf items ↔ ∃ f, .file f ∈ items ∧ f.path = p := by
  simp only [pathsOf, List.mem_map, mem_filterMap_file]

theorem pathsOf_append (items items' : List Item) :
    pathsOf (items ++ items') = pathsOf items ++ pathsOf items' := by
  rw [pathsOf, List.filterMap_append, List.map_append]
  rfl

theorem pathsOf_itemsOf (d : List FileName) (name : FileName) (node : Node) :
    (pathsOf (itemsOf opts d name node)).Nodup := by
  rw [itemsOf.eq_def]
  split
  · rename_i b _
    cases b <;> exact List.nodup_nil
  · split
    · split
      · exact List.nodup_singleton _
      · exact List.nodup_nil
    · exact List.nodup_nil
    · exact List.nodup_nil

mutual

/-- No path is found twice. -/
theorem Contents.pathsOf_found {dir : List FileName} :
    ∀ contents : Contents, contents.Distinct → (pathsOf (contents.found opts dir)).Nodup
  | .denied _ _, _ => List.nodup_nil
  | .failed _ _, _ => List.nodup_nil
  | .opened entries, h => entries.pathsOf_found h

theorem Entries.pathsOf_found {dir : List FileName} :
    ∀ entries : Entries, entries.Distinct → (pathsOf (entries.found opts dir)).Nodup
  | .nil, _ => List.nodup_nil
  | .failed _ rest, h => rest.pathsOf_found h
  | .entry name node rest, ⟨hname, hnode, hrest⟩ => by
      rw [Entries.found, pathsOf_append, List.nodup_append]
      refine ⟨node.pathsOf_found hnode, rest.pathsOf_found hrest, fun p hp q hq => ?_⟩
      rintro rfl
      obtain ⟨f, hf, rfl⟩ := mem_pathsOf.mp hp
      obtain ⟨g, hg, hpath⟩ := mem_pathsOf.mp hq
      obtain ⟨name', node', hlists, hg⟩ := rest.mem_found.mp hg
      have hpre := prefix_of_node_found (node'.mem_found.mpr hg)
      rw [hpath] at hpre
      obtain rfl := prefix_snoc_inj (prefix_of_node_found hf) hpre
      exact hname node' hlists

theorem Node.pathsOf_found {dir : List FileName} {name : FileName} :
    ∀ node : Node, node.Distinct → (pathsOf (node.found opts dir name)).Nodup
  | .dir hasGit contents, h => by
      rw [Node.found]
      split
      · rename_i b _
        cases b <;> exact List.nodup_nil
      · exact contents.pathsOf_found h
  | .file size text, _ => pathsOf_itemsOf dir name (.file size text)
  | .symlink, _ => pathsOf_itemsOf dir name .symlink
  | .other, _ => pathsOf_itemsOf dir name .other
  | .vanished, _ => pathsOf_itemsOf dir name .vanished

end

theorem Contents.Readable.depth_le {dir : List FileName} {depth : Nat} :
    ∀ {contents : Contents}, contents.Readable opts dir depth → depth ≤ maxDepth
  | .denied _ _, h => h.1
  | .opened _, h => h.1

/-- What is come to is at most so deep. -/
theorem Reaches.depth {dir d : List FileName} {contents : Contents} {name : FileName} {node : Node}
    (h : Reaches opts dir contents d name node) (hread : contents.Readable opts dir dir.length) :
    d.length ≤ maxDepth := by
  obtain ⟨hopened, h⟩ := h
  induction h with
  | here _ => exact hread.depth_le
  | @inside dir d contents inner sub name hasGit node hlists hopen _ ih =>
      refine ih ?_ hopen.2
      rw [List.length_append, List.length_singleton]
      exact hread.of_lists hopened hlists hopen.1

/-- A successful walk gives the tree that is indexed. -/
def Disk.tree (disk : Disk) {out : Collectors}
    (h : collectSourceFiles opts disk.root = .ok out) : Indexer.Tree where
  files := out.files
  nodup := by
    obtain ⟨-, -, rfl⟩ := collectSourceFiles_ok_iff.mp h
    have hpaths : (pathsOf (disk.root.found opts [])).Nodup :=
      disk.root.pathsOf_found disk.distinct
    have hfiles : (outcome (disk.root.found opts [])).files.Perm
        ((disk.root.found opts []).filterMap Item.file?) := List.mergeSort_perm _ _
    rw [(hfiles.map SourceFile.relativePath).nodup_iff]
    refine (List.nodup_map_iff_inj_on (List.Nodup.of_map _ hpaths)).mpr fun f hf g hg heq => ?_
    refine List.inj_on_of_nodup_map hpaths hf hg ?_
    exact Indexer.pathString_injective f.path_ne_nil g.path_ne_nil heq
  depth := by
    obtain ⟨hread, -, rfl⟩ := collectSourceFiles_ok_iff.mp h
    intro f hf
    rcases (Contents.mem_found _).mp (mem_outcome_files.mp hf) with ⟨-, hf⟩ | ⟨d, _, _, hreach, hf⟩
    · cases hf
    · rw [(itemsOf_file hf).1]
      exact hreach.depth hread

end Tree

end AutomatisedPipeline.SourceWalk

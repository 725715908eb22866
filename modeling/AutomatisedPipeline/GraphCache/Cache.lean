import AutomatisedPipeline.Text.Basic

/-!
The cache of opened graph handles (`graph_cache.rs`).

A request opens a graph through the cache and drops the handle when it returns; a
writer releases the graph before it opens or rewrites it. Graph files change under
the cache at any time. The server runs on one thread, so the steps come one after
another and the cache is never borrowed when a release runs.
-/

namespace AutomatisedPipeline.Handles

open Text

/-- `MAX_CACHED_GRAPHS`. -/
def maxCachedGraphs : Nat := 8

/-! ### Files -/

/-- `GraphFingerprint`. -/
structure GraphFingerprint where
  newestMtimeNanos : Nat
  totalSizeBytes : Nat
deriving DecidableEq, Repr

/-- What stands at a path. `modified` counts from the epoch, where the platform has a time
that is not before it; `unreadable` stands for all that `metadata` or `read_dir` refuse. -/
inductive Node where
  | file (modified : Option Nat) (len : Nat)
  | dir (modified : Option Nat) (entries : List Node)
  | unreadable

def u64Max : Nat := 18446744073709551615

/-- The newer of `newest` and a modification time. -/
def newer (newest : Nat) : Option Nat → Nat
  | none => newest
  | some nanos => if newest < nanos then nanos else newest

mutual
/-- `accumulate`. -/
def accumulate : Node → GraphFingerprint → Option GraphFingerprint
  | .unreadable, _ => none
  | .file modified len, fp =>
      some ⟨newer fp.newestMtimeNanos modified, min (fp.totalSizeBytes + len) u64Max⟩
  | .dir modified entries, fp =>
      accumulateAll entries ⟨newer fp.newestMtimeNanos modified, fp.totalSizeBytes⟩

/-- The loop of `accumulate` over a directory. -/
def accumulateAll : List Node → GraphFingerprint → Option GraphFingerprint
  | [], fp => some fp
  | entry :: entries, fp => (accumulate entry fp).bind (accumulateAll entries)
end

/-- The file system: `canonicalize`, and what stands at a canonical path. -/
structure Disk where
  canonicalize : Str → Option Str
  node : Str → Option Node

/-- The key of a path: its canonical spelling, the path itself when there is none. -/
def Disk.key (disk : Disk) (path : Str) : Str := (disk.canonicalize path).getD path

/-- The fingerprint that is stored when there is none. -/
def GraphFingerprint.zero : GraphFingerprint := ⟨0, 0⟩

/-- `GraphFingerprint::of`. -/
def GraphFingerprint.of (disk : Disk) (path : Str) : Option GraphFingerprint :=
  ((disk.canonicalize path).bind disk.node).bind fun node => accumulate node .zero

/-! ### The cache -/

/-- An opened graph: which opening made it, and the fingerprint its files had then. -/
structure GraphStore where
  id : Nat
  openedAt : Option GraphFingerprint
deriving DecidableEq, Repr

/-- `CacheEntry`. -/
structure CacheEntry where
  store : GraphStore
  fingerprint : GraphFingerprint
  openedSeq : Nat
deriving DecidableEq, Repr

abbrev Entries : Type := List (Str × CacheEntry)

/-- `HashMap::remove`. -/
def Entries.remove (entries : Entries) (key : Str) : Entries :=
  entries.filter fun e => e.1 ≠ key

/-- `HashMap::insert`. -/
def Entries.insert (entries : Entries) (key : Str) (entry : CacheEntry) : Entries :=
  (key, entry) :: entries.remove key

/-- The entry that was opened first. -/
def Entries.victim (entries : Entries) : Option (Str × CacheEntry) :=
  entries.argmin fun e => e.2.openedSeq

/-- The loop of `evict_if_over_capacity`; every turn takes an entry out. -/
def evictLoop : Nat → Entries → Entries
  | 0, entries => entries
  | fuel + 1, entries =>
      if maxCachedGraphs < entries.length then
        match entries.victim with
        | some victim => evictLoop fuel (entries.remove victim.1)
        | none => entries
      else entries

/-- `evict_if_over_capacity`. -/
def evictIfOverCapacity (entries : Entries) : Entries := evictLoop entries.length entries

/-- `GraphCache`. -/
structure GraphCache where
  entries : Entries
  nextSeq : Nat

/-- What the opener does: the files it leaves, and its error where it fails. -/
structure Opening where
  disk : Disk
  error : Option Str

/-- The entry of a path whose fingerprint is that of the files. -/
def GraphCache.fresh (cache : GraphCache) (disk : Disk) (path : Str) : Option CacheEntry :=
  match GraphFingerprint.of disk path, cache.entries.lookup (disk.key path) with
  | some current, some entry => if entry.fingerprint = current then some entry else none
  | _, _ => none

/-- `get_with_opener`, with what the opener does where it is called. -/
def GraphCache.getWithOpener (cache : GraphCache) (disk : Disk) (path : Str) (opening : Opening) :
    (GraphCache × Disk) × Except Str GraphStore :=
  match cache.fresh disk path with
  | some entry => ((cache, disk), .ok entry.store)
  | none =>
      match opening.error with
      | some error => ((cache, opening.disk), .error error)
      | none =>
          let fingerprint := GraphFingerprint.of opening.disk path
          let store : GraphStore := ⟨cache.nextSeq, fingerprint⟩
          let entry : CacheEntry := ⟨store, fingerprint.getD .zero, cache.nextSeq⟩
          let entries := cache.entries.insert (disk.key path) entry
          (({ entries := evictIfOverCapacity entries, nextSeq := cache.nextSeq + 1 }, opening.disk),
            .ok store)

/-! ### Runs -/

/-- A handle that a request holds, with the path it asked for and the key it had. -/
structure Handle where
  store : GraphStore
  path : Str
  key : Str
deriving DecidableEq, Repr

structure World where
  disk : Disk
  cache : GraphCache
  handles : List Handle

/-- The server at its start. -/
def World.start (disk : Disk) : World where
  disk := disk
  cache := ⟨[], 0⟩
  handles := []

/-- `Rc::strong_count`: the entries and the requests that hold the store. -/
def World.strongCount (w : World) (store : GraphStore) : Nat :=
  w.cache.entries.countP (fun e => e.2.store = store) +
    w.handles.countP fun handle => handle.store = store

/-- The message of a refused release. -/
def handleInUse (path : Str) : Str :=
  "graph_handle_in_use: ".toList ++ path ++ " is held by a running request, and a ".toList ++
    "write through another handle would be overwritten when it closes".toList

/-- `release`. -/
def World.release (w : World) (path : Str) : World × Except Str Unit :=
  match w.cache.entries.lookup (w.disk.key path) with
  | some entry =>
      if 1 < w.strongCount entry.store then (w, .error (handleInUse path))
      else
        ({ w with cache.entries := w.cache.entries.remove (w.disk.key path) }, .ok ())
  | none => (w, .ok ())

/-- `open_cached`: the caller holds the handle it gets. -/
def World.openCached (w : World) (path : Str) (opening : Opening) : World × Except Str Handle :=
  match w.cache.getWithOpener w.disk path opening with
  | ((cache, disk), .error error) => ({ w with cache := cache, disk := disk }, .error error)
  | ((cache, disk), .ok store) =>
      let handle : Handle := ⟨store, path, w.disk.key path⟩
      ({ disk := disk, cache := cache, handles := w.handles ++ [handle] }, .ok handle)

inductive Op where
  | open (path : Str) (opening : Opening)
  | drop (i : Nat)
  | release (path : Str)
  | rewrite (disk : Disk)

def World.step (w : World) : Op → World
  | .open path opening => (w.openCached path opening).1
  | .drop i => { w with handles := w.handles.eraseIdx i }
  | .release path => (w.release path).1
  | .rewrite disk => { w with disk := disk }

end AutomatisedPipeline.Handles

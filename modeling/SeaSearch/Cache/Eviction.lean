import SeaSearch.Aggregation.Buckets
import SeaSearch.Base62

/-!
# Making room in the file cache

`makeRoomForCacheFile` deletes the files that were used least recently and that no caller has,
until seven tenths of the maximum are left. `CacheFile` and `OpenWriter` call it first.
-/

namespace SeaSearch

open List
open Base62 (wrap)

structure CachedFile where
  path : String
  refCount : Nat
  size : Int
  atime : Int
  deriving DecidableEq

/-- `LruCache`: the entries of `caches`, and the paths in `readyMap`. -/
structure FileCache where
  caches : List CachedFile
  ready : List String
  maxSize : Int
  deriving DecidableEq

inductive CacheStep
  | setup
  | createTemp
  | copy
  | rename
  | sync
  | close
  deriving DecidableEq

/-- What a call comes to. It waits if another one is loading the path. -/
inductive CacheOutcome
  | panicked
  | waits
  | failed (c : FileCache)
  | returned (c : FileCache)
  deriving DecidableEq

namespace FileCache

/-- The files that the loop removes, in this order. Every removal of a file succeeds, and the
factor 0.7 is exact. -/
def victims (maxSize : Int) : Int → List CachedFile → List CachedFile
  | _, [] => []
  | curSize, f :: files =>
    if f.refCount > 0 then victims maxSize curSize files
    else
      let curSize := wrap (curSize - f.size)
      if 10 * curSize ≤ 7 * maxSize then [f] else f :: victims maxSize curSize files

variable (sort : SortFunc CachedFile fun f g => f.atime < g.atime)

def makeRoomForCacheFile (c : FileCache) : FileCache :=
  let curSize := c.caches.foldl (fun curSize f => wrap (curSize + f.size)) 0
  if curSize < c.maxSize then c
  else
    let removed := victims c.maxSize curSize (sort.order c.caches)
    { c with caches := c.caches.filter fun f => f.path ∉ removed.map CachedFile.path }

/-- A caller more for the path: one that has the file, or the first one. -/
def hold (c : FileCache) (path : String) (size now : Int) : FileCache :=
  if path ∈ c.caches.map CachedFile.path then
    { c with
      caches := c.caches.map fun f =>
        if f.path = path then { f with refCount := f.refCount + 1, atime := now } else f }
  else { c with caches := c.caches ++ [⟨path, 1, size, now⟩] }

variable (path : String) (size now : Int) (fails : CacheStep → Bool)

/-- `CacheFile`. If the temporary file cannot be created then `cleanup` asks a nil file for its
name. -/
def cacheFile (c : FileCache) : CacheOutcome :=
  if fails .setup then .failed c
  else
    let c := c.makeRoomForCacheFile sort
    if path ∈ c.caches.map CachedFile.path then .returned (c.hold path size now)
    else if path ∈ c.ready then .waits
    else
      let c := { c with ready := path :: c.ready }
      let cleanup := { c with ready := c.ready.erase path }
      if fails .createTemp then .panicked
      else if fails .copy || fails .rename || fails .sync || fails .close then .failed cleanup
      else .returned (cleanup.hold path size now)

def openWriter (c : FileCache) : CacheOutcome :=
  let c := c.makeRoomForCacheFile sort
  if fails .setup then .failed c
  else
    let c := c.hold path 0 now
    if fails .createTemp then .failed c else .returned c

end FileCache

open FileCache

/-- A step of `CacheFile` fails: the first one, or one behind it, which are reached if the path is
neither cached nor being loaded. -/
def FileCache.Fails (sort : SortFunc CachedFile fun f g => f.atime < g.atime) (c : FileCache)
    (path : String) (fails : CacheStep → Bool) : Prop :=
  fails .setup ∨ (∃ step, fails step) ∧
    path ∉ (c.makeRoomForCacheFile sort).caches.map CachedFile.path ∧ path ∉ c.ready

namespace EvictionLemmas

variable {sort : SortFunc CachedFile fun f g => f.atime < g.atime} {c : FileCache} {path : String}
  {size now : Int} {fails : CacheStep → Bool}

theorem refCount_of_victim {maxSize curSize : Int} {f : CachedFile}
    (hf : f ∈ victims maxSize curSize files) :
    f ∈ files ∧ f.refCount = 0 := by
  induction files generalizing curSize with
  | nil => cases hf
  | cons g files ih =>
    rw [victims] at hf
    split at hf
    · exact (ih hf).imp_left (mem_cons_of_mem _)
    · next hfree =>
      have hfirst : f = g → f ∈ g :: files ∧ f.refCount = 0 := by
        rintro rfl
        exact ⟨mem_cons_self, Nat.eq_zero_of_not_pos hfree⟩
      dsimp only at hf
      split at hf
      · exact hfirst (mem_singleton.1 hf)
      · exact (mem_cons.1 hf).elim hfirst fun hf => (ih hf).imp_left (mem_cons_of_mem _)

theorem exists_removed (sort : SortFunc CachedFile fun f g => f.atime < g.atime) (c : FileCache) :
    ∃ removed : List CachedFile, (∀ f ∈ removed, f ∈ c.caches ∧ f.refCount = 0) ∧
      c.makeRoomForCacheFile sort =
        { c with caches := c.caches.filter fun f => f.path ∉ removed.map CachedFile.path } := by
  unfold makeRoomForCacheFile
  dsimp only
  split
  · exact ⟨[], nofun, by simp⟩
  · refine ⟨_, fun f hf => ?_, rfl⟩
    exact (refCount_of_victim hf).imp_left (sort.perm _).mem_iff.1

/-- A new reference is seen in the entries, also if files have been evicted. -/
theorem hold_ne : (c.makeRoomForCacheFile sort).hold path size now ≠ c := by
  intro heq
  obtain ⟨removed, hremoved, hroom⟩ := exists_removed sort c
  replace heq := congrArg FileCache.caches (hroom ▸ heq)
  unfold hold at heq
  split at heq
  · next hmem =>
    obtain ⟨f, hf, hpath⟩ := mem_map.1 hmem
    -- no entry has been evicted, and that of the path has one reference more
    have hall := congrArg length heq
    rw [length_map] at hall
    rw [filter_eq_self.2 (length_filter_eq_length_iff.1 hall)] at hf heq
    have hsame := map_eq_map_iff.1 (heq.trans (map_id _).symm) f hf
    rw [if_pos hpath] at hsame
    exact absurd (congrArg CachedFile.refCount hsame) (Nat.succ_ne_self _)
  · next hnot =>
    -- the entry of the path is the last one, so an entry of the path that is evicted is that one
    dsimp only at heq hnot
    have hlast : ⟨path, 1, size, now⟩ ∈ c.caches := heq ▸ mem_append_right _ (mem_singleton_self _)
    have hevicted : path ∈ removed.map CachedFile.path := by
      by_contra hkept
      exact hnot (mem_map.2 ⟨_, mem_filter.2 ⟨hlast, decide_eq_true hkept⟩, rfl⟩)
    obtain ⟨f, hf, hpath⟩ := mem_map.1 hevicted
    obtain ⟨hcached, hfree⟩ := hremoved f hf
    rw [← heq] at hcached
    rcases mem_append.1 hcached with hkept | hnew
    · exact hnot (mem_map.2 ⟨f, hkept, hpath⟩)
    · rw [mem_singleton.1 hnew] at hfree
      cases hfree

end EvictionLemmas

open EvictionLemmas

/-- `CacheFile` that fails has no effect if and only if it fails in the first step, or a temporary
file could be created and nothing had to be evicted. `OpenWriter` that fails has no effect if and
only if it fails in the first step and nothing had to be evicted. -/
theorem failing_no_trace (sort : SortFunc CachedFile fun f g => f.atime < g.atime) (c : FileCache)
    (path : String) (size now : Int) (fails : CacheStep → Bool) :
    (c.Fails sort path fails → (c.cacheFile sort path size now fails = .failed c ↔
      fails .setup ∨ fails .createTemp = false ∧ c.makeRoomForCacheFile sort = c)) ∧
    (fails .setup ∨ fails .createTemp → (c.openWriter sort path now fails = .failed c ↔
      fails .setup ∧ c.makeRoomForCacheFile sort = c)) := by
  refine ⟨fun hfails => ?_, fun hfails => ?_⟩
  · rw [cacheFile]
    cases hsetup : fails .setup with
    | true => simp
    | false =>
      obtain ⟨⟨step, hstep⟩, hcached, hready⟩ := hfails.resolve_left (by simp [hsetup])
      have hready : path ∉ (c.makeRoomForCacheFile sort).ready := by
        obtain ⟨removed, -, heq⟩ := exists_removed sort c
        rwa [heq]
      cases htemp : fails .createTemp with
      | true => simp [hcached, hready]
      | false =>
        have hlater : (fails .copy || fails .rename || fails .sync || fails .close) = true := by
          cases step <;> simp_all
        simp [hcached, hready, hlater]
  · rw [openWriter]
    cases hsetup : fails .setup with
    | true => simp
    | false => simp [hfails.resolve_left (by simp [hsetup]), hold_ne]

theorem failing_no_trace_copy :
    cacheFile (.byKey CachedFile.atime) "a" 3 7 (· = .copy) ⟨[⟨"b", 1, 4, 2⟩], ["d"], 10⟩ =
      .failed ⟨[⟨"b", 1, 4, 2⟩], ["d"], 10⟩ :=
  ((failing_no_trace (.byKey CachedFile.atime) ⟨[⟨"b", 1, 4, 2⟩], ["d"], 10⟩ "a" 3 7
    (· = .copy)).1 (.inr ⟨⟨.copy, by decide⟩, by decide, by decide⟩)).2 (.inr (by decide))

/-- Without a temporary file `CacheFile` panics and `OpenWriter` leaves an entry with one reference;
and a call that fails later has evicted other files. -/
theorem failing_leaves_trace :
    cacheFile (.byKey CachedFile.atime) "a" 3 7 (· = .createTemp) ⟨[], [], 10⟩ = .panicked ∧
    openWriter (.byKey CachedFile.atime) "a" 7 (· = .createTemp) ⟨[], [], 10⟩ =
      .failed ⟨[⟨"a", 1, 0, 7⟩], [], 10⟩ ∧
    openWriter (.byKey CachedFile.atime) "a" 7 (· = .setup) ⟨[⟨"b", 0, 10, 2⟩], [], 10⟩ =
      .failed ⟨[], [], 10⟩ ∧
    cacheFile (.byKey CachedFile.atime) "a" 3 7 (· = .copy) ⟨[⟨"b", 0, 10, 2⟩], [], 10⟩ =
      .failed ⟨[], [], 10⟩ := by
  decide

end SeaSearch

import SeaSearch.Lib.Hex
import SeaSearch.Storage.DeleteIndex
import SeaSearch.Storage.KeyCache

/-!
# The directory of a second shard

The files of a directory are the objects whose keys start with its prefix. The name of a file is its
id in hexadecimal followed by its kind. `List` takes the keys from the object key cache of the
process and reads the ids back from them.
-/

namespace SeaSearch

open List Threads

variable {ν τ : Type}

def itemKindSnapshot : List Char := ['.', 's', 'n', 'p']

/-- `filepath.Ext`. -/
def pathExt (key : List Char) : List Char :=
  if '.' ∈ key.reverse.takeWhile (· ≠ '/') then
    '.' :: ((key.reverse.takeWhile (· ≠ '/')).takeWhile (· ≠ '.')).reverse
  else []

/-- `filepath.Base`. -/
def pathBase (key : List Char) : List Char :=
  if key = [] then dot
  else if key.all (· = '/') then ['/']
  else ((key.reverse.dropWhile (· = '/')).takeWhile (· ≠ '/')).reverse

/-- `strconv.ParseUint` with base 16 and 64 bits. -/
def parseUint (s : List Char) : Option Nat := (Hex.parse s).filter (· < 2 ^ 64)

def fileId (kind key : List Char) : Option Nat :=
  if pathExt key = kind then
    parseUint ((pathBase key).take ((pathBase key).length - kind.length))
  else none

namespace S3Backend

def listPrefix (pre : Key) : String := String.ofList (renderKey pre)

def objectKey (pre : Key) (kind : List Char) (id : Nat) : String :=
  String.ofList (renderKey (pathJoin (pre ++ [fileName kind id])))

/-- `Persist`, after the file has been written to the local cache. -/
def persist (pre : Key) (kind : List Char) (id : Nat) : ClientCall := .write (objectKey pre kind id)

/-- `Remove`, after the file has been removed from the local cache. -/
def remove (pre : Key) (kind : List Char) (id : Nat) : ClientCall := .remove [objectKey pre kind id]

/-- `List`, from the keys of the cache or of the backend. -/
def list (kind : List Char) (keys : List String) : List Nat :=
  (keys.filterMap fun key => fileId kind key.toList).mergeSort fun a b => b ≤ a

end S3Backend

open S3Backend (list listPrefix objectKey persist)

def ClientEvent.result : ClientEvent τ → String × List String
  | hit _ pre keys => (pre, keys)
  | answered _ pre keys => (pre, keys)

def ClientPc.began (h : ObjectHistory) : ClientPc → Nat
  | listed _ _ since _ => since
  | _ => h.past.length

/-- No object has come under the prefix since the listing began that the cache of the process
holds, if it holds one that is ready. -/
def ObjectStore.upToDate (s : ObjectStore ν) (n : ν) (pre : String) : Bool :=
  (((s.caches n).items pre).filter ObjectKeyCacheItem.ready).all fun item =>
    (s.history.since item.since).all fun store =>
      decide (∀ key ∈ s.history.store, hasPrefix key pre → key ∈ store)

open ObjectStore (start step upToDate)

namespace DirectoryLemmas

open DeleteIndexLemmas

theorem takeWhile_ne {a : Char} {l r : List Char} (h : a ∉ l) :
    (l ++ a :: r).takeWhile (· ≠ a) = l := by
  rw [takeWhile_append_of_pos, takeWhile_cons_of_neg, append_nil]
  · simp
  · intro b hb
    have hne : b ≠ a := fun heq => h (heq ▸ hb)
    simpa using hne

theorem hexDigits_not_mem (hc : Hex.digitValue c = none) (width n : Nat) :
    c ∉ hexDigits width n := Hex.not_mem_leftpad hc width n

section Names

variable {pre e : List Char} {id : Nat}

theorem slash_not_mem_fileName (he : '/' ∉ e) : '/' ∉ fileName ('.' :: e) id := by
  rw [fileName, mem_append, not_or, mem_cons, not_or]
  exact ⟨hexDigits_not_mem rfl 12 id, by decide, he⟩

theorem reverse_key : (pre ++ '/' :: fileName ('.' :: e) id).reverse =
    (fileName ('.' :: e) id).reverse ++ '/' :: pre.reverse := by
  simp

theorem pathBase_key (he : '/' ∉ e) :
    pathBase (pre ++ '/' :: fileName ('.' :: e) id) = fileName ('.' :: e) id := by
  have hslash : '/' ∉ fileName ('.' :: e) id := slash_not_mem_fileName he
  have hlast : ∃ c r, (fileName ('.' :: e) id).reverse = c :: r := by
    refine exists_cons_of_ne_nil ?_
    simp [fileName]
  obtain ⟨c, r, hcr⟩ := hlast
  have hc : c ≠ '/' := by
    rintro rfl
    have hmem : '/' ∈ (fileName ('.' :: e) id).reverse := hcr ▸ mem_cons_self
    exact hslash (mem_reverse.1 hmem)
  have hall : (pre ++ '/' :: fileName ('.' :: e) id).all (· = '/') = false := by
    rw [← all_reverse, reverse_key, hcr]
    simp [hc]
  rw [pathBase, if_neg (by simp), hall, if_neg Bool.false_ne_true, reverse_key, hcr,
    cons_append, dropWhile_cons_of_neg (by simpa using hc), ← cons_append, ← hcr,
    takeWhile_ne (by simpa using hslash), reverse_reverse]

theorem pathExt_key (he : '/' ∉ e) (hdot : '.' ∉ e) :
    pathExt (pre ++ '/' :: fileName ('.' :: e) id) = '.' :: e := by
  have hslash : '/' ∉ fileName ('.' :: e) id := slash_not_mem_fileName he
  have hname :
      (fileName ('.' :: e) id).reverse = e.reverse ++ '.' :: (hexDigits 12 id).reverse := by
    simp [fileName]
  rw [pathExt, reverse_key, takeWhile_ne (by simpa using hslash), hname,
    takeWhile_ne (by simpa using hdot), reverse_reverse, if_pos (by simp)]

theorem parseUint_hexDigits (width : Nat) (hid : id < 2 ^ 64) :
    parseUint (hexDigits width id) = some id := by
  rw [parseUint, hexDigits, Hex.parse_leftpad, Option.filter_some, if_pos (by simpa using hid)]

theorem fileId_key (he : '/' ∉ e) (hdot : '.' ∉ e) (hid : id < 2 ^ 64) :
    fileId ('.' :: e) (pre ++ '/' :: fileName ('.' :: e) id) = some id := by
  rw [fileId, if_pos (pathExt_key he hdot), pathBase_key he, fileName, length_append,
    Nat.add_sub_cancel, take_left, parseUint_hexDigits 12 hid]

end Names

/-- A path that `path.Join` leaves as it is. -/
def Clean (pre : Key) : Prop := pre ≠ [] ∧ ∀ p ∈ pre, Ordinary p

theorem renderKey_append (hpre : pre ≠ []) (p : List Char) :
    renderKey (pre ++ [p]) = renderKey pre ++ '/' :: p := by
  induction pre with
  | nil => exact absurd rfl hpre
  | cons q pre ih =>
    cases pre with
    | nil => rw [singleton_append, renderKey_cons]; simp [renderKey]
    | cons r pre =>
      rw [cons_append, cons_append, renderKey_cons, ← cons_append,
        ih (cons_ne_nil r pre), renderKey_cons, append_assoc]
      rfl

theorem toList_objectKey (hpre : Clean pre) (kind : List Char) (id : Nat) :
    (objectKey pre kind id).toList = renderKey pre ++ '/' :: fileName kind id := by
  have hparts : ∀ p ∈ pre ++ [fileName kind id], Ordinary p := by
    intro p hp
    rcases mem_append.1 hp with hp | hp
    · exact hpre.2 p hp
    · exact mem_singleton.1 hp ▸ ordinary_fileName kind id
  rw [objectKey, String.toList_ofList, pathJoin_ordinary hparts, renderKey_append hpre.1]

theorem fileId_objectKey {pre : Key} (hpre : Clean pre) (he : '/' ∉ e) (hdot : '.' ∉ e) {id : Nat}
    (hid : id < 2 ^ 64) :
    fileId ('.' :: e) (objectKey pre ('.' :: e) id).toList = some id := by
  rw [toList_objectKey hpre, fileId_key he hdot hid]

theorem hasPrefix_objectKey {pre : Key} (hpre : Clean pre) (kind : List Char) (id : Nat) :
    hasPrefix (objectKey pre kind id) (listPrefix pre) = true := by
  rw [hasPrefix, toList_objectKey hpre, listPrefix, String.toList_ofList, isPrefixOf_iff_prefix]
  exact prefix_append ..

theorem mem_list {kind : List Char} {keys : List String} {id : Nat} :
    id ∈ list kind keys ↔ ∃ key ∈ keys, fileId kind key.toList = some id := by
  rw [list, mem_mergeSort, mem_filterMap]

section Results

variable {s : ObjectStore ν} {n : ν} {pre : String}

theorem upToDate_of_ready (h : s.upToDate n pre = true) (hitem : (s.caches n).items pre = some item)
    (hready : item.ready = true) (hkey : key ∈ s.history.store) (hpre : hasPrefix key pre = true) :
    ∀ store ∈ s.history.since item.since, key ∈ store := by
  have hfilter : ((s.caches n).items pre).filter ObjectKeyCacheItem.ready = some item :=
    Option.filter_eq_some_iff.2 ⟨hitem, hready⟩
  rw [upToDate, hfilter, Option.all_some, all_eq_true] at h
  exact fun store hstore => of_decide_eq_true (h store hstore) key hkey hpre

theorem mem_result [DecidableEq ν] [DecidableEq τ] {node : τ → ν}
    (hinv : KeyCacheLemmas.KeyInv node c)
    (hshape : ClientShape node t x c.shared (c.threads t) s pc [e]) {keys : List String}
    (he : e.result = (pre, keys))
    (hcurrent : c.threads t = .idle → c.shared.upToDate (node t) pre = true) {key : String}
    (hpre : hasPrefix key pre = true)
    (hkept : ∀ store ∈ c.shared.history.since ((c.threads t).began c.shared.history), key ∈ store) :
    key ∈ keys := by
  have hcall := hinv.calls t
  generalize c.threads t = pc₀ at hshape hcall hcurrent hkept
  cases hshape with
  | @hit pre' item hitem hready =>
    obtain ⟨rfl, rfl⟩ := Prod.mk.inj he
    have hnow : key ∈ c.shared.history.store :=
      hkept _ (KeyCacheLemmas.store_mem_since le_rfl)
    obtain ⟨-, -, hseen, -⟩ := hinv.caches (node t) pre' item hitem
    obtain ⟨store, hstore, hiff⟩ := (hseen hready).seen key hpre
    exact hiff.2 (upToDate_of_ready (hcurrent rfl) hitem hready hnow hpre store hstore)
  | fill =>
    obtain ⟨rfl, rfl⟩ := Prod.mk.inj he
    obtain ⟨store, hstore, hiff⟩ := hcall.2.seen key hpre
    exact hiff.2 (hkept store hstore)

end Results

end DirectoryLemmas

open DirectoryLemmas

/-- In every run of the nodes on one object store, a `List` returns every snapshot that is in the
store from its start to its end, if no object has come under the prefix since the listing began
that it finds ready in the cache of its node. -/
theorem list_returns_snapshot [DecidableEq ν] [DecidableEq τ] {node : τ → ν}
    {store : Finset String} {c : Config (ObjectStore ν) ClientPc τ} {log : List (ClientEvent τ)}
    (hreach : Reach (step node) free (start store) c log) {t : τ}
    {x : ClientChoice} {s : ObjectStore ν} {pc : ClientPc} {e : ClientEvent τ}
    (hstep : step node t x c.shared (c.threads t) = some (s, pc, [e])) {pre : Key}
    (hpre : Clean pre) {keys : List String} (he : e.result = (listPrefix pre, keys))
    (hcurrent : c.threads t = .idle → c.shared.upToDate (node t) (listPrefix pre) = true)
    {id : Nat} (hid : id < 2 ^ 64)
    (hkept : ∀ store ∈ c.shared.history.since ((c.threads t).began c.shared.history),
      objectKey pre itemKindSnapshot id ∈ store) :
    id ∈ list itemKindSnapshot keys := by
  have hshape := KeyCacheLemmas.step_shape hstep
  have hmem := mem_result (KeyCacheLemmas.KeyInv.reach hreach) hshape he hcurrent
    (hasPrefix_objectKey hpre itemKindSnapshot id) hkept
  exact mem_list.2 ⟨_, hmem, fileId_objectKey hpre (by decide) (by decide) hid⟩

def shardDir : Key := [['i'], ['7', 'k'], ['0', '0', '0', '0', '0', '0']]

/-- The owner persists the snapshot 1, then the query node lists the directory. Each node has one
thread, and `true` is the owner. -/
def listedOnce : List (Bool × ClientChoice) :=
  [(true, .call (persist shardDir itemKindSnapshot 1)),
    (true, .effect (objectKey shardDir itemKindSnapshot 1)), (true, .proceed),
    (true, .proceed), (false, .call (.list (listPrefix shardDir))),
    (false, .answer [objectKey shardDir itemKindSnapshot 1]), (false, .proceed)]

def persistedNext : List (Bool × ClientChoice) :=
  [(true, .call (persist shardDir itemKindSnapshot 2)),
    (true, .effect (objectKey shardDir itemKindSnapshot 2)), (true, .proceed),
    (true, .proceed)]

theorem list_returns_snapshot_listedOnce :
    ∃ c s, ∃ log : List (ClientEvent Bool),
      run (step id) free listedOnce (start ∅) [] = some (c, log) ∧
      step id false (.call (.list (listPrefix shardDir))) c.shared
        (c.threads false) = some (s, .idle, [.hit false (listPrefix shardDir)
          [objectKey shardDir itemKindSnapshot 1]]) ∧
      1 ∈ list itemKindSnapshot [objectKey shardDir itemKindSnapshot 1] :=
  ⟨_, _, _, rfl, rfl, @list_returns_snapshot Bool Bool _ _ id ∅ _ _ ⟨listedOnce, rfl⟩ false
    (.call (.list (listPrefix shardDir))) _ .idle _ rfl shardDir
    ⟨by decide, by decide⟩ _ rfl (fun _ => by decide) 1 (by decide) (by decide)⟩

/-- The query node has listed the directory, then the owner persists another snapshot. The
next `List` of the query node does not return it, and the snapshot stays in the store. -/
theorem query_node_misses_snapshot :
    ∃ c s, ∃ log : List (ClientEvent Bool),
      run (step id) free (listedOnce ++ persistedNext) (start ∅) [] =
        some (c, log) ∧
      (∀ t, c.threads t = .idle) ∧
      objectKey shardDir itemKindSnapshot 2 ∈ c.shared.history.store ∧
      step id false (.call (.list (listPrefix shardDir))) c.shared
        (c.threads false) = some (s, .idle, [.hit false (listPrefix shardDir)
          [objectKey shardDir itemKindSnapshot 1]]) ∧
      2 ∉ list itemKindSnapshot [objectKey shardDir itemKindSnapshot 1] :=
  ⟨_, _, _, rfl, fun t => by cases t <;> rfl, by decide, rfl,
    fun hmem => absurd (mem_list.1 hmem) (by decide)⟩

end SeaSearch

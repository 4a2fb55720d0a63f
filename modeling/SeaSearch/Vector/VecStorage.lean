import SeaSearch.Storage.Directory

/-!
# The files of vector segments

A segment of a vector index writes its files below the store name of the index, in which the names
of the index and of the field may be replaced by hashes.
-/

namespace SeaSearch

open List DeleteIndexLemmas DirectoryLemmas

inductive VecStorage
  | disk (dataPath : Key)
  | object
  deriving DecidableEq

/-- `strconv.ParseInt` with base 16 and 64 bits. -/
def parseInt (s : List Char) : Option Int :=
  if s.head? = some '-' then
    ((Hex.parse s.tail).filter (· ≤ 2 ^ 63)).map fun n => -(n : Int)
  else
    ((Hex.parse (if s.head? = some '+' then s.tail else s)).filter (· < 2 ^ 63)).map Int.ofNat

namespace VecStorage

def fullPath : VecStorage → Key → Key
  | .disk dataPath, k => pathJoin (dataPath ++ k)
  | .object, k => k

/-- The file is found by `listDiskVecStoreSegments`, `listS3VecStoreSegments` or
`listOssVecStoreSegments`. What follows a folder in a path does not begin with `..`, unless the
path leaves the folder. -/
def lists (t : VecStorage) (pre k : Key) : Bool :=
  match t with
  | .disk _ =>
    (t.fullPath pre).isPrefixOf (t.fullPath k) &&
      ((t.fullPath k).drop (t.fullPath pre).length).head? != some dotdot
  | .object => (renderKey pre).isPrefixOf (renderKey k)

def isIndexFile (t : VecStorage) (k : Key) : Bool :=
  indexFile.isSuffixOf (renderKey (t.fullPath k))

def segmentId (t : VecStorage) (k : Key) : Option Int :=
  parseInt ((t.fullPath k).reverse[2]?.getD dot)

def collectIds (t : VecStorage) (ids : List Int) : List Key → Option (List Int)
  | [] => some ids
  | k :: ks =>
    if t.isIndexFile k then collectIds t ids ks
    else
      match t.segmentId k with
      | none => none
      | some id => collectIds t (ids.insert id) ks

/-- `ListVecSegments`; `pre` is the path below `VecPrefix`, and `keys` has all stored files. -/
def listVecSegments (t : VecStorage) (pre : Key) (keys : List Key) : Option (List Int) :=
  t.collectIds [] (keys.filter (t.lists pre))

def segmentFiles (t : VecStorage) (pre : Key) (keys : List Key) : List Key :=
  (keys.filter (t.lists pre)).filter fun k => !t.isIndexFile k

end VecStorage

open VecStorage (collectIds fullPath isIndexFile listVecSegments segmentFiles segmentId)

namespace StoredIndex

def vecName (x : StoredIndex) (f : VecField) : Key := pathJoin (x.name :: f.name.splitOn '/')

/-- The path below which `ListVecSegments` looks for the segments of a vector index. -/
def listName (x : StoredIndex) (f : VecField) : Key := pathJoin (vecPrefix :: x.vecName f)

variable (hash : List Char → List Char)

def segmentKey (x : StoredIndex) (f : VecField) (seg : Nat) (parts : List (List Char)) : Key :=
  pathJoin (vecPrefix :: x.vecStoreName hash f ++ hexDigits 4 seg :: parts)

/-- The key of a file of a vector segment other than its built index. -/
def StoredFile (x : StoredIndex) (f : VecField) (seg : Nat) (k : Key) : Prop :=
  ∃ file, Ordinary file ∧ ¬ indexFile <:+ file ∧ k = x.segmentKey hash f seg [storedVec, file]

def faissKey (x : StoredIndex) (f : VecField) (seg : Nat) : Key :=
  x.segmentKey hash f seg [faiss, indexFile]

end StoredIndex

namespace VecStorageLemmas

variable {t : VecStorage} {pre k : Key} {keys : List Key} {ids found : List Int} {id : Int}

theorem mem_segmentFiles : k ∈ t.segmentFiles pre keys ↔
    k ∈ keys ∧ t.lists pre k = true ∧ t.isIndexFile k = false := by
  rw [segmentFiles, mem_filter, mem_filter, Bool.not_eq_true', and_assoc]

theorem collectIds_eq (t : VecStorage) (ids : List Int) (ks : List Key) :
    t.collectIds ids ks = t.collectIds ids (ks.filter fun k => !t.isIndexFile k) := by
  induction ks generalizing ids with
  | nil => rfl
  | cons k ks ih =>
    cases hk : t.isIndexFile k with
    | true =>
      rw [collectIds, if_pos hk, filter_cons_of_neg (by simp [hk]), ih]
    | false =>
      rw [collectIds, filter_cons_of_pos (by simp [hk]), collectIds]
      simp only [hk, Bool.false_eq_true, if_false]
      split
      · rfl
      · exact ih _

theorem collectIds_iff (hks : ∀ k ∈ ks, t.isIndexFile k = false) :
    (∃ found, t.collectIds ids ks = some found) ↔ ∀ k ∈ ks, (t.segmentId k).isSome := by
  induction ks generalizing ids with
  | nil => simp [collectIds]
  | cons k ks ih =>
    have hk := hks k mem_cons_self
    rw [collectIds]
    simp only [hk, Bool.false_eq_true, if_false, forall_mem_cons]
    split
    · next hnone => simp [hnone]
    · next id hsome =>
      rw [ih fun k hk => hks k (mem_cons_of_mem _ hk), hsome]
      simp

theorem mem_collectIds (hks : ∀ k ∈ ks, t.isIndexFile k = false)
    (h : t.collectIds ids ks = some found) :
    id ∈ found ↔ id ∈ ids ∨ ∃ k ∈ ks, t.segmentId k = some id := by
  induction ks generalizing ids with
  | nil =>
    cases h
    simp
  | cons k ks ih =>
    have hk := hks k mem_cons_self
    rw [collectIds] at h
    simp only [hk, Bool.false_eq_true, if_false] at h
    split at h
    · cases h
    · next id' hsome =>
      rw [ih (fun k hk => hks k (mem_cons_of_mem _ hk)) h, mem_insert_iff,
        exists_mem_cons_iff, hsome, Option.some.injEq, or_assoc, or_left_comm, eq_comm]

theorem nodup_collectIds (hids : ids.Nodup) (h : t.collectIds ids ks = some found) :
    found.Nodup := by
  induction ks generalizing ids with
  | nil =>
    cases h
    exact hids
  | cons k ks ih =>
    rw [collectIds] at h
    split at h
    · exact ih hids h
    · split at h
      · cases h
      · exact ih hids.insert h

theorem not_isIndexFile_of_mem (hk : k ∈ t.segmentFiles pre keys) : t.isIndexFile k = false :=
  (mem_segmentFiles.1 hk).2.2

theorem isSome_listVecSegments : (∃ found, t.listVecSegments pre keys = some found) ↔
    ∀ k ∈ t.segmentFiles pre keys, (t.segmentId k).isSome := by
  rw [listVecSegments, collectIds_eq]
  exact collectIds_iff fun k hk => not_isIndexFile_of_mem hk

theorem mem_listVecSegments (h : t.listVecSegments pre keys = some found) :
    id ∈ found ↔ ∃ k ∈ t.segmentFiles pre keys, t.segmentId k = some id := by
  rw [listVecSegments, collectIds_eq] at h
  rw [mem_collectIds (fun k hk => not_isIndexFile_of_mem hk) h]
  simp [segmentFiles]

theorem nodup_listVecSegments (h : t.listVecSegments pre keys = some found) : found.Nodup :=
  nodup_collectIds nodup_nil h

variable {hash : List Char → List Char} {x : StoredIndex} {f : VecField} {seg : Nat}
  {parts : List (List Char)}

theorem pathJoin_append (a : List (List Char)) (h : ∀ p ∈ parts, Ordinary p) :
    pathJoin (a ++ parts) = pathJoin a ++ parts := by
  rw [pathJoin, foldl_append, foldl_pushPart h]
  rfl

theorem ordinary_hexDigits (n : Nat) : Ordinary (hexDigits 4 n) :=
  ordinary_of_length (le_trans (by decide) (hexDigits_length 4 n))

theorem fullPath_append (t : VecStorage) (a : Key) (h : ∀ p ∈ parts, Ordinary p) :
    t.fullPath (a ++ parts) = t.fullPath a ++ parts := by
  cases t with
  | disk dataPath =>
    rw [fullPath, ← append_assoc, pathJoin_append _ h]
    rfl
  | object => rfl

def storeFolder (hash : List Char → List Char) (x : StoredIndex) (f : VecField) : Key :=
  pathJoin (vecPrefix :: x.vecStoreName hash f)

theorem segmentKey_eq (h : ∀ p ∈ parts, Ordinary p) :
    x.segmentKey hash f seg parts = storeFolder hash x f ++ hexDigits 4 seg :: parts := by
  refine pathJoin_append _ fun p hp => ?_
  rcases mem_cons.1 hp with rfl | hp
  · exact ordinary_hexDigits seg
  · exact h p hp

theorem fullPath_segmentKey (t : VecStorage) (h : ∀ p ∈ parts, Ordinary p) :
    t.fullPath (x.segmentKey hash f seg parts) =
      t.fullPath (storeFolder hash x f) ++ hexDigits 4 seg :: parts := by
  rw [segmentKey_eq h]
  refine fullPath_append t _ fun p hp => ?_
  rcases mem_cons.1 hp with rfl | hp
  · exact ordinary_hexDigits seg
  · exact h p hp

theorem ordinary_stored (hfile : Ordinary file) : ∀ p ∈ [storedVec, file], Ordinary p := by
  simp only [forall_mem_cons, hfile, true_and]
  exact ⟨by decide, nofun⟩

theorem parseInt_hexDigits (hseg : seg < 2 ^ 63) :
    parseInt (hexDigits 4 seg) = some (seg : Int) := by
  have hhead : ∀ c, Hex.digitValue c = none → (hexDigits 4 seg).head? ≠ some c := by
    intro c hc h
    exact hexDigits_not_mem hc 4 seg (mem_of_mem_head? h)
  rw [parseInt, if_neg (hhead '-' rfl), if_neg (hhead '+' rfl), hexDigits, Hex.parse_leftpad,
    Option.filter_some, if_pos (by simpa using hseg)]
  rfl

theorem segmentId_stored (t : VecStorage) (hk : x.StoredFile hash f seg k) (hseg : seg < 2 ^ 63) :
    t.segmentId k = some (seg : Int) := by
  obtain ⟨file, hfile, -, rfl⟩ := hk
  rw [segmentId, fullPath_segmentKey t (ordinary_stored hfile)]
  simp [parseInt_hexDigits hseg]

theorem suffix_of_suffix_slash (ha : '/' ∉ a) (h : a <:+ b ++ '/' :: c) : a <:+ c := by
  rcases suffix_or_suffix_of_suffix h (suffix_append b ('/' :: c)) with h | h
  · rcases suffix_cons_iff.1 h with rfl | h
    · exact absurd mem_cons_self ha
    · exact h
  · exact absurd (h.subset mem_cons_self) ha

theorem renderKey_path (k : Key) (p q r : List Char) :
    renderKey (k ++ [p, q, r]) = renderKey (k ++ [p, q]) ++ '/' :: r := by
  rw [← renderKey_append (by simp) r, append_assoc]
  rfl

theorem isIndexFile_stored (t : VecStorage) (hk : x.StoredFile hash f seg k) :
    t.isIndexFile k = false := by
  obtain ⟨file, hfile, hsuffix, rfl⟩ := hk
  rw [isIndexFile, fullPath_segmentKey t (ordinary_stored hfile), renderKey_path,
    ← Bool.not_eq_true, isSuffixOf_iff_suffix]
  exact fun h => hsuffix (suffix_of_suffix_slash (by decide) h)

theorem isIndexFile_faissKey (t : VecStorage) (x : StoredIndex) (f : VecField) (seg : Nat) :
    t.isIndexFile (x.faissKey hash f seg) = true := by
  rw [isIndexFile, StoredIndex.faissKey, fullPath_segmentKey t (by decide),
    renderKey_path, isSuffixOf_iff_suffix]
  exact (suffix_cons '/' indexFile).trans (suffix_append ..)

end VecStorageLemmas

end SeaSearch

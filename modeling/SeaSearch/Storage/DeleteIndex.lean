import Mathlib

/-!
# Deleting an index from the object store

The objects of an index are found by their keys: `RemoveS3Index` lists the keys that start with the
store name of the index, and `s3Storage.Remove` those that start with the store name of a vector
index.
-/

namespace SeaSearch

open List

/-- The parts of a path between its slashes. Keys and local paths below the data path are
both given by these. -/
abbrev Key := List (List Char)

def dot : List Char := ['.']

def dotdot : List Char := ['.', '.']

def pushPart (k : Key) (p : List Char) : Key :=
  if p = [] ∨ p = dot then k
  else if p = dotdot then
    match k.getLast? with
    | some q => if q = dotdot then k ++ [p] else k.dropLast
    | none => [p]
  else k ++ [p]

/-- `path.Join`. -/
def pathJoin (parts : List (List Char)) : Key := parts.foldl pushPart []

def renderKey (k : Key) : List Char := if k = [] then dot else List.intercalate ['/'] k

/-- A number in hexadecimal with at least `width` digits. -/
def hexDigits (width n : Nat) : List Char := (Nat.toDigits 16 n).leftpad width '0'

/-- `fileName` of a directory. -/
def fileName (kind : List Char) (id : Nat) : List Char := hexDigits 12 id ++ kind

def vecPrefix : List Char := ['v', 'e', 'c', '_', 'i', 'n', 'd', 'e', 'x']

def storedVec : List Char := ['s', 't', 'o', 'r', 'e', 'd', '_', 'v', 'e', 'c']

def faiss : List Char := ['f', 'a', 'i', 's', 's']

def hnsw : List Char := ['h', 'n', 's', 'w']

/-- `getFileName` of a vector storage. -/
def indexFile : List Char := ['i', 'n', 'd', 'e', 'x', '.', 'i', 'n', 'd', 'e', 'x']

structure VecField where
  name : List Char
  storeWithHash : Bool
  deriving DecidableEq

/-- What is known of an index: `shards` has the id of the shard and the number of the second
shard. -/
structure StoredIndex where
  name : List Char
  storeWithHash : Bool
  shards : List (List Char × Nat)
  vecIndexes : List VecField
  deriving DecidableEq

section Names

variable (hash : List Char → List Char)

namespace StoredIndex

/-- The parts of the store name. `hash` is `GetHashEncode`. -/
def storeParts (x : StoredIndex) : List (List Char) :=
  if x.storeWithHash then pathJoin [(hash x.name).take 2, (hash x.name).drop 2] else [x.name]

/-- `GetStoreName`. -/
def storeName (x : StoredIndex) : List Char :=
  if x.storeWithHash then renderKey (x.storeParts hash) else x.name

/-- `getVecIndexStoreName`. -/
def vecStoreName (x : StoredIndex) (v : VecField) : Key :=
  pathJoin (x.storeParts hash ++
    if v.storeWithHash then [hash v.name] else v.name.splitOn '/')

def vecFolder (x : StoredIndex) : Key := pathJoin (vecPrefix :: x.storeParts hash)

/-- The object belongs to the index:
* `data`: a file of the directory of a second shard;
* `stored`: a file of the directory of a vector segment;
* `faissIndex`, `hnswIndex`: the file of a built vector index. -/
inductive Owns (x : StoredIndex) : Key → Prop
  | data {shard : List Char × Nat} (kind : List Char) (id : Nat) : shard ∈ x.shards →
      Owns x (pathJoin (x.storeParts hash ++ [shard.1, hexDigits 6 shard.2, fileName kind id]))
  | stored {v : VecField} (seg : Nat) (kind : List Char) (id : Nat) : v ∈ x.vecIndexes →
      Owns x (pathJoin (vecPrefix :: x.vecStoreName hash v ++
        [hexDigits 4 seg, storedVec, fileName kind id]))
  | faissIndex {v : VecField} (seg : Nat) : v ∈ x.vecIndexes →
      Owns x (pathJoin (vecPrefix :: x.vecStoreName hash v ++ [hexDigits 4 seg, faiss, indexFile]))
  | hnswIndex {v : VecField} : v ∈ x.vecIndexes →
      Owns x (pathJoin (vecPrefix :: x.vecStoreName hash v ++ [hexDigits 4 0, hnsw, indexFile]))

end StoredIndex

end Names

structure Objects where
  store : List Key
  cache : List Key
  deriving DecidableEq

/-- Which operations succeed: `ready` is that the index is found and, if it was open,
closed. -/
structure StoreEnv where
  ready : Bool
  list : List Char → Bool
  removeLocal : Key → Bool
  removeObject : Key → Bool
  removeFolder : Key → Bool

def ifOk (r : Objects × Bool) (next : Objects → Objects × Bool) : Objects × Bool :=
  if r.2 then next r.1 else r

def removeEach (ok : Key → Bool) : List Key → List Key → List Key × Bool
  | [], left => (left, true)
  | k :: ks, left => if ok k then removeEach ok ks (left.filter (· ≠ k)) else (left, false)

def removeLocals (env : StoreEnv) (ks : List Key) (s : Objects) : Objects × Bool :=
  let r := removeEach env.removeLocal ks s.cache
  (⟨s.store, r.1⟩, r.2)

def removeObjects (env : StoreEnv) (ks : List Key) (s : Objects) : Objects × Bool :=
  let r := removeEach env.removeObject ks s.store
  (⟨r.1, s.cache⟩, r.2)

/-- The keys that start with `p`. -/
def Objects.listing (s : Objects) (p : List Char) : List Key :=
  s.store.filter fun k => p.isPrefixOf (renderKey k)

/-- `RemoveS3Index` and `s3Storage.Remove`: the objects whose key starts with `p` are removed
from the local cache, then from the store. -/
def removePrefix (env : StoreEnv) (p : List Char) (s : Objects) : Objects × Bool :=
  if env.list p then
    ifOk (removeLocals env (s.listing p) s) (removeObjects env (s.listing p))
  else (s, false)

/-- The path lies in the folder. A path that starts with `..` is not below the data path. -/
def inFolder (folder k : Key) : Bool := folder.isPrefixOf k && k.head? != some dotdot

/-- `os.RemoveAll` of a local folder. When it fails, it may have removed a part of it. -/
def removeFolder (env : StoreEnv) (folder : Key) (s : Objects) : Objects × Bool :=
  (⟨s.store, s.cache.filter fun k =>
    !(inFolder folder k && (env.removeFolder folder || env.removeLocal k))⟩,
    env.removeFolder folder)

def removeVecIndexes (env : StoreEnv) (hash : List Char → List Char) (x : StoredIndex) :
    List VecField → Objects → Objects × Bool
  | [], s => (s, true)
  | v :: vs, s =>
    ifOk (removePrefix env (renderKey (pathJoin (vecPrefix :: x.vecStoreName hash v))) s)
      (removeVecIndexes env hash x vs)

/-- `deleteIndex`, up to the removal of the metadata. -/
def deleteIndex (env : StoreEnv) (hash : List Char → List Char) (x : StoredIndex)
    (order : List VecField) (s : Objects) : Objects × Bool :=
  if env.ready then
    ifOk (ifOk (removeVecIndexes env hash x order s) (removeFolder env (x.vecFolder hash)))
      (removePrefix env (x.storeName hash))
  else (s, false)

def StoredIndex.Lists (hash : List Char → List Char) (x : StoredIndex) (k : Key) : Prop :=
  (x.storeName hash).isPrefixOf (renderKey k) = true ∨
    ∃ v ∈ x.vecIndexes,
      (renderKey (pathJoin (vecPrefix :: x.vecStoreName hash v))).isPrefixOf (renderKey k) = true

structure Removes (listed inLocal : Key → Prop) (s s' : Objects) : Prop where
  store_le : ∀ k ∈ s'.store, k ∈ s.store
  cache_le : ∀ k ∈ s'.cache, k ∈ s.cache
  store : ∀ k ∈ s.store, ¬ listed k → k ∈ s'.store
  cache : ∀ k ∈ s.cache, (k ∈ s.store → ¬ listed k) → ¬ inLocal k → k ∈ s'.cache

namespace Removes

variable {P Q : Key → Prop} {s₁ s₂ s₃ : Objects}

theorem refl (s : Objects) : Removes P Q s s :=
  ⟨fun _ h => h, fun _ h => h, fun _ h _ => h, fun _ h _ _ => h⟩

theorem trans (h : Removes P Q s₁ s₂) (h' : Removes P Q s₂ s₃) : Removes P Q s₁ s₃ := by
  refine ⟨?_, ?_, ?_, ?_⟩
  · exact fun k hk => h.store_le k (h'.store_le k hk)
  · exact fun k hk => h.cache_le k (h'.cache_le k hk)
  · exact fun k hk hn => h'.store k (h.store k hk hn) hn
  · intro k hk hn hl
    exact h'.cache k (h.cache k hk hn hl) (fun hs => hn (h.store_le k hs)) hl

theorem ifOk {r : Objects × Bool} {next : Objects → Objects × Bool} (h : Removes P Q s₁ r.1)
    (hnext : ∀ s, Removes P Q s (next s).1) : Removes P Q s₁ (SeaSearch.ifOk r next).1 := by
  rw [SeaSearch.ifOk]
  split
  · exact h.trans (hnext r.1)
  · exact h

end Removes

namespace DeleteIndexLemmas

theorem removeEach_le (ok : Key → Bool) (ks left : List Key) :
    ∀ k ∈ (removeEach ok ks left).1, k ∈ left := by
  induction ks generalizing left with
  | nil => exact fun k hk => hk
  | cons a ks ih =>
    rw [removeEach]
    split
    · exact fun k hk => mem_of_mem_filter (ih _ k hk)
    · exact fun k hk => hk

theorem removeEach_keeps (hk : k ∈ left) (hn : k ∉ ks) : k ∈ (removeEach ok ks left).1 := by
  induction ks generalizing left with
  | nil => exact hk
  | cons a ks ih =>
    rw [removeEach]
    split
    · refine ih ?_ fun hmem => hn (mem_cons_of_mem a hmem)
      have hne : k ≠ a := fun heq => hn (heq ▸ mem_cons_self)
      simp [hk, hne]
    · exact hk

theorem removeEach_done {ok : Key → Bool} {ks left : List Key} {k : Key}
    (h : (removeEach ok ks left).2 = true) (hk : k ∈ ks) : k ∉ (removeEach ok ks left).1 := by
  induction ks generalizing left with
  | nil => cases hk
  | cons a ks ih =>
    rw [removeEach] at h ⊢
    split at h
    case isFalse => cases h
    case isTrue ha =>
      rw [if_pos ha]
      rcases mem_cons.1 hk with rfl | hmem
      · intro hin
        have hleft := removeEach_le ok ks _ k hin
        simp at hleft
      · exact ih h hmem

theorem mem_listing {s : Objects} {p : List Char} {k : Key} :
    k ∈ s.listing p ↔ k ∈ s.store ∧ p.isPrefixOf (renderKey k) = true := by
  simp [Objects.listing]

section Removes

variable {P Q : Key → Prop} (env : StoreEnv)

theorem removeLocals_removes (h : ∀ k ∈ ks, k ∈ s.store ∧ P k) :
    Removes P Q s (removeLocals env ks s).1 := by
  refine ⟨fun _ hk => hk, removeEach_le _ _ _, fun _ hk _ => hk, ?_⟩
  intro k hk hn _
  exact removeEach_keeps hk fun hmem => hn (h k hmem).1 (h k hmem).2

theorem removeObjects_removes (h : ∀ k ∈ ks, P k) (s : Objects) :
    Removes P Q s (removeObjects env ks s).1 := by
  refine ⟨removeEach_le _ _ _, fun _ hk => hk, ?_, fun _ hk _ _ => hk⟩
  exact fun k hk hn => removeEach_keeps hk fun hmem => hn (h k hmem)

theorem removePrefix_removes {p : List Char}
    (hp : ∀ k, p.isPrefixOf (renderKey k) = true → P k) (s : Objects) :
    Removes P Q s (removePrefix env p s).1 := by
  have hlisted : ∀ k ∈ s.listing p, k ∈ s.store ∧ P k := by
    intro k hk
    obtain ⟨hstore, hpre⟩ := mem_listing.1 hk
    exact ⟨hstore, hp k hpre⟩
  rw [removePrefix]
  split
  · exact (removeLocals_removes env hlisted).ifOk
      (removeObjects_removes env fun k hk => (hlisted k hk).2)
  · exact .refl s

theorem removeFolder_removes {folder : Key} (hq : ∀ k, inFolder folder k = true → Q k)
    (s : Objects) : Removes P Q s (removeFolder env folder s).1 := by
  refine ⟨fun _ hk => hk, fun _ hk => mem_of_mem_filter hk, fun _ hk _ => hk, ?_⟩
  intro k hk _ hn
  have hout : inFolder folder k = false := by
    rw [← Bool.not_eq_true]
    exact fun hin => hn (hq k hin)
  exact mem_filter.2 ⟨hk, by simp [hout]⟩

theorem removeVecIndexes_removes {hash : List Char → List Char} {x : StoredIndex}
    {vs : List VecField} (hp : ∀ v ∈ vs, ∀ k,
      (renderKey (pathJoin (vecPrefix :: x.vecStoreName hash v))).isPrefixOf (renderKey k) = true →
      P k) (s : Objects) :
    Removes P Q s (removeVecIndexes env hash x vs s).1 := by
  induction vs generalizing s with
  | nil => exact .refl s
  | cons v vs ih =>
    exact (removePrefix_removes env (hp v mem_cons_self) s).ifOk
      (ih fun w hw => hp w (mem_cons_of_mem v hw))

theorem delete_removes (hash : List Char → List Char) (horder : order.Perm x.vecIndexes)
    (s : Objects) :
    Removes (x.Lists hash) (fun k => inFolder (x.vecFolder hash) k = true) s
      (deleteIndex env hash x order s).1 := by
  rw [deleteIndex]
  split
  · refine Removes.ifOk (Removes.ifOk ?_ ?_) ?_
    · exact removeVecIndexes_removes env (fun v hv k hk => .inr ⟨v, horder.mem_iff.1 hv, hk⟩) s
    · exact removeFolder_removes env fun _ hk => hk
    · exact removePrefix_removes env fun k hk => .inl hk
  · exact .refl s

end Removes

def allOk : StoreEnv := ⟨true, fun _ => true, fun _ => true, fun _ => true, fun _ => true⟩

theorem removeEach_allOk {ok : Key → Bool} (hok : ∀ k, ok k = true) (ks left : List Key) :
    (removeEach ok ks left).2 = true := by
  induction ks generalizing left with
  | nil => rfl
  | cons a ks ih =>
    rw [removeEach, if_pos (hok a)]
    exact ih _

theorem ifOk_of_ok {r : Objects × Bool} {next : Objects → Objects × Bool} (h : r.2 = true) :
    ifOk r next = next r.1 := if_pos h

theorem removePrefix_allOk (p : List Char) (s : Objects) :
    (removePrefix allOk p s).2 = true ∧
      ∀ k, p.isPrefixOf (renderKey k) = true → k ∉ (removePrefix allOk p s).1.store := by
  have hlocal : (removeLocals allOk (s.listing p) s).2 = true := removeEach_allOk (fun _ => rfl) _ _
  have hobjects : (removeEach allOk.removeObject (s.listing p) s.store).2 = true :=
    removeEach_allOk (fun _ => rfl) _ _
  have heq : removePrefix allOk p s = removeObjects allOk (s.listing p)
      (removeLocals allOk (s.listing p) s).1 := ifOk_of_ok hlocal
  rw [heq]
  refine ⟨hobjects, ?_⟩
  intro k hp hk
  have hmem : k ∈ s.store := removeEach_le _ _ _ k hk
  exact removeEach_done hobjects (mem_listing.2 ⟨hmem, hp⟩) hk

theorem removeVecIndexes_allOk (hash : List Char → List Char) (x : StoredIndex)
    (vs : List VecField) (s : Objects) :
    (removeVecIndexes allOk hash x vs s).2 = true ∧ ∀ v ∈ vs, ∀ k,
      (renderKey (pathJoin (vecPrefix :: x.vecStoreName hash v))).isPrefixOf (renderKey k) = true →
      k ∉ (removeVecIndexes allOk hash x vs s).1.store := by
  induction vs generalizing s with
  | nil => exact ⟨rfl, nofun⟩
  | cons v vs ih =>
    obtain ⟨hok, hfirst⟩ :=
      removePrefix_allOk (renderKey (pathJoin (vecPrefix :: x.vecStoreName hash v))) s
    rw [removeVecIndexes, ifOk_of_ok hok]
    obtain ⟨hrest, hdone⟩ := ih (removePrefix allOk
      (renderKey (pathJoin (vecPrefix :: x.vecStoreName hash v))) s).1
    refine ⟨hrest, ?_⟩
    intro w hw k hk hmem
    rcases mem_cons.1 hw with rfl | hw
    · have hle := (removeVecIndexes_removes (P := fun _ => True) (Q := fun _ => True) allOk
        (fun _ _ _ _ => trivial) _).store_le k hmem
      exact hfirst k hk hle
    · exact hdone w hw k hk hmem

theorem delete_done (hash : List Char → List Char) (horder : order.Perm x.vecIndexes)
    (s : Objects) (k : Key) :
    (x.Lists hash k → k ∉ (deleteIndex allOk hash x order s).1.store) ∧
      (inFolder (x.vecFolder hash) k = true → k ∉ (deleteIndex allOk hash x order s).1.cache) := by
  obtain ⟨hvec, hdone⟩ := removeVecIndexes_allOk hash x order s
  have heq : deleteIndex allOk hash x order s = removePrefix allOk (x.storeName hash)
      (removeFolder allOk (x.vecFolder hash) (removeVecIndexes allOk hash x order s).1).1 := by
    rw [deleteIndex, if_pos (show allOk.ready = true from rfl), ifOk_of_ok hvec]
    exact ifOk_of_ok rfl
  have hlast := removePrefix_removes (P := fun _ => True) (Q := fun _ => True) allOk
    (p := x.storeName hash) (fun _ _ => trivial)
    (removeFolder allOk (x.vecFolder hash) (removeVecIndexes allOk hash x order s).1).1
  rw [heq]
  constructor
  · rintro (hp | ⟨v, hv, hp⟩) hk
    · exact (removePrefix_allOk _ _).2 k hp hk
    · exact hdone v (horder.mem_iff.2 hv) k hp (hlast.store_le k hk)
  · intro hin hk
    have hfolder := of_mem_filter (hlast.cache_le k hk)
    simp [hin, allOk] at hfolder

end DeleteIndexLemmas

/-- Each object, stored or cached, belongs to one of the indexes. -/
def OfIndexes (hash : List Char → List Char) (xs : List StoredIndex) (s : Objects) : Prop :=
  ∀ k, k ∈ s.store ∨ k ∈ s.cache → ∃ x ∈ xs, x.Owns hash k

/-- What is removed belongs to the index `x` and to no other. -/
def OnlyOwn (hash : List Char → List Char) (xs : List StoredIndex) (x : StoredIndex)
    (s s' : Objects) : Prop :=
  ∀ k, (k ∈ s.store ∧ k ∉ s'.store) ∨ (k ∈ s.cache ∧ k ∉ s'.cache) →
    x.Owns hash k ∧ ∀ y ∈ xs, y ≠ x → ¬ y.Owns hash k

/-- No object of another index is listed by a deletion of `x`, and no local file of another
index lies in the vector folder of `x`. -/
def Apart (hash : List Char → List Char) (xs : List StoredIndex) (x : StoredIndex)
    (s : Objects) : Prop :=
  ∀ y ∈ xs, y ≠ x → ∀ k, y.Owns hash k →
    (k ∈ s.store → ¬ x.Lists hash k) ∧ (k ∈ s.cache → ¬ inFolder (x.vecFolder hash) k = true)

open DeleteIndexLemmas

/-- A deletion removes only objects of its index, whichever of its operations fail and in
whichever order it goes through the vector indexes, if and only if it lists no object of
another index and its vector folder has no file of another index. -/
theorem only_own_iff {hash : List Char → List Char} {xs : List StoredIndex} {x : StoredIndex}
    {s : Objects} (hs : OfIndexes hash xs s) :
    (∀ env order, order.Perm x.vecIndexes →
      OnlyOwn hash xs x s (deleteIndex env hash x order s).1) ↔ Apart hash xs x s := by
  constructor
  · intro h y hy hne k hk
    have hown := h allOk x.vecIndexes (.refl _)
    have hdone := delete_done hash (List.Perm.refl x.vecIndexes) s k
    constructor
    · intro hstore hl
      exact (hown k (.inl ⟨hstore, hdone.1 hl⟩)).2 y hy hne hk
    · intro hcache hin
      exact (hown k (.inr ⟨hcache, hdone.2 hin⟩)).2 y hy hne hk
  · intro h env order horder k hk
    have hrem := delete_removes env hash horder s
    have hother : ∀ y ∈ xs, y ≠ x → ¬ y.Owns hash k := by
      intro y hy hne howns
      obtain ⟨hstore, hcache⟩ := h y hy hne k howns
      rcases hk with ⟨hin, hout⟩ | ⟨hin, hout⟩
      · exact hout (hrem.store k hin (hstore hin))
      · exact hout (hrem.cache k hin hstore (hcache hin))
    obtain ⟨y, hy, howns⟩ := hs k (hk.imp And.left And.left)
    refine ⟨?_, hother⟩
    by_cases hyx : y = x
    · exact hyx ▸ howns
    · exact absurd howns (hother y hy hyx)

namespace DeleteIndexLemmas

def Ordinary (p : List Char) : Prop := p ≠ [] ∧ p ≠ dot ∧ p ≠ dotdot

instance : DecidablePred Ordinary := fun p =>
  inferInstanceAs (Decidable (p ≠ [] ∧ p ≠ dot ∧ p ≠ dotdot))

theorem foldl_pushPart (h : ∀ p ∈ parts, Ordinary p) (k : Key) :
    parts.foldl pushPart k = k ++ parts := by
  induction parts generalizing k with
  | nil => simp
  | cons p parts ih =>
    obtain ⟨hnil, hdot, hdotdot⟩ := h p mem_cons_self
    have hpush : pushPart k p = k ++ [p] := by simp [pushPart, hnil, hdot, hdotdot]
    rw [foldl_cons, hpush, ih fun q hq => h q (mem_cons_of_mem p hq)]
    simp

theorem pathJoin_ordinary (h : ∀ p ∈ parts, Ordinary p) : pathJoin parts = parts := by
  rw [pathJoin, foldl_pushPart h, nil_append]

theorem renderKey_cons (p q : List Char) (k : Key) :
    renderKey (p :: q :: k) = p ++ '/' :: renderKey (q :: k) := by
  simp [renderKey, List.intercalate]

theorem ordinary_of_length (h : 3 ≤ p.length) : Ordinary p := by
  refine ⟨?_, ?_, ?_⟩ <;> rintro rfl <;> simp [dot, dotdot] at h

theorem hexDigits_length (width n : Nat) : width ≤ (hexDigits width n).length := by
  rw [hexDigits, length_leftpad]
  exact le_max_left _ _

theorem ordinary_fileName (kind : List Char) (id : Nat) : Ordinary (fileName kind id) := by
  refine ordinary_of_length ?_
  have hlen := hexDigits_length 12 id
  rw [fileName, length_append]
  omega

theorem data_key {hash : List Char → List Char} {y : StoredIndex} {shard : List Char × Nat}
    (hy : y.storeWithHash = false) (hname : Ordinary y.name) (hshard : Ordinary shard.1)
    (kind : List Char) (id : Nat) :
    pathJoin (y.storeParts hash ++ [shard.1, hexDigits 6 shard.2, fileName kind id]) =
      [y.name, shard.1, hexDigits 6 shard.2, fileName kind id] := by
  have hparts : y.storeParts hash = [y.name] := by simp [StoredIndex.storeParts, hy]
  rw [hparts]
  refine pathJoin_ordinary ?_
  have hhex : Ordinary (hexDigits 6 shard.2) :=
    ordinary_of_length (le_trans (by decide) (hexDigits_length 6 shard.2))
  simp [hname, hshard, hhex, ordinary_fileName]

end DeleteIndexLemmas

def plainIndex (name : List Char) : StoredIndex := ⟨name, false, [(['7', 'k'], 0)], []⟩

def plainFile (name : List Char) : Key :=
  pathJoin ((plainIndex name).storeParts id ++
    [['7', 'k'], hexDigits 6 0, fileName ['.', 's', 'e', 'g'] 1])

namespace DeleteIndexLemmas

theorem plain_owns (name : List Char) : (plainIndex name).Owns id (plainFile name) := by
  have hshard : (['7', 'k'], 0) ∈ (plainIndex name).shards := mem_cons_self
  exact .data ['.', 's', 'e', 'g'] 1 hshard

theorem head_of_plain_owns {name : List Char} (h : Ordinary name) {k : Key}
    (hk : (plainIndex name).Owns id k) : k.head? = some name := by
  cases hk with
  | data kind n hshard =>
    obtain rfl := mem_singleton.1 hshard
    rw [data_key rfl h (by decide)]
    rfl
  | stored seg kind n hv | faissIndex seg hv | hnswIndex hv => cases hv

end DeleteIndexLemmas

/-- The indexes `a` and `b` with one file each. That of `b` is also in the local cache. -/
def twoFiles : Objects := ⟨[plainFile ['a'], plainFile ['b']], [plainFile ['b']]⟩

theorem only_own_iff_twoFiles :
    OfIndexes id [plainIndex ['a'], plainIndex ['b']] twoFiles ∧
      ∀ env order, order.Perm [] →
        OnlyOwn id [plainIndex ['a'], plainIndex ['b']] (plainIndex ['a']) twoFiles
          (deleteIndex env id (plainIndex ['a']) order twoFiles).1 := by
  have hof : OfIndexes id [plainIndex ['a'], plainIndex ['b']] twoFiles := by
    intro k hk
    have hfile : k = plainFile ['a'] ∨ k = plainFile ['b'] := by simpa [twoFiles, or_assoc] using hk
    rcases hfile with rfl | rfl
    · exact ⟨_, by simp, plain_owns ['a']⟩
    · exact ⟨_, by simp, plain_owns ['b']⟩
  refine ⟨hof, (only_own_iff (x := plainIndex ['a']) hof).2 ?_⟩
  intro y hy hne k hk
  obtain rfl : y = plainIndex ['b'] := by simpa [hne] using hy
  have hhead := head_of_plain_owns (by decide) hk
  constructor
  · intro hstore hl
    have hfile : k = plainFile ['a'] ∨ k = plainFile ['b'] := by simpa [twoFiles] using hstore
    rcases hfile with rfl | rfl
    · revert hhead
      decide
    · rcases hl with hp | ⟨v, hv, -⟩
      · revert hp
        decide
      · cases hv
  · intro hcache
    obtain rfl : k = plainFile ['b'] := by simpa [twoFiles] using hcache
    decide

/-- Deleting the index `a` removes the files of the index `ab`. -/
theorem other_removed :
    (plainIndex ['a', 'b']).Owns id (plainFile ['a', 'b']) ∧
      (deleteIndex allOk id (plainIndex ['a']) []
        ⟨[plainFile ['a'], plainFile ['a', 'b']], [plainFile ['a', 'b']]⟩) = (⟨[], []⟩, true) :=
  ⟨plain_owns _, by decide⟩

end SeaSearch

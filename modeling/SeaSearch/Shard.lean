import SeaSearch.Bluge

/-!
# First-layer and second-layer shards

An `IndexShard` is a first-layer shard. It stores nothing itself: documents go to its second-layer
shards, of which the last one takes the new documents.
-/

namespace SeaSearch

open List KeyedBag

variable {σ ν : Type}

/-- `ShardIDNeedLatest`: the entry goes to the latest second-layer shard. -/
def shardIDNeedLatest : Int := -1

structure Stats where
  docTimeMin : Int := 0
  docTimeMax : Int := 0
  deriving DecidableEq, Repr

/-- The time range after `SetTimestamp`. -/
def Stats.record (r : Stats) (t : Int) : Stats :=
  if r.docTimeMin = 0 then ⟨t, t⟩
  else if t < r.docTimeMin then { r with docTimeMin := t }
  else if t > r.docTimeMax then { r with docTimeMax := t }
  else r

structure IndexSecondShard (B : Bluge σ) where
  index : B.Index
  stats : Stats := {}

structure IndexShard (B : Bluge σ) where
  stats : Stats := {}
  shards : List (IndexSecondShard B)
  nonempty : shards ≠ []

/-- What writing to a shard does, one durable or visible step at a time:
* `setTimestamp`: `SetTimestamp` while a document is built;
* `commit`: `Writer.Batch` on a second-layer shard, for the documents of a
  shard group;
* `vectors`: `Batch` on the vector index of a field (its inserts and deletes). -/
inductive Effect (σ ν : Type)
  | setTimestamp (t : Int)
  | commit (group : Int) (shard : Nat) (batch : Batch σ)
  | vectors (field : String) (inserts : List (DocID × ν)) (deletes : List DocID)

abbrev Effects (σ ν : Type) := List (Effect σ ν)

namespace IndexShard

variable {B : Bluge σ}

def new (B : Bluge σ) : IndexShard B := { shards := [{ index := B.new }], nonempty := by simp }

/-- `GetShardNum`. -/
def shardNum (s : IndexShard B) : Nat := s.shards.length

/-- `GetLatestShardID`. -/
def latestShardID (s : IndexShard B) : Int := (s.shardNum : Int) - 1

def setTimestamp (s : IndexShard B) (t : Int) : IndexShard B :=
  { s with stats := s.stats.record t }

def publish (s : IndexShard B) : List (IndexSecondShard B) :=
  s.shards.modify (s.shardNum - 1) fun sh => { sh with stats := s.stats }

def newShard (s : IndexShard B) : IndexShard B :=
  { stats := {}, shards := s.publish ++ [{ index := B.new }], nonempty := by simp }

/-- `UpdateMetadataByShard`, without the document numbers and sizes. -/
def updateMetadataByShard (s : IndexShard B) : IndexShard B :=
  { s with shards := s.publish, nonempty := by simp [publish, s.nonempty] }

/-- `Writer.Batch` on one second-layer shard. -/
def commit (s : IndexShard B) (k : Nat) (b : Batch σ) : IndexShard B :=
  { s with
    shards := s.shards.modify k fun sh => { sh with index := B.commit sh.index b }
    nonempty := by simp [s.nonempty] }

def runEffect (s : IndexShard B) : Effect σ ν → IndexShard B
  | .setTimestamp t => s.setTimestamp t
  | .commit _ k b => s.commit k b
  | .vectors _ _ _ => s

def runEffects (s : IndexShard B) (es : Effects σ ν) : IndexShard B :=
  es.foldl runEffect s

def docs (s : IndexShard B) : List (Docs σ) :=
  s.shards.map fun sh => B.live sh.index

/-- The live documents with a given id in the second-layer shard `k`. -/
def versions (s : IndexShard B) (k : Nat) (id : DocID) : Docs σ :=
  ((s.shards[k]?).map fun sh => B.versions sh.index id).getD 0

variable (s : IndexShard B)

@[simp] theorem runEffects_nil :
    s.runEffects ([] : Effects σ ν) = s := rfl

@[simp] theorem runEffects_cons (e : Effect σ ν) (es : Effects σ ν) :
    s.runEffects (e :: es) = (s.runEffect e).runEffects es := rfl

theorem runEffects_append (es es' : Effects σ ν) :
    s.runEffects (es ++ es') = (s.runEffects es).runEffects es' := by
  simp [runEffects]

theorem shardNum_pos : 0 < s.shardNum :=
  length_pos_of_ne_nil s.nonempty

@[simp] theorem shards_setTimestamp (t : Int) :
    (s.setTimestamp t).shards = s.shards := rfl

@[simp] theorem shardNum_setTimestamp (t : Int) :
    (s.setTimestamp t).shardNum = s.shardNum := by
  simp [shardNum]

@[simp] theorem shardNum_commit (k : Nat) (b : Batch σ) :
    (s.commit k b).shardNum = s.shardNum := by
  simp [shardNum, commit]

@[simp] theorem shardNum_newShard :
    s.newShard.shardNum = s.shardNum + 1 := by
  simp [shardNum, newShard, publish]

@[simp] theorem shardNum_updateMetadataByShard :
    s.updateMetadataByShard.shardNum = s.shardNum := by
  simp [shardNum, updateMetadataByShard, publish]

@[simp] theorem shardNum_runEffect (e : Effect σ ν) :
    (s.runEffect e).shardNum = s.shardNum := by
  cases e <;> simp [runEffect]

@[simp] theorem shardNum_runEffects (es : Effects σ ν) :
    (s.runEffects es).shardNum = s.shardNum := by
  induction es generalizing s with
  | nil => rfl
  | cons e es ih => simp [ih]

@[simp] theorem length_docs : s.docs.length = s.shardNum := by
  simp [docs, shardNum]

theorem versions_of_le (h : s.shardNum ≤ k) (id : DocID) :
    s.versions k id = 0 := by
  simp [versions, List.getElem?_eq_none (show s.shards.length ≤ k from h)]

theorem docs_ext {s t : IndexShard B} (hn : s.shardNum = t.shardNum) :
    s.docs = t.docs ↔ ∀ k id, s.versions k id = t.versions k id := by
  have hget (u : IndexShard B) (k : Nat) (id : DocID) :
      u.versions k id = ((u.docs[k]?).map fun m => m.filter fun d => d.id = id).getD 0 := by
    simp only [versions, docs, List.getElem?_map, Option.map_map]
    rfl
  constructor
  · intro h k id
    rw [hget, hget, h]
  · intro h
    refine ext_getElem (by simp [hn]) fun k hk hk' => ?_
    refine bag_ext_by_key Document.id fun id => ?_
    have hv := h k id
    rw [hget, hget, List.getElem?_eq_getElem hk, List.getElem?_eq_getElem hk'] at hv
    simpa using hv

@[simp] theorem versions_setTimestamp (t : Int) (k : Nat) (id : DocID) :
    (s.setTimestamp t).versions k id = s.versions k id := by
  simp [versions]

theorem versions_commit_self (hk : k < s.shardNum) (b : Batch σ) (id : DocID) :
    (s.commit k b).versions k id = b.write id (s.versions k id) := by
  have hk' : k < s.shards.length := hk
  simp [versions, commit, List.getElem?_eq_getElem hk', B.versions_commit]

theorem versions_commit_ne (hjk : j ≠ k) (b : Batch σ) (id : DocID) :
    (s.commit j b).versions k id = s.versions k id := by
  simp [versions, commit, hjk]

theorem versions_runEffects_other (h : ∀ g b, Effect.commit g k b ∉ es) (id : DocID) :
    (s.runEffects es).versions k id = s.versions k id := by
  induction es generalizing s with
  | nil => rfl
  | cons e es ih =>
    have hes : ∀ g b, Effect.commit g k b ∉ es := fun g b hb => h g b (mem_cons_of_mem _ hb)
    rw [runEffects_cons, ih _ hes]
    cases e with
    | setTimestamp t => exact versions_setTimestamp s t k id
    | commit g j b =>
      have hjk : j ≠ k := fun hj => h g b (hj ▸ mem_cons_self)
      exact versions_commit_ne s hjk b id
    | vectors f ins dels => rfl

theorem versions_commits (g : Int) (b : Batch σ) {l : List Nat} (hnd : l.Nodup)
    (hlt : ∀ k ∈ l, k < s.shardNum) (j : Nat) (id : DocID) :
    (s.runEffects (l.map fun k => (Effect.commit g k b : Effect σ ν))).versions j id =
      if j ∈ l then b.write id (s.versions j id) else s.versions j id := by
  induction l generalizing s with
  | nil => simp
  | cons k l ih =>
    obtain ⟨hk, hl⟩ := nodup_cons.mp hnd
    rw [map_cons, runEffects_cons]
    show ((s.commit k b).runEffects _).versions j id = _
    rw [ih (s.commit k b) hl fun i hi => by simpa using hlt i (mem_cons_of_mem _ hi)]
    by_cases hjk : j = k
    · subst hjk
      simp [hk, versions_commit_self s (hlt j mem_cons_self)]
    · simp [hjk, versions_commit_ne s (Ne.symm hjk)]

theorem versions_publish (k : Nat) (id : DocID) :
    ((s.publish[k]?).map fun sh => B.versions sh.index id).getD 0 = s.versions k id := by
  simp only [versions, publish, List.getElem?_modify]
  cases s.shards[k]? with
  | none => rfl
  | some sh => by_cases hk : s.shardNum - 1 = k <;> simp [hk]

@[simp] theorem versions_updateMetadataByShard (k : Nat) (id : DocID) :
    s.updateMetadataByShard.versions k id = s.versions k id :=
  versions_publish s k id

theorem getD_newShard {β : Type*} (k : Nat) {g : IndexSecondShard B → β} {d : β}
    (hd : g { index := B.new } = d) :
    ((s.newShard.shards[k]?).map g).getD d = ((s.publish[k]?).map g).getD d := by
  simp only [newShard]
  rcases lt_or_ge k s.publish.length with hk | hk
  · rw [List.getElem?_append_left hk]
  · rw [List.getElem?_append_right hk, List.getElem?_eq_none hk]
    rcases Nat.eq_zero_or_pos (k - s.publish.length) with h0 | h0
    · simp [h0, hd]
    · rw [List.getElem?_eq_none (show _ ≤ _ from h0)]

@[simp] theorem versions_newShard (k : Nat) (id : DocID) :
    s.newShard.versions k id = s.versions k id := by
  rw [← versions_publish s k id]
  exact getD_newShard s k (B.versions_new id)

end IndexShard

end SeaSearch

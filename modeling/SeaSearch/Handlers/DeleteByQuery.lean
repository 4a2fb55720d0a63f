import Mathlib

/-!
# Delete by query

`DeleteByQuery` searches, and deletes the documents of the page that it gets. With a write-ahead log
it queues each delete; without, `DeleteDocuments` applies them shard by shard.
-/

namespace SeaSearch

open List

/-- What `FindShardByDocID` says. -/
inductive ShardLookup
  | found
  | missing
  | failed
  deriving DecidableEq

/-- What the deletes meet: which hits `IndexMgr.Get` and `DeleteDocument` queue, and without a
write-ahead log the index and its shards. `CommitOperations` of a shard may fail after it has
deleted some of its documents; if it does not fail then it has deleted all that are found. -/
structure DeleteEnv where
  enableWal : Bool
  queues : String → Bool
  getIndex : Bool
  vectors : Bool
  find : String → ShardLookup
  shardOf : String → String
  commits : String → Bool
  deletes : String → Bool
  deletes_of_commits : ∀ id, commits (shardOf id) → find id = .found → deletes id

namespace DeleteEnv

variable (env : DeleteEnv)

/-- `DeleteDocuments`: whether it succeeds, and the documents that are deleted. A document that is
not found has an operation only for its vectors. -/
def deleteDocuments (ids : List String) : Bool × List String :=
  if ids.any fun id => env.find id = .failed then (false, [])
  else
    (ids.all fun id => (env.find id = .missing && !env.vectors) || env.commits (env.shardOf id),
      ids.filter fun id => env.find id = .found && env.deletes id)

/-- The failures of `DeleteByQuery` and the documents whose deletes it performed or queued. -/
def deleteHits (ids : List String) : List String × List String :=
  if env.enableWal then (ids.filter fun id => !env.queues id, ids.filter env.queues)
  else if env.getIndex then
    (if (env.deleteDocuments ids).1 then [] else ids, (env.deleteDocuments ids).2)
  else (ids, [])

/-- `Deleted` in the response, for the number of matches and the hits of the page. -/
def deleteByQuery (total : Nat) (ids : List String) : Int :=
  total - (env.deleteHits ids).1.length

/-- `DeleteDocuments` is called and returns an error. -/
def Fails (ids : List String) : Prop :=
  env.enableWal = false ∧ env.getIndex ∧ (env.deleteDocuments ids).1 = false

end DeleteEnv

variable {env : DeleteEnv} {ids : List String}

theorem DeleteEnv.deleteDocuments_ok (hok : (env.deleteDocuments ids).1) :
    (env.deleteDocuments ids).2 = ids.filter fun id => env.find id = .found := by
  unfold deleteDocuments at hok ⊢
  split at hok
  · cases hok
  · next hfound =>
    rw [if_neg hfound]
    refine filter_congr fun id hid => ?_
    have hcommit := all_eq_true.1 hok id hid
    cases hfind : env.find id with
    | found =>
      have hdeletes := env.deletes_of_commits id (by simpa [hfind] using hcommit) hfind
      simp [hdeletes]
    | _ => simp

def committing (enableWal : Bool) : DeleteEnv :=
  ⟨enableWal, fun _ => true, true, false, fun _ => .found, id, fun _ => true, fun _ => true,
    fun _ _ _ => rfl⟩

end SeaSearch

import SeaSearch.Lib.KeyedBag

/-!
# The bluge index under a second-layer shard

Documents are kept by bluge, which is outside this repository. The model takes it as a parameter
`Bluge σ`: a type of index states, the live documents of a state, and `Writer.Batch`.
-/

namespace SeaSearch

abbrev DocID := String

/-- The part of a bluge document the shards depend on: its `_id`, its
timestamp and its stored `_source`. -/
structure Document (σ : Type) where
  id : DocID
  timestamp : Int
  source : σ
  deriving DecidableEq, Repr

abbrev Docs (σ : Type) := Multiset (Document σ)

/-- `blugeindex.Batch`: the documents to add and the ids to remove first. -/
structure Batch (σ : Type) where
  documents : List (Document σ) := []
  ids : List DocID := []

variable {σ : Type}

def Batch.insert (b : Batch σ) (doc : Document σ) : Batch σ :=
  { b with documents := b.documents ++ [doc] }

def Batch.update (b : Batch σ) (id : DocID) (doc : Document σ) : Batch σ :=
  { documents := b.documents ++ [doc], ids := b.ids ++ [id] }

def Batch.delete (b : Batch σ) (id : DocID) : Batch σ :=
  { b with ids := b.ids ++ [id] }

def Batch.write (b : Batch σ) (id : DocID) (m : Docs σ) : Docs σ :=
  (if id ∈ b.ids then 0 else m) + (b.documents.filter (fun d => d.id = id) : List (Document σ))

/-- An index library: index states, their live documents and `Writer.Batch`. -/
structure Bluge (σ : Type) where
  Index : Type
  new : Index
  live : Index → Docs σ
  commit : Index → Batch σ → Index
  live_new : live new = 0
  live_commit : ∀ ix b, live (commit ix b) =
    (live ix).filter (fun d => d.id ∉ b.ids) + (b.documents : Docs σ)

def Bluge.lists (σ : Type) : Bluge σ where
  Index := List (Document σ)
  new := []
  live := fun ix => ix
  commit := fun ix b => ix.filter (fun d => d.id ∉ b.ids) ++ b.documents
  live_new := rfl
  live_commit := fun ix b => by simp

namespace Bluge

variable (B : Bluge σ)

def versions (ix : B.Index) (id : DocID) : Docs σ :=
  (B.live ix).filter (fun d => d.id = id)

@[simp] theorem versions_new (id : DocID) : B.versions B.new id = 0 := by
  simp [versions, B.live_new]

theorem versions_commit (ix : B.Index) (b : Batch σ) (id : DocID) :
    B.versions (B.commit ix b) id = b.write id (B.versions ix id) := by
  have hkept : ((B.live ix).filter (fun d => d.id ∉ b.ids)).filter (fun d => d.id = id) =
      if id ∈ b.ids then 0 else (B.live ix).filter (fun d => d.id = id) := by
    rw [Multiset.filter_filter]
    split
    · next h =>
      refine Multiset.filter_eq_nil.mpr fun d _ hd => ?_
      exact hd.2 (hd.1 ▸ h)
    · next h =>
      refine Multiset.filter_congr fun d _ => ⟨fun hd => hd.1, fun hd => ⟨hd, ?_⟩⟩
      exact hd ▸ h
  rw [versions, B.live_commit, Multiset.filter_add, hkept, Multiset.filter_coe]
  rfl

end Bluge

end SeaSearch

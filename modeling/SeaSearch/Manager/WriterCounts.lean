import SeaSearch.Shard

/-!
# Reference counts of second-layer shard writers

`GetWriter` raises the reference count of a second-layer shard and `CloseWriter` lowers it.
-/

namespace SeaSearch

open List

structure SecondWriter where
  isOpen : Bool := false
  writerRefcount : Int := 0
  deriving DecidableEq

/-- The second-layer shards of a shard, and the shard id of each writer that a caller has
got and not released. -/
structure ShardWriters where
  shards : List SecondWriter
  held : List Nat := []
  deriving DecidableEq

/-- What a call does not decide: for which second-layer shards `OpenIndexWriter` and then
`OpenWAL` succeed. -/
structure OpenEnv where
  opens : Nat → Bool
  wal : Nat → Bool

namespace ShardWriters

/-- `GetShardNum`. -/
def shardNum (s : ShardWriters) : Nat := s.shards.length

/-- `GetLatestShardID`. -/
def latestShardID (s : ShardWriters) : Int := (s.shardNum : Int) - 1

def refs (s : ShardWriters) (id : Nat) : Int := (s.shards[id]?.map (·.writerRefcount)).getD 0

def addRef (s : ShardWriters) (id : Nat) (k : Int) : ShardWriters :=
  { s with shards := s.shards.modify id fun w => { w with writerRefcount := w.writerRefcount + k } }

def setOpen (s : ShardWriters) (id : Nat) (b : Bool) : ShardWriters :=
  { s with shards := s.shards.modify id fun w => { w with isOpen := b } }

/-- `GetWriter` for a shard id that is not negative, and whether it returns a writer. -/
def getWriterAt (env : OpenEnv) (s : ShardWriters) (id : Nat) : ShardWriters × Bool :=
  match s.shards[id]? with
  | none => (s, false)
  | some w =>
    if w.isOpen then (s.addRef id 1, true)
    else if env.opens id then
      -- the writer stays open when the WAL cannot be opened
      if env.wal id then ((s.setOpen id true).addRef id 1, true) else (s.setOpen id true, false)
    else (s, false)

def getWriter (env : OpenEnv) (s : ShardWriters) (id : Int) : ShardWriters × Bool :=
  if 0 ≤ id then s.getWriterAt env id.toNat else (s, false)

/-- The loop of `GetWriters`. -/
def getWritersFrom (env : OpenEnv) : ShardWriters → List Nat → ShardWriters × Bool
  | s, [] => (s, true)
  | s, id :: ids =>
    match s.getWriterAt env id with
    | (s, true) => getWritersFrom env s ids
    | (s, false) => (s, false)

def getWriters (env : OpenEnv) (s : ShardWriters) : ShardWriters × Bool :=
  getWritersFrom env s (List.range s.shardNum)

/-- `CloseWriter`. An id beyond the last shard is an index out of range. -/
def closeWriter (s : ShardWriters) (id : Int) : Option ShardWriters :=
  if id < 0 then
    some { s with shards := s.shards.map fun w =>
      { w with writerRefcount := w.writerRefcount - 1 } }
  else if id.toNat < s.shardNum then some (s.addRef id.toNat (-1))
  else none

/-- `WriteToShard`, with `docs` for whether there are documents for the shard id. What it
does between getting the writers and returning is of no consequence here. -/
def writeToShard (env : OpenEnv) (docs : Bool) (s : ShardWriters) (shardID : Int) :
    Option ShardWriters :=
  if docs then
    -- the deferred call reads the variable, which has been assigned by then
    let shardID := if shardID = shardIDNeedLatest then s.latestShardID else shardID
    if 0 ≤ shardID then (s.getWriter env shardID).1.closeWriter shardID
    else (s.getWriters env).1.closeWriter shardID
  else some s

def writeToShardRollback (env : OpenEnv) (docs : Bool) (s : ShardWriters) (shardID : Int) :
    Option ShardWriters :=
  if docs then
    if 0 ≤ shardID then (s.getWriter env shardID).1.closeWriter shardID
    else s.closeWriter shardID
  else some s

/-- `CheckShards`, with `grow` for whether the latest shard has become too large. -/
def checkShards (env : OpenEnv) (grow : Bool) (s : ShardWriters) : Option ShardWriters :=
  match s.getWriter env s.latestShardID with
  | (s', false) => some s'
  | (s', true) =>
    (if grow then { s' with shards := s'.shards ++ [{}] } else s').closeWriter s.latestShardID

end ShardWriters

inductive WriterCall
  | getWriter (id : Int)
  | getWriters
  | closeWriter (id : Int)
  | writeToShard (docs : Bool) (shardID : Int)
  | writeToShardRollback (docs : Bool) (shardID : Int)
  | checkShards (grow : Bool)
  | lazyClose (id : Nat)
  deriving DecidableEq

namespace ShardWriters

def call (env : OpenEnv) (s : ShardWriters) : WriterCall → Option ShardWriters
  | .getWriter id =>
    match s.getWriter env id with
    | (s', true) => some { s' with held := id.toNat :: s.held }
    | (s', false) => some s'
  | .getWriters =>
    match s.getWriters env with
    | (s', true) => some { s' with held := List.range s.shardNum ++ s.held }
    | (s', false) => some s'
  | .closeWriter id =>
    (s.closeWriter id).map fun s' =>
      { s' with held := if id < 0 then s.held.diff (List.range s.shardNum)
                        else s.held.erase id.toNat }
  | .writeToShard docs shardID => s.writeToShard env docs shardID
  | .writeToShardRollback docs shardID => s.writeToShardRollback env docs shardID
  | .checkShards grow => s.checkShards env grow
  | .lazyClose id => some (if s.refs id = 0 then s.setOpen id false else s)

def start (n : Nat) : ShardWriters := { shards := List.replicate n {} }

/-- What the counts are for:
* `holders`: each is the number of callers that have the writer;
* `nonneg`: none is negative;
* `zero`: all are zero when no caller has a writer. -/
structure CountsExact (s : ShardWriters) : Prop where
  holders : ∀ id, s.refs id = s.held.count id
  nonneg : ∀ id, 0 ≤ s.refs id
  zero : s.held = [] → ∀ id, s.refs id = 0

/-- `GetWriter` returns a writer. -/
def obtainable (env : OpenEnv) (s : ShardWriters) (id : Nat) : Bool :=
  match s.shards[id]? with
  | none => false
  | some w => w.isOpen || (env.opens id && env.wal id)

/-- The call closes only writers that it has got. -/
def balanced (env : OpenEnv) (s : ShardWriters) : WriterCall → Prop
  | .getWriter _ => True
  | .getWriters => (∀ id < s.shardNum, s.obtainable env id) ∨ ¬ s.obtainable env 0
  | .closeWriter id => if id < 0 then ∀ k < s.shardNum, k ∈ s.held else id.toNat ∈ s.held
  | .writeToShard docs shardID =>
    docs = true →
      let shardID := if shardID = shardIDNeedLatest then s.latestShardID else shardID
      if 0 ≤ shardID then s.obtainable env shardID.toNat
      else ∀ id < s.shardNum, s.obtainable env id
  | .writeToShardRollback docs shardID =>
    docs = true → if 0 ≤ shardID then s.obtainable env shardID.toNat else s.shardNum = 0
  | .checkShards _ => True
  | .lazyClose _ => True

end ShardWriters

namespace WriterCountsLemmas

open ShardWriters

variable {env : OpenEnv} {s : ShardWriters} {id : Int} {s' : ShardWriters}

theorem refs_addRef (s : ShardWriters) (i : Nat) (k : Int) (id : Nat) :
    (s.addRef i k).refs id = s.refs id + if i = id ∧ id < s.shardNum then k else 0 := by
  unfold refs addRef shardNum
  rw [List.getElem?_modify]
  by_cases hid : id < s.shards.length
  · rw [List.getElem?_eq_getElem hid]
    by_cases hi : i = id <;> simp [hi, hid]
  · rw [List.getElem?_eq_none (Nat.le_of_not_lt hid)]
    simp [hid]

@[simp] theorem refs_setOpen (s : ShardWriters) (i : Nat) (b : Bool) (id : Nat) :
    (s.setOpen i b).refs id = s.refs id := by
  unfold refs setOpen
  rw [List.getElem?_modify]
  cases s.shards[id]? with
  | none => rfl
  | some w => by_cases hi : i = id <;> simp [hi]

@[simp] theorem shardNum_addRef (s : ShardWriters) (i : Nat) (k : Int) :
    (s.addRef i k).shardNum = s.shardNum := by
  simp [shardNum, addRef]

@[simp] theorem shardNum_setOpen (s : ShardWriters) (i : Nat) (b : Bool) :
    (s.setOpen i b).shardNum = s.shardNum := by
  simp [shardNum, setOpen]

theorem refs_of_le {id : Nat} (h : s.shardNum ≤ id) : s.refs id = 0 := by
  unfold refs
  rw [List.getElem?_eq_none h]
  rfl

theorem lt_of_obtainable {id : Nat} (h : s.obtainable env id) : id < s.shardNum := by
  unfold obtainable at h
  split at h
  · cases h
  · next hw => exact (List.getElem?_eq_some_iff.1 hw).1

theorem countsExact_iff : CountsExact s ↔ ∀ id, s.refs id = s.held.count id := by
  refine ⟨fun h => h.holders, fun h => ⟨h, ?_, ?_⟩⟩
  · intro id
    rw [h id]
    exact Int.natCast_nonneg _
  · intro hnil id
    rw [h id, hnil]
    rfl

structure Raised (s s' : ShardWriters) (ids : List Nat) : Prop where
  held : s'.held = s.held
  shardNum : s'.shardNum = s.shardNum
  refs : ∀ k, s'.refs k = s.refs k + ids.count k

theorem getWriterAt_spec (env : OpenEnv) (s : ShardWriters) (id : Nat) :
    (s.getWriterAt env id).2 = s.obtainable env id ∧
      Raised s (s.getWriterAt env id).1 (if s.obtainable env id then [id] else []) := by
  have hnone : ∀ b, Raised s (s.setOpen id b) [] := fun b => ⟨rfl, by simp, by simp⟩
  unfold getWriterAt obtainable
  cases hw : s.shards[id]? with
  | none => exact ⟨rfl, rfl, rfl, by simp⟩
  | some w =>
    have hid : id < s.shardNum := (List.getElem?_eq_some_iff.1 hw).1
    have hone : ∀ k, (if id = k ∧ k < s.shardNum then (1 : Int) else 0) = [id].count k := by
      intro k
      by_cases hk : id = k
      · subst hk
        simp [hid]
      · simp [hk]
    simp only
    by_cases hopen : w.isOpen = true
    · simp only [hopen, if_true, Bool.true_or]
      exact ⟨trivial, rfl, by simp, fun k => by rw [refs_addRef, hone]⟩
    · by_cases hopens : env.opens id = true
      · by_cases hwal : env.wal id = true
        · simp only [hopen, hopens, hwal, if_true, Bool.true_and, Bool.or_true, Bool.false_eq_true,
            if_false]
          exact ⟨trivial, rfl, by simp, fun k => by
            rw [refs_addRef, shardNum_setOpen, refs_setOpen, hone]⟩
        · simpa [hopen, hopens, hwal] using hnone true
      · simpa [hopen, hopens] using (⟨rfl, rfl, by simp⟩ : Raised s s [])

theorem obtainable_setOpen {id : Nat} (h : s.obtainable env id = true) (k : Nat) :
    (s.setOpen id true).obtainable env k = s.obtainable env k := by
  unfold obtainable setOpen at *
  simp only [List.getElem?_modify]
  by_cases hk : id = k
  · subst hk
    cases hw : s.shards[id]? with
    | none => simp
    | some w =>
      rw [hw] at h
      simpa using h.symm
  · cases s.shards[k]? <;> simp [hk]

theorem obtainable_addRef (id : Nat) (n : Int) (k : Nat) :
    (s.addRef id n).obtainable env k = s.obtainable env k := by
  unfold obtainable addRef
  simp only [List.getElem?_modify]
  by_cases hk : id = k <;> cases s.shards[k]? <;> simp [hk]

theorem obtainable_getWriterAt {id : Nat} (h : s.obtainable env id = true) (k : Nat) :
    (s.getWriterAt env id).1.obtainable env k = s.obtainable env k := by
  unfold getWriterAt
  split
  · rfl
  · next w hw =>
    have hw' : (w.isOpen || (env.opens id && env.wal id)) = true := by
      simpa [obtainable, hw] using h
    split
    · exact obtainable_addRef id 1 k
    · next hopen =>
      obtain ⟨hopens, hwal⟩ : env.opens id = true ∧ env.wal id = true := by
        simpa [hopen] using hw'
      rw [if_pos hopens, if_pos hwal]
      exact (obtainable_addRef id 1 k).trans (obtainable_setOpen h k)

theorem Raised.trans {s₁ s₂ s₃ : ShardWriters} {ids ids' : List Nat} (h : Raised s₁ s₂ ids)
    (h' : Raised s₂ s₃ ids') : Raised s₁ s₃ (ids ++ ids') := by
  refine ⟨h'.held.trans h.held, h'.shardNum.trans h.shardNum, fun k => ?_⟩
  rw [h'.refs, h.refs, count_append]
  push_cast
  ring

theorem getWritersFrom_spec (env : OpenEnv) (s : ShardWriters) (ids : List Nat) :
    (getWritersFrom env s ids).2 = ids.all (s.obtainable env) ∧
      Raised s (getWritersFrom env s ids).1 (ids.takeWhile (s.obtainable env)) := by
  induction ids generalizing s with
  | nil => exact ⟨rfl, rfl, rfl, by simp [getWritersFrom]⟩
  | cons id ids ih =>
    obtain ⟨hok, hraised⟩ := getWriterAt_spec env s id
    rw [getWritersFrom]
    cases hobt : s.obtainable env id with
    | false =>
      rw [hobt] at hok hraised
      rw [show s.getWriterAt env id = ((s.getWriterAt env id).1, false) from Prod.ext rfl hok]
      simpa [hobt] using hraised
    | true =>
      have hsame : ∀ k, (s.getWriterAt env id).1.obtainable env k = s.obtainable env k :=
        obtainable_getWriterAt hobt
      rw [hobt] at hok hraised
      rw [show s.getWriterAt env id = ((s.getWriterAt env id).1, true) from Prod.ext rfl hok]
      obtain ⟨hok', hraised'⟩ := ih (s.getWriterAt env id).1
      rw [funext hsame] at hok' hraised'
      refine ⟨by simpa [hobt] using hok', ?_⟩
      rw [takeWhile_cons, hobt]
      exact hraised.trans hraised'

theorem closeWriter_neg (h : id < 0) :
    ∃ s', s.closeWriter id = some s' ∧ s'.held = s.held ∧
      ∀ k, s'.refs k = s.refs k - if k < s.shardNum then 1 else 0 := by
  rw [closeWriter, if_pos h]
  refine ⟨_, rfl, rfl, fun k => ?_⟩
  unfold refs shardNum
  rw [List.getElem?_map]
  by_cases hk : k < s.shards.length
  · simp [hk]
  · rw [List.getElem?_eq_none (Nat.le_of_not_lt hk)]
    simp [hk]

theorem closeWriter_nonneg (h : 0 ≤ id) (hid : id.toNat < s.shardNum) :
    ∃ s', s.closeWriter id = some s' ∧ s'.held = s.held ∧
      ∀ k, s'.refs k = s.refs k - [id.toNat].count k := by
  rw [closeWriter, if_neg (Int.not_lt.2 h), if_pos hid]
  refine ⟨_, rfl, rfl, fun k => ?_⟩
  rw [refs_addRef]
  by_cases hk : id.toNat = k
  · subst hk
    simp [hid, Int.sub_eq_add_neg]
  · simp [hk]

theorem closeWriter_eq_none (h : 0 ≤ id) (hid : ¬ id.toNat < s.shardNum) :
    s.closeWriter id = none := by
  rw [closeWriter, if_neg (Int.not_lt.2 h), if_neg hid]

def ExactAfter (r : Option ShardWriters) : Prop := ∃ s', r = some s' ∧ CountsExact s'

theorem exactAfter_some : ExactAfter (some s') ↔ CountsExact s' := by
  simp [ExactAfter]

theorem exactAfter_none : ¬ ExactAfter none := by
  simp [ExactAfter]

variable (h : CountsExact s)

include h

theorem exact_add_iff {d : Nat → Int} (hheld : s'.held = s.held)
    (hrefs : ∀ k, s'.refs k = s.refs k + d k) : CountsExact s' ↔ ∀ k, d k = 0 := by
  rw [countsExact_iff]
  refine forall_congr' fun k => ?_
  rw [hrefs, hheld, h.holders k]
  omega

theorem get_close_iff (hid : 0 ≤ id) :
    ExactAfter ((s.getWriter env id).1.closeWriter id) ↔ s.obtainable env id.toNat := by
  obtain ⟨-, hraised⟩ := getWriterAt_spec env s id.toNat
  rw [getWriter, if_pos hid]
  by_cases hlt : id.toNat < s.shardNum
  · obtain ⟨s', hs', hheld, hrefs⟩ := closeWriter_nonneg hid (hraised.shardNum ▸ hlt)
    rw [hs', exactAfter_some, exact_add_iff h (hheld.trans hraised.held) fun k => by
      rw [hrefs, hraised.refs, Int.add_sub_assoc]]
    constructor
    · intro hall
      have hone := hall id.toNat
      by_contra hno
      simp [hno] at hone
    · intro hobt k
      simp [hobt]
  · rw [closeWriter_eq_none hid (hraised.shardNum ▸ hlt)]
    refine iff_of_false exactAfter_none fun hobt => hlt (lt_of_obtainable hobt)

omit h in
theorem takeWhile_range {p : Nat → Bool} {n : Nat} (h : ∀ k < n, p k = true) :
    (List.range n).takeWhile p = List.range n :=
  takeWhile_eq_self_iff.2 fun k hk => h k (mem_range.1 hk)

theorem getAll_closeAll_iff (hid : id < 0) :
    ExactAfter ((s.getWriters env).1.closeWriter id) ↔ ∀ k < s.shardNum, s.obtainable env k := by
  obtain ⟨-, hraised⟩ := getWritersFrom_spec env s (List.range s.shardNum)
  obtain ⟨s', hs', hheld, hrefs⟩ := closeWriter_neg (s := (s.getWriters env).1) hid
  rw [hs', exactAfter_some, exact_add_iff h (hheld.trans hraised.held) fun k => by
    rw [hrefs, getWriters, hraised.refs, Int.add_sub_assoc]]
  simp only [hraised.shardNum]
  constructor
  · intro hall k hk
    have hone := hall k
    rw [if_pos hk] at hone
    have hmem : k ∈ (List.range s.shardNum).takeWhile (s.obtainable env) :=
      count_pos_iff.1 (by omega)
    exact mem_takeWhile_imp hmem
  · intro hobt k
    rw [takeWhile_range hobt, count_range]
    split <;> simp

theorem getWriters_iff :
    ExactAfter (s.call env .getWriters) ↔ s.balanced env .getWriters := by
  obtain ⟨hok, hraised⟩ := getWritersFrom_spec env s (List.range s.shardNum)
  rw [ShardWriters.call]
  split
  · next s' heq =>
    rw [getWriters] at heq
    rw [heq] at hok hraised
    have hall : ∀ k < s.shardNum, s.obtainable env k = true := by
      simpa [all_eq_true] using hok.symm
    rw [takeWhile_range hall] at hraised
    refine iff_of_true ?_ (.inl hall)
    rw [exactAfter_some, countsExact_iff]
    intro k
    show s'.refs k = (List.range s.shardNum ++ s.held).count k
    rw [hraised.refs, h.holders, count_append]
    push_cast
    ring
  · next s' heq =>
    rw [getWriters] at heq
    rw [heq] at hok hraised
    have hsome : ¬ ∀ k < s.shardNum, s.obtainable env k = true := by
      intro hall
      have hok' : (List.range s.shardNum).all (s.obtainable env) = true := by
        simpa [all_eq_true] using hall
      cases hok.trans hok'
    rw [exactAfter_some, exact_add_iff h hraised.held hraised.refs, balanced]
    rw [or_iff_right hsome]
    -- the first writer is the one that could not be got, or else its count was raised
    cases hn : s.shardNum with
    | zero =>
      rw [hn] at hsome
      exact absurd (fun k hk => absurd hk (Nat.not_lt_zero k)) hsome
    | succ n =>
      rw [range_succ_eq_map, takeWhile_cons]
      cases s.obtainable env 0 with
      | false => simp
      | true =>
        refine iff_of_false (fun hall => ?_) (by simp)
        have hzero := hall 0
        rw [if_pos rfl, count_cons_self] at hzero
        omega

theorem closeWriter_iff (id : Int) :
    ExactAfter (s.call env (.closeWriter id)) ↔ s.balanced env (.closeWriter id) := by
  rw [ShardWriters.call, balanced]
  by_cases hid : id < 0
  · obtain ⟨s', hs', -, hrefs⟩ := closeWriter_neg (s := s) hid
    rw [hs', Option.map_some, exactAfter_some, countsExact_iff, if_pos hid, if_pos hid]
    refine forall_congr' fun k => ?_
    show s'.refs k = (s.held.diff (List.range s.shardNum)).count k ↔ _
    rw [hrefs, h.holders, count_diff, count_range, ← count_pos_iff]
    split <;> omega
  · rw [if_neg hid, if_neg hid]
    by_cases hlt : id.toNat < s.shardNum
    · obtain ⟨s', hs', -, hrefs⟩ := closeWriter_nonneg (Int.not_lt.1 hid) hlt
      rw [hs', Option.map_some, exactAfter_some, countsExact_iff, ← count_pos_iff]
      have hcount : ∀ k, s'.refs k = (s.held.erase id.toNat).count k ↔
          (id.toNat = k → 0 < s.held.count k) := by
        intro k
        rw [hrefs, h.holders, count_erase]
        by_cases hk : id.toNat = k
        · subst hk
          simp only [count_singleton_self, beq_self_eq_true, if_true, true_imp_iff]
          omega
        · simp [hk]
      exact (forall_congr' hcount).trans (by simp)
    · rw [closeWriter_eq_none (Int.not_lt.1 hid) hlt]
      refine iff_of_false exactAfter_none fun hmem => ?_
      have hpos := count_pos_iff.2 hmem
      have hrefs := h.holders id.toNat
      rw [refs_of_le (Nat.le_of_not_lt hlt)] at hrefs
      omega

theorem exact_of_raised_nil (hraised : Raised s s' []) : CountsExact s' :=
  (exact_add_iff h hraised.held hraised.refs).2 fun _ => rfl

theorem getWriter_exact (id : Int) :
    ExactAfter (s.call env (.getWriter id)) := by
  rw [ShardWriters.call, getWriter]
  by_cases hid : 0 ≤ id
  · obtain ⟨hok, hraised⟩ := getWriterAt_spec env s id.toNat
    rw [if_pos hid]
    split
    · next s' heq =>
      rw [heq] at hok hraised
      rw [if_pos hok.symm] at hraised
      rw [exactAfter_some, countsExact_iff]
      intro k
      have hcons : ([id.toNat] ++ s.held).count k = [id.toNat].count k + s.held.count k :=
        count_append
      rw [singleton_append] at hcons
      show s'.refs k = (id.toNat :: s.held).count k
      rw [hraised.refs, h.holders, hcons]
      push_cast
      ring
    · next s' heq =>
      rw [heq] at hok hraised
      rw [← hok] at hraised
      exact exactAfter_some.2 (exact_of_raised_nil h hraised)
  · rw [if_neg hid]
    exact exactAfter_some.2 h

omit h in
theorem refs_grow (k : Nat) :
    ({ s with shards := s.shards ++ [{}] } : ShardWriters).refs k = s.refs k := by
  unfold refs
  by_cases hk : k < s.shards.length
  · simp only [List.getElem?_append_left hk]
  · rw [List.getElem?_append_right (Nat.le_of_not_lt hk),
      List.getElem?_eq_none (Nat.le_of_not_lt hk)]
    cases k - s.shards.length <;> rfl

theorem checkShards_exact (grow : Bool) :
    ExactAfter (s.checkShards env grow) := by
  rw [checkShards, getWriter]
  by_cases hid : 0 ≤ s.latestShardID
  · obtain ⟨hok, hraised⟩ := getWriterAt_spec env s s.latestShardID.toNat
    rw [if_pos hid]
    split
    · next s' heq =>
      rw [heq] at hok hraised
      rw [← hok] at hraised
      exact exactAfter_some.2 (exact_of_raised_nil h hraised)
    · next s' heq =>
      rw [heq] at hok hraised
      rw [if_pos hok.symm] at hraised
      have hlt : s.latestShardID.toNat < s'.shardNum := by
        have hobt := lt_of_obtainable hok.symm
        rwa [hraised.shardNum]
      generalize hgrown : (if grow then { s' with shards := s'.shards ++ [{}] } else s') = g
      have hsame : g.held = s'.held ∧ s'.shardNum ≤ g.shardNum ∧ ∀ k, g.refs k = s'.refs k := by
        subst hgrown
        split
        · exact ⟨rfl, by simp [shardNum], fun k => refs_grow k⟩
        · exact ⟨rfl, le_rfl, fun k => rfl⟩
      obtain ⟨hheld, hnum, hrefs⟩ := hsame
      obtain ⟨s'', hs'', hheld', hrefs'⟩ :=
        closeWriter_nonneg hid (lt_of_lt_of_le hlt hnum)
      rw [hs'', exactAfter_some, countsExact_iff]
      intro k
      rw [hrefs', hrefs, hraised.refs, hheld', hheld, hraised.held, h.holders]
      ring
  · rw [if_neg hid]
    exact exactAfter_some.2 h

theorem call_exact_iff (c : WriterCall) :
    ExactAfter (s.call env c) ↔ s.balanced env c := by
  cases c with
  | getWriter id => exact iff_of_true (getWriter_exact h id) trivial
  | getWriters => exact getWriters_iff h
  | closeWriter id => exact closeWriter_iff h id
  | writeToShard docs shardID =>
    rw [ShardWriters.call, ShardWriters.writeToShard, balanced]
    cases docs with
    | false => simpa using exactAfter_some.2 h
    | true =>
      simp only [if_true, true_imp_iff]
      generalize (if shardID = shardIDNeedLatest then s.latestShardID else shardID) = id
      by_cases hid : 0 ≤ id
      · rw [if_pos hid, if_pos hid]
        exact get_close_iff h hid
      · rw [if_neg hid, if_neg hid]
        exact getAll_closeAll_iff h (Int.not_le.1 hid)
  | writeToShardRollback docs id =>
    rw [ShardWriters.call, ShardWriters.writeToShardRollback, balanced]
    cases docs with
    | false => simpa using exactAfter_some.2 h
    | true =>
      simp only [if_true, true_imp_iff]
      by_cases hid : 0 ≤ id
      · rw [if_pos hid, if_pos hid]
        exact get_close_iff h hid
      · obtain ⟨s', hs', hheld, hrefs⟩ := closeWriter_neg (s := s) (Int.not_le.1 hid)
        rw [if_neg hid, if_neg hid, hs', exactAfter_some,
          exact_add_iff h hheld fun k => by rw [hrefs, Int.sub_eq_add_neg]]
        constructor
        · intro hall
          by_contra hne
          have hzero := hall 0
          rw [if_pos (Nat.pos_of_ne_zero hne)] at hzero
          cases hzero
        · intro hzero k
          simp [hzero]
  | checkShards grow => exact iff_of_true (checkShards_exact h grow) trivial
  | lazyClose id =>
    rw [ShardWriters.call, exactAfter_some, balanced]
    refine iff_of_true ?_ trivial
    split
    · refine countsExact_iff.2 fun k => ?_
      rw [refs_setOpen]
      exact h.holders k
    · exact h

end WriterCountsLemmas

/-- The run does not panic, and the counts are exact before and after every call. -/
def ExactRun : List (OpenEnv × WriterCall) → ShardWriters → Prop
  | [], s => s.CountsExact
  | (env, c) :: calls, s => s.CountsExact ∧ ∃ s', s.call env c = some s' ∧ ExactRun calls s'

/-- Every call of the run is balanced. -/
def BalancedRun : List (OpenEnv × WriterCall) → ShardWriters → Prop
  | [], _ => True
  | (env, c) :: calls, s => s.balanced env c ∧ ∀ s', s.call env c = some s' → BalancedRun calls s'

namespace WriterCountsLemmas

theorem exactRun_iff (h : s.CountsExact) : ExactRun calls s ↔ BalancedRun calls s := by
  induction calls generalizing s with
  | nil => exact iff_of_true h trivial
  | cons p calls ih =>
    obtain ⟨env, c⟩ := p
    have hiff : ExactAfter (s.call env c) ↔ s.balanced env c := call_exact_iff h c
    rw [ExactRun, BalancedRun, ← hiff]
    constructor
    · rintro ⟨-, s', hs', hrun⟩
      have hexact : s'.CountsExact := by
        cases calls with
        | nil => exact hrun
        | cons p calls => exact hrun.1
      refine ⟨⟨s', hs', hexact⟩, ?_⟩
      intro s'' hs''
      cases hs'.symm.trans hs''
      exact (ih hexact).1 hrun
    · rintro ⟨⟨s', hs', hexact⟩, hrest⟩
      exact ⟨h, s', hs', (ih hexact).2 (hrest s' hs')⟩

theorem start_exact (n : Nat) : (ShardWriters.start n).CountsExact := by
  refine countsExact_iff.2 fun k => ?_
  unfold ShardWriters.refs ShardWriters.start
  by_cases hk : k < n <;> simp [hk]

end WriterCountsLemmas

open WriterCountsLemmas in
/-- Along any sequence of calls on any number of second-layer shards, all calls return with
exact counts if and only if all of them are balanced. -/
theorem counts_exact_iff (n : Nat) (calls : List (OpenEnv × WriterCall)) :
    ExactRun calls (.start n) ↔ BalancedRun calls (.start n) :=
  exactRun_iff (start_exact n)

/-- `WriteToShardRollback` for the latest shard, which has nothing to roll back, lowers the
count of a shard whose writer no one has. -/
theorem rollback_lowers_counts :
    ((ShardWriters.start 1).call ⟨fun _ => true, fun _ => true⟩
      (.writeToShardRollback true shardIDNeedLatest)).map (·.refs 0) = some (-1) := by
  decide

end SeaSearch

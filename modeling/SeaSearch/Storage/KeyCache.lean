import SeaSearch.Lib.Threads

/-!
# The object key cache

Every process keeps the keys of the objects under a prefix after it has listed them, and drops them
when it changes an object under the prefix itself. The processes share the object store.
-/

namespace SeaSearch

open List Threads
open Function (update)

variable {ν τ : Type}

def hasPrefix (key pre : String) : Bool := pre.toList.isPrefixOf key.toList

/-- An item of the cache. The pointer to it is its number, and `since` is the number of changes
of the store before the item was made. -/
structure ObjectKeyCacheItem where
  id : Nat
  since : Nat
  ready : Bool := false
  invalid : Bool := false
  keys : List String := []

structure ObjectKeyCache where
  items : String → Option ObjectKeyCacheItem := fun _ => none
  made : Nat := 0

namespace ObjectKeyCache

/-- The first section of `List`, where there is no item that is ready. -/
def add (cache : ObjectKeyCache) (pre : String) (since : Nat) : ObjectKeyCache where
  items := update cache.items pre (some { id := cache.made, since := since })
  made := cache.made + 1

/-- The second section of `List`: another `List` may have replaced the item. -/
def fill (cache : ObjectKeyCache) (pre : String) (id : Nat) (keys : List String) :
    ObjectKeyCache :=
  match cache.items pre with
  | none => cache
  | some item =>
    if item.id = id ∧ item.invalid = false then
      { cache with
        items := update cache.items pre (some { item with ready := true, keys := keys }) }
    else cache

def invalidate (cache : ObjectKeyCache) (keys : List String) : ObjectKeyCache :=
  { cache with
    items := fun pre =>
      if keys.any fun key => hasPrefix key pre then
        match cache.items pre with
        | none => none
        | some item => if item.ready then none else some { item with invalid := true }
      else cache.items pre }

end ObjectKeyCache

structure ObjectHistory where
  store : Finset String := ∅
  past : List (Finset String) := []

namespace ObjectHistory

/-- The stores after the first `n` changes. -/
def since (h : ObjectHistory) (n : Nat) : List (Finset String) :=
  (h.store :: h.past).take (h.past.length + 1 - n)

def change (h : ObjectHistory) (store : Finset String) : ObjectHistory where
  store := store
  past := h.store :: h.past

end ObjectHistory

structure ObjectStore (ν : Type) where
  history : ObjectHistory := {}
  caches : ν → ObjectKeyCache := fun _ => {}

namespace ObjectStore

def setCache [DecidableEq ν] (s : ObjectStore ν) (n : ν) (cache : ObjectKeyCache) :
    ObjectStore ν :=
  { s with caches := update s.caches n cache }

def change (s : ObjectStore ν) (store : Finset String) : ObjectStore ν :=
  { s with history := s.history.change store }

end ObjectStore

inductive ClientCall
  | list (pre : String)
  | write (key : String)
  | remove (keys : List String)
  | copy (src dst : String)

namespace ClientCall

def isList : ClientCall → Bool
  | list _ => true
  | _ => false

/-- The keys that the call gives to `Invalidate`. -/
def invalidates : ClientCall → List String
  | list _ => []
  | write key => [key]
  | remove keys => keys
  | copy _ dst => [dst]

def effect (key : String) (store : Finset String) : ClientCall → Option (Finset String)
  | list _ => none
  | write k => if key = k then some (insert key store) else none
  | remove keys => if key ∈ keys then some (store.erase key) else none
  | copy src dst => if key = dst ∧ src ∈ store then some (insert key store) else none

end ClientCall

/-- Where a call is:
* `listing`: the store is being listed, for the item `id`;
* `listed`: before the second section of `List`;
* `changing`: in the call of the backend, which has changed the keys `effects` so far;
* `changed`: before `Invalidate`. -/
inductive ClientPc
  | idle
  | listing (pre : String) (id since : Nat)
  | listed (pre : String) (id since : Nat) (keys : List String)
  | changing (call : ClientCall) (effects : List String)
  | changed (call : ClientCall) (effects : List String)

/-- What a step does not decide: the call, the key that the backend changes next, its answer, and
whether it fails. -/
inductive ClientChoice
  | call (call : ClientCall)
  | effect (key : String)
  | answer (keys : List String)
  | fail
  | proceed

/-- `List` returns: from an item that is ready, or what the backend has answered. -/
inductive ClientEvent (τ : Type)
  | hit (t : τ) (pre : String) (keys : List String)
  | answered (t : τ) (pre : String) (keys : List String)

/-- The keys are an answer to a listing during which the store was one of these: each key is
there if it was in one of the stores, and not if it was not in one of them. -/
def answers (pre : String) (stores : List (Finset String)) (keys : List String) : Bool :=
  decide keys.Nodup && keys.all (fun key => hasPrefix key pre && stores.any (key ∈ ·)) &&
    stores.all fun store =>
      decide (∀ key ∈ store, hasPrefix key pre → key ∉ keys → stores.any (key ∉ ·))

namespace ObjectStore

/-- One step of a call, in the process `node t`. -/
def step [DecidableEq ν] (node : τ → ν) :
    Program (ObjectStore ν) ClientPc τ ClientChoice (ClientEvent τ) := fun t x s pc =>
  match pc, x with
  | .idle, .call (.list pre) =>
    match ((s.caches (node t)).items pre).filter ObjectKeyCacheItem.ready with
    | some item => some (s, .idle, [.hit t pre item.keys])
    | none =>
      some (s.setCache (node t) ((s.caches (node t)).add pre s.history.past.length),
        .listing pre (s.caches (node t)).made s.history.past.length, [])
  | .idle, .call call => some (s, .changing call [], [])
  | .listing pre id since, .answer keys =>
    if answers pre (s.history.since since) keys then some (s, .listed pre id since keys, [])
    else none
  | .listing _ _ _, .fail => some (s, .idle, [])
  | .listed pre id _ keys, .proceed =>
    some (s.setCache (node t) ((s.caches (node t)).fill pre id keys), .idle, [.answered t pre keys])
  | .changing call effects, .effect key =>
    (call.effect key s.history.store).map fun store =>
      (s.change store, .changing call (key :: effects), [])
  | .changing call effects, .proceed => some (s, .changed call effects, [])
  | .changed call _, .proceed =>
    some (s.setCache (node t) ((s.caches (node t)).invalidate call.invalidates), .idle, [])
  | _, _ => none

def start (store : Finset String) : Config (ObjectStore ν) ClientPc τ :=
  ⟨{ history := { store := store } }, fun _ => .idle⟩

end ObjectStore

namespace ClientPc

/-- The keys that the call has changed, until the end of its `Invalidate`. -/
def effects : ClientPc → List String
  | changing _ effects => effects
  | changed _ effects => effects
  | _ => []

def changes : ClientPc → Bool
  | changing _ _ => true
  | changed _ _ => true
  | _ => false

end ClientPc

inductive ClientShape [DecidableEq ν] (node : τ → ν) (t : τ) (x : ClientChoice)
    (s : ObjectStore ν) : ClientPc → ObjectStore ν → ClientPc → List (ClientEvent τ) → Prop
  | hit :
      (s.caches (node t)).items pre = some item → item.ready = true →
      ClientShape node t x s .idle s .idle [.hit t pre item.keys]
  | miss :
      ClientShape node t x s .idle
        (s.setCache (node t) ((s.caches (node t)).add pre s.history.past.length))
        (.listing pre (s.caches (node t)).made s.history.past.length) []
  | begin : x = .call call → call.isList = false →
      ClientShape node t x s .idle s (.changing call []) []
  | answer {id since : Nat} {keys : List String} :
      answers pre (s.history.since since) keys = true →
      ClientShape node t x s (.listing pre id since) s (.listed pre id since keys) []
  | fail {id since : Nat} :
      ClientShape node t x s (.listing pre id since) s .idle []
  | fill {id since : Nat} {keys : List String} :
      ClientShape node t x s (.listed pre id since keys)
        (s.setCache (node t) ((s.caches (node t)).fill pre id keys)) .idle [.answered t pre keys]
  | effect :
      call.effect key s.history.store = some store →
      ClientShape node t x s (.changing call effects) (s.change store)
        (.changing call (key :: effects)) []
  | returned :
      ClientShape node t x s (.changing call effects) s (.changed call effects) []
  | invalidate :
      ClientShape node t x s (.changed call effects)
        (s.setCache (node t) ((s.caches (node t)).invalidate call.invalidates)) .idle []

namespace KeyCacheLemmas

variable {pre : String} {keys : List String} {stores : List (Finset String)}

theorem step_shape [DecidableEq ν] {node : τ → ν} {pc pc' : ClientPc}
    (h : ObjectStore.step node t x s pc = some (s', pc', es)) :
    ClientShape node t x s pc s' pc' es := by
  unfold ObjectStore.step at h
  split at h
  next pre =>
    split at h
    next item hitem =>
      obtain ⟨hsome, hready⟩ := Option.filter_eq_some_iff.1 hitem
      cases h
      exact .hit hsome hready
    next =>
      cases h
      exact .miss
  next call hlist =>
    cases h
    refine .begin rfl ?_
    cases call with
    | list pre => exact absurd rfl (hlist pre)
    | _ => rfl
  next =>
    split at h
    next hanswers =>
      cases h
      exact .answer hanswers
    next => cases h
  next =>
    cases h
    exact .fail
  next =>
    cases h
    exact .fill
  next =>
    obtain ⟨store, hstore, heq⟩ := Option.map_eq_some_iff.1 h
    cases heq
    exact .effect hstore
  next =>
    cases h
    exact .returned
  next =>
    cases h
    exact .invalidate
  next => cases h

theorem item_of_hit [DecidableEq ν] {node : τ → ν} {pc pc' : ClientPc}
    (h : ClientShape node t x s pc s' pc' [.hit t pre keys]) :
    ∃ item, (s.caches (node t)).items pre = some item ∧ item.ready = true ∧ item.keys = keys := by
  cases h with
  | hit hitem hready => exact ⟨_, hitem, hready, rfl⟩

structure Seen (pre : String) (stores : List (Finset String)) (keys : List String) : Prop where
  nodup : keys.Nodup
  under : ∀ key ∈ keys, hasPrefix key pre
  seen : ∀ key, hasPrefix key pre → ∃ store ∈ stores, (key ∈ keys ↔ key ∈ store)

theorem Seen.cons (h : Seen pre stores keys) (store : Finset String) :
    Seen pre (store :: stores) keys := by
  refine ⟨h.nodup, h.under, fun key hkey => ?_⟩
  obtain ⟨st, hst, hiff⟩ := h.seen key hkey
  exact ⟨st, mem_cons_of_mem _ hst, hiff⟩

theorem seen_of_answers (h : answers pre stores keys = true) (hne : stores ≠ []) :
    Seen pre stores keys := by
  simp only [answers, Bool.and_eq_true, all_eq_true, decide_eq_true_eq] at h
  obtain ⟨⟨hnodup, hkeys⟩, hstores⟩ := h
  refine ⟨hnodup, fun key hkey => (hkeys key hkey).1, fun key hpre => ?_⟩
  by_cases hkey : key ∈ keys
  · obtain ⟨store, hstore, hmem⟩ := any_eq_true.1 (hkeys key hkey).2
    exact ⟨store, hstore, iff_of_true hkey (of_decide_eq_true hmem)⟩
  · obtain ⟨store, hstore⟩ := exists_mem_of_ne_nil stores hne
    by_cases hmem : key ∈ store
    · obtain ⟨store', hstore', hnot⟩ := any_eq_true.1 (hstores store hstore key hmem hpre hkey)
      exact ⟨store', hstore', iff_of_false hkey (of_decide_eq_true hnot)⟩
    · exact ⟨store, hstore, iff_of_false hkey hmem⟩

theorem since_now (h : ObjectHistory) : h.since h.past.length = [h.store] := by
  rw [ObjectHistory.since, Nat.add_sub_cancel_left]
  rfl

theorem since_change (h : ObjectHistory) (store : Finset String) (hn : n ≤ h.past.length) :
    (h.change store).since n = store :: h.since n := by
  rw [ObjectHistory.since, ObjectHistory.change, length_cons,
    show h.past.length + 1 + 1 - n = h.past.length + 1 - n + 1 by omega, take_succ_cons]
  rfl

theorem store_mem_since {h : ObjectHistory} {n : Nat} (hn : n ≤ h.past.length) :
    h.store ∈ h.since n := by
  rw [ObjectHistory.since, Nat.sub_add_comm hn, take_succ_cons]
  exact mem_cons_self

structure ItemInv (s : ObjectHistory) (made : Nat) (pre : String) (item : ObjectKeyCacheItem) :
    Prop where
  since : item.since ≤ s.past.length
  id : item.id < made
  seen : item.ready = true → Seen pre (s.since item.since) item.keys
  valid : item.ready = true → item.invalid = false

def CacheInv (s : ObjectHistory) (cache : ObjectKeyCache) : Prop :=
  ∀ pre item, cache.items pre = some item → ItemInv s cache.made pre item

structure Keeps (cache cache' : ObjectKeyCache) : Prop where
  made : cache.made ≤ cache'.made
  items : ∀ pre item', cache'.items pre = some item' → cache.made ≤ item'.id ∨
    ∃ item, cache.items pre = some item ∧ item'.id = item.id ∧ item'.since = item.since

structure Lists (s : ObjectHistory) (cache : ObjectKeyCache) (pre : String) (id since : Nat) :
    Prop where
  began : since ≤ s.past.length
  made : id < cache.made
  link : ∀ item, cache.items pre = some item → item.id = id → item.since = since

def CallInv (s : ObjectHistory) (cache : ObjectKeyCache) : ClientPc → Prop
  | .idle => True
  | .listing pre id since => Lists s cache pre id since
  | .listed pre id since keys => Lists s cache pre id since ∧ Seen pre (s.since since) keys
  | .changing call effects => effects ⊆ call.invalidates
  | .changed call effects => effects ⊆ call.invalidates

section Caches

variable {s : ObjectHistory} {cache cache' : ObjectKeyCache} {pre : String} {id since : Nat}
  {keys : List String} {item' : ObjectKeyCacheItem}

theorem Lists.keeps (h : Lists s cache pre id since) (hk : Keeps cache cache') :
    Lists s cache' pre id since := by
  refine ⟨h.began, h.made.trans_le hk.made, fun item' hitem' hid => ?_⟩
  rcases hk.items pre item' hitem' with hnew | ⟨item, hitem, hid', hsince⟩
  · exact absurd (hid ▸ hnew) h.made.not_ge
  · rw [hsince]
    exact h.link item hitem (hid'.symm.trans hid)

theorem Lists.change (h : Lists s cache pre id since) (store : Finset String) :
    Lists (s.change store) cache pre id since :=
  ⟨h.began.trans (Nat.le_succ _), h.made, h.link⟩

theorem CallInv.keeps (h : CallInv s cache pc) (hk : Keeps cache cache') : CallInv s cache' pc := by
  cases pc with
  | listing pre id since => exact Lists.keeps h hk
  | listed pre id since keys => exact ⟨h.1.keeps hk, h.2⟩
  | _ => exact h

theorem CallInv.change (h : CallInv s cache pc) (store : Finset String) :
    CallInv (s.change store) cache pc := by
  cases pc with
  | listing pre id since => exact Lists.change h store
  | listed pre id since keys =>
    refine ⟨h.1.change store, ?_⟩
    rw [since_change s store h.1.began]
    exact h.2.cons store
  | _ => exact h

theorem CacheInv.change (h : CacheInv s cache) (store : Finset String) :
    CacheInv (s.change store) cache := by
  intro pre item hitem
  obtain ⟨hsince, hid, hseen, hvalid⟩ := h pre item hitem
  refine ⟨hsince.trans (Nat.le_succ _), hid, fun hready => ?_, hvalid⟩
  rw [since_change s store hsince]
  exact (hseen hready).cons store

theorem items_update (h : update cache.items pre (some item) pre' = some item') :
    pre' = pre ∧ item' = item ∨ pre' ≠ pre ∧ cache.items pre' = some item' := by
  by_cases hpre : pre' = pre
  · rw [hpre, Function.update_self] at h
    exact .inl ⟨hpre, (Option.some.inj h).symm⟩
  · rw [Function.update_of_ne hpre] at h
    exact .inr ⟨hpre, h⟩

theorem keeps_add (cache : ObjectKeyCache) (pre : String) (since : Nat) :
    Keeps cache (cache.add pre since) := by
  refine ⟨Nat.le_succ _, fun pre' item' hitem' => ?_⟩
  rcases items_update hitem' with ⟨-, rfl⟩ | ⟨-, hitem⟩
  · exact .inl le_rfl
  · exact .inr ⟨item', hitem, rfl, rfl⟩

theorem CacheInv.add (h : CacheInv s cache) (pre : String) :
    CacheInv s (cache.add pre s.past.length) := by
  intro pre' item' hitem'
  rcases items_update hitem' with ⟨rfl, rfl⟩ | ⟨-, hitem⟩
  · exact ⟨le_rfl, Nat.lt_succ_self _, nofun,
      fun hready => nomatch hready⟩
  · obtain ⟨hsince, hid, hseen, hvalid⟩ := h pre' item' hitem
    exact ⟨hsince, hid.trans (Nat.lt_succ_self _), hseen, hvalid⟩

theorem lists_add (s : ObjectHistory) (cache : ObjectKeyCache) (pre : String) :
    Lists s (cache.add pre s.past.length) pre cache.made s.past.length := by
  refine ⟨le_rfl, Nat.lt_succ_self _, fun item hitem _ => ?_⟩
  rcases items_update hitem with ⟨-, rfl⟩ | ⟨hne, -⟩
  · rfl
  · exact absurd rfl hne

theorem fill_cases (cache : ObjectKeyCache) (pre : String) (id : Nat) (keys : List String) :
    cache.fill pre id keys = cache ∨ ∃ item, cache.items pre = some item ∧ item.id = id ∧
      item.invalid = false ∧ cache.fill pre id keys =
        ⟨update cache.items pre (some { item with ready := true, keys := keys }), cache.made⟩ := by
  unfold ObjectKeyCache.fill
  split
  · exact .inl rfl
  next item hitem =>
    split
    next hfill => exact .inr ⟨item, hitem, hfill.1, hfill.2, rfl⟩
    · exact .inl rfl

theorem items_fill (h : (cache.fill pre id keys).items pre' = some item') :
    ∃ item, cache.items pre' = some item ∧ item'.id = item.id ∧ item'.since = item.since ∧
      item'.invalid = item.invalid := by
  rcases fill_cases cache pre id keys with heq | ⟨item, hitem, -, -, heq⟩
  · rw [heq] at h
    exact ⟨item', h, rfl, rfl, rfl⟩
  · rw [heq] at h
    rcases items_update h with ⟨rfl, rfl⟩ | ⟨-, hitem'⟩
    · exact ⟨item, hitem, rfl, rfl, rfl⟩
    · exact ⟨item', hitem', rfl, rfl, rfl⟩

theorem keeps_fill (cache : ObjectKeyCache) (pre : String) (id : Nat) (keys : List String) :
    Keeps cache (cache.fill pre id keys) := by
  refine ⟨?_, fun pre' item' hitem' => .inr ?_⟩
  · rcases fill_cases cache pre id keys with heq | ⟨item, -, -, -, heq⟩ <;> rw [heq]
  · obtain ⟨item, hitem, hid, hsince, -⟩ := items_fill hitem'
    exact ⟨item, hitem, hid, hsince⟩

theorem CacheInv.fill (h : CacheInv s cache) (hlists : Lists s cache pre id since)
    (hseen : Seen pre (s.since since) keys) : CacheInv s (cache.fill pre id keys) := by
  rcases fill_cases cache pre id keys with heq | ⟨item, hitem, hid, hvalid, heq⟩
  · rw [heq]
    exact h
  · rw [heq]
    intro pre' item' hitem'
    rcases items_update hitem' with ⟨rfl, rfl⟩ | ⟨-, hitem'⟩
    · obtain ⟨hsince, hlt, -, -⟩ := h pre' item hitem
      exact ⟨hsince, hlt, fun _ => (hlists.link item hitem hid).symm ▸ hseen, fun _ => hvalid⟩
    · exact h pre' item' hitem'

theorem items_invalidate (h : (cache.invalidate keys).items pre = some item') :
    cache.items pre = some item' ∧ (∀ key ∈ keys, hasPrefix key pre = false) ∨
      ∃ item, cache.items pre = some item ∧ item.ready = false ∧
        item' = { item with invalid := true } := by
  unfold ObjectKeyCache.invalidate at h
  simp only at h
  split at h
  next hany =>
    split at h
    · cases h
    next item hitem =>
      split at h
      · cases h
      next hready =>
        cases h
        exact .inr ⟨item, hitem, Bool.eq_false_iff.2 hready, rfl⟩
  next hany =>
    refine .inl ⟨h, fun key hkey => Bool.eq_false_iff.2 fun hpre => hany ?_⟩
    exact any_eq_true.2 ⟨key, hkey, hpre⟩

theorem keeps_invalidate (cache : ObjectKeyCache) (keys : List String) :
    Keeps cache (cache.invalidate keys) := by
  refine ⟨le_rfl, fun pre item' hitem' => .inr ?_⟩
  rcases items_invalidate hitem' with ⟨hitem, -⟩ | ⟨item, hitem, -, rfl⟩
  · exact ⟨item', hitem, rfl, rfl⟩
  · exact ⟨item, hitem, rfl, rfl⟩

theorem CacheInv.invalidate (h : CacheInv s cache) (keys : List String) :
    CacheInv s (cache.invalidate keys) := by
  intro pre item' hitem'
  rcases items_invalidate hitem' with ⟨hitem, -⟩ | ⟨item, hitem, hready, rfl⟩
  · exact h pre item' hitem
  · obtain ⟨hsince, hid, -, -⟩ := h pre item hitem
    exact ⟨hsince, hid, fun hr => absurd (hready.symm.trans hr) Bool.false_ne_true,
      fun hr => absurd (hready.symm.trans hr) Bool.false_ne_true⟩

end Caches

section Runs

variable [DecidableEq τ] {node : τ → ν} {c : Config (ObjectStore ν) ClientPc τ} {t : τ}
  {pc : ClientPc} {store : Finset String} {call : ClientCall} {key pre : String} {s : ObjectStore ν}

structure KeyInv (node : τ → ν) (c : Config (ObjectStore ν) ClientPc τ) : Prop where
  caches : ∀ n, CacheInv c.shared.history (c.shared.caches n)
  calls : ∀ u, CallInv c.shared.history (c.shared.caches (node u)) (c.threads u)

theorem KeyInv.move (h : KeyInv node c)
    (hpc : CallInv c.shared.history (c.shared.caches (node t)) pc) :
    KeyInv node (c.after t c.shared pc) :=
  ⟨h.caches, forall_after
    (P := fun u pc => CallInv c.shared.history (c.shared.caches (node u)) pc) hpc
    fun u _ => h.calls u⟩

theorem KeyInv.change (h : KeyInv node c)
    (hpc : CallInv c.shared.history (c.shared.caches (node t)) pc) :
    KeyInv node (c.after t (c.shared.change store) pc) :=
  ⟨fun n => (h.caches n).change store, forall_after
    (P := fun u pc => CallInv (c.shared.history.change store) (c.shared.caches (node u)) pc)
    (hpc.change store) fun u _ => (h.calls u).change store⟩

theorem effect_cases {store' : Finset String} (h : call.effect key store = some store') :
    key ∈ call.invalidates ∧ (store' = insert key store ∨ store' = store.erase key) := by
  cases call with
  | list pre => cases h
  | write k =>
    rw [ClientCall.effect] at h
    split at h
    · next hkey => exact ⟨mem_singleton.2 hkey, .inl (Option.some.inj h).symm⟩
    · cases h
  | remove keys =>
    rw [ClientCall.effect] at h
    split at h
    · next hkey => exact ⟨hkey, .inr (Option.some.inj h).symm⟩
    · cases h
  | copy src dst =>
    rw [ClientCall.effect] at h
    split at h
    · next hkey => exact ⟨mem_singleton.2 hkey.1, .inl (Option.some.inj h).symm⟩
    · cases h

theorem mem_effect_of_ne {store' : Finset String} (h : call.effect key store = some store')
    (hne : key' ≠ key) :
    key' ∈ store' ↔ key' ∈ store := by
  rcases (effect_cases h).2 with rfl | rfl
  · exact Finset.mem_insert.trans (or_iff_right hne)
  · exact Finset.mem_erase.trans (and_iff_right hne)

omit [DecidableEq τ] in
theorem KeyInv.start (store : Finset String) : KeyInv node (ObjectStore.start store) := by
  refine ⟨fun n pre item hitem => ?_, fun _ => trivial⟩
  cases hitem

def Pending (c : Config (ObjectStore ν) ClientPc τ) (key : String) : Prop :=
  ∃ u, key ∈ (c.threads u).effects

def Unchanged (c : Config (ObjectStore ν) ClientPc τ) (pre : String) (n : Nat) : Prop :=
  ∀ key, hasPrefix key pre → Pending c key ∨
    ∀ store ∈ c.shared.history.since n, (key ∈ store ↔ key ∈ c.shared.history.store)

structure OwnInv (node : τ → ν) (n : ν) (c : Config (ObjectStore ν) ClientPc τ) : Prop where
  owner : ∀ u, (c.threads u).changes = true → node u = n
  fresh : ∀ pre item, (c.shared.caches n).items pre = some item → item.invalid = false →
    Unchanged c pre item.since

theorem Pending.after (h : Pending c key) (hpc : (c.threads t).effects ⊆ pc.effects) :
    Pending (c.after t s pc) key := by
  obtain ⟨u, hu⟩ := h
  by_cases hut : u = t
  · refine ⟨t, ?_⟩
    rw [threads_after_self]
    exact hpc (hut ▸ hu)
  · refine ⟨u, ?_⟩
    rwa [threads_after_of_ne c hut]

theorem Unchanged.move (h : Unchanged c pre k) (hs : s.history = c.shared.history)
    (hpc : (c.threads t).effects ⊆ pc.effects) : Unchanged (c.after t s pc) pre k := by
  intro key hkey
  refine (h key hkey).imp (fun hpending => hpending.after hpc) fun hsame => ?_
  rw [shared_after, hs]
  exact hsame

omit [DecidableEq τ] in
theorem unchanged_now (c : Config (ObjectStore ν) ClientPc τ) (pre : String) :
    Unchanged c pre c.shared.history.past.length := by
  refine fun key _ => .inr fun store hstore => ?_
  rw [since_now, mem_singleton] at hstore
  rw [hstore]

theorem Unchanged.change (h : Unchanged c pre k) (hk : k ≤ c.shared.history.past.length)
    {effects : List String} (ht : (c.threads t).effects = effects)
    (heffect : call.effect key c.shared.history.store = some store) :
    Unchanged (c.after t (c.shared.change store)
      (.changing call (key :: effects))) pre k := by
  intro key' hkey'
  by_cases hkey : key' = key
  · refine .inl ⟨t, ?_⟩
    rw [threads_after_self, hkey]
    exact mem_cons_self
  · rcases h key' hkey' with hpending | hsame
    · refine .inl (hpending.after ?_)
      rw [ht]
      exact subset_cons_self _ _
    · refine .inr fun store' hstore' => ?_
      rw [shared_after, ObjectStore.change, since_change _ _ hk] at hstore'
      rcases mem_cons.1 hstore' with rfl | hstore'
      · rfl
      · rw [hsame store' hstore']
        exact (mem_effect_of_ne heffect hkey).symm

variable [DecidableEq ν]

theorem caches_setCache (s : ObjectStore ν) (n m : ν) (cache : ObjectKeyCache) :
    (s.setCache n cache).caches m = if m = n then cache else s.caches m :=
  Function.update_apply ..

theorem KeyInv.locked (h : KeyInv node c) (hcache : CacheInv c.shared.history cache)
    (hkeeps : Keeps (c.shared.caches (node t)) cache) (hpc : CallInv c.shared.history cache pc) :
    KeyInv node (c.after t (c.shared.setCache (node t) cache) pc) := by
  refine ⟨fun n => ?_, forall_after (P := fun u pc => CallInv c.shared.history
    ((c.shared.setCache (node t) cache).caches (node u)) pc) ?_ fun u _ => ?_⟩
  · rw [shared_after, caches_setCache]
    split
    · exact hcache
    · exact h.caches n
  · rw [caches_setCache, if_pos rfl]
    exact hpc
  · rw [caches_setCache]
    split
    next hu => exact (hu ▸ h.calls u).keeps hkeeps
    · exact h.calls u

theorem KeyInv.step (h : KeyInv node c) {x : ClientChoice} {es : List (ClientEvent τ)}
    (hshape : ClientShape node t x c.shared (c.threads t) s pc es) :
    KeyInv node (c.after t s pc) := by
  have hcall := h.calls t
  have hcache := h.caches (node t)
  generalize c.threads t = pc₀ at hshape hcall
  cases hshape with
  | hit => exact h.move trivial
  | miss => exact h.locked (hcache.add _) (keeps_add ..) (lists_add ..)
  | begin => exact h.move (nil_subset _)
  | answer hanswers =>
    refine h.move ⟨hcall, seen_of_answers hanswers ?_⟩
    exact ne_nil_of_mem (store_mem_since hcall.began)
  | fail => exact h.move trivial
  | fill => exact h.locked (hcache.fill hcall.1 hcall.2) (keeps_fill ..) trivial
  | effect heffect =>
    exact h.change (cons_subset.2 ⟨(effect_cases heffect).1, hcall⟩)
  | returned => exact h.move hcall
  | invalidate => exact h.locked (hcache.invalidate _) (keeps_invalidate ..) trivial

theorem KeyInv.reach {log : List (ClientEvent τ)}
    (h : Reach (ObjectStore.step node) ok (ObjectStore.start store) c log) : KeyInv node c :=
  reach_invariant (I := fun c _ => KeyInv node c) (KeyInv.start store)
    (fun _ _ _ _ _ _ _ h _ hstep => h.step (step_shape hstep)) h

theorem Unchanged.invalidate (h : Unchanged c pre k) {effects : List String}
    (ht : (c.threads t).effects = effects) (hsub : effects ⊆ call.invalidates)
    (hnot : ∀ key ∈ call.invalidates, hasPrefix key pre = false) :
    Unchanged (c.after t (c.shared.setCache (node t) cache) .idle) pre k := by
  intro key hkey
  refine (h key hkey).imp (fun ⟨u, hu⟩ => ⟨u, ?_⟩) fun hsame => hsame
  have hut : u ≠ t := by
    intro hut
    rw [hut, ht] at hu
    exact absurd (hnot key (hsub hu)) (Bool.eq_false_iff.not.2 (not_not.2 hkey))
  rwa [threads_after_of_ne c hut]

def ownChanges (node : τ → ν) (n : ν) :
    Guard (ObjectStore ν) ClientPc τ ClientChoice (ClientEvent τ) := fun _ _ t x =>
  match x with
  | .call call => call.isList || node t = n
  | _ => true

section Own

variable {n : ν} {x : ClientChoice} {s : ObjectStore ν} {pc : ClientPc} {es : List (ClientEvent τ)}
  {log : List (ClientEvent τ)}

omit [DecidableEq ν] in
theorem OwnInv.move (h : OwnInv node n c) (hs : s.history = c.shared.history)
    (hcache : s.caches n = c.shared.caches n) (hpc : (c.threads t).effects ⊆ pc.effects)
    (howner : pc.changes = true → node t = n) : OwnInv node n (c.after t s pc) := by
  refine ⟨forall_after (P := fun u pc => ClientPc.changes pc = true → node u = n) howner
    fun u _ => h.owner u, fun pre item hitem hvalid => ?_⟩
  rw [shared_after, hcache] at hitem
  exact (h.fresh pre item hitem hvalid).move hs hpc

theorem OwnInv.locked (h : OwnInv node n c) {cache : ObjectKeyCache} (hpc : pc.changes = false)
    (hfresh : node t = n → ∀ pre item, cache.items pre = some item → item.invalid = false →
      Unchanged (c.after t (c.shared.setCache (node t) cache) pc) pre item.since)
    (heffects : node t ≠ n → (c.threads t).effects ⊆ pc.effects) :
    OwnInv node n (c.after t (c.shared.setCache (node t) cache) pc) := by
  refine ⟨forall_after (P := fun u pc => ClientPc.changes pc = true → node u = n)
    (fun hchanges => absurd (hpc.symm.trans hchanges) Bool.false_ne_true)
    fun u _ => h.owner u, fun pre item hitem hvalid => ?_⟩
  rw [shared_after, caches_setCache] at hitem
  split at hitem
  next hn => exact hfresh hn.symm pre item hitem hvalid
  next hn => exact (h.fresh pre item hitem hvalid).move rfl (heffects (Ne.symm hn))

theorem OwnInv.step (hkey : KeyInv node c) (h : OwnInv node n c)
    (hok : ownChanges node n c log t x = true)
    (hshape : ClientShape node t x c.shared (c.threads t) s pc es) :
    OwnInv node n (c.after t s pc) := by
  have hcall := hkey.calls t
  have howner := h.owner t
  generalize hpc : c.threads t = pc₀ at hshape hcall howner
  cases hshape with
  | hit | answer | fail =>
    exact h.move rfl rfl (hpc ▸ List.Subset.refl _) nofun
  | miss =>
    refine h.locked rfl (fun hn pre item hitem hvalid => ?_) fun _ => hpc ▸ List.Subset.refl _
    rcases items_update hitem with ⟨-, rfl⟩ | ⟨-, hitem⟩
    · exact unchanged_now _ _
    · exact (h.fresh pre item (hn ▸ hitem) hvalid).move rfl (hpc ▸ List.Subset.refl _)
  | begin hx hlist =>
    subst hx
    refine h.move rfl rfl (hpc ▸ List.Subset.refl _) fun _ => ?_
    simpa [ownChanges, hlist] using hok
  | fill =>
    refine h.locked rfl (fun hn pre item hitem hvalid => ?_) fun _ => hpc ▸ List.Subset.refl _
    obtain ⟨item', hitem', -, hsince, hinvalid⟩ := items_fill hitem
    rw [hsince]
    exact (h.fresh pre item' (hn ▸ hitem') (hinvalid ▸ hvalid)).move rfl
      (hpc ▸ List.Subset.refl _)
  | effect heffect =>
    refine ⟨forall_after (P := fun u pc => ClientPc.changes pc = true → node u = n)
      (fun _ => howner rfl) fun u _ => h.owner u, fun pre item hitem hvalid => ?_⟩
    have hsince := (hkey.caches n pre item hitem).since
    exact (h.fresh pre item hitem hvalid).change hsince (congrArg ClientPc.effects hpc) heffect
  | returned => exact h.move rfl rfl (hpc ▸ List.Subset.refl _) fun _ => howner rfl
  | invalidate =>
    refine h.locked rfl (fun hn pre item hitem hvalid => ?_) fun hn => absurd (howner rfl) hn
    rcases items_invalidate hitem with ⟨hitem, hnot⟩ | ⟨item', -, -, rfl⟩
    · exact (h.fresh pre item (hn ▸ hitem) hvalid).invalidate (congrArg ClientPc.effects hpc)
        hcall hnot
    · cases hvalid

omit [DecidableEq τ] [DecidableEq ν] in
theorem OwnInv.start (store : Finset String) : OwnInv node n (ObjectStore.start store) := by
  refine ⟨fun u hu => ?_, fun pre item hitem => ?_⟩
  · cases hu
  · cases hitem

theorem OwnInv.reach {store : Finset String}
    (h : Reach (ObjectStore.step node) (ownChanges node n) (ObjectStore.start store) c log) :
    KeyInv node c ∧ OwnInv node n c :=
  reach_invariant (I := fun c _ => KeyInv node c ∧ OwnInv node n c)
    ⟨KeyInv.start store, OwnInv.start store⟩
    (fun _ _ _ _ _ _ _ h hok hstep =>
      ⟨h.1.step (step_shape hstep), OwnInv.step h.1 h.2 hok (step_shape hstep)⟩) h

end Own

end Runs

end KeyCacheLemmas

open KeyCacheLemmas

/-- If one process makes all changes, then a list of keys from an item of its cache that is ready
has the keys in the store, when no call is between a change and the end of its `Invalidate`. -/
theorem ready_item_current [DecidableEq ν] [DecidableEq τ] {node : τ → ν} {n : ν}
    {store : Finset String} {c : Config (ObjectStore ν) ClientPc τ} {log : List (ClientEvent τ)}
    (hreach : Reach (ObjectStore.step node) (ownChanges node n) (ObjectStore.start store) c log)
    (hquiet : ∀ u, (c.threads u).effects = []) {t : τ} (ht : node t = n) {x : ClientChoice}
    {s : ObjectStore ν} {pc : ClientPc} {pre : String} {keys : List String}
    (hstep : ObjectStore.step node t x c.shared (c.threads t) = some (s, pc, [.hit t pre keys])) :
    keys.Nodup ∧ ∀ key, key ∈ keys ↔ key ∈ c.shared.history.store ∧ hasPrefix key pre := by
  obtain ⟨hkey, hown⟩ := OwnInv.reach hreach
  obtain ⟨item, hitem, hready, rfl⟩ := item_of_hit (step_shape hstep)
  obtain ⟨hsince, -, hseen, hvalid⟩ := hkey.caches (node t) pre item hitem
  have hfresh := hown.fresh pre item (ht ▸ hitem) (hvalid hready)
  refine ⟨(hseen hready).nodup, fun key => ?_⟩
  by_cases hpre : hasPrefix key pre
  · rcases hfresh key hpre with ⟨u, hu⟩ | hsame
    · rw [hquiet u] at hu
      cases hu
    · obtain ⟨st, hst, hiff⟩ := (hseen hready).seen key hpre
      rw [hiff, hsame st hst]
      exact (and_iff_left hpre).symm
  · exact iff_of_false (fun hmem => hpre ((hseen hready).under key hmem)) fun hmem => hpre hmem.2

def overtaken : List (Bool × ClientChoice) :=
  [(true, .call (.list "a")), (true, .answer ["a"]), (false, .call (.write "ab")),
    (false, .effect "ab"), (false, .proceed), (false, .proceed), (true, .proceed),
    (true, .call (.list "a")), (true, .answer ["a", "ab"]), (true, .proceed)]

theorem ready_item_current_overtaken :
    ∃ c s, ∃ log : List (ClientEvent Bool),
      run (ObjectStore.step fun _ => ()) (ownChanges (fun _ => ()) ()) overtaken
        (ObjectStore.start {"a"}) [] = some (c, log) ∧
      ObjectStore.step (fun _ => ()) true (.call (.list "a")) c.shared (c.threads true) =
        some (s, .idle, [.hit true "a" ["a", "ab"]]) ∧
      ∀ key, key ∈ ["a", "ab"] ↔ key ∈ c.shared.history.store ∧ hasPrefix key "a" :=
  ⟨_, _, _, rfl, rfl, (@ready_item_current Unit Bool _ _ (fun _ => ()) () {"a"} _ _
    ⟨overtaken, rfl⟩ (by decide) true rfl (.call (.list "a")) _ .idle "a" _ rfl).2⟩

end SeaSearch

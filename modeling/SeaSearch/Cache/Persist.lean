import SeaSearch.Cache.LruCache

/-!
# What `Load` returns

`Persist` writes a file through a writer of the cache and uploads it.
-/

namespace SeaSearch

open List Threads
open LruCache (start step)

variable {τ β : Type}

def CachePc.bytes : CachePc β → Option β
  | .fetched b => some b
  | .waiting b _ => some b
  | .copying b _ => some b
  | .written _ b => some b
  | .closing _ b true => some b
  | .unlinking b true => some b
  | .renaming b true => some b
  | _ => none

structure ByteShape (m : LruCache β) (pc : CachePc β) (x : CacheChoice β) (m' : LruCache β)
    (pc' : CachePc β) (es : List (CacheEvent τ β)) : Prop where
  file : ∀ b, m'.file = some b → m.file = some b ∨ pc.bytes = some b ∨
    (pc = .renaming b false ∧ x = .proceed) ∨ (pc = .idle ∧ x = .update b)
  remote : ∀ b, m'.remote = some b → m.remote = some b ∨ pc.bytes = some b
  bytes : ∀ b, pc'.bytes = some b →
    pc.bytes = some b ∨ m.remote = some b ∨ .finished b ∈ es
  loaded : ∀ b, .loaded b ∈ es → m.file = some b

theorem ByteShape.keep {m m' : LruCache β} {pc pc' : CachePc β} {x : CacheChoice β}
    {es : List (CacheEvent τ β)} (hf : m'.file = m.file ∨ m'.file = none)
    (hr : m'.remote = m.remote ∨ m'.remote = none)
    (hb : pc'.bytes = pc.bytes ∨ pc'.bytes = none) (he : ∀ b, .loaded b ∉ es) :
    ByteShape m pc x m' pc' es := by
  have hkeep : ∀ {o o' : Option β} {b : β} {P : Prop}, o' = o ∨ o' = none → o' = some b →
      o = some b ∨ P := by
    rintro o _ b P (rfl | rfl) h
    · exact .inl h
    · cases h
  exact ⟨fun _ => hkeep hf, fun _ => hkeep hr, fun _ => hkeep hb, fun b hmem => absurd hmem (he b)⟩

namespace PersistLemmas

theorem step_bytes {t : τ} {x : CacheChoice β} {m m' : LruCache β} {pc pc' : CachePc β}
    {es : List (CacheEvent τ β)} (h : step t x m pc = some (m', pc', es)) :
    ByteShape m pc x m' pc' es := by
  unfold step at h
  split at h
  case h_1 =>
    split at h
    · cases h; exact .keep (.inl rfl) (.inl rfl) (.inl rfl) (by simp)
    · split at h <;> cases h <;> exact .keep (.inl rfl) (.inl rfl) (.inl rfl) (by simp)
  case h_2 =>
    obtain ⟨e, -, rfl, rfl, rfl⟩ := by simpa using h
    exact .keep (.inl rfl) (.inl rfl) (.inl rfl) (by simp)
  case h_3 =>
    obtain ⟨b, hr, rfl, rfl, rfl⟩ := by simpa using h
    refine ⟨fun _ => .inl, fun _ => .inl, ?_, by simp⟩
    rintro b' hb'
    cases hb'
    exact .inr (.inl hr)
  case h_4 =>
    split at h <;> cases h
    · exact .keep (.inl rfl) (.inl rfl) (.inr rfl) (by simp)
    · exact .keep (.inl rfl) (.inl rfl) (.inl rfl) (by simp)
    · exact .keep (.inl rfl) (.inl rfl) (.inl rfl) (by simp)
  case h_13 =>
    obtain ⟨b, hf, rfl, rfl, rfl⟩ := by simpa using h
    refine ⟨fun _ => .inl, fun _ => .inl, fun _ => .inl, ?_⟩
    intro b' hb'
    obtain rfl : b' = b := by simpa using hb'
    exact hf
  case h_6 | h_35 =>
    obtain ⟨-, rfl, rfl, rfl⟩ := by simpa using h
    exact .keep (.inl rfl) (.inl rfl) (.inl rfl) (by simp)
  case h_36 =>
    split at h <;> cases h
    · exact .keep (.inl rfl) (.inl rfl) (.inl rfl) (by simp)
    · exact .keep (.inr rfl) (.inl rfl) (.inl rfl) (by split <;> simp)
  case h_12 | h_15 | h_37 =>
    split at h <;> cases h <;> exact .keep (.inl rfl) (.inl rfl) (.inl rfl) (by simp)
  case h_39 => cases h
  all_goals cases h
  case h_7 b ch =>
    refine ⟨?_, fun _ => .inl, by nofun, by simp⟩
    rintro b' hb'
    exact .inr (.inl hb')
  case h_18 e b =>
    refine ⟨fun _ => .inl, fun _ => .inl, ?_, by simp⟩
    rintro b' hb'
    cases hb'
    exact .inr (.inr mem_cons_self)
  case h_22 e b =>
    refine ⟨fun _ => .inl, fun _ => .inr, fun _ => .inl, by simp⟩
  case h_26 b whole =>
    refine ⟨?_, fun _ => .inl, by nofun, by simp⟩
    rintro b' hb'
    cases hb'
    cases whole with
    | false => exact .inr (.inr (.inl ⟨rfl, rfl⟩))
    | true => exact .inr (.inl rfl)
  case h_30 b =>
    refine ⟨?_, fun _ => .inl, by nofun, by simp⟩
    rintro b' hb'
    cases hb'
    exact .inr (.inr (.inr ⟨rfl, rfl⟩))
  case h_20 | h_31 => exact .keep (.inr rfl) (.inl rfl) (.inl rfl) (by simp)
  case h_24 e b whole | h_25 b whole =>
    exact .keep (.inl rfl) (.inl rfl) (.inl (by cases whole <;> rfl)) (by simp)
  case h_33 => exact .keep (.inl rfl) (.inr rfl) (.inl rfl) (by simp)
  case h_5 | h_8 | h_27 => exact .keep (.inl rfl) (.inl rfl) (.inr rfl) (by simp)
  all_goals exact .keep (.inl rfl) (.inl rfl) (.inl rfl) (by simp)

end PersistLemmas

/-- What `Load` returns has been written by a `WriteTo` that finished. -/
def ServesWhole (log : List (CacheEvent τ β)) : Prop :=
  ∀ before later b, log = before ++ .loaded b :: later → .finished b ∈ before

/-- `Close` of a writer whose `WriteTo` failed does not succeed in renaming its temporary
file, and the file is not one that `UpdateCacheFile` updates, which no directory does. -/
def dropsPartial : Guard (LruCache β) (CachePc β) τ (CacheChoice β) (CacheEvent τ β) :=
  fun c _ t x =>
    match c.threads t, x with
    | .renaming _ false, .proceed => false
    | .idle, .update _ => false
    | _, _ => true

namespace PersistLemmas

structure WholeInv (c : CacheConfig β τ) (log : List (CacheEvent τ β)) :
    Prop where
  file : ∀ b, c.shared.file = some b → .finished b ∈ log
  remote : ∀ b, c.shared.remote = some b → .finished b ∈ log
  bytes : ∀ t b, (c.threads t).bytes = some b → .finished b ∈ log
  serves : ServesWhole log

theorem whole_step [DecidableEq τ] {log es : List (CacheEvent τ β)} {pc' : CachePc β}
    (h : WholeInv c log) (hok : dropsPartial c log t x = true)
    (hs : step t x c.shared (c.threads t) = some (m', pc', es)) :
    WholeInv (c.after t m' pc') (log ++ es) := by
  have hbytes := step_bytes hs
  refine ⟨?_, ?_, ?_, ?_⟩
  · intro b hb
    refine mem_append_left es ?_
    rcases hbytes.file b hb with hold | hpc | ⟨hpc, rfl⟩ | ⟨hpc, rfl⟩
    · exact h.file b hold
    · exact h.bytes t b hpc
    · simp [dropsPartial, hpc] at hok
    · simp [dropsPartial, hpc] at hok
  · intro b hb
    refine mem_append_left es ?_
    exact (hbytes.remote b hb).elim (h.remote b) (h.bytes t b)
  · refine forall_after (P := fun (_ : τ) (l : CachePc β) => ∀ b, l.bytes = some b →
      CacheEvent.finished b ∈ log ++ es) ?_ ?_
    · intro b hb
      rcases hbytes.bytes b hb with hpc | hr | hnew
      · exact mem_append_left es (h.bytes t b hpc)
      · exact mem_append_left es (h.remote b hr)
      · exact mem_append_right log hnew
    · exact fun u _ b hb => mem_append_left es (h.bytes u b hb)
  · intro before later b heq
    rcases split_append heq with ⟨later', hlog⟩ | ⟨before', later', hes, rfl⟩
    · exact h.serves before later' b hlog
    · have hmem : .loaded b ∈ es := by simp [hes]
      exact mem_append_left before' (h.file b (hbytes.loaded b hmem))

end PersistLemmas

open PersistLemmas in
/-- In every run in which a writer whose `WriteTo` failed does not rename its temporary file,
every `Load` returns what a `WriteTo` that finished before has written. -/
theorem served_whole [DecidableEq τ] {c : CacheConfig β τ}
    {log : List (CacheEvent τ β)} (h : Reach step dropsPartial start c log) :
    ServesWhole log := by
  have hinv : WholeInv c log := by
    refine reach_invariant (I := fun c log => WholeInv c log) ?_ ?_ h
    · refine ⟨?_, ?_, ?_, by simp [ServesWhole]⟩
      · exact nofun
      · exact nofun
      · exact nofun
    · intro c log t x m' pc' es hinv hok hs
      exact whole_step hinv hok hs
  exact hinv.serves

/-- A `Persist` whose `WriteTo` fails after it has written 3. Its writer cannot rename the
temporary file. Then another one writes 7, which is evicted and loaded from the store. -/
def failedThenPersisted : List (Fin 2 × CacheChoice Nat) :=
  [(0, .openWriter), (0, .proceed), (0, .writeFail 3), (0, .proceed), (0, .proceed),
    (0, .proceed), (0, .fail)] ++ persisted 7 ++
  [(1, .evict), (1, .proceed), (1, .get), (1, .read), (1, .proceed), (1, .proceed), (1, .proceed),
    (1, .proceed), (1, .load)]

theorem served_whole_failedThenPersisted :
    ∃ c log, run step dropsPartial failedThenPersisted start [] =
        some (c, log) ∧
      log = [.finished 7, .evicted, .got 1, .loaded 7] ∧ ServesWhole log :=
  ⟨_, _, rfl, rfl, served_whole ⟨failedThenPersisted, rfl⟩⟩

/-- `WriteTo` fails after it has written 3. There are other files in the directory, so
`Remove` leaves it there and the writer can rename its temporary file: a `Load` returns 3,
although no `WriteTo` has finished. -/
theorem partial_served :
    ∃ c log, run step free
        ([(0, .openWriter), (0, .proceed), (0, .writeFail 3), (0, .proceed), (0, .proceed),
          (0, .proceed), (0, .proceed), (0, .proceed), (1, .get), (1, .load)] :
          List (Fin 2 × CacheChoice Nat)) start [] = some (c, log) ∧
      log = [.got 1, .loaded 3] ∧ ¬ ServesWhole log := by
  refine ⟨_, _, rfl, rfl, ?_⟩
  intro hserves
  have hmem := hserves [.got 1] [] 3 rfl
  simp at hmem

end SeaSearch

import SeaSearch.Mapping.Check

/-!
# The arrays of a document

The flat document has the arrays of the document, not copies of them. An array is known by its
address: the positions of the values that it is in. What is written to an array is then also in the
document, at the address of the array.
-/

namespace SeaSearch

namespace Mapping

open List Versions

variable {N : Type}

abbrev Address := List Nat

def readAt : Address → Json N → Option (Json N)
  | [], v => some v
  | i :: addr, .map fields => (fields[i]?).bind fun field => readAt addr field.2
  | i :: addr, .list items => (items[i]?).bind (readAt addr)
  | _ :: _, _ => none

def writeAt (new : Json N) : Address → Json N → Json N
  | [], _ => new
  | i :: addr, .map fields =>
    .map (fields.modify i fun field => (field.1, writeAt new addr field.2))
  | i :: addr, .list items => .list (items.modify i (writeAt new addr))
  | _ :: _, v => v

def flatAt : Address → Json N → Option (Json N)
  | [], .map _ => none
  | [], .list items => if items.all isMapOrSlice then none else some (.list items)
  | [], v => some v
  | i :: addr, .map fields => (fields[i]?).bind fun field => flatAt addr field.2
  | i :: addr, .list items =>
    if items.all isMapOrSlice then (items[i]?).bind (flatAt addr) else none
  | _ :: _, _ => none

def keyAt : String → Address → Json N → String
  | key, i :: addr, .map fields =>
    match fields[i]? with
    | some field => keyAt (key ++ "." ++ field.1) addr field.2
    | none => key
  | key, i :: addr, .list items =>
    match items[i]? with
    | some v => keyAt (key ++ "." ++ toString i) addr v
    | none => key
  | key, _, _ => key

/-- Neither of the two is inside the other. -/
def Apart (a b : Address) : Prop := ¬ a <+: b ∧ ¬ b <+: a

namespace SharedLemmas

variable {a b : Address} {v new old x y : Json N}

theorem readAt_writeAt_self (h : readAt a v = some old) :
    readAt a (writeAt new a v) = some new := by
  induction a generalizing v with
  | nil => rfl
  | cons i a ih =>
    cases v with
    | map fields =>
      rw [readAt] at h
      obtain ⟨field, hfield, hread⟩ := Option.bind_eq_some_iff.1 h
      rw [writeAt, readAt, List.getElem?_modify_eq, hfield]
      exact ih hread
    | list items =>
      rw [readAt] at h
      obtain ⟨item, hitem, hread⟩ := Option.bind_eq_some_iff.1 h
      rw [writeAt, readAt, List.getElem?_modify_eq, hitem]
      exact ih hread
    | _ => cases h

theorem modify_of_fixed {β : Type} {l : List β} {i : Nat} {item : β} {f : β → β}
    (hitem : l[i]? = some item) (hf : f item = item) : l.modify i f = l := by
  refine ext_getElem? fun j => ?_
  by_cases hij : i = j
  · subst hij
    rw [List.getElem?_modify_eq, hitem]
    exact congrArg some hf
  · rw [List.getElem?_modify_ne _ _ hij]

theorem writeAt_self (h : readAt a v = some old) : writeAt old a v = v := by
  induction a generalizing v with
  | nil => exact (Option.some.inj h).symm
  | cons i a ih =>
    cases v with
    | map fields =>
      rw [readAt] at h
      obtain ⟨field, hfield, hread⟩ := Option.bind_eq_some_iff.1 h
      exact congrArg Json.map (modify_of_fixed hfield (congrArg (Prod.mk field.1) (ih hread)))
    | list items =>
      rw [readAt] at h
      obtain ⟨item, hitem, hread⟩ := Option.bind_eq_some_iff.1 h
      exact congrArg Json.list (modify_of_fixed hitem (ih hread))
    | _ => cases h

theorem readAt_writeAt_apart (h : Apart a b) : readAt b (writeAt new a v) = readAt b v := by
  induction a generalizing b v with
  | nil => exact absurd nil_prefix h.1
  | cons i a ih =>
    cases b with
    | nil => exact absurd nil_prefix h.2
    | cons j b =>
      by_cases hij : i = j
      · subst hij
        have hrest : Apart a b := by
          simpa [Apart, cons_prefix_cons] using h
        cases v with
        | map fields =>
          rw [writeAt, readAt, readAt, List.getElem?_modify_eq]
          cases fields[i]? with
          | none => rfl
          | some field => exact ih hrest
        | list items =>
          rw [writeAt, readAt, readAt, List.getElem?_modify_eq]
          cases items[i]? with
          | none => rfl
          | some item => exact ih hrest
        | _ => rfl
      · cases v with
        | map _ | list _ => rw [writeAt, readAt, readAt, List.getElem?_modify_ne _ _ hij]
        | _ => rfl

theorem readAt_of_flatAt (h : flatAt a v = some x) : readAt a v = some x := by
  induction a generalizing v with
  | nil =>
    cases v with
    | map fields => cases h
    | list items =>
      rw [flatAt] at h
      split at h
      · cases h
      · exact h
    | _ => exact h
  | cons i a ih =>
    cases v with
    | map fields =>
      rw [flatAt] at h
      obtain ⟨field, hfield, hflat⟩ := Option.bind_eq_some_iff.1 h
      rw [readAt, hfield]
      exact ih hflat
    | list items =>
      rw [flatAt] at h
      split at h
      · obtain ⟨item, hitem, hflat⟩ := Option.bind_eq_some_iff.1 h
        rw [readAt, hitem]
        exact ih hflat
      · cases h
    | _ => cases h

theorem eq_of_both_flat (hab : a <+: b) (ha : flatAt a v = some x) (hb : flatAt b v = some y) :
    a = b := by
  induction a generalizing b v with
  | nil =>
    cases b with
    | nil => rfl
    | cons j b =>
      cases v with
      | map fields => cases ha
      | list items =>
        rw [flatAt] at hb
        split at hb
        · next hall =>
          rw [flatAt.eq_def] at ha
          dsimp only at ha
          rw [if_pos hall] at ha
          cases ha
        · cases hb
      | _ => cases hb
  | cons i a ih =>
    cases b with
    | nil => cases prefix_nil.1 hab
    | cons j b =>
      obtain ⟨rfl, hrest⟩ := cons_prefix_cons.1 hab
      congr 1
      cases v with
      | map fields =>
        rw [flatAt] at ha hb
        cases hfield : fields[i]? with
        | none =>
          rw [hfield] at ha
          cases ha
        | some field =>
          rw [hfield] at ha hb
          exact ih hrest ha hb
      | list items =>
        rw [flatAt] at ha hb
        split at ha
        · next hall =>
          rw [if_pos hall] at hb
          cases hitem : items[i]? with
          | none =>
            rw [hitem] at ha
            cases ha
          | some item =>
            rw [hitem] at ha hb
            exact ih hrest ha hb
        · cases ha
      | _ => cases ha

theorem apart_of_ne (hne : a ≠ b) (ha : flatAt a v = some x) (hb : flatAt b v = some y) :
    Apart a b :=
  ⟨fun h => hne (eq_of_both_flat h ha hb), fun h => hne (eq_of_both_flat h hb ha).symm⟩

end SharedLemmas

structure Shared (N : Type) where
  addr : Address
  value : Json N

abbrev SharedFields (N : Type) := List (String × Shared N)

mutual
def shareValue (flat : SharedFields N) (key : String) (addr : Address) :
    Json N → SharedFields N
  | .map fields => shareFields flat (key ++ ".") addr 0 fields
  | .list items =>
    if items.all isMapOrSlice then shareItems flat (key ++ ".") addr 0 items
    else put Prod.fst flat (key, ⟨addr, .list items⟩)
  | .null => put Prod.fst flat (key, ⟨addr, .null⟩)
  | .bool b => put Prod.fst flat (key, ⟨addr, .bool b⟩)
  | .num x => put Prod.fst flat (key, ⟨addr, .num x⟩)
  | .str s => put Prod.fst flat (key, ⟨addr, .str s⟩)

def shareFields (flat : SharedFields N) (path : String) (addr : Address) (i : Nat) :
    Object N → SharedFields N
  | [] => flat
  | field :: fields =>
    shareFields (shareField flat path (addr ++ [i]) field) path addr (i + 1) fields

def shareField (flat : SharedFields N) (path : String) (addr : Address) :
    String × Json N → SharedFields N
  | (key, v) => shareValue flat (path ++ key) addr v

def shareItems (flat : SharedFields N) (path : String) (addr : Address) (i : Nat) :
    List (Json N) → SharedFields N
  | [] => flat
  | v :: items =>
    shareItems (shareValue flat (path ++ toString i) (addr ++ [i]) v) path addr (i + 1) items
end

/-- `Flatten`, with addresses. -/
def share (doc : Object N) : SharedFields N := shareFields [] "" [] 0 doc

def unshare (flat : SharedFields N) : Object N :=
  flat.map fun entry => (entry.1, entry.2.value)

namespace SharedLemmas

theorem unshare_put (flat : SharedFields N) (key : String) (ref : Shared N) :
    unshare (put Prod.fst flat (key, ref)) = put Prod.fst (unshare flat) (key, ref.value) := by
  rw [unshare, put, put, map_append, unshare, filter_map]
  rfl

mutual
theorem unshare_value (flat : SharedFields N) (key : String) (addr : Address) :
    ∀ v : Json N, unshare (shareValue flat key addr v) = flattenValue (unshare flat) key v
  | .map fields => by
    rw [shareValue, flattenValue]
    exact unshare_fields flat (key ++ ".") addr 0 fields
  | .list items => by
    rw [shareValue, flattenValue]
    split
    · exact unshare_items flat (key ++ ".") addr 0 items
    · exact unshare_put flat key _
  | .null | .bool _ | .num _ | .str _ => unshare_put flat key _

theorem unshare_fields (flat : SharedFields N) (path : String) (addr : Address) (i : Nat) :
    ∀ fields : Object N,
      unshare (shareFields flat path addr i fields) = flattenFields (unshare flat) path fields
  | [] => rfl
  | field :: fields => by
    rw [shareFields, flattenFields, unshare_fields _ path addr (i + 1) fields,
      unshare_field flat path (addr ++ [i]) field]

theorem unshare_field (flat : SharedFields N) (path : String) (addr : Address) :
    ∀ field : String × Json N,
      unshare (shareField flat path addr field) = flattenField (unshare flat) path field
  | (key, v) => by
    rw [shareField, flattenField]
    exact unshare_value flat (path ++ key) addr v

theorem unshare_items (flat : SharedFields N) (path : String) (addr : Address) (i : Nat) :
    ∀ items : List (Json N),
      unshare (shareItems flat path addr i items) = flattenItems (unshare flat) path i items
  | [] => rfl
  | v :: items => by
    rw [shareItems, flattenItems, unshare_items _ path addr (i + 1) items,
      unshare_value flat (path ++ toString i) (addr ++ [i]) v]
end

theorem flatten_share (doc : Object N) : unshare (share doc) = flatten doc :=
  unshare_fields [] "" [] 0 doc

def From (key : String) (addr : Address) (v : Json N) (entry : String × Shared N) : Prop :=
  ∃ a x, entry = (keyAt key a v, ⟨addr ++ a, x⟩) ∧ flatAt a v = some x

theorem mem_put {flat : SharedFields N} {new entry : String × Shared N}
    (h : entry ∈ put Prod.fst flat new) : entry ∈ flat ∨ entry = new := by
  rw [put, mem_append, mem_singleton] at h
  exact h.imp_left fun hmem => (mem_filter.1 hmem).1

theorem mem_put_leaf {flat : SharedFields N} {key : String} {addr : Address}
    (hleaf : flatAt [] v = some v) {entry : String × Shared N}
    (h : entry ∈ put Prod.fst flat (key, ⟨addr, v⟩)) : entry ∈ flat ∨ From key addr v entry := by
  refine (mem_put h).imp_right fun heq => ⟨[], v, ?_, hleaf⟩
  rw [heq, keyAt.eq_def, append_nil]

mutual
theorem mem_shareValue (flat : SharedFields N) (key : String) (addr : Address) :
    ∀ (v : Json N) {entry}, entry ∈ shareValue flat key addr v →
      entry ∈ flat ∨ From key addr v entry
  | .map fields, entry, h => by
    rw [shareValue] at h
    refine (mem_shareFields flat (key ++ ".") addr 0 fields h).imp_right ?_
    rintro ⟨j, field, hfield, a, x, rfl, hflat⟩
    refine ⟨j :: a, x, ?_, ?_⟩
    · rw [keyAt, hfield, zero_add, append_assoc, singleton_append]
    · rw [flatAt, hfield]
      exact hflat
  | .list items, entry, h => by
    rw [shareValue] at h
    split at h
    · next hall =>
      refine (mem_shareItems flat (key ++ ".") addr 0 items h).imp_right ?_
      rintro ⟨j, item, hitem, a, x, rfl, hflat⟩
      refine ⟨j :: a, x, ?_, ?_⟩
      · rw [keyAt, hitem, zero_add, append_assoc, singleton_append]
      · rw [flatAt, if_pos hall, hitem]
        exact hflat
    · next hall => exact mem_put_leaf (by rw [flatAt, if_neg hall]) h
  | .null, _, h | .bool _, _, h | .num _, _, h | .str _, _, h => mem_put_leaf rfl h

theorem mem_shareFields (flat : SharedFields N) (path : String) (addr : Address) (i : Nat) :
    ∀ (fields : Object N) {entry}, entry ∈ shareFields flat path addr i fields →
      entry ∈ flat ∨ ∃ j field, fields[j]? = some field ∧
        From (path ++ field.1) (addr ++ [i + j]) field.2 entry
  | [], _, h => .inl h
  | field :: fields, entry, h => by
    rw [shareFields] at h
    rcases mem_shareFields _ path addr (i + 1) fields h with h | ⟨j, field', hfield, hfrom⟩
    · exact (mem_shareField flat path (addr ++ [i]) field h).imp_right fun hfrom =>
        ⟨0, field, rfl, hfrom⟩
    · refine .inr ⟨j + 1, field', hfield, ?_⟩
      rw [add_comm j, ← add_assoc]
      exact hfrom

theorem mem_shareField (flat : SharedFields N) (path : String) (addr : Address) :
    ∀ (field : String × Json N) {entry}, entry ∈ shareField flat path addr field →
      entry ∈ flat ∨ From (path ++ field.1) addr field.2 entry
  | (key, v), _, h => mem_shareValue flat (path ++ key) addr v h

theorem mem_shareItems (flat : SharedFields N) (path : String) (addr : Address) (i : Nat) :
    ∀ (items : List (Json N)) {entry}, entry ∈ shareItems flat path addr i items →
      entry ∈ flat ∨ ∃ j item, items[j]? = some item ∧
        From (path ++ toString (i + j)) (addr ++ [i + j]) item entry
  | [], _, h => .inl h
  | v :: items, entry, h => by
    rw [shareItems] at h
    rcases mem_shareItems _ path addr (i + 1) items h with h | ⟨j, item, hitem, hfrom⟩
    · exact (mem_shareValue flat (path ++ toString i) (addr ++ [i]) v h).imp_right fun hfrom =>
        ⟨0, v, rfl, hfrom⟩
    · refine .inr ⟨j + 1, item, hitem, ?_⟩
      rw [add_comm j, ← add_assoc]
      exact hfrom
end

mutual
theorem nodup_shareValue (key : String) (addr : Address) (h : (flat.map Prod.fst).Nodup) :
    ∀ v : Json N, ((shareValue flat key addr v).map Prod.fst).Nodup
  | .map fields => nodup_shareFields (key ++ ".") addr 0 h fields
  | .list items => by
    rw [shareValue]
    split
    · exact nodup_shareItems (key ++ ".") addr 0 h items
    · exact nodup_put h _
  | .null | .bool _ | .num _ | .str _ => nodup_put h _

theorem nodup_shareFields (path : String) (addr : Address) (i : Nat)
    (h : (flat.map Prod.fst).Nodup) :
    ∀ fields : Object N, ((shareFields flat path addr i fields).map Prod.fst).Nodup
  | [] => h
  | field :: fields =>
    nodup_shareFields path addr (i + 1) (nodup_shareField path (addr ++ [i]) h field) fields

theorem nodup_shareField (path : String) (addr : Address) (h : (flat.map Prod.fst).Nodup) :
    ∀ field : String × Json N, ((shareField flat path addr field).map Prod.fst).Nodup
  | (key, v) => nodup_shareValue (path ++ key) addr h v

theorem nodup_shareItems (path : String) (addr : Address) (i : Nat)
    (h : (flat.map Prod.fst).Nodup) :
    ∀ items : List (Json N), ((shareItems flat path addr i items).map Prod.fst).Nodup
  | [] => h
  | v :: items =>
    nodup_shareItems path addr (i + 1)
      (nodup_shareValue (path ++ toString i) (addr ++ [i]) h v) items
end

variable {doc : Object N}

theorem share_entry (h : entry ∈ share doc) :
    ∃ i field a, doc[i]? = some field ∧ entry.2.addr = i :: a ∧
      flatAt a field.2 = some entry.2.value ∧ entry.1 = keyAt ("" ++ field.1) a field.2 := by
  rcases mem_shareFields [] "" [] 0 doc h with h | ⟨i, field, hfield, a, x, rfl, hflat⟩
  · cases h
  · rw [zero_add]
    exact ⟨i, field, a, hfield, rfl, hflat, rfl⟩

theorem readAt_share (h : entry ∈ share doc) :
    flatAt entry.2.addr (.map doc) = some entry.2.value := by
  obtain ⟨i, field, a, hfield, haddr, hflat, -⟩ := share_entry h
  rw [haddr, flatAt, hfield]
  exact hflat

theorem share_apart {entry entry' : String × Shared N} (h : entry ∈ share doc)
    (h' : entry' ∈ share doc) (hne : entry ≠ entry') : Apart entry.2.addr entry'.2.addr := by
  refine apart_of_ne (fun heq => hne ?_) (readAt_share h) (readAt_share h')
  -- the address gives the key, and the key the entry
  have hkey : entry.1 = entry'.1 := by
    obtain ⟨i, field, a, hfield, haddr, -, hkey⟩ := share_entry h
    obtain ⟨i', field', a', hfield', haddr', -, hkey'⟩ := share_entry h'
    obtain ⟨rfl, rfl⟩ := List.cons.inj (haddr.symm.trans (heq.trans haddr'))
    cases hfield.symm.trans hfield'
    rw [hkey, hkey']
  have hempty : (([] : SharedFields N).map Prod.fst).Nodup := nodup_nil
  have hnodup : ((share doc).map Prod.fst).Nodup := nodup_shareFields "" [] 0 hempty doc
  exact inj_on_of_nodup_map hnodup h h' hkey

end SharedLemmas

end Mapping

end SeaSearch

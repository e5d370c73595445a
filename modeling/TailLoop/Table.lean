/-!
# Insertion-ordered tables

A `Table κ α` is a finite map that remembers the order in which its keys were first entered.
Changing the value of a present key keeps its place, a new key goes to the end, and erasing a
key keeps the order of the others. Distinctness of the keys is part of the type.

* `Table.keys_alter`: the keys after a change.
* `Table.get?_alter`: the values after a change.
* `Table.get?_erase`: the values after erasing a key.
* `Table.get?_combine`: the values after entering those of another table.
* `Table.combine?_eq_none_iff`, `Table.get?_of_combine?`: the same where some may have no value.
-/

namespace TailLoop

/-- A finite map from `κ` to `α` whose entries are listed in order of insertion. -/
structure Table (κ α : Type) where
  /-- The entries, oldest key first. -/
  entries : List (κ × α)
  /-- No key is entered twice. -/
  nodup_keys : (entries.map Prod.fst).Nodup

namespace Table

variable {κ α β : Type}

/-- The keys, oldest first. -/
def keys (t : Table κ α) : List κ := t.entries.map Prod.fst

/-- The table without entries. -/
def empty : Table κ α := ⟨[], List.nodup_nil⟩

instance : Inhabited (Table κ α) := ⟨empty⟩

instance : EmptyCollection (Table κ α) := ⟨empty⟩

/-- Whether the table has no entry. -/
def isEmpty (t : Table κ α) : Bool := t.entries.isEmpty

/-- The number of entries. -/
def size (t : Table κ α) : Nat := t.entries.length

variable [DecidableEq κ]

/-- The value entered for `k` in a list of entries. -/
def valueAt? (k : κ) : List (κ × α) → Option α
  | [] => none
  | (k', a) :: rest => if k' = k then some a else valueAt? k rest

/-- The value of key `k`, if it is present. -/
def get? (t : Table κ α) (k : κ) : Option α := valueAt? k t.entries

/-- Whether key `k` is present. -/
def contains (t : Table κ α) (k : κ) : Bool := (t.get? k).isSome

/-- Replaces the value of `k` by `f` of the old one, entering a missing key at the end. -/
def alterEntry (k : κ) (f : Option α → α) : List (κ × α) → List (κ × α)
  | [] => [(k, f none)]
  | (k', a) :: rest => if k' = k then (k', f (some a)) :: rest else (k', a) :: alterEntry k f rest

/-- Changing the value of `k` makes `k` a key and keeps all others. -/
theorem mem_keys_alterEntry (k k' : κ) (f : Option α → α) (es : List (κ × α)) :
    k' ∈ (alterEntry k f es).map Prod.fst ↔ k' ∈ es.map Prod.fst ∨ k' = k := by
  induction es with
  | nil => simp [alterEntry]
  | cons e rest ih =>
    obtain ⟨j, a⟩ := e
    by_cases h : j = k
    · subst h; simp [alterEntry]; grind
    · simp only [alterEntry, h, if_false, List.map_cons, List.mem_cons, ih]; grind

/-- Changing the value of `k` enters no key twice. -/
theorem nodup_keys_alterEntry (k : κ) (f : Option α → α) (es : List (κ × α))
    (h : (es.map Prod.fst).Nodup) : ((alterEntry k f es).map Prod.fst).Nodup := by
  induction es with
  | nil => simp [alterEntry]
  | cons e rest ih =>
    obtain ⟨j, a⟩ := e
    simp only [List.map_cons, List.nodup_cons] at h
    by_cases hj : j = k
    · simp only [alterEntry, hj, if_true, List.map_cons, List.nodup_cons]
      exact hj ▸ h
    · simp only [alterEntry, hj, if_false, List.map_cons, List.nodup_cons]
      refine ⟨?_, ih h.2⟩
      rw [mem_keys_alterEntry]
      rintro (hm | hm)
      · exact h.1 hm
      · exact hj hm

/-- Replaces the value of `k` by `f` of the old one, entering a missing key at the end. -/
def alter (t : Table κ α) (k : κ) (f : Option α → α) : Table κ α :=
  ⟨alterEntry k f t.entries, nodup_keys_alterEntry k f t.entries t.nodup_keys⟩

/-- Gives `k` the value `a`, keeping the place of a present key. -/
def insert (t : Table κ α) (k : κ) (a : α) : Table κ α := t.alter k fun _ => a

/-- Enters `k` with value `a` unless it is present already. -/
def insertNew (t : Table κ α) (k : κ) (a : α) : Table κ α := t.alter k fun old => old.getD a

/-- Removes the entry of `k`, keeping the order of the others. -/
def erase (t : Table κ α) (k : κ) : Table κ α where
  entries := t.entries.filter fun e => decide (e.1 ≠ k)
  nodup_keys := t.nodup_keys.sublist (List.filter_sublist.map Prod.fst)

/-- The table built from a list of entries; a later value of the same key replaces the earlier. -/
def ofList (es : List (κ × α)) : Table κ α :=
  es.foldl (fun t e => t.insert e.1 e.2) empty

/-- Combines every entry of `u` into `t`, in the order of `u`. -/
def combine (t : Table κ α) (u : Table κ β) (f : Option α → β → α) : Table κ α :=
  u.entries.foldl (fun acc e => acc.alter e.1 fun old => f old e.2) t

/-- Combines every entry of `u` into `t`, in the order of `u`, unless `f` has no value for one. -/
def combine? (t : Table κ α) (u : Table κ β) (f : Option α → β → Option α) : Option (Table κ α) :=
  u.entries.foldlM (fun acc e => (f (acc.get? e.1) e.2).map (acc.insert e.1)) t

/-- Whether the two tables have the same keys with the same values, in any order. -/
def sameMap [DecidableEq α] (t u : Table κ α) : Bool :=
  t.size == u.size && t.entries.all fun e => decide (u.get? e.1 = some e.2)

/-! ## Values and keys after a change -/

/-- In a list of entries, changing the value of `k` is seen at `k` and nowhere else. -/
theorem valueAt?_alterEntry (k k' : κ) (f : Option α → α) (es : List (κ × α)) :
    valueAt? k' (alterEntry k f es) =
      if k' = k then some (f (valueAt? k es)) else valueAt? k' es := by
  induction es with
  | nil => simp only [alterEntry, valueAt?]; grind
  | cons e rest ih =>
    obtain ⟨j, a⟩ := e
    by_cases hj : j = k
    · subst hj; simp only [alterEntry, valueAt?, if_true]; grind
    · simp only [alterEntry, hj, if_false, valueAt?, ih]; grind

/-- In a list of entries, leaving out those of `k` forgets its value and no other. -/
theorem valueAt?_filter_ne (k k' : κ) (es : List (κ × α)) :
    valueAt? k' (es.filter fun e => decide (e.1 ≠ k)) =
      if k' = k then none else valueAt? k' es := by
  induction es with
  | nil => simp [valueAt?]
  | cons e rest ih =>
    obtain ⟨j, a⟩ := e
    by_cases hj : j = k
    · subst hj; simp only [ne_eq, not_true, decide_false, Bool.false_eq_true, not_false_iff,
        List.filter_cons_of_neg, valueAt?]; grind
    · simp only [ne_eq, hj, not_false_iff, decide_true, List.filter_cons_of_pos, valueAt?]
      grind

/-- The empty table has no values. -/
@[simp] theorem get?_empty (k : κ) : (empty : Table κ α).get? k = none := rfl

/-- A change at `k` is seen at `k` and nowhere else. -/
theorem get?_alter (t : Table κ α) (k k' : κ) (f : Option α → α) :
    (t.alter k f).get? k' = if k' = k then some (f (t.get? k)) else t.get? k' :=
  valueAt?_alterEntry k k' f t.entries

/-- Erasing `k` forgets its value and no other. -/
theorem get?_erase (t : Table κ α) (k k' : κ) :
    (t.erase k).get? k' = if k' = k then none else t.get? k' :=
  valueAt?_filter_ne k k' t.entries

/-- A list of entries has no value for what is not among its keys. -/
theorem valueAt?_eq_none {k : κ} {es : List (κ × α)} (h : k ∉ es.map Prod.fst) :
    valueAt? k es = none := by
  induction es with
  | nil => rfl
  | cons e rest ih =>
    simp only [List.map_cons, List.mem_cons, not_or] at h
    rw [valueAt?, if_neg fun he => h.1 he.symm]
    exact ih h.2

/-- Combining entries is seen at each of their keys once. -/
theorem get?_combine (t : Table κ α) (u : Table κ β) (f : Option α → β → α) (k : κ) :
    (t.combine u f).get? k = ((u.get? k).map (f (t.get? k))).or (t.get? k) := by
  obtain ⟨es, hes⟩ := u
  simp only [combine, get?]
  induction es generalizing t with
  | nil => rfl
  | cons e rest ih =>
    obtain ⟨j, b⟩ := e
    simp only [List.map_cons, List.nodup_cons] at hes
    rw [List.foldl_cons, ih _ hes.2]
    have hstep := get?_alter t j k fun old => f old b
    simp only [get?] at hstep
    rw [hstep, valueAt?]
    by_cases hj : j = k
    · subst hj
      simp [valueAt?_eq_none hes.1]
    · simp [hj, Ne.symm hj]

/-- Entering a value is seen at its key and nowhere else. -/
theorem get?_insert (t : Table κ α) (k k' : κ) (a : α) :
    (t.insert k a).get? k' = if k' = k then some a else t.get? k' :=
  get?_alter ..

section Combine

variable {t v : Table κ α} {u : Table κ β} {f : Option α → β → Option α}

/-- Combining with an entry in front enters the value that `f` has for it. -/
theorem combine?_cons {j : κ} {b : β} {es : List (κ × β)}
    (hes : (((j, b) :: es).map Prod.fst).Nodup) :
    t.combine? ⟨(j, b) :: es, hes⟩ f =
      (f (t.get? j) b).bind fun a =>
        (t.insert j a).combine? ⟨es, (List.nodup_cons.1 hes).2⟩ f := by
  show List.foldlM _ t ((j, b) :: es) = _
  rw [List.foldlM_cons]
  cases f (t.get? j) b <;> rfl

/-- The values of a table with the entry of `j` in front. -/
theorem get?_cons {j : κ} {b : β} {es : List (κ × β)}
    (hes : (((j, b) :: es).map Prod.fst).Nodup) (k : κ) :
    (⟨(j, b) :: es, hes⟩ : Table κ β).get? k =
      if j = k then some b else (⟨es, (List.nodup_cons.1 hes).2⟩ : Table κ β).get? k := rfl

/-- The key `j` of the entry in front has no value behind it. -/
theorem get?_tail {j : κ} {b : β} {es : List (κ × β)}
    (hes : (((j, b) :: es).map Prod.fst).Nodup) :
    (⟨es, (List.nodup_cons.1 hes).2⟩ : Table κ β).get? j = none :=
  valueAt?_eq_none (List.nodup_cons.1 hes).1

/-- Entries cannot be combined if `f` has no value for one of them. -/
theorem combine?_eq_none_iff :
    t.combine? u f = none ↔ ∃ k b, u.get? k = some b ∧ f (t.get? k) b = none := by
  obtain ⟨es, hes⟩ := u
  induction es generalizing t with
  | nil => simp [combine?, get?, valueAt?]
  | cons e es ih =>
    obtain ⟨j, b⟩ := e
    rw [combine?_cons]
    cases hj : f (t.get? j) b with
    | none => exact ⟨fun _ => ⟨j, b, by simp [get?_cons hes], hj⟩, fun _ => rfl⟩
    | some a =>
      rw [Option.bind_some, ih]
      -- the other entries have keys whose values in `t` are still the same
      refine exists_congr fun k => exists_congr fun b' => ?_
      by_cases hk : j = k
      · subst hk
        simp only [get?_cons hes, get?_tail hes, if_true, Option.some.injEq, reduceCtorEq,
          false_and, false_iff]
        rintro ⟨rfl, hnone⟩
        exact absurd (hj.symm.trans hnone) (by simp)
      · simp only [get?_cons hes, hk, if_false, get?_insert, Ne.symm hk]

/-- Entries that are combined are seen at their keys, with the values that `f` has for them. -/
theorem get?_of_combine? (h : t.combine? u f = some v) (k : κ) :
    v.get? k = (u.get? k).elim (t.get? k) (f (t.get? k)) := by
  obtain ⟨es, hes⟩ := u
  induction es generalizing t with
  | nil =>
    cases h
    rfl
  | cons e es ih =>
    obtain ⟨j, b⟩ := e
    rw [combine?_cons] at h
    obtain ⟨a, hj, h⟩ := Option.bind_eq_some_iff.1 h
    rw [ih _ h, get?_insert]
    by_cases hk : j = k
    · subst hk
      simp [get?_cons hes, get?_tail hes, hj]
    · simp [get?_cons hes, hk, Ne.symm hk]

end Combine

/-- A change keeps the keys in place and enters a missing one at the end. -/
theorem keys_alter (t : Table κ α) (k : κ) (f : Option α → α) :
    (t.alter k f).keys = if k ∈ t.keys then t.keys else t.keys ++ [k] := by
  have aux (es : List (κ × α)) : (alterEntry k f es).map Prod.fst =
      if k ∈ es.map Prod.fst then es.map Prod.fst else es.map Prod.fst ++ [k] := by
    induction es with
    | nil => simp [alterEntry]
    | cons e rest ih =>
      obtain ⟨j, a⟩ := e
      by_cases hj : j = k
      · subst hj; simp [alterEntry]
      · simp only [alterEntry, hj, if_false, List.map_cons, ih, List.mem_cons]
        grind
  exact aux t.entries

end Table

end TailLoop

import Mathlib
import TailLoop.Lower.Lowering

/-!
# Names given by the lowering

A fresh name is not taken before and is taken afterwards, and it never looks like the name of a
binder without a name of its own, unless it is asked for.

* `Env.fresh_spec`: what taking a fresh name does.
* `isUnnamed`: names of the form that is kept for binders without a name.
-/

namespace TailLoop

/-- `digitsText` determines the number. -/
theorem Decimal.digitsText_injective {m n : Nat} (h : digitsText m = digitsText n) : m = n := by
  have hdigits : Nat.toDigits 10 m = Nat.toDigits 10 n := String.ofList_injective h
  rw [← Nat.ofDigitChars_ten_toDigits (n := m), hdigits, Nat.ofDigitChars_ten_toDigits]

namespace Table

/-- `t` has as many entries as keys. -/
theorem size_eq_length_keys {κ α : Type} (t : Table κ α) : t.size = t.keys.length :=
  (List.length_map ..).symm

variable {κ α : Type} [DecidableEq κ]

/-- The keys of `es` are those for which `valueAt?` finds a value. -/
theorem isSome_valueAt? {k : κ} {es : List (κ × α)} :
    (valueAt? k es).isSome = true ↔ k ∈ es.map Prod.fst := by
  induction es with
  | nil => simp [valueAt?]
  | cons e rest ih =>
    obtain ⟨j, a⟩ := e
    by_cases hj : j = k
    · simp [valueAt?, hj]
    · simp [valueAt?, hj, ih, Ne.symm hj]

/-- The keys of `t` are those that it contains. -/
theorem contains_iff {t : Table κ α} {k : κ} : t.contains k = true ↔ k ∈ t.keys := isSome_valueAt?

/-- `get?` gives the value with which a key is entered. -/
theorem get?_of_mem {t : Table κ α} {k : κ} {a : α} (h : (k, a) ∈ t.entries) :
    t.get? k = some a := by
  obtain ⟨es, hes⟩ := t
  show valueAt? k es = some a
  induction es with
  | nil => cases h
  | cons e rest ih =>
    obtain ⟨j, b⟩ := e
    obtain ⟨hj, hrest⟩ := List.nodup_cons.1 hes
    rcases List.mem_cons.1 h with heq | hmem
    · cases heq
      rw [valueAt?, if_pos rfl]
    · have hk : k ∈ rest.map Prod.fst := List.mem_map_of_mem hmem
      have hne : j ≠ k := fun heq => hj (heq ▸ hk)
      rw [valueAt?, if_neg hne]
      exact ih hrest hmem

/-- After a change at `k`, the table contains `k` and what it contained before. -/
theorem contains_alter {t : Table κ α} {k k' : κ} {f : Option α → α} :
    (t.alter k f).contains k' = true ↔ k' = k ∨ t.contains k' = true := by
  rw [contains, get?_alter]
  split <;> simp_all [contains]

/-- The keys of `ofList es` are those of `es`. -/
theorem contains_ofList {es : List (κ × α)} {k : κ} :
    (ofList es).contains k = true ↔ k ∈ es.map Prod.fst := by
  have hfold (t : Table κ α) : (es.foldl (fun t e => t.insert e.1 e.2) t).contains k = true ↔
      k ∈ es.map Prod.fst ∨ t.contains k = true := by
    induction es generalizing t with
    | nil => simp
    | cons e rest ih =>
      rw [List.foldl_cons, ih, insert, contains_alter, List.map_cons, List.mem_cons]
      constructor
      · rintro (h | h | h)
        · exact .inl (.inr h)
        · exact .inl (.inl h)
        · exact .inr h
      · rintro ((h | h) | h)
        · exact .inr (.inl h)
        · exact .inl h
        · exact .inr (.inr h)
  rw [ofList, hfold]
  simp [contains]

end Table

namespace Lower

/-! ## Candidates -/

/-- Candidates of different numbers differ. -/
theorem candidate_injective {base : String} {m n : Nat} (h : candidate base m = candidate base n) :
    m = n := by
  have hlist := congrArg String.toList h
  unfold candidate at hlist
  split at hlist <;> split at hlist
  · omega
  · simp at hlist
  · simp at hlist
  · simp only [String.toList_append, List.append_cancel_left_eq, String.toList_inj] at hlist
    exact Decimal.digitsText_injective hlist

/-- `firstFree` ends at a candidate that is not `taken`, or else all that it saw were. -/
theorem firstFree_spec (taken : String → Bool) (base : String) (steps n : Nat) :
    taken (candidate base (firstFree taken base steps n)) = false ∨
      ∀ i < steps, taken (candidate base (n + i)) = true := by
  induction steps generalizing n with
  | zero => exact .inr (by simp)
  | succ steps ih =>
    rw [firstFree]
    split
    · rename_i htaken
      rcases ih (n + 1) with h | h
      · exact .inl h
      · refine .inr fun i hi => ?_
        cases i with
        | zero => exact htaken
        | succ i =>
          have := h i (by omega)
          rwa [show n + 1 + i = n + (i + 1) by omega] at this
    · rename_i hfree
      exact .inl (by simpa using hfree)

/-- Among more candidates than there are `names`, `firstFree` finds one that is not taken. -/
theorem firstFree_eq_false {taken : String → Bool} {names : List String}
    (htaken : ∀ name, taken name = true → name ∈ names) (base : String) (n : Nat) :
    taken (candidate base (firstFree taken base (names.length + 1) n)) = false := by
  rcases firstFree_spec taken base (names.length + 1) n with h | h
  · exact h
  · exfalso
    let candidates := (List.range (names.length + 1)).map fun i => candidate base (n + i)
    have hnodup : candidates.Nodup := by
      refine List.Pairwise.map _ ?_ List.nodup_range
      intro i j hij heq
      have := candidate_injective heq
      omega
    have hsubset : candidates ⊆ names := by
      intro name hname
      obtain ⟨i, hi, rfl⟩ := List.mem_map.1 hname
      exact htaken _ (h i (List.mem_range.1 hi))
    have hle := hnodup.length_le_of_subset hsubset
    simp only [candidates, List.length_map, List.length_range] at hle
    omega

/-- With one step more than `t` has entries, `firstFree` finds a candidate that is no key of `t`. -/
theorem firstFree_free {α : Type} (t : Table String α) (base : String) (n : Nat) :
    t.contains (candidate base (firstFree t.contains base (t.size + 1) n)) = false := by
  rw [t.size_eq_length_keys]
  exact firstFree_eq_false (fun _ => Table.contains_iff.1) base n

/-! ## Names of binders without a name -/

/-- Whether `name` has the form that is kept for binders without a name: an underscore and
digits. -/
def isUnnamed (name : String) : Bool :=
  match name.toList with
  | '_' :: digits => !digits.isEmpty && digits.all Char.isDigit
  | _ => false

/-- `unnamed level` has this form. -/
theorem isUnnamed_unnamed (level : UInt32) : isUnnamed (Env.unnamed level) = true := by
  have hlist : (Env.unnamed level).toList = '_' :: Nat.toDigits 10 level.toNat := by
    simp [Env.unnamed, Decimal.digitsText]
  rw [isUnnamed, hlist]
  simp only [Bool.and_eq_true, Bool.not_eq_true', List.isEmpty_eq_false_iff, List.all_eq_true]
  exact ⟨Nat.toDigits_ne_nil, fun c hc => Nat.isDigit_of_mem_toDigits (by decide) (by decide) hc⟩

/-- `unnamed` determines the level. -/
theorem unnamed_injective {l l' : UInt32} (h : Env.unnamed l = Env.unnamed l') : l = l' := by
  have hlist := congrArg String.toList h
  simp only [Env.unnamed, String.toList_append, List.append_cancel_left_eq, String.toList_inj]
    at hlist
  exact UInt32.toNat_inj.1 (Decimal.digitsText_injective hlist)

/-- A name of this form has no dollar sign. -/
theorem dollar_not_mem_of_isUnnamed {name : String} (h : isUnnamed name = true) :
    '$' ∉ name.toList := by
  unfold isUnnamed at h
  split at h
  · rename_i digits heq
    rw [heq]
    simp only [Bool.and_eq_true, List.all_eq_true] at h
    intro hmem
    rcases List.mem_cons.1 hmem with hmem | hmem
    · cases hmem
    · exact absurd (h.2 _ hmem) (by decide)
  · cases h

/-! ## Environments -/

namespace Env

/-- The name that `fresh` gives is not taken before. -/
theorem isTaken_fresh_fst (e : Env) (base : String) : e.isTaken (e.fresh base).1 = false :=
  firstFree_free e.counters base _

/-- After `fresh`, the name that it gave is taken, and so are all that were before. -/
theorem isTaken_fresh_snd {e : Env} {base name : String}
    (h : name = (e.fresh base).1 ∨ e.isTaken name = true) :
    (e.fresh base).2.isTaken name = true := by
  have hcontains : (e.fresh base).2.isTaken name = true ↔
      name = (e.fresh base).1 ∨ name = base ∨ e.isTaken name = true := by
    simp only [fresh, isTaken, Table.insertNew, Table.insert, Table.contains_alter]
  rw [hcontains]
  rcases h with h | h
  · exact .inl h
  · exact .inr (.inr h)

/-- In `ofContext c`, where the lowering of a binding starts, `c.reserved` are taken. -/
theorem isTaken_ofContext {c : Context} {name : String} :
    (ofContext c).isTaken name = true ↔ name ∈ c.reserved := by
  rw [isTaken, ofContext, Table.contains_ofList, List.map_map]
  simp [Function.comp_def]

end Env

end Lower

end TailLoop

import TailLoop.Proofs.FreshNames
import TailLoop.Proofs.LocalDecisions

/-!
# Laws of summaries

Summaries are put together in any order and grouping: what is recorded of a reference is the sum of
what the parts record of it, and the order in which references were met only shows in dumps. To
forget tail calls and to drop references can be done before putting summaries together or after.

* `Table.sameMap_iff`: tables with the same values in any order.
* `Call.append_comm`, `Call.append_assoc`: the occurrences of one reference.
* `Analysis.sameAs_iff`: summaries that record the same.
* `Analysis.SameAt.append_comm`, `Analysis.SameAt.append_assoc`: what sums record of a reference.
-/

namespace TailLoop

/-! ## Tables as maps -/

namespace Table

variable {κ α : Type} [DecidableEq κ]

/-- If `t` has `a` for `k`, its entries contain the pair. -/
theorem mem_entries_of_get? {t : Table κ α} {k : κ} {a : α} (h : t.get? k = some a) :
    (k, a) ∈ t.entries := by
  have hkey : k ∈ t.keys := by
    rw [← contains_iff, contains, h]
    rfl
  obtain ⟨⟨k', a'⟩, hmem, rfl⟩ := List.mem_map.1 hkey
  obtain rfl : a' = a := Option.some.inj ((get?_of_mem hmem).symm.trans h)
  exact hmem

/-- `sameMap` holds if every key has the same value in `t` and `u`. -/
theorem sameMap_iff [DecidableEq α] {t u : Table κ α} :
    t.sameMap u = true ↔ ∀ k, t.get? k = u.get? k := by
  simp only [sameMap, Bool.and_eq_true, beq_iff_eq, List.all_eq_true, decide_eq_true_eq,
    size_eq_length_keys]
  constructor
  · rintro ⟨hsize, hentries⟩ k
    -- the keys of `t` are keys of `u`, and there are equally many
    have hsubset : t.keys ⊆ u.keys := by
      intro k hk
      obtain ⟨e, he, rfl⟩ := List.mem_map.1 hk
      apply contains_iff.1
      rw [contains, hentries e he]
      rfl
    have hperm : t.keys.Perm u.keys :=
      (t.nodup_keys.subperm hsubset).perm_of_length_le (Nat.le_of_eq hsize.symm)
    cases hk : t.get? k with
    | some a => exact (hentries _ (mem_entries_of_get? hk)).symm
    | none =>
      by_contra hne
      have hu : u.contains k = true := Option.isSome_iff_ne_none.2 (Ne.symm hne)
      have ht : t.contains k = true := contains_iff.2 (hperm.mem_iff.2 (contains_iff.1 hu))
      rw [contains, hk] at ht
      cases ht
  · intro h
    -- the tables have the same keys, so they are equally large
    have hkeys (k : κ) : k ∈ t.keys ↔ k ∈ u.keys := by
      rw [← contains_iff, ← contains_iff, contains, contains, h k]
    refine ⟨((List.perm_ext_iff_of_nodup t.nodup_keys u.nodup_keys).2 hkeys).length_eq, ?_⟩
    intro e he
    rw [← h e.1]
    exact get?_of_mem he

/-- `combine` by an `op` with the neutral element `e` for missing values is `Option.merge op` at
every key. -/
theorem get?_combine_merge {op : α → α → α} {e : α} (he : ∀ a, op e a = a) (t u : Table κ α)
    (k : κ) :
    (t.combine u fun old a => op (old.getD e) a).get? k =
      Option.merge op (t.get? k) (u.get? k) := by
  rw [get?_combine]
  cases t.get? k <;> cases u.get? k <;> simp [he]

/-- Erasing the keys `ks` leaves the other entries in their order. -/
theorem entries_foldl_erase (t : Table κ α) (ks : List κ) :
    (ks.foldl erase t).entries = t.entries.filter fun e => decide (e.1 ∉ ks) := by
  induction ks generalizing t with
  | nil => simp
  | cons k ks ih =>
    rw [List.foldl_cons, ih, erase, List.filter_filter]
    apply List.filter_congr
    intro e _
    by_cases hk : e.1 = k <;> simp [hk]

end Table

/-! ## Occurrences of one reference -/

namespace Call

/-- Two calls with the same `count` and the same `arities` are equal, since `arities` are in
ascending order. -/
theorem eq_of_mem_iff {c d : Call} (hcount : c.count = d.count)
    (harities : ∀ k, k ∈ c.arities ↔ k ∈ d.arities) : c = d := by
  obtain ⟨n, ks, hks⟩ := c
  obtain ⟨m, ls, hls⟩ := d
  obtain rfl : n = m := hcount
  -- ascending lists with the same members are permutations of each other, hence equal
  obtain rfl : ks = ls := by
    refine List.Perm.eq_of_pairwise (fun i j _ _ hij hji =>
      absurd hij (Nat.lt_asymm hji)) hks hls ?_
    have hnodup {ns : List Nat} (h : ns.Pairwise (· < ·)) : ns.Nodup := h.imp Nat.ne_of_lt
    exact (List.perm_ext_iff_of_nodup (hnodup hks) (hnodup hls)).2 harities
  rfl

/-- `append` is commutative. -/
theorem append_comm (c d : Call) : c.append d = d.append c := by
  apply eq_of_mem_iff
  · rw [count_append, count_append, Nat.add_comm]
  · intro k
    rw [mem_arities_append, mem_arities_append, or_comm]

/-- `append` is associative. -/
theorem append_assoc (c d e : Call) : (c.append d).append e = c.append (d.append e) := by
  apply eq_of_mem_iff
  · simp only [count_append, Nat.add_assoc]
  · intro k
    simp only [mem_arities_append, or_assoc]

/-- `none` is neutral for `append`. -/
theorem none_append (c : Call) : none.append c = c := by
  apply eq_of_mem_iff
  · rw [count_append]
    exact Nat.zero_add _
  · intro k
    simp [none]

instance : Std.Commutative Call.append := ⟨append_comm⟩

instance : Std.Associative Call.append := ⟨append_assoc⟩

end Call

/-! ## Summaries -/

namespace Analysis

variable {a b c : Analysis} {r : Ref}

/-- `SameAt r` is symmetric. -/
theorem SameAt.symm (h : SameAt r a b) : SameAt r b a := ⟨h.calls.symm, h.tails.symm⟩

/-- `SameAt r` is transitive. -/
theorem SameAt.trans (h : SameAt r a b) (h' : SameAt r b c) : SameAt r a c :=
  ⟨h.calls.trans h'.calls, h.tails.trans h'.tails⟩

/-- `sameAs` holds if `a` and `b` are `SameAt` every reference and agree on `isLoop`. -/
theorem sameAs_iff : a.sameAs b = true ↔ (∀ r, SameAt r a b) ∧ a.isLoop = b.isLoop := by
  simp only [sameAs, Bool.and_eq_true, beq_iff_eq, Table.sameMap_iff]
  refine and_congr_left fun _ => ⟨fun h r => ⟨h.1 r, h.2 r⟩, fun h => ?_⟩
  exact ⟨fun r => (h r).calls, fun r => (h r).tails⟩

/-- `append` adds the calls of `r`. -/
theorem callOf?_append (a b : Analysis) (r : Ref) :
    (a.append b).callOf? r = Option.merge Call.append (a.callOf? r) (b.callOf? r) :=
  Table.get?_combine_merge Call.none_append a.calls b.calls r

/-- `append` adds the tail calls of `r`. -/
theorem tailCalls_append (a b : Analysis) (r : Ref) :
    (a.append b).tailCalls.get? r =
      Option.merge (· + ·) (a.tailCalls.get? r) (b.tailCalls.get? r) :=
  Table.get?_combine_merge Nat.zero_add a.tailCalls b.tailCalls r

/-- `dropAll rs` leaves nothing of a reference `r` of `rs`. -/
theorem SameAt.dropped {rs : List Ref} (hr : r ∈ rs) (a : Analysis) :
    SameAt r (a.dropAll rs) .empty :=
  ⟨(callOf?_dropAll ..).trans (if_pos hr), (tailCalls_dropAll ..).trans (if_pos hr)⟩

/-- `dropAll rs` changes nothing of a reference `r` that is not in `rs`. -/
theorem SameAt.not_dropped {rs : List Ref} (hr : r ∉ rs) (a : Analysis) :
    SameAt r (a.dropAll rs) a :=
  ⟨(callOf?_dropAll ..).trans (if_neg hr), (tailCalls_dropAll ..).trans (if_neg hr)⟩

/-- `dropAll` keeps `isLoop`. -/
theorem isLoop_dropAll (a : Analysis) (rs : List Ref) : (a.dropAll rs).isLoop = a.isLoop := by
  rw [dropAll_eq]

/-! ## Sums of summaries -/

/-- `append` is commutative at `r`. -/
theorem SameAt.append_comm (a b : Analysis) (r : Ref) : SameAt r (a.append b) (b.append a) where
  calls := by
    rw [callOf?_append, callOf?_append]
    exact Std.Commutative.comm ..
  tails := by
    rw [tailCalls_append, tailCalls_append]
    exact Std.Commutative.comm ..

/-- `append` is associative at `r`. -/
theorem SameAt.append_assoc (a b c : Analysis) (r : Ref) :
    SameAt r ((a.append b).append c) (a.append (b.append c)) where
  calls := by
    simp only [callOf?_append]
    exact Std.Associative.assoc ..
  tails := by
    simp only [tailCalls_append]
    exact Std.Associative.assoc ..

/-- `empty` is neutral for `append` at `r`. -/
theorem SameAt.append_empty (a : Analysis) (r : Ref) : SameAt r (a.append .empty) a where
  calls := by
    rw [callOf?_append]
    exact Option.merge_none_right
  tails := by
    rw [tailCalls_append]
    exact Option.merge_none_right

/-- `dropAll rs` can be done before `append` or after it. -/
theorem SameAt.append_dropAll (a b : Analysis) (rs : List Ref) (r : Ref) :
    SameAt r ((a.dropAll rs).append (b.dropAll rs)) ((a.append b).dropAll rs) := by
  -- a dropped reference has no entry on either side, and of the others nothing is dropped
  by_cases hr : r ∈ rs
  · exact ((SameAt.dropped hr a).append (SameAt.dropped hr b)).trans (SameAt.dropped hr _).symm
  · exact ((SameAt.not_dropped hr a).append (SameAt.not_dropped hr b)).trans
      (SameAt.not_dropped hr _).symm

/-- `noTailCalls` can be done before `append` or after it. -/
theorem SameAt.append_noTailCalls (a b : Analysis) (r : Ref) :
    SameAt r (a.noTailCalls.append b.noTailCalls) (a.append b).noTailCalls := ⟨rfl, rfl⟩

end Analysis

end TailLoop

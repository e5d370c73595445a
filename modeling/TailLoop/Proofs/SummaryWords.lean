import TailLoop.Proofs.SummaryLaws

/-!
# Summaries in machine words

The counts of summaries are machine words. A sum of summaries, counted in numbers, may be too large
for them; then its counts wrap around, or the program stops at one of them. If counts wrap around,
the laws of sums hold of whatever summaries. If the program stops, it does so in every order and
grouping or in none; but it may stop at a reference that is dropped later, or at tail calls that are
forgotten later.

* `Overflow.word?_add`: machine words are added like numbers.
* `Analysis.InWords`: a result stands for a sum of numbers.
* `Analysis.inWords_append?`: the result of `append?` stands for that of `append`.
* `Analysis.append?_laws`: the laws.
-/

namespace TailLoop

/-! ## Tables with results -/

namespace Table

variable {κ α : Type} [DecidableEq κ]

/-- `p` holds of the values of all entries if it holds of what `get?` finds at any key. -/
theorem forall_mem_entries_iff (p : α → Prop) {t : Table κ α} :
    (∀ e ∈ t.entries, p e.2) ↔ ∀ k a, t.get? k = some a → p a :=
  ⟨fun h k a hk => h (k, a) (mem_entries_of_get? hk), fun h e he => h e.1 e.2 (get?_of_mem he)⟩

/-- Combining by an operation with a neutral element, as far as `f` has values for the results:
there are none at some key, or they are seen at all keys. The values in `t` are results already. -/
theorem combine?_merge {op : α → α → α} {e : α} (he : ∀ a, op e a = a) {f : α → Option α}
    {t : Table κ α} (ht : ∀ k a, t.get? k = some a → f a = some a) (u : Table κ α) :
    (t.combine? u (fun old a => f (op (old.getD e) a)) = none ∧
        ∃ k, (Option.merge op (t.get? k) (u.get? k)).map f = some none) ∨
      ∃ v, t.combine? u (fun old a => f (op (old.getD e) a)) = some v ∧
        ∀ k, (Option.merge op (t.get? k) (u.get? k)).map f = (v.get? k).map some := by
  cases hv : t.combine? u fun old a => f (op (old.getD e) a) with
  | none =>
    obtain ⟨k, a, ha, hnone⟩ := combine?_eq_none_iff.1 hv
    refine .inl ⟨rfl, k, ?_⟩
    -- a key that `u` lacks has a value of `t`, which `f` keeps, so the failing one is in `u`
    cases hk : t.get? k <;> simpa [ha, hk, he] using hnone
  | some v =>
    refine .inr ⟨v, rfl, fun k => ?_⟩
    have hget := get?_of_combine? hv k
    cases ha : u.get? k with
    | none =>
      rw [ha, Option.elim_none] at hget
      rw [hget, Option.merge_none_right]
      cases hk : t.get? k with
      | none => rfl
      | some b => simp [ht k b hk]
    | some a =>
      rw [ha, Option.elim_some] at hget
      obtain ⟨b, hb⟩ : ∃ b, f (op ((t.get? k).getD e) a) = some b := by
        refine Option.ne_none_iff_exists'.1 fun hnone => ?_
        rw [combine?_eq_none_iff.2 ⟨k, a, ha, hnone⟩] at hv
        cases hv
      rw [hget, hb]
      cases hk : t.get? k <;> simpa [hk, he] using hb

/-- The entries of `t` for references of one kind, in order: for binders inside of terms if `inner`
says so, else for top-level names. -/
def ofKind (inner : Bool) (t : Table Ref α) : List (Ref × α) :=
  t.entries.filter fun e => e.1.isBound == inner

end Table

/-- If `f` keeps what it maps values to, and first operands of `op` can be replaced by what `f` maps
them to, then first operands of `Option.merge op` can be replaced so, too. -/
theorem map_merge_congr {α : Type} {op : α → α → α} {f : α → Option α}
    (hid : ∀ x y, f x = some y → f y = some y)
    (hop : ∀ x y z, f x = some y → f (op y z) = f (op x z))
    {x y : Option α} (h : x.map f = y.map some) (z : Option α) :
    (Option.merge op y z).map f = (Option.merge op x z).map f := by
  cases x with
  | none =>
    obtain rfl : y = none := by simpa using h.symm
    rfl
  | some a =>
    obtain ⟨b, rfl, hab⟩ := Option.map_eq_some_iff.1 h.symm
    cases z with
    | none => simp [hid a b hab.symm, hab.symm]
    | some c => simp [hop a b c hab.symm]

/-! ## Machine words -/

namespace Overflow

variable (o : Overflow) {m n : Nat}

/-- A machine word stays as it is. -/
theorem word?_of_lt (h : n < wordSize) : o.word? n = some n := if_pos h

/-- What `word?` gives is a machine word. -/
theorem lt_of_word? (h : o.word? m = some n) : n < wordSize := by
  unfold word? at h
  split at h
  next hm => exact Option.some.inj h ▸ hm
  next =>
    cases o with
    | stops => cases h
    | wraps => exact Option.some.inj h ▸ Nat.mod_lt _ (by decide)

/-- `word?` gives none if the number is too large and the program stops at that. -/
theorem word?_eq_none_iff : o.word? n = none ↔ o = .stops ∧ ¬ n < wordSize := by
  unfold word?
  cases o <;> split <;> simp_all

/-- `wraps` leaves the remainder. -/
theorem word?_wraps (n : Nat) : Overflow.wraps.word? n = some (n % wordSize) := by
  unfold word?
  split
  next h => rw [Nat.mod_eq_of_lt h]
  next => rfl

/-- Machine words are added like the numbers they stand for. -/
theorem word?_add (m n : Nat) : ((o.word? m).bind fun k => o.word? (k + n)) = o.word? (m + n) := by
  cases o with
  | stops =>
    by_cases hm : m < wordSize
    · rw [word?_of_lt _ hm, Option.bind_some]
    · rw [(word?_eq_none_iff _).2 ⟨rfl, hm⟩, (word?_eq_none_iff _).2 ⟨rfl, by omega⟩,
        Option.bind_none]
  | wraps => simp only [word?_wraps, Option.bind_some, Nat.mod_add_mod]

end Overflow

namespace Call

variable {o : Overflow} {c d e : Call}

/-- A count that is a machine word stays as it is. -/
theorem inWords?_of_lt (h : c.count < wordSize) : c.inWords? o = some c := by
  rw [inWords?, o.word?_of_lt h]
  rfl

/-- `inWords?` keeps the numbers of arguments, and takes the machine word of the count. -/
theorem inWords?_eq_some_iff :
    c.inWords? o = some d ↔
      o.word? c.count = some d.count ∧ ∀ k, k ∈ d.arities ↔ k ∈ c.arities := by
  unfold inWords?
  constructor
  · intro h
    obtain ⟨n, hn, rfl⟩ := Option.map_eq_some_iff.1 h
    exact ⟨hn, fun _ => Iff.rfl⟩
  · rintro ⟨hcount, harities⟩
    rw [hcount]
    exact congrArg some (eq_of_mem_iff rfl fun k => (harities k).symm)

/-- `d`, in machine words, is added to like `c`, which it stands for. -/
theorem inWords?_append (h : c.inWords? o = some d) (e : Call) :
    (d.append e).inWords? o = (c.append e).inWords? o := by
  obtain ⟨hcount, harities⟩ := inWords?_eq_some_iff.1 h
  have hsum : o.word? (d.count + e.count) = o.word? (c.count + e.count) := by
    rw [← o.word?_add c.count, hcount, Option.bind_some]
  cases hword : o.word? (c.count + e.count) with
  | none => simp [inWords?, hsum, hword]
  | some n =>
    -- both have the same count and the same numbers of arguments
    have hboth : (d.append e).inWords? o = some { c.append e with count := n } :=
      inWords?_eq_some_iff.2 ⟨by simp [hsum, hword], by simp [harities]⟩
    have hboth' : (c.append e).inWords? o = some { c.append e with count := n } :=
      inWords?_eq_some_iff.2 ⟨by simp [hword], by simp⟩
    rw [hboth, hboth']

end Call

namespace Analysis

/-- All counts of `a` are machine words. -/
def Fits (a : Analysis) : Prop :=
  (∀ e ∈ a.calls.entries, e.2.count < wordSize) ∧ ∀ e ∈ a.tailCalls.entries, e.2 < wordSize

instance (a : Analysis) : Decidable a.Fits := inferInstanceAs (Decidable (_ ∧ _))

/-- What is recorded of `r`, with the machine words for its counts. -/
def wordsAt (o : Overflow) (s : Analysis) (r : Ref) : Option (Option Call) × Option (Option Nat) :=
  ((s.callOf? r).map (Call.inWords? o), (s.tailCalls.get? r).map o.word?)

/-- Whether the program stops at a count of `r`. -/
def StopsAt (o : Overflow) (s : Analysis) (r : Ref) : Prop :=
  (s.wordsAt o r).1 = some none ∨ (s.wordsAt o r).2 = some none

/-- A result stands for the sum `s` in machine words: there is none if the program stops at a count,
and otherwise it records the words for all counts. -/
inductive InWords (o : Overflow) (s : Analysis) : Option Analysis → Prop
  | stopped {r : Ref} : StopsAt o s r → InWords o s none
  | sum {t : Analysis} :
      (∀ r, s.wordsAt o r = ((t.callOf? r).map some, (t.tailCalls.get? r).map some)) →
      t.isLoop = false → InWords o s (some t)

/-- There is none of either, or they say the same, whatever the order of their entries. -/
def SameResult (x y : Option Analysis) : Prop := Option.Rel (fun s t => s.sameAs t = true) x y

variable {o : Overflow} {a b c s t : Analysis} {x y : Option Analysis} {r : Ref} {rs : List Ref}

/-- `Fits` in terms of what is recorded of each reference. -/
theorem fits_iff : a.Fits ↔ (∀ r c, a.callOf? r = some c → c.count < wordSize) ∧
    ∀ r n, a.tailCalls.get? r = some n → n < wordSize :=
  and_congr (Table.forall_mem_entries_iff (fun c : Call => c.count < wordSize))
    (Table.forall_mem_entries_iff (fun n => n < wordSize))

/-- What `s` and `t` record in the same way, they record in the same machine words. -/
theorem SameAt.wordsAt (h : SameAt r s t) : s.wordsAt o r = t.wordsAt o r := by
  rw [Analysis.wordsAt, h.calls, h.tails, Analysis.wordsAt]

/-- The program stops at some count of `s` if it does so at all and not all counts fit. -/
theorem exists_stopsAt_iff : (∃ r, StopsAt o s r) ↔ o = .stops ∧ ¬ s.Fits := by
  have hcall (c : Call) : c.inWords? o = none ↔ o = .stops ∧ ¬ c.count < wordSize := by
    rw [Call.inWords?, Option.map_eq_none_iff, o.word?_eq_none_iff]
  rw [fits_iff]
  constructor
  · rintro ⟨r, h | h⟩
    · obtain ⟨c, hc, hnone⟩ := Option.map_eq_some_iff.1 h
      exact ⟨((hcall c).1 hnone).1, fun hfits => ((hcall c).1 hnone).2 (hfits.1 r c hc)⟩
    · obtain ⟨n, hn, hnone⟩ := Option.map_eq_some_iff.1 h
      exact ⟨(o.word?_eq_none_iff.1 hnone).1,
        fun hfits => (o.word?_eq_none_iff.1 hnone).2 (hfits.2 r n hn)⟩
  · rintro ⟨ho, hfits⟩
    by_contra hnone
    refine hfits ⟨fun r c hc => ?_, fun r n hn => ?_⟩
    · by_contra hlarge
      exact hnone ⟨r, .inl (Option.map_eq_some_iff.2 ⟨c, hc, (hcall c).2 ⟨ho, hlarge⟩⟩)⟩
    · by_contra hlarge
      exact hnone ⟨r, .inr (Option.map_eq_some_iff.2 ⟨n, hn, o.word?_eq_none_iff.2 ⟨ho, hlarge⟩⟩)⟩

/-- If all counts of `s` fit, `s` is in machine words already. -/
theorem Fits.wordsAt_eq (h : s.Fits) (r : Ref) :
    s.wordsAt o r = ((s.callOf? r).map some, (s.tailCalls.get? r).map some) := by
  obtain ⟨hcalls, htails⟩ := fits_iff.1 h
  refine Prod.ext (Option.map_congr fun c hc => ?_) (Option.map_congr fun n hn => ?_)
  · exact Call.inWords?_of_lt (hcalls r c hc)
  · exact o.word?_of_lt (htails r n hn)

/-- The program does not stop where all counts have machine words, those of `t`. -/
theorem not_stopsAt
    (h : s.wordsAt o r = ((t.callOf? r).map some, (t.tailCalls.get? r).map some)) :
    ¬ StopsAt o s r := by
  rw [StopsAt, h]
  simp

/-- `dropAll` keeps counts that fit. -/
theorem Fits.dropAll (h : a.Fits) (rs : List Ref) : (a.dropAll rs).Fits := by
  refine fits_iff.2 ⟨fun r c hc => ?_, fun r n hn => ?_⟩
  · rw [callOf?_dropAll] at hc
    split at hc
    next => cases hc
    next => exact (fits_iff.1 h).1 r c hc
  · rw [tailCalls_dropAll] at hn
    split at hn
    next => cases hn
    next => exact (fits_iff.1 h).2 r n hn

/-- `noTailCalls` keeps counts that fit. -/
theorem Fits.noTailCalls (h : a.Fits) : a.noTailCalls.Fits := ⟨h.1, List.forall_mem_nil _⟩

namespace InWords

/-- It only matters what the sum `s` records. -/
theorem congr (hx : InWords o s x) (h : ∀ r, s.wordsAt o r = t.wordsAt o r) : InWords o t x := by
  cases hx with
  | stopped hr => exact .stopped (by rwa [StopsAt, ← h])
  | sum hr hloop => exact .sum (fun r => (h r).symm.trans (hr r)) hloop

/-- There is one result for the sum `s`, up to `SameResult`. -/
theorem same (hx : InWords o s x) (hy : InWords o s y) : SameResult x y := by
  cases hx with
  | stopped hr =>
    cases hy with
    | stopped => exact .none
    | sum h => exact absurd hr (not_stopsAt (h _))
  | sum h hloop =>
    cases hy with
    | stopped hr => exact absurd hr (not_stopsAt (h _))
    | sum h' hloop' =>
      refine .some (sameAs_iff.2 ⟨fun r => ?_, hloop.trans hloop'.symm⟩)
      obtain ⟨hcalls, htails⟩ := Prod.ext_iff.1 ((h r).symm.trans (h' r))
      exact ⟨Option.map_injective (Option.some_injective _) hcalls,
        Option.map_injective (Option.some_injective _) htails⟩

/-- A sum that fits is its own result. -/
theorem ofFits (h : s.Fits) (hloop : s.isLoop = false) : InWords o s (some s) :=
  .sum h.wordsAt_eq hloop

/-- The counts of a result fit. -/
theorem fits (hx : InWords o s (some t)) : t.Fits := by
  cases hx with
  | sum h =>
    refine fits_iff.2 ⟨fun r c hc => ?_, fun r n hn => ?_⟩
    · have hword : (s.callOf? r).map (Call.inWords? o) = some (some c) := by
        rw [← Option.map_some, ← hc]
        exact congrArg Prod.fst (h r)
      obtain ⟨d, -, hd⟩ := Option.map_eq_some_iff.1 hword
      exact o.lt_of_word? (Call.inWords?_eq_some_iff.1 hd).1
    · have hword : (s.tailCalls.get? r).map o.word? = some (some n) := by
        rw [← Option.map_some, ← hn]
        exact congrArg Prod.snd (h r)
      obtain ⟨m, -, hm⟩ := Option.map_eq_some_iff.1 hword
      exact o.lt_of_word? hm

/-- There is no result if and only if the program stops at counts that are too large and the sum `s`
has one. -/
theorem none_iff (hx : InWords o s x) : x = none ↔ o = .stops ∧ ¬ s.Fits := by
  rw [← exists_stopsAt_iff]
  cases hx with
  | stopped hr => exact ⟨fun _ => ⟨_, hr⟩, fun _ => rfl⟩
  | sum h =>
    constructor
    · intro hnone
      cases hnone
    · rintro ⟨r, hr⟩
      exact absurd hr (not_stopsAt (h r))

/-- `dropAll` may be applied to the result. -/
theorem dropAll (hx : InWords o s (some t)) (rs : List Ref) :
    InWords o (s.dropAll rs) (some (t.dropAll rs)) := by
  cases hx with
  | sum h hloop =>
    refine .sum (fun r => ?_) ((isLoop_dropAll t rs).trans hloop)
    by_cases hr : r ∈ rs
    · have hs := SameAt.dropped hr s
      have ht := SameAt.dropped hr t
      rw [hs.wordsAt, ht.calls, ht.tails]
      rfl
    · have hs := SameAt.not_dropped hr s
      have ht := SameAt.not_dropped hr t
      rw [hs.wordsAt, ht.calls, ht.tails]
      exact h r

/-- `noTailCalls` may be applied to the result. -/
theorem noTailCalls (hx : InWords o s (some t)) : InWords o s.noTailCalls (some t.noTailCalls) := by
  cases hx with
  | sum h hloop => exact .sum (fun r => Prod.ext (congrArg Prod.fst (h r) :) rfl) hloop

end InWords

/-- `append?` stands for the sum of `a` and `b`. -/
theorem inWords_append? (ha : a.Fits) (b : Analysis) : InWords o (a.append b) (a.append? o b) := by
  obtain ⟨hcalls, htails⟩ := fits_iff.1 ha
  have hwords (r : Ref) : (a.append b).wordsAt o r =
      ((Option.merge Call.append (a.callOf? r) (b.callOf? r)).map (Call.inWords? o),
        (Option.merge (· + ·) (a.tailCalls.get? r) (b.tailCalls.get? r)).map o.word?) := by
    rw [wordsAt, callOf?_append, tailCalls_append]
  rcases Table.combine?_merge (f := Call.inWords? o) Call.none_append
    (fun r c hc => Call.inWords?_of_lt (hcalls r c hc)) b.calls with
      ⟨hnone, r, hr⟩ | ⟨calls, hsum, hr⟩
  · have happend : a.append? o b = none := by simp [append?, appendCalls?, Call.append?, hnone]
    rw [happend]
    exact .stopped (r := r) (.inl (by rw [hwords]; exact hr))
  rcases Table.combine?_merge Nat.zero_add (fun r n hn => o.word?_of_lt (htails r n hn))
    b.tailCalls with ⟨hnone, r, hr'⟩ | ⟨tails, hsum', hr'⟩
  · have happend : a.append? o b = none := by
      simp [append?, appendCalls?, Call.append?, hsum, hnone]
    rw [happend]
    exact .stopped (r := r) (.inr (by rw [hwords]; exact hr'))
  · have happend : a.append? o b = some ⟨calls, tails, false⟩ := by
      simp [append?, appendCalls?, Call.append?, hsum, hsum']
    rw [happend]
    refine .sum (fun r => ?_) rfl
    rw [hwords]
    exact Prod.ext (hr r) (hr' r)

/-- If the counts of a sum fit, those of its parts do. -/
theorem Fits.of_append (h : (a.append b).Fits) : a.Fits := by
  obtain ⟨hcalls, htails⟩ := fits_iff.1 h
  refine fits_iff.2 ⟨fun r c hc => ?_, fun r n hn => ?_⟩
  · have hsum := callOf?_append a b r
    rw [hc] at hsum
    cases hb : b.callOf? r with
    | none => exact hcalls r c (by simpa [hb] using hsum)
    | some d =>
      have hlt := hcalls r (c.append d) (by simpa [hb] using hsum)
      rw [Call.count_append] at hlt
      omega
  · have hsum := tailCalls_append a b r
    rw [hn] at hsum
    cases hb : b.tailCalls.get? r with
    | none => exact htails r n (by simpa [hb] using hsum)
    | some m =>
      have hlt := htails r (n + m) (by simpa [hb] using hsum)
      omega

/-- The program stops at a sum if it stops at its part `s`. -/
theorem StopsAt.append (h : StopsAt o s r) (c : Analysis) : ∃ r, StopsAt o (s.append c) r := by
  obtain ⟨ho, hfits⟩ := exists_stopsAt_iff.1 ⟨r, h⟩
  exact exists_stopsAt_iff.2 ⟨ho, fun hsum => hfits hsum.of_append⟩

/-- To add `c` to the result `t` is to add it to the sum `s` that it stands for. -/
theorem wordsAt_append
    (h : s.wordsAt o r = ((t.callOf? r).map some, (t.tailCalls.get? r).map some)) (c : Analysis) :
    (t.append c).wordsAt o r = (s.append c).wordsAt o r := by
  obtain ⟨hcalls, htails⟩ := Prod.ext_iff.1 h
  rw [wordsAt, wordsAt, callOf?_append, callOf?_append, tailCalls_append, tailCalls_append]
  refine Prod.ext (map_merge_congr ?_ ?_ hcalls _) (map_merge_congr ?_ ?_ htails _)
  · exact fun d d' hd => Call.inWords?_of_lt (o.lt_of_word? (Call.inWords?_eq_some_iff.1 hd).1)
  · exact fun d d' e hd => Call.inWords?_append hd e
  · exact fun m n hm => o.word?_of_lt (o.lt_of_word? hm)
  · intro m n k hm
    rw [← o.word?_add m, hm, Option.bind_some]

/-- `append?` adds `c` to the result for `s`. -/
theorem InWords.append_right (hx : InWords o s x) (c : Analysis) :
    InWords o (s.append c) (x.bind fun t => t.append? o c) := by
  cases hx with
  | stopped hr => 
    obtain ⟨r, hr⟩ := hr.append c
    exact .stopped hr
  | sum h hloop =>
    exact (inWords_append? (InWords.sum h hloop).fits c).congr fun r => wordsAt_append (h r) c

/-- `append?` adds the result for `s` to `a`. -/
theorem InWords.append_left (ha : a.Fits) (hx : InWords o s x) :
    InWords o (a.append s) (x.bind fun t => a.append? o t) := by
  cases hx with
  | stopped hr => 
    obtain ⟨r, hr⟩ := hr.append a
    exact (InWords.stopped hr).congr fun r => (SameAt.append_comm s a r).wordsAt
  | sum h hloop =>
    refine (inWords_append? ha _).congr fun r => ?_
    rw [(SameAt.append_comm a _ r).wordsAt, wordsAt_append (h r),
      (SameAt.append_comm s a r).wordsAt]

/-- Summaries with `append?` are a commutative monoid up to the order of entries, where a summary of
a loop counts like one that is none. The other operations respect this as far as there are sums. -/
structure AppendLaws (o : Overflow) (a b c : Analysis) (rs : List Ref) : Prop where
  /-- The program stops if it does so at a count that is too large, and the sum has one. -/
  none_iff : a.append? o b = none ↔ o = .stops ∧ ¬ (a.append b).Fits
  /-- Where counts are not too large, they are added as numbers. -/
  numbers : (a.append b).Fits → SameResult (a.append? o b) (some (a.append b))
  /-- The counts of sums are machine words again. -/
  fits : ∀ s, a.append? o b = some s → s.Fits
  /-- The order does not matter. -/
  comm : SameResult (a.append? o b) (b.append? o a)
  /-- The grouping does not matter. -/
  assoc : SameResult ((a.append? o b).bind fun s => s.append? o c)
    ((b.append? o c).bind fun s => a.append? o s)
  /-- Adding the summary of a term without references only resets the mark of a loop. -/
  append_empty : SameResult (a.append? o .empty) (some { a with isLoop := false })
  /-- Adding a summary to that of a term without references does the same. -/
  empty_append : SameResult (empty.append? o a) (some { a with isLoop := false })
  /-- No sum is marked as a loop. -/
  isLoop : ∀ s, a.append? o b = some s → s.isLoop = false
  /-- A summary that is not in tail position is added as one without tail calls. -/
  appendCalls : a.appendCalls? o b = a.append? o b.noTailCalls
  /-- References can be dropped before or after, if there is a sum. -/
  dropAll : ∀ s, a.append? o b = some s →
    SameResult ((a.dropAll rs).append? o (b.dropAll rs)) (some (s.dropAll rs))
  /-- Tail calls can be forgotten before or after, if there is a sum. -/
  noTailCalls : ∀ s, a.append? o b = some s →
    SameResult (a.noTailCalls.append? o b.noTailCalls) (some s.noTailCalls)
  /-- Dropping removes the entries of the dropped references, of either kind, and leaves the others
  in their order. -/
  dropped : (∀ inner,
      (a.dropAll rs).calls.ofKind inner =
        (a.calls.ofKind inner).filter (fun e => decide (e.1 ∉ rs)) ∧
      (a.dropAll rs).tailCalls.ofKind inner =
        (a.tailCalls.ofKind inner).filter (fun e => decide (e.1 ∉ rs))) ∧
    (a.dropAll rs).isLoop = a.isLoop

/-- All summaries in machine words obey `AppendLaws`, whatever terms they belong to. -/
theorem append?_laws (o : Overflow) {a b : Analysis} (ha : a.Fits) (hb : b.Fits) (c : Analysis)
    (rs : List Ref) : AppendLaws o a b c rs where
  none_iff := (inWords_append? ha b).none_iff
  numbers h := (inWords_append? ha b).same (.ofFits h rfl)
  fits s hs := InWords.fits (hs ▸ inWords_append? ha b)
  -- each law holds of the unbounded sums, and both sides are the words of such a sum
  comm := (inWords_append? ha b).same
    ((inWords_append? hb a).congr fun r => (SameAt.append_comm b a r).wordsAt)
  assoc := by
    have hleft := (inWords_append? (o := o) ha b).append_right c
    have hright := (inWords_append? (o := o) hb c).append_left ha
    exact hleft.same (hright.congr fun r => (SameAt.append_assoc a b c r).symm.wordsAt)
  -- adding nothing overflows nowhere, since the numbers of `a` fit already
  append_empty := by
    have hsum : InWords o { a with isLoop := false } (some { a with isLoop := false }) :=
      .ofFits ha rfl
    exact (inWords_append? ha .empty).same (hsum.congr fun r =>
      (SameAt.append_empty a r).symm.wordsAt)
  empty_append := by
    have hsum : InWords o { a with isLoop := false } (some { a with isLoop := false }) :=
      .ofFits ha rfl
    -- on this side too, up to the order of the two
    have hsame (r : Ref) : SameAt r a (empty.append a) :=
      (SameAt.append_empty a r).symm.trans (SameAt.append_comm a .empty r)
    exact (inWords_append? (by decide) a).same (hsum.congr fun r => (hsame r).wordsAt)
  isLoop s hs := by
    have hsum : InWords o (a.append b) (some s) := hs ▸ inWords_append? ha b
    cases hsum with
    | sum _ hloop => exact hloop
  appendCalls := by
    have hcalls : a.appendCalls? o b.noTailCalls = a.appendCalls? o b := rfl
    rw [append?, hcalls, appendCalls?]
    cases a.calls.combine? b.calls fun old c => (old.getD .none).append? o c <;> rfl
  dropAll s hs := by
    have hsum : InWords o (a.append b) (some s) := hs ▸ inWords_append? ha b
    exact (inWords_append? (ha.dropAll rs) _).same
      ((hsum.dropAll rs).congr fun r => (SameAt.append_dropAll a b rs r).symm.wordsAt)
  noTailCalls s hs := by
    have hsum : InWords o (a.append b) (some s) := hs ▸ inWords_append? ha b
    exact (inWords_append? ha.noTailCalls _).same
      (hsum.noTailCalls.congr fun r => (SameAt.append_noTailCalls a b r).symm.wordsAt)
  dropped := by
    refine ⟨fun inner => ?_, isLoop_dropAll a rs⟩
    rw [dropAll_eq]
    simp only [Table.ofKind, Table.entries_foldl_erase, List.filter_comm]
    exact ⟨trivial, trivial⟩

/-- As many tail calls of `r` as a machine word can count. -/
def crowded (r : Ref) : Analysis where
  calls := Table.empty.insert r { Call.single 1 with count := wordSize - 1 }
  tailCalls := Table.empty.insert r (wordSize - 1)
  isLoop := false

theorem append?_laws_crowded :
    let r : Ref := .global ⟨none, "f"⟩
    (crowded r).Fits ∧ (call r 1).Fits ∧ AppendLaws .stops (crowded r) (call r 1) .empty [r] :=
  have hcrowded : (crowded (.global ⟨none, "f"⟩)).Fits := by decide
  have hcall : (call (.global ⟨none, "f"⟩) 1).Fits := by decide
  ⟨hcrowded, hcall, append?_laws .stops hcrowded hcall .empty _⟩

/-- The program may stop at the calls of `r` although `r` is dropped from both parts, and at its
tail calls although those are forgotten in both. -/
theorem append?_crowded :
    let r : Ref := .global ⟨none, "f"⟩
    let tails : Analysis := { call r 1 with tailCalls := (crowded r).tailCalls }
    (((crowded r).append? .stops (call r 1)).isNone = true ∧
        (((crowded r).dropAll [r]).append? .stops ((call r 1).dropAll [r])).isSome = true) ∧
      (tails.append? .stops (call r 1)).isNone = true ∧
        (tails.noTailCalls.append? .stops (call r 1).noTailCalls).isSome = true := by
  decide

end Analysis

end TailLoop

import TailLoop.Proofs.LoweringSteps
import TailLoop.Proofs.NameSupply

/-!
# What lowering leaves behind

Lowering a term enters names into the tables of the environment, and loops while they are written.
Afterwards the loops are those around the term again, and the tables have lost nothing: no name is
free again, no counter went back, and no binder is without a name that had one.

* `Env.Extends`: the tables of one environment go on those of another.
* `Built.extends`: no step takes anything from the tables.
* `lowering_carries_over`: all ways to lower a term, in any environment.
-/

namespace TailLoop.Lower

open Lowering

/-! ## Tables of an environment -/

/-- `firstFree` does not go back behind `n`. -/
theorem le_firstFree (taken : String → Bool) (base : String) (steps n : Nat) :
    n ≤ firstFree taken base steps n := by
  induction steps generalizing n with
  | zero => exact Nat.le_refl n
  | succ steps ih =>
    rw [firstFree]
    split
    · exact (Nat.le_succ n).trans (ih (n + 1))
    · exact Nat.le_refl n

namespace Env

/-- The tables of `e'` go on those of `e`: nothing was taken out, and no counter was put back. -/
structure Extends (e e' : Env) : Prop where
  /-- Counters are as large or larger. -/
  counters : ∀ name n, e.counters.get? name = some n →
    ∃ n', e'.counters.get? name = some n' ∧ n ≤ n'
  /-- Binders with a name still have one. -/
  names : ∀ b, e.names.contains b = true → e'.names.contains b = true

variable {e e' e'' : Env}

/-- `e'` extends `e` if both have the same tables. -/
theorem Extends.of_eq (hcounters : e'.counters = e.counters) (hnames : e'.names = e.names) :
    e.Extends e' where
  counters _ n h := ⟨n, hcounters ▸ h, Nat.le_refl n⟩
  names _ h := hnames ▸ h

/-- `Extends` is transitive. -/
theorem Extends.trans (h : e.Extends e') (h' : e'.Extends e'') : e.Extends e'' where
  counters name n hn := by
    obtain ⟨n', hn', hle⟩ := h.counters name n hn
    obtain ⟨n'', hn'', hle'⟩ := h'.counters name n' hn'
    exact ⟨n'', hn'', hle.trans hle'⟩
  names b hb := h'.names b (h.names b hb)

/-- Names that are taken in `e` are taken in every `e'` that extends it. -/
theorem Extends.isTaken (h : e.Extends e') {name : String} (htaken : e.isTaken name = true) :
    e'.isTaken name = true := by
  obtain ⟨n, hn⟩ := Option.isSome_iff_exists.1 htaken
  obtain ⟨n', hn', -⟩ := h.counters name n hn
  rw [Env.isTaken, Table.contains, hn']
  rfl

/-- `fresh` extends `e`. -/
theorem extends_fresh (e : Env) (base : String) : e.Extends (e.fresh base).2 where
  counters name n hn := by
    have hstart := le_firstFree e.isTaken base (e.counters.size + 1)
      ((e.counters.get? base).getD 0)
    rw [e.fresh_counters base]
    by_cases hbase : name = base
    · subst hbase
      -- the search started at the counter
      rw [hn, Option.getD_some] at hstart ⊢
      exact ⟨_, if_pos rfl, hstart.trans (Nat.le_succ _)⟩
    -- the fresh name itself had no counter, so none is overwritten
    · have hne : name ≠ (e.fresh base).1 := by
        rintro rfl
        have hfree := e.isTaken_fresh_fst base
        rw [isTaken, Table.contains, hn] at hfree
        cases hfree
      exact ⟨n, by rw [if_neg hbase, if_neg hne, hn], Nat.le_refl n⟩
  names _ h := h

/-- `bind` extends `e`. -/
theorem extends_bind (e : Env) (b : Binder) : e.Extends (e.bind b).2 := by
  have hinsert (e : Env) (name : String) : e.Extends { e with names := e.names.insert b name } :=
    ⟨fun _ n hn => ⟨n, hn, Nat.le_refl n⟩, fun _ hb => Table.contains_alter.2 (.inr hb)⟩
  obtain ⟨name, level⟩ := b
  cases name with
  | none => exact hinsert e _
  | some name => exact (e.extends_fresh name).trans (hinsert _ _)

end Env

/-! ## Steps -/

/-- A `Built` step extends the environment. -/
theorem Built.extends {α : Type} {m : Lowering α} (h : Built m) (p : Progress) :
    p.env.Extends (m p).2.env := by
  induction h generalizing p with
  | bind hm hk ihm ihk =>
    rename_i m k
    exact (ihm p).trans (ihk (m p).1 (m p).2)
  | freshName base => exact p.env.extends_fresh base
  | bindName b => exact p.env.extends_bind b
  | inLoop hm ih =>
    rename_i s m
    -- entering and leaving the loop change the list of loops only
    have henter : p.env.Extends (enterLoop s p).env := .of_eq rfl rfl
    exact (henter.trans (ih (enterLoop s p))).trans (.of_eq rfl rfl)
  | _ => exact .of_eq rfl rfl

/-! ## Terms -/

/-- `e'` has the loops of `e`, and nothing of its names is lost. -/
structure Env.CarriedTo (e e' : Env) : Prop where
  /-- The loops are the same, in the same order. -/
  scopes : e'.scopes = e.scopes
  /-- Taken names are still taken. -/
  taken : ∀ name, e.isTaken name = true → e'.isTaken name = true
  /-- Counters are as large or larger. -/
  counters : ∀ name n, e.counters.get? name = some n →
    ∃ n', e'.counters.get? name = some n' ∧ n ≤ n'
  /-- Binders with a name still have one. -/
  names : ∀ b, e.names.contains b = true → e'.names.contains b = true

/-- A `Built` step carries the environment over. -/
theorem Built.carried {α : Type} {m : Lowering α} (h : Built m) (p : Progress) :
    p.env.CarriedTo (m p).2.env :=
  ⟨h.scopes p, fun _ => (h.extends p).isTaken, (h.extends p).counters, (h.extends p).names⟩

/-- Whatever environment a term is lowered in, and in whatever way, the loops around it are
restored, and taken names, counters and names of binders are kept. -/
theorem lowering_carries_over (c : Context) (t : Analyzed) (p : Progress) :
    p.env.CarriedTo ((code c t).value p).2.env ∧
      p.env.CarriedTo ((code c t).returned p).2.env ∧
      p.env.CarriedTo ((code c t).run p).2.env ∧
      ∀ mode, p.env.CarriedTo ((code c t).block mode p).2.env := by
  have hcode := built_code c t
  refine ⟨hcode.value.carried p, hcode.returned.carried p, hcode.run.carried p, fun mode => ?_⟩
  exact (hcode.block mode).carried p

end TailLoop.Lower

import TailLoop.Proofs.Worlds

/-!
# Simulation

A computation is simulated by another one if, whenever it ends in a store, the other one ends in the
same way in a store that a world describes together with it. The first computation is run by one
engine, the second by all that are large enough. Simulations are put together as the computations
are.

* `SimAt`: a simulation that starts in given stores and may change some cells.
* `Sim`: a simulation that changes no cells.
-/

namespace TailLoop.Script.Compute

variable {S : Type} {α β : Type}

/-- `x >>= f` runs `f` on the result of `x`, in the store that `x` leaves. -/
theorem bind_apply (x : Compute S α) (f : α → Compute S β) (s : Store S) :
    (x >>= f) s = match x s with
      | none => none
      | some (.error w) => some (.error w)
      | some (.ok (a, s₁)) => f a s₁ := by
  change ExceptT.bind (x s) (fun p => f p.1 p.2) = _
  simp only [ExceptT.bind, ExceptT.mk, bind, Option.bind]
  split
  · rename_i h
    rw [h]
  · rename_i o h
    rw [h]
    cases o <;> rfl

@[simp] theorem pure_apply (a : α) (s : Store S) :
    (pure a : Compute S α) s = some (.ok (a, s)) := rfl

@[simp] theorem stuck_apply (s : Store S) : (stuck : Compute S α) s = none := rfl

theorem bind_ok {x : Compute S α} {f : α → Compute S β} {s s₁ : Store S} {a : α}
    (h : x s = some (.ok (a, s₁))) : (x >>= f) s = f a s₁ := by
  rw [bind_apply, h]

theorem bind_error {x : Compute S α} {f : α → Compute S β} {s : Store S} {w : Val S}
    (h : x s = some (.error w)) : (x >>= f) s = some (.error w) := by
  rw [bind_apply, h]

theorem bind_none {x : Compute S α} {f : α → Compute S β} {s : Store S} (h : x s = none) :
    (x >>= f) s = none := by
  rw [bind_apply, h]

theorem bind_congr_left {x y : Compute S α} (f : α → Compute S β) {s s' : Store S}
    (h : x s = y s') : (x >>= f) s = (y >>= f) s' := by
  rw [bind_apply, bind_apply, h]

end TailLoop.Script.Compute

namespace TailLoop.Emit

open Script

variable {S : Type} {α β γ δ : Type}

/-! ## Outcomes with large engines -/

/-- What `y` comes to in `s` with every engine that is large enough. -/
def Comes (y : Nat → Compute S β) (s : Store S) (o : Except (Val S) (β × Store S)) : Prop :=
  ∃ N, ∀ n, N ≤ n → y n s = some o

namespace Comes

variable {y : Nat → Compute S β} {g : Nat → β → Compute S δ} {s s₁ : Store S}

theorem of_eq {o : Except (Val S) (β × Store S)} (h : ∀ n, y n s = some o) : Comes y s o :=
  ⟨0, fun n _ => h n⟩

theorem bind {b : β} {o : Except (Val S) (δ × Store S)} (hy : Comes y s (.ok (b, s₁)))
    (hg : Comes (fun n => g n b) s₁ o) : Comes (fun n => y n >>= g n) s o := by
  obtain ⟨N, hN⟩ := hy
  obtain ⟨M, hM⟩ := hg
  exact ⟨max N M, fun n hn => (Compute.bind_ok (hN n (by omega))).trans (hM n (by omega))⟩

theorem bind_error {w : Val S} (hy : Comes y s (.error w)) :
    Comes (fun n => y n >>= g n) s (.error w) := by
  obtain ⟨N, hN⟩ := hy
  exact ⟨N, fun n hn => Compute.bind_error (hN n hn)⟩

/-- An outcome with an engine of the next larger size. -/
theorem succ {o : Except (Val S) (β × Store S)} (h : Comes (fun n => y (n + 1)) s o) :
    Comes y s o := by
  obtain ⟨N, hN⟩ := h
  refine ⟨N + 1, fun n hn => ?_⟩
  obtain ⟨m, rfl⟩ : ∃ m, n = m + 1 := ⟨n - 1, by omega⟩
  exact hN m (by omega)

end Comes

/-! ## Changes of worlds and stores -/

/-- No cell. -/
def nothing : Nat → Prop := fun _ => False

/-- `W₁` is larger than `W`. It speaks of the same old cells and, among the others, of some that
`own` and `own'` allow to change. -/
structure Grows (own own' : Nat → Prop) (s s' : Store S) (W W₁ : World S) : Prop where
  le : W ≤ W₁
  left : ∀ {ℓ}, ℓ < s.length → ¬own ℓ → W₁.usesLeft ℓ → W.usesLeft ℓ
  right : ∀ {ℓ}, ℓ < s'.length → ¬own' ℓ → W₁.usesRight ℓ → W.usesRight ℓ

/-- `s₁` is larger than `s`, and only the old cells in `own` may have been changed. -/
structure Extends (own : Nat → Prop) (s s₁ : Store S) : Prop where
  length_le : s.length ≤ s₁.length
  old : ∀ {ℓ}, ℓ < s.length → ¬own ℓ → s₁[ℓ]? = s[ℓ]?

section

variable {own own' own₁ own₁' : Nat → Prop} {s s₁ s₂ s' s₁' s₂' : Store S} {W W₁ W₂ : World S}

theorem Extends.refl (s : Store S) : Extends own s s := ⟨Nat.le_refl _, fun _ _ => rfl⟩

theorem Extends.trans (h : Extends own s s₁)
    (h' : Extends (fun ℓ => own ℓ ∨ s.length ≤ ℓ) s₁ s₂) : Extends own s s₂ where
  length_le := Nat.le_trans h.length_le h'.length_le
  old hℓ hown := by
    rw [h'.old (Nat.lt_of_lt_of_le hℓ h.length_le) (by simp only [not_or]; exact ⟨hown, by omega⟩),
      h.old hℓ hown]

theorem Extends.mono (h : Extends own s s₁) (hown : ∀ ℓ < s.length, own ℓ → own₁ ℓ) :
    Extends own₁ s s₁ :=
  ⟨h.length_le, fun hℓ hn => h.old hℓ fun ho => hn (hown _ hℓ ho)⟩

/-- Two steps that may change the same cells. -/
theorem Extends.comp (h : Extends own s s₁) (h' : Extends own s₁ s₂) : Extends own s s₂ :=
  h.trans (h'.mono fun _ _ => .inl)

theorem Extends.append (s cells : Store S) : Extends own s (s ++ cells) where
  length_le := by simp
  old hℓ _ := List.getElem?_append_left hℓ

theorem Extends.set {ℓ : Nat} (s : Store S) (c : Cell S) (h : own ℓ) :
    Extends own s (s.set ℓ c) where
  length_le := by simp
  old {m} hm hown := by
    rw [List.getElem?_set_ne]
    rintro rfl
    exact hown h

theorem Grows.refl (W : World S) : Grows own own' s s' W W :=
  ⟨World.le_refl W, fun _ _ => id, fun _ _ => id⟩

theorem Grows.trans (h : Grows own own' s s' W W₁) (hs : s.length ≤ s₁.length)
    (hs' : s'.length ≤ s₁'.length)
    (h' : Grows (fun ℓ => own ℓ ∨ s.length ≤ ℓ) (fun ℓ => own' ℓ ∨ s'.length ≤ ℓ) s₁ s₁' W₁ W₂) :
    Grows own own' s s' W W₂ where
  le := World.le_trans h.le h'.le
  left hℓ hown hu :=
    h.left hℓ hown (h'.left (by omega) (by simp only [not_or]; exact ⟨hown, by omega⟩) hu)
  right hℓ hown hu :=
    h.right hℓ hown (h'.right (by omega) (by simp only [not_or]; exact ⟨hown, by omega⟩) hu)

theorem Grows.mono (h : Grows own own' s s' W W₁) (hown : ∀ ℓ < s.length, own ℓ → own₁ ℓ)
    (hown' : ∀ ℓ < s'.length, own' ℓ → own₁' ℓ) : Grows own₁ own₁' s s' W W₁ :=
  ⟨h.le, fun hℓ hn => h.left hℓ fun ho => hn (hown _ hℓ ho),
    fun hℓ hn => h.right hℓ fun ho => hn (hown' _ hℓ ho)⟩

/-- Two steps that may change the same cells. -/
theorem Grows.comp (h : Grows own own' s s' W W₁) (hs : s.length ≤ s₁.length)
    (hs' : s'.length ≤ s₁'.length) (h' : Grows own own' s₁ s₁' W₁ W₂) : Grows own own' s s' W W₂ :=
  h.trans hs hs' (h'.mono (fun _ _ => .inl) fun _ _ => .inl)

end

/-! ## Simulations -/

section

variable (V : Versions)

/-- The outcome on the left has a match on the right, starting from the world `W` and the stores `s`
and `s'`. -/
inductive Matches (own own' : Nat → Prop) (W : World S) (s s' : Store S)
    (Q : World S → Store S → Store S → α → β → Prop) :
    Except (Val S) (α × Store S) → Except (Val S) (β × Store S) → Prop
  | error {W₁ w w'} : Same V W₁ w w' → Matches own own' W s s' Q (.error w) (.error w')
  | ok {W₁ s₁ s₁' a b} : Grows own own' s s' W W₁ → Extends own s s₁ → Extends own' s' s₁' →
      Stores V W₁ s₁ s₁' → Q W₁ s₁ s₁' a b → Matches own own' W s s' Q (.ok (a, s₁)) (.ok (b, s₁'))

/-- `x` is simulated by `y` from the stores `s` and `s'` on; both may change the cells they own. -/
def SimAt (own own' : Nat → Prop) (W : World S) (s s' : Store S) (x : Compute S α)
    (y : Nat → Compute S β) (Q : World S → Store S → Store S → α → β → Prop) : Prop :=
  ∀ o, x s = some o → ∃ o', Comes y s' o' ∧ Matches V own own' W s s' Q o o'

/-- `x` is simulated by `y` from all stores that `W` describes, without a change of old cells. -/
def Sim (W : World S) (x : Compute S α) (y : Nat → Compute S β)
    (Q : World S → α → β → Prop) : Prop :=
  ∀ s s', Stores V W s s' → SimAt V nothing nothing W s s' x y fun W₁ _ _ a b => Q W₁ a b

end

section

variable {V : Versions} {own own' own₁ own₁' : Nat → Prop} {W : World S} {s s' : Store S}
  {x : Compute S α} {y : Nat → Compute S β} {f : α → Compute S γ} {g : Nat → β → Compute S δ}
  {Q Q₁ : World S → Store S → Store S → α → β → Prop}
  {R : World S → Store S → Store S → γ → δ → Prop}

/-- More cells may be changed, and less said of the results. -/
theorem SimAt.mono (h : SimAt V own own' W s s' x y Q) (hown : ∀ ℓ < s.length, own ℓ → own₁ ℓ)
    (hown' : ∀ ℓ < s'.length, own' ℓ → own₁' ℓ)
    (hQ : ∀ W₁ s₁ s₁' a b, W ≤ W₁ → Q W₁ s₁ s₁' a b → Q₁ W₁ s₁ s₁' a b) :
    SimAt V own₁ own₁' W s s' x y Q₁ := by
  intro o ho
  obtain ⟨o', hy, hm⟩ := h o ho
  refine ⟨o', hy, ?_⟩
  cases hm with
  | error hw => exact .error hw
  | ok hgrows hs hs' hstores hq =>
    exact .ok (hgrows.mono hown hown') (hs.mono hown) (hs'.mono hown') hstores
      (hQ _ _ _ _ _ hgrows.le hq)

/-- What comes after `x` and `y` is simulated in a later world, and may change new cells too. -/
theorem SimAt.bind (h : SimAt V own own' W s s' x y Q)
    (h' : ∀ W₁ s₁ s₁' a b, Grows own own' s s' W W₁ → Extends own s s₁ → Extends own' s' s₁' →
      Stores V W₁ s₁ s₁' → Q W₁ s₁ s₁' a b →
      SimAt V (fun ℓ => own ℓ ∨ s.length ≤ ℓ) (fun ℓ => own' ℓ ∨ s'.length ≤ ℓ) W₁ s₁ s₁' (f a)
        (fun n => g n b) R) :
    SimAt V own own' W s s' (x >>= f) (fun n => y n >>= g n) R := by
  intro o ho
  rw [Compute.bind_apply] at ho
  cases hx : x s with
  | none =>
    rw [hx] at ho
    cases ho
  | some o₁ =>
    rw [hx] at ho
    obtain ⟨o₁', hy, hm⟩ := h o₁ hx
    cases hm with
    | error hw =>
      obtain rfl := Option.some.inj ho
      exact ⟨_, hy.bind_error, .error hw⟩
    | ok hgrows hs hs' hstores hq =>
      obtain ⟨o', hg, hm⟩ := h' _ _ _ _ _ hgrows hs hs' hstores hq o ho
      refine ⟨o', hy.bind hg, ?_⟩
      cases hm with
      | error hw => exact .error hw
      | ok hgrows₂ hs₂ hs₂' hstores₂ hr =>
        exact .ok (hgrows.trans hs.length_le hs'.length_le hgrows₂) (hs.trans hs₂) (hs'.trans hs₂')
          hstores₂ hr

theorem SimAt.pure {a : α} {b : β} (hstores : Stores V W s s') (h : Q W s s' a b) :
    SimAt V own own' W s s' (pure a) (fun _ => pure b) Q := by
  rintro o ⟨⟩
  exact ⟨_, .of_eq fun _ => rfl, .ok (.refl W) (.refl s) (.refl s') hstores h⟩

theorem SimAt.stuck : SimAt V own own' W s s' (Compute.stuck : Compute S α) y Q := by
  rintro o ⟨⟩

/-- Both computations do a step of their own first, to `s₁` and `s₁'`. -/
theorem SimAt.step {s₁ s₁' : Store S} {W₁ : World S} {x₁ : Compute S α} {y₁ : Nat → Compute S β}
    (hs : Extends own s s₁) (hs' : Extends own' s' s₁') (hgrows : Grows own own' s s' W W₁)
    (h : SimAt V (fun ℓ => own ℓ ∨ s.length ≤ ℓ) (fun ℓ => own' ℓ ∨ s'.length ≤ ℓ) W₁ s₁
      s₁' x₁ y₁ Q)
    (hx : x s = x₁ s₁) (hy : ∀ o, Comes y₁ s₁' o → Comes y s' o) :
    SimAt V own own' W s s' x y Q := by
  intro o ho
  obtain ⟨o', hcomes, hm⟩ := h o (hx ▸ ho)
  refine ⟨o', hy o' hcomes, ?_⟩
  cases hm with
  | error hw => exact .error hw
  | ok hgrows₂ hs₂ hs₂' hstores hq =>
    exact .ok (hgrows.trans hs.length_le hs'.length_le hgrows₂) (hs.trans hs₂) (hs'.trans hs₂')
      hstores hq

end

section

variable {V : Versions} {W : World S} {x : Compute S α} {y : Nat → Compute S β}
  {f : α → Compute S γ}
  {g : Nat → β → Compute S δ} {Q : World S → α → β → Prop} {R : World S → γ → δ → Prop}

/-- Where no old cell is changed, some may be. -/
theorem Sim.at {own own' : Nat → Prop} {s s' : Store S} (h : Sim V W x y Q)
    (hstores : Stores V W s s') :
    SimAt V own own' W s s' x y fun W₁ _ _ a b => Q W₁ a b :=
  (h s s' hstores).mono (fun _ _ => False.elim) (fun _ _ => False.elim) fun _ _ _ _ _ _ => id

/-- A simulation that changes no old cells, before one that may. -/
theorem Sim.bindAt {own own' : Nat → Prop} {s s' : Store S}
    {R : World S → Store S → Store S → γ → δ → Prop} (h : Sim V W x y Q) (hstores : Stores V W s s')
    (h' : ∀ W₁ s₁ s₁' a b, Grows nothing nothing s s' W W₁ → Extends nothing s s₁ →
      Extends nothing s' s₁' → Stores V W₁ s₁ s₁' → Q W₁ a b →
      SimAt V (fun ℓ => own ℓ ∨ s.length ≤ ℓ) (fun ℓ => own' ℓ ∨ s'.length ≤ ℓ) W₁ s₁ s₁' (f a)
        (fun n => g n b) R) :
    SimAt V own own' W s s' (x >>= f) (fun n => y n >>= g n) R := by
  have hstrong : SimAt V own own' W s s' x y fun W₁ s₁ s₁' a b => Grows nothing nothing s s' W W₁ ∧
      Extends nothing s s₁ ∧ Extends nothing s' s₁' ∧ Q W₁ a b := by
    intro o ho
    obtain ⟨o', hy, hm⟩ := h s s' hstores o ho
    refine ⟨o', hy, ?_⟩
    cases hm with
    | error hw => exact .error hw
    | ok hgrows hs hs' hstores₁ hq =>
      exact .ok (hgrows.mono (fun _ _ => False.elim) fun _ _ => False.elim)
        (hs.mono fun _ _ => False.elim) (hs'.mono fun _ _ => False.elim) hstores₁
        ⟨hgrows, hs, hs', hq⟩
  exact hstrong.bind fun W₁ s₁ s₁' a b _ _ _ hstores₁ ⟨hgrows, hs, hs', hq⟩ =>
    h' W₁ s₁ s₁' a b hgrows hs hs' hstores₁ hq

/-- `f` and `g` are simulated in a later world. -/
theorem Sim.bind (h : Sim V W x y Q)
    (h' : ∀ W₁, W ≤ W₁ → ∀ a b, Q W₁ a b → Sim V W₁ (f a) (fun n => g n b) R) :
    Sim V W (x >>= f) (fun n => y n >>= g n) R := fun s s' hstores =>
  (h s s' hstores).bind fun W₁ _ _ a b hgrows _ _ hstores₁ hq =>
    (h' W₁ hgrows.le a b hq).at hstores₁

theorem Sim.pure {a : α} {b : β} (h : Q W a b) :
    Sim V W (pure a : Compute S α) (fun _ => pure b) Q := fun _ _ hstores => .pure hstores h

theorem Sim.stuck : Sim V W (Compute.stuck : Compute S α) y Q := fun _ _ _ => .stuck

/-- `Compute.given`, where the results are missing only together. -/
theorem Sim.given {a? : Option α} {b? : Option β}
    (h : ∀ a, a? = some a → ∃ b, b? = some b ∧ Q W a b) :
    Sim V W (Compute.given a?) (fun _ => Compute.given b?) Q := by
  cases a? with
  | none => exact .stuck
  | some a =>
    obtain ⟨b, rfl, hq⟩ := h a rfl
    exact .pure hq

end

/-! ## Stores and larger worlds -/

section

variable {V : Versions} {W W₁ : World S} {s s' s₁ s₁' : Store S}

theorem SameCell.mono {c c' : Cell S} (h : W ≤ W₁) (hc : SameCell V W c c') :
    SameCell V W₁ c c' := by
  cases hc with
  | empty => exact .empty
  | value hv hv' hsame => exact .value hv hv' (hsame.mono h)

/-- `W` describes stores by the cells it speaks of. -/
theorem Stores.congr (h : Stores V W s s') (hs : ∀ ℓ, W.usesLeft ℓ → s₁[ℓ]? = s[ℓ]?)
    (hs' : ∀ ℓ, W.usesRight ℓ → s₁'[ℓ]? = s'[ℓ]?) : Stores V W s₁ s₁' where
  cells {ℓ ℓ'} hj := by
    rw [hs ℓ (.inl ⟨ℓ', hj⟩), hs' ℓ' (.inl ⟨ℓ, hj⟩)]
    exact h.cells hj
  paired_left := h.paired_left
  paired_right := h.paired_right
  filled {ℓ ℓ'} hj := by
    rw [hs ℓ (.inl ⟨ℓ', .inl hj⟩)]
    exact h.filled hj
  settled_left := h.settled_left
  settled_right := h.settled_right
  left {ℓ v} hv := by
    rw [hs ℓ (.inr ⟨v, hv⟩)]
    exact h.left hv
  right {ℓ v} hv := by
    rw [hs' ℓ (.inr ⟨v, hv⟩)]
    exact h.right hv

/-- `W` speaks of cells that exist on the left. -/
theorem Stores.lt_left (h : Stores V W s s') {ℓ : Nat} (hu : W.usesLeft ℓ) : ℓ < s.length := by
  rcases hu with ⟨ℓ', hj⟩ | ⟨v, hv⟩
  · obtain ⟨c, c', hc, -, -⟩ := h.cells hj
    exact (List.getElem?_eq_some_iff.1 hc).1
  · exact (List.getElem?_eq_some_iff.1 (h.left hv)).1

/-- `W` speaks of cells that exist on the right. -/
theorem Stores.lt_right (h : Stores V W s s') {ℓ : Nat} (hu : W.usesRight ℓ) : ℓ < s'.length := by
  rcases hu with ⟨ℓ', hj⟩ | ⟨v, hv⟩
  · obtain ⟨c, c', -, hc, -⟩ := h.cells hj
    exact (List.getElem?_eq_some_iff.1 hc).1
  · exact (List.getElem?_eq_some_iff.1 (h.right hv)).1

/-- New cells, and changes of cells that `W` does not speak of, do not matter. -/
theorem Stores.extend {own own' : Nat → Prop} (h : Stores V W s s') (hs : Extends own s s₁)
    (hs' : Extends own' s' s₁') (hown : ∀ ℓ, own ℓ → ¬W.usesLeft ℓ)
    (hown' : ∀ ℓ, own' ℓ → ¬W.usesRight ℓ) : Stores V W s₁ s₁' :=
  h.congr (fun ℓ hu => hs.old (h.lt_left hu) fun ho => hown ℓ ho hu)
    fun ℓ hu => hs'.old (h.lt_right hu) fun ho => hown' ℓ ho hu

/-- `W` with more pairs `ps` of cells, which hold the same for ever. -/
def World.settle (W : World S) (ps : List (Nat × Nat)) : World S :=
  { W with settled := fun ℓ ℓ' => W.settled ℓ ℓ' ∨ (ℓ, ℓ') ∈ ps }

/-- `W` with more pairs `ps` of cells, which belong to each other only. -/
def World.pair (W : World S) (ps : List (Nat × Nat)) : World S :=
  { W with paired := fun ℓ ℓ' => W.paired ℓ ℓ' ∨ (ℓ, ℓ') ∈ ps }

/-- `W` with more known of the constants in `ls` and `rs`. -/
def World.know (W : World S) (ls rs : List (Nat × Val S)) : World S :=
  { W with
    left := fun ℓ v => W.left ℓ v ∨ (ℓ, v) ∈ ls
    right := fun ℓ v => W.right ℓ v ∨ (ℓ, v) ∈ rs }

theorem World.le_settle (W : World S) (ps : List (Nat × Nat)) : W ≤ W.settle ps :=
  ⟨.inl, id, id, id⟩

theorem World.le_pair (W : World S) (ps : List (Nat × Nat)) : W ≤ W.pair ps := ⟨id, .inl, id, id⟩

theorem World.le_know (W : World S) (ls rs : List (Nat × Val S)) : W ≤ W.know ls rs :=
  ⟨id, id, .inl, .inl⟩

/-- Cells with the same content can be settled if they are not `empty` and not paired. -/
theorem Stores.settle (h : Stores V W s s') {ps : List (Nat × Nat)}
    (hps : ∀ p ∈ ps, (∃ c c', s[p.1]? = some c ∧ s'[p.2]? = some c' ∧ SameCell V W c c' ∧
      c ≠ .empty) ∧ (∀ m, ¬W.paired p.1 m) ∧ ∀ m, ¬W.paired m p.2) :
    Stores V (W.settle ps) s s' where
  cells {ℓ ℓ'} hj := by
    have hcell : ∃ c c', s[ℓ]? = some c ∧ s'[ℓ']? = some c' ∧ SameCell V W c c' := by
      -- newly settled cells are not paired, so the old pairs stay alone
      rcases hj with (hj | hj) | hj
      · exact h.cells (.inl hj)
      · obtain ⟨c, c', hc, hc', hsame, -⟩ := (hps _ hj).1
        exact ⟨c, c', hc, hc', hsame⟩
      · exact h.cells (.inr hj)
    obtain ⟨c, c', hc, hc', hsame⟩ := hcell
    exact ⟨c, c', hc, hc', hsame.mono (W.le_settle ps)⟩
  paired_left {ℓ ℓ' m} hp hj := by
    rcases hj with (hj | hj) | hj
    · exact h.paired_left hp (.inl hj)
    · exact ((hps _ hj).2.1 _ hp).elim
    · exact h.paired_left hp (.inr hj)
  paired_right {ℓ ℓ' m} hp hj := by
    rcases hj with (hj | hj) | hj
    · exact h.paired_right hp (.inl hj)
    · exact ((hps _ hj).2.2 _ hp).elim
    · exact h.paired_right hp (.inr hj)
  filled hj := by
    rcases hj with hj | hj
    · exact h.filled hj
    · obtain ⟨c, c', hc, -, -, hne⟩ := (hps _ hj).1
      rw [hc]
      exact fun heq => hne (Option.some.inj heq)
  settled_left hj := hj.elim h.settled_left fun hmem => (hps _ hmem).2.1 _
  settled_right hj := hj.elim h.settled_right fun hmem => (hps _ hmem).2.2 _
  left := h.left
  right := h.right

/-- Cells that `W` does not speak of can be paired while they have the same content. -/
theorem Stores.pair (h : Stores V W s s') {ps : List (Nat × Nat)}
    (hcells : ∀ p ∈ ps, ∃ c c', s[p.1]? = some c ∧ s'[p.2]? = some c' ∧ SameCell V W c c')
    (hfree : ∀ p ∈ ps, ¬W.usesLeft p.1 ∧ ¬W.usesRight p.2)
    (hleft : ∀ p ∈ ps, ∀ q ∈ ps, p.1 = q.1 → p.2 = q.2)
    (hright : ∀ p ∈ ps, ∀ q ∈ ps, p.2 = q.2 → p.1 = q.1) : Stores V (W.pair ps) s s' where
  cells {ℓ ℓ'} hj := by
    have hcell : ∃ c c', s[ℓ]? = some c ∧ s'[ℓ']? = some c' ∧ SameCell V W c c' := by
      rcases hj with hj | hj | hj
      · exact h.cells (.inl hj)
      · exact h.cells (.inr hj)
      · exact hcells _ hj
    obtain ⟨c, c', hc, hc', hsame⟩ := hcell
    exact ⟨c, c', hc, hc', hsame.mono (W.le_pair ps)⟩
  paired_left {ℓ ℓ' m} hp hj := by
    rcases hp with hp | hp
    · rcases hj with hj | hj | hj
      -- an old pair is known to be alone; a new one could only be joined to a cell that is in use
      · exact h.paired_left hp (.inl hj)
      · exact h.paired_left hp (.inr hj)
      · exact ((hfree _ hj).1 (.inl ⟨ℓ', .inr hp⟩)).elim
    · rcases hj with hj | hj | hj
      · exact ((hfree _ hp).1 (.inl ⟨m, .inl hj⟩)).elim
      · exact ((hfree _ hp).1 (.inl ⟨m, .inr hj⟩)).elim
      · exact hleft _ hj _ hp rfl
  paired_right {ℓ ℓ' m} hp hj := by
    rcases hp with hp | hp
    · rcases hj with hj | hj | hj
      · exact h.paired_right hp (.inl hj)
      · exact h.paired_right hp (.inr hj)
      · exact ((hfree _ hj).2 (.inl ⟨ℓ, .inr hp⟩)).elim
    · rcases hj with hj | hj | hj
      · exact ((hfree _ hp).2 (.inl ⟨m, .inl hj⟩)).elim
      · exact ((hfree _ hp).2 (.inl ⟨m, .inr hj⟩)).elim
      · exact hright _ hj _ hp rfl
  filled := h.filled
  settled_left hj hp := by
    rcases hp with hp | hp
    · exact h.settled_left hj hp
    · exact (hfree _ hp).1 (.inl ⟨_, .inl hj⟩)
  settled_right hj hp := by
    rcases hp with hp | hp
    · exact h.settled_right hj hp
    · exact (hfree _ hp).2 (.inl ⟨_, .inl hj⟩)
  left := h.left
  right := h.right

/-- The paired cells `ℓ` and `ℓ'`, which are no constants yet, can be written together. -/
theorem Stores.write (h : Stores V W s s') {ℓ ℓ' : Nat} {c c' : Cell S} (hp : W.paired ℓ ℓ')
    (hc : ∀ v, s[ℓ]? ≠ some (.constant v)) (hc' : ∀ v, s'[ℓ']? ≠ some (.constant v))
    (hsame : SameCell V W c c') : Stores V W (s.set ℓ c) (s'.set ℓ' c') where
  cells {m m'} hj := by
    obtain ⟨d, d', hd, hd', hold⟩ := h.cells hj
    obtain ⟨hm, -⟩ := List.getElem?_eq_some_iff.1 hd
    obtain ⟨hm', -⟩ := List.getElem?_eq_some_iff.1 hd'
    -- the written cells are paired, so no other cell is joined to either of them
    by_cases heq : m = ℓ
    · subst heq
      obtain rfl := h.paired_left hp hj
      exact ⟨c, c', List.getElem?_set_self hm, List.getElem?_set_self hm', hsame⟩
    · have heq' : m' ≠ ℓ' := by
        rintro rfl
        exact heq (h.paired_right hp hj)
      rw [List.getElem?_set_ne (Ne.symm heq), List.getElem?_set_ne (Ne.symm heq')]
      exact ⟨d, d', hd, hd', hold⟩
  paired_left := h.paired_left
  paired_right := h.paired_right
  filled {m m'} hj := by
    rw [List.getElem?_set_ne]
    · exact h.filled hj
    · rintro rfl
      exact h.settled_left hj hp
  settled_left := h.settled_left
  settled_right := h.settled_right
  left {m v} hv := by
    have hm := h.left hv
    rw [List.getElem?_set_ne]
    · exact hm
    · rintro rfl
      exact hc v hm
  right {m v} hv := by
    have hm := h.right hv
    rw [List.getElem?_set_ne]
    · exact hm
    · rintro rfl
      exact hc' v hm

end

end TailLoop.Emit

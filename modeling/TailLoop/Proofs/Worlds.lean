import Mathlib.Data.List.Forall2
import TailLoop.Proofs.Evaluation
import TailLoop.Proofs.Naming

/-!
# Worlds

Two scripts that stand for the same unit keep their values in different cells. A `World` says which
cells of the two stores belong together while both scripts run. Values are the same in a world if
they have the same parts and functions in them stand for the same term, in scopes whose cells belong
together. Loops and functions that are entered through loops are functions like any other here:
`Enters` says in which ways the body of a function can lead to the body of its term.

* `Same`: values that cannot be told apart in a world.
* `Stores`: stores that a world describes.
-/

namespace TailLoop.Emit

open Script Lower

variable {S : Type}

/-! ## Functions -/

/-- The value of a curried function with the given parameters, built in `ρ`. -/
def curriedFn (ρ : Scope) : List String → List Stmt → Val S
  | [], body => .function [] body ρ
  | [p], body => .function [p] body ρ
  | p :: ps, body => .function [p] [.ret (.curried ps body)] ρ

/-- The cell of the `k`-th declaration of `ρ`, the outermost first. -/
def cellOf (ρ : Scope) (k : Nat) : Option Nat := ρ.reverse[k]?.map Prod.snd

/-- The names of `ρ`, without their cells. -/
abbrev namesOf (ρ : Scope) : List String := ρ.map Prod.fst

/-- A recursive group of functions in a script: the `naming` and the `scope` in which it was
declared, and the `cells` of its members. -/
structure Band where
  /-- The declarations of the binders in scope. -/
  naming : Naming
  /-- The scope of the declarations. -/
  scope : Scope
  /-- The cells of the members. -/
  cells : List Nat

section

variable (E : Setting) (known : Nat → Val S → Prop) (refs : List Ref) (ts : List Analyzed)
  (B : Band)

/-- The loop of a group: the frame of its jumps, the names that are declared around it and its
block. `copies` are the parameters of the function around the loop of a single member. -/
inductive LoopOf : LoopFrame → List String → Option String → List String → List Stmt → Prop
  | self {r t k copies slots block} : E.context.loops = true → refs = [r] → ts = [t] →
      0 < t.arity → copies.length = t.params.length → slots.length = t.params.length →
        (copies ++ slots).Nodup →
      (declared block).Nodup → [k].map (cellOf B.scope) = B.cells.map some →
      Member E ⟨[(r, t.arity)], [k], none,
          List.range' ((namesOf B.scope).length + copies.length) slots.length⟩ slots
        (enter (enter (enter (namesOf B.scope) copies) slots) (declared block)) B.naming t block →
      LoopOf ⟨[(r, t.arity)], [k], none,
          List.range' ((namesOf B.scope).length + copies.length) slots.length⟩ copies none slots
        block
  | shared {ks selector slots block} : E.context.loops = true → ts.length ≤ E.size →
      (∀ t ∈ ts, 0 < t.arity ∧ t.arity ≤ slots.length) → (selector :: slots).Nodup →
      (declared block).Nodup → ks.map (cellOf B.scope) = B.cells.map some →
      Dispatch E ⟨refs.zip (ts.map Term.arity), ks, some (namesOf B.scope).length,
          List.range' ((namesOf B.scope).length + 1) slots.length⟩ selector slots 0
        (enter (enter (namesOf B.scope) (selector :: slots)) (declared block)) B.naming ts block →
      LoopOf ⟨refs.zip (ts.map Term.arity), ks, some (namesOf B.scope).length,
          List.range' ((namesOf B.scope).length + 1) slots.length⟩ [] (some selector) slots block

/-- A function with the given names and body leads to the body of the member `i`, which is `t`:
directly, through a loop of its own or through a loop that it shares. -/
inductive Enters : Nat → Analyzed → List String → List Stmt → Prop
  | plain {i t names body} : names.length = t.params.length → names.Nodup →
      Body E .plain names (enter (namesOf B.scope) names)
        (t.params.zipIdx (namesOf B.scope).length ++ B.naming) t.inner body →
      Enters i t names body
  | self {i t frame copies slots block} : ts[i]? = some t →
      LoopOf E refs ts B frame copies none slots block →
      Enters i t copies
        ((slots.zip copies).map (fun p => .declare p.1 (some (.ident p.2))) ++ [.loop block])
  | shared {i t frame selector slots block label k c copies} : ts[i]? = some t →
      LoopOf E refs ts B frame [] (some selector) slots block →
      copies.length = t.params.length → copies.Nodup →
      resolve label (enter (namesOf B.scope) copies) = some k → k < (namesOf B.scope).length →
      cellOf B.scope k = some c →
      known c (.function (selector :: slots) [.loop block] B.scope) →
      Enters i t copies [.ret (.call (.ident label) (natLit i :: copies.map .ident))]

/-- The cell `c` is a constant that holds a function which `Enters` the body of `t`. -/
def Keeps (i : Nat) (t : Analyzed) (c : Nat) : Prop :=
  ∃ names body, known c (curriedFn B.scope names body) ∧ Enters E known refs ts B i t names body

end

/-! ## Worlds -/

/-- Two scripts of one unit, and the names `tops` of its bindings. -/
structure Versions where
  /-- What surrounds the first script. -/
  left : Setting
  /-- What surrounds the second script. -/
  right : Setting
  /-- The top-level names. -/
  tops : List String

/-- Which cells of two stores belong together, and what is known of single cells. -/
structure World (S : Type) where
  /-- Cells that hold the same and are not written any more. -/
  settled : Nat → Nat → Prop
  /-- Cells that belong to each other only and are written together. -/
  paired : Nat → Nat → Prop
  /-- What constants of the first store hold. -/
  left : Nat → Val S → Prop
  /-- What constants of the second store hold. -/
  right : Nat → Val S → Prop

namespace World

variable (W : World S)

/-- The cells `ℓ` and `ℓ'` belong together: `settled` ones hold the same already, `paired` ones may
be empty. -/
def joins (ℓ ℓ' : Nat) : Prop := W.settled ℓ ℓ' ∨ W.paired ℓ ℓ'

/-- `W` speaks of the cell `ℓ` of the first store. -/
def usesLeft (ℓ : Nat) : Prop := (∃ ℓ', W.joins ℓ ℓ') ∨ ∃ v, W.left ℓ v

/-- `W` speaks of the cell `ℓ'` of the second store. -/
def usesRight (ℓ' : Nat) : Prop := (∃ ℓ, W.joins ℓ ℓ') ∨ ∃ v, W.right ℓ' v

/-- `W₁` says no less than `W`. -/
structure Le (W W₁ : World S) : Prop where
  settled : ∀ {ℓ ℓ'}, W.settled ℓ ℓ' → W₁.settled ℓ ℓ'
  paired : ∀ {ℓ ℓ'}, W.paired ℓ ℓ' → W₁.paired ℓ ℓ'
  left : ∀ {ℓ v}, W.left ℓ v → W₁.left ℓ v
  right : ∀ {ℓ v}, W.right ℓ v → W₁.right ℓ v

instance : LE (World S) := ⟨Le⟩

variable {W} {W₁ W₂ : World S}

theorem le_refl (W : World S) : W ≤ W := ⟨id, id, id, id⟩

theorem le_trans (h : W ≤ W₁) (h' : W₁ ≤ W₂) : W ≤ W₂ :=
  ⟨h'.settled ∘ h.settled, h'.paired ∘ h.paired, h'.left ∘ h.left, h'.right ∘ h.right⟩

theorem Le.joins (h : W ≤ W₁) {ℓ ℓ' : Nat} (hj : W.joins ℓ ℓ') : W₁.joins ℓ ℓ' :=
  hj.imp h.settled h.paired

end World

/-! ## Values -/

section

variable (V : Versions) (W : World S)

/-- Where `σ` and `σ'` (or the top-level names) give a reference declarations in `ρ` and `ρ'`, `W`
joins their cells. -/
structure Agree (σ : Naming) (ρ : Scope) (σ' : Naming) (ρ' : Scope) : Prop where
  /-- Binders in scope do. -/
  bound : ∀ {b k k'}, σ.lookup b = some k → σ'.lookup b = some k' →
    ∃ ℓ ℓ', cellOf ρ k = some ℓ ∧ cellOf ρ' k' = some ℓ' ∧ W.joins ℓ ℓ'
  /-- Top-level names do. -/
  global : ∀ {x k k'}, x ∈ V.tops → resolve x V.left.names = some k →
    resolve x V.right.names = some k' →
    ∃ ℓ ℓ', cellOf ρ k = some ℓ ∧ cellOf ρ' k' = some ℓ' ∧ W.joins ℓ ℓ'

/-- `q` is a binding of `V.tops`, and both scripts write it as `q.ident`. -/
def OwnName (q : Qualified) : Prop :=
  q.ident ∈ V.tops ∧
    (globalHead V.left.context q = q.ident ∧ globalExpr V.left.context q = .ident q.ident ∧
      V.left.context.isForeign q.ident = false) ∧
    (globalHead V.right.context q = q.ident ∧ globalExpr V.right.context q = .ident q.ident ∧
      V.right.context.isForeign q.ident = false)

/-- Every global reference in `t` is an `OwnName`. -/
def Owns (t : Analyzed) : Prop := ∀ a q, Term.global a q ∈ t.subterms → OwnName V q

/-- A recursive group of functions in both scripts: `Agree` holds where it was declared, and its
members are known to be kept in the cells of `B` and `B'`. -/
structure Fellows (refs : List Ref) (ts : List Analyzed) (B B' : Band) : Prop where
  /-- The group stands at places that agree. -/
  agree : Agree V W B.naming B.scope B'.naming B'.scope
  /-- There are as many references as members. -/
  length_refs : refs.length = ts.length
  /-- Every member has a cell. -/
  length_left : B.cells.length = ts.length
  /-- Every member has a cell. -/
  length_right : B'.cells.length = ts.length
  /-- Members have cells of their own. -/
  nodup : B'.cells.Nodup
  /-- The bodies refer to the unit only. -/
  owns : ∀ t ∈ ts, Owns V t.inner
  /-- The cells of a member belong to each other only. -/
  paired : ∀ {i c c' : Nat}, B.cells[i]? = some c → B'.cells[i]? = some c' → W.paired c c'
  /-- The first script keeps the members in their cells. -/
  left : ∀ {i : Nat} {t c}, ts[i]? = some t → B.cells[i]? = some c →
    Keeps V.left W.left refs ts B i t c
  /-- The second script keeps the members in their cells. -/
  right : ∀ {i : Nat} {t c}, ts[i]? = some t → B'.cells[i]? = some c →
    Keeps V.right W.right refs ts B' i t c

/-- Functions of two scripts that stand for the same term. -/
inductive SameFn : Val S → Val S → Prop
  /-- A curried function that was given some of its arguments. -/
  | curried {refs ts B B' i t taken taken' rest rest' body body'} : Fellows V W refs ts B B' →
      Enters V.left W.left refs ts B i t (taken.map Prod.fst ++ rest) body →
      Enters V.right W.right refs ts B' i t (taken'.map Prod.fst ++ rest') body' →
      Owns V t.inner →
      List.Forall₂ (fun p p' => W.settled p.2 p'.2) taken taken' →
      rest.length = rest'.length →
      SameFn (curriedFn (extend B.scope taken) rest body)
        (curriedFn (extend B'.scope taken') rest' body')
  /-- A function that takes its arguments at once. -/
  | arrow {p σ ρ σ' ρ' names names' t block block'} {params : List Binder} :
      p = .plain ∨ p = .effect →
      Agree V W σ ρ σ' ρ' → Owns V t → names.length = params.length → names.Nodup →
      names'.length = params.length → names'.Nodup →
      Body V.left p names (enter (namesOf ρ) names)
        (params.zipIdx (namesOf ρ).length ++ σ) t block →
      Body V.right p names' (enter (namesOf ρ') names')
        (params.zipIdx (namesOf ρ').length ++ σ') t block' →
      SameFn (.function names block ρ) (.function names' block' ρ')
  /-- A constructor that was given some of its fields. -/
  | constructor {tag ρ ρ' taken taken' rest rest'} {fields : List String} :
      (taken.map Prod.fst ++ rest).length = fields.length → (taken.map Prod.fst ++ rest).Nodup →
      (taken'.map Prod.fst ++ rest').length = fields.length →
      (taken'.map Prod.fst ++ rest').Nodup →
      List.Forall₂ (fun p p' => W.settled p.2 p'.2) taken taken' → rest ≠ [] →
      SameFn
        (curriedFn (extend ρ taken) rest [.retObject (.object (tagField tag ::
          (fields.zip (taken.map Prod.fst ++ rest)).map fun p => .field p.1 (.ident p.2)))])
        (curriedFn (extend ρ' taken') rest' [.retObject (.object (tagField tag ::
          (fields.zip (taken'.map Prod.fst ++ rest')).map fun p => .field p.1 (.ident p.2)))])

mutual

/-- Values that cannot be told apart in `W`. -/
inductive Same : Val S → Val S → Prop
  | scalar {s} : Same (.scalar s) (.scalar s)
  | array {vs vs'} : SameAll vs vs' → Same (.array vs) (.array vs')
  | object {fs fs'} : SameFields fs fs' → Same (.object fs) (.object fs')
  | error {v v'} : Same v v' → Same (.error v) (.error v')
  | function {f f'} : SameFn V W f f' → Same f f'

/-- Lists of values that are pairwise the `Same`. -/
inductive SameAll : List (Val S) → List (Val S) → Prop
  | nil : SameAll [] []
  | cons {v v' vs vs'} : Same v v' → SameAll vs vs' → SameAll (v :: vs) (v' :: vs')

/-- Named values that are pairwise the `Same`, under the same names. -/
inductive SameFields : List (String × Val S) → List (String × Val S) → Prop
  | nil : SameFields [] []
  | cons {key v v' fs fs'} : Same v v' → SameFields fs fs' →
      SameFields ((key, v) :: fs) ((key, v') :: fs')

end

/-- Cells of the same kind with contents that are the `Same`. -/
inductive SameCell : Cell S → Cell S → Prop
  | empty : SameCell .empty .empty
  | value {c c' v v'} : c.value? = some v → c'.value? = some v' → Same V W v v' → SameCell c c'

/-- `W` describes the stores `s` and `s'`. -/
structure Stores (s s' : Store S) : Prop where
  /-- Cells that belong together hold the same. -/
  cells : ∀ {ℓ ℓ'}, W.joins ℓ ℓ' →
    ∃ c c', s[ℓ]? = some c ∧ s'[ℓ']? = some c' ∧ SameCell V W c c'
  /-- A paired cell belongs to one other cell. -/
  paired_left : ∀ {ℓ ℓ' m}, W.paired ℓ ℓ' → W.joins ℓ m → m = ℓ'
  /-- A paired cell belongs to one other cell. -/
  paired_right : ∀ {ℓ ℓ' m}, W.paired ℓ ℓ' → W.joins m ℓ' → m = ℓ
  /-- A settled cell is not empty. -/
  filled : ∀ {ℓ ℓ'}, W.settled ℓ ℓ' → s[ℓ]? ≠ some .empty
  /-- A settled cell is not paired. -/
  settled_left : ∀ {ℓ ℓ' m}, W.settled ℓ ℓ' → ¬W.paired ℓ m
  /-- A settled cell is not paired. -/
  settled_right : ∀ {ℓ ℓ' m}, W.settled ℓ ℓ' → ¬W.paired m ℓ'
  /-- Constants hold what is known of them. -/
  left : ∀ {ℓ v}, W.left ℓ v → s[ℓ]? = some (.constant v)
  /-- Constants hold what is known of them. -/
  right : ∀ {ℓ v}, W.right ℓ v → s'[ℓ]? = some (.constant v)

end

/-! ## Larger worlds -/

section

variable {V : Versions} {W W₁ : World S}

theorem Enters.mono {E : Setting} {known known₁ : Nat → Val S → Prop} {refs : List Ref}
    {ts : List Analyzed} {B : Band} {i : Nat} {t : Analyzed} {names : List String}
    {body : List Stmt}
    (h : ∀ {ℓ v}, known ℓ v → known₁ ℓ v) (henters : Enters E known refs ts B i t names body) :
    Enters E known₁ refs ts B i t names body := by
  cases henters with
  | plain hlen hnodup hbody => exact .plain hlen hnodup hbody
  | self ht hloop => exact .self ht hloop
  | shared ht hloop hlen hnodup hlabel hk hc hknown =>
    exact .shared ht hloop hlen hnodup hlabel hk hc (h hknown)

theorem Keeps.mono {E : Setting} {known known₁ : Nat → Val S → Prop} {refs : List Ref}
    {ts : List Analyzed} {B : Band} {i : Nat} {t : Analyzed} {c : Nat}
    (h : ∀ {ℓ v}, known ℓ v → known₁ ℓ v) (hkeeps : Keeps E known refs ts B i t c) :
    Keeps E known₁ refs ts B i t c := by
  obtain ⟨names, body, hknown, henters⟩ := hkeeps
  exact ⟨names, body, h hknown, henters.mono h⟩

theorem Agree.mono {σ σ' : Naming} {ρ ρ' : Scope} (h : W ≤ W₁) (ha : Agree V W σ ρ σ' ρ') :
    Agree V W₁ σ ρ σ' ρ' where
  bound hk hk' := by
    obtain ⟨ℓ, ℓ', hℓ, hℓ', hj⟩ := ha.bound hk hk'
    exact ⟨ℓ, ℓ', hℓ, hℓ', h.joins hj⟩
  global hx hk hk' := by
    obtain ⟨ℓ, ℓ', hℓ, hℓ', hj⟩ := ha.global hx hk hk'
    exact ⟨ℓ, ℓ', hℓ, hℓ', h.joins hj⟩

theorem Fellows.mono {refs : List Ref} {ts : List Analyzed} {B B' : Band} (h : W ≤ W₁)
    (hf : Fellows V W refs ts B B') : Fellows V W₁ refs ts B B' where
  agree := hf.agree.mono h
  length_refs := hf.length_refs
  length_left := hf.length_left
  length_right := hf.length_right
  nodup := hf.nodup
  owns := hf.owns
  paired hc hc' := h.paired (hf.paired hc hc')
  left ht hc := (hf.left ht hc).mono h.left
  right ht hc := (hf.right ht hc).mono h.right

/-- `SameFn` is kept in larger worlds. -/
theorem SameFn.mono {f f' : Val S} (h : W ≤ W₁) (hf : SameFn V W f f') : SameFn V W₁ f f' := by
  cases hf with
  | curried hfellows hleft hright howns htaken hrest =>
    exact .curried (hfellows.mono h) (hleft.mono h.left) (hright.mono h.right) howns
      (htaken.imp fun _ _ => h.settled) hrest
  | arrow hp hagree howns hlen hnodup hlen' hnodup' hbody hbody' =>
    exact .arrow hp (hagree.mono h) howns hlen hnodup hlen' hnodup' hbody hbody'
  | constructor hlen hnodup hlen' hnodup' htaken hrest =>
    exact .constructor hlen hnodup hlen' hnodup' (htaken.imp fun _ _ => h.settled) hrest

mutual

/-- `Same` is kept in larger worlds. -/
theorem Same.mono (h : W ≤ W₁) : ∀ {v v' : Val S}, Same V W v v' → Same V W₁ v v'
  | _, _, .scalar => .scalar
  | _, _, .array hs => .array (SameAll.mono h hs)
  | _, _, .object hs => .object (SameFields.mono h hs)
  | _, _, .error hs => .error (Same.mono h hs)
  | _, _, .function hs => .function (hs.mono h)

/-- `SameAll` is kept in larger worlds. -/
theorem SameAll.mono (h : W ≤ W₁) :
    ∀ {vs vs' : List (Val S)}, SameAll V W vs vs' → SameAll V W₁ vs vs'
  | _, _, .nil => .nil
  | _, _, .cons hv hs => .cons (Same.mono h hv) (SameAll.mono h hs)

/-- `SameFields` is kept in larger worlds. -/
theorem SameFields.mono (h : W ≤ W₁) :
    ∀ {fs fs' : List (String × Val S)}, SameFields V W fs fs' → SameFields V W₁ fs fs'
  | _, _, .nil => .nil
  | _, _, .cons hv hs => .cons (Same.mono h hv) (SameFields.mono h hs)

end

end

end TailLoop.Emit

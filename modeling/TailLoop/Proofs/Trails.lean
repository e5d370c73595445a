import Mathlib
import TailLoop.Script.Basic

/-!
# Trails of scripts

Some parts of a script carry a mark: integers, statements that throw, loops and the starts of their
next rounds. The trail of a script consists of the marks of its parts in the order in which they are
written, each before those inside the part.

* `Script.Marking`: the marks of parts.
* `Script.trailIn`: the trail of a block.
* `Padded`: a list with the elements of another one, in order, and extra ones between them.
-/

namespace TailLoop

/-! ## Lists with extra elements -/

section Padded

variable {α β : Type} {extra extra' : α → Prop} {xs ys xs' ys' : List α}

/-- `ys` consists of the elements of `xs`, in order, and of elements that are `extra`. -/
inductive Padded (extra : α → Prop) : List α → List α → Prop
  /-- Both lists end. -/
  | nil : Padded extra [] []
  /-- An element of both. -/
  | keep {x : α} {xs ys : List α} : Padded extra xs ys → Padded extra (x :: xs) (x :: ys)
  /-- An extra element. -/
  | pad {y : α} {xs ys : List α} : extra y → Padded extra xs ys → Padded extra xs (y :: ys)

namespace Padded

/-- `xs` is itself without extra elements. -/
theorem refl (xs : List α) : Padded extra xs xs := by
  induction xs with
  | nil => exact .nil
  | cons x rest ih => exact .keep ih

/-- Equal lists are `Padded` without extra elements. -/
theorem of_eq (h : xs = ys) : Padded extra xs ys := h ▸ refl xs

/-- `Padded` lists can be put after each other. -/
theorem append (h : Padded extra xs ys) (h' : Padded extra xs' ys') :
    Padded extra (xs ++ xs') (ys ++ ys') := by
  induction h with
  | nil => exact h'
  | keep _ ih => exact .keep ih
  | pad hy _ ih => exact .pad hy ih

/-- A `Padded` list can be padded again. -/
theorem trans {zs : List α} (h : Padded extra xs ys) (h' : Padded extra ys zs) :
    Padded extra xs zs := by
  -- the induction is on the second padding: its own extra elements are not in the list between
  induction h' generalizing xs with
  | nil => exact h
  | pad hy _ ih => exact .pad hy (ih h)
  | keep _ ih =>
    cases h with
    | keep h => exact .keep (ih h)
    | pad hy h => exact .pad hy (ih h)

/-- A list of elements that are `extra` pads the empty list. -/
theorem of_extra (h : ∀ y ∈ ys, extra y) : Padded extra [] ys := by
  induction ys with
  | nil => exact .nil
  | cons y rest ih =>
    obtain ⟨hy, hrest⟩ := List.forall_mem_cons.1 h
    exact .pad hy (ih hrest)

/-- `Padded` lists `f i` and `f' i` can be put after each other for all `i` of `is`. -/
theorem flatMap {ι : Type} {is : List ι} {f f' : ι → List α}
    (h : ∀ i ∈ is, Padded extra (f i) (f' i)) : Padded extra (is.flatMap f) (is.flatMap f') := by
  induction is with
  | nil => exact .nil
  | cons i rest ih =>
    obtain ⟨hi, hrest⟩ := List.forall_mem_cons.1 h
    exact hi.append (ih hrest)

/-- `xs` is a `Sublist` of `ys`. -/
theorem sublist (h : Padded extra xs ys) : xs.Sublist ys := by
  induction h with
  | nil => exact .slnil
  | keep _ ih => exact ih.cons_cons _
  | pad _ _ ih => exact ih.cons _

/-- If nothing is `extra`, the lists are equal. -/
theorem eq_of_forall_not (h : Padded extra xs ys) (hextra : ∀ y, ¬extra y) : xs = ys := by
  induction h with
  | nil => rfl
  | keep _ ih => rw [ih]
  | pad hy _ _ => exact absurd hy (hextra _)

/-- The images of `Padded` lists are `Padded`, if `f` takes extra elements to extra ones. -/
theorem map {extra' : β → Prop} (f : α → β) (h : Padded extra xs ys)
    (hf : ∀ y, extra y → extra' (f y)) : Padded extra' (xs.map f) (ys.map f) := by
  induction h with
  | nil => exact .nil
  | keep _ ih => exact .keep ih
  | pad hy _ ih => exact .pad (hf _ hy) ih

end Padded

end Padded

namespace Script

/-! ## Trails -/

/-- The marks of integers, thrown values, loops and next rounds, for those that carry one. -/
structure Marking (M : Type) where
  /-- The mark of an integer. -/
  int : Int64 → Option M := fun _ => none
  /-- The mark of a statement that throws a value. -/
  thrown : Expr → Option M := fun _ => none
  /-- The mark of a loop. -/
  loop : Option M := none
  /-- The mark of the start of a next round. -/
  again : Option M := none

variable {M : Type} (k : Marking M)

mutual

/-- The marks `k` of the parts of `e`, in the order of the text. -/
def Expr.trail : Expr → List M
  | .int i => (k.int i).toList
  | .ident _ | .number _ | .text _ | .boolean _ | .undefined => []
  | .array items => exprsTrail items
  | .object fields => fieldsTrail fields
  | .access object _ => object.trail
  | .index object position => object.trail ++ position.trail
  | .call callee args | .new callee args => callee.trail ++ exprsTrail args
  | .arrow _ body => trailIn body
  | .unary _ operand => operand.trail
  | .binary _ left right => left.trail ++ right.trail
  | .conditional test yes no => test.trail ++ (yes.trail ++ no.trail)

/-- `Expr.trail` of expressions, in order. -/
def exprsTrail : List Expr → List M
  | [] => []
  | e :: rest => e.trail ++ exprsTrail rest

/-- `Expr.trail` of the value of a `Field`. -/
def Field.trail : Field → List M
  | .field _ value | .spread value => value.trail

/-- `Field.trail` of the parts of an object literal, in order. -/
def fieldsTrail : List Field → List M
  | [] => []
  | f :: rest => f.trail ++ fieldsTrail rest

/-- The marks `k` of the parts of `s`, in the order of the text. -/
def Stmt.trail : Stmt → List M
  | .const _ value | .assign _ value | .expr value | .ret value | .retObject value
  | .declare _ (some value) => value.trail
  | .declare _ none | .retUndefined => []
  | .throw value => (k.thrown value).toList ++ value.trail
  | .again => k.again.toList
  | .chain arms => armsTrail arms
  | .loop body => k.loop.toList ++ trailIn body

/-- `Stmt.trail` of the statements of `block`, in order. -/
def trailIn : List Stmt → List M
  | [] => []
  | s :: rest => s.trail ++ trailIn rest

/-- The marks of the arms of a chain: those of the condition, then those of the block. -/
def armsTrail : List (Expr × List Stmt) → List M
  | [] => []
  | (cond, block) :: rest => cond.trail ++ (trailIn block ++ armsTrail rest)

end

attribute [simp] Expr.trail Field.trail Stmt.trail

/-- If no `x` of `xs` carries a mark, neither does `xs`. -/
@[simp] theorem flatMap_nil_trail {ι : Type} (xs : List ι) :
    xs.flatMap (fun _ => ([] : List M)) = [] := by
  simp [List.flatMap_eq_nil_iff]

/-- `exprsTrail` as a `flatMap`. -/
@[simp] theorem exprsTrail_eq (es : List Expr) : exprsTrail k es = es.flatMap (Expr.trail k) := by
  induction es with
  | nil => rfl
  | cons e rest ih => rw [exprsTrail, ih, List.flatMap_cons]

/-- `fieldsTrail` as a `flatMap`. -/
@[simp] theorem fieldsTrail_eq (fs : List Field) :
    fieldsTrail k fs = fs.flatMap (Field.trail k) := by
  induction fs with
  | nil => rfl
  | cons f rest ih => rw [fieldsTrail, ih, List.flatMap_cons]

/-- `trailIn` as a `flatMap`. -/
@[simp] theorem trailIn_eq (block : List Stmt) :
    trailIn k block = block.flatMap (Stmt.trail k) := by
  induction block with
  | nil => rfl
  | cons s rest ih => rw [trailIn, ih, List.flatMap_cons]

/-- `armsTrail` as a `flatMap`. -/
@[simp] theorem armsTrail_eq (arms : List (Expr × List Stmt)) :
    armsTrail k arms = arms.flatMap fun arm => arm.1.trail k ++ trailIn k arm.2 := by
  induction arms with
  | nil => rfl
  | cons arm rest ih => rw [armsTrail, ih, List.flatMap_cons, List.append_assoc]

namespace Expr

/-- The trail of `immediate body` is that of `body`. -/
@[simp] theorem trail_immediate (body : List Stmt) : (immediate body).trail k = trailIn k body := by
  simp [immediate]

/-- The trail of `curried params body` is that of `body`. -/
@[simp] theorem trail_curried (params : List String) (body : List Stmt) :
    (curried params body).trail k = trailIn k body := by
  induction params with
  | nil => rfl
  | cons p rest ih =>
    cases rest with
    | nil => rfl
    | cons q rest =>
      show (arrow [p] [.ret (curried (q :: rest) body)]).trail k = trailIn k body
      simpa using ih

end Expr

end Script

end TailLoop

import Mathlib.Data.List.Basic
import TailLoop.Script.Basic

/-!
# Nodes of scripts

All expressions and statements of a script, whatever they stand in. What a rule asks of names, of
the expressions that larger ones start with and of those whose properties are read, it asks at every
node.

* `Script.nodesIn`: the nodes of a block.
* `Script.Rule`: what is asked of nodes.
* `Script.BlockObeys`: a rule allows all nodes of a block.
-/

namespace TailLoop.Script

/-- A part of a script: an `expr` or a `stmt`. -/
inductive Node where
  | expr (e : Expr)
  | stmt (s : Stmt)

mutual

/-- The nodes of `e`, `e` included. -/
def Expr.nodes : Expr → List Node
  | e@(.ident _) | e@(.int _) | e@(.number _) | e@(.text _) | e@(.boolean _) | e@.undefined =>
    [.expr e]
  | e@(.array items) => .expr e :: exprsNodes items
  | e@(.object fields) => .expr e :: fieldsNodes fields
  | e@(.access object _) => .expr e :: object.nodes
  | e@(.index object position) => .expr e :: (object.nodes ++ position.nodes)
  | e@(.call callee args) | e@(.new callee args) => .expr e :: (callee.nodes ++ exprsNodes args)
  | e@(.arrow _ body) => .expr e :: nodesIn body
  | e@(.unary _ operand) => .expr e :: operand.nodes
  | e@(.binary _ left right) => .expr e :: (left.nodes ++ right.nodes)
  | e@(.conditional test yes no) => .expr e :: (test.nodes ++ (yes.nodes ++ no.nodes))

/-- `Expr.nodes` of expressions, in order. -/
def exprsNodes : List Expr → List Node
  | [] => []
  | e :: rest => e.nodes ++ exprsNodes rest

/-- `Expr.nodes` of the value of a `Field`. -/
def Field.nodes : Field → List Node
  | .field _ value | .spread value => value.nodes

/-- `Field.nodes` of the parts of an object literal, in order. -/
def fieldsNodes : List Field → List Node
  | [] => []
  | f :: rest => f.nodes ++ fieldsNodes rest

/-- The nodes of `s`, `s` included. -/
def Stmt.nodes : Stmt → List Node
  | s@(.const _ value) | s@(.assign _ value) | s@(.expr value) | s@(.ret value)
  | s@(.retObject value) | s@(.throw value) | s@(.declare _ (some value)) => .stmt s :: value.nodes
  | s@(.declare _ none) | s@.again | s@.retUndefined => [.stmt s]
  | s@(.chain arms) => .stmt s :: armsNodes arms
  | s@(.loop body) => .stmt s :: nodesIn body

/-- `Stmt.nodes` of the statements of `block`, in order. -/
def nodesIn : List Stmt → List Node
  | [] => []
  | s :: rest => s.nodes ++ nodesIn rest

/-- The nodes of the conditions and the blocks of a `chain`. -/
def armsNodes : List (Expr × List Stmt) → List Node
  | [] => []
  | (cond, block) :: rest => cond.nodes ++ (nodesIn block ++ armsNodes rest)

end

/-- The nodes of a node, the node included. -/
def Node.nodes : Node → List Node
  | .expr e => e.nodes
  | .stmt s => s.nodes

/-- The list `ns` holds the nodes of each of its nodes. -/
def Whole (ns : List Node) : Prop := ∀ n ∈ ns, n.nodes ⊆ ns

/-- Two lists that are `Whole` are so after each other. -/
theorem Whole.append {ns ns' : List Node} (h : Whole ns) (h' : Whole ns') : Whole (ns ++ ns') :=
  List.forall_mem_append.2 ⟨fun n hn => List.subset_append_of_subset_left _ (h n hn),
    fun n hn => List.subset_append_of_subset_right _ (h' n hn)⟩

/-- A node `n` with the nodes `ns` in it. -/
theorem Whole.cons {n : Node} {ns : List Node} (hn : n.nodes = n :: ns) (h : Whole ns) :
    Whole (n :: ns) :=
  List.forall_mem_cons.2 ⟨fun _ hm => hn ▸ hm, fun m hm => List.subset_cons_of_subset _ (h m hm)⟩

/-- A node `n` without others in it. -/
theorem Whole.single {n : Node} (hn : n.nodes = [n]) : Whole [n] := .cons hn (by nofun)

mutual

/-- `Expr.nodes` holds the nodes of the expressions and statements inside. -/
theorem Expr.whole_nodes : (e : Expr) → Whole e.nodes
  | .ident _ | .int _ | .number _ | .text _ | .boolean _ | .undefined => .single rfl
  | .array items => .cons rfl (whole_exprsNodes items)
  | .object fields => .cons rfl (whole_fieldsNodes fields)
  | .access e _ | .unary _ e => .cons rfl e.whole_nodes
  | .index e e' | .binary _ e e' => .cons rfl (e.whole_nodes.append e'.whole_nodes)
  | .call f args | .new f args => .cons rfl (f.whole_nodes.append (whole_exprsNodes args))
  | .arrow _ body => .cons rfl (whole_nodesIn body)
  | .conditional test yes no =>
    .cons rfl (test.whole_nodes.append (yes.whole_nodes.append no.whole_nodes))

theorem whole_exprsNodes : (es : List Expr) → Whole (exprsNodes es)
  | [] => by nofun
  | e :: rest => e.whole_nodes.append (whole_exprsNodes rest)

theorem Field.whole_nodes : (f : Field) → Whole f.nodes
  | .field _ e | .spread e => e.whole_nodes

theorem whole_fieldsNodes : (fs : List Field) → Whole (fieldsNodes fs)
  | [] => by nofun
  | f :: rest => f.whole_nodes.append (whole_fieldsNodes rest)

/-- So does `Stmt.nodes`. -/
theorem Stmt.whole_nodes : (s : Stmt) → Whole s.nodes
  | .const _ e | .assign _ e | .expr e | .ret e | .retObject e | .throw e | .declare _ (some e) =>
    .cons rfl e.whole_nodes
  | .declare _ none | .again | .retUndefined => .single rfl
  | .chain arms => .cons rfl (whole_armsNodes arms)
  | .loop body => .cons rfl (whole_nodesIn body)

/-- So does `nodesIn`, for a block. -/
theorem whole_nodesIn : (block : List Stmt) → Whole (nodesIn block)
  | [] => by nofun
  | s :: rest => s.whole_nodes.append (whole_nodesIn rest)

theorem whole_armsNodes : (arms : List (Expr × List Stmt)) → Whole (armsNodes arms)
  | [] => by nofun
  | (cond, block) :: rest =>
    cond.whole_nodes.append ((whole_nodesIn block).append (whole_armsNodes rest))

end

/-- The names that a node declares: the parameters of an `arrow`, a `const` or a `declare`. -/
def Node.declares : Node → List String
  | .expr (.arrow params _) => params
  | .stmt (.const x _) | .stmt (.declare x _) => [x]
  | _ => []

/-- The names that are declared anywhere in `block`. -/
def namesDeclaredIn (block : List Stmt) : List String := (nodesIn block).flatMap Node.declares

/-! ## Rules -/

/-- What is asked of the nodes of a script: of names that are declared, and of expressions that
stand first or whose properties are read. -/
structure Rule where
  /-- The names that can be declared. -/
  name : String → Prop
  /-- The expressions that larger ones can start with. -/
  leader : Expr → Prop
  /-- The expressions whose properties can be read. -/
  subject : Expr → Prop

/-- What the rule `R` says of a node, apart from the nodes in it. -/
def Rule.Allows (R : Rule) : Node → Prop
  | .expr (.access e _) => R.leader e ∧ R.subject e
  | .expr (.index e _) | .expr (.call e _) | .expr (.binary _ e _) | .expr (.conditional e _ _) =>
    R.leader e
  | n => ∀ x ∈ n.declares, R.name x

variable (R : Rule)

/-- The rule `R` allows all nodes of `e`. -/
def Expr.Obeys (e : Expr) : Prop := ∀ n ∈ e.nodes, R.Allows n

/-- The rule `R` allows all nodes of the part `f` of an object literal. -/
def Field.Obeys (f : Field) : Prop := ∀ n ∈ f.nodes, R.Allows n

/-- The rule `R` allows all nodes of `s`. -/
def Stmt.Obeys (s : Stmt) : Prop := ∀ n ∈ s.nodes, R.Allows n

/-- The rule `R` allows all nodes of `block`. -/
def BlockObeys (block : List Stmt) : Prop := ∀ s ∈ block, s.Obeys R

variable {R}

/-- `BlockObeys` speaks of all nodes of `nodesIn`. -/
theorem blockObeys_iff {block : List Stmt} :
    BlockObeys R block ↔ ∀ n ∈ nodesIn block, R.Allows n := by
  induction block with
  | nil => simp [BlockObeys, nodesIn]
  | cons s rest ih =>
    rw [nodesIn, List.forall_mem_append, ← ih]
    exact List.forall_mem_cons

/-- `xs ++ ys` obeys `R` if both do. -/
@[simp] theorem blockObeys_append {xs ys : List Stmt} :
    BlockObeys R (xs ++ ys) ↔ BlockObeys R xs ∧ BlockObeys R ys := List.forall_mem_append

/-- A block obeys `R` if `s` and `rest` do. -/
@[simp] theorem blockObeys_cons {s : Stmt} {rest : List Stmt} :
    BlockObeys R (s :: rest) ↔ s.Obeys R ∧ BlockObeys R rest := List.forall_mem_cons

/-- The empty block obeys `R`. -/
@[simp] theorem blockObeys_nil : BlockObeys R [] := by nofun

/-- The rule allows the nodes of `es` if each of the expressions obeys. -/
theorem forall_exprsNodes {es : List Expr} :
    (∀ n ∈ exprsNodes es, R.Allows n) ↔ ∀ e ∈ es, e.Obeys R := by
  induction es with
  | nil => simp [exprsNodes]
  | cons e rest ih =>
    rw [exprsNodes, List.forall_mem_append, ih, List.forall_mem_cons]
    rfl

/-- The rule allows the nodes of `fs` if each of the parts obeys. -/
theorem forall_fieldsNodes {fs : List Field} :
    (∀ n ∈ fieldsNodes fs, R.Allows n) ↔ ∀ f ∈ fs, f.Obeys R := by
  induction fs with
  | nil => simp [fieldsNodes]
  | cons f rest ih =>
    rw [fieldsNodes, List.forall_mem_append, ih, List.forall_mem_cons]
    rfl

/-- The rule allows the nodes of `arms` if each condition and each block obeys. -/
theorem forall_armsNodes {arms : List (Expr × List Stmt)} :
    (∀ n ∈ armsNodes arms, R.Allows n) ↔ ∀ arm ∈ arms, arm.1.Obeys R ∧ BlockObeys R arm.2 := by
  induction arms with
  | nil => simp [armsNodes]
  | cons arm rest ih =>
    rw [armsNodes, List.forall_mem_append, List.forall_mem_append, ih, ← blockObeys_iff,
      List.forall_mem_cons, and_assoc]
    rfl

/-- A first node `n` that `R` allows can be left out. -/
theorem Rule.forall_cons {n : Node} {rest : List Node} (h : R.Allows n) :
    (∀ m ∈ n :: rest, R.Allows m) ↔ ∀ m ∈ rest, R.Allows m :=
  List.forall_mem_cons.trans (and_iff_right h)

namespace Expr

/-- An expression `e` that `R` allows and that has no others in it. -/
theorem obeys_leaf {e : Expr} (hnodes : e.nodes = [.expr e]) (h : R.Allows (.expr e)) :
    e.Obeys R := by
  rw [Obeys, hnodes]
  exact List.forall_mem_singleton.2 h

@[simp] theorem obeys_ident (x : String) : (ident x).Obeys R := obeys_leaf rfl (by nofun)
@[simp] theorem obeys_int (i : Int64) : (int i).Obeys R := obeys_leaf rfl (by nofun)
@[simp] theorem obeys_number (x : Float) : (number x).Obeys R := obeys_leaf rfl (by nofun)
@[simp] theorem obeys_text (s : String) : (text s).Obeys R := obeys_leaf rfl (by nofun)
@[simp] theorem obeys_boolean (b : Bool) : (boolean b).Obeys R := obeys_leaf rfl (by nofun)
@[simp] theorem obeys_undefined : undefined.Obeys R := obeys_leaf rfl (by nofun)

@[simp] theorem obeys_array {es : List Expr} : (array es).Obeys R ↔ ∀ e ∈ es, e.Obeys R :=
  (Rule.forall_cons (by nofun)).trans forall_exprsNodes

@[simp] theorem obeys_object {fs : List Field} : (object fs).Obeys R ↔ ∀ f ∈ fs, f.Obeys R :=
  (Rule.forall_cons (by nofun)).trans forall_fieldsNodes

@[simp] theorem obeys_access {e : Expr} {x : String} :
    (access e x).Obeys R ↔ (R.leader e ∧ R.subject e) ∧ e.Obeys R := List.forall_mem_cons

@[simp] theorem obeys_index {e i : Expr} :
    (index e i).Obeys R ↔ R.leader e ∧ e.Obeys R ∧ i.Obeys R :=
  List.forall_mem_cons.trans (and_congr_right' List.forall_mem_append)

@[simp] theorem obeys_call {f : Expr} {es : List Expr} :
    (call f es).Obeys R ↔ R.leader f ∧ f.Obeys R ∧ ∀ e ∈ es, e.Obeys R :=
  List.forall_mem_cons.trans (and_congr_right'
    (List.forall_mem_append.trans (and_congr_right' forall_exprsNodes)))

@[simp] theorem obeys_new {f : Expr} {es : List Expr} :
    (new f es).Obeys R ↔ f.Obeys R ∧ ∀ e ∈ es, e.Obeys R :=
  (Rule.forall_cons (by nofun)).trans
    (List.forall_mem_append.trans (and_congr_right' forall_exprsNodes))

@[simp] theorem obeys_arrow {params : List String} {body : List Stmt} :
    (arrow params body).Obeys R ↔ (∀ x ∈ params, R.name x) ∧ BlockObeys R body :=
  List.forall_mem_cons.trans (and_congr_right' blockObeys_iff.symm)

@[simp] theorem obeys_unary {op : UnaryOp} {e : Expr} : (unary op e).Obeys R ↔ e.Obeys R :=
  Rule.forall_cons (by nofun)

@[simp] theorem obeys_binary {op : BinaryOp} {e e' : Expr} :
    (binary op e e').Obeys R ↔ R.leader e ∧ e.Obeys R ∧ e'.Obeys R :=
  List.forall_mem_cons.trans (and_congr_right' List.forall_mem_append)

@[simp] theorem obeys_conditional {test yes no : Expr} :
    (conditional test yes no).Obeys R ↔
      R.leader test ∧ test.Obeys R ∧ yes.Obeys R ∧ no.Obeys R :=
  List.forall_mem_cons.trans (and_congr_right'
    (List.forall_mem_append.trans (and_congr_right' List.forall_mem_append)))

end Expr

@[simp] theorem Field.obeys_field {key : String} {e : Expr} :
    (field key e).Obeys R ↔ e.Obeys R := .rfl

@[simp] theorem Field.obeys_spread {e : Expr} : (spread e).Obeys R ↔ e.Obeys R := .rfl

namespace Stmt

/-- A statement `s` that declares the name `x` with the value `e`. -/
theorem obeys_declaration {s : Stmt} {x : String} {e : Expr}
    (hnodes : s.nodes = .stmt s :: e.nodes) (hname : R.Allows (.stmt s) ↔ ∀ y ∈ [x], R.name y) :
    s.Obeys R ↔ R.name x ∧ e.Obeys R := by
  rw [Obeys, hnodes, List.forall_mem_cons, hname, List.forall_mem_singleton]
  rfl

@[simp] theorem obeys_const {x : String} {e : Expr} :
    (const x e).Obeys R ↔ R.name x ∧ e.Obeys R := obeys_declaration rfl .rfl

@[simp] theorem obeys_declare_some {x : String} {e : Expr} :
    (declare x (some e)).Obeys R ↔ R.name x ∧ e.Obeys R := obeys_declaration rfl .rfl

@[simp] theorem obeys_declare {x : String} : (declare x none).Obeys R ↔ R.name x :=
  List.forall_mem_singleton.trans List.forall_mem_singleton

@[simp] theorem obeys_assign {x : String} {e : Expr} : (assign x e).Obeys R ↔ e.Obeys R :=
  Rule.forall_cons (by nofun)

@[simp] theorem obeys_expr {e : Expr} : (expr e).Obeys R ↔ e.Obeys R := Rule.forall_cons (by nofun)

@[simp] theorem obeys_ret {e : Expr} : (ret e).Obeys R ↔ e.Obeys R := Rule.forall_cons (by nofun)

@[simp] theorem obeys_retObject {e : Expr} : (retObject e).Obeys R ↔ e.Obeys R :=
  Rule.forall_cons (by nofun)

@[simp] theorem obeys_throw {e : Expr} : (throw e).Obeys R ↔ e.Obeys R :=
  Rule.forall_cons (by nofun)

@[simp] theorem obeys_again : again.Obeys R := List.forall_mem_singleton.2 (by nofun)

@[simp] theorem obeys_retUndefined : retUndefined.Obeys R := List.forall_mem_singleton.2 (by nofun)

@[simp] theorem obeys_loop {body : List Stmt} : (loop body).Obeys R ↔ BlockObeys R body :=
  (Rule.forall_cons (by nofun)).trans blockObeys_iff.symm

@[simp] theorem obeys_chain {arms : List (Expr × List Stmt)} :
    (chain arms).Obeys R ↔ ∀ arm ∈ arms, arm.1.Obeys R ∧ BlockObeys R arm.2 :=
  (Rule.forall_cons (by nofun)).trans forall_armsNodes

end Stmt

/-- A `curried` function obeys if `R` allows its `params` and its `body` obeys. -/
theorem Expr.obeys_curried {params : List String} {body : List Stmt}
    (hparams : ∀ x ∈ params, R.name x) (hbody : BlockObeys R body) :
    (curried params body).Obeys R := by
  induction params with
  | nil => exact obeys_arrow.2 ⟨hparams, hbody⟩
  | cons p rest ih =>
    cases rest with
    | nil => exact obeys_arrow.2 ⟨hparams, hbody⟩
    | cons q rest =>
      obtain ⟨hp, hrest⟩ := List.forall_mem_cons.1 hparams
      refine obeys_arrow.2 ⟨List.forall_mem_singleton.2 hp, ?_⟩
      simpa using ih hrest

end TailLoop.Script

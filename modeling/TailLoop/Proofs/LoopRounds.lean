import TailLoop.Proofs.LoopVariables
import TailLoop.Proofs.PrivateCells
import TailLoop.Proofs.ScriptLoops

/-!
# Rounds of loops

What the body of a loop consists of, as far as the variables of the loop are concerned: copies of
slots, tests of the selector, jumps, and statements that mention no variable of the loop.

* `Turn`, `Turns`: the statements in the bodies of loops.
* `NamesApart.rounds`: the loops of declarations that mention variables in their places only.
-/

namespace TailLoop.Script

open Lower

/-! ## Names of scripts and of their parts -/

/-- The names in the expressions `es` are those in the single ones. -/
theorem mem_namesAll {es : List Expr} {x : String} : x ∈ namesAll es ↔ ∃ e ∈ es, x ∈ e.names := by
  induction es with
  | nil => simp [namesAll]
  | cons e es ih => simp [namesAll, ih]

/-- The names in parts of an object literal are those in the expressions `Field.value`. -/
theorem namesFields_eq (fs : List Field) : namesFields fs = namesAll (fs.map Field.value) := by
  induction fs with
  | nil => rfl
  | cons f fs ih => cases f <;> simp [namesFields, namesAll, Field.names, Field.value, ih]

/-- `namesIn` goes through statements one by one. -/
@[simp] theorem namesIn_append (block block' : List Stmt) :
    namesIn (block ++ block') = namesIn block ++ namesIn block' := by
  induction block with
  | nil => rfl
  | cons s rest ih => simp [namesIn, ih]

/-- The names in `e` are the one that it is, `name?`, and those in its parts `es`. -/
theorem Expr.names_of_parts {e : Expr} {es : List Expr} (h : e.parts? = some es) :
    e.names = e.name?.toList ++ namesAll es := by
  cases e <;> cases h <;>
    simp [Expr.names, Expr.name?, namesAll, namesFields_eq]

/-- The names in `s` are the one that it declares, `name?`, and those in its parts `es`. -/
theorem Stmt.names_of_parts {s : Stmt} {es : List Expr} (h : s.parts? = some es) :
    s.names = s.name?.toList ++ namesAll es := by
  rcases s with _ | ⟨_, _ | _⟩ | _ | _ | _ | _ | _ | _ | _ | _ | _ <;> cases h <;>
    simp [Stmt.names, Stmt.name?, namesAll]

/-- `copySlots` mentions the constants and the slots. -/
theorem mem_names_copySlots {names slots : List String} {x : String}
    (h : x ∈ namesIn (copySlots names slots)) : x ∈ names ∨ x ∈ slots := by
  induction names generalizing slots with
  | nil => cases h
  | cons name names ih =>
    cases slots with
    | nil => cases h
    | cons slot slots =>
      have h : x ∈ name :: slot :: namesIn (copySlots names slots) := h
      simp only [List.mem_cons] at h ⊢
      rcases h with h | h | h
      · exact .inl (.inl h)
      · exact .inr (.inl h)
      · exact (ih h).imp .inr .inr

/-- `startSlots` mentions the slots and the constants. -/
theorem mem_names_startSlots {slots copies : List String} {x : String}
    (h : x ∈ namesIn (startSlots slots copies)) : x ∈ slots ∨ x ∈ copies := by
  induction slots generalizing copies with
  | nil => cases h
  | cons slot slots ih =>
    cases copies with
    | nil => cases h
    | cons copy copies =>
      have h : x ∈ slot :: copy :: namesIn (startSlots slots copies) := h
      simp only [List.mem_cons] at h ⊢
      rcases h with h | h | h
      · exact .inl (.inl h)
      · exact .inr (.inl h)
      · exact (ih h).imp .inr .inr

/-- A jump mentions variables of its loop `G`, and what its `values` do. -/
theorem mem_names_jumpBlock {G : JumpTarget} {j : Nat} {values : List Expr} {x : String}
    (h : x ∈ namesIn (jumpBlock G.selector j G.slots values)) :
    x ∈ G.variables ∨ x ∈ namesAll values := by
  -- the assignments of slots
  have hslots (slots : List String) (values : List Expr)
      (h : x ∈ namesIn ((slots.zip values).map fun p => .assign p.1 p.2)) :
      x ∈ slots ∨ x ∈ namesAll values := by
    induction slots generalizing values with
    | nil => cases h
    | cons slot slots ih =>
      cases values with
      | nil => cases h
      | cons e es =>
        have h : x ∈ slot :: (e.names ++
          namesIn ((slots.zip es).map fun p => .assign p.1 p.2)) := h
        simp only [List.mem_cons, List.mem_append, namesAll] at h ⊢
        rcases h with h | h | h
        · exact .inl (.inl h)
        · exact .inr (.inl h)
        · exact (ih es h).imp .inr .inr
  rw [jumpBlock, namesIn_append, namesIn_append, List.mem_append, List.mem_append] at h
  rcases h with (h | h) | h
  · cases hselector : G.selector with
    | none =>
      rw [hselector] at h
      cases h
    | some selector =>
      rw [hselector] at h
      have h : x ∈ [selector] := h
      exact .inl (List.mem_append_left _ (hselector ▸ h))
  · exact (hslots _ _ h).imp_left (List.mem_append_right _)
  · cases h

/-- The variables of the loop that a block is the body of, if it is one. -/
def placeVariables (place : Option JumpTarget) : List String :=
  (place.map JumpTarget.variables).getD []

variable {N : String → Prop}

/-- What the function `L` mentions around its loop is in `N`, or a variable of the loop. -/
theorem LoopFunction.Wraps.names_mem {L : LoopFunction} {block : List Stmt}
    (h : LoopFunction.Wraps N L block) :
    ∀ x ∈ namesIn L.body, N x ∨ x ∈ L.target.variables ∨ x ∈ namesIn block := by
  have hloop {x : String} (hx : x ∈ namesIn [.loop block]) : x ∈ namesIn block := by
    rwa [namesIn, namesIn, List.append_nil] at hx
  intro x hx
  cases h with
  | single _ hcopies =>
    rw [namesIn_append] at hx
    rcases List.mem_append.1 hx with hx | hx
    · rcases mem_names_startSlots hx with hx | hx
      · exact .inr (.inl hx)
      · exact .inl (hcopies x hx)
    · exact .inr (.inr (hloop hx))
  | shared => exact .inr (.inr (hloop hx))

/-- The body of a member copies the slots of `G` to `names`, and goes on with `block`. -/
theorem mem_names_member {G : JumpTarget} {names : List String} {block : List Stmt} {x : String}
    {V : List String} (hnames : ∀ x ∈ names, N x)
    (hblock : x ∈ namesIn block → N x ∨ x ∈ G.variables ++ V)
    (hx : x ∈ namesIn (copySlots names G.slots ++ block)) : N x ∨ x ∈ G.variables ++ V := by
  rw [namesIn_append] at hx
  rcases List.mem_append.1 hx with hx | hx
  · rcases mem_names_copySlots hx with hx | hx
    · exact .inl (hnames x hx)
    · exact .inr (List.mem_append_left _ (List.mem_append_right _ hx))
  · exact hblock hx

/-- A variable among `A ++ V` is one among `A ++ (V ++ V')`. -/
theorem mem_variables_left {A V V' : List String} {x : String} (h : x ∈ A ++ V) :
    x ∈ A ++ (V ++ V') :=
  List.append_assoc A V V' ▸ List.mem_append_left V' h

/-- A variable among `A ++ V'` is one among `A ++ (V ++ V')`. -/
theorem mem_variables_right {A V V' : List String} {x : String} (h : x ∈ A ++ V') :
    x ∈ A ++ (V ++ V') :=
  List.mem_append.2 ((List.mem_append.1 h).imp_right (List.mem_append_right V))

mutual

/-- All names in an expression are as `N` says, or variables of its loops. -/
theorem ExprMentions.names_mem : ∀ {e : Expr} {Ls : List LoopFunction}, ExprMentions N e Ls →
    ∀ x ∈ e.names, N x ∨ x ∈ variablesOf Ls
  | _, _, .node he hname hes => fun x hx => by
    rw [Expr.names_of_parts he, List.mem_append, Option.mem_toList] at hx
    exact hx.elim (fun hx => .inl (hname x hx)) (hes.names_mem x)
  | _, _, .function hbody => hbody.names_mem
  | _, _, .loop hwraps hbody => fun x hx => by
    rw [variablesOf_cons]
    rcases hwraps.names_mem x hx with hx | hx | hx
    · exact .inl hx
    · exact .inr (List.mem_append_left _ hx)
    · exact hbody.names_mem x hx

/-- All names in expressions are as `N` says, or variables of their loops. -/
theorem ExprsMention.names_mem : ∀ {es : List Expr} {Ls : List LoopFunction},
    ExprsMention N es Ls → ∀ x ∈ namesAll es, N x ∨ x ∈ variablesOf Ls
  | _, _, .nil => nofun
  | _, _, .cons he hes => fun x hx => by
    rw [variablesOf_append, List.mem_append]
    rcases List.mem_append.1 hx with hx | hx
    · exact (he.names_mem x hx).imp_right .inl
    · exact (hes.names_mem x hx).imp_right .inr

/-- All names in the body of a loop are as `N` says, or variables of loops. -/
theorem BodyMentions.names_mem : ∀ {G : JumpTarget} {i : Nat} {block : List Stmt}
    {Ls : List LoopFunction}, BodyMentions N G i block Ls →
    ∀ x ∈ namesIn block, N x ∨ x ∈ G.variables ++ variablesOf Ls
  | _, _, _, _, .nil => nofun
  | _, _, _, _, .last _ _ hnames hblock => fun x hx =>
    mem_names_member hnames (hblock.names_mem x) hx
  | _, _, _, _, .test hselector _ _ hnames hblock hrest => fun x hx => by
    rw [variablesOf_append]
    simp only [namesIn, Stmt.names, namesArms, memberTest, natLit, Expr.names, List.append_nil,
      List.mem_append, List.mem_singleton] at hx
    rcases hx with (rfl | hx) | hx
    · exact .inr (List.mem_append_left _ (List.mem_append_left _ (by rw [hselector]; simp)))
    · exact (mem_names_member hnames (hblock.names_mem x) hx).imp_right
        fun hx => mem_variables_left hx
    · exact (hrest.names_mem x hx).imp_right fun hx => mem_variables_right hx

/-- All names in a block are as `N` says, or variables of loops. -/
theorem BlockMentions.names_mem : ∀ {place : Option JumpTarget} {block : List Stmt}
    {Ls : List LoopFunction}, BlockMentions N place block Ls →
    ∀ x ∈ namesIn block, N x ∨ x ∈ placeVariables place ++ variablesOf Ls
  | _, _, _, .nil => nofun
  | _, _, _, .plain hs hname hes hrest => fun x hx => by
    rw [variablesOf_append]
    rw [namesIn, Stmt.names_of_parts hs, List.mem_append, List.mem_append, Option.mem_toList] at hx
    rcases hx with (hx | hx) | hx
    · exact .inl (hname x hx)
    · exact (hes.names_mem x hx).imp_right fun hx => mem_variables_left (List.mem_append_right _ hx)
    · exact (hrest.names_mem x hx).imp_right fun hx => mem_variables_right hx
  | _, _, _, .assign hy he hrest => fun x hx => by
    rw [variablesOf_append]
    rw [namesIn, Stmt.names, List.mem_append, List.mem_cons] at hx
    rcases hx with (rfl | hx) | hx
    · exact .inl hy
    · exact (he.names_mem x hx).imp_right fun hx => mem_variables_left (List.mem_append_right _ hx)
    · exact (hrest.names_mem x hx).imp_right fun hx => mem_variables_right hx
  | _, _, _, .chain harms hrest => fun x hx => by
    rw [variablesOf_append]
    rcases List.mem_append.1 hx with hx | hx
    · exact (harms.names_mem x hx).imp_right fun hx => mem_variables_left hx
    · exact (hrest.names_mem x hx).imp_right fun hx => mem_variables_right hx
  | _, _, _, .jump _ _ hvalues => fun x hx => by
    rcases mem_names_jumpBlock hx with hx | hx
    · exact .inr (List.mem_append_left _ hx)
    · exact (hvalues.names_mem x hx).imp_right (List.mem_append_right _)

/-- All names in arms are as `N` says, or variables of loops. -/
theorem ArmsMention.names_mem : ∀ {place : Option JumpTarget} {arms : List (Expr × List Stmt)}
    {Ls : List LoopFunction}, ArmsMention N place arms Ls →
    ∀ x ∈ namesArms arms, N x ∨ x ∈ placeVariables place ++ variablesOf Ls
  | _, _, _, .nil => nofun
  | _, _, _, .cons he hblock harms => fun x hx => by
    rw [variablesOf_append, variablesOf_append]
    rw [namesArms, List.mem_append, List.mem_append] at hx
    rcases hx with hx | hx | hx
    · exact (he.names_mem x hx).imp_right fun hx => mem_variables_left (List.mem_append_right _ hx)
    · refine (hblock.names_mem x hx).imp_right fun hx => mem_variables_right ?_
      exact mem_variables_left hx
    · refine (harms.names_mem x hx).imp_right fun hx => mem_variables_right ?_
      exact mem_variables_right hx

end

/-! ## Bodies of loops -/

/-- The statement holds no block. -/
def Stmt.isPlain : Stmt → Bool
  | .chain _ | .loop _ => false
  | _ => true

/-- A statement with parts holds no block. -/
theorem Stmt.isPlain_of_parts {s : Stmt} {es : List Expr} (h : s.parts? = some es) :
    s.isPlain = true := by
  cases s <;> first | rfl | cases h

/-- `cond` mentions no variable of the loop `G`, unless it is the test of the selector. -/
def JumpTarget.Allows (G : JumpTarget) (cond : Expr) : Prop :=
  (∀ x ∈ cond.names, x ∉ G.variables) ∨
    ∃ selector i, G.selector = some selector ∧ cond = memberTest selector i

/-- A statement in the body of the loop `G`. It mentions variables of `G` where it copies a slot,
tests the selector or assigns, and what is assigned mentions none. -/
inductive Turn (G : JumpTarget) : Stmt → Prop
  | plain {s} : s.isPlain = true → (∀ x ∈ s.names, x ∉ G.variables) → Turn G s
  | copy {x slot} : x ∉ G.variables → slot ∈ G.slots → Turn G (.const x (.ident slot))
  | assign {x e} : x ∈ G.variables → (∀ y ∈ e.names, y ∉ G.variables) → Turn G (.assign x e)
  | chain {arms} : (∀ arm ∈ arms, G.Allows arm.1) → (∀ arm ∈ arms, ∀ s ∈ arm.2, Turn G s) →
      Turn G (.chain arms)

/-- Every statement of `block` is one in the body of the loop `G`. -/
def Turns (G : JumpTarget) (block : List Stmt) : Prop := ∀ s ∈ block, Turn G s

/-- The empty body. -/
theorem Turns.nil {G : JumpTarget} : Turns G [] := nofun

/-- `Turns` holds of the statements one by one. -/
theorem turns_cons {G : JumpTarget} {s : Stmt} {rest : List Stmt} :
    Turns G (s :: rest) ↔ Turn G s ∧ Turns G rest := List.forall_mem_cons

/-- `Turns` holds of statements after each other if it holds of both parts. -/
theorem turns_append {G : JumpTarget} {block block' : List Stmt} :
    Turns G (block ++ block') ↔ Turns G block ∧ Turns G block' := List.forall_mem_append

/-- The pairs that a jump to the member `j` assigns: the selector, if there is one, and the
slots. -/
def JumpTarget.assigned (G : JumpTarget) (j : Nat) (values : List Expr) : List (String × Expr) :=
  (G.selector.map fun selector => (selector, natLit j)).toList ++ G.slots.zip values

/-- A jump is the assignment of `JumpTarget.assigned`, and then `again`. -/
theorem jumpBlock_eq (G : JumpTarget) (j : Nat) (values : List Expr) :
    jumpBlock G.selector j G.slots values =
      (G.assigned j values).map (fun q => .assign q.1 q.2) ++ [.again] := by
  rw [jumpBlock, JumpTarget.assigned, List.map_append]
  cases G.selector <;> rfl

/-- A jump assigns variables of its loop `G`. -/
theorem JumpTarget.mem_variables_of_assigned {G : JumpTarget} {j : Nat} {values : List Expr}
    {q : String × Expr} (h : q ∈ G.assigned j values) : q.1 ∈ G.variables := by
  rcases List.mem_append.1 h with h | h
  · obtain ⟨selector, hselector, rfl⟩ := Option.map_eq_some_iff.1 (Option.mem_toList.1 h)
    exact List.mem_append_left _ (Option.mem_toList.2 hselector)
  · exact List.mem_append_right _ (List.of_mem_zip h).1

/-- The variables that a jump assigns, if there are no more `values` than slots. -/
theorem JumpTarget.map_fst_assigned {G : JumpTarget} {j : Nat} {values : List Expr}
    (hlen : values.length ≤ G.slots.length) :
    (G.assigned j values).map Prod.fst = G.selector.toList ++ G.slots.take values.length := by
  rw [JumpTarget.assigned, List.map_append, List.zip_eq_zip_take_min, Nat.min_eq_right hlen,
    List.map_fst_zip (by rw [List.take_length]; exact List.length_take_le ..)]
  cases G.selector <;> rfl

/-- What a jump assigns to them. -/
theorem JumpTarget.map_snd_assigned {G : JumpTarget} {j : Nat} {values : List Expr}
    (hlen : values.length ≤ G.slots.length) :
    (G.assigned j values).map Prod.snd = (G.selector.map fun _ => natLit j).toList ++ values := by
  rw [JumpTarget.assigned, List.map_append, List.map_snd_zip hlen]
  cases G.selector <;> rfl

/-- What a jump assigns mentions no variable of `G` if its `values` mention none, because numbers
have no names. -/
theorem JumpTarget.names_of_assigned {G : JumpTarget} {j : Nat} {values : List Expr}
    (hlen : values.length ≤ G.slots.length) :
    (∀ q ∈ G.assigned j values, ∀ x ∈ q.2.names, x ∉ G.variables) ↔
      ∀ x ∈ namesAll values, x ∉ G.variables := by
  have hmem (e : Expr) : e ∈ (G.assigned j values).map Prod.snd ↔
      e ∈ (G.selector.map fun _ => natLit j).toList ∨ e ∈ values := by
    rw [JumpTarget.map_snd_assigned hlen, List.mem_append]
  refine ⟨fun h x hx => ?_, fun h q hq x hx => ?_⟩
  · obtain ⟨e, he, hx⟩ := mem_namesAll.1 hx
    obtain ⟨q, hq, rfl⟩ := List.mem_map.1 ((hmem e).2 (.inr he))
    exact h q hq x hx
  · rcases (hmem q.2).1 (List.mem_map_of_mem hq) with hnumber | hvalue
    -- the number of a member is no name
    · obtain ⟨_, -, heq⟩ := Option.map_eq_some_iff.1 (Option.mem_toList.1 hnumber)
      rw [← heq] at hx
      cases hx
    · exact h x (mem_namesAll.2 ⟨q.2, hvalue, hx⟩)

/-- Assignments `pairs` of variables of `G`, and then `again`. -/
theorem Turns.assigns {G : JumpTarget} {pairs : List (String × Expr)}
    (hvars : ∀ q ∈ pairs, q.1 ∈ G.variables)
    (hnames : ∀ q ∈ pairs, ∀ x ∈ q.2.names, x ∉ G.variables) :
    Turns G (pairs.map (fun q => .assign q.1 q.2) ++ [.again]) :=
  turns_append.2 ⟨List.forall_mem_map.2 fun q hq => .assign (hvars q hq) (hnames q hq),
    List.forall_mem_singleton.2 (.plain rfl nofun)⟩

/-- A jump whose `values` mention no variable of `G`. -/
theorem Turns.jump {G : JumpTarget} {j : Nat} {values : List Expr}
    (hlen : values.length ≤ G.slots.length) (hvalues : ∀ x ∈ namesAll values, x ∉ G.variables) :
    Turns G (jumpBlock G.selector j G.slots values) := by
  rw [jumpBlock_eq]
  exact .assigns (fun _ => JumpTarget.mem_variables_of_assigned)
    ((JumpTarget.names_of_assigned hlen).2 hvalues)

/-- Copies of the slots in front of `block`, under names that are no variables of `G`. -/
theorem Turns.copies {G : JumpTarget} {names : List String} {block : List Stmt}
    (hnames : ∀ x ∈ names, x ∉ G.variables) (hblock : Turns G block) :
    Turns G (copySlots names G.slots ++ block) :=
  turns_append.2 ⟨List.forall_mem_map.2 fun _ hp =>
    .copy (hnames _ (List.of_mem_zip hp).1) (List.of_mem_zip hp).2, hblock⟩

/-- The variables of the loops differ, and are not as `N` says. -/
structure Separate (N : String → Prop) (Ls : List LoopFunction) : Prop where
  /-- The variables differ. -/
  nodup : (variablesOf Ls).Nodup
  /-- They are not as `N` says. -/
  apart : ∀ x, N x → x ∉ variablesOf Ls

/-- What is separate for the loops `Ls ++ Ls'` is separate for both parts. -/
theorem Separate.of_append {Ls Ls' : List LoopFunction} (h : Separate N (Ls ++ Ls')) :
    Separate N Ls ∧ Separate N Ls' := by
  obtain ⟨hnodup, hapart⟩ := h
  rw [variablesOf_append] at hnodup hapart
  obtain ⟨hleft, hright, -⟩ := List.nodup_append.1 hnodup
  exact ⟨⟨hleft, fun x hx hmem => hapart x hx (List.mem_append_left _ hmem)⟩,
    ⟨hright, fun x hx hmem => hapart x hx (List.mem_append_right _ hmem)⟩⟩

/-- What is separate for the loops `L :: Ls` is separate for `Ls`. -/
theorem Separate.tail {L : LoopFunction} {Ls : List LoopFunction} (h : Separate N (L :: Ls)) :
    Separate N Ls := by
  rw [← List.singleton_append] at h
  exact h.of_append.2

/-- A name that is as `N` says, or a variable of other loops, is no variable of a loop. -/
theorem not_mem_variables {G : JumpTarget} {V : List String} (hN : ∀ x, N x → x ∉ G.variables)
    (hV : ∀ x ∈ V, x ∉ G.variables) {x : String} (hx : N x ∨ x ∈ V) : x ∉ G.variables :=
  hx.elim (hN x) (hV x)

mutual

/-- A block in the body of `G`, if no name of `N` is a variable of `G`. The recursion follows
`BlockMentions`. -/
theorem BlockMentions.turns {G : JumpTarget} (hN : ∀ x, N x → x ∉ G.variables) :
    ∀ {block : List Stmt} {Ls : List LoopFunction}, BlockMentions N (some G) block Ls →
      (∀ x ∈ variablesOf Ls, x ∉ G.variables) → Turns G block
  | _, _, .nil, _ => .nil
  | _, _, .plain hs hname hes hrest, hLs => by
    rw [variablesOf_append, List.forall_mem_append] at hLs
    refine turns_cons.2 ⟨.plain (Stmt.isPlain_of_parts hs) fun x hx => ?_, hrest.turns hN hLs.2⟩
    rw [Stmt.names_of_parts hs, List.mem_append, Option.mem_toList] at hx
    exact hx.elim (fun hx => hN x (hname x hx))
      fun hx => not_mem_variables hN hLs.1 (hes.names_mem x hx)
  | _, _, .assign hy he hrest, hLs => by
    rw [variablesOf_append, List.forall_mem_append] at hLs
    refine turns_cons.2 ⟨.plain rfl (List.forall_mem_cons.2 ⟨hN _ hy, fun x hx => ?_⟩),
      hrest.turns hN hLs.2⟩
    exact not_mem_variables hN hLs.1 (he.names_mem x hx)
  | _, _, .chain harms hrest, hLs => by
    rw [variablesOf_append, List.forall_mem_append] at hLs
    obtain ⟨hallows, hturns⟩ := harms.turns hN hLs.1
    exact turns_cons.2 ⟨.chain hallows hturns, hrest.turns hN hLs.2⟩
  | _, _, .jump _ hlen hvalues, hLs =>
    .jump hlen fun x hx => not_mem_variables hN hLs (hvalues.names_mem x hx)

/-- The blocks of a chain in the body of `G`. -/
theorem ArmsMention.turns {G : JumpTarget} (hN : ∀ x, N x → x ∉ G.variables) :
    ∀ {arms : List (Expr × List Stmt)} {Ls : List LoopFunction}, ArmsMention N (some G) arms Ls →
      (∀ x ∈ variablesOf Ls, x ∉ G.variables) →
        (∀ arm ∈ arms, G.Allows arm.1) ∧ ∀ arm ∈ arms, Turns G arm.2
  | _, _, .nil, _ => ⟨nofun, nofun⟩
  | _, _, .cons he hblock harms, hLs => by
    rw [variablesOf_append, variablesOf_append, List.forall_mem_append,
      List.forall_mem_append] at hLs
    obtain ⟨hallows, hturns⟩ := harms.turns hN hLs.2.2
    refine ⟨List.forall_mem_cons.2 ⟨.inl fun x hx => ?_, hallows⟩,
      List.forall_mem_cons.2 ⟨hblock.turns hN hLs.2.1, hturns⟩⟩
    exact not_mem_variables hN hLs.1 (he.names_mem x hx)

end

/-- The whole body of `G`, which tests the selector or starts with copies. -/
theorem BodyMentions.turns : ∀ {G : JumpTarget} {i : Nat} {block : List Stmt}
    {Ls : List LoopFunction}, BodyMentions N G i block Ls → (∀ x, N x → x ∉ G.variables) →
      (∀ x ∈ variablesOf Ls, x ∉ G.variables) → Turns G block
  | _, _, _, _, .nil, _, _ => .nil
  | _, _, _, _, .last _ _ hnames hblock, hN, hLs =>
    .copies (fun x hx => hN x (hnames x hx)) (hblock.turns hN hLs)
  | _, _, _, _, .test hselector _ _ hnames hblock hrest, hN, hLs => by
    rw [variablesOf_append, List.forall_mem_append] at hLs
    refine turns_cons.2 ⟨.chain (List.forall_mem_singleton.2 (.inr ⟨_, _, hselector, rfl⟩))
      (List.forall_mem_singleton.2 ?_), hrest.turns hN hLs.2⟩
    exact Turns.copies (fun x hx => hN x (hnames x hx)) (hblock.turns hN hLs.1)

/-- `L` is a function around a loop, in which names other than its variables stay outside of the
loop. -/
inductive LoopFunction.Rounds : LoopFunction → List Stmt → Prop
  | single {params copies slots arities block} : copies.length = slots.length → slots.Nodup →
      (∀ x ∈ copies, x ∉ slots) → Turns ⟨none, slots, arities⟩ block →
      Rounds ⟨⟨none, slots, arities⟩, params, startSlots slots copies ++ [.loop block]⟩ block
  | shared {selector slots arities block} : (selector :: slots).Nodup →
      Turns ⟨some selector, slots, arities⟩ block →
      Rounds ⟨⟨some selector, slots, arities⟩, selector :: slots, [.loop block]⟩ block

/-! ## Loops of scripts and of their parts -/

/-- The loops in `e` are those in its parts `es`. -/
theorem Expr.loops_of_parts {e : Expr} {es : List Expr} (h : e.parts? = some es) :
    e.loops = exprsLoops es := by
  have hfields (fs : List Field) : fieldsLoops fs = exprsLoops (fs.map Field.value) := by
    rw [fieldsLoops_eq, exprsLoops_eq, List.flatMap_map]
    exact List.flatMap_congr fun f _ => by cases f <;> rfl
  cases e <;> cases h <;> simp only [Expr.loops, exprsLoops, hfields, List.append_nil]

/-- The loops in `s` are those in its parts `es`. -/
theorem Stmt.loops_of_parts {s : Stmt} {es : List Expr} (h : s.parts? = some es) :
    s.loops = exprsLoops es := by
  rcases s with _ | ⟨_, _ | _⟩ | _ | _ | _ | _ | _ | _ | _ | _ | _ <;> cases h <;>
    simp only [Stmt.loops, exprsLoops, List.append_nil]

/-- `loopsIn` goes through statements one by one. -/
theorem loopsIn_append (block block' : List Stmt) :
    loopsIn (block ++ block') = loopsIn block ++ loopsIn block' := by
  simp only [loopsIn_eq, List.flatMap_append]

/-- Statements that hold no loops, one for each of `as`. -/
theorem loopsIn_map_eq_nil {α : Type} {f : α → Stmt} (h : ∀ a, (f a).loops = []) (as : List α) :
    loopsIn (as.map f) = [] := by
  rw [loopsIn_eq, List.flatMap_map]
  exact List.flatMap_eq_nil_iff.2 fun a _ => h a

/-- `copySlots` adds no loop to those of `block`. -/
theorem loopsIn_member (names slots : List String) (block : List Stmt) :
    loopsIn (copySlots names slots ++ block) = loopsIn block := by
  rw [loopsIn_append, copySlots, loopsIn_map_eq_nil fun _ => rfl, List.nil_append]

/-- The loops in a jump are those in its `values`, if every one has a slot. -/
theorem loopsIn_jumpBlock {G : JumpTarget} {j : Nat} {values : List Expr}
    (hlen : values.length ≤ G.slots.length) :
    loopsIn (jumpBlock G.selector j G.slots values) = exprsLoops values := by
  have hassigns : loopsIn ((G.assigned j values).map fun q => .assign q.1 q.2) =
      exprsLoops ((G.assigned j values).map Prod.snd) := by
    rw [loopsIn_eq, exprsLoops_eq, List.flatMap_map, List.flatMap_map]
    rfl
  rw [jumpBlock_eq, loopsIn_append, hassigns, JumpTarget.map_snd_assigned hlen]
  cases G.selector <;> exact List.append_nil _

/-- The loops in the function `L` are its own and those in `block`, its body. -/
theorem LoopFunction.Wraps.loopsIn {L : LoopFunction} {block : List Stmt}
    (h : LoopFunction.Wraps N L block) : loopsIn L.body = block :: loopsIn block := by
  cases h with
  | single =>
    rw [loopsIn_append, startSlots, loopsIn_map_eq_nil fun _ => rfl]
    exact List.append_nil _
  | shared => exact List.append_nil _

/-- The function `L` has rounds if its loop mentions variables in their places only. -/
theorem LoopFunction.Wraps.rounds {L : LoopFunction} {block : List Stmt} {Ls : List LoopFunction}
    (h : LoopFunction.Wraps N L block) (hbody : BodyMentions N L.target 0 block Ls)
    (hsep : Separate N (L :: Ls)) : L.Rounds block := by
  obtain ⟨hnodup, hapart⟩ := hsep
  rw [variablesOf_cons] at hnodup hapart
  obtain ⟨hvariables, -, hne⟩ := List.nodup_append.1 hnodup
  -- the variables of the loop differ from other names and from those of the loops inside
  have hN (x : String) (hx : N x) : x ∉ L.target.variables :=
    fun hmem => hapart x hx (List.mem_append_left _ hmem)
  have hturns := hbody.turns hN fun x hx hmem => hne x hmem x hx rfl
  cases h with
  | single hlen hcopies => exact .single hlen hvariables (fun x hx => hN x (hcopies x hx)) hturns
  | shared => exact .shared hvariables hturns

mutual

/-- The loops of an expression have rounds if they are `Separate`. The recursion follows
`ExprMentions`. -/
theorem ExprMentions.rounds : ∀ {e : Expr} {Ls : List LoopFunction}, ExprMentions N e Ls →
    Separate N Ls → List.Forall₂ LoopFunction.Rounds Ls e.loops
  | _, _, .node he _ hes, hsep => Expr.loops_of_parts he ▸ hes.rounds hsep
  | _, _, .function hbody, hsep => hbody.rounds hsep
  | _, _, .loop hwraps hbody, hsep => by
    rw [Expr.loops, hwraps.loopsIn]
    exact .cons (hwraps.rounds hbody hsep) (hbody.rounds hsep.tail)

/-- `ExprMentions.rounds` for each of some expressions. -/
theorem ExprsMention.rounds : ∀ {es : List Expr} {Ls : List LoopFunction}, ExprsMention N es Ls →
    Separate N Ls → List.Forall₂ LoopFunction.Rounds Ls (exprsLoops es)
  | _, _, .nil, _ => .nil
  | _, _, .cons he hes, hsep =>
    List.rel_append (he.rounds hsep.of_append.1) (hes.rounds hsep.of_append.2)

/-- `ExprMentions.rounds` for what is in the body of a loop. -/
theorem BodyMentions.rounds : ∀ {G : JumpTarget} {i : Nat} {block : List Stmt}
    {Ls : List LoopFunction}, BodyMentions N G i block Ls → Separate N Ls →
      List.Forall₂ LoopFunction.Rounds Ls (loopsIn block)
  | _, _, _, _, .nil, _ => .nil
  | _, _, _, _, .last _ _ _ hblock, hsep => by
    rw [loopsIn_member]
    exact hblock.rounds hsep
  | _, _, _, _, .test _ _ _ _ hblock hrest, hsep => by
    rw [loopsIn, Stmt.loops, armsLoops, armsLoops, loopsIn_member, List.append_nil]
    exact List.rel_append (hblock.rounds hsep.of_append.1) (hrest.rounds hsep.of_append.2)

/-- `ExprMentions.rounds` for a block. -/
theorem BlockMentions.rounds : ∀ {place : Option JumpTarget} {block : List Stmt}
    {Ls : List LoopFunction}, BlockMentions N place block Ls → Separate N Ls →
      List.Forall₂ LoopFunction.Rounds Ls (loopsIn block)
  | _, _, _, .nil, _ => .nil
  | _, _, _, .plain hs _ hes hrest, hsep => by
    rw [loopsIn, Stmt.loops_of_parts hs]
    exact List.rel_append (hes.rounds hsep.of_append.1) (hrest.rounds hsep.of_append.2)
  | _, _, _, .assign _ he hrest, hsep =>
    List.rel_append (he.rounds hsep.of_append.1) (hrest.rounds hsep.of_append.2)
  | _, _, _, .chain harms hrest, hsep =>
    List.rel_append (harms.rounds hsep.of_append.1) (hrest.rounds hsep.of_append.2)
  | _, _, _, .jump _ hlen hvalues, hsep => by
    rw [loopsIn_jumpBlock hlen]
    exact hvalues.rounds hsep

/-- `ExprMentions.rounds` for the arms of a chain. -/
theorem ArmsMention.rounds : ∀ {place : Option JumpTarget} {arms : List (Expr × List Stmt)}
    {Ls : List LoopFunction}, ArmsMention N place arms Ls → Separate N Ls →
      List.Forall₂ LoopFunction.Rounds Ls (armsLoops arms)
  | _, _, _, .nil, _ => .nil
  | _, _, _, .cons he hblock harms, hsep => by
    obtain ⟨hcond, hrest⟩ := hsep.of_append
    obtain ⟨hthen, hothers⟩ := hrest.of_append
    exact List.rel_append (he.rounds hcond)
      (List.rel_append (hblock.rounds hthen) (harms.rounds hothers))

end

/-- Of `decls`, in order: each loop of `Ls` has rounds. -/
theorem NamesApart.rounds {decls : List Stmt} {Ls : List LoopFunction} (h : NamesApart decls Ls) :
    List.Forall₂ LoopFunction.Rounds Ls (loopsIn decls) :=
  h.mentions.rounds ⟨h.nodup, fun _ hx => hx⟩

end TailLoop.Script

import TailLoop.Proofs.OwnNames

/-!
# Levels

The level of a binder only tells it apart from binders of the same name. Where all levels of a term
are renumbered, so that different ones stay different, the analysis finds the same, with the
references renumbered.

* `Renumbering`: other levels for levels, different ones for different ones.
* `Term.relevel`, `Analysis.relevel`: terms and their summaries with other levels.
* `analyze_relevel`: the analysis of a renumbered term.
* `CompilationUnit.analyze_relevel`: the analysis of a renumbered unit.
-/

namespace TailLoop

/-- A renumbering of levels that keeps different ones apart. -/
structure Renumbering where
  /-- The new number of a level. -/
  level : UInt32 → UInt32
  /-- Different levels stay different. -/
  injective : Function.Injective level

/-! ## Tables -/

namespace Table

variable {κ μ α β : Type}

/-- The entries of `t` under the keys that `f` gives. -/
def mapKeys (f : κ → μ) (hf : Function.Injective f) (t : Table κ α) : Table μ α where
  entries := t.entries.map fun e => (f e.1, e.2)
  nodup_keys := by
    rw [List.map_map]
    exact List.map_map (g := f) ▸ List.Pairwise.map f (fun _ _ h h' => h (hf h')) t.nodup_keys

variable {f : κ → μ} {hf : Function.Injective f}

/-- `empty` has no keys. -/
@[simp] theorem mapKeys_empty : (empty : Table κ α).mapKeys f hf = empty := rfl

variable [DecidableEq κ] [DecidableEq μ]

/-- What `t` has at `k` is found at `f k`. -/
@[simp] theorem get?_mapKeys (t : Table κ α) (k : κ) : (t.mapKeys f hf).get? (f k) = t.get? k := by
  obtain ⟨es, hes⟩ := t
  simp only [get?, mapKeys]
  clear hes
  induction es with
  | nil => rfl
  | cons e rest ih => simp only [List.map_cons, valueAt?, hf.eq_iff, ih]

/-- `alter` changes the value at `f k`. -/
theorem mapKeys_alter (t : Table κ α) (k : κ) (g : Option α → α) :
    (t.alter k g).mapKeys f hf = (t.mapKeys f hf).alter (f k) g := by
  obtain ⟨es, hes⟩ := t
  simp only [alter, mapKeys, mk.injEq]
  clear hes
  induction es with
  | nil => rfl
  | cons e rest ih =>
    simp only [List.map_cons, alterEntry, hf.eq_iff]
    split
    · rfl
    · rw [List.map_cons, ih]

/-- `insert` enters the value at `f k`. -/
@[simp] theorem mapKeys_insert (t : Table κ α) (k : κ) (a : α) :
    (t.insert k a).mapKeys f hf = (t.mapKeys f hf).insert (f k) a := mapKeys_alter t k fun _ => a

/-- `erase` forgets the value at `f k`. -/
@[simp] theorem mapKeys_erase (t : Table κ α) (k : κ) :
    (t.erase k).mapKeys f hf = (t.mapKeys f hf).erase (f k) := by
  simp only [erase, mapKeys, mk.injEq, List.filter_map]
  congr 2
  funext e
  simp [hf.eq_iff]

/-- `combine` works on the new keys as it did on the old ones. -/
@[simp] theorem mapKeys_combine (t : Table κ α) (u : Table κ β) (g : Option α → β → α) :
    (t.combine u g).mapKeys f hf = (t.mapKeys f hf).combine (u.mapKeys f hf) g := by
  have hfold (es : List (κ × β)) (t : Table κ α) :
      (es.foldl (fun acc e => acc.alter e.1 fun old => g old e.2) t).mapKeys f hf =
        (es.map fun e => (f e.1, e.2)).foldl (fun acc e => acc.alter e.1 fun old => g old e.2)
          (t.mapKeys f hf) := by
    induction es generalizing t with
    | nil => rfl
    | cons e rest ih => rw [List.foldl_cons, ih, mapKeys_alter, List.map_cons, List.foldl_cons]
  exact hfold u.entries t

end Table

/-! ## Binders and references -/

variable (s : Renumbering)

/-- The binder `b` with its new level. -/
def Binder.relevel (b : Binder) : Binder := { b with level := s.level b.level }

/-- The reference with its new level; top-level names have none. -/
def Ref.relevel : Ref → Ref
  | .bound b => .bound (b.relevel s)
  | .global q => .global q

/-- `Binder.relevel` keeps different binders apart. -/
theorem Binder.relevel_injective : Function.Injective (Binder.relevel s) := by
  rintro ⟨name, level⟩ ⟨name', level'⟩ h
  simp only [relevel, mk.injEq] at h
  rw [h.1, s.injective h.2]

/-- `Ref.relevel` keeps different references apart. -/
theorem Ref.relevel_injective : Function.Injective (Ref.relevel s) := by
  rintro (b | q) (b' | q') h
  · rw [Binder.relevel_injective s (Ref.bound.inj h)]
  · cases h
  · cases h
  · exact h

/-- A reference is renumbered in every module `m` alike. -/
theorem Ref.within_relevel (m : String) (r : Ref) :
    (r.relevel s).within m = (r.within m).relevel s := by
  rcases r with b | ⟨module, ident⟩
  · rfl
  · cases module <;> rfl

/-! ## Summaries -/

/-- The summary `a` with its references renumbered. -/
def Analysis.relevel (a : Analysis) : Analysis where
  calls := a.calls.mapKeys (Ref.relevel s) (Ref.relevel_injective s)
  tailCalls := a.tailCalls.mapKeys (Ref.relevel s) (Ref.relevel_injective s)
  isLoop := a.isLoop

namespace Analysis

@[simp] theorem relevel_empty : empty.relevel s = empty := rfl

@[simp] theorem relevel_call (r : Ref) (arity : Nat) :
    (call r arity).relevel s = call (r.relevel s) arity := by
  simp [call, relevel]

@[simp] theorem relevel_appendCalls (a b : Analysis) :
    (a.appendCalls b).relevel s = (a.relevel s).appendCalls (b.relevel s) := by
  simp [appendCalls, relevel]

@[simp] theorem relevel_append (a b : Analysis) :
    (a.append b).relevel s = (a.relevel s).append (b.relevel s) := by
  simp [append, appendCalls, relevel]

@[simp] theorem relevel_noTailCalls (a : Analysis) :
    a.noTailCalls.relevel s = (a.relevel s).noTailCalls := by
  simp [noTailCalls, relevel]

@[simp] theorem relevel_drop (a : Analysis) (r : Ref) :
    (a.drop r).relevel s = (a.relevel s).drop (r.relevel s) := by
  simp [drop, relevel]

@[simp] theorem relevel_dropAll (a : Analysis) (rs : List Ref) :
    (a.dropAll rs).relevel s = (a.relevel s).dropAll (rs.map (Ref.relevel s)) := by
  induction rs generalizing a with
  | nil => rfl
  | cons r rest ih =>
    rw [dropAll, List.foldl_cons, ← dropAll, ih, relevel_drop]
    rfl

/-- The renumbered reference is called as `r` was. -/
@[simp] theorem checkUniform_relevel (a : Analysis) (r : Ref) (arity : Nat) :
    (a.relevel s).checkUniform (r.relevel s) arity = a.checkUniform r arity := by
  have hcall : (a.relevel s).callOf? (r.relevel s) = a.callOf? r := by simp [callOf?, relevel]
  have htail : (a.relevel s).tailCallsOf (r.relevel s) = a.tailCallsOf r := by
    simp [tailCallsOf, relevel]
  rw [checkUniform, checkUniform, hcall, htail]

@[simp] theorem isUniform_relevel (a : Analysis) (r : Ref) (arity : Nat) :
    (a.relevel s).isUniform (r.relevel s) arity = a.isUniform r arity := by
  rw [isUniform, checkUniform_relevel, isUniform]

end Analysis

/-! ## Terms -/

variable {α β : Type}

namespace Term

mutual

/-- The term with the levels of its binders and variables renumbered by `s`, and with its notes
changed by `f`. -/
def relevel (s : Renumbering) (f : α → β) : Term α → Term β
  | global a q => .global (f a) q
  | bound a b => .bound (f a) (b.relevel s)
  | lit a value => .lit (f a) value
  | array a items => .array (f a) (relevelList s f items)
  | record a fields => .record (f a) (relevelFields s f fields)
  | app a calling head args => .app (f a) calling (relevel s f head) (relevelList s f args)
  | abs a calling params body =>
    .abs (f a) calling (params.map (Binder.relevel s)) (relevel s f body)
  | access a subject accessor => .access (f a) (relevel s f subject) accessor
  | update a subject fields => .update (f a) (relevel s f subject) (relevelFields s f fields)
  | construct a type tag fields => .construct (f a) type tag (relevelFields s f fields)
  | constructor a tag fields => .constructor (f a) tag fields
  | letIn a b value body => .letIn (f a) (b.relevel s) (relevel s f value) (relevel s f body)
  | letRec a level bindings body =>
    .letRec (f a) (s.level level) (relevelFields s f bindings) (relevel s f body)
  | bindEffect a b effect body =>
    .bindEffect (f a) (b.relevel s) (relevel s f effect) (relevel s f body)
  | pureEffect a value => .pureEffect (f a) (relevel s f value)
  | deferEffect a effect => .deferEffect (f a) (relevel s f effect)
  | branch a arms default => .branch (f a) (relevelArms s f arms) (relevel s f default)
  | test a subject guard => .test (f a) (relevel s f subject) guard
  | unary a op operand => .unary (f a) op (relevel s f operand)
  | binary a op left right => .binary (f a) op (relevel s f left) (relevel s f right)
  | undefined a => .undefined (f a)
  | fail a message => .fail (f a) message

/-- `relevel` of every term of a list. -/
def relevelList (s : Renumbering) (f : α → β) : List (Term α) → List (Term β)
  | [] => []
  | t :: rest => relevel s f t :: relevelList s f rest

/-- `relevel` of every named term. -/
def relevelFields (s : Renumbering) (f : α → β) : List (String × Term α) → List (String × Term β)
  | [] => []
  | (name, t) :: rest => (name, relevel s f t) :: relevelFields s f rest

/-- `relevel` of conditions and bodies. -/
def relevelArms (s : Renumbering) (f : α → β) : List (Term α × Term α) → List (Term β × Term β)
  | [] => []
  | (cond, body) :: rest => (relevel s f cond, relevel s f body) :: relevelArms s f rest

end

variable {f : α → β}

/-- `relevelList` goes through `ts` one by one. -/
@[simp] theorem relevelList_eq_map (ts : List (Term α)) :
    relevelList s f ts = ts.map (relevel s f) := by
  induction ts with
  | nil => rfl
  | cons t rest ih => rw [relevelList, ih, List.map_cons]

/-- `relevelFields` goes through `fields` one by one. -/
@[simp] theorem relevelFields_eq_map (fields : List (String × Term α)) :
    relevelFields s f fields = fields.map fun x => (x.1, x.2.relevel s f) := by
  induction fields with
  | nil => rfl
  | cons x rest ih => rw [relevelFields, ih, List.map_cons]

/-- The terms of renumbered `fields` are renumbered in order. -/
theorem map_snd_relevelFields (fields : List (String × Term α)) :
    (relevelFields s f fields).map Prod.snd = (fields.map Prod.snd).map (relevel s f) := by
  simp

/-- `relevelArms` goes through `arms` one by one. -/
@[simp] theorem relevelArms_eq_map (arms : List (Term α × Term α)) :
    relevelArms s f arms = arms.map fun arm => (arm.1.relevel s f, arm.2.relevel s f) := by
  induction arms with
  | nil => rfl
  | cons arm rest ih => rw [relevelArms, ih, List.map_cons]

@[simp] theorem note_relevel (t : Term α) : (t.relevel s f).note = f t.note := by
  cases t <;> rfl

@[simp] theorem arity_relevel (t : Term α) : (t.relevel s f).arity = t.arity := by
  cases t with
  | abs a calling params body => cases calling <;> simp [relevel, arity]
  | _ => rfl

@[simp] theorem isFunction_relevel (t : Term α) :
    Lower.isFunction (t.relevel s f) = Lower.isFunction t := by
  cases t <;> rfl

@[simp] theorem body?_relevel (t : Term α) :
    (t.relevel s f).body? = t.body?.map (relevel s f) := by
  cases t with
  | abs a calling params body => cases calling <;> rfl
  | _ => rfl

/-- A renumbered term refers to what `t` refers to, renumbered. -/
@[simp] theorem ref?_relevel (t : Term α) : (t.relevel s f).ref? = t.ref?.map (Ref.relevel s) := by
  cases t <;> rfl

end Term

open Term

/-- The members of a renumbered group are renumbered. -/
theorem groupRefs_relevel (level : UInt32) (bindings : List (String × Term α)) (f : α → β) :
    groupRefs (s.level level) (relevelFields s f bindings) =
      (groupRefs level bindings).map (Ref.relevel s) := by
  simp [groupRefs, Ref.relevel, Binder.relevel]

/-! ## Analysis -/

/-- The candidates `c`, renumbered. -/
def Candidates.relevel (c : Candidates) : Candidates :=
  { c with refs := c.refs.map (Ref.relevel s) }

namespace Candidates

@[simp] theorem relevel_extend (c : Candidates) (rs : List Ref) :
    (c.extend rs).relevel s = (c.relevel s).extend (rs.map (Ref.relevel s)) := by
  simp [extend, relevel]

/-- A renumbered term refers to what the term refers to, renumbered. -/
@[simp] theorem ref?_relevel (c : Candidates) (t : Term α) (f : α → β) :
    (c.relevel s).ref? (t.relevel s f) = (c.ref? t).map (Ref.relevel s) := by
  rw [ref?, Term.ref?_relevel, Option.map_map, ref?, Option.map_map]
  congr 1
  funext r
  simp only [relevel, Function.comp_apply]
  cases c.module with
  | none => rfl
  | some m => exact Ref.within_relevel s m r

@[simp] theorem occurrence_relevel (c : Candidates) (r : Ref) (arity : Nat) :
    (c.relevel s).occurrence (r.relevel s) arity = (c.occurrence r arity).relevel s := by
  have hmem : r.relevel s ∈ c.refs.map (Ref.relevel s) ↔ r ∈ c.refs := by
    simp [(Ref.relevel_injective s).eq_iff]
  simp only [occurrence, relevel, hmem]
  split <;> simp

end Candidates

/-- The decision about renumbered members. -/
def Verdict.relevel : Verdict → Verdict
  | .noMembers => .noMembers
  | .notFunction member => .notFunction (member.relevel s)
  | .notUniform member reason => .notUniform (member.relevel s) reason
  | .loop => .loop

@[simp] theorem Verdict.isLoop_relevel (v : Verdict) : (v.relevel s).isLoop = v.isLoop := by
  cases v <;> rfl

/-- `t` and its summaries, renumbered. -/
abbrev Term.relevelNotes (t : Analyzed) : Analyzed := t.relevel s (Analysis.relevel s)

@[simp] theorem bodiesAnalysis_relevel (bindings : List Analyzed) :
    bodiesAnalysis (bindings.map (relevelNotes s)) = (bodiesAnalysis bindings).relevel s := by
  have hfold (ts : List Analyzed) (a : Analysis) :
      (ts.map (relevelNotes s)).foldl (fun a t => a.append t.note) (a.relevel s) =
        (ts.foldl (fun a t => a.append t.note) a).relevel s := by
    induction ts generalizing a with
    | nil => rfl
    | cons t rest ih =>
      rw [List.map_cons, List.foldl_cons, note_relevel, ← Analysis.relevel_append, ih,
        List.foldl_cons]
  have hbodies : (bindings.map (relevelNotes s)).filterMap body? =
      (bindings.filterMap body?).map (relevelNotes s) := by
    rw [List.filterMap_map, List.map_filterMap]
    congr 1
    funext t
    exact body?_relevel s t
  rw [bodiesAnalysis, hbodies]
  exact hfold _ .empty

/-- `verdict` on a renumbered group is that on the group, renumbered. -/
theorem verdict_relevel (members : List Ref) (bindings : List Analyzed) :
    verdict (members.map (Ref.relevel s)) (bindings.map (relevelNotes s)) =
      (verdict members bindings).relevel s := by
  have hnone : ((fun p : Ref × Analyzed => p.2.body?.isNone) ∘
      Prod.map (Ref.relevel s) (relevelNotes s)) = fun p => p.2.body?.isNone := by
    funext p
    simp
  rw [verdict, verdict, List.zip_map, List.find?_map, hnone, bodiesAnalysis_relevel]
  simp only [List.isEmpty_map, List.findSome?_map]
  split
  · rfl
  · cases (members.zip bindings).find? fun p => p.2.body?.isNone with
    | some p => rfl
    | none =>
      simp only [Option.map_none]
      induction members.zip bindings with
      | nil => rfl
      | cons p rest ih =>
        simp only [List.findSome?_cons, Function.comp_apply, Prod.map_fst, Prod.map_snd,
          Analysis.checkUniform_relevel, arity_relevel]
        cases (bodiesAnalysis bindings).checkUniform p.1 p.2.arity with
        | error reason => rfl
        | ok _ => exact ih

@[simp] theorem appendAllCalls_relevel (a : Analysis) (ts : List Analyzed) :
    (a.relevel s).appendAllCalls (ts.map (relevelNotes s)) = (a.appendAllCalls ts).relevel s := by
  induction ts generalizing a with
  | nil => rfl
  | cons t rest ih =>
    rw [List.map_cons, Analysis.appendAllCalls, List.foldl_cons, note_relevel,
      ← Analysis.relevel_appendCalls]
    exact ih _

@[simp] theorem armsAnalysis_relevel (arms : List (Analyzed × Analyzed)) :
    armsAnalysis (relevelArms s (Analysis.relevel s) arms) = (armsAnalysis arms).relevel s := by
  have hfold (a : Analysis) :
      (arms.map fun arm => (arm.1.relevelNotes s, arm.2.relevelNotes s)).foldl
        (fun a arm => (a.appendCalls arm.1.note).append arm.2.note) (a.relevel s) =
      (arms.foldl (fun a arm => (a.appendCalls arm.1.note).append arm.2.note) a).relevel s := by
    induction arms generalizing a with
    | nil => rfl
    | cons arm rest ih =>
      rw [List.map_cons, List.foldl_cons, note_relevel, note_relevel,
        ← Analysis.relevel_appendCalls, ← Analysis.relevel_append, ih, List.foldl_cons]
  rw [relevelArms_eq_map]
  exact hfold .empty

@[simp] theorem letAnalysis_relevel (r : Ref) (value body : Analyzed) :
    letAnalysis (r.relevel s) (value.relevelNotes s) (body.relevelNotes s) =
      (letAnalysis r value body).relevel s := by
  simp only [letAnalysis, note_relevel, arity_relevel, Analysis.isUniform_relevel]
  split <;> simp

@[simp] theorem letRecAnalysis_relevel (members : List Ref) (bindings : List Analyzed)
    (body : Analyzed) :
    letRecAnalysis (members.map (Ref.relevel s)) (bindings.map (relevelNotes s))
        (body.relevelNotes s) = (letRecAnalysis members bindings body).relevel s := by
  have hall : ((Analysis.empty.appendAllCalls (bindings.map (relevelNotes s))).append
      (body.relevelNotes s).note).dropAll (members.map (Ref.relevel s)) =
        (((Analysis.empty.appendAllCalls bindings).append
          body.note).dropAll members).relevel s := by
    rw [note_relevel, Analysis.relevel_dropAll, Analysis.relevel_append, ← appendAllCalls_relevel,
      Analysis.relevel_empty]
  simp only [letRecAnalysis, hall, verdict_relevel, Verdict.isLoop_relevel]
  cases (verdict members bindings).isLoop with
  | true => rfl
  | false => simp [Analysis.relevel, Analysis.noTailCalls]

/-- `analyze` commutes with renumbering. -/
theorem analyze_relevel (c : Candidates) (t : Expr) :
    analyze (c.relevel s) (t.relevel s id) = (analyze c t).relevelNotes s := by
  induction t using children_induction generalizing c with
  | step t ih =>
  -- the candidates change below bindings, so the induction is for all of them
  have hlist (c : Candidates) (ts : List Expr) (h : ∀ u ∈ ts, u ∈ t.children) :
      analyzeList (c.relevel s) (relevelList s id ts) =
        relevelList s (Analysis.relevel s) (analyzeList c ts) := by
    simp only [analyzeList_eq_map, relevelList_eq_map, List.map_map]
    exact List.map_congr_left fun u hu => ih u (h u hu) c
  have hfields (c : Candidates) (fields : List (String × Expr))
      (h : ∀ u ∈ fields.map Prod.snd, u ∈ t.children) :
      analyzeFields (c.relevel s) (relevelFields s id fields) =
        relevelFields s (Analysis.relevel s) (analyzeFields c fields) := by
    simp only [analyzeFields_eq_map, relevelFields_eq_map, List.map_map]
    exact List.map_congr_left fun x hx =>
      congrArg (x.1, ·) (ih x.2 (h x.2 (List.mem_map_of_mem hx)) c)
  cases t with
  | global a q =>
    have href := Candidates.ref?_relevel s c (Term.global () q) (id : Unit → Unit)
    simp only [relevel, analyze, id] at href ⊢
    rw [href]
    cases c.ref? (Term.global () q) <;> simp
  | bound a b =>
    have href := Candidates.ref?_relevel s c (Term.bound () b) (id : Unit → Unit)
    simp only [relevel, analyze, id] at href ⊢
    rw [href]
    cases c.ref? (Term.bound () b) <;> simp
  | array a items =>
    simp only [relevel, analyze, hlist c items fun u hu => hu]
    rw [relevelList_eq_map, ← Analysis.relevel_empty s, appendAllCalls_relevel]
    rfl
  | record a fields | construct a type tag fields =>
    simp only [relevel, analyze, hfields c fields fun u hu => hu]
    rw [map_snd_relevelFields, ← Analysis.relevel_empty s, appendAllCalls_relevel]
    rfl
  | update a subject fields =>
    simp only [relevel, analyze, hfields c fields fun u hu => List.mem_cons_of_mem _ hu,
      ih subject (List.mem_cons_self ..), note_relevel]
    rw [map_snd_relevelFields, ← Analysis.relevel_empty s, ← Analysis.relevel_appendCalls,
      appendAllCalls_relevel]
    rfl
  | app a calling head args =>
    simp only [relevel, analyze, hlist c args fun u hu => List.mem_cons_of_mem _ hu,
      ih head (List.mem_cons_self ..), note_relevel, Candidates.ref?_relevel]
    have hlength : (relevelList s id args : List Expr).length = args.length := by simp
    -- whether the head is a candidate is the same before and after, which leaves a sum of summaries
    have hplain : (Analysis.empty.appendCalls ((analyze c head).note.relevel s)) =
        (Analysis.empty.appendCalls (analyze c head).note).relevel s := by simp
    rw [hplain, hlength, relevelList_eq_map]
    cases calling <;> cases c.ref? head <;>
      simp only [Option.map_none, Option.map_some, Candidates.occurrence_relevel,
        appendAllCalls_relevel]
  | letIn a b value body =>
    have hextend : (c.relevel s).extend [.bound (b.relevel s)] = (c.extend [.bound b]).relevel s :=
      (Candidates.relevel_extend s c [.bound b]).symm
    simp only [relevel, analyze, hextend, ih value (by simp [children]),
      ih body (by simp [children])]
    rw [← letAnalysis_relevel]
    rfl
  | letRec a level bindings body =>
    simp only [relevel, analyze, groupRefs_relevel]
    rw [← Candidates.relevel_extend, ih body (by simp [children]),
      hfields _ bindings fun u hu => List.mem_append_left _ hu, map_snd_relevelFields,
      letRecAnalysis_relevel]
  | branch a arms default =>
    have harms : analyzeArms (c.relevel s) (relevelArms s id arms) =
        relevelArms s (Analysis.relevel s) (analyzeArms c arms) := by
      simp only [analyzeArms_eq_map, relevelArms_eq_map, List.map_map]
      refine List.map_congr_left fun arm harm => ?_
      have hmem (u : Expr) (hu : u ∈ [arm.1, arm.2]) : u ∈ (Term.branch a arms default).children :=
        List.mem_append_left _ (List.mem_flatMap.2 ⟨arm, harm, hu⟩)
      exact Prod.ext (ih arm.1 (hmem _ (by simp)) c) (ih arm.2 (hmem _ (by simp)) c)
    simp only [relevel, analyze, harms, ih default (by simp [children]), armsAnalysis_relevel,
      note_relevel, Analysis.relevel_append]
  | abs a calling params body =>
    simp [relevel, analyze, ih body (by simp [children])]
  | access a subject | test a subject =>
    simp [relevel, analyze, ih subject (by simp [children])]
  | bindEffect a b effect body =>
    simp [relevel, analyze, ih effect (by simp [children]), ih body (by simp [children])]
  | pureEffect a value => simp [relevel, analyze, ih value (by simp [children])]
  | deferEffect a effect => simp [relevel, analyze, ih effect (by simp [children])]
  | unary a op operand => simp [relevel, analyze, ih operand (by simp [children])]
  | binary a op left right =>
    simp [relevel, analyze, ih left (by simp [children]), ih right (by simp [children])]
  | lit | constructor | undefined | fail => rfl

/-! ## Units -/

/-- The group `g` with all its levels renumbered. -/
def BindingGroup.relevel (g : BindingGroup) : BindingGroup :=
  { g with bindings := relevelFields s id g.bindings }

/-- The unit `u` with all its levels renumbered. -/
def CompilationUnit.relevel (u : CompilationUnit) : CompilationUnit :=
  { u with groups := u.groups.map (BindingGroup.relevel s) }

/-- The analysed group `g`, renumbered with its summaries. -/
def AnalyzedGroup.relevel (g : AnalyzedGroup) : AnalyzedGroup where
  recursive := g.recursive
  bindings := relevelFields s (Analysis.relevel s) g.bindings
  verdict := g.verdict.relevel s

/-- `topRefs` come from names, which have no levels. -/
theorem topRefs_relevel (m : String) (bindings : List (String × Term α)) (f : α → β) :
    topRefs m (relevelFields s f bindings) = topRefs m bindings := by
  simp [topRefs]

/-- `topRefs` are their own renumbering. -/
theorem map_relevel_topRefs (m : String) (bindings : List (String × Term α)) :
    (topRefs m bindings).map (Ref.relevel s) = topRefs m bindings := by
  simp [topRefs, Ref.relevel]

/-- The analysis of a group commutes with renumbering. -/
theorem BindingGroup.analyze_relevel (m : String) (g : BindingGroup) :
    (g.relevel s).analyze m = (g.analyze m).relevel s := by
  have hbindings (refs : List Ref) (hrefs : refs.map (Ref.relevel s) = refs) :
      analyzeFields ⟨some m, refs⟩ (relevelFields s id g.bindings) =
        relevelFields s (Analysis.relevel s) (analyzeFields ⟨some m, refs⟩ g.bindings) := by
    have hcandidates : (⟨some m, refs⟩ : Candidates) = Candidates.relevel s ⟨some m, refs⟩ := by
      rw [Candidates.relevel, hrefs]
    simp only [analyzeFields_eq_map, relevelFields_eq_map, List.map_map]
    refine List.map_congr_left fun b _ => congrArg (b.1, ·) ?_
    conv => lhs; rw [hcandidates]
    exact TailLoop.analyze_relevel s ⟨some m, refs⟩ b.2
  have hmembers := map_relevel_topRefs s m g.bindings
  simp only [analyze, relevel, topRefs_relevel, AnalyzedGroup.relevel]
  split
  · have hverdict := verdict_relevel s (topRefs m g.bindings)
      ((analyzeFields ⟨some m, topRefs m g.bindings⟩ g.bindings).map Prod.snd)
    rw [hmembers] at hverdict
    rw [hbindings _ hmembers, map_snd_relevelFields, ← hverdict]
  · rw [hbindings [] rfl]
    rfl

/-- The analysis of a unit commutes with renumbering. -/
theorem CompilationUnit.analyze_relevel (u : CompilationUnit) :
    (u.relevel s).analyze = u.analyze.map (AnalyzedGroup.relevel s) := by
  simp only [analyze, relevel, List.map_map]
  exact List.map_congr_left fun g _ => g.analyze_relevel s u.name

end TailLoop

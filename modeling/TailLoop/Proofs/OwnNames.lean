import TailLoop.Proofs.LoopLowering

/-!
# Own names

A unit can refer to its own top-level names with or without its own name in front. The spelling
makes no difference: it changes neither a decision of the analysis, nor the summary of a node, nor
anything that the lowering writes or reports.

* `Term.respell`: own names are spelled the other way at some positions.
* `analyze_respell`: the analysis of a term does not depend on the spelling.
* `code_respell`: neither does the lowering.
* `module_respell`: the statement for whole units.
-/

namespace TailLoop

variable {α : Type}

/-- The other spelling of a name of module `m`. -/
def Qualified.respell (m : String) (q : Qualified) : Qualified :=
  match q.module with
  | none => ⟨some m, q.ident⟩
  | some n => if n = m then ⟨none, q.ident⟩ else q

/-- Within the module `m`, both spellings of a name are one reference. -/
theorem Ref.within_respell (m : String) (q : Qualified) :
    (Ref.global (q.respell m)).within m = (Ref.global q).within m := by
  obtain ⟨module, ident⟩ := q
  cases module with
  | none => rfl
  | some n =>
    rw [Qualified.respell]
    simp only
    split
    · rename_i hn
      rw [hn]
      rfl
    · rfl

namespace Term

/-! ## Spelling -/

mutual

/-- The term where the names of module `m` at the positions in `sel` are spelled the other way. -/
def respell (m : String) (sel : List Nat → Bool) : Term α → Term α
  | global a q => .global a (if sel [] then q.respell m else q)
  | bound a b => .bound a b
  | lit a value => .lit a value
  | array a items => .array a (respellList m sel 0 items)
  | record a fields => .record a (respellFields m sel 0 fields)
  | app a calling head args =>
    .app a calling (respell m (fun p => sel (0 :: p)) head) (respellList m sel 1 args)
  | abs a calling params body => .abs a calling params (respell m (fun p => sel (0 :: p)) body)
  | access a subject accessor => .access a (respell m (fun p => sel (0 :: p)) subject) accessor
  | update a subject fields =>
    .update a (respell m (fun p => sel (0 :: p)) subject) (respellFields m sel 1 fields)
  | construct a type tag fields => .construct a type tag (respellFields m sel 0 fields)
  | constructor a tag fields => .constructor a tag fields
  | letIn a b value body =>
    .letIn a b (respell m (fun p => sel (0 :: p)) value) (respell m (fun p => sel (1 :: p)) body)
  | letRec a level bindings body =>
    .letRec a level (respellFields m sel 0 bindings)
      (respell m (fun p => sel (bindings.length :: p)) body)
  | bindEffect a b effect body =>
    .bindEffect a b (respell m (fun p => sel (0 :: p)) effect)
      (respell m (fun p => sel (1 :: p)) body)
  | pureEffect a value => .pureEffect a (respell m (fun p => sel (0 :: p)) value)
  | deferEffect a effect => .deferEffect a (respell m (fun p => sel (0 :: p)) effect)
  | branch a arms default =>
    .branch a (respellArms m sel 0 arms) (respell m (fun p => sel (2 * arms.length :: p)) default)
  | test a subject guard => .test a (respell m (fun p => sel (0 :: p)) subject) guard
  | unary a op operand => .unary a op (respell m (fun p => sel (0 :: p)) operand)
  | binary a op left right =>
    .binary a op (respell m (fun p => sel (0 :: p)) left) (respell m (fun p => sel (1 :: p)) right)
  | undefined a => .undefined a
  | fail a message => .fail a message

/-- The same for children from position `i` on. -/
def respellList (m : String) (sel : List Nat → Bool) (i : Nat) : List (Term α) → List (Term α)
  | [] => []
  | t :: rest => respell m (fun p => sel (i :: p)) t :: respellList m sel (i + 1) rest

/-- The same for named children from position `i` on. -/
def respellFields (m : String) (sel : List Nat → Bool) (i : Nat) :
    List (String × Term α) → List (String × Term α)
  | [] => []
  | (name, t) :: rest =>
    (name, respell m (fun p => sel (i :: p)) t) :: respellFields m sel (i + 1) rest

/-- The same for arms from position `i` on. -/
def respellArms (m : String) (sel : List Nat → Bool) (i : Nat) :
    List (Term α × Term α) → List (Term α × Term α)
  | [] => []
  | (cond, body) :: rest =>
    (respell m (fun p => sel (i :: p)) cond, respell m (fun p => sel ((i + 1) :: p)) body) ::
      respellArms m sel (i + 2) rest

end

attribute [simp] respell respellList respellFields respellArms

/-! ## Parts -/

section Parts

variable {β γ : Type} {m : String} {sel : List Nat → Bool} {ts : List (Term α)}
  {fields : List (String × Term α)} {arms : List (Term α × Term α)}

/-- If `f` does not depend on the spelling of a term, it does not on that of `ts`. -/
theorem map_respellList {f : Term α → β} (h : ∀ t ∈ ts, ∀ sel, f (t.respell m sel) = f t)
    (i : Nat) : (respellList m sel i ts).map f = ts.map f := by
  induction ts generalizing i with
  | nil => rfl
  | cons t rest ih =>
    rw [respellList, List.map_cons, h t (List.mem_cons_self ..),
      ih fun u hu => h u (List.mem_cons_of_mem _ hu), List.map_cons]

/-- If `f` does not depend on the spelling of a named term, it does not on that of `fields`. -/
theorem map_respellFields {f : String × Term α → β}
    (h : ∀ x ∈ fields, ∀ sel, f (x.1, x.2.respell m sel) = f x) (i : Nat) :
    (respellFields m sel i fields).map f = fields.map f := by
  induction fields generalizing i with
  | nil => rfl
  | cons x rest ih =>
    rw [respellFields, List.map_cons, h x (List.mem_cons_self ..),
      ih fun y hy => h y (List.mem_cons_of_mem _ hy), List.map_cons]

/-- If `f` does not depend on the spelling of an arm, it does not on that of `arms`. -/
theorem map_respellArms {f : Term α × Term α → β}
    (h : ∀ arm ∈ arms, ∀ sel sel', f (arm.1.respell m sel, arm.2.respell m sel') = f arm)
    (i : Nat) : (respellArms m sel i arms).map f = arms.map f := by
  induction arms generalizing i with
  | nil => rfl
  | cons arm rest ih =>
    rw [respellArms, List.map_cons, h arm (List.mem_cons_self ..),
      ih fun y hy => h y (List.mem_cons_of_mem _ hy), List.map_cons]

/-- If `f` commutes with `respell`, it does with `respellList`. -/
theorem map_respellList_comm {f : Term α → Term γ}
    (h : ∀ t ∈ ts, ∀ sel, f (t.respell m sel) = (f t).respell m sel) (i : Nat) :
    (respellList m sel i ts).map f = respellList m sel i (ts.map f) := by
  induction ts generalizing i with
  | nil => rfl
  | cons t rest ih =>
    rw [respellList, List.map_cons, h t (List.mem_cons_self ..),
      ih fun u hu => h u (List.mem_cons_of_mem _ hu), List.map_cons, respellList]

/-- If `f` commutes with `respell`, it does with `respellFields`. -/
theorem map_respellFields_comm {f : Term α → Term γ}
    (h : ∀ t ∈ fields.map Prod.snd, ∀ sel, f (t.respell m sel) = (f t).respell m sel) (i : Nat) :
    (respellFields m sel i fields).map (fun x => (x.1, f x.2)) =
      respellFields m sel i (fields.map fun x => (x.1, f x.2)) := by
  induction fields generalizing i with
  | nil => rfl
  | cons x rest ih =>
    rw [respellFields, List.map_cons, h x.2 (List.mem_cons_self ..),
      ih fun t ht => h t (List.mem_cons_of_mem _ ht), List.map_cons, respellFields]

/-- If `f` commutes with `respell`, it does with `respellArms`. -/
theorem map_respellArms_comm {f : Term α → Term γ}
    (h : ∀ t ∈ arms.flatMap fun arm => [arm.1, arm.2],
      ∀ sel, f (t.respell m sel) = (f t).respell m sel) (i : Nat) :
    (respellArms m sel i arms).map (fun arm => (f arm.1, f arm.2)) =
      respellArms m sel i (arms.map fun arm => (f arm.1, f arm.2)) := by
  induction arms generalizing i with
  | nil => rfl
  | cons arm rest ih =>
    rw [List.flatMap_cons, List.forall_mem_append] at h
    rw [respellArms, List.map_cons, h.1 arm.1 (by simp), h.1 arm.2 (by simp), ih h.2,
      List.map_cons, respellArms]

/-- `respell` keeps the note of the root. -/
@[simp] theorem note_respell (t : Term α) : (t.respell m sel).note = t.note := by
  cases t <;> rfl

/-- `respell` keeps the number of parameters. -/
@[simp] theorem arity_respell (t : Term α) : (t.respell m sel).arity = t.arity := by
  cases t with
  | abs a calling params body => cases calling <;> rfl
  | _ => rfl

/-- `respell` makes no function, and keeps those that there are. -/
@[simp] theorem isFunction_respell (t : Term α) :
    Lower.isFunction (t.respell m sel) = Lower.isFunction t := by
  cases t <;> rfl

/-- The body of a respelled function is respelled, at the positions that start with `0`. -/
theorem body?_respell (t : Term α) :
    (t.respell m sel).body? = t.body?.map (respell m fun p => sel (0 :: p)) := by
  cases t with
  | abs a calling params body => cases calling <;> rfl
  | _ => rfl

end Parts

/-- Within the module `m`, `t` refers to the same in both spellings. -/
theorem ref?_respell (m : String) (sel : List Nat → Bool) (t : Term α) :
    (t.respell m sel).ref?.map (Ref.within m) = t.ref?.map (Ref.within m) := by
  cases t with
  | global a q =>
    rw [respell, ref?, ref?]
    split
    · rw [Option.map_some, Option.map_some, Ref.within_respell]
    · rfl
  | _ => rfl

end Term

open Term

/-! ## Analysis -/

variable {m : String} {sel : List Nat → Bool}

/-- `appendAllCalls` reads the notes of the terms only. -/
theorem Analysis.appendAllCalls_congr {ts ts' : List Analyzed}
    (h : ts'.map Term.note = ts.map Term.note) (a : Analysis) :
    a.appendAllCalls ts' = a.appendAllCalls ts := by
  have hfold (ts : List Analyzed) : a.appendAllCalls ts =
      (ts.map Term.note).foldl appendCalls a := by
    rw [List.foldl_map]
    rfl
  rw [hfold, hfold, h]

/-- `armsAnalysis` reads the notes of the arms only. -/
theorem armsAnalysis_congr {arms arms' : List (Analyzed × Analyzed)}
    (h : arms'.map (fun arm => (arm.1.note, arm.2.note)) =
      arms.map fun arm => (arm.1.note, arm.2.note)) : armsAnalysis arms' = armsAnalysis arms := by
  have hfold (arms : List (Analyzed × Analyzed)) : armsAnalysis arms =
      (arms.map fun arm => (arm.1.note, arm.2.note)).foldl
        (fun a x => (a.appendCalls x.1).append x.2) .empty := by
    rw [List.foldl_map]
    rfl
  rw [hfold, hfold, h]

/-- What the decision on a group reads of the binding `t`: its number of parameters, and the note of
its body if it is a function. -/
def memberSummary (t : Analyzed) : Nat × Option Analysis := (t.arity, t.body?.map Term.note)

/-- The decision on a group, from `memberSummary` of each of its bindings. -/
def Verdict.ofSummaries (members : List Ref) (summaries : List (Nat × Option Analysis)) :
    Verdict :=
  if members.isEmpty then .noMembers
  else
    match (members.zip summaries).find? fun p => p.2.2.isNone with
    | some p => .notFunction p.1
    | none =>
      let all := (summaries.filterMap Prod.snd).foldl Analysis.append .empty
      let reason? (p : Ref × Nat × Option Analysis) : Option Verdict :=
        match all.checkUniform p.1 p.2.1 with
        | .error reason => some (.notUniform p.1 reason)
        | .ok () => none
      ((members.zip summaries).findSome? reason?).getD .loop

/-- `verdict` reads `memberSummary` of the bindings `ts` and nothing else. -/
theorem verdict_eq_ofSummaries (members : List Ref) (ts : List Analyzed) :
    verdict members ts = .ofSummaries members (ts.map memberSummary) := by
  have hbodies : bodiesAnalysis ts =
      ((ts.map memberSummary).filterMap Prod.snd).foldl Analysis.append .empty := by
    have hmap : ts.filterMap (Prod.snd ∘ memberSummary) = (ts.filterMap body?).map Term.note := by
      rw [List.map_filterMap]
      rfl
    rw [bodiesAnalysis, List.filterMap_map, hmap, List.foldl_map]
  have hnone : ((fun p : Ref × Nat × Option Analysis => p.2.2.isNone) ∘
      Prod.map id memberSummary) = fun p => p.2.body?.isNone := by
    funext p
    exact Option.isNone_map ..
  rw [verdict, Verdict.ofSummaries, ← hbodies, List.zip_map_right, List.find?_map, hnone]
  simp only [List.findSome?_map]
  cases (members.zip ts).find? fun p => p.2.body?.isNone <;> rfl

/-- `memberSummary` does not depend on the spelling. -/
@[simp] theorem memberSummary_respell (t : Analyzed) :
    memberSummary (t.respell m sel) = memberSummary t := by
  rw [memberSummary, memberSummary, arity_respell, body?_respell, Option.map_map]
  congr 2
  funext s
  exact note_respell s

/-- The summary of `ts` does not depend on their spelling. -/
theorem appendAllCalls_respellList (a : Analysis) (i : Nat) (ts : List Analyzed) :
    a.appendAllCalls (respellList m sel i ts) = a.appendAllCalls ts :=
  Analysis.appendAllCalls_congr (map_respellList (fun t _ _ => note_respell t) i) a

/-- The summary of `fields` does not depend on their spelling. -/
theorem appendAllCalls_respellFields (a : Analysis) (i : Nat) (fields : List (String × Analyzed)) :
    a.appendAllCalls ((respellFields m sel i fields).map Prod.snd) =
      a.appendAllCalls (fields.map Prod.snd) := by
  refine Analysis.appendAllCalls_congr ?_ a
  rw [List.map_map, List.map_map]
  exact map_respellFields (fun x _ _ => note_respell x.2) i

/-- The summary of `arms` does not depend on their spelling. -/
theorem armsAnalysis_respellArms (i : Nat) (arms : List (Analyzed × Analyzed)) :
    armsAnalysis (respellArms m sel i arms) = armsAnalysis arms :=
  armsAnalysis_congr (map_respellArms (fun arm _ _ _ => by rw [note_respell, note_respell]) i)

/-- The decision on a group does not depend on the spelling of its bindings. -/
theorem verdict_respellFields (members : List Ref) (i : Nat)
    (fields : List (String × Analyzed)) :
    verdict members ((respellFields m sel i fields).map Prod.snd) =
      verdict members (fields.map Prod.snd) := by
  have hsummaries : ((respellFields m sel i fields).map Prod.snd).map memberSummary =
      (fields.map Prod.snd).map memberSummary := by
    rw [List.map_map, List.map_map]
    exact map_respellFields (fun x _ _ => memberSummary_respell x.2) i
  rw [verdict_eq_ofSummaries, verdict_eq_ofSummaries, hsummaries]

/-- The references to the members come from the names and the `level` of a group. -/
theorem groupRefs_respellFields (level : UInt32) (i : Nat) (bindings : List (String × Term α)) :
    groupRefs level (respellFields m sel i bindings) = groupRefs level bindings :=
  map_respellFields (fun _ _ _ => rfl) i

/-- Where `c` is for the module `m`, `t` refers to the same in both spellings. -/
theorem Candidates.ref?_respell {c : Candidates} (hc : c.module = some m) (sel : List Nat → Bool)
    (t : Term α) : c.ref? (t.respell m sel) = c.ref? t := by
  simp only [ref?, hc]
  exact Term.ref?_respell m sel t

/-- `analyze` commutes with `respell`: all summaries stay the same. -/
theorem analyze_respell {c : Candidates} (hc : c.module = some m) (sel : List Nat → Bool)
    (t : Expr) : analyze c (t.respell m sel) = (analyze c t).respell m sel := by
  induction t using children_induction generalizing c sel with
  | step t ih =>
  -- a selector of positions is split among the children, so the induction is for all selectors
  have hfields (fields : List (String × Expr)) (hmem : ∀ s ∈ fields.map Prod.snd, s ∈ t.children)
      (i : Nat) : (respellFields m sel i fields).map (fun x => (x.1, analyze c x.2)) =
        respellFields m sel i (fields.map fun x => (x.1, analyze c x.2)) :=
    map_respellFields_comm (fun s hs sel => ih s (hmem s hs) hc sel) i
  cases t with
  | global a q =>
    -- candidates are compared after `within`, which does not see the spelling
    have href : c.ref? (.global () (if sel [] then q.respell m else q)) = c.ref? (.global () q) :=
      Candidates.ref?_respell hc sel (.global () q)
    simp only [respell, analyze, href]
  | bound | lit | constructor | undefined | fail => rfl
  | array a items =>
    have hitems : (respellList m sel 0 items).map (analyze c) =
        respellList m sel 0 (items.map (analyze c)) :=
      map_respellList_comm (fun s hs sel => ih s hs hc sel) 0
    simp only [respell, analyze, analyzeList_eq_map, hitems, appendAllCalls_respellList]
  | record a fields =>
    have hfields := hfields fields (fun _ hs => hs) 0
    simp only [respell, analyze, analyzeFields_eq_map, hfields, appendAllCalls_respellFields]
  | construct a type tag fields =>
    have hfields := hfields fields (fun _ hs => hs) 0
    simp only [respell, analyze, analyzeFields_eq_map, hfields, appendAllCalls_respellFields]
  | app a calling head args =>
    have hhead := ih head (by simp [children]) hc fun p => sel (0 :: p)
    have hargs : (respellList m sel 1 args).map (analyze c) =
        respellList m sel 1 (args.map (analyze c)) :=
      map_respellList_comm (fun s hs sel => ih s (List.mem_cons_of_mem _ hs) hc sel) 1
    have hlen : (respellList m sel 1 args).length = args.length := by
      simpa using congrArg List.length (map_respellList (f := fun _ => ()) (fun _ _ _ => rfl) 1)
    simp only [respell, analyze, analyzeList_eq_map, hhead, hargs, hlen,
      appendAllCalls_respellList, note_respell, Candidates.ref?_respell hc]
  | abs a calling params body =>
    simp only [respell, analyze, ih body (by simp [children]) hc, note_respell]
  | access a subject accessor =>
    simp only [respell, analyze, ih subject (by simp [children]) hc, note_respell]
  | update a subject fields =>
    have hfields := hfields fields (fun s hs => List.mem_cons_of_mem _ hs) 1
    simp only [respell, analyze, ih subject (by simp [children]) hc, analyzeFields_eq_map, hfields,
      appendAllCalls_respellFields, note_respell]
  | letIn a b value body =>
    simp only [respell, analyze, ih value (by simp [children]) hc,
      ih body (by simp [children]) (c := c.extend [.bound b]) hc, letAnalysis, note_respell,
      arity_respell]
  | letRec a level bindings body =>
    have hc' : (c.extend (groupRefs level bindings)).module = some m := hc
    have hbindings : (respellFields m sel 0 bindings).map (fun x =>
          (x.1, analyze (c.extend (groupRefs level bindings)) x.2)) =
        respellFields m sel 0 (bindings.map fun x =>
          (x.1, analyze (c.extend (groupRefs level bindings)) x.2)) :=
      map_respellFields_comm (fun s hs sel => ih s (List.mem_append_left _ hs) hc' sel) 0
    simp only [respell, analyze, analyzeFields_eq_map, groupRefs_respellFields, hbindings,
      List.length_map, ih body (by simp [children]) hc', letRecAnalysis, verdict_respellFields,
      appendAllCalls_respellFields, note_respell]
  | bindEffect a b effect body =>
    simp only [respell, analyze, ih effect (by simp [children]) hc, ih body (by simp [children]) hc,
      note_respell]
  | pureEffect a value =>
    simp only [respell, analyze, ih value (by simp [children]) hc, note_respell]
  | deferEffect a effect =>
    simp only [respell, analyze, ih effect (by simp [children]) hc, note_respell]
  | branch a arms default =>
    have harms : (respellArms m sel 0 arms).map (fun arm => (analyze c arm.1, analyze c arm.2)) =
        respellArms m sel 0 (arms.map fun arm => (analyze c arm.1, analyze c arm.2)) :=
      map_respellArms_comm (fun s hs sel => ih s (List.mem_append_left _ hs) hc sel) 0
    simp only [respell, analyze, analyzeArms_eq_map, harms, List.length_map,
      ih default (by simp [children]) hc, armsAnalysis_respellArms, note_respell]
  | test a subject guard =>
    simp only [respell, analyze, ih subject (by simp [children]) hc, note_respell]
  | unary a op operand =>
    simp only [respell, analyze, ih operand (by simp [children]) hc, note_respell]
  | binary a op left right =>
    simp only [respell, analyze, ih left (by simp [children]) hc, ih right (by simp [children]) hc,
      note_respell]

/-! ## Reports -/

/-- `reportsList` goes through `ts` one by one. -/
theorem reportsList_eq_flatMap (ts : List Analyzed) :
    reportsList ts = (ts.map Term.reports).flatten := by
  induction ts with
  | nil => rfl
  | cons t rest ih => rw [reportsList, ih, List.map_cons, List.flatten_cons]

/-- `reportsFields` goes through `fields` one by one. -/
theorem reportsFields_eq_flatMap (fields : List (String × Analyzed)) :
    reportsFields fields = (fields.map fun x => x.2.reports).flatten := by
  induction fields with
  | nil => rfl
  | cons x rest ih => rw [reportsFields, ih, List.map_cons, List.flatten_cons]

/-- `reportsArms` goes through `arms` one by one, conditions first. -/
theorem reportsArms_eq_flatMap (arms : List (Analyzed × Analyzed)) :
    reportsArms arms = (arms.map fun arm => arm.1.reports ++ arm.2.reports).flatten := by
  induction arms with
  | nil => rfl
  | cons arm rest ih =>
    rw [reportsArms, ih, List.map_cons, List.flatten_cons, List.append_assoc]

/-- The reports on `fields` do not depend on the spelling, if those on each term do not. -/
theorem reportsFields_respellFields {fields : List (String × Analyzed)}
    (h : ∀ s ∈ fields.map Prod.snd, ∀ sel, (s.respell m sel).reports = s.reports) (i : Nat) :
    reportsFields (respellFields m sel i fields) = reportsFields fields := by
  rw [reportsFields_eq_flatMap, reportsFields_eq_flatMap]
  exact congrArg List.flatten
    (map_respellFields (fun x hx sel => h x.2 (List.mem_map.2 ⟨x, hx, rfl⟩) sel) i)

/-- The reports on `t` do not depend on the spelling. -/
theorem reports_respell (sel : List Nat → Bool) (t : Analyzed) :
    (t.respell m sel).reports = t.reports := by
  induction t using children_induction generalizing sel with
  | step t ih =>
  have hfields (fields : List (String × Analyzed))
      (hmem : ∀ s ∈ fields.map Prod.snd, s ∈ t.children) (i : Nat) :
      reportsFields (respellFields m sel i fields) = reportsFields fields :=
    reportsFields_respellFields (fun s hs sel => ih s (hmem s hs) sel) i
  have hlist (ts : List Analyzed) (hmem : ∀ s ∈ ts, s ∈ t.children) (i : Nat) :
      reportsList (respellList m sel i ts) = reportsList ts := by
    rw [reportsList_eq_flatMap, reportsList_eq_flatMap]
    exact congrArg List.flatten (map_respellList (fun s hs sel => ih s (hmem s hs) sel) i)
  cases t with
  | global | bound | lit | constructor | undefined | fail => rfl
  | array a items => simp only [respell, reports, hlist items fun _ hs => hs]
  | record a fields | construct a type tag fields =>
    simp only [respell, reports, hfields fields fun _ hs => hs]
  | app a calling head args =>
    simp only [respell, reports, ih head (by simp [children]),
      hlist args fun _ hs => List.mem_cons_of_mem _ hs]
  | update a subject fields =>
    simp only [respell, reports, ih subject (by simp [children]),
      hfields fields fun _ hs => List.mem_cons_of_mem _ hs]
  -- what a binding reports depends on notes and arities, and these do not see the spelling
  | letIn a b value body =>
    simp only [respell, reports, ih value (by simp [children]), ih body (by simp [children]),
      joinReports, note_respell, arity_respell]
  | letRec a level bindings body =>
    simp only [respell, reports, hfields bindings fun _ hs => List.mem_append_left _ hs,
      ih body (by simp [children]), groupRefs_respellFields, verdict_respellFields]
  | bindEffect a b left right =>
    simp only [respell, reports, ih left (by simp [children]), ih right (by simp [children])]
  | binary a op left right =>
    simp only [respell, reports, ih left (by simp [children]), ih right (by simp [children])]
  | branch a arms default =>
    have harms : reportsArms (respellArms m sel 0 arms) = reportsArms arms := by
      rw [reportsArms_eq_flatMap, reportsArms_eq_flatMap]
      refine congrArg List.flatten (map_respellArms (fun arm harm sel sel' => ?_) 0)
      have hmem (s : Analyzed) (hs : s ∈ [arm.1, arm.2]) : s ∈ (branch a arms default).children :=
        List.mem_append_left _ (List.mem_flatMap.2 ⟨arm, harm, hs⟩)
      rw [ih arm.1 (hmem _ (by simp)), ih arm.2 (hmem _ (by simp))]
    simp only [respell, reports, harms, ih default (by simp [children])]
  | abs _ _ _ s | access _ s _ | pureEffect _ s | deferEffect _ s | test _ s _ | unary _ _ s =>
    simp only [respell, reports, ih s (by simp [children])]

/-! ## Lowering -/

namespace Lower

/-- `globalExpr` writes both spellings of a name the same. -/
theorem globalExpr_respell (c : Context) (q : Qualified) :
    globalExpr c (q.respell c.name) = globalExpr c q := by
  obtain ⟨module, ident⟩ := q
  cases module with
  | none =>
    simp only [Qualified.respell, globalExpr, Context.isLocal, decide_true]
    rfl
  | some n =>
    by_cases hn : n = c.name
    · simp [Qualified.respell, globalExpr, Context.isLocal, hn]
    · simp [Qualified.respell, hn]

/-- `all`: steps one after the other. -/
theorem armsSimple_eq_all (arms : List (Term α × Term α)) :
    armsSimple arms = (arms.map fun arm => isSimple arm.2).all id := by
  induction arms with
  | nil => rfl
  | cons arm rest ih => rw [armsSimple, ih, List.map_cons, List.all_cons, id]

/-- Whether `t` is simple does not depend on the spelling. -/
theorem isSimple_respell (sel : List Nat → Bool) (t : Term α) :
    isSimple (t.respell m sel) = isSimple t := by
  induction t using children_induction generalizing sel with
  | step t ih =>
  cases t with
  | branch a arms default =>
    have harms : armsSimple (respellArms m sel 0 arms) = armsSimple arms := by
      rw [armsSimple_eq_all, armsSimple_eq_all]
      refine congrArg (List.all · id) (map_respellArms (fun arm harm sel sel' =>
        ih arm.2 ?_ sel') 0)
      exact List.mem_append_left _ (List.mem_flatMap.2 ⟨arm, harm, by simp⟩)
    simp only [respell, isSimple, harms, ih default (by simp [children])]
  | _ => rfl

/-- `code` lowers a respelled term like `t` itself. -/
theorem code_respell (c : Context) (sel : List Nat → Bool) (t : Analyzed) :
    code c (t.respell c.name sel) = code c t := by
  induction t using children_induction generalizing sel with
  | step t ih =>
  have hlist (ts : List Analyzed) (hmem : ∀ s ∈ ts, s ∈ t.children) (i : Nat) :
      valueCodes c (respellList c.name sel i ts) = valueCodes c ts := by
    rw [valueCodes_eq_map, valueCodes_eq_map]
    exact map_respellList (fun s hs sel => congrArg Code.value (ih s (hmem s hs) sel)) i
  have hfields (fields : List (String × Analyzed))
      (hmem : ∀ s ∈ fields.map Prod.snd, s ∈ t.children) (i : Nat) :
      fieldCodes c (respellFields c.name sel i fields) = fieldCodes c fields := by
    rw [fieldCodes_eq_map, fieldCodes_eq_map]
    refine map_respellFields (fun x hx sel => ?_) i
    rw [ih x.2 (hmem _ (List.mem_map.2 ⟨x, hx, rfl⟩))]
  cases t with
  | global a q =>
    rw [respell, code, code]
    split
    · rw [globalExpr_respell]
    · rfl
  | bound | lit | constructor | undefined | fail => rfl
  | array a items => simp only [respell, code, hlist items fun _ hs => hs]
  | record a fields | construct a type tag fields =>
    simp only [respell, code, hfields fields fun _ hs => hs]
  | app a calling head args =>
    have hhead := ih head (by simp [children]) fun p => sel (0 :: p)
    have hargs := hlist args (fun _ hs => List.mem_cons_of_mem _ hs) 1
    cases calling with
    | curried => simp only [respell, code, hhead, hargs, ref?_respell]
    | uncurried | effectful => simp only [respell, code, hhead, hargs]
  | abs a calling params body =>
    cases calling <;> simp only [respell, code, ih body (by simp [children])]
  | update a subject fields =>
    simp only [respell, code, ih subject (by simp [children]),
      hfields fields fun _ hs => List.mem_cons_of_mem _ hs]
  | letRec a level bindings body =>
    have hcodes : bindingCodes c (respellFields c.name sel 0 bindings) =
        bindingCodes c bindings := by
      rw [bindingCodes_eq_map, bindingCodes_eq_map]
      refine map_respellFields (fun x hx sel => ih x.2 ?_ sel) 0
      exact List.mem_append_left _ (List.mem_map.2 ⟨x, hx, rfl⟩)
    have hbinders : (respellFields c.name sel 0 bindings).map
      (fun b => (⟨some b.1, level⟩ : Binder)) =
        bindings.map fun b => ⟨some b.1, level⟩ := map_respellFields (fun _ _ _ => rfl) 0
    have hall (fields : List (String × Analyzed)) : (fields.all fun b => isFunction b.2) =
        (fields.map fun b => isFunction b.2).all id := by
      rw [List.all_map]
      rfl
    -- whether a binding is a function decides between constants and variables
    have hfunctions : (respellFields c.name sel 0 bindings).all (fun b => isFunction b.2) =
        bindings.all fun b => isFunction b.2 := by
      rw [hall, hall]
      exact congrArg (List.all · id) (map_respellFields (fun x _ _ => isFunction_respell x.2) 0)
    simp only [respell, code, hcodes, hbinders, hfunctions, groupRefs_respellFields,
      ih body (by simp [children])]
  | letIn a b left right =>
    simp only [respell, code, ih left (by simp [children]), ih right (by simp [children])]
  | bindEffect a b left right =>
    simp only [respell, code, ih left (by simp [children]), ih right (by simp [children])]
  | binary a op left right =>
    simp only [respell, code, ih left (by simp [children]), ih right (by simp [children])]
  | branch a arms default =>
    have harms : armCodes c (respellArms c.name sel 0 arms) = armCodes c arms := by
      rw [armCodes_eq_map, armCodes_eq_map]
      refine map_respellArms (fun arm harm sel sel' => ?_) 0
      have hmem (s : Analyzed) (hs : s ∈ [arm.1, arm.2]) : s ∈ (branch a arms default).children :=
        List.mem_append_left _ (List.mem_flatMap.2 ⟨arm, harm, hs⟩)
      rw [ih arm.1 (hmem _ (by simp)), ih arm.2 (hmem _ (by simp))]
    have hsimple := isSimple_respell (m := c.name) sel (branch a arms default)
    rw [respell, isSimple, isSimple] at hsimple
    simp only [respell, code, harms, hsimple, ih default (by simp [children])]
  | access _ s _ | pureEffect _ s | deferEffect _ s | test _ s _ | unary _ _ s =>
    simp only [respell, code, ih s (by simp [children])]

end Lower

/-! ## Units -/

/-- The group where own names at the positions in `sel` are spelled the other way; a position starts
with the number of the binding. -/
def BindingGroup.respell (m : String) (sel : List Nat → Bool) (g : BindingGroup) : BindingGroup :=
  { g with bindings := respellFields m sel 0 g.bindings }

/-- The unit where own names at the positions in `sel` are spelled the other way; a position starts
with the numbers of the group and of the binding. -/
def CompilationUnit.respell (u : CompilationUnit) (sel : List Nat → Bool) : CompilationUnit :=
  { u with groups := u.groups.mapIdx fun i g => g.respell u.name fun p => sel (i :: p) }

/-- What the analysis says about the group `g`: its decision, and for each binding the summaries of
all nodes in order. -/
def AnalyzedGroup.findings (g : AnalyzedGroup) : Verdict × List (String × List Analysis) :=
  (g.verdict, g.bindings.map fun b => (b.1, b.2.subterms.map note))

/-- The children `us` are numbered behind `ts`. -/
theorem Term.respellList_append (sel : List Nat → Bool) (i : Nat) (ts us : List (Term α)) :
    respellList m sel i (ts ++ us) =
      respellList m sel i ts ++ respellList m sel (i + ts.length) us := by
  induction ts generalizing i with
  | nil => rfl
  | cons t rest ih =>
    rw [List.cons_append, respellList, ih, List.length_cons, Nat.add_right_comm, respellList,
      List.cons_append]
    rfl

/-- The terms of respelled `fields` are respelled in order. -/
theorem Term.map_snd_respellFields (sel : List Nat → Bool) (i : Nat)
    (fields : List (String × Term α)) :
    (respellFields m sel i fields).map Prod.snd = respellList m sel i (fields.map Prod.snd) := by
  induction fields generalizing i with
  | nil => rfl
  | cons x rest ih => rw [respellFields, List.map_cons, ih, List.map_cons, respellList]

/-- The parts of respelled `arms` are respelled in order. -/
theorem Term.flatMap_respellArms (sel : List Nat → Bool) (i : Nat)
    (arms : List (Term α × Term α)) :
    (respellArms m sel i arms).flatMap (fun arm => [arm.1, arm.2]) =
      respellList m sel i (arms.flatMap fun arm => [arm.1, arm.2]) := by
  induction arms generalizing i with
  | nil => rfl
  | cons arm rest ih => simp only [respellArms, List.flatMap_cons, ih, List.cons_append,
      List.nil_append, respellList]

/-- The children of a respelled node are respelled in order. -/
theorem Term.children_respell (sel : List Nat → Bool) (t : Term α) :
    (t.respell m sel).children = respellList m sel 0 t.children := by
  cases t with
  | record | construct => exact map_snd_respellFields sel 0 _
  | update a subject fields =>
    rw [respell, children, children, map_snd_respellFields, respellList]
  | letRec a level bindings body =>
    rw [respell, children, children, map_snd_respellFields, respellList_append, Nat.zero_add,
      List.length_map]
    rfl
  | branch a arms default =>
    rw [respell, children, children, flatMap_respellArms, respellList_append, Nat.zero_add,
      length_flatMap_arms]
    rfl
  | _ => rfl

/-- `respell` keeps the notes of all nodes. -/
theorem Term.notes_respell (sel : List Nat → Bool) (t : Term α) :
    (t.respell m sel).subterms.map note = t.subterms.map note := by
  induction t using children_induction generalizing sel with
  | step t ih =>
  have hchildren : (respellList m sel 0 t.children).map (fun s => s.subterms.map note) =
      t.children.map fun s => s.subterms.map note := map_respellList ih 0
  rw [subterms_eq, subterms_eq, List.map_cons, List.map_cons, note_respell, children_respell,
    List.map_flatMap, List.map_flatMap, List.flatMap_def, List.flatMap_def, hchildren]

/-- The analysis of a group commutes with `respell`. -/
theorem analyze_respell_group (m : String) (sel : List Nat → Bool) (g : BindingGroup) :
    (g.respell m sel).analyze m =
      { g.analyze m with bindings := respellFields m sel 0 (g.analyze m).bindings } := by
  have hrefs : topRefs m (respellFields m sel 0 g.bindings) = topRefs m g.bindings :=
    map_respellFields (fun _ _ _ => rfl) 0
  have hbindings (c : Candidates) (hc : c.module = some m) :
      analyzeFields c (respellFields m sel 0 g.bindings) =
        respellFields m sel 0 (analyzeFields c g.bindings) := by
    rw [analyzeFields_eq_map, analyzeFields_eq_map]
    exact map_respellFields_comm (fun t _ sel => analyze_respell hc sel t) 0
  simp only [BindingGroup.analyze, BindingGroup.respell, hrefs, hbindings, verdict_respellFields]

/-- `group` lowers a respelled group like `g` itself. -/
theorem Lower.group_respell (c : Context) (sel : List Nat → Bool) (g : AnalyzedGroup) :
    group c { g with bindings := respellFields c.name sel 0 g.bindings } = group c g := by
  have hcodes : bindingCodes c (respellFields c.name sel 0 g.bindings) =
      bindingCodes c g.bindings := by
    rw [bindingCodes_eq_map, bindingCodes_eq_map]
    exact map_respellFields (fun x _ sel => code_respell c sel x.2) 0
  have hidents : (respellFields c.name sel 0 g.bindings).map Prod.fst = g.bindings.map Prod.fst :=
    map_respellFields (fun _ _ _ => rfl) 0
  have hrefs : topRefs c.name (respellFields c.name sel 0 g.bindings) = topRefs c.name g.bindings :=
    map_respellFields (fun _ _ _ => rfl) 0
  have hbindings : (respellFields c.name sel 0 g.bindings).map (fun b => binding c b.1 b.2) =
      g.bindings.map fun b => binding c b.1 b.2 :=
    map_respellFields (fun x _ sel => by rw [binding, code_respell, ← binding]) 0
  simp only [group, AnalyzedGroup.isLoop, topMembers?, hcodes, hidents, hrefs, hbindings,
    groupDispatcher?_eq]

/-- If `f` does not depend on the spelling of a group, it does not on that of `gs`. -/
theorem map_respellGroups {β : Type} {f : BindingGroup → β} (h : ∀ sel g, f (g.respell m sel) = f g)
    (sel : List Nat → Bool) (gs : List BindingGroup) :
    (gs.mapIdx fun i g => g.respell m fun p => sel (i :: p)).map f = gs.map f := by
  refine List.ext_getElem (by simp) fun i _ _ => ?_
  simp only [List.getElem_map, List.getElem_mapIdx, h]

/-- The name of the shared function comes from the names of the bindings, not from their terms. -/
theorem Lower.Context.addGroup_respell (c : Context) (sel : List Nat → Bool) (g : BindingGroup) :
    c.addGroup (g.respell m sel) = c.addGroup g := by
  have hnames : (g.respell m sel).bindings.map Prod.fst = g.bindings.map Prod.fst :=
    map_respellFields (fun _ _ _ => rfl) 0
  simp only [addGroup, mutualMembers, hnames]
  rfl

/-- A respelled unit has the same context. -/
theorem Lower.Context.ofUnit_respell (u : CompilationUnit) (sel : List Nat → Bool) (loops : Bool) :
    ofUnit (u.respell sel) loops = ofUnit u loops := by
  have hfold (gs : List BindingGroup) (sels : Nat → List Nat → Bool) (c : Context) :
      (gs.mapIdx fun i g => g.respell u.name (sels i)).foldl addGroup c =
        gs.foldl addGroup c := by
    induction gs generalizing c sels with
    | nil => rfl
    | cons g rest ih =>
      rw [List.mapIdx_cons, List.foldl_cons, List.foldl_cons, addGroup_respell]
      exact ih (fun i => sels (i + 1)) _
  have hnames : (u.respell sel).bindings.map Prod.fst = u.bindings.map Prod.fst := by
    have hgroups := map_respellGroups (f := fun g => g.bindings.map Prod.fst) (m := u.name)
      (fun sel g => map_respellFields (fun _ _ _ => rfl) 0) sel u.groups
    rw [CompilationUnit.bindings, CompilationUnit.bindings, List.map_flatMap, List.map_flatMap,
      List.flatMap_def, List.flatMap_def]
    exact congrArg List.flatten hgroups
  rw [ofUnit, ofUnit, hnames]
  exact hfold u.groups (fun i p => sel (i :: p)) _

/-- A unit can spell its own names with or without its own name in front, at each place as it likes.
The script it is lowered to is the same, with and without loops, and so are the reports, the
decision of the analysis on every group and the summary of every node. -/
theorem module_respell (u : CompilationUnit) (sel : List Nat → Bool) :
    (∀ loops, Lower.module (u.respell sel) loops = Lower.module u loops) ∧
      (u.respell sel).analyze.map AnalyzedGroup.findings =
        u.analyze.map AnalyzedGroup.findings := by
  -- whatever is read off an analysed group and does not see the spelling is the same for the unit
  have hanalyze {β : Type} {f : AnalyzedGroup → β} (h : ∀ g sel,
      f { g with bindings := respellFields u.name sel 0 g.bindings } = f g) :
      (u.respell sel).analyze.map f = u.analyze.map f := by
    rw [CompilationUnit.analyze, CompilationUnit.analyze, List.map_map, List.map_map]
    refine map_respellGroups (fun sel g => ?_) sel u.groups
    exact (congrArg f (analyze_respell_group u.name sel g)).trans (h _ sel)
  constructor
  · intro loops
    obtain ⟨hname, -, -⟩ := Lower.Context.ofUnit_fields u loops
    have hgroups := hanalyze (f := Lower.group (.ofUnit u loops)) fun g sel => by
      rw [← hname, Lower.group_respell]
    have hreports : (u.respell sel).analyze.map (AnalyzedGroup.reports (u.respell sel).name) =
        u.analyze.map (AnalyzedGroup.reports u.name) := hanalyze fun g sel => by
      have hrefs : topRefs u.name (respellFields u.name sel 0 g.bindings) =
          topRefs u.name g.bindings := map_respellFields (fun _ _ _ => rfl) 0
      show AnalyzedGroup.reports u.name _ = AnalyzedGroup.reports u.name g
      simp only [AnalyzedGroup.reports, hrefs,
        reportsFields_respellFields fun s _ sel => reports_respell sel s]
    have hcontext := Lower.Context.ofUnit_respell u sel loops
    simp only [Lower.module, hcontext, hgroups, List.flatMap_def, hreports]
    rfl
  · refine hanalyze fun g sel => ?_
    have hnotes : (respellFields u.name sel 0 g.bindings).map
      (fun b => (b.1, b.2.subterms.map note)) =
        g.bindings.map fun b => (b.1, b.2.subterms.map note) :=
      map_respellFields (fun x _ sel => by rw [notes_respell]) 0
    simp only [AnalyzedGroup.findings, hnotes]

end TailLoop

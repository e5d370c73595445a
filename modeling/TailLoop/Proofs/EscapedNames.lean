import TailLoop.Proofs.ModuleNames
import TailLoop.Proofs.NameSupply
import TailLoop.Script.Ident

/-!
# Names as they are written

The name supply keeps names apart before they are escaped. Escaping is not injective: both `x'` and
`x$p` are written `x$p`, both `class` and `$$class` are written `$$class`. A name without the marks
that escaping leaves can be read back from its text. The names of a source unit have none, and none
arise where they are continued to aliases, labels and candidates.

* `unescapeIdent_escapeIdent`: names without marks can be read back.
* `isUnmarked_reserved`: the names at module scope have no marks.
* `printed_names_apart`: different names are written differently.
-/

namespace TailLoop

/-- `digitsText n` has digits only. -/
theorem Decimal.isDigit_of_mem_digitsText {n : Nat} {c : Char} (h : c ∈ (digitsText n).toList) :
    c.isDigit = true := by
  rw [digitsText, String.toList_ofList] at h
  exact Nat.isDigit_of_mem_toDigits (by decide) (by decide) h

namespace Script

/-! ## Marks -/

/-- Whether a `$` is followed by a `p`, as it is where a prime was. -/
def hasMark : List Char → Bool
  | [] => false
  | c :: rest => (c == '$' && rest.head? == some 'p') || hasMark rest

/-- The characters do not begin like what a reserved word or a prime becomes. -/
def startsUnmarked : List Char → Bool
  | [] => true
  | ['$'] => false
  | '$' :: c :: _ => c != '$' && c != '\x27'
  | c :: _ => c != '\x27'

/-- `name` has none of the marks that escaping leaves. -/
def isUnmarked (name : String) : Bool := startsUnmarked name.toList && !hasMark name.toList.tail

/-- `isUnmarked` is about the beginning of `name` and about what follows its first character. -/
theorem isUnmarked_iff {name : String} :
    isUnmarked name = true ↔
      startsUnmarked name.toList = true ∧ hasMark name.toList.tail = false := by
  rw [isUnmarked, Bool.and_eq_true, Bool.not_eq_true']

/-- There is no mark without a dollar sign. -/
theorem hasMark_of_dollar_notMem {cs : List Char} (h : '$' ∉ cs) : hasMark cs = false := by
  induction cs with
  | nil => rfl
  | cons c rest ih =>
    obtain ⟨hc, hrest⟩ := not_or.1 (mt List.mem_cons.2 h)
    simp [hasMark, Ne.symm hc, ih hrest]

/-- No mark arises where a text is continued by anything but a `p`. -/
theorem hasMark_append {xs ys : List Char} (hxs : hasMark xs = false) (hys : hasMark ys = false)
    (hp : ys.head? ≠ some 'p') : hasMark (xs ++ ys) = false := by
  induction xs with
  | nil => exact hys
  | cons c rest ih =>
    obtain ⟨hc, hrest⟩ := Bool.or_eq_false_iff.1 hxs
    rw [List.cons_append, hasMark, ih hrest, Bool.or_false]
    cases rest with
    | nil => simp [hp]
    | cons d rest => exact hc

/-- What follows `xs`, unless this is empty, does not change how a name starts. -/
theorem startsUnmarked_append {xs : List Char} (h : startsUnmarked xs = true) (hne : xs ≠ [])
    (ys : List Char) : startsUnmarked (xs ++ ys) = true := by
  unfold startsUnmarked at h
  split at h
  · exact absurd rfl hne
  · cases h
  · exact h
  · rename_i c rest hsingle hdollar
    have hc : c ≠ '$' := by
      rintro rfl
      cases rest with
      | nil => exact hsingle rfl rfl
      | cons d rest => exact hdollar d rest rfl rfl
    rw [List.cons_append, startsUnmarked.eq_def]
    split <;> simp_all

/-- A name without marks has none after it is continued by anything but a `p`. -/
theorem isUnmarked_append {start text : String} (h : isUnmarked start = true) (hne : start ≠ "")
    (htext : hasMark text.toList = false) (hp : text.toList.head? ≠ some 'p') :
    isUnmarked (start ++ text) = true := by
  obtain ⟨hstart, hmark⟩ := isUnmarked_iff.1 h
  have hne : start.toList ≠ [] := fun hnil => hne (String.toList_eq_nil_iff.1 hnil)
  rw [isUnmarked_iff, String.toList_append, List.tail_append_of_ne_nil hne]
  exact ⟨startsUnmarked_append hstart hne _, hasMark_append hmark htext hp⟩

/-! ## Reading names back -/

/-- Replaces `$p` by a prime. -/
def unescapeChars : List Char → List Char
  | [] => []
  | '$' :: 'p' :: rest => '\x27' :: unescapeChars rest
  | c :: rest => c :: unescapeChars rest

/-- The name that is written as `text`, if it has no marks. -/
def unescapeIdent (text : String) : String :=
  match text.toList with
  | [] => ""
  | '$' :: '$' :: word => String.ofList word
  | c :: rest => String.ofList (c :: unescapeChars rest)

/-- A character `c` that does not start a mark is read as it is. -/
theorem unescapeChars_cons {c : Char} {rest : List Char} (h : c = '$' → rest.head? ≠ some 'p') :
    unescapeChars (c :: rest) = c :: unescapeChars rest := by
  rw [unescapeChars.eq_def]
  split
  · contradiction
  · rename_i heq
    obtain ⟨rfl, rfl⟩ := List.cons.inj heq
    exact absurd rfl (h rfl)
  · rename_i heq
    obtain ⟨rfl, rfl⟩ := List.cons.inj heq
    rfl

/-- `escapeChar` keeps every character but a prime. -/
theorem flatMap_escapeChar_cons {c : Char} (h : c ≠ '\x27') (cs : List Char) :
    (c :: cs).flatMap escapeChar = c :: cs.flatMap escapeChar := by
  rw [List.flatMap_cons, escapeChar, if_neg h, List.singleton_append]

/-- The first character of an escaped text is that of `cs`, or the dollar sign of a prime. -/
theorem head?_flatMap_escapeChar (cs : List Char) :
    (cs.flatMap escapeChar).head? = cs.head?.map fun c => if c = '\x27' then '$' else c := by
  cases cs with
  | nil => rfl
  | cons c rest =>
    rw [List.flatMap_cons, escapeChar]
    split <;> simp_all

/-- Characters without marks are read back. -/
theorem unescapeChars_flatMap {cs : List Char} (h : hasMark cs = false) :
    unescapeChars (cs.flatMap escapeChar) = cs := by
  induction cs with
  | nil => rfl
  | cons c rest ih =>
    obtain ⟨hc, hrest⟩ := Bool.or_eq_false_iff.1 h
    by_cases hprime : c = '\x27'
    · subst hprime
      exact congrArg ('\x27' :: ·) (ih hrest)
    · rw [flatMap_escapeChar_cons hprime, unescapeChars_cons, ih hrest]
      -- A `p` after a dollar sign would be one of the name, since escaping starts with `$`.
      rintro rfl hp
      rw [head?_flatMap_escapeChar] at hp
      obtain ⟨d, hd, hdp⟩ := Option.map_eq_some_iff.1 hp
      split at hdp
      · exact absurd hdp (by decide)
      · subst hdp
        simp [hd] at hc

/-- What `startsUnmarked` does not start with a prime. -/
theorem ne_prime_of_startsUnmarked {c : Char} {rest : List Char}
    (h : startsUnmarked (c :: rest) = true) : c ≠ '\x27' := by
  rintro rfl
  cases h

/-- What `startsUnmarked` does not look like a reserved word when it is written. -/
theorem flatMap_escapeChar_ne {cs word : List Char} (h : startsUnmarked cs = true) :
    cs.flatMap escapeChar ≠ '$' :: '$' :: word := by
  intro heq
  cases cs with
  | nil => cases heq
  | cons c rest =>
    rw [flatMap_escapeChar_cons (ne_prime_of_startsUnmarked h)] at heq
    obtain ⟨rfl, hrest⟩ := List.cons.inj heq
    cases rest with
    | nil => cases hrest
    | cons d rest =>
      simp only [startsUnmarked, Bool.and_eq_true, bne_iff_ne] at h
      rw [flatMap_escapeChar_cons h.2] at hrest
      exact h.1 (List.cons.inj hrest).1

/-- If `name` has no marks, it is read back from its text. -/
theorem unescapeIdent_escapeIdent {name : String} (h : isUnmarked name = true) :
    unescapeIdent (escapeIdent name) = name := by
  obtain ⟨hstart, hmark⟩ := isUnmarked_iff.1 h
  unfold escapeIdent
  split
  · rw [unescapeIdent, String.toList_append]
    exact String.ofList_toList
  · refine String.toList_inj.1 ?_
    rw [unescapeIdent, String.toList_ofList]
    generalize name.toList = cs at *
    split
    · rename_i heq
      cases cs with
      | nil => rfl
      | cons c rest =>
        rw [flatMap_escapeChar_cons (ne_prime_of_startsUnmarked hstart)] at heq
        cases heq
    · rename_i heq
      exact absurd heq (flatMap_escapeChar_ne hstart)
    · rename_i c text _ heq
      rw [String.toList_ofList]
      cases cs with
      | nil => cases heq
      | cons c' rest =>
        rw [flatMap_escapeChar_cons (ne_prime_of_startsUnmarked hstart)] at heq
        obtain ⟨rfl, rfl⟩ := List.cons.inj heq
        exact congrArg (c' :: ·) (unescapeChars_flatMap hmark)

end Script

/-! ## Names of the source language -/

/-- A name as the source language has it: it has no dollar sign and does not start with a prime. -/
structure IsSourceName (name : String) : Prop where
  /-- The name is not empty. -/
  ne_empty : name ≠ ""
  /-- There is no dollar sign. -/
  dollar : '$' ∉ name.toList
  /-- The first character is not a prime. -/
  prime : name.toList.head? ≠ some '\x27'

namespace IsSourceName

open Script

variable {name : String}

/-- The first character of the name, and the rest. -/
theorem exists_cons (h : IsSourceName name) :
    ∃ c rest, name.toList = c :: rest ∧ c ≠ '$' ∧ c ≠ '\x27' ∧ '$' ∉ rest := by
  cases hname : name.toList with
  | nil => exact absurd (String.toList_eq_nil_iff.1 hname) h.ne_empty
  | cons c rest =>
    have hdollar := h.dollar
    rw [hname, List.mem_cons, not_or] at hdollar
    have hprime := h.prime
    rw [hname, List.head?_cons] at hprime
    exact ⟨c, rest, rfl, Ne.symm hdollar.1, fun hc => hprime (hc ▸ rfl), hdollar.2⟩

/-- A name of the source language has no marks. -/
theorem isUnmarked (h : IsSourceName name) : isUnmarked name = true := by
  obtain ⟨c, rest, hname, hdollar, hprime, hrest⟩ := h.exists_cons
  rw [isUnmarked_iff, hname]
  refine ⟨?_, hasMark_of_dollar_notMem hrest⟩
  rw [startsUnmarked.eq_def]
  split <;> simp_all

/-- It has none after a dollar sign either. -/
theorem isUnmarked_dollar (h : IsSourceName name) : Script.isUnmarked ("$" ++ name) = true := by
  obtain ⟨c, rest, hname, hdollar, hprime, -⟩ := h.exists_cons
  rw [isUnmarked_iff, String.toList_append]
  refine ⟨?_, hasMark_of_dollar_notMem h.dollar⟩
  rw [hname]
  show (c != '$' && c != '\x27') = true
  simp [hdollar, hprime]

/-- `Decimal.digitsText n` could be such a name. -/
theorem digitsText (n : Nat) : IsSourceName (Decimal.digitsText n) := by
  have hdigit {c : Char} (hc : c.isDigit = false) : c ∉ (Decimal.digitsText n).toList := by
    intro hmem
    rw [Decimal.isDigit_of_mem_digitsText hmem] at hc
    cases hc
  refine ⟨fun hempty => ?_, hdigit rfl, fun hhead => hdigit rfl (List.mem_of_mem_head? hhead)⟩
  rw [Decimal.digitsText, ← String.toList_eq_nil_iff, String.toList_ofList] at hempty
  exact Nat.toDigits_ne_nil hempty

/-- If `text` has no dollar sign, it makes another such name behind `name`. -/
theorem append (h : IsSourceName name) {text : String} (htext : '$' ∉ text.toList) :
    IsSourceName (name ++ text) := by
  obtain ⟨c, rest, hname, -, -, -⟩ := h.exists_cons
  refine ⟨fun hempty => h.ne_empty (String.append_eq_empty_iff.1 hempty).1, ?_, ?_⟩
  · rw [String.toList_append, List.mem_append, not_or]
    exact ⟨h.dollar, htext⟩
  · have hprime := h.prime
    rw [hname, List.head?_cons] at hprime
    rwa [String.toList_append, hname, List.cons_append, List.head?_cons]

/-- Several such `names` make another one. -/
theorem intercalate {names : List String} (hne : names ≠ []) (h : ∀ x ∈ names, IsSourceName x) :
    IsSourceName ("_".intercalate names) := by
  induction names with
  | nil => exact absurd rfl hne
  | cons x rest ih =>
    obtain ⟨hx, hrest⟩ := List.forall_mem_cons.1 h
    cases rest with
    | nil => simpa using hx
    | cons y rest =>
      have hrest := ih (List.cons_ne_nil _ _) hrest
      rw [String.intercalate_cons_cons, String.append_assoc]
      refine hx.append ?_
      rw [String.toList_append, List.mem_append, not_or]
      exact ⟨by decide, hrest.dollar⟩

end IsSourceName

namespace Lower

open Script

/-! ## Names that the lowering makes -/

/-- `moduleAlias` has no marks. -/
theorem isUnmarked_moduleAlias {m : String} (h : IsSourceName m) :
    isUnmarked (moduleAlias m) = true := by
  obtain ⟨c, rest, hname, hdollar, hprime, hrest⟩ := h.exists_cons
  have hmark : hasMark (rest.flatMap fun c => if c = '.' then ['$', 'd'] else [c]) = false := by
    clear hname
    induction rest with
    | nil => rfl
    | cons d rest ih =>
      rw [List.mem_cons, not_or] at hrest
      rw [List.flatMap_cons]
      split
      · simp [hasMark, ih hrest.2]
      · simp [hasMark, ih hrest.2, Ne.symm hrest.1]
  rw [isUnmarked_iff, moduleAlias, String.toList_ofList, hname, List.flatMap_cons]
  split
  · exact ⟨rfl, by simpa [hasMark] using hmark⟩
  · refine ⟨startsUnmarked_append ?_ (List.cons_ne_nil _ _) _, hmark⟩
    rw [startsUnmarked.eq_def]
    split <;> simp_all

/-- The candidates for fresh names have no marks if `base` has none. -/
theorem isUnmarked_candidate {base : String} {n : Nat} (h : isUnmarked base = true) :
    isUnmarked (candidate base n) = true := by
  have hdigits := IsSourceName.digitsText n
  have hp : (Decimal.digitsText n).toList.head? ≠ some 'p' := by
    intro hhead
    have hdigit := Decimal.isDigit_of_mem_digitsText (List.mem_of_mem_head? hhead)
    cases hdigit
  unfold candidate
  split
  · exact h
  · by_cases hbase : base = ""
    · -- Then the candidate starts with the dollar sign in front of the digits.
      subst hbase
      exact hdigits.isUnmarked_dollar
    · refine isUnmarked_append (isUnmarked_append h hbase rfl (by decide)) ?_
        (hasMark_of_dollar_notMem hdigits.dollar) hp
      exact fun hempty => hbase (String.append_eq_empty_iff.1 hempty).1

/-! ## Names at module scope -/

/-- All names of `u` are names of the source language. -/
def HasSourceNames (u : CompilationUnit) : Prop :=
  ∀ name ∈ u.imports ++ u.foreignNames ++ u.bindings.map Prod.fst, IsSourceName name

/-- `mutualMembers` are the bindings of a group, if it has some. -/
theorem Context.mutualMembers_eq_some {g : BindingGroup} {first : String} {members : List String}
    (h : mutualMembers g = some (first, members)) :
    members = g.bindings.map Prod.fst ∧ members ≠ [] := by
  unfold mutualMembers at h
  split at h
  · rename_i hbindings
    split at h
    · obtain ⟨rfl, rfl⟩ := Prod.mk.inj (Option.some.inj h)
      exact ⟨hbindings.symm, List.cons_ne_nil _ _⟩
    · cases h
  · cases h

/-- The name of the shared function of `g` has no marks. -/
theorem Context.isUnmarked_addGroup {c : Context} (h : ∀ x ∈ c.reserved, isUnmarked x = true)
    {g : BindingGroup} (hg : ∀ x ∈ g.bindings.map Prod.fst, IsSourceName x) :
    ∀ x ∈ (c.addGroup g).reserved, isUnmarked x = true := by
  unfold addGroup
  split
  · exact h
  · rename_i first members hmembers
    obtain ⟨rfl, hne⟩ := mutualMembers_eq_some hmembers
    intro x hx
    rcases List.mem_append.1 hx with hx | hx
    · exact h x hx
    · rw [List.mem_singleton.1 hx]
      exact isUnmarked_candidate (IsSourceName.intercalate hne hg).isUnmarked_dollar

/-- No name that is reserved for `u` has marks. -/
theorem isUnmarked_reserved {u : CompilationUnit} (h : HasSourceNames u) (loops : Bool) :
    ∀ x ∈ (Context.ofUnit u loops).reserved, isUnmarked x = true := by
  have hfold (gs : List BindingGroup) (hgs : ∀ g ∈ gs, g ∈ u.groups) (c : Context)
      (hc : ∀ x ∈ c.reserved, isUnmarked x = true) :
      ∀ x ∈ (gs.foldl Context.addGroup c).reserved, isUnmarked x = true := by
    induction gs generalizing c with
    | nil => exact hc
    | cons g rest ih =>
      obtain ⟨hg, hrest⟩ := List.forall_mem_cons.1 hgs
      refine ih hrest _ (Context.isUnmarked_addGroup hc fun x hx => h x ?_)
      obtain ⟨b, hb, rfl⟩ := List.mem_map.1 hx
      exact List.mem_append_right _ (List.mem_map_of_mem (List.mem_flatMap.2 ⟨g, hg, hb⟩))
  refine hfold u.groups (fun _ hg => hg) _ fun x hx => ?_
  rcases List.mem_cons.1 hx with rfl | hx
  · decide
  · simp only [List.mem_append] at hx
    rcases hx with (hx | hx) | hx
    · obtain ⟨m, hm, rfl⟩ := List.mem_map.1 hx
      exact isUnmarked_moduleAlias (h m (by simp [hm]))
    · exact (h x (by simp [hx])).isUnmarked
    · exact (h x (List.mem_append_right _ hx)).isUnmarked

/-- Different names, be they names of the module or given while a binding is lowered, are written
differently, if `u` has names of the source language and no name with marks is asked for. -/
theorem printed_names_apart {u : CompilationUnit} (hu : HasSourceNames u) (loops : Bool)
    {requests : List NameRequest}
    (hrequests : ∀ r ∈ requests, ∀ base, r.base? = some base → isUnmarked base = true) :
    let c := Context.ofUnit u loops
    Set.InjOn escapeIdent
      {x | x ∈ c.reserved ∨ x ∈ suppliedNames ((Env.ofContext c).answers requests)} := by
  intro c
  have hunmarked {x : String}
      (hx : x ∈ c.reserved ∨ x ∈ suppliedNames ((Env.ofContext c).answers requests)) :
      isUnmarked x = true := by
    rcases hx with hx | hx
    · exact isUnmarked_reserved hu loops x hx
    · obtain ⟨r, hr, base, n, hbase, rfl⟩ := Env.exists_of_mem_suppliedNames hx
      exact isUnmarked_candidate (hrequests r hr base hbase)
  exact Set.LeftInvOn.injOn fun x hx => unescapeIdent_escapeIdent (hunmarked hx)

/-- A unit with a binding that has a mark in its name, and a function that refers to it and whose
parameter has a prime there. -/
def primedUnit : CompilationUnit :=
  { CompilationUnit.empty "Main" with
    groups := [⟨false, [("x$p", .lit () (.int 5))]⟩,
      ⟨false, [("f", .abs () .curried [⟨some "x\x27", 0⟩] (.global () ⟨none, "x$p"⟩))]⟩] }

/-- The names differ, but they are written alike, so that the parameter captures the reference. -/
theorem name_captured_primedUnit :
    (Lower.module primedUnit true).result.declarations =
        [.const "x$p" (.int 5), .const "f" (.curried ["x\x27"] [.ret (.ident "x$p")])] ∧
      escapeIdent "x\x27" = escapeIdent "x$p" :=
  ⟨rfl, by decide⟩

end Lower

end TailLoop

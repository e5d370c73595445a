import TailLoop.Proofs.Decoding
import TailLoop.Proofs.FiniteDoubles

/-!
# What is decoded can be encoded

JSON has no numbers that are not finite, so the doubles of decoded data are finite, whichever of the
accepted spellings was used. Each combinator of decoders keeps such properties of the data. Units
that were decoded are therefore among those that are given back.

* `Json.isFinite`: the doubles of a JSON value are finite, as in every text.
* `Makes`: a property of everything that a decoder makes of such values.
* `makes_compilationUnit`: the doubles of decoded units are finite.
* `compilationUnit_encode`: decoding and encoding units.
-/

namespace TailLoop

mutual

/-- All doubles of a value are finite, its members' included. -/
def Json.isFinite : Json → Bool
  | .num (.float x) => x.isFinite
  | .arr items _ => Json.areFinite items
  | .obj members _ => Json.membersFinite members
  | _ => true

/-- `Json.isFinite` of every value of a list. -/
def Json.areFinite : List Json → Bool
  | [] => true
  | j :: rest => j.isFinite && Json.areFinite rest

/-- `Json.isFinite` of every member; keys are texts. -/
def Json.membersFinite : List (Json × Json) → Bool
  | [] => true
  | (_, j) :: rest => j.isFinite && Json.membersFinite rest

end

/-- `Json.areFinite` goes through `js` one by one. -/
theorem Json.areFinite_eq_all (js : List Json) : Json.areFinite js = js.all Json.isFinite := by
  induction js with
  | nil => rfl
  | cons j rest ih => rw [areFinite, ih, List.all_cons]

/-- `Json.membersFinite` goes through `ms` one by one. -/
theorem Json.membersFinite_eq_all (ms : List (Json × Json)) :
    Json.membersFinite ms = ms.all fun m => m.2.isFinite := by
  induction ms with
  | nil => rfl
  | cons m rest ih => rw [membersFinite, ih, List.all_cons]

namespace Decoder

open Json

variable {α β σ : Type}

/-- The result `b` of two steps comes from a result `a` of the first. -/
theorem exists_ok_of_bind {ε : Type} {x : Except ε α} {f : α → Except ε β} {b : β}
    (h : x >>= f = .ok b) : ∃ a, x = .ok a ∧ f a = .ok b := by
  cases x with
  | error e => cases h
  | ok a => exact ⟨a, rfl, h⟩

/-- `mismatch` is an error. -/
theorem mismatch_ne_ok (expected : String) (j : Json) (a : α) : mismatch expected j ≠ .ok a := by
  intro h
  obtain ⟨_, _, h⟩ := exists_ok_of_bind h
  cases h

/-! ## Values and sequences -/

/-- What `d` makes of values with finite doubles is in `P`. -/
def Makes (P : α → Prop) (d : Decoder α) : Prop :=
  ∀ room j a, j.isFinite = true → d room j = .ok a → P a

/-- Everything that the elements `es` make of items with finite doubles has the property. -/
def MakesAll (P : α → Prop) (es : Elements α) : Prop :=
  ∀ c a c', c.rest.all isFinite = true → es c = .ok (a, c') → P a ∧ c'.rest.all isFinite = true

/-- Nothing need be said about what is made. -/
theorem makes_any (d : Decoder α) : Makes (fun _ => True) d := fun _ _ _ _ _ => trivial

/-- `f` may wrap what is made. -/
theorem Makes.map {P : α → Prop} {Q : β → Prop} {d : Decoder α} (h : Makes P d) {f : α → β}
    (hf : ∀ a, P a → Q (f a)) : Makes Q fun room j => f <$> d room j := by
  intro room j b hj hb
  simp only [map_eq_pure_bind] at hb
  obtain ⟨a, ha, hb⟩ := exists_ok_of_bind hb
  cases hb
  exact hf a (h room j a hj ha)

/-- `float` makes finite doubles, also of integers. -/
theorem makes_float : Makes (fun x => x.isFinite = true) float := by
  intro room j x hj hx
  unfold float at hx
  split at hx
  · cases hx
    exact hj
  · cases hx
    exact Double.isFinite_floatOfInt _
  · exact absurd hx (mismatch_ne_ok _ _ _)

/-- `list d` makes what `d` makes. -/
theorem Makes.list {P : α → Prop} {d : Decoder α} (h : Makes P d) :
    Makes (fun as => ∀ a ∈ as, P a) (list d) := by
  have hitems (room : Nat) (js : List Json) (as : List α) (hjs : js.all isFinite = true)
      (has : items d room js = .ok as) : ∀ a ∈ as, P a := by
    induction js generalizing as with
    | nil =>
      cases has
      simp
    | cons j rest ih =>
      obtain ⟨hj, hrest⟩ := (List.all_cons ▸ hjs : (j.isFinite && rest.all isFinite) = true)
        |> Bool.and_eq_true_iff.mp
      obtain ⟨a, ha, has⟩ := exists_ok_of_bind has
      obtain ⟨bs, hbs, has⟩ := exists_ok_of_bind has
      cases has
      exact List.forall_mem_cons.mpr ⟨h room j a hj ha, ih bs hrest hbs⟩
  intro room j as hj has
  unfold Decoder.list at has
  split at has
  · obtain ⟨_, _, has⟩ := exists_ok_of_bind has
    obtain ⟨bs, hbs, has⟩ := exists_ok_of_bind has
    obtain ⟨_, _, has⟩ := exists_ok_of_bind has
    cases has
    exact hitems _ _ _ (by rwa [isFinite, areFinite_eq_all] at hj) hbs
  · exact absurd has (mismatch_ne_ok _ _ _)

/-- `pure a` makes `a` of no element. -/
theorem MakesAll.pure {P : α → Prop} {a : α} (ha : P a) : MakesAll P (pure a) := by
  intro c b c' hc hb
  cases hb
  exact ⟨ha, hc⟩

/-- `es` reads elements, then `f` reads more. -/
theorem MakesAll.bind {P : α → Prop} {Q : β → Prop} {es : Elements α} {f : α → Elements β}
    (h : MakesAll P es) (hf : ∀ a, P a → MakesAll Q (f a)) : MakesAll Q (es >>= f) := by
  intro c b c' hc hb
  obtain ⟨⟨a, d⟩, ha, hb⟩ := exists_ok_of_bind hb
  obtain ⟨ha, hd⟩ := h c a d hc ha
  exact hf a ha d b c' hd hb

/-- `elementOr` makes what `d` makes, or the default. -/
theorem Makes.elementOr {P : α → Prop} {d : Decoder α} (h : Makes P d) {default? : Option α}
    (hdefault : ∀ a ∈ default?, P a) : MakesAll P (elementOr default? d) := by
  intro c a c' hc ha
  unfold Decoder.elementOr at ha
  split at ha
  case h_1 j rest hrest =>
    obtain ⟨b, hb, ha⟩ := exists_ok_of_bind ha
    cases ha
    simp only [hrest, List.all_cons, Bool.and_eq_true] at hc
    exact ⟨h _ _ _ hc.1 hb, hc.2⟩
  case h_2 hrest =>
    obtain ⟨_, _, ha⟩ := exists_ok_of_bind ha
    split at ha
    · cases ha
      exact ⟨hdefault a rfl, hc⟩
    · cases ha

/-- `element d` reads one element, then `f` reads more. -/
theorem Makes.next {P : α → Prop} {Q : β → Prop} {d : Decoder α} {f : α → Elements β}
    (h : Makes P d) (hf : ∀ a, P a → MakesAll Q (f a)) : MakesAll Q (element d >>= f) :=
  MakesAll.bind (h.elementOr (by simp)) hf

/-- Nothing need be said about the first element. -/
theorem MakesAll.skip {Q : β → Prop} {d : Decoder α} {f : α → Elements β}
    (hf : ∀ a, MakesAll Q (f a)) : MakesAll Q (element d >>= f) :=
  (makes_any d).next fun a _ => hf a

/-- `tuple` makes what its elements make. -/
theorem MakesAll.tuple {P : α → Prop} {es : Elements α} (h : MakesAll P es) (kind length : String) :
    Makes P (tuple kind length es) := by
  intro room j a hj ha
  unfold Decoder.tuple at ha
  split at ha
  · obtain ⟨_, _, ha⟩ := exists_ok_of_bind ha
    obtain ⟨⟨b, c⟩, hb, ha⟩ := exists_ok_of_bind ha
    have hab : a = b := by
      simp only at ha
      split at ha <;>
        · obtain ⟨_, _, ha⟩ := exists_ok_of_bind ha
          exact (Except.ok.inj ha).symm
    exact hab ▸ (h _ _ _ (by rwa [isFinite, areFinite_eq_all] at hj) hb).1
  · exact absurd ha (mismatch_ne_ok _ _ _)

/-- `pair d e` makes what `d` and `e` make. -/
theorem Makes.pair {P : α → Prop} {Q : β → Prop} {d : Decoder α} {e : Decoder β} (hd : Makes P d)
    (he : Makes Q e) : Makes (fun p => P p.1 ∧ Q p.2) (pair d e) :=
  MakesAll.tuple (hd.next fun _ ha => he.next fun _ hb => .pure ⟨ha, hb⟩) _ _

/-! ## Records -/

/-- Storing what the field `f` reads keeps the state in `Q`. -/
def Keeps (Q : σ → Prop) (f : Field σ) : Prop :=
  ∀ room j s s', j.isFinite = true → Q s → f.store room j s = .ok s' → Q s'

/-- A `field` keeps the state in `Q` if what `d` makes may be `put` there. -/
theorem Makes.keeps {P : α → Prop} {Q : σ → Prop} {d : Decoder α} (h : Makes P d) {name : String}
    {get : σ → Option α} {put : σ → α → σ} (hput : ∀ s a, Q s → P a → Q (put s a)) :
    Keeps Q (field name get put d) := by
  intro room j s s' hj hs hs'
  obtain ⟨a, ha, hs'⟩ := exists_ok_of_bind hs'
  cases hs'
  exact hput s a hs (h room j a hj ha)

/-- `record` starts from a state in `Q`, and makes what `build` makes of such a state. It reads an
object, or the elements `es` of an array. -/
theorem makes_record {P : α → Prop} {Q : σ → Prop} {start : σ} {fields : List (Field σ)}
    {build : σ → Except DecodeError α} {es : Elements α} (hstart : Q start)
    (hfields : ∀ f ∈ fields, Keeps Q f) (hbuild : ∀ s a, Q s → build s = .ok a → P a)
    (hes : MakesAll P es) (name : String) (count : Nat) :
    Makes P (record name count start fields build es) := by
  -- A member is stored, skipped or refused; the induction is on the members that are left, and what
  -- the earlier ones stored satisfies `Q`.
  have hmembers (room : Nat) (ms : List (Json × Json)) (s s' : σ)
      (hms : (ms.all fun m => m.2.isFinite) = true) (hs : Q s)
      (hs' : members fields room ms s = .ok s') : Q s' := by
    induction ms generalizing s with
    | nil =>
      cases hs'
      exact hs
    | cons m rest ih =>
      simp only [List.all_cons, Bool.and_eq_true] at hms
      obtain ⟨key, j⟩ := m
      obtain ⟨_, _, hs'⟩ := exists_ok_of_bind hs'
      split at hs'
      case h_1 f hf =>
        split at hs'
        · cases hs'
        · obtain ⟨s₁, hstore, hs'⟩ := exists_ok_of_bind hs'
          exact ih s₁ hms.2 (hfields f (List.mem_of_find?_eq_some hf) _ _ _ _ hms.1 hs hstore) hs'
      case h_2 =>
        split at hs'
        · exact ih s hms.2 hs hs'
        · cases hs'
  -- A record in the form of a list has no members to store; its elements are read in order.
  intro room j a hj ha
  unfold record at ha
  split at ha
  · obtain ⟨_, _, ha⟩ := exists_ok_of_bind ha
    obtain ⟨s, hs, ha⟩ := exists_ok_of_bind ha
    obtain ⟨_, _, ha⟩ := exists_ok_of_bind ha
    exact hbuild s a (hmembers _ _ _ _ (by rwa [isFinite, membersFinite_eq_all] at hj) hstart hs) ha
  · exact hes.tuple _ _ _ _ _ hj ha

/-- `twoFields` makes what `d` and `e` make. -/
theorem Makes.twoFields {P : α → Prop} {Q : β → Prop} {d : Decoder α} {e : Decoder β}
    (hd : Makes P d) (he : Makes Q e) (name first second : String) :
    Makes (fun p => P p.1 ∧ Q p.2) (twoFields name first second d e) := by
  refine makes_record (Q := fun s => (∀ a ∈ s.1, P a) ∧ ∀ b ∈ s.2, Q b) (by simp) ?_ ?_ ?_ _ _
  · simp only [List.forall_mem_cons, List.not_mem_nil, false_implies, implies_true, and_true]
    exact ⟨hd.keeps fun s a hs ha => ⟨by simpa using ha, hs.2⟩,
      he.keeps fun s b hs hb => ⟨hs.1, by simpa using hb⟩⟩
  · rintro ⟨a?, b?⟩ ⟨a, b⟩ hs hab
    cases a? <;> cases b? <;> cases hab
    exact ⟨hs.1 _ rfl, hs.2 _ rfl⟩
  · exact hd.next fun _ ha => he.next fun _ hb => .pure ⟨ha, hb⟩

/-! ## Alternatives -/

/-- What is made of the payload of an alternative is in `P`. -/
def Payload.Makes (P : α → Prop) : Payload α → Prop
  | .unit a => P a
  | .value d => Decoder.Makes P d
  | .elements _ es => MakesAll P es

/-- `choice` makes what its alternatives make, in all their forms. -/
theorem makes_choice {P : α → Prop} {cases : List (Alternative α)}
    (h : ∀ c ∈ cases, c.2.Makes P) (type : String) : Makes P (choice type cases) := by
  -- Whichever alternative a name selects, its payload is one of `cases`.
  have hselect (name : String) (p : Payload α) (hp : select cases name = .ok p) : p.Makes P := by
    unfold select at hp
    split at hp
    case h_1 c hc =>
      cases hp
      exact h c (List.mem_of_find?_eq_some hc)
    case h_2 => cases hp
  intro room j a hj ha
  unfold choice at ha
  split at ha
  case h_1 name =>
    obtain ⟨p, hp, ha⟩ := exists_ok_of_bind ha
    split at ha <;> cases ha
    exact hselect name _ hp
  case h_2 ms ending =>
    obtain ⟨_, _, ha⟩ := exists_ok_of_bind ha
    split at ha
    · split at ha <;> cases ha
    · obtain ⟨name, _, ha⟩ := exists_ok_of_bind ha
      obtain ⟨p, hp, ha⟩ := exists_ok_of_bind ha
      obtain ⟨b, hb, ha⟩ := exists_ok_of_bind ha
      -- The member after the chosen one is only checked, so what is decoded is the payload of the
      -- first.
      have hab : a = b := by
        split at ha <;>
          · obtain ⟨_, _, ha⟩ := exists_ok_of_bind ha
            exact (Except.ok.inj ha).symm
      have hmakes := hselect name p hp
      subst hab
      simp only [isFinite, membersFinite, Bool.and_eq_true] at hj
      unfold payload at hb
      split at hb
      · cases hb
        exact hmakes
      · exact absurd hb (mismatch_ne_ok _ _ _)
      · exact hmakes _ _ _ hj.1 hb
      · exact MakesAll.tuple hmakes _ _ _ _ _ hj.1 hb
  all_goals cases ha

/-! ## Terms -/

/-- `guarding` makes finite guards. -/
theorem makes_guarding : Makes (fun g => g.isFinite = true) guarding := by
  refine makes_choice ?_ _
  simp only [List.forall_mem_cons, List.not_mem_nil, false_implies, implies_true, and_true]
  exact ⟨makes_float.map fun _ hx => hx, (makes_any _).map fun _ _ => rfl,
    (makes_any _).map fun _ _ => rfl, (makes_any _).map fun _ _ => rfl,
    (makes_any _).map fun _ _ => rfl, (makes_any _).map fun _ _ => rfl,
    (makes_any _).map fun _ _ => rfl⟩

variable {d : Decoder Expr}

/-- `fieldList d` makes finite terms if `d` does. -/
theorem Makes.fieldList (h : Makes Term.IsFinite d) :
    Makes (fun fs => ∀ t ∈ fs.map Prod.snd, t.IsFinite) (fieldList d) := by
  intro room j fs hj hfs t ht
  obtain ⟨f, hf, rfl⟩ := List.mem_map.mp ht
  exact (((makes_any text).twoFields h _ _ _).list room j fs hj hfs f hf).2

/-- `literal d` makes finite literals, and containers of what `d` makes. -/
theorem Makes.literal (h : Makes Term.IsFinite d) : Makes Term.IsFinite (literal d) := by
  have hleaf (l : Literal) (hl : l.isFinite = true) : (Term.lit () l).IsFinite :=
    Term.isFinite_iff.mpr ⟨hl, by simp [Term.children]⟩
  refine makes_choice ?_ _
  simp only [List.forall_mem_cons, List.not_mem_nil, false_implies, implies_true, and_true]
  exact ⟨(makes_any _).map fun _ _ => hleaf _ rfl, makes_float.map fun _ hx => hleaf _ hx,
    (makes_any _).map fun _ _ => hleaf _ rfl, (makes_any _).map fun _ _ => hleaf _ rfl,
    (makes_any _).map fun _ _ => hleaf _ rfl,
    h.list.map fun _ hts => Term.isFinite_iff.mpr ⟨rfl, hts⟩,
    h.fieldList.map fun _ hfs => Term.isFinite_iff.mpr ⟨rfl, hfs⟩⟩

/-- `primitive d` makes operations on what `d` makes. -/
theorem Makes.primitive (h : Makes Term.IsFinite d) : Makes Term.IsFinite (primitive d) := by
  refine makes_choice ?_ _
  simp only [List.forall_mem_cons, List.not_mem_nil, false_implies, implies_true, and_true]
  exact ⟨.skip fun _ => h.next fun t ht => .pure (Term.isFinite_iff.mpr ⟨rfl, by
      simpa [Term.children] using ht⟩),
    .skip fun _ => h.next fun t ht => h.next fun s hs => .pure (Term.isFinite_iff.mpr ⟨rfl, by
      simpa [Term.children] using ⟨ht, hs⟩⟩)⟩

/-- `appCase` makes applications of what `d` makes. -/
theorem makes_appCase (h : Makes Term.IsFinite d) (calling : Calling) :
    (appCase d calling).2.Makes Term.IsFinite :=
  h.next fun _ hhead => h.list.next fun _ hargs => .pure (Term.isFinite_iff.mpr
    ⟨rfl, List.forall_mem_cons.mpr ⟨hhead, hargs⟩⟩)

/-- `absCase` makes functions of what `d` makes. -/
theorem makes_absCase (h : Makes Term.IsFinite d) (calling : Calling) :
    (absCase d calling).2.Makes Term.IsFinite :=
  .skip fun _ => h.next fun _ hbody => .pure (Term.isFinite_iff.mpr
    ⟨rfl, by simpa [Term.children] using hbody⟩)

/-- `binderElements` makes binders, in which there are no doubles. -/
theorem makes_binderElements : MakesAll (fun _ => True) binderElements :=
  .skip fun _ => .skip fun _ => .pure trivial

/-- `node d` makes finite nodes if `d` makes finite terms. -/
theorem Makes.node (h : Makes Term.IsFinite d) : Makes Term.IsFinite (node d) := by
  -- What a node says of finiteness is said of its own literal and of its children; these four are
  -- the shapes that children come in.
  have hleaf {t : Expr} (ht : t.hasFinite = true) (hchildren : t.children = []) : t.IsFinite :=
    Term.isFinite_iff.mpr ⟨ht, by simp [hchildren]⟩
  have hone {t s : Expr} (ht : t.hasFinite = true) (hchildren : t.children = [s])
      (hs : s.IsFinite) : t.IsFinite :=
    Term.isFinite_iff.mpr ⟨ht, by simpa [hchildren] using hs⟩
  have hboth {t s₁ s₂ : Expr} (ht : t.hasFinite = true) (hchildren : t.children = [s₁, s₂])
      (hs₁ : s₁.IsFinite) (hs₂ : s₂.IsFinite) : t.IsFinite :=
    Term.isFinite_iff.mpr ⟨ht, by simpa [hchildren] using ⟨hs₁, hs₂⟩⟩
  have hfields {t : Expr} {fs : List (String × Expr)} (ht : t.hasFinite = true)
      (hchildren : t.children = fs.map Prod.snd) (hfs : ∀ s ∈ fs.map Prod.snd, s.IsFinite) :
      t.IsFinite :=
    Term.isFinite_iff.mpr ⟨ht, by rwa [hchildren]⟩
  have hbindings := ((makes_any text).pair h).list
  have harms := (h.twoFields h "Pair" "cond" "body").list
  refine makes_choice ?_ _
  simp only [List.forall_mem_cons, List.not_mem_nil, false_implies, implies_true, and_true]
  exact ⟨(makes_any _).map fun _ _ => hleaf rfl rfl,
    makes_binderElements.bind fun _ _ => .pure (hleaf rfl rfl),
    h.literal, makes_appCase h _, makes_absCase h _, makes_appCase h _, makes_absCase h _,
    makes_appCase h _, makes_absCase h _,
    h.next fun _ hs => .skip fun _ => .pure (hone rfl rfl hs),
    h.next fun _ hs => h.fieldList.next fun _ hfs =>
      .pure (Term.isFinite_iff.mpr ⟨rfl, List.forall_mem_cons.mpr ⟨hs, hfs⟩⟩),
    .skip fun _ => .skip fun _ => h.fieldList.next fun _ hfs => .pure (hfields rfl rfl hfs),
    .skip fun _ => .skip fun _ => .pure (hleaf rfl rfl),
    makes_binderElements.bind fun _ _ =>
      h.next fun _ hvalue => h.next fun _ hbody => .pure (hboth rfl rfl hvalue hbody),
    .skip fun _ => hbindings.next fun bs hbs => h.next fun _ hbody =>
      .pure (Term.isFinite_iff.mpr ⟨rfl, List.forall_mem_append.mpr
        ⟨List.forall_mem_map.mpr fun b hb => (hbs b hb).2, by simpa using hbody⟩⟩),
    makes_binderElements.bind fun _ _ =>
      h.next fun _ heffect => h.next fun _ hbody => .pure (hboth rfl rfl heffect hbody),
    h.map fun _ hs => hone rfl rfl hs, h.map fun _ hs => hone rfl rfl hs,
    harms.next fun arms harms => h.next fun _ hdefault =>
      .pure (Term.isFinite_iff.mpr ⟨rfl, List.forall_mem_append.mpr
        ⟨List.forall_mem_flatMap.mpr fun a ha => by simpa using harms a ha,
          by simpa using hdefault⟩⟩),
    h.next fun _ hs => makes_guarding.next fun _ hg => .pure (hone hg rfl hs),
    h.primitive, hleaf rfl rfl, (makes_any _).map fun _ _ => hleaf rfl rfl⟩

/-- By induction on `n`: `exprWithin` makes finite terms. -/
theorem makes_exprWithin (n : Nat) : Makes Term.IsFinite (exprWithin n) := by
  induction n with
  | zero =>
    intro _ _ _ _ h
    cases h
  | succ n ih => exact ih.node

/-- `expr` makes finite terms. -/
theorem makes_expr : Makes Term.IsFinite expr := fun room => makes_exprWithin (room + 1) room

/-! ## Units -/

/-- `bindingGroup` makes groups of finite terms. -/
theorem makes_bindingGroup :
    Makes (fun g => ∀ b ∈ g.bindings, b.2.IsFinite) bindingGroup := by
  have hbindings : Makes (fun bs => ∀ b ∈ bs, b.2.IsFinite) (list (pair text expr)) :=
    fun room j bs hj hbs b hb => (((makes_any text).pair makes_expr).list room j bs hj hbs b hb).2
  refine makes_record (Q := fun s => ∀ bs ∈ s.2, ∀ b ∈ bs, b.2.IsFinite) (by simp) ?_ ?_ ?_ _ _
  · simp only [List.forall_mem_cons, List.not_mem_nil, false_implies, implies_true, and_true]
    exact ⟨(makes_any _).keeps fun _ _ hs _ => hs,
      hbindings.keeps fun _ _ _ hbs => by simpa using hbs⟩
  · rintro ⟨recursive?, bindings?⟩ g hs hg
    cases bindings? <;> cases hg
    exact hs _ rfl
  · exact MakesAll.bind ((makes_any _).elementOr fun _ _ => trivial) fun _ _ =>
      hbindings.next fun _ hbs => .pure hbs

/-- `compilationUnit` makes units of finite terms. -/
theorem makes_compilationUnit : Makes CompilationUnit.IsFinite compilationUnit := by
  have hgroups := makes_bindingGroup.list
  have hunit {u : CompilationUnit} (hu : ∀ g ∈ u.groups, ∀ b ∈ g.bindings, b.2.IsFinite) :
      u.IsFinite := List.forall_mem_flatMap.mpr hu
  have hany {β : Type} (d : Decoder β) (default? : Option β) :
      MakesAll (fun _ => True) (elementOr default? d) :=
    (makes_any _).elementOr fun _ _ => trivial
  refine makes_record (Q := fun s => ∀ gs ∈ s.groups, ∀ g ∈ gs, ∀ b ∈ g.bindings, b.2.IsFinite)
    (by simp) ?_ ?_ ?_ _ _
  · simp only [List.forall_mem_cons, List.not_mem_nil, false_implies, implies_true, and_true]
    exact ⟨(makes_any _).keeps fun _ _ hs _ => hs, (makes_any _).keeps fun _ _ hs _ => hs,
      (makes_any _).keeps fun _ _ hs _ => hs, hgroups.keeps fun _ _ _ hgs => by simpa using hgs,
      (makes_any _).keeps fun _ _ hs _ => hs⟩
  · rintro ⟨name?, imports?, foreign?, groups?, exports?⟩ u hs hu
    cases name? <;> cases hu
    cases groups? with
    | none => exact hunit (by simp)
    | some gs => exact hunit (hs gs rfl)
  · exact .skip fun _ => (hany _ _).bind fun _ _ => (hany _ _).bind fun _ _ =>
      (hgroups.elementOr (by simp)).bind fun _ hgs => (hany _ _).bind fun _ _ => .pure (hunit hgs)

/-- Decoding undoes encoding, for every unit with finite doubles and any room its encoding needs.
What is decoded from a JSON value, in any of the accepted spellings, is such a unit, and its
encoding is a normal form: decoding it and encoding the result again changes nothing. -/
theorem compilationUnit_encode :
    (∀ u : CompilationUnit, u.IsFinite → ∀ room, u.encode.depth ≤ room →
      compilationUnit room u.encode = .ok u) ∧
    ∀ (j : Json) (room : Nat) (u : CompilationUnit), j.isFinite = true →
      compilationUnit room j = .ok u →
        ofJson compilationUnit u.encode = .ok u ∧
        CompilationUnit.encode <$> ofJson compilationUnit u.encode = .ok u.encode := by
  have hback (u : CompilationUnit) (hu : u.IsFinite) (room : Nat) (hroom : u.encode.depth ≤ room) :
      compilationUnit room u.encode = .ok u :=
    decodes_compilationUnit hu room hroom (Nat.le_refl room)
  refine ⟨hback, fun j room u hj hu => ?_⟩
  have hagain : ofJson compilationUnit u.encode = .ok u :=
    hback u (makes_compilationUnit room j u hj hu) _ (Nat.le_refl _)
  exact ⟨hagain, by rw [hagain]; rfl⟩

/-- A unit with a double that JSON may give as an integer. -/
def roundUnit : CompilationUnit where
  name := "Main"
  imports := []
  foreignNames := []
  groups := [⟨false, [("round", .lit () (.number (floatOfInt 2)))]⟩]
  exports := []

/-- A short spelling of `roundUnit`: an integer for a double, the fields in another order, and none
that have defaults. -/
def roundJson : Json :=
  .object [("groups", .array [.object [("bindings",
      .array [.array [.str "round", .tagged "Lit" (.tagged "Number" (.int 2))]])]]),
    ("name", .str "Main")]

/-- A unit and one of its other spellings. -/
theorem compilationUnit_encode_roundUnit :
    compilationUnit 127 roundUnit.encode = .ok roundUnit ∧
      compilationUnit 127 roundJson = .ok roundUnit ∧
      ofJson compilationUnit roundUnit.encode = .ok roundUnit := by
  have hfinite : roundUnit.IsFinite := by
    simp [CompilationUnit.IsFinite, CompilationUnit.bindings, roundUnit, Term.IsFinite,
      Term.subterms, Term.hasFinite, Literal.isFinite, Double.isFinite_floatOfInt]
  have hdecoded : compilationUnit 127 roundJson = .ok roundUnit := by rfl
  exact ⟨compilationUnit_encode.1 roundUnit hfinite 127 (by decide), hdecoded,
    (compilationUnit_encode.2 roundJson 127 roundUnit (by decide) hdecoded).1⟩

end Decoder

end TailLoop

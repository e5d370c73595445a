import TailLoop.CompilationUnit
import TailLoop.Proofs.Positions

/-!
# Decoding what was encoded

Every decoder gives back what the encoder of the same data has written, with any room that is not
smaller than the depth of the JSON value. Each combinator of decoders keeps this property, so each
type needs one step for each of its shapes.

* `Decodes`: a decoder gives back a value, within a bound for the room.
* `Reads`: the elements of a sequence are given back.
* `Gathers`: the members of an object are given back.
* `decodes_exprWithin`: terms are given back.
* `decodes_compilationUnit`: units are given back.
-/

namespace TailLoop

/-- `Term.encodeList` encodes `ts` one by one. -/
theorem Term.encodeList_eq_map {α : Type} (ts : List (Term α)) :
    Term.encodeList ts = ts.map Term.encode := by
  induction ts with
  | nil => rfl
  | cons t rest ih => rw [encodeList, ih, List.map_cons]

/-- `Term.encodeFields` writes each of `fs` as an object of `key` and `value`. -/
theorem Term.encodeFields_eq_map {α : Type} (fs : List (String × Term α)) :
    Term.encodeFields fs = fs.map fun f => .object [("key", .str f.1), ("value", f.2.encode)] := by
  induction fs with
  | nil => rfl
  | cons f rest ih => rw [encodeFields, ih, List.map_cons]

/-- `Term.encodeBindings` writes each of `bs` as a pair. -/
theorem Term.encodeBindings_eq_map {α : Type} (bs : List (String × Term α)) :
    Term.encodeBindings bs = bs.map fun b => .array [.str b.1, b.2.encode] := by
  induction bs with
  | nil => rfl
  | cons b rest ih => rw [encodeBindings, ih, List.map_cons]

/-- `Term.encodeArms` writes each of `arms` as an object of `cond` and `body`. -/
theorem Term.encodeArms_eq_map {α : Type} (arms : List (Term α × Term α)) :
    Term.encodeArms arms =
      arms.map fun a => .object [("cond", a.1.encode), ("body", a.2.encode)] := by
  induction arms with
  | nil => rfl
  | cons a rest ih => rw [encodeArms, ih, List.map_cons]

/-! ## Finite doubles in data -/

/-- Every literal but a double that is not finite. -/
def Literal.isFinite : Literal → Bool
  | .number x => x.isFinite
  | _ => true

/-- Every guard but a double that is not finite. -/
def Guard.isFinite : Guard → Bool
  | .number x => x.isFinite
  | _ => true

/-- The node `t` has no double that is not finite. -/
def Term.hasFinite {α : Type} : Term α → Bool
  | .lit _ value => value.isFinite
  | .test _ _ guard => guard.isFinite
  | _ => true

/-- No node of `t` has a double that is not finite. -/
def Term.IsFinite {α : Type} (t : Term α) : Prop := ∀ s ∈ t.subterms, s.hasFinite = true

/-- No term of `u` has a double that is not finite. -/
def CompilationUnit.IsFinite (u : CompilationUnit) : Prop := ∀ b ∈ u.bindings, b.2.IsFinite

/-- The doubles of `t` are those of its root and those of its children. -/
theorem Term.isFinite_iff {α : Type} {t : Term α} :
    t.IsFinite ↔ t.hasFinite = true ∧ ∀ s ∈ t.children, s.IsFinite := by
  simp only [IsFinite, subterms_eq t, List.mem_cons, List.mem_flatMap, forall_eq_or_imp]
  exact and_congr_right fun _ => ⟨fun h s hs x hx => h x ⟨s, hs, hx⟩,
    fun h x ⟨s, hs, hx⟩ => h s hs x hx⟩

namespace Decoder

open Json

variable {α β σ : Type} {N : Nat}

/-! ## Values -/

/-- With room for the depth of `j`, but no more than `N`, the decoder makes `a` of `j`. -/
def Decodes (N : Nat) (d : Decoder α) (j : Json) (a : α) : Prop :=
  ∀ room, j.depth ≤ room → room ≤ N → d room j = .ok a

/-- If `N` nested values fit, the smaller `M` do. -/
theorem Decodes.mono {M : Nat} {d : Decoder α} {j : Json} {a : α} (h : Decodes N d j a)
    (hM : M ≤ N) : Decodes M d j a := fun room hdepth hroom =>
  h room hdepth (Nat.le_trans hroom hM)

/-- `f` may wrap what is decoded. -/
theorem Decodes.map {d : Decoder α} {j : Json} {a : α} (f : α → β) (h : Decodes N d j a) :
    Decodes N (fun room j => f <$> d room j) j (f a) := by
  intro room hdepth hroom
  simp only [h room hdepth hroom]
  rfl

/-- `text` reads a string back. -/
theorem decodes_text (s : String) : Decodes N text (.str s) s := fun _ _ _ => rfl

/-- `boolean` reads a truth value back. -/
theorem decodes_boolean (b : Bool) : Decodes N boolean (.bool b) b := fun _ _ _ => rfl

/-- `char` reads a string of one character back. -/
theorem decodes_char (c : Char) : Decodes N char (.str c.toString) c := by
  intro room _ _
  simp [char]

/-- `integer` reads `i` back, if `i` is between `low` and `high`. -/
theorem decodes_integer {low high i : Int} (hlow : low ≤ i) (hhigh : i ≤ high) (expected : String) :
    Decodes N (integer low high expected) (.int i) i := by
  intro room _ _
  rw [Json.int, integer, if_pos ⟨hlow, hhigh⟩]

/-- `int64` reads signed 64-bit integers back. -/
theorem decodes_int64 (i : Int64) : Decodes N int64 (.int i.toInt) i := by
  have h := (decodes_integer (N := N) i.minValue_le_toInt i.toInt_le "i64").map Int64.ofInt
  rwa [Int64.ofInt_toInt] at h

/-- `uint32` reads levels back. -/
theorem decodes_uint32 (n : UInt32) : Decodes N uint32 (encodeLevel n) n := by
  have hhigh : (n.toNat : Int) ≤ UInt32.size - 1 := by
    have := n.toNat_lt
    simp only [UInt32.size]
    omega
  have h := (decodes_integer (N := N) (Int.natCast_nonneg n.toNat) hhigh "u32").map
    fun i => UInt32.ofNat i.toNat
  rwa [Int.toNat_natCast, UInt32.ofNat_toNat] at h

/-- `uint64` reads unsigned 64-bit integers back. -/
theorem decodes_uint64 (n : UInt64) : Decodes N uint64 (.int n.toNat) n := by
  have hhigh : (n.toNat : Int) ≤ UInt64.size - 1 := by
    have := n.toNat_lt
    simp only [UInt64.size]
    omega
  have h := (decodes_integer (N := N) (Int.natCast_nonneg n.toNat) hhigh "usize").map
    fun i => UInt64.ofNat i.toNat
  rwa [Int.toNat_natCast, UInt64.ofNat_toNat] at h

/-- `float` reads a finite double back. JSON has no others. -/
theorem decodes_double {x : Float} (hx : x.isFinite = true) : Decodes N float (.double x) x := by
  intro room _ _
  rw [Json.double, if_pos hx]
  rfl

/-- `optional text` reads a text or `null` back. -/
theorem decodes_optional (s? : Option String) : Decodes N (optional text) (.ofText? s?) s? := by
  intro room _ _
  cases s? <;> rfl

/-! ## Sequences -/

/-- The elements `es` make `a` of the next items `js`, whatever follows. -/
def Reads (N : Nat) (es : Elements α) (js : List Json) (a : α) : Prop :=
  ∀ c rest, c.rest = js ++ rest → depthItems js ≤ c.room → c.room ≤ N →
    es c = .ok (a, { c with index := c.index + js.length, rest := rest })

/-- `depthItems` of two sequences in a row is the larger one. -/
theorem depthItems_append (js ks : List Json) :
    depthItems (js ++ ks) = max (depthItems js) (depthItems ks) := by
  induction js with
  | nil => simp [depthItems]
  | cons j rest ih => rw [List.cons_append, depthItems, depthItems, ih, Nat.max_assoc]

/-- `pure a` reads no element. -/
theorem Reads.pure (a : α) : Reads N (pure a) [] a := by
  rintro c rest rfl _ _
  rfl

/-- `es` reads the elements `js`, then `f a` reads `ks`. -/
theorem Reads.bind {es : Elements α} {f : α → Elements β} {js ks : List Json} {a : α} {b : β}
    (h : Reads N es js a) (hf : Reads N (f a) ks b) : Reads N (es >>= f) (js ++ ks) b := by
  intro c rest hrest hdepth hroom
  rw [depthItems_append] at hdepth
  have hes := h c (ks ++ rest) (by rw [hrest, List.append_assoc]) (by omega) hroom
  have hnext := hf { c with index := c.index + js.length, rest := ks ++ rest } rest rfl
    (Nat.le_trans (Nat.le_max_right _ _) hdepth) hroom
  rw [List.length_append, ← Nat.add_assoc, ← hnext]
  simp only [Bind.bind, StateT.bind, Except.bind, hes]

/-- `elementOr` reads the one element `j`; the default is for a missing one. -/
theorem reads_elementOr {d : Decoder α} {j : Json} {a : α} (h : Decodes N d j a)
    (default? : Option α) : Reads N (elementOr default? d) [j] a := by
  intro c rest hrest hdepth hroom
  have hd := h c.room (by simp only [depthItems] at hdepth; omega) hroom
  simp only [elementOr, hrest, List.singleton_append, hd]
  rfl

/-- `element d` reads the element `j`, then `f a` reads `js`. -/
theorem Reads.next {d : Decoder α} {f : α → Elements β} {j : Json} {js : List Json} {a : α} {b : β}
    (h : Decodes N d j a) (hf : Reads N (f a) js b) : Reads N (element d >>= f) (j :: js) b :=
  (reads_elementOr h none).bind hf

/-- `tuple` reads an array of these elements and nothing more. -/
theorem Reads.tuple {es : Elements α} {js : List Json} {a : α} (h : Reads N es js a)
    (kind length : String) : Decodes N (tuple kind length es) (.array js) a := by
  intro room hdepth hroom
  obtain - | room := room
  · simp [depth, Json.array] at hdepth
  simp only [Json.array, depth] at hdepth
  have hes := h ⟨room, length, 0, js, .closed⟩ [] (by simp) (by simpa using hdepth)
    (Nat.le_of_succ_le hroom)
  simp only [Json.array, Decoder.tuple, enter, Bind.bind, Except.bind, hes]
  rfl

/-- `pair` reads an array of two elements. -/
theorem decodes_pair {d : Decoder α} {e : Decoder β} {j k : Json} {a : α} {b : β}
    (hd : Decodes N d j a) (he : Decodes N e k b) :
    Decodes N (pair d e) (.array [j, k]) (a, b) := by
  refine Reads.tuple ?_ _ _
  exact .next hd (.next he (.pure _))

/-- `list d` reads an array whose elements `d` reads. -/
theorem decodes_list {d : Decoder α} {f : α → Json} {as : List α}
    (h : ∀ a ∈ as, Decodes N d (f a) a) : Decodes N (list d) (.array (as.map f)) as := by
  have hitems (room : Nat) (hroom : room ≤ N) (hdepth : depthItems (as.map f) ≤ room) :
      items d room (as.map f) = .ok as := by
    induction as with
    | nil => rfl
    | cons a rest ih =>
      simp only [List.map_cons, depthItems] at hdepth
      have ha := h a List.mem_cons_self room (by omega) hroom
      have hrest := ih (fun b hb => h b (List.mem_cons_of_mem a hb)) (by omega)
      simp only [List.map_cons, items, ha, hrest, Bind.bind, Except.bind]
      rfl
  intro room hdepth hroom
  obtain - | room := room
  · simp [depth, Json.array] at hdepth
  simp only [Json.array, depth] at hdepth
  simp only [Json.array, list, enter, Bind.bind, Except.bind, hitems room (by omega) (by omega)]
  rfl

/-! ## Records -/

/-- The members of an object take the state from `s` to `s'`. -/
def Gathers (N : Nat) (fields : List (Field σ)) (ms : List (Json × Json)) (s s' : σ) : Prop :=
  ∀ room, depthMembers ms ≤ room → room ≤ N → members fields room ms s = .ok s'

/-- Without members, the record under construction `s` stays as it is. -/
theorem Gathers.nil {fields : List (Field σ)} {s : σ} : Gathers N fields [] s s := fun _ _ _ => rfl

/-- The member `name`, not met before, is put into the record, and then come the others. -/
theorem Gathers.cons {fields : List (Field σ)} {name : String} {get : σ → Option α}
    {put : σ → α → σ} {d : Decoder α} {j : Json} {a : α} {ms : List (Json × Json)} {s s' : σ}
    (hfind : fields.find? (fun f => f.name = name) = some (field name get put d))
    (hget : get s = none) (h : Decodes N d j a) (hrest : Gathers N fields ms (put s a) s') :
    Gathers N fields ((.str name, j) :: ms) s s' := by
  intro room hdepth hroom
  simp only [depthMembers] at hdepth
  have hstore : d room j = .ok a := h room (by omega) hroom
  have hunset : (field name get put d).isSet s = false := by simp [field, hget]
  rw [← hrest room (by omega) hroom]
  simp only [members, memberName, Bind.bind, Except.bind, hfind, hunset]
  simp [field, hstore, Bind.bind, Except.bind, Pure.pure, Except.pure]

/-- `record` reads an object whose members lead from `start` to an `s` that `build` accepts. -/
theorem Gathers.record {fields : List (Field σ)} {ms : List (Json × Json)} {start s : σ}
    (h : Gathers N fields ms start s) {build : σ → Except DecodeError α} {a : α}
    (hbuild : build s = .ok a) (name : String) (count : Nat) (es : Elements α) :
    Decodes N (record name count start fields build es) (.obj ms .closed) a := by
  intro room hdepth hroom
  obtain - | room := room
  · simp [depth] at hdepth
  simp only [depth] at hdepth
  simp only [Decoder.record, enter, Bind.bind, Except.bind, h room (by omega) (by omega)]
  exact hbuild

/-- `twoFields` reads an object of two fields with different names. -/
theorem decodes_twoFields {name first second : String} {d : Decoder α} {e : Decoder β} {j k : Json}
    {a : α} {b : β} (hne : first ≠ second) (hd : Decodes N d j a) (he : Decodes N e k b) :
    Decodes N (twoFields name first second d e) (.object [(first, j), (second, k)]) (a, b) := by
  have hsecond : [field first (·.1) (fun (s : Option α × Option β) a => (some a, s.2)) d,
      field second (·.2) (fun s b => (s.1, some b)) e].find? (fun f => f.name = second) =
      some (field second (·.2) (fun s b => (s.1, some b)) e) := by
    simp [field, hne]
  refine Gathers.record (.cons (List.find?_cons_of_pos (by simp [field])) (by rfl) hd
    (.cons hsecond (by rfl) he .nil)) (by rfl) _ _ _

/-! ## Alternatives -/

/-- `choice` reads an alternative without payload from its `name`. -/
theorem decodes_choice_name {cases : List (Alternative α)} {name : String} {a : α}
    (hselect : select cases name = .ok (.unit a)) (type : String) :
    Decodes N (choice type cases) (.str name) a := by
  intro room _ _
  simp only [choice, hselect, Bind.bind, Except.bind]
  rfl

/-- `choice` reads an alternative from an object of its `name` and the payload `j`, for which there
is less room. -/
theorem decodes_choice {cases : List (Alternative α)} {name type : String} {p : Payload α}
    {j : Json} {a : α} (hselect : select cases name = .ok p)
    (h : ∀ M < N, Decodes M (payload type name p) j a) :
    Decodes N (choice type cases) (.tagged name j) a := by
  intro room hdepth hroom
  obtain - | room := room
  · simp [depth, Json.tagged, Json.object] at hdepth
  simp only [Json.tagged, Json.object, List.map_cons, List.map_nil, depth, depthMembers] at hdepth
  have hpayload := h room hroom room (by omega) (Nat.le_refl room)
  simp only [Json.tagged, Json.object, List.map_cons, List.map_nil, choice, enter, memberName,
    hselect, hpayload, Bind.bind, Except.bind]
  rfl

/-- The payload is one value, which `d` reads. -/
theorem Decodes.tagged {cases : List (Alternative β)} {name : String} {f : α → β} {d : Decoder α}
    {j : Json} {a : α} {type : String} (hselect : select cases name = .ok (holding name f d).2)
    (h : ∀ M < N, Decodes M d j a) : Decodes N (choice type cases) (.tagged name j) (f a) :=
  decodes_choice hselect fun M hM => (h M hM).map f

/-- The payload is a sequence of `count` elements, which `es` reads. -/
theorem Reads.tagged {cases : List (Alternative α)} {name : String} {count : Nat} {es : Elements α}
    {js : List Json} {a : α} {type : String}
    (hselect : select cases name = .ok (.elements count es)) (h : ∀ M < N, Reads M es js a) :
    Decodes N (choice type cases) (.taggedList name js) a :=
  decodes_choice hselect fun M hM => (h M hM).tuple _ _

/-! ## Terms -/

/-- `unaryOp` reads the name of an operator back. -/
theorem decodes_unaryOp (op : UnaryOp) : Decodes N unaryOp (.str op.name) op := by
  cases op <;> exact decodes_choice_name rfl _

/-- `binaryOp` reads the name of an operator back. -/
theorem decodes_binaryOp (op : BinaryOp) : Decodes N binaryOp (.str op.name) op := by
  cases op <;> exact decodes_choice_name rfl _

/-- `qualified` reads a top-level name back. -/
theorem decodes_qualified (q : Qualified) : Decodes N qualified q.encode q :=
  Gathers.record (.cons (by rfl) (by rfl) (decodes_optional q.module)
    (.cons (by rfl) (by rfl) (decodes_text q.ident) .nil)) (by rfl) _ _ _

/-- `binder` reads a name or `null`, with a level. -/
theorem decodes_binder (b : Binder) : Decodes N binder b.encode b :=
  Gathers.record (.cons (by rfl) (by rfl) (decodes_optional b.name)
    (.cons (by rfl) (by rfl) (decodes_uint32 b.level) .nil)) (by rfl) _ _ _

/-- `accessor` reads every accessor back. -/
theorem decodes_accessor (a : Accessor) : Decodes N accessor a.encode a := by
  cases a with
  | property name => exact Decodes.tagged rfl fun _ _ => decodes_text name
  | index i => exact Decodes.tagged rfl fun _ _ => decodes_uint64 i
  | field tag name =>
    exact Reads.tagged rfl fun _ _ => .next (decodes_text tag) (.next (decodes_text name) (.pure _))

/-- `guarding` reads a guard back, if it is not for a double that is not finite. -/
theorem decodes_guard {g : Guard} (hg : g.isFinite = true) : Decodes N guarding g.encode g := by
  cases g with
  | number x => exact Decodes.tagged rfl fun _ _ => decodes_double hg
  | int i => exact Decodes.tagged rfl fun _ _ => decodes_int64 i
  | text s => exact Decodes.tagged rfl fun _ _ => decodes_text s
  | char c => exact Decodes.tagged rfl fun _ _ => decodes_char c
  | boolean b => exact Decodes.tagged rfl fun _ _ => decodes_boolean b
  | tag name => exact Decodes.tagged rfl fun _ _ => decodes_text name
  | length n => exact Decodes.tagged rfl fun _ _ => decodes_uint64 n

/-- `binderElements` reads the name and the level of `b` from a longer sequence. -/
theorem reads_binderElements (b : Binder) :
    Reads N binderElements [.ofText? b.name, encodeLevel b.level] b :=
  .next (decodes_optional b.name) (.next (decodes_uint32 b.level) (.pure _))

/-- `list d` reads the terms `ts` back if `d` does. -/
theorem decodes_terms {d : Decoder Expr} {ts : List Expr}
    (h : ∀ t ∈ ts, Decodes N d t.encode t) :
    Decodes N (list d) (.array (Term.encodeList ts)) ts := by
  rw [Term.encodeList_eq_map]
  exact decodes_list h

/-- `fieldList d` reads the named parts `fs` back if `d` reads their terms. -/
theorem decodes_fieldList {d : Decoder Expr} {fs : List (String × Expr)}
    (h : ∀ t ∈ fs.map Prod.snd, Decodes N d t.encode t) :
    Decodes N (fieldList d) (.array (Term.encodeFields fs)) fs := by
  rw [Term.encodeFields_eq_map]
  exact decodes_list fun f hf => decodes_twoFields (by decide) (decodes_text f.1)
    (h f.2 (List.mem_map_of_mem hf))

/-- So it is with bindings, which are pairs. -/
theorem decodes_bindings {d : Decoder Expr} {bs : List (String × Expr)}
    (h : ∀ t ∈ bs.map Prod.snd, Decodes N d t.encode t) :
    Decodes N (list (pair text d)) (.array (Term.encodeBindings bs)) bs := by
  rw [Term.encodeBindings_eq_map]
  exact decodes_list fun b hb => decodes_pair (decodes_text b.1) (h b.2 (List.mem_map_of_mem hb))

/-- So it is with the arms of a branch, which are objects of two fields. -/
theorem decodes_arms {d : Decoder Expr} {arms : List (Expr × Expr)}
    (h : ∀ t ∈ arms.flatMap fun a => [a.1, a.2], Decodes N d t.encode t) :
    Decodes N (list (twoFields "Pair" "cond" "body" d d)) (.array (Term.encodeArms arms)) arms := by
  rw [Term.encodeArms_eq_map]
  refine decodes_list fun a ha => decodes_twoFields (by decide) (h a.1 ?_) (h a.2 ?_) <;>
    exact List.mem_flatMap.mpr ⟨a, ha, by simp⟩

/-- `list text` reads names back. -/
theorem decodes_texts (names : List String) :
    Decodes N (list text) (.array (names.map .str)) names :=
  decodes_list fun s _ => decodes_text s

/-- `literal d` reads a finite literal back, without using `d`. -/
theorem decodes_literal {d : Decoder Expr} {l : Literal} (hl : l.isFinite = true) :
    Decodes N (literal d) l.encode (.lit () l) := by
  cases l with
  | int i => exact decodes_choice rfl fun _ _ => (decodes_int64 i).map fun a => Term.lit () (.int a)
  | number x =>
    exact decodes_choice rfl fun _ _ => (decodes_double hl).map fun a => Term.lit () (.number a)
  | text s =>
    exact decodes_choice rfl fun _ _ => (decodes_text s).map fun a => Term.lit () (.text a)
  | char c =>
    exact decodes_choice rfl fun _ _ => (decodes_char c).map fun a => Term.lit () (.char a)
  | boolean b =>
    exact decodes_choice rfl fun _ _ => (decodes_boolean b).map fun a => Term.lit () (.boolean a)

/-- `node d` reads a finite node `t` back if `d` reads its children with less room, since each level
of nodes takes one level of JSON at least. -/
theorem decodes_node {d : Decoder Expr} {t : Expr} (ht : t.hasFinite = true)
    (h : ∀ s ∈ t.children, ∀ M < N, Decodes M d s.encode s) : Decodes N (node d) t.encode t := by
  -- Every node is written with its tag around its fields in the order of its constructor, and each
  -- case reads the fields back in that order; a child has less room than its node has.
  cases t with
  | global _ name => exact Decodes.tagged rfl fun _ _ => decodes_qualified name
  | bound _ b => exact Reads.tagged rfl fun _ _ => (reads_binderElements b).bind (.pure _)
  | lit _ l => exact decodes_choice rfl fun _ _ => decodes_literal ht
  | array _ items =>
    exact decodes_choice rfl fun M hM => Decodes.tagged rfl fun K hK =>
      decodes_terms fun s hs => h s hs K (Nat.lt_trans hK hM)
  | record _ fields =>
    exact decodes_choice rfl fun M hM => Decodes.tagged rfl fun K hK =>
      decodes_fieldList fun s hs => h s hs K (Nat.lt_trans hK hM)
  | app _ calling head args =>
    cases calling <;> exact Reads.tagged rfl fun M hM =>
      .next (h head (by simp [Term.children]) M hM)
        (.next (decodes_terms fun s hs => h s (by simp [Term.children, hs]) M hM) (.pure _))
  | abs _ calling params body =>
    cases calling <;> exact Reads.tagged rfl fun M hM =>
      .next (decodes_list fun b _ => decodes_binder b)
        (.next (h body (by simp [Term.children]) M hM) (.pure _))
  | access _ subject accessor =>
    exact Reads.tagged rfl fun M hM =>
      .next (h subject (by simp [Term.children]) M hM) (.next (decodes_accessor accessor) (.pure _))
  | update _ subject fields =>
    exact Reads.tagged rfl fun M hM =>
      .next (h subject (by simp [Term.children]) M hM)
        (.next (decodes_fieldList fun s hs => h s (by simp [Term.children, hs]) M hM) (.pure _))
  | construct _ type tag fields =>
    exact Reads.tagged rfl fun M hM =>
      .next (decodes_qualified type) (.next (decodes_text tag)
        (.next (decodes_fieldList fun s hs => h s (by simpa [Term.children] using hs) M hM)
          (.pure _)))
  | constructor _ tag fields =>
    exact Reads.tagged rfl fun _ _ =>
      .next (decodes_text tag) (.next (decodes_texts fields) (.pure _))
  | letIn _ b value body =>
    exact Reads.tagged rfl fun M hM => (reads_binderElements b).bind
      (.next (h value (by simp [Term.children]) M hM)
        (.next (h body (by simp [Term.children]) M hM) (.pure _)))
  | letRec _ level bindings body =>
    exact Reads.tagged rfl fun M hM =>
      .next (decodes_uint32 level)
        (.next (decodes_bindings fun s hs => h s (by simp [Term.children, hs]) M hM)
          (.next (h body (by simp [Term.children]) M hM) (.pure _)))
  | bindEffect _ b effect body =>
    exact Reads.tagged rfl fun M hM => (reads_binderElements b).bind
      (.next (h effect (by simp [Term.children]) M hM)
        (.next (h body (by simp [Term.children]) M hM) (.pure _)))
  | pureEffect _ value =>
    exact Decodes.tagged rfl fun M hM => h value (by simp [Term.children]) M hM
  | deferEffect _ effect =>
    exact Decodes.tagged rfl fun M hM => h effect (by simp [Term.children]) M hM
  | branch _ arms default =>
    exact Reads.tagged rfl fun M hM =>
      .next (decodes_arms fun s hs => h s (by simp [Term.children, hs]) M hM)
        (.next (h default (by simp [Term.children]) M hM) (.pure _))
  | test _ subject guard =>
    exact Reads.tagged rfl fun M hM =>
      .next (h subject (by simp [Term.children]) M hM) (.next (decodes_guard ht) (.pure _))
  | unary _ op operand =>
    exact decodes_choice rfl fun M hM => Reads.tagged rfl fun K hK =>
      .next (decodes_unaryOp op)
        (.next (h operand (by simp [Term.children]) K (Nat.lt_trans hK hM)) (.pure _))
  | binary _ op left right =>
    exact decodes_choice rfl fun M hM => Reads.tagged rfl fun K hK =>
      .next (decodes_binaryOp op)
        (.next (h left (by simp [Term.children]) K (Nat.lt_trans hK hM))
          (.next (h right (by simp [Term.children]) K (Nat.lt_trans hK hM)) (.pure _)))
  | undefined => exact decodes_choice_name rfl _
  | fail _ message => exact Decodes.tagged rfl fun _ _ => decodes_text message

/-- `exprWithin` follows the nesting, and `N + 1` steps are enough where `N` is the room. -/
theorem decodes_exprWithin {t : Expr} (ht : t.IsFinite) (N : Nat) :
    Decodes N (exprWithin (N + 1)) t.encode t := by
  induction t using Term.children_induction generalizing N with
  | step t ih =>
    obtain ⟨hroot, hchildren⟩ := Term.isFinite_iff.mp ht
    refine decodes_node hroot fun s hs M hM => ?_
    obtain - | N := N
    · omega
    · exact (ih s hs (hchildren s hs) N).mono (by omega)

/-- `expr` starts with steps enough for all the room there is. -/
theorem decodes_expr {t : Expr} (ht : t.IsFinite) : Decodes N expr t.encode t :=
  fun room hdepth _ => decodes_exprWithin ht room room hdepth (Nat.le_refl room)

/-! ## Units -/

/-- `bindingGroup` reads a group with finite doubles back. -/
theorem decodes_bindingGroup {g : BindingGroup} (hg : ∀ b ∈ g.bindings, b.2.IsFinite) :
    Decodes N bindingGroup g.encode g := by
  have hbindings : Decodes N (list (pair text expr)) (.array (Term.encodeBindings g.bindings))
      g.bindings :=
    decodes_bindings fun t ht => by
      obtain ⟨b, hb, rfl⟩ := List.mem_map.mp ht
      exact decodes_expr (hg b hb)
  exact Gathers.record (.cons (by rfl) (by rfl) (decodes_boolean g.recursive)
    (.cons (by rfl) (by rfl) hbindings .nil)) (by rfl) _ _ _

/-- `exported` reads an export back. -/
theorem decodes_exported (e : Export) : Decodes N exported e.encode e :=
  Gathers.record (.cons (by rfl) (by rfl) (decodes_text e.ident)
    (.cons (by rfl) (by rfl) (decodes_optional e.publicName)
      (.cons (by rfl) (by rfl) (decodes_optional e.module) .nil))) (by rfl) _ _ _

/-- `compilationUnit` reads a unit with finite doubles back. -/
theorem decodes_compilationUnit {u : CompilationUnit} (hu : u.IsFinite) :
    Decodes N compilationUnit u.encode u := by
  have hgroups : Decodes N (list bindingGroup) (.array (u.groups.map BindingGroup.encode))
      u.groups :=
    decodes_list fun g hg => decodes_bindingGroup fun b hb =>
      hu b (List.mem_flatMap.mpr ⟨g, hg, hb⟩)
  have hexports : Decodes N (list exported) (.array (u.exports.map Export.encode)) u.exports :=
    decodes_list fun e _ => decodes_exported e
  exact Gathers.record (.cons (by rfl) (by rfl) (decodes_text u.name)
    (.cons (by rfl) (by rfl) (decodes_texts u.imports)
      (.cons (by rfl) (by rfl) (decodes_texts u.foreignNames)
        (.cons (by rfl) (by rfl) hgroups (.cons (by rfl) (by rfl) hexports .nil))))) (by rfl) _ _ _

end Decoder

end TailLoop

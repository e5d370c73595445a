import TailLoop.Proofs.ModuleNames
import TailLoop.Proofs.ReadBack

/-!
# Published names

A module publishes its exports under their public names, whatever they are called inside of it, and
other modules use these names as properties of the module.

* `Script.visibleName?`, `Script.propertyName?`: the name outside that the pieces of an export or of
  a reference mean.
* `Lower.Publishes`: what the exports of a unit become, and how other modules refer to them.
* `Lower.exports_publish`: the exports of all units become that.
-/

namespace TailLoop.Layout

/-! ## Pieces of documents -/

namespace Doc

/-- The document is made of texts only. -/
def isInline : Doc → Bool
  | nil | text _ | styled .. => true
  | append l r => l.isInline && r.isInline
  | _ => false

/-- The pieces of a document that is made of texts only. -/
def pieces : Doc → List Chunk
  | text s => [⟨none, s⟩]
  | styled style s => [⟨some style, s⟩]
  | append l r => l.pieces ++ r.pieces
  | _ => []

@[simp] theorem isInline_cat (d e : Doc) : (d ++ e).isInline = (d.isInline && e.isInline) := by
  show (cat d e).isInline = _
  unfold cat
  split <;> simp [isInline]

@[simp] theorem pieces_cat (d e : Doc) : (d ++ e).pieces = d.pieces ++ e.pieces := by
  show (cat d e).pieces = _
  unfold cat
  split <;> simp [pieces]

/-- If `d` is made of texts only, it is laid out piece by piece. -/
theorem layOut_inline {d : Doc} (hd : d.isInline = true) (width ind : Nat) (mode : Mode)
    (rest : List Doc) {p : Page} (hp : p.pending = none) :
    (d.layOut width ind mode rest p).pending = none ∧
      (d.layOut width ind mode rest p).chunks = d.pieces.reverse ++ p.chunks := by
  have hsettle : p.settle ind = p := by rw [Page.settle, hp]
  induction d generalizing rest p with
  | nil =>
    rw [layOut, hsettle]
    exact ⟨hp, rfl⟩
  | text | styled =>
    rw [layOut, hsettle]
    exact ⟨hp, rfl⟩
  | append l r ihl ihr =>
    rw [isInline, Bool.and_eq_true] at hd
    obtain ⟨hpending, hchunks⟩ := ihl hd.1 (r :: rest) hp hsettle
    obtain ⟨hpending', hchunks'⟩ := ihr hd.2 rest hpending (by rw [Page.settle, hpending])
    refine ⟨hpending', hchunks'.trans ?_⟩
    rw [hchunks, pieces, List.reverse_append, List.append_assoc]
  | _ => cases hd

/-- If `d` is made of texts only, it is printed as its `pieces`. -/
theorem chunks_inline {d : Doc} (hd : d.isInline = true) (width : Nat) :
    d.chunks width = d.pieces := by
  obtain ⟨hpending, hchunks⟩ :=
    layOut_inline hd width 0 .broken [] (show ({} : Page).pending = none from rfl)
  rw [chunks, Page.finish, hpending, hchunks, List.append_nil, List.reverse_reverse]

/-- What was on the page `p` before `d` stays there. -/
theorem suffix_layOut (d : Doc) (width ind : Nat) (mode : Mode) (rest : List Doc) (p : Page) :
    p.chunks <:+ (d.layOut width ind mode rest p).chunks := by
  have hsettle (p : Page) (ind : Nat) : p.chunks <:+ (p.settle ind).chunks := by
    unfold Page.settle
    split
    · exact List.suffix_cons ..
    · exact List.suffix_refl _
  induction d generalizing ind mode rest p with
  | nil => exact hsettle p ind
  | text | styled => exact (hsettle p ind).trans (List.suffix_cons ..)
  | hardline => exact hsettle p ind
  | append l r ihl ihr => exact (ihl ind mode (r :: rest) p).trans (ihr ind mode rest _)
  | nest n d ih => exact (hsettle p ind).trans (ih ..)
  | align d ih => exact (hsettle p ind).trans (ih ..)
  | group d ih => cases mode <;> exact (hsettle p ind).trans (ih ..)
  | flatAlt broken flat ihb ihf =>
    cases mode with
    | flat => exact (hsettle p ind).trans (ihf ..)
    | broken => exact (hsettle p ind).trans (ihb ..)

/-- However `d` is laid out, the pieces `cs` are written first. -/
def Begins (d : Doc) (cs : List Chunk) : Prop :=
  ∀ (width ind : Nat) (mode : Mode) (rest : List Doc) (p : Page), p.pending = none →
    cs.reverse ++ p.chunks <:+ (d.layOut width ind mode rest p).chunks

/-- Every document begins with nothing. -/
theorem begins_nil (d : Doc) : d.Begins [] :=
  fun width ind mode rest p _ => d.suffix_layOut width ind mode rest p

/-- If `d` is made of texts only, its `pieces` are written before what comes behind them. -/
theorem Begins.cat {d e : Doc} {cs : List Chunk} (h : e.Begins cs) (hd : d.isInline = true) :
    (d ++ e).Begins (d.pieces ++ cs) := by
  intro width ind mode rest p hp
  show _ <:+ ((Doc.cat d e).layOut width ind mode rest p).chunks
  unfold Doc.cat
  split
  · exact h width ind mode rest p hp
  · obtain ⟨hpending, hchunks⟩ := layOut_inline hd width ind mode rest hp
    -- the document behind the texts is empty, and so begins with nothing only
    have hnil : cs.reverse ++ [] <:+ [] := h 0 0 .flat [] {} rfl
    obtain rfl : cs = [] := by simpa using hnil
    have hall : (d.layOut width ind mode rest p).chunks =
        (d.pieces ++ []).reverse ++ p.chunks := by rw [hchunks, List.append_nil]
    exact hall ▸ List.suffix_refl _
  · obtain ⟨hpending, hchunks⟩ := layOut_inline hd width ind mode (e :: rest) hp
    have hrest := h width ind mode rest _ hpending
    rw [hchunks, ← List.append_assoc, ← List.reverse_append] at hrest
    exact hrest

/-- What `d` begins with is printed first, whatever the `width`. -/
theorem Begins.chunks {d : Doc} {cs : List Chunk} (h : d.Begins cs) (width : Nat) :
    cs <+: d.chunks width := by
  have hsuffix := h width 0 .broken [] {} rfl
  have hprefix := List.reverse_prefix.2 hsuffix
  rw [List.append_nil, List.reverse_reverse] at hprefix
  unfold Doc.chunks Page.finish
  split
  · exact hprefix.trans (List.reverse_prefix.2 (List.suffix_cons ..))
  · exact hprefix

end Doc

end TailLoop.Layout

namespace TailLoop.Script

open Layout

/-! ## Names in pieces -/

/-- The piece is the word behind which the public name of an export stands. -/
def isAs (c : Chunk) : Bool :=
  decide (c.style = some { color := .magenta, bold := true }) && decide (c.text = "as")

/-- The pieces of an export that are the name inside of the module, before the word `as` or all of
them. -/
def localPieces (cs : List Chunk) : List Chunk :=
  if cs.any isAs then (cs.takeWhile fun c => !isAs c).dropLast else cs

/-- The pieces of an export that are the name outside of the module: those behind the word `as` and
a space, or else all of them. -/
def visiblePieces (cs : List Chunk) : List Chunk :=
  match cs.dropWhile fun c => !isAs c with
  | _ :: _ :: cs => cs
  | _ => cs

/-- Without the word `as`, all pieces are both names. -/
theorem visiblePieces_of_no_as {cs : List Chunk} (h : ∀ c ∈ cs, isAs c = false) :
    visiblePieces cs = cs ∧ localPieces cs = cs := by
  have hany : cs.any isAs = false := by
    rw [List.any_eq_false]
    exact fun c hc => by rw [h c hc]; exact Bool.false_ne_true
  have hdrop : (cs.dropWhile fun c => !isAs c) = [] := by
    rw [← List.append_nil cs, List.dropWhile_append_of_pos fun c hc => by rw [h c hc]; rfl]
    rfl
  exact ⟨by rw [visiblePieces, hdrop], by rw [localPieces, hany]; rfl⟩

/-- Behind the word `as` stand the pieces `ds` of the public name. -/
theorem visiblePieces_as {cs : List Chunk} (h : ∀ c ∈ cs, isAs c = false) (ds : List Chunk) :
    let all := cs ++ (Doc.space.pieces ++ ((keyword "as").pieces ++ (Doc.space.pieces ++ ds)))
    visiblePieces all = ds ∧ localPieces all = cs := by
  intro all
  have hpos : ∀ c ∈ cs ++ Doc.space.pieces, (!isAs c) = true := by
    intro c hc
    rcases List.mem_append.1 hc with hc | hc
    · rw [h c hc]
      rfl
    · rw [List.mem_singleton.1 hc]
      rfl
  have hall : all =
      (cs ++ Doc.space.pieces) ++ ((keyword "as").pieces ++ (Doc.space.pieces ++ ds)) :=
    (List.append_assoc ..).symm
  have hany : all.any isAs = true := by
    rw [hall, List.any_append]
    exact Bool.or_true _
  constructor
  · rw [visiblePieces, hall, List.dropWhile_append_of_pos hpos]
    rfl
  · rw [localPieces, hany, if_pos rfl, hall, List.takeWhile_append_of_pos hpos]
    have htake : (((keyword "as").pieces ++ (Doc.space.pieces ++ ds)).takeWhile
        fun c => !isAs c) = [] := rfl
    rw [htake, List.append_nil]
    exact List.dropLast_concat

/-- A name is published as its public name `public?`, and as itself if it has none, however it is
written inside of the module. -/
theorem publicName_getD (source : Option String) (name : String) (public? : Option String) :
    (publicName source name public?).getD (if source.isSome then name else escapeIdent name) =
      public?.getD name := by
  unfold publicName
  split
  · rfl
  · rfl
  · split
    · rfl
    · rename_i hescape
      exact Decidable.not_not.1 hescape

variable [Letters]

/-- The name that pieces mean: a highlighted text is quoted, all others are names as they are. -/
def pieceName? : List Chunk → Option String
  | [] => some ""
  | [⟨none, s⟩] => some s
  | [⟨some _, s⟩] =>
    match lex s with
    | some [.text t] => some t
    | _ => none
  | _ => none

/-- The name outside of the module that the pieces of an export mean. -/
def visibleName? (cs : List Chunk) : Option String := pieceName? (visiblePieces cs)

/-- The name of the property with which the pieces of an expression end: the quoted one in front of
a closing bracket, or else the one behind a dot. -/
def propertyName? (cs : List Chunk) : Option String :=
  match cs.reverse with
  | [] => none
  | last :: before =>
    if last.text = "]" then pieceName? before.head?.toList
    else if last.text.toList.head? = some '.' then some (String.ofList last.text.toList.tail)
    else none

/-- `identDoc` is one piece, or none if the name is empty, and it is not the word `as`. -/
theorem inline_identDoc (name : String) : (identDoc name).isInline = true ∧
    pieceName? (identDoc name).pieces = some (escapeIdent name) ∧
      ∀ c ∈ (identDoc name).pieces, isAs c = false := by
  unfold identDoc Doc.str
  split
  · rename_i hempty
    exact ⟨rfl, congrArg some hempty.symm, by nofun⟩
  · exact ⟨rfl, rfl, fun c hc => by rw [List.mem_singleton.1 hc]; rfl⟩

/-- `textDoc` is one piece, which means the text `s`. -/
theorem inline_textDoc (s : String) : (textDoc s).isInline = true ∧
    pieceName? (textDoc s).pieces = some s ∧ ∀ c ∈ (textDoc s).pieces, isAs c = false := by
  refine ⟨rfl, ?_, fun c hc => by rw [List.mem_singleton.1 hc]; rfl⟩
  show (match lex (Text.quote s) with | some [.text t] => some t | _ => none) = some s
  rw [(cuts_text s).lex]

/-- `outerName` is one piece, which means the name. -/
theorem inline_outerName (name : String) : (outerName name).isInline = true ∧
    pieceName? (outerName name).pieces = some name ∧
      ∀ c ∈ (outerName name).pieces, isAs c = false := by
  unfold outerName
  split
  · rename_i hname
    have hne : name ≠ "" := by
      rintro rfl
      cases hname
    rw [Doc.str, if_neg hne]
    exact ⟨rfl, rfl, fun c hc => by rw [List.mem_singleton.1 hc]; rfl⟩
  · exact inline_textDoc name

/-! ## Exports -/

/-- `exportNameDoc` is one line of pieces: those of the name inside, and those of the name outside,
which are the same if no public name is written. -/
theorem exportNameDoc_pieces (source : Option String) (name : String) (public? : Option String) :
    (exportNameDoc source name public?).isInline = true ∧
      visibleName? (exportNameDoc source name public?).pieces = some (public?.getD name) ∧
      localPieces (exportNameDoc source name public?).pieces =
        (if source.isSome then outerName name else identDoc name).pieces := by
  have hinner : (if source.isSome then outerName name else identDoc name).isInline = true ∧
      pieceName? (if source.isSome then outerName name else identDoc name).pieces =
        some (if source.isSome then name else escapeIdent name) ∧
      ∀ c ∈ (if source.isSome then outerName name else identDoc name).pieces, isAs c = false := by
    split
    · exact inline_outerName name
    · exact inline_identDoc name
  rw [← publicName_getD source]
  unfold exportNameDoc
  generalize (if source.isSome then outerName name else identDoc name) = inner at hinner ⊢
  obtain ⟨hinline, hname, has⟩ := hinner
  cases publicName source name public? with
  | some p =>
    obtain ⟨hinline', hname', -⟩ := inline_outerName p
    obtain ⟨hvisible, hlocal⟩ := visiblePieces_as has (outerName p).pieces
    simp only [Doc.isInline_cat, Doc.pieces_cat, hinline, hinline', Bool.and_true, Bool.true_and]
    refine ⟨rfl, ?_, hlocal⟩
    rw [visibleName?, hvisible, hname', Option.getD_some]
  | none =>
    obtain ⟨hvisible, hlocal⟩ := visiblePieces_of_no_as has
    refine ⟨hinline, ?_, hlocal⟩
    rw [visibleName?, hvisible, hname, Option.getD_none]

/-! ## References -/

/-- A property of an imported module is printed on one line that ends with its name. -/
theorem access_pieces (object property : String) :
    (Expr.access (.ident object) property).doc.isInline = true ∧
      propertyName? (Expr.access (.ident object) property).doc.pieces = some property := by
  have hdoc : (Expr.access (.ident object) property).doc =
      identDoc object ++ propertyDoc property := rfl
  obtain ⟨hinline, -, -⟩ := inline_identDoc object
  rw [hdoc, Doc.isInline_cat, hinline, Doc.pieces_cat, propertyDoc]
  split
  · have hchars : ("." ++ property).toList = '.' :: property.toList := String.toList_append
    have hne : "." ++ property ≠ "]" := by
      intro h
      have hhead := congrArg (·.toList.head?) h
      rw [hchars] at hhead
      cases hhead
    refine ⟨rfl, ?_⟩
    rw [propertyName?, List.reverse_append]
    show (if "." ++ property = "]" then _ else if ("." ++ property).toList.head? = some '.' then
      some (String.ofList ("." ++ property).toList.tail) else none) = _
    rw [if_neg hne, hchars]
    exact congrArg some String.ofList_toList
  · refine ⟨rfl, ?_⟩
    rw [propertyName?, List.reverse_append]
    exact (inline_textDoc property).2.1

/-- A declaration begins with a word, a space, the name `x` and a sign. -/
theorem begins_declaration {s : Stmt} {x : String} (h : s.declares? = some x) :
    ∃ word sign, s.doc.full.Begins ((keyword word).pieces ++ (Doc.space.pieces ++
      ((identDoc x).pieces ++ [⟨none, sign⟩]))) := by
  have hhead (word sign : String) (rest : Doc) :
      ((keyword word ++ (Doc.space ++ identDoc x)) ++ (Doc.text sign ++ rest)).Begins
        ((keyword word).pieces ++ (Doc.space.pieces ++ ((identDoc x).pieces ++
          [⟨none, sign⟩]))) := by
    have hinline : (keyword word ++ (Doc.space ++ identDoc x)).isInline = true := by
      simp only [Doc.isInline_cat, (inline_identDoc x).1, Bool.and_true]
      rfl
    have hbegins := (rest.begins_nil.cat (d := .text sign) rfl).cat hinline
    simpa [Doc.pieces] using hbegins
  cases s with
  | const y value =>
    obtain rfl := Option.some.inj h
    exact ⟨"const", " = ", hhead "const" " = " _⟩
  | declare y value =>
    obtain rfl := Option.some.inj h
    cases value with
    | none => exact ⟨"let", ";", hhead "let" ";" .nil⟩
    | some value => exact ⟨"let", " = ", hhead "let" " = " _⟩
  | _ => cases h

end TailLoop.Script

namespace TailLoop.Lower

open Layout Script

/-! ## Lists of exports -/

/-- The exports from one `source`, in order. -/
def exportsFrom (c : Context) (source : Option String) (exports : List Export) :
    List (String × Option String) :=
  (exports.filter fun e => decide (exportSource c e = source)).map exportName

/-- Enters `e` behind the exports of the same source. -/
def enterExport (c : Context) (t : Table (Option String) (List (String × Option String)))
    (e : Export) : Table (Option String) (List (String × Option String)) :=
  t.alter (exportSource c e) fun old => old.getD [] ++ [exportName e]

variable {c : Context}

/-- The sources are entered in order of appearance, behind those `seen` before. -/
theorem keys_enterExports {t : Table (Option String) (List (String × Option String))}
    {seen : List (Option String)} (h : t.keys = seen.eraseDups) (exports : List Export) :
    (exports.foldl (enterExport c) t).keys = (seen ++ exports.map (exportSource c)).eraseDups := by
  induction exports generalizing t seen with
  | nil => rw [List.map_nil, List.append_nil, List.foldl_nil, h]
  | cons e rest ih =>
    have hstep : (enterExport c t e).keys = (seen ++ [exportSource c e]).eraseDups := by
      have hsingle : [exportSource c e].eraseDups = [exportSource c e] := rfl
      rw [enterExport, Table.keys_alter, h, List.eraseDups_append]
      by_cases hmem : exportSource c e ∈ seen <;> simp [hmem, List.removeAll, hsingle]
    rw [List.foldl_cons, ih hstep, List.map_cons, List.append_assoc, List.singleton_append]

/-- Behind every `source` stand its exports in order. -/
theorem get?_enterExports (t : Table (Option String) (List (String × Option String)))
    (exports : List Export) (source : Option String) :
    ((exports.foldl (enterExport c) t).get? source).getD [] =
      (t.get? source).getD [] ++ exportsFrom c source exports := by
  induction exports generalizing t with
  | nil => exact (List.append_nil _).symm
  | cons e rest ih =>
    rw [List.foldl_cons, ih, enterExport, Table.get?_alter]
    by_cases hsource : source = exportSource c e
    · simp [exportsFrom, hsource]
    · simp [exportsFrom, hsource, Ne.symm hsource]

/-- What is listed under the different keys `ks` is, taken together, everything whose key is
listed. -/
theorem perm_flatMap_filter {α κ : Type} [DecidableEq κ] (key : α → κ) {ks : List κ}
    (hks : ks.Nodup)
    {as : List α} (has : ∀ a ∈ as, key a ∈ ks) :
    (ks.flatMap fun k => as.filter fun a => decide (key a = k)).Perm as := by
  induction ks generalizing as with
  | nil =>
    cases as with
    | nil => exact .nil
    | cons a rest => cases has a (List.mem_cons_self ..)
  | cons k ks ih =>
    obtain ⟨hk, hks⟩ := List.nodup_cons.1 hks
    -- without what is listed under the first key, the other lists stay as they are
    have hothers : ∀ a ∈ as.filter (fun a => !decide (key a = k)), key a ∈ ks := by
      intro a ha
      obtain ⟨ha, hne⟩ := List.mem_filter.1 ha
      exact (List.mem_cons.1 (has a ha)).resolve_left (by simpa using hne)
    have hrest := ih hks hothers
    have hsame : (ks.flatMap fun k' => (as.filter fun a => !decide (key a = k)).filter fun a =>
        decide (key a = k')) = ks.flatMap fun k' => as.filter fun a => decide (key a = k') := by
      rw [List.flatMap_def, List.flatMap_def]
      refine congrArg List.flatten (List.map_congr_left fun k' hk' => ?_)
      rw [List.filter_filter]
      refine List.filter_congr fun a _ => ?_
      by_cases hkey : key a = k'
      · have hne : k' ≠ k := fun h => hk (h ▸ hk')
        simp [hkey, hne]
      · simp [hkey]
    rw [hsame] at hrest
    rw [List.flatMap_cons]
    exact (hrest.append_left _).trans (List.filter_append_perm ..)

/-- The sources of the lists are those of the `exports` in order of appearance, each once, and each
list has the exports of its source in order. -/
theorem exportLists_spec (c : Context) (exports : List Export) :
    (exportLists c exports).map ExportList.source =
        (exports.map (exportSource c)).eraseDups ∧
      ((exportLists c exports).map ExportList.source).Nodup ∧
      ∀ l ∈ exportLists c exports, l.names = exportsFrom c l.source exports := by
  let t := exports.foldl (enterExport c) .empty
  have hlists : exportLists c exports = t.entries.map fun e => ⟨e.2, e.1⟩ := rfl
  have hsources : (exportLists c exports).map ExportList.source = t.keys := by
    rw [hlists, List.map_map]
    rfl
  rw [hsources]
  have hempty : (Table.empty : Table (Option String) (List (String × Option String))).keys =
      ([] : List (Option String)).eraseDups := rfl
  refine ⟨keys_enterExports hempty exports, t.nodup_keys, fun l hl => ?_⟩
  obtain ⟨⟨source, names⟩, he, rfl⟩ := List.mem_map.1 hl
  have hget : t.get? source = some names := Table.get?_of_mem he
  have hnames := get?_enterExports (c := c) .empty exports source
  rw [show exports.foldl (enterExport c) .empty = t from rfl, hget] at hnames
  exact hnames

/-- Taken together, the lists have every one of `exports` once, with its source. -/
theorem perm_exportLists (c : Context) (exports : List Export) :
    ((exportLists c exports).flatMap fun l => l.names.map fun n => (l.source, n)).Perm
      (exports.map fun e => (exportSource c e, exportName e)) := by
  obtain ⟨hsources, hdistinct, hordered⟩ := exportLists_spec c exports
  have hmem : ∀ e ∈ exports, exportSource c e ∈ (exportLists c exports).map ExportList.source := by
    intro e he
    rw [hsources, List.mem_eraseDups]
    exact List.mem_map_of_mem he
  have hlist (l : ExportList) (hl : l ∈ exportLists c exports) :
      l.names.map (fun n => (l.source, n)) =
        (exports.filter fun e => decide (exportSource c e = l.source)).map fun e =>
          (exportSource c e, exportName e) := by
    rw [hordered l hl, exportsFrom, List.map_map]
    refine List.map_congr_left fun e he => ?_
    exact Prod.ext (of_decide_eq_true (List.mem_filter.1 he).2).symm rfl
  have hflat : ((exportLists c exports).flatMap fun l => l.names.map fun n => (l.source, n)) =
      (((exportLists c exports).map ExportList.source).flatMap fun source =>
        exports.filter fun e => decide (exportSource c e = source)).map fun e =>
          (exportSource c e, exportName e) := by
    rw [List.map_flatMap, List.flatMap_map, List.flatMap_def, List.flatMap_def]
    exact congrArg List.flatten (List.map_congr_left hlist)
  rw [hflat]
  exact (perm_flatMap_filter (exportSource c) hdistinct hmem).map _

/-! ## What is published -/

/-- The document of the export `e` in the list of its source. -/
def exportDoc (c : Context) (e : Export) : Doc :=
  exportNameDoc (exportSource c e) (exportName e).1 (exportName e).2

/-- The name that `e` is meant to have outside of the module. -/
def publishedName (e : Export) : String := e.publicName.getD e.ident

/-- What is written behind the name is `publishedName`, if that is another one. -/
theorem exportName_getD (e : Export) :
    (exportName e).2.getD (exportName e).1 = publishedName e := by
  obtain ⟨ident, publicName, module⟩ := e
  cases publicName with
  | none => rfl
  | some p =>
    by_cases hp : p = ident
    · simp [exportName, publishedName, Option.filter, hp]
    · simp [exportName, publishedName, Option.filter, hp]

/-- What the exports of the unit `u` become in its module `m`, and how other modules refer to them,
whatever the letters of the language. -/
structure Publishes [Letters] (u : CompilationUnit) (c : Context) (m : Script.Module) : Prop where
  /-- Taken together, the lists have every export as often as the unit has it. -/
  complete : (m.exports.flatMap fun l => l.names.map fun n => (l.source, n)).Perm
    (u.exports.map fun e => (exportSource c e, exportName e))
  /-- There is one list for each source. -/
  distinct : (m.exports.map ExportList.source).Nodup
  /-- The sources stand in the order of their first exports. -/
  sources : m.exports.map ExportList.source = (u.exports.map (exportSource c)).eraseDups
  /-- The exports of a source stand in their order. -/
  ordered : ∀ l ∈ m.exports, l.names = exportsFrom c l.source u.exports
  /-- They are printed one by one. -/
  printed : ∀ l ∈ m.exports, l.names.map (fun n => exportNameDoc l.source n.1 n.2) =
    (u.exports.filter fun e => decide (exportSource c e = l.source)).map (exportDoc c)
  /-- The pieces in which an export is printed mean the published name, whatever the names are. -/
  visible : ∀ (e : Export) (width : Nat),
    visibleName? ((exportDoc c e).chunks width) = some (publishedName e)
  /-- So does the text, if it is a text of the language: it can be read in one way. -/
  read : ∀ (e : Export) (width : Nat),
    isExportLegible (exportSource c e) (exportName e).1 (exportName e).2 = true →
    ∃ n : String × Option String, n.2.getD n.1 = publishedName e ∧
      ∀ n', Reads .exportName ((exportDoc c e).render width false) n' ↔ n' = n
  /-- A binding is declared. -/
  declared : ∀ x ∈ u.bindings.map Prod.fst, ∃ s ∈ m.declarations, s.declares? = some x
  /-- What is exported from this module is printed with the pieces of its declaration. -/
  here : ∀ (e : Export) (width : Nat), exportSource c e = none →
    ∀ s ∈ m.declarations, s.declares? = some e.ident → ∃ word sign rest,
      s.doc.full.chunks width = (keyword word).pieces ++ (Doc.space.pieces ++
        (localPieces ((exportDoc c e).chunks width) ++ ([⟨none, sign⟩] ++ rest)))
  /-- Other modules refer to an export without public name by the name it is published under. -/
  imported : ∀ (importer : Context) (e : Export) (width width' : Nat), importer.name ≠ u.name →
    e.publicName = none →
    globalExpr importer ⟨some u.name, e.ident⟩ = .access (.ident (moduleAlias u.name)) e.ident ∧
      propertyName? ((globalExpr importer ⟨some u.name, e.ident⟩).doc.chunks width') =
        visibleName? ((exportDoc c e).chunks width)

/-- **Exports publish their names, and importers use the same ones.** -/
theorem exports_publish [Letters] (u : CompilationUnit) (loops : Bool) :
    Publishes u (.ofUnit u loops) (Lower.module u loops).result := by
  let c := Context.ofUnit u loops
  obtain ⟨hsources, hdistinct, hordered⟩ := exportLists_spec c u.exports
  have hvisible (e : Export) (width : Nat) :
      visibleName? ((exportDoc c e).chunks width) = some (publishedName e) := by
    obtain ⟨hinline, hname, -⟩ :=
      exportNameDoc_pieces (exportSource c e) (exportName e).1 (exportName e).2
    rw [exportDoc, Doc.chunks_inline hinline, hname, exportName_getD]
  refine ⟨perm_exportLists c u.exports, hdistinct, hsources, hordered, ?_, hvisible, ?_, ?_, ?_, ?_⟩
  -- the list from one source has the exports from there, in their order
  · intro l hl
    rw [hordered l hl, exportsFrom, List.map_map]
    refine List.map_congr_left fun e he => ?_
    obtain ⟨-, hsource⟩ := List.mem_filter.1 he
    rw [exportDoc, of_decide_eq_true hsource]
    rfl
  -- a reader of the text sees the published name
  · intro e width h
    refine ⟨_, ?_, (spells_exportName h).reads_iff rfl width⟩
    exact (publicName_getD ..).trans (exportName_getD e)
  · intro x hx
    exact List.mem_filterMap.1 ((declared_module u loops).1 x hx)
  -- an export of the unit itself is written with the name of a declaration
  · intro e width hsource s hs hdeclares
    obtain ⟨word, sign, hbegins⟩ := begins_declaration hdeclares
    obtain ⟨rest, hrest⟩ := hbegins.chunks width
    obtain ⟨hinline, -, hlocal⟩ :=
      exportNameDoc_pieces (exportSource c e) (exportName e).1 (exportName e).2
    rw [exportDoc, Doc.chunks_inline hinline, hlocal, ← hrest]
    refine ⟨word, sign, rest, ?_⟩
    have hhere : (if (exportSource c e).isSome then outerName (exportName e).1
        else identDoc (exportName e).1) = identDoc e.ident := by
      rw [hsource]
      rfl
    rw [hhere]
    simp only [List.append_assoc]
  -- another module reaches the export by the property of that name
  · intro importer e width width' hname hpublic
    have hglobal : globalExpr importer ⟨some u.name, e.ident⟩ =
        .access (.ident (moduleAlias u.name)) e.ident := by
      have hlocal : importer.isLocal ⟨some u.name, e.ident⟩ = false := by
        simp [Context.isLocal, hname.symm]
      rw [globalExpr, hlocal]
    refine ⟨hglobal, ?_⟩
    obtain ⟨hinline, hproperty⟩ := access_pieces (moduleAlias u.name) e.ident
    rw [hglobal, Doc.chunks_inline hinline, hproperty, hvisible, publishedName, hpublic]
    rfl

end TailLoop.Lower

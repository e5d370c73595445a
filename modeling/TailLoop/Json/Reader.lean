import TailLoop.Json.Lexer

/-!
# Reading a JSON text

The tokens of a text are put together with a stack of open containers. Where a token does not fit,
every open container is cut and the rest of the text is left alone.
-/

namespace TailLoop.Json

/-- A text as read: its value, and whether nothing but blanks follows it. -/
structure Document where
  /-- The value. -/
  value : Json
  /-- Whether the text ends with the value. -/
  clean : Bool

/-- A container that is open while one of its values is read. -/
inductive Frame where
  /-- An array, with its finished items (last first). -/
  | items (done : List Json)
  /-- An object, with its finished members (last first) and the name of the one being read. -/
  | members (done : List (Json × Json)) (key : Json)

/-- A place in a text between two tokens. -/
inductive Place where
  /-- Where a value must stand. -/
  | value
  /-- Where an item or the end of an array must stand. -/
  | item (done : List Json) (afterComma : Bool)
  /-- Where a member or the end of an object must stand. -/
  | key (done : List (Json × Json)) (afterComma : Bool)
  /-- After the name of a member. -/
  | colon (done : List (Json × Json)) (key : Json)
  /-- After a value. -/
  | after (value : Json)

/-- The value of a text that breaks off within or right after `j`, with all open containers cut. -/
def cutAll (f : Fault) (j : Json) : List Frame → Json
  | [] => j
  | .items done :: stack => cutAll f (.arr (j :: done).reverse (.cut f false)) stack
  | .members done key :: stack => cutAll f (.obj ((key, j) :: done).reverse (.cut f false)) stack

/-- The document of a text that breaks off within or right after `j`. -/
def broken (f : Fault) (j : Json) (stack : List Frame) : Document := ⟨cutAll f j stack, true⟩

/-- The place after a token that stands where a value must. -/
def Token.asValue : Token → Place
  | .openArray => .item [] false
  | .openObject => .key [] false
  | .leaf j => .after j
  | _ => .after (fault .other .malformed)

/-- What a token that is no name looks like to whoever reads it as one. -/
def Token.asKey : Token → Json
  | .openArray => .arr [] (.cut .malformed false)
  | .openObject => .obj [] (.cut .malformed false)
  | .leaf j => j
  | _ => fault .other .malformed

/-- The fault that ends the text at `j`, if one does. -/
def faultOf : Json → Fault
  | .unreadable _ _ (some f) => f
  | _ => .malformed

/-- The document of a text that ends at a place. -/
def atEnd (place : Place) (stack : List Frame) : Document :=
  let eof := Fault.endOfText
  match place with
  | .value => broken eof (fault .nothing eof) stack
  | .item done comma => broken eof (.arr done.reverse (.cut eof comma)) stack
  | .key done comma => broken eof (.obj done.reverse (.cut eof comma)) stack
  | .colon done key =>
    broken eof (.obj ((key, fault .nothing eof) :: done).reverse (.cut eof false)) stack
  | .after j => ⟨cutAll eof j stack, true⟩

/-- Puts tokens together from a place within a stack of open containers. -/
def assemble (place : Place) (stack : List Frame) : List Token → Document
  | [] => atEnd place stack
  | t :: rest =>
    match place with
    | .value => assemble t.asValue stack rest
    | .item done comma =>
      match t, comma with
      | .closeArray, false => assemble (.after (.arr done.reverse .closed)) stack rest
      | .closeArray, true => broken .malformed (.arr done.reverse (.cut .malformed true)) stack
      | t, _ => assemble t.asValue (.items done :: stack) rest
    | .key done comma =>
      match t, comma with
      | .closeObject, false => assemble (.after (.obj done.reverse .closed)) stack rest
      | .leaf (.str s), _ => assemble (.colon done (.str s)) stack rest
      -- a name with a fault inside, which can still be passed over
      | .leaf (.unreadable .quote onRead none), _ =>
        assemble (.colon done (.unreadable .quote onRead none)) stack rest
      -- a name that breaks off
      | .leaf (.unreadable .quote onRead (some f)), _ =>
        broken f (.obj ((.unreadable .quote onRead (some f), fault .nothing f) :: done).reverse
          (.cut f comma)) stack
      | t, false =>
        broken .malformed (.obj ((t.asKey, fault .nothing .malformed) :: done).reverse
          (.cut .malformed false)) stack
      | _, true => broken .malformed (.obj done.reverse (.cut .malformed true)) stack
    | .colon done key =>
      match t with
      | .colon => assemble .value (.members done key :: stack) rest
      | _ =>
        broken .malformed (.obj ((key, fault .nothing .malformed) :: done).reverse
          (.cut .malformed false)) stack
    | .after j =>
      if j.stops then broken (faultOf j) j stack
      else
        match stack, t with
        -- something follows the outermost value
        | [], _ => ⟨j, false⟩
        | .items done :: stack, .comma => assemble (.item (j :: done) true) stack rest
        | .items done :: stack, .closeArray =>
          assemble (.after (.arr (j :: done).reverse .closed)) stack rest
        | .members done key :: stack, .comma => assemble (.key ((key, j) :: done) true) stack rest
        | .members done key :: stack, .closeObject =>
          assemble (.after (.obj ((key, j) :: done).reverse .closed)) stack rest
        | stack, _ => ⟨cutAll .malformed j stack, true⟩

/-- Reads a text. -/
def read (text : String) : Document := assemble .value [] (tokens text)

end TailLoop.Json

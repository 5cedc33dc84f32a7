import RouteDocs.Source.Pattern
import RouteDocs.Warning

/-!
# Route declarations

A declaration names a verb, a URL and a handler:

    routes:get("@/:int/docs/:str", function(req, index, doc)

The first argument of the handler is the request. The others name the typed placeholders of the URL,
in their order.

## Main definitions

* `Signature`, `PathParameter`: what a declaration says.
* `Signature.Malformed`: why a line is no declaration.
* `Signature.parse`: reads a line.
-/

namespace RouteDocs

open Text Source

/-- A parameter in the path of a URL. -/
structure PathParameter where
  name : String
  type : String
deriving DecidableEq

/-- A route as its declaration gives it. -/
structure Signature where
  verb : String
  /-- The URL with the names of the parameters, in braces, in place of the placeholders. -/
  urlTemplate : String
  /-- The arguments of the handler after the first. -/
  parameterNames : List String
  /-- The placeholders that have a name. -/
  parameters : List PathParameter
deriving DecidableEq

namespace Signature

/-- The part of a declaration that a line lacks. -/
inductive Lack where
  | verb
  | url
  | handler
deriving DecidableEq

/-- A line that is no declaration. -/
structure Malformed where
  line : String
  lack : Lack
deriving DecidableEq

/-- What was expected in the line. -/
def Lack.reason : Lack → String
  | .verb => "expected `routes:<verb>(`"
  | .url => "expected a quoted URL starting with `@/`"
  | .handler => "expected a `function(...)` handler"

/-- The wording of the failure. -/
def Malformed.message (m : Malformed) : String :=
  "malformed route signature `" ++ m.line ++ "`: " ++ m.lack.reason

/-- The arguments between the brackets of a handler, without empty ones and without the first. -/
def argumentNames (arguments : List Char) : List String :=
  (((splitOn ',' arguments).map trim).filter fun a => !a.isEmpty).tail.map String.ofList

/-- The typed placeholders of a URL, each with the text in front of it. -/
def placeholders (url : List Char) : List (List Char × Match) :=
  Pattern.placeholder.allMatches none url

/-- The URL with names in place of its placeholders, as long as there are both. `url` is the text
that the placeholders stand in, from the end of the last one replaced. -/
def substitute (url : List Char) : List (List Char × Match) → List String → List Char
  | (skipped, m) :: ms, name :: names =>
    skipped ++ '{' :: (name.toList ++ '}' :: substitute m.rest ms names)
  | _, _ => url

/-- The placeholders that have a name. -/
def pathParameters (ms : List (List Char × Match)) (names : List String) : List PathParameter :=
  ms.zipWith (fun (_, m) name => ⟨name, String.ofList (m.group 0)⟩) names

/-- Replaces the placeholders of the URL by names, and reports if there are not as many. -/
def ofParts (verb url : List Char) (names : List String) : Logged Signature :=
  let ms := placeholders url
  { result :=
      { verb := String.ofList verb
        urlTemplate := String.ofList (substitute url ms names)
        parameterNames := names
        parameters := pathParameters ms names }
    log :=
      if ms.length = names.length then []
      else [.placeholderCount (String.ofList url) ms.length names.length] }

/-- The first group of the leftmost match. -/
def firstGroup? (p : Pattern) (line : List Char) : Option (List Char) :=
  (p.search? none line).map fun (_, m) => m.group 0

/-- Reads a declaration. The first part that is missing, in the order of the declaration, is the
reason of a failure. -/
def parse (line : String) : Except Malformed (Logged Signature) :=
  let text := line.toList
  let malformed (lack : Lack) : Malformed := ⟨String.ofList (trim text), lack⟩
  match firstGroup? Pattern.verb text with
  | none => .error (malformed .verb)
  | some verb =>
    match firstGroup? Pattern.url text with
    | none => .error (malformed .url)
    | some url =>
      match firstGroup? Pattern.handler text with
      | none => .error (malformed .handler)
      | some arguments => .ok (ofParts verb url (argumentNames arguments))

end Signature

end RouteDocs

import RouteDocs.Yaml.Node

/-!
# The nodes of a token sequence

## Main definitions

* `Yaml.Properties`: the anchor and the tag in front of a node.
* `Node.ofTokens?`: the node in front of a token sequence.
* `Yaml.document?`: the root of a sequence that holds one document, if it holds one.
-/

namespace RouteDocs.Yaml

/-- The tag handles in force, with what they stand for. -/
abbrev Handles := List (String × String)

/-- The anchor and the tag in front of a node. -/
structure Properties where
  anchor : Option String := none
  tag : Option String := none

/-- There is neither an anchor nor a tag. -/
def Properties.isEmpty (p : Properties) : Bool := p.anchor.isNone && p.tag.isNone

/-- What a tag stands for. A handle has to be declared. -/
def resolveTag? (handles : Handles) (handle suffix : String) : Option String :=
  if handle.isEmpty then some suffix else (handles.lookup handle).map (· ++ suffix)

/-- The properties in front of a node, in either order. -/
def properties? (handles : Handles) : List Token → Option (Properties × List Token)
  | .anchor a :: .tag h s :: ts => do
    let t ← resolveTag? handles h s
    return (⟨some a, some t⟩, ts)
  | .anchor a :: ts => some (⟨some a, none⟩, ts)
  | .tag h s :: .anchor a :: ts => do
    let t ← resolveTag? handles h s
    return (⟨some a, some t⟩, ts)
  | .tag h s :: ts => do
    let t ← resolveTag? handles h s
    return (⟨none, some t⟩, ts)
  | ts => some ({}, ts)

/-- A scalar with properties. The tag `!` alone is kept like any other, also in front of plain
text. -/
def Properties.scalar (p : Properties) (style : Style) (text : String) : Node String :=
  .scalar p.anchor { tag := p.tag, style := style, text := text }

/-- The next token is one of those that leave out a node. -/
def omitted (ends : List Token) (ts : List Token) : Bool := ts.head?.any ends.contains

namespace Node

mutual

/-- The node in front of a token sequence. Block collections are allowed if `block` holds, and items
without indentation if `indentless` holds. -/
def ofTokens? (handles : Handles) : (fuel : Nat) → (block indentless : Bool) → List Token →
    Option (Node String × List Token)
  | 0, _, _, _ => none
  | _ + 1, _, _, .alias name :: ts => some (.alias name, ts)
  | fuel + 1, block, indentless, ts => do
    let (p, ts) ← properties? handles ts
    match ts with
    | .scalar style text :: ts => return (p.scalar style text, ts)
    | .flowSequenceStart :: ts =>
      let (items, ts) ← flowItems? handles fuel true ts
      return (.sequence p.anchor p.tag items, ts)
    | .flowMappingStart :: ts =>
      let (entries, ts) ← flowEntries? handles fuel true ts
      return (.mapping p.anchor p.tag entries, ts)
    | t :: ts =>
      if indentless && t = .blockEntry then
        let (items, ts) ← indentlessItems? handles fuel (t :: ts)
        return (.sequence p.anchor p.tag items, ts)
      else if block && t = .blockSequenceStart then
        let (items, ts) ← blockItems? handles fuel ts
        return (.sequence p.anchor p.tag items, ts)
      else if block && t = .blockMappingStart then
        let (entries, ts) ← blockEntries? handles fuel ts
        return (.mapping p.anchor p.tag entries, ts)
      else if p.isEmpty then none
      else return (p.scalar .plain "", t :: ts)
    | [] => if p.isEmpty then none else return (p.scalar .plain "", [])

/-- The items of a block sequence, up to its end. -/
def blockItems? (handles : Handles) : (fuel : Nat) → List Token →
    Option (List (Node String) × List Token)
  | 0, _ => none
  | fuel + 1, ts =>
    match ts with
    | .blockEntry :: ts => do
      let (item, ts) ←
        if omitted [.blockEntry, .blockEnd] ts then some (nothing, ts)
        else ofTokens? handles fuel true false ts
      let (items, ts) ← blockItems? handles fuel ts
      return (item :: items, ts)
    | .blockEnd :: ts => some ([], ts)
    | _ => none

/-- The items of a sequence that is not indented below its key. -/
def indentlessItems? (handles : Handles) : (fuel : Nat) → List Token →
    Option (List (Node String) × List Token)
  | 0, _ => none
  | fuel + 1, ts =>
    match ts with
    | .blockEntry :: ts => do
      let (item, ts) ←
        if omitted [.blockEntry, .key, .value, .blockEnd] ts then some (nothing, ts)
        else ofTokens? handles fuel true false ts
      let (items, ts) ← indentlessItems? handles fuel ts
      return (item :: items, ts)
    | ts => some ([], ts)

/-- The entries of a block mapping, up to its end. -/
def blockEntries? (handles : Handles) : (fuel : Nat) → List Token →
    Option (List (Node String × Node String) × List Token)
  | 0, _ => none
  | fuel + 1, ts =>
    match ts with
    | .key :: ts => do
      let (key, ts) ← blockPart? handles fuel ts
      let (value, ts) ←
        match ts with
        | .value :: ts => blockPart? handles fuel ts
        | ts => some (nothing, ts)
      let (entries, ts) ← blockEntries? handles fuel ts
      return ((key, value) :: entries, ts)
    | .blockEnd :: ts => some ([], ts)
    | _ => none

/-- A key or a value of a block mapping, which may be left out. -/
def blockPart? (handles : Handles) : (fuel : Nat) → List Token → Option (Node String × List Token)
  | 0, _ => none
  | fuel + 1, ts =>
    if omitted [.key, .value, .blockEnd] ts then some (nothing, ts)
    else ofTokens? handles fuel true true ts

/-- The items of a flow sequence, up to its end. A comma stands in front of all but the first. -/
def flowItems? (handles : Handles) : (fuel : Nat) → (first : Bool) → List Token →
    Option (List (Node String) × List Token)
  | 0, _, _ => none
  | fuel + 1, first, ts =>
    match ts with
    | .flowSequenceEnd :: ts => some ([], ts)
    | ts => do
      let ts ←
        match first, ts with
        | true, ts => some ts
        | false, .flowEntry :: ts => some ts
        | false, _ => none
      match ts with
      | .flowSequenceEnd :: ts => return ([], ts)
      | .key :: ts =>
        let (item, ts) ← flowPair? handles fuel ts
        let (items, ts) ← flowItems? handles fuel false ts
        return (item :: items, ts)
      | ts =>
        let (item, ts) ← ofTokens? handles fuel false false ts
        let (items, ts) ← flowItems? handles fuel false ts
        return (item :: items, ts)

/-- The mapping with one entry that a key inside a flow sequence starts. If the key is left out, the
token after it goes as well. -/
def flowPair? (handles : Handles) : (fuel : Nat) → List Token → Option (Node String × List Token)
  | 0, _ => none
  | fuel + 1, ts => do
    let (key, ts) ←
      if omitted [.value, .flowEntry, .flowSequenceEnd] ts then some (nothing, ts.drop 1)
      else ofTokens? handles fuel false false ts
    let (value, ts) ←
      match ts with
      | .value :: ts =>
        if omitted [.flowEntry, .flowSequenceEnd] ts then some (nothing, ts)
        else ofTokens? handles fuel false false ts
      | ts => some (nothing, ts)
    return (.mapping none none [(key, value)], ts)

/-- The entries of a flow mapping, up to its end. A comma stands in front of all but the first. -/
def flowEntries? (handles : Handles) : (fuel : Nat) → (first : Bool) → List Token →
    Option (List (Node String × Node String) × List Token)
  | 0, _, _ => none
  | fuel + 1, first, ts =>
    match ts with
    | .flowMappingEnd :: ts => some ([], ts)
    | ts => do
      let ts ←
        match first, ts with
        | true, ts => some ts
        | false, .flowEntry :: ts => some ts
        | false, _ => none
      match ts with
      | .flowMappingEnd :: ts => return ([], ts)
      | .key :: ts =>
        let (key, ts) ←
          if omitted [.value, .flowEntry, .flowMappingEnd] ts then some (nothing, ts)
          else ofTokens? handles fuel false false ts
        let (value, ts) ←
          match ts with
          | .value :: ts =>
            if omitted [.flowEntry, .flowMappingEnd] ts then some (nothing, ts)
            else ofTokens? handles fuel false false ts
          | ts => some (nothing, ts)
        let (entries, ts) ← flowEntries? handles fuel false ts
        return ((key, value) :: entries, ts)
      | ts =>
        let (key, ts) ← ofTokens? handles fuel false false ts
        let (entries, ts) ← flowEntries? handles fuel false ts
        return ((key, nothing) :: entries, ts)

end

end Node

/-! ## Documents -/

/-- The directives of a document: whether there is one for the version, and the handles. -/
structure Directives where
  version : Bool := false
  handles : Handles := []

/-- The directives in front of a document. None may come twice, and the version is 1.1 or 1.2. -/
def directives? (d : Directives) : List Token → Option (Directives × List Token)
  | .versionDirective major minor :: ts =>
    if !d.version && major = 1 && (minor = 1 || minor = 2) then
      directives? { d with version := true } ts
    else none
  | .tagDirective handle uri :: ts =>
    if (d.handles.lookup handle).isSome then none
    else directives? { d with handles := d.handles ++ [(handle, uri)] } ts
  | ts => some (d, ts)

/-- The handles that are in force without a directive. -/
def defaultHandles : Handles := [("!", "!"), ("!!", "tag:yaml.org,2002:")]

/-- The root of a document. Every step down and every step on takes a token, or comes right after
one that does. -/
def root? (handles : Handles) (ts : List Token) : Option (Node String × List Token) :=
  Node.ofTokens? handles (4 * ts.length + 4) true false ts

/-- The first document of a token sequence that has one. -/
def firstDocument? (ts : List Token) : Option (Node String × List Token) :=
  match ts with
  | .versionDirective _ _ :: _ | .tagDirective _ _ :: _ | .documentStart :: _ => do
    let (d, ts) ← directives? {} ts
    match ts with
    | .documentStart :: ts =>
      match ts with
      | [] | .versionDirective _ _ :: _ | .tagDirective _ _ :: _ | .documentStart :: _
      | .documentEnd :: _ => return (.nothing, ts)
      | ts => root? (d.handles ++ defaultHandles) ts
    | _ => none
  | ts => root? defaultHandles ts

/-- The root of a sequence that holds one document, or nothing if it is empty. -/
def document? (ts : List Token) : Option (Option (Node String)) :=
  match ts with
  | [] => some none
  | ts => do
    let (n, ts) ← firstDocument? ts
    guard (ts.dropWhile (· = .documentEnd)).isEmpty
    return some n

end RouteDocs.Yaml

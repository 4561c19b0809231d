import PointsTo.Yaml.Scanner

/-!
YAML values, built from tokens. A reference to a named node stands for that node;
a node cannot be built into itself, so a reference from inside it is a cycle.
-/

namespace PointsTo
namespace Yaml

structure Scalar where
  text : String
  style : Style
  tag : Option String
deriving DecidableEq

inductive Node where
  | scalar (s : Scalar)
  | sequence (items : List Node)
  | mapping (pairs : List (Node × Node))
  | cycle

namespace Node

def empty : Node := .scalar ⟨"", .plain, none⟩

end Node

/-- The tokens that are left, and the nodes named so far, the latest first. One
that is still being built has no value yet. -/
structure Source where
  tokens : List Token
  anchors : List (String × Option Node)

abbrev Build (α : Type) := StateT Source (Except Error) α

namespace Build

def peek : Build (Option Token) := fun s => .ok (s.tokens.head?, s)

def next : Build Unit := fun s => .ok ((), { s with tokens := s.tokens.drop 1 })

def fail {α : Type} (e : Error) : Build α := fun _ => .error e

def accept (t : Token) : Build Bool := fun s =>
  if s.tokens.head? = some t then .ok (true, { s with tokens := s.tokens.drop 1 })
  else .ok (false, s)

def sees (ts : List Token) : Build Bool := fun s =>
  .ok (s.tokens.head?.any ts.contains, s)

def separated (first : Bool) : Build Bool :=
  if first then pure true else accept .flowEntry

def define (name : String) (n : Option Node) : Build Unit := fun s =>
  .ok ((), { s with anchors := (name, n) :: s.anchors })

def lookUp (name : String) : Build Node := fun s =>
  match s.anchors.find? (·.1 = name) with
  | some (_, some n) => .ok (n, s)
  | some (_, none) => .ok (.cycle, s)
  | none => .error .reference

end Build

/-- What stands before a node: its name and its tag, in either order. -/
structure Properties where
  anchor : Option String
  tag : Option String
deriving DecidableEq

def resolveTag (handles : List (String × String)) (handle suffix : String) :
    Except Error String :=
  if handle = "" then .ok suffix
  else match handles.find? (·.1 = handle) with
    | some (_, start) => .ok (start ++ suffix)
    | none => .error .tagHandle

def properties (handles : List (String × String)) : Build Properties := fun s =>
  match s.tokens with
  | .anchor name :: .tag handle suffix :: rest | .tag handle suffix :: .anchor name :: rest => do
    let tag ← resolveTag handles handle suffix
    .ok (⟨some name, some tag⟩, { s with tokens := rest })
  | .anchor name :: rest => .ok (⟨some name, none⟩, { s with tokens := rest })
  | .tag handle suffix :: rest => do
    let tag ← resolveTag handles handle suffix
    .ok (⟨none, some tag⟩, { s with tokens := rest })
  | _ => .ok (⟨none, none⟩, s)

/-- A name for a node that is about to be built, and the node under its name once
it is. -/
def named (p : Properties) (build : Build Node) : Build Node := do
  match p.anchor with
  | none => build
  | some name =>
    Build.define name none
    let n ← build
    Build.define name (some n)
    pure n

mutual

/-- A node. Block collections may stand in blocks only, and a sequence without
indentation of its own only as a value or key of a block mapping. -/
def node (handles : List (String × String)) (inBlock bare : Bool) : Nat → Build Node
  | 0 => Build.fail .node
  | fuel + 1 => do
    match ← Build.peek with
    | some (.reference name) =>
      Build.next
      Build.lookUp name
    | _ =>
      let p ← properties handles
      named p do
        match ← Build.peek with
        | some (.scalar text style) =>
          Build.next
          pure (.scalar ⟨text, style, p.tag⟩)
        | some .flowSequence =>
          Build.next
          return .sequence (← flowItems handles true fuel)
        | some .flowMapping =>
          Build.next
          return .mapping (← flowPairs handles true fuel)
        | some .blockEntry =>
          if bare then return .sequence (← bareItems handles fuel)
          else missing p
        | some .blockSequence =>
          if inBlock then
            Build.next
            return .sequence (← blockItems handles fuel)
          else missing p
        | some .blockMapping =>
          if inBlock then
            Build.next
            return .mapping (← blockPairs handles fuel)
          else missing p
        | _ => missing p
where
  /-- A name or a tag may stand for an empty node. -/
  missing (p : Properties) : Build Node :=
    if p.anchor.isSome || p.tag.isSome then pure (.scalar ⟨"", .plain, p.tag⟩)
    else Build.fail .node

def blockItems (handles : List (String × String)) : Nat → Build (List Node)
  | 0 => Build.fail .sequence
  | fuel + 1 => do
    if ← Build.accept .blockEntry then
      let item ← if ← Build.sees [.blockEntry, .blockEnd] then pure .empty
        else node handles true false fuel
      let items ← blockItems handles fuel
      pure (item :: items)
    else if ← Build.accept .blockEnd then pure []
    else Build.fail .sequence

def bareItems (handles : List (String × String)) : Nat → Build (List Node)
  | 0 => Build.fail .sequence
  | fuel + 1 => do
    if ← Build.accept .blockEntry then
      let item ← if ← Build.sees [.blockEntry, .key, .value, .blockEnd] then pure .empty
        else node handles true false fuel
      let items ← bareItems handles fuel
      pure (item :: items)
    else pure []

def blockPairs (handles : List (String × String)) : Nat → Build (List (Node × Node))
  | 0 => Build.fail .mapping
  | fuel + 1 => do
    if ← Build.accept .key then
      let key ← if ← Build.sees [.key, .value, .blockEnd] then pure .empty
        else node handles true true fuel
      let value ← if ← Build.accept .value then
          if ← Build.sees [.key, .value, .blockEnd] then pure .empty
          else node handles true true fuel
        else pure .empty
      let pairs ← blockPairs handles fuel
      pure ((key, value) :: pairs)
    else if ← Build.accept .blockEnd then pure []
    else Build.fail .mapping

def flowItems (handles : List (String × String)) (first : Bool) : Nat → Build (List Node)
  | 0 => Build.fail .flowSequence
  | fuel + 1 => do
    if ← Build.accept .flowSequenceEnd then pure []
    else if !(← Build.separated first) then Build.fail .flowSequence
    else if ← Build.accept .flowSequenceEnd then pure []
    else
      let item ← if ← Build.accept .key then flowPair handles fuel
        else node handles false false fuel
      let items ← flowItems handles false fuel
      pure (item :: items)

/-- A pair in a sequence makes a mapping of its own. Where its key is empty, the
sign after the key's sign is passed over. -/
def flowPair (handles : List (String × String)) : Nat → Build Node
  | 0 => Build.fail .flowSequence
  | fuel + 1 => do
    let key ← if ← Build.sees [.value, .flowEntry, .flowSequenceEnd] then do
        Build.next
        pure .empty
      else node handles false false fuel
    let value ← if ← Build.accept .value then
        if ← Build.sees [.flowEntry, .flowSequenceEnd] then pure .empty
        else node handles false false fuel
      else pure .empty
    pure (.mapping [(key, value)])

def flowPairs (handles : List (String × String)) (first : Bool) : Nat → Build (List (Node × Node))
  | 0 => Build.fail .flowMapping
  | fuel + 1 => do
    if ← Build.accept .flowMappingEnd then pure []
    else if !(← Build.separated first) then Build.fail .flowMapping
    else if ← Build.accept .flowMappingEnd then pure []
    else
      let pair ← if ← Build.accept .key then do
          let key ← if ← Build.sees [.value, .flowEntry, .flowMappingEnd] then pure .empty
            else node handles false false fuel
          let value ← if ← Build.accept .value then
              if ← Build.sees [.flowEntry, .flowMappingEnd] then pure .empty
              else node handles false false fuel
            else pure .empty
          pure (key, value)
        else do
          let key ← node handles false false fuel
          pure (key, .empty)
      let pairs ← flowPairs handles false fuel
      pure (pair :: pairs)

end

def commonHandles : List (String × String) :=
  [("!", "!"), ("!!", "tag:yaml.org,2002:")]

/-- The directives before a document: at most one version, which must be 1.1 or
1.2, and each handle once. -/
def directives : List Token → Bool → List (String × String) →
    Except Error (List (String × String) × List Token)
  | .version major minor :: rest, seen, handles =>
    if seen then .error .directive
    else if major ≠ 1 || (minor ≠ 1 && minor ≠ 2) then .error .version
    else directives rest true handles
  | .tagDirective handle start :: rest, seen, handles =>
    if handles.any (·.1 = handle) then .error .directive
    else directives rest seen ((handle, start) :: handles)
  | rest, _, handles => .ok (handles ++ commonHandles, rest)

def wholeNode (handles : List (String × String)) (tokens : List Token) :
    Except Error (Node × List Token) := do
  let (n, s) ← (node handles true false (4 * tokens.length + 4)).run ⟨tokens, []⟩
  .ok (n, s.tokens)

def contents (handles : List (String × String)) (tokens : List Token) :
    Except Error (Node × List Token) :=
  match tokens with
  | .version .. :: _ | .tagDirective .. :: _ | .documentStart :: _ | .documentEnd :: _
  | .streamEnd :: _ => .ok (.empty, tokens)
  | _ => wholeNode handles tokens

def document? (tokens : List Token) : Except Error (Option Node × List Token) :=
  match tokens with
  | [.streamEnd] => .ok (none, tokens)
  | .version .. :: _ | .tagDirective .. :: _ | .documentStart :: _ => do
    let (handles, rest) ← directives tokens false []
    match rest with
    | .documentStart :: rest => do
      let (n, rest) ← contents handles rest
      .ok (some n, rest)
    | _ => .error .documentStart
  | _ => do
    let (n, rest) ← wholeNode commonHandles tokens
    .ok (some n, rest)

/-- The value of a text that holds one document, and nothing for a text that holds
none. -/
def parse (text : String) : Except Error (Option Node) := do
  let ts ← tokens text.toList
  let (n, rest) ← document? ts
  if rest.dropWhile (· = .documentEnd) = [.streamEnd] then .ok n
  else .error .documentStart

end Yaml
end PointsTo

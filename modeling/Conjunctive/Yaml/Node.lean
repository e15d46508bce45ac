import Conjunctive.Yaml.Looks
import Conjunctive.Yaml.Scan

/-!
# Nodes of a YAML text

A text holds at most one document, which is a single node. A node is a scalar, a list or a
map, and it is of a kind that its tag names, or that it looks like. What is left out
between two signs is an empty plain scalar, and an alias is the node that an anchor before
it names. A node may have an alias within itself, so nodes are numbered, and lists and maps
hold numbers of nodes.

The readers of nodes take a bound on how deep they call each other. Each call reads
a token or calls a reader that does, so twice the number of tokens is enough.
-/

namespace Conjunctive

namespace Yaml

/-- What is in a node. -/
inductive Inside where
  | scalar (text : String)
  | list (items : List Nat)
  | map (entries : List (Nat × Nat))

/-- A node: its kind, if it is known, and what is in it. -/
structure Node where
  kind : Option Kind
  inside : Inside

/-- The nodes of a document, by number. -/
structure Graph where
  nodes : Array Node
  root : Nat
  /-- Whether some node has an alias. -/
  hasAlias : Bool

/-- What is known while tokens are read. -/
structure Supply where
  tokens : List Token
  /-- What handles of tags stand for. -/
  handles : List (String × String)
  anchors : List (String × Nat)
  nodes : Array Node
  hasAlias : Bool

/-- A reader of tokens that may fail. -/
abbrev Reader := StateT Supply (Except ReadError)

namespace Reader

/-- Refuse the text. -/
def refuse {α : Type} : Reader α := throw .refused

/-- The next token, which is not yet taken. -/
def peek? : Reader (Option Token) := do
  match (← get).tokens with
  | [] => pure none
  | .fault e :: _ => throw e
  | t :: _ => pure (some t)

/-- Take the next token. -/
def advance : Reader Unit := modify fun s => { s with tokens := s.tokens.drop 1 }

/-- Take the next token if it is the given one. -/
def accept (t : Token) : Reader Bool := do
  if (← peek?) = some t then do
    advance
    pure true
  else pure false

/-- Take the next token, which must be the given one. -/
def expect (t : Token) : Reader Unit := do
  if ← accept t then pure () else refuse

/-- Whether the next token is one of some. -/
def isNext (ts : List Token) : Reader Bool := do
  pure ((← peek?).any ts.contains)

/-! ### Anchors, tags and nodes -/

/-- The node with an anchor. -/
def named (name : String) : Reader Nat := do
  match List.lookup name (← get).anchors with
  | some n => do
    modify fun s => { s with hasAlias := true }
    pure n
  | none => refuse

/-- A new node, which gets an anchor that no other node has. Lists and maps are filled
later. -/
def make (anchor : Option String) (n : Node) : Reader Nat := do
  let s ← get
  let number := s.nodes.size
  let anchors ← match anchor with
    | none => pure s.anchors
    | some a =>
      if (List.lookup a s.anchors).isSome then refuse else pure ((a, number) :: s.anchors)
  set { s with nodes := s.nodes.push n, anchors }
  pure number

/-- Fill a node that was made before. -/
def fill (number : Nat) (inside : Inside) : Reader Unit :=
  modify fun s => { s with nodes := s.nodes.modify number fun n => { n with inside } }

/-- The scalar that is left out. -/
def empty : Reader Nat := make none ⟨some .null, .scalar ""⟩

/-- Take the anchor that comes next, if one does. -/
def anchor? : Reader (Option String) := do
  match ← peek? with
  | some (.anchor a) => do
    advance
    pure (some a)
  | _ => pure none

/-- Take the tag that comes next, if one does. -/
def tag? : Reader (Option WrittenTag) := do
  match ← peek? with
  | some (.tag t) => do
    advance
    pure (some t)
  | _ => pure none

/-- The properties of a node: at most one anchor and one tag, in either order. -/
def properties : Reader (Option String × Option WrittenTag) := do
  match ← anchor? with
  | some a => pure (some a, ← tag?)
  | none => do
    let t ← tag?
    if t.isSome then pure (← anchor?, t) else pure (none, none)

/-- A tag in full. Its handle must stand for something. -/
def inFull : Option WrittenTag → Reader (Option String)
  | none => pure none
  | some ⟨none, name⟩ => pure (some name)
  | some ⟨some handle, name⟩ => do
    match List.lookup handle (← get).handles with
    | some beginning => pure (some (beginning ++ name))
    | none => refuse

/-- The tag of a node that is read by its looks, also if it is quoted. -/
def plainTag : String := "!"

/-- The kind of a list or a map with a tag. -/
def collectionKind (tag : Option String) (k : Kind) : Option Kind :=
  match tag with
  | none => some k
  | some t => if t = plainTag then some k else Kind.ofTag? t

def scalarKind (tag : Option String) (isPlain : Bool) (text : String) : Option Kind :=
  match tag with
  | none => some (if isPlain then looks text else .text)
  | some t => if t = plainTag then some (looks text) else Kind.ofTag? t

mutual

/-- The next node. In block style it may be a list or a map by indentation, and as a
value of a map in block style a list that is not indented. -/
def node : Nat → Bool → Bool → Reader Nat
  | 0, _, _ => refuse
  | depth + 1, inBlock, isValue => do
    match ← peek? with
    | some (.alias a) => do
      advance
      named a
    | _ => do
      let (anchor, written) ← properties
      let tag ← inFull written
      let list := make anchor ⟨collectionKind tag .list, .list []⟩
      let map := make anchor ⟨collectionKind tag .map, .map []⟩
      let orEmpty : Reader Nat :=
        if anchor.isSome || tag.isSome then make anchor ⟨scalarKind tag true "", .scalar ""⟩
        else refuse
      match ← peek? with
      | some (.scalar isPlain text) => do
        advance
        make anchor ⟨scalarKind tag isPlain text, .scalar text⟩
      | some .flowList => do
        advance
        let number ← list
        fill number (.list (← flowItems depth true))
        pure number
      | some .flowMap => do
        advance
        let number ← map
        fill number (.map (← flowEntries depth true))
        pure number
      | some .entry =>
        if inBlock && isValue then do
          let number ← list
          fill number (.list (← items depth))
          pure number
        else orEmpty
      | next =>
        if inBlock && next = some .blockList then do
          advance
          let number ← list
          fill number (.list (← items depth))
          expect .blockEnd
          pure number
        else if inBlock && next = some .blockMap then do
          advance
          let number ← map
          fill number (.map (← entries depth))
          pure number
        else orEmpty

/-- The next node, unless one of some tokens shows that it is left out. -/
def nodeBefore : Nat → List Token → Bool → Bool → Reader Nat
  | 0, _, _, _ => refuse
  | depth + 1, ts, inBlock, isValue => do
    if ← isNext ts then empty else node depth inBlock isValue

/-- The items of a list in block style. -/
def items : Nat → Reader (List Nat)
  | 0 => refuse
  | depth + 1 => do
    if ← accept .entry then do
      let n ← nodeBefore depth [.entry, .key, .value, .blockEnd] true false
      pure (n :: (← items depth))
    else pure []

/-- The entries of a map in block style, up to its end. -/
def entries : Nat → Reader (List (Nat × Nat))
  | 0 => refuse
  | depth + 1 => do
    if ← accept .blockEnd then pure []
    else do
      let ends := [Token.key, .value, .blockEnd]
      expect .key
      let k ← nodeBefore depth ends true true
      let v ← if ← accept .value then nodeBefore depth ends true true else empty
      pure ((k, v) :: (← entries depth))

/-- The items of a list in flow style, up to its end. An item may be a map of a single
entry without brackets. -/
def flowItems : Nat → Bool → Reader (List Nat)
  | 0, _ => refuse
  | depth + 1, isFirst => do
    if ← accept .flowListEnd then pure []
    else do
      if !isFirst then expect .comma
      if ← accept .flowListEnd then pure []
      else if ← accept .key then do
        let number ← make none ⟨some .map, .map []⟩
        let k ← nodeBefore depth [.value, .comma, .flowListEnd] false false
        let v ← if ← accept .value then nodeBefore depth [.comma, .flowListEnd] false false
          else empty
        fill number (.map [(k, v)])
        pure (number :: (← flowItems depth false))
      else do
        let n ← node depth false false
        pure (n :: (← flowItems depth false))

/-- The entries of a map in flow style, up to its end. An entry without a colon has
no value. -/
def flowEntries : Nat → Bool → Reader (List (Nat × Nat))
  | 0, _ => refuse
  | depth + 1, isFirst => do
    if ← accept .flowMapEnd then pure []
    else do
      if !isFirst then expect .comma
      if ← accept .flowMapEnd then pure []
      else if ← accept .key then do
        let k ← nodeBefore depth [.value, .comma, .flowMapEnd] false false
        let v ← if ← accept .value then nodeBefore depth [.comma, .flowMapEnd] false false
          else empty
        pure ((k, v) :: (← flowEntries depth false))
      else do
        let k ← node depth false false
        let v ← empty
        pure ((k, v) :: (← flowEntries depth false))

end

/-! ### Documents -/

/-- What handles stand for unless a document says otherwise. -/
def commonHandles : List (String × String) := [("!", "!"), ("!!", commonTag)]

/-- Take the directives that come next, of at most so many tokens. The version is told once
at most, and so is what each handle stands for. -/
def directives (isVersionTold : Bool) (handles : List (String × String)) : Nat → Reader Unit
  | 0 => refuse
  | bound + 1 => do
    match ← peek? with
    | some (.version major) =>
      if isVersionTold || major != 1 then refuse
      else do
        advance
        directives true handles bound
    | some (.handle name beginning) =>
      if (List.lookup name handles).isSome then refuse
      else do
        advance
        directives isVersionTold ((name, beginning) :: handles) bound
    | some .directive => do
      advance
      directives isVersionTold handles bound
    | _ => modify fun s => { s with handles := handles ++ commonHandles }

/-- Whether a token starts a document that is marked as such. -/
def isStart : Token → Bool
  | .version _ | .handle _ _ | .directive | .documentStart => true
  | _ => false

/-- Take the marks of a document's end, of at most so many tokens. Nothing may follow. -/
def finish : Nat → Reader Unit
  | 0 => refuse
  | bound + 1 => do
    match ← peek? with
    | none => pure ()
    | some .documentEnd => do
      advance
      finish bound
    | some _ => refuse

/-- The node of the only document, if there is a document. -/
def document (depth : Nat) : Reader (Option Nat) := do
  match ← peek? with
  | none => pure none
  | some t => do
    let n ←
      if isStart t then do
        directives false [] depth
        expect .documentStart
        match ← peek? with
        | none => empty
        | some t => if isStart t || t = .documentEnd then empty else node depth true false
      else node depth true false
    finish depth
    pure (some n)

end Reader

/-- The nodes of a text, if it is well formed; it may hold none. -/
def Graph.ofText? (text : List Char) : Except ReadError (Option Graph) := do
  let tokens ← tokens? text
  let supply : Supply := ⟨tokens, Reader.commonHandles, [], #[], false⟩
  let (root, s) ← (Reader.document (2 * tokens.length + 4)).run supply
  pure (root.map fun root => ⟨s.nodes, root, s.hasAlias⟩)

end Yaml

end Conjunctive

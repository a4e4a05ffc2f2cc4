import HtmlTemplate.Data.Yaml.Token

/-!
# YAML nodes

The tree of the one document that a list of tokens makes up. A node left out is an empty plain scalar.
An alias holds the node that bears its anchor, so a tree has no references left; an alias inside the
very node that it names is refused.
-/

namespace HtmlTemplate.Yaml

/-- A node of a YAML document. -/
inductive Node where
  | scalar (plain : Bool) (tag : Option Octets) (text : Text)
  | sequence (tag : Option Octets) (items : List Node)
  | mapping (tag : Option Octets) (members : List (Node × Node))
  | aliasFor (target : Node)

def Node.empty : Node := .scalar true none []

def Node.text? : Node → Option Text
  | scalar _ _ t => some t
  | aliasFor target => target.text?
  | _ => none

/-- The tokens to come, what tag handles stand for, and the anchors met so far. The node of an anchor is
known once it is read. -/
structure Reading where
  tokens : List Token
  handles : Handles := .default
  anchors : List (Text × Option Node) := []

namespace Reading

/-- The reading without its next token. -/
def next (r : Reading) : Reading := { r with tokens := r.tokens.drop 1 }

/-- Whether the next token is one of a class. -/
def sees (r : Reading) (p : Token → Bool) : Bool := r.tokens.head?.any p

def setAnchor (r : Reading) (anchor : Option Text) (node : Option Node) : Reading :=
  match anchor with
  | some name => { r with anchors := (name, node) :: r.anchors }
  | none => r

/-- Reads the anchor and the tag before a node, in either order. The handle of the tag must stand for
something. -/
def properties (r : Reading) : Option (Option Text × Option Octets × Reading) :=
  match r.tokens with
  | .anchor a :: .tag t :: tokens => (t.resolve? r.handles).map (some a, some ·, { r with tokens })
  | .anchor a :: tokens => some (some a, none, { r with tokens })
  | .tag t :: .anchor a :: tokens => (t.resolve? r.handles).map (some a, some ·, { r with tokens })
  | .tag t :: tokens => (t.resolve? r.handles).map (none, some ·, { r with tokens })
  | _ => some (none, none, r)

/-! ## Where nodes are left out -/

/-- The tokens before which an entry of a block sequence is left out. -/
def endsEntry (indentless : Bool) : Token → Bool
  | .blockEntry => true
  | .blockEnd => true
  | .key => indentless
  | .value => indentless
  | _ => false

/-- The tokens before which a key or value of a block mapping is left out. -/
def endsMember : Token → Bool
  | .key => true
  | .value => true
  | .blockEnd => true
  | _ => false

/-- The tokens before which a value between brackets or braces is left out. -/
def endsFlowValue (close : Token) (token : Token) : Bool := token == .flowEntry || token == close

/-- The tokens before which a key between brackets or braces is left out. -/
def endsFlowKey (close : Token) (token : Token) : Bool :=
  token == .value || endsFlowValue close token

/-- The tokens before which the content of a document is left out. -/
def endsDocument : Token → Bool
  | .directive _ => true
  | .documentStart => true
  | .documentEnd => true
  | _ => false

/-! ## Collections -/

mutual

/-- Reads a node. Block collections are allowed when `block` is set, block sequences that are not
indented when `indentless` is. -/
def readNode (fuel : Nat) (block indentless : Bool) (r : Reading) : Option (Node × Reading) :=
  match fuel with
  | 0 => none
  | fuel + 1 =>
    match r.tokens with
    | .aliasFor name :: _ =>
      (r.anchors.lookup name).join.map fun target => (.aliasFor target, r.next)
    | _ => do
      let (anchor, tag, r) ← r.properties
      let (node, r) ←
        readContent fuel block indentless (anchor.isSome || tag.isSome) tag (r.setAnchor anchor none)
      return (node, r.setAnchor anchor (some node))

/-- Reads what follows the anchor and the tag of a node. With either of them it may be left out. A bare
exclamation mark is no tag of a scalar. -/
def readContent (fuel : Nat) (block indentless optional : Bool) (tag : Option Octets) (r : Reading) :
    Option (Node × Reading) :=
  match fuel with
  | 0 => none
  | fuel + 1 =>
    let sequence := fun (items, r) => (Node.sequence tag items, r)
    let mapping := fun (members, r) => (Node.mapping tag members, r)
    let other := if optional then some (Node.scalar true tag [], r) else none
    match r.tokens with
    | .scalar plain text :: _ => some (.scalar plain (tag.filter (· ≠ .ofText ['!'])) text, r.next)
    | .flowSequenceStart :: _ => (readFlowItems fuel true r.next).map sequence
    | .flowMappingStart :: _ => (readFlowMembers fuel true r.next).map mapping
    | .blockEntry :: _ => if indentless then (readEntries fuel true r).map sequence else other
    | .blockSequenceStart :: _ =>
      if block then (readEntries fuel false r.next).map sequence else other
    | .blockMappingStart :: _ => if block then (readMembers fuel r.next).map mapping else other
    | _ => other

/-- Reads a node inside a block that is left out before certain tokens. -/
def readInBlock (fuel : Nat) (indentless : Bool) (ends : Token → Bool) (r : Reading) :
    Option (Node × Reading) :=
  match fuel with
  | 0 => none
  | fuel + 1 => if r.sees ends then some (.empty, r) else readNode fuel true indentless r

/-- Reads a node inside brackets or braces that is left out before certain tokens. -/
def readInFlow (fuel : Nat) (ends : Token → Bool) (r : Reading) : Option (Node × Reading) :=
  match fuel with
  | 0 => none
  | fuel + 1 => if r.sees ends then some (.empty, r) else readNode fuel false false r

/-- Reads the entries of a block sequence. One that is not indented ends where its entries do. -/
def readEntries (fuel : Nat) (indentless : Bool) (r : Reading) : Option (List Node × Reading) :=
  match fuel with
  | 0 => none
  | fuel + 1 =>
    match r.tokens with
    | .blockEntry :: _ => do
      let (item, r) ← readInBlock fuel false (endsEntry indentless) r.next
      let (items, r) ← readEntries fuel indentless r
      return (item :: items, r)
    | .blockEnd :: _ => some ([], if indentless then r else r.next)
    | _ => if indentless then some ([], r) else none

def readMembers (fuel : Nat) (r : Reading) : Option (List (Node × Node) × Reading) :=
  match fuel with
  | 0 => none
  | fuel + 1 =>
    match r.tokens with
    | .key :: _ => do
      let (key, r) ← readInBlock fuel true endsMember r.next
      let (value, r) ←
        if r.sees (· == .value) then readInBlock fuel true endsMember r.next else some (.empty, r)
      let (members, r) ← readMembers fuel r
      return ((key, value) :: members, r)
    | .blockEnd :: _ => some ([], r.next)
    | _ => none

/-- Reads the value of a key inside brackets or braces. -/
def readFlowValue (fuel : Nat) (close : Token) (r : Reading) : Option (Node × Reading) :=
  match fuel with
  | 0 => none
  | fuel + 1 =>
    if r.sees (· == .value) then readInFlow fuel (endsFlowValue close) r.next else some (.empty, r)

/-- Reads the items of a flow sequence. A single pair among them is a mapping; where its key is left
out, the token that shows so is used up. -/
def readFlowItems (fuel : Nat) (first : Bool) (r : Reading) : Option (List Node × Reading) :=
  match fuel with
  | 0 => none
  | fuel + 1 =>
    if r.sees (· == .flowSequenceEnd) then some ([], r.next)
    else if !first && !r.sees (· == .flowEntry) then none
    else
      let r := if first then r else r.next
      match r.tokens with
      | .flowSequenceEnd :: _ => some ([], r.next)
      | .key :: _ => do
        let leftOut := r.next.sees (endsFlowKey .flowSequenceEnd)
        let (key, r) ← readInFlow fuel (endsFlowKey .flowSequenceEnd) r.next
        let (value, r) ← readFlowValue fuel .flowSequenceEnd (if leftOut then r.next else r)
        let (items, r) ← readFlowItems fuel false r
        return (.mapping none [(key, value)] :: items, r)
      | _ => do
        let (item, r) ← readNode fuel false false r
        let (items, r) ← readFlowItems fuel false r
        return (item :: items, r)

/-- Reads the members of a flow mapping. A node alone is a key with an empty value. -/
def readFlowMembers (fuel : Nat) (first : Bool) (r : Reading) :
    Option (List (Node × Node) × Reading) :=
  match fuel with
  | 0 => none
  | fuel + 1 =>
    if r.sees (· == .flowMappingEnd) then some ([], r.next)
    else if !first && !r.sees (· == .flowEntry) then none
    else
      let r := if first then r else r.next
      match r.tokens with
      | .flowMappingEnd :: _ => some ([], r.next)
      | .key :: _ => do
        let (key, r) ← readInFlow fuel (endsFlowKey .flowMappingEnd) r.next
        let (value, r) ← readFlowValue fuel .flowMappingEnd r
        let (members, r) ← readFlowMembers fuel false r
        return ((key, value) :: members, r)
      | _ => do
        let (key, r) ← readNode fuel false false r
        let (members, r) ← readFlowMembers fuel false r
        return ((key, .empty) :: members, r)

end

/-! ## Documents -/

/-- The directives that tokens begin with, and the tokens behind them. -/
def directives : List Token → List Directive × List Token
  | .directive directive :: tokens =>
    let (rest, tokens) := directives tokens
    (directive :: rest, tokens)
  | tokens => ([], tokens)

/-- Reads the content of a document, after its start marker if there are directives or a marker. -/
def readDocument (fuel : Nat) (r : Reading) : Option (Node × Reading) :=
  match directives r.tokens with
  | (said, .documentStart :: tokens) => do
    let r := { r with tokens, handles := ← Handles.ofDirectives? false [] said }
    if tokens.isEmpty then return (.empty, r)
    readInBlock fuel false endsDocument r
  | ([], []) => some (.empty, r)
  | ([], _) => readNode fuel true false r
  | _ => none

end Reading

/-- The tree of the one document that tokens make up. Nothing but end markers may follow it. -/
def Node.ofTokens? (tokens : List Token) : Option Node :=
  match Reading.readDocument (4 * tokens.length + 4) { tokens } with
  | some (node, r) => if r.tokens.all (· == .documentEnd) then some node else none
  | none => none

/-- The tree of a YAML text. -/
def Node.parse? (t : Text) : Option Node := (tokens? t).bind ofTokens?

end HtmlTemplate.Yaml

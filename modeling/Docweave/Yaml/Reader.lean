import Docweave.Yaml.Scalar
import Docweave.Yaml.Text

/-!
Reading a YAML document: block and flow collections, scalars of every style, anchors, aliases and
the tags of the core schema.

A block belongs to the first column it uses; a map or a list ends where a line is indented less.
A key stands on one line with its colon.  Keys are texts, whatever they look like; a key that
comes twice keeps its first place and its last value.  Collections nest at most 128 deep, and
there is at most one document.

Every round of the loops below reads a character or returns, and so does every third call between
them, so three times the length of the text, with a few to spare, is fuel enough.
-/

namespace Docweave

namespace Yaml

/-! ### Properties -/

/-- The anchor and the tag in front of a node. -/
structure Properties where
  anchor : Option String
  tag : Option Tag

/-- No properties. -/
def Properties.none : Properties :=
  ⟨.none, .none⟩

/-- Whether a character can stand in the name of an anchor. -/
def isNameChar (c : Char) : Bool :=
  c.isAlphanum || c == '-' || c == '_'

/-- Reads the name of an anchor or an alias behind its mark. -/
def anchorName : Scan String := do
  modify Cursor.next
  let cursor ← get
  let name := cursor.rest.takeWhile isNameChar
  skipChars name.length
  let rest := (← get).rest
  if name.isEmpty || !(atBreak rest || rest.head?.any fun c => "?:,]\x7d%@`".toList.contains c) then
    throw .badCharacter
  pure (String.ofList name)

/-- The tag that a text names. -/
def tagOf (text : String) : Option Tag :=
  if text = "!!bool" then some .bool
  else if text = "!!int" then some .int
  else if text = "!!float" then some .float
  else if text = "!!null" then some .null
  else if text = "!" then none
  else if text.startsWith "!!" || text.startsWith "!<" then some .other
  else some .foreign

/-- Reads a tag. -/
def tagName (block : Bool) : Scan (Option Tag) := do
  let cursor ← get
  let stops (c : Char) := isSpace c || c == '\n' || (!block && (c == ',' || c == ']' || c == '}'))
  let name := cursor.rest.takeWhile fun c => !stops c
  skipChars name.length
  pure (tagOf (String.ofList name))

/-- Reads the properties in front of a node.  `keyAllowed` is as in `skip`. -/
def properties (block : Bool) : Nat → Bool → Properties → Scan Properties
  | 0, _, read => pure read
  | fuel + 1, keyAllowed, read => do
    match (← get).rest with
    | '&' :: _ =>
      if read.anchor.isSome then throw .badCharacter
      let name ← anchorName
      skip block false
      properties block fuel keyAllowed { read with anchor := some name }
    | '!' :: _ =>
      if read.tag.isSome then throw .badCharacter
      let tag ← tagName block
      skip block false
      properties block fuel keyAllowed { read with tag }
    | _ => pure read

/-- Remembers a node under the anchor in front of it. -/
def anchored (props : Properties) (node : Node) : Scan Node := do
  match props.anchor with
  | some name => modify fun cursor => { cursor with anchors := (name, node) :: cursor.anchors }
  | none => pure ()
  pure node

/-- A scalar with its properties. -/
def scalarNode (props : Properties) (plain : Bool) (s : String) : Scan Node :=
  anchored props ⟨resolveTagged props.tag plain s, some s⟩

/-- A collection with its properties; a foreign tag makes it unreadable. -/
def collectionNode (props : Properties) (v : Value) : Scan Node :=
  anchored props ⟨if props.tag = some .foreign then .error .unsupported else .ok v, .none⟩

/-- The node that an alias stands for. -/
def aliasNode (props : Properties) : Scan Node := do
  if props.anchor.isSome || props.tag.isSome then throw .badCharacter
  let name ← anchorName
  match (← get).anchors.lookup name with
  | some node => pure node
  | none => throw .unknownAlias

/-- The value of a node, if it can be read. -/
def valueOf (node : Node) : Scan Value :=
  match node.value with
  | .ok v => pure v
  | .error flaw => throw flaw

/-- The text of a key. -/
def keyOf (node : Node) : Scan String :=
  match node.text? with
  | some s => pure s
  | none => throw .containerKey

/-! ### Flow collections -/

/-- Reads the colon behind a key that starts on a line, if there is one. -/
def flowColon (line : Nat) : Scan Bool := do
  skip false false
  let cursor ← get
  match cursor.rest with
  | ':' :: _ =>
    if cursor.line ≠ line then throw .keyExpected
    set cursor.next
    skip false false
    pure true
  | _ => pure false

/-- Whether an entry of a flow collection ends here without a value. -/
def entryEnds : List Char → Bool
  | ',' :: _ | ']' :: _ | '}' :: _ => true
  | _ => false

mutual

/-- Reads a node without block collections.  `block` tells whether a block surrounds it, and
`indent` is the indentation that later lines of a plain scalar need there. -/
def flowContent (block : Bool) (indent : Int) (props : Properties) : Nat → Nat → Scan Node
  | 0, _ => throw .tooDeep
  | fuel + 1, room => do
    let cursor ← get
    match cursor.rest with
    | '*' :: _ => aliasNode props
    | '"' :: _ => do scalarNode props false (← quotedText true)
    | '\'' :: _ => do scalarNode props false (← quotedText false)
    | '[' :: _ =>
      if room = 0 then throw .tooDeep
      set cursor.next
      let items ← flowItems fuel (room - 1) []
      collectionNode props (.list items)
    | '{' :: _ =>
      if room = 0 then throw .tooDeep
      set cursor.next
      let fields ← flowFields fuel (room - 1) []
      collectionNode props (.map fields)
    | rest =>
      if startsPlain block rest then scalarNode props true (← plainText block indent)
      else if !block && entryEnds rest && (props.anchor.isSome || props.tag.isSome) then
        scalarNode props true ""
      else throw .badCharacter
termination_by structural fuel => fuel

/-- Reads a node inside a flow collection. -/
def flowNode : Nat → Nat → Scan Node
  | 0, _ => throw .tooDeep
  | fuel + 1, room => do
    let props ← properties false 3 false Properties.none
    flowContent false 0 props fuel room
termination_by structural fuel => fuel

/-- Reads the elements of a list in brackets; `read` holds those so far, backwards. -/
def flowItems : Nat → Nat → List Value → Scan (List Value)
  | 0, _, _ => throw .unfinishedList
  | fuel + 1, room, read => do
    skip false false
    let cursor ← get
    match cursor.rest with
    | [] => throw .unfinishedList
    | ']' :: _ =>
      set cursor.next
      pure read.reverse
    | _ =>
      let node ← flowNode fuel room
      let colon ← flowColon cursor.line
      let v ← if colon then do
          let key ← keyOf node
          let v ← flowValue fuel room
          pure (.map [(key, v)])
        else valueOf node
      skip false false
      let cursor ← get
      match cursor.rest with
      | ',' :: _ =>
        set cursor.next
        flowItems fuel room (v :: read)
      | ']' :: _ =>
        set cursor.next
        pure (v :: read).reverse
      | _ => throw .unfinishedList
termination_by structural fuel => fuel

/-- Reads the entries of a map in braces. -/
def flowFields : Nat → Nat → Fields → Scan Fields
  | 0, _, _ => throw .unfinishedMap
  | fuel + 1, room, read => do
    skip false false
    let cursor ← get
    match cursor.rest with
    | [] => throw .unfinishedMap
    | '}' :: _ =>
      set cursor.next
      pure read
    | _ =>
      let node ← flowNode fuel room
      let key ← keyOf node
      let colon ← flowColon cursor.line
      let v ← if colon then flowValue fuel room else pure .null
      skip false false
      let cursor ← get
      let read := Entries.insert read key v
      match cursor.rest with
      | ',' :: _ =>
        set cursor.next
        flowFields fuel room read
      | '}' :: _ =>
        set cursor.next
        pure read
      | _ => throw .unfinishedMap
termination_by structural fuel => fuel

/-- Reads the value behind a colon in a flow collection; it may be missing. -/
def flowValue : Nat → Nat → Scan Value
  | 0, _ => throw .tooDeep
  | fuel + 1, room => do
    if entryEnds (← get).rest then pure .null
    else valueOf (← flowNode fuel room)
termination_by structural fuel => fuel

end

/-! ### Block collections -/

/-- Reads the colon that makes the node before it a key, if there is one on the same line. -/
def blockColon (line : Nat) : Scan Bool := do
  let cursor ← get
  if cursor.line ≠ line then
    if cursor.onIndicator ':' then throw .keyExpected
    pure false
  else
    skipSpaces cursor.rest.length
    let cursor ← get
    if cursor.onIndicator ':' then
      set cursor.next
      pure true
    else pure false

mutual

/-- Reads the node at the cursor, which belongs to something indented by `indent`.  Block
collections can start here if `keyAllowed`. -/
def blockNode : Nat → Nat → Int → Bool → Scan Node
  | 0, _, _, _ => throw .tooDeep
  | fuel + 1, room, indent, keyAllowed => do
    let start ← get
    let props ← properties true 3 keyAllowed Properties.none
    let cursor ← get
    let apart := cursor.line ≠ start.line
    let keyAllowed := keyAllowed || apart
    if cursor.atEnd || (apart && (cursor.column : Int) ≤ indent) then
      if cursor.onIndicator '-' && (cursor.column : Int) = indent && !cursor.atEnd then
        if room = 0 then throw .tooDeep
        let items ← blockItems fuel (room - 1) cursor.column []
        collectionNode props (.list items)
      else scalarNode props true ""
    else if cursor.onIndicator '-' then
      if !keyAllowed || (!apart && (props.anchor.isSome || props.tag.isSome)) then
        throw .badCharacter
      if room = 0 then throw .tooDeep
      let items ← blockItems fuel (room - 1) cursor.column []
      collectionNode props (.list items)
    else match cursor.rest with
      | '|' :: _ => do scalarNode props false (← blockText indent)
      | '>' :: _ => do scalarNode props false (← blockText indent)
      | _ =>
        let here := if apart then Properties.none else props
        let column := if apart then cursor.column else start.column
        let node ← flowContent true (indent + 1) here fuel room
        if ← blockColon cursor.line then
          if !keyAllowed then throw .keyExpected
          if room = 0 then throw .tooDeep
          let key ← keyOf node
          let v ← blockValue fuel (room - 1) column
          let fields ← blockFields fuel (room - 1) column [(key, v)]
          collectionNode (if apart then props else Properties.none) (.map fields)
        else if apart then
          match node.text? with
          | some s =>
            let plain := startsPlain true cursor.rest
            if cursor.rest.head? = some '*' then throw .badCharacter
            else scalarNode props plain s
          | none => collectionNode props (← valueOf node)
        else pure node
termination_by structural fuel => fuel

/-- Reads the value behind the colon of a key in a column. -/
def blockValue : Nat → Nat → Nat → Scan Value
  | 0, _, _ => throw .tooDeep
  | fuel + 1, room, column => do
    let line := (← get).line
    skip true false
    let cursor ← get
    if cursor.atEnd then pure .null
    else if cursor.line = line then valueOf (← blockNode fuel room column false)
    else if cursor.column < column then pure .null
    else if cursor.column = column then
      if cursor.onIndicator '-' then
        if room = 0 then throw .tooDeep
        pure (.list (← blockItems fuel (room - 1) column []))
      else pure .null
    else valueOf (← blockNode fuel room column true)
termination_by structural fuel => fuel

/-- Reads the entries of a map in a column, after the first. -/
def blockFields : Nat → Nat → Nat → Fields → Scan Fields
  | 0, _, _, _ => throw .tooDeep
  | fuel + 1, room, column, read => do
    skip true true
    let cursor ← get
    if cursor.atEnd || cursor.column < column then pure read
    else if column < cursor.column then throw .badIndentation
    else
      let props ← properties true 3 true Properties.none
      let node ← flowContent true (column + 1 : Nat) props fuel room
      if ← blockColon cursor.line then
        let key ← keyOf node
        let v ← blockValue fuel room column
        blockFields fuel room column (Entries.insert read key v)
      else throw .keyExpected
termination_by structural fuel => fuel

/-- Reads the elements of a list whose dashes stand in a column; `read` holds those so far,
backwards. -/
def blockItems : Nat → Nat → Nat → List Value → Scan (List Value)
  | 0, _, _, _ => throw .tooDeep
  | fuel + 1, room, column, read => do
    let line := (← get).line
    modify Cursor.next
    skip true true
    let cursor ← get
    let v ←
      if cursor.atEnd then pure .null
      else if cursor.line = line || column < cursor.column then
        valueOf (← blockNode fuel room column true)
      else pure .null
    skip true true
    let cursor ← get
    if cursor.atEnd || cursor.column < column then pure (v :: read).reverse
    else if column < cursor.column then throw .badIndentation
    else if cursor.onIndicator '-' then blockItems fuel room column (v :: read)
    else pure (v :: read).reverse
termination_by structural fuel => fuel

end

/-! ### Documents -/

/-- Moves over directives to the first content; the answer tells whether a mark announced a
document.  Directives need that mark behind them, and `directed` tells whether there were any. -/
def documentStart : Nat → Bool → Scan Bool
  | 0, _ => pure false
  | fuel + 1, directed => do
    skip true true
    let cursor ← get
    if cursor.rest.head? = some '%' && cursor.column = 0 then
      skipChars (cursor.rest.takeWhile (· ≠ '\n')).length
      documentStart fuel true
    else if cursor.atMark && cursor.rest.head? = some '-' then
      skipChars 3
      pure true
    else if directed then throw .badCharacter
    else pure false

/-- Refuses anything behind a document but the mark of its end. -/
def documentEnd : Nat → Scan Unit
  | 0 => pure ()
  | fuel + 1 => do
    skip true true
    let cursor ← get
    if cursor.rest.isEmpty then pure ()
    else if cursor.atMark && cursor.rest.head? = some '.' then
      skipChars 3
      documentEnd fuel
    else if cursor.atMark then throw .severalDocuments
    else throw .trailingContent

/-- Reads the only document of a text; a text without one is null. -/
def document (fuel : Nat) : Scan Value := do
  let announced ← documentStart fuel false
  let line := (← get).line
  skip true !announced
  let cursor ← get
  if cursor.rest.isEmpty then pure .null
  else if cursor.atMark then
    if announced then
      documentEnd fuel
      pure .null
    else throw .trailingContent
  else
    let v ← valueOf (← blockNode fuel 128 (-1) (!announced || cursor.line ≠ line))
    documentEnd fuel
    pure v

/-- Whether a character can stand in a text at all. -/
def isAllowed (c : Char) : Bool :=
  c == '\t' || c == '\n' || c == '\r' || c == '\u0085'
    || (decide (' ' ≤ c) && decide (c.toNat < 0x7F))
    || (decide (0xA0 ≤ c.toNat) && c.toNat ≠ 0xFEFF && c.toNat ≠ 0xFFFE && c.toNat ≠ 0xFFFF)

/-- The characters with every line end as a line feed. -/
def unifyBreaks : List Char → List Char
  | [] => []
  | '\r' :: '\n' :: cs => '\n' :: unifyBreaks cs
  | '\r' :: cs => '\n' :: unifyBreaks cs
  | c :: cs => c :: unifyBreaks cs

/-- Reads a whole text; a byte order mark at its front is passed over. -/
def read (text : String) : Except Flaw Value :=
  let cs := match text.toList with
    | '\uFEFF' :: cs => cs
    | cs => cs
  if cs.all isAllowed then
    let cs := unifyBreaks cs
    ((document (3 * cs.length + 8)).run ⟨cs, 0, 0, []⟩).map Prod.fst
  else .error .badCharacter

end Yaml

end Docweave

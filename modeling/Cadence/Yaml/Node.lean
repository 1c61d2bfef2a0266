import Cadence.Yaml.Token

/-!
# From tokens to nodes

A document is one node: a scalar, a list or a mapping. Anchors are replaced by what they name. The
grammar knows three kinds of place: in a block, as the value of a mapping in a block, where a list need
not be indented, and inside brackets.
-/

namespace Cadence.Yaml

/-- What a document says about the type of a node. -/
inductive Tag where
  /-- nothing -/
  | absent
  /-- a mark with no name: read as if it were plain -/
  | bare
  | uri (address : List Char)
  deriving Repr, DecidableEq

/-- A node of a document. -/
inductive Node where
  | scalar (tag : Tag) (isPlain : Bool) (content : Content)
  | list (tag : Tag) (items : List Node)
  | map (tag : Tag) (entries : List (Node × Node))
  deriving Repr

namespace Node

/-- What stands where nothing is written. -/
def empty : Node := .scalar .absent true {}

instance : Inhabited Node := ⟨empty⟩

end Node

/-- Where a node stands. -/
inductive Place where
  | block
  | blockValue
  | flow
  deriving Repr, DecidableEq

/-- Tokens that are still to be read, with what names stand for. -/
structure Pending where
  tokens : List Token
  handles : List (List Char × List Char) := []
  anchors : List (List Char × Node) := []

namespace Pending

/-- Past the next token. -/
def drop (p : Pending) : Pending := { p with tokens := p.tokens.tail }

/-- Whether the next token is one of some. At the end none is. -/
def sees (p : Pending) (tokens : List Token) : Bool := p.tokens.head?.any tokens.contains

/-- A problem that is found at the next token, unless the text breaks off there. -/
def orBroken (p : Pending) (e : Problem) : Problem :=
  match p.tokens with
  | .broken problem :: _ => problem
  | _ => e

/-- The problem with the next token. -/
def problem (p : Pending) : Problem := p.orBroken .unexpected

/-- Names a node. A name can be given once, but the node it is given to may change while it is read. -/
def name (p : Pending) (anchor? : Option (List Char)) (node : Node) : Pending :=
  match anchor? with
  | none => p
  | some anchor => { p with anchors := (anchor, node) :: p.anchors }

/-- The tag that a handle and the rest of a tag spell. -/
def tag (p : Pending) (handle? : Option (List Char)) (suffix : List Char) : Except Problem Tag :=
  match handle? with
  | none => .ok (if suffix = ['!'] then .bare else .uri suffix)
  | some handle =>
    match p.handles.lookup handle with
    | some address => .ok (.uri (address ++ suffix))
    | none => .error .tag

/-- Reads an anchor and a tag in either order, as far as they are there. -/
def properties (p : Pending) : Except Problem ((Option (List Char) × Option Tag) × Pending) :=
  match p.tokens with
  | .anchor a :: .tag handle? suffix :: rest =>
    do return ((some a, some (← p.tag handle? suffix)), { p with tokens := rest })
  | .anchor a :: rest => .ok ((some a, none), { p with tokens := rest })
  | .tag handle? suffix :: .anchor a :: rest =>
    do return ((some a, some (← p.tag handle? suffix)), { p with tokens := rest })
  | .tag handle? suffix :: rest =>
    -- whether an anchor follows is looked up before the handle
    let next := { p with tokens := rest }
    do return ((none, some (← (p.tag handle? suffix).mapError next.orBroken)), next)
  | _ => .ok ((none, none), p)

/-- The node that an alias names. -/
def named (p : Pending) (name : List Char) : Except Problem Node :=
  match p.anchors.lookup name with
  | some node => .ok node
  | none => .error (.undefinedAlias name)

/-! ## Collections -/

/-- The tokens that end the value of a mapping in a block. -/
def blockStops : List Token := [.key, .value, .blockEnd]

mutual

/-- Reads a node. -/
def node (place : Place) : Nat → Pending → Except Problem (Node × Pending)
  | 0, p => .error p.problem
  | fuel + 1, p =>
    match p.tokens with
    | .alias name :: rest => do return (← p.named name, { p with tokens := rest })
    | _ => do
      let ((anchor?, tag?), p) ← p.properties
      if let some anchor := anchor? then
        if (p.anchors.lookup anchor).isSome then .error (p.orBroken (.repeatedAnchor anchor))
      let tag := tag?.getD .absent
      let listOf (found : Except Problem (List Node × Pending)) := do
        let (items, p) ← found
        return (Node.list tag items, p.name anchor? (.list tag items))
      let mapOf (found : Except Problem (List (Node × Node) × Pending)) := do
        let (entries, p) ← found
        return (Node.map tag entries, p.name anchor? (.map tag entries))
      let asList := p.name anchor? (.list tag [])
      let asMap := p.name anchor? (.map tag [])
      match place, p.tokens with
      | .blockValue, .entry :: _ => listOf (asList.bareItems fuel)
      | _, .scalar isPlain content :: rest =>
        let scalar := Node.scalar tag isPlain content
        return (scalar, { p with tokens := rest }.name anchor? scalar)
      | _, .listOpen :: _ => listOf (asList.drop.flowItems true fuel)
      | _, .mapOpen :: _ => mapOf (asMap.drop.flowEntries true fuel)
      | .flow, _ => orEmpty anchor? tag? p
      | _, .blockList :: _ => listOf (asList.drop.blockItems fuel)
      | _, .blockMap :: _ => mapOf (asMap.drop.blockEntries fuel)
      | _, _ => orEmpty anchor? tag? p

/-- A node of which only an anchor or a tag is written. -/
def orEmpty (anchor? : Option (List Char)) (tag? : Option Tag) (p : Pending) :
    Except Problem (Node × Pending) :=
  if anchor?.isSome || tag?.isSome then
    let node := Node.scalar (tag?.getD .absent) true {}
    .ok (node, p.name anchor? node)
  else .error p.problem

/-- Reads a node, or nothing when one of some tokens comes next. -/
def nodeOr (stops : List Token) (place : Place) : Nat → Pending → Except Problem (Node × Pending)
  | 0, p => .error p.problem
  | fuel + 1, p => if p.sees stops then .ok (.empty, p) else p.node place fuel

/-- Reads the entries of a block list and its end. -/
def blockItems : Nat → Pending → Except Problem (List Node × Pending)
  | 0, p => .error p.problem
  | fuel + 1, p =>
    match p.tokens with
    | .entry :: _ => do
      let (item, p) ← p.drop.nodeOr [.entry, .blockEnd] .block fuel
      let (items, p) ← p.blockItems fuel
      return (item :: items, p)
    | .blockEnd :: _ => .ok ([], p.drop)
    | _ => .error p.problem

/-- Reads the entries of a list that is not indented below its key. It has no end of its own. -/
def bareItems : Nat → Pending → Except Problem (List Node × Pending)
  | 0, p => .error p.problem
  | fuel + 1, p =>
    match p.tokens with
    | .entry :: _ => do
      let (item, p) ← p.drop.nodeOr (.entry :: blockStops) .block fuel
      let (items, p) ← p.bareItems fuel
      return (item :: items, p)
    | _ => .ok ([], p)

/-- Reads the entries of a mapping in a block and its end. -/
def blockEntries : Nat → Pending → Except Problem (List (Node × Node) × Pending)
  | 0, p => .error p.problem
  | fuel + 1, p =>
    match p.tokens with
    | .key :: _ => do
      let (key, p) ← p.drop.nodeOr blockStops .blockValue fuel
      let (value, p) ← p.valueOr blockStops .blockValue fuel
      let (entries, p) ← p.blockEntries fuel
      return ((key, value) :: entries, p)
    | .blockEnd :: _ => .ok ([], p.drop)
    | _ => .error p.problem

/-- Reads a value after its colon, or nothing when there is none. -/
def valueOr (stops : List Token) (place : Place) : Nat → Pending → Except Problem (Node × Pending)
  | 0, p => .error p.problem
  | fuel + 1, p =>
    match p.tokens with
    | .value :: _ => p.drop.nodeOr stops place fuel
    | _ => .ok (.empty, p)

/-- Reads the items of a list in brackets and its end. An item may be a mapping of one entry. -/
def flowItems (first : Bool) : Nat → Pending → Except Problem (List Node × Pending)
  | 0, p => .error p.problem
  | fuel + 1, p =>
    if p.sees [.listClose] then .ok ([], p.drop)
    else if !first && !p.sees [.comma] then .error p.problem
    else
      let p := if first then p else p.drop
      match p.tokens with
      | .listClose :: _ => .ok ([], p.drop)
      | .key :: _ => do
        let (key, p) ← p.drop.nodeOr [.value, .comma, .listClose] .flow fuel
        let (value, p) ← p.valueOr [.comma, .listClose] .flow fuel
        let (items, p) ← p.flowItems false fuel
        return (.map .absent [(key, value)] :: items, p)
      | _ => do
        let (item, p) ← p.node .flow fuel
        let (items, p) ← p.flowItems false fuel
        return (item :: items, p)

/-- Reads the entries of a mapping in brackets and its end. -/
def flowEntries (first : Bool) : Nat → Pending → Except Problem (List (Node × Node) × Pending)
  | 0, p => .error p.problem
  | fuel + 1, p =>
    if p.sees [.mapClose] then .ok ([], p.drop)
    else if !first && !p.sees [.comma] then .error p.problem
    else
      let p := if first then p else p.drop
      match p.tokens with
      | .mapClose :: _ => .ok ([], p.drop)
      | .key :: _ => do
        let (key, p) ← p.drop.nodeOr [.value, .comma, .mapClose] .flow fuel
        let (value, p) ← p.valueOr [.comma, .mapClose] .flow fuel
        let (entries, p) ← p.flowEntries false fuel
        return ((key, value) :: entries, p)
      | _ => do
        let (key, p) ← p.node .flow fuel
        let (entries, p) ← p.flowEntries false fuel
        return ((key, .empty) :: entries, p)

end

/-! ## Documents -/

/-- The handles that every document has. -/
def standardHandles : List (List Char × List Char) :=
  [(['!'], ['!']), (['!', '!'], "tag:yaml.org,2002:".toList)]

/-- Reads directives. A version is given once, and it is the first; so is the address of a handle. -/
def directives (versioned : Bool) (own : List (List Char × List Char)) :
    List Token → Except Problem (List (List Char × List Char) × List Token)
  | .directive (.version major) :: rest =>
    if versioned || major != 1 then .error .directive else directives true own rest
  | .directive (.tagHandle handle uri) :: rest =>
    if (own.lookup handle).isSome then .error .directive
    else directives versioned ((handle, uri) :: own) rest
  | .directive .unknown :: rest => directives versioned own rest
  | rest => .ok (own ++ standardHandles, rest)

/-- Nodes are nested no deeper than there are tokens, and a token takes three calls at most. -/
def fuel (p : Pending) : Nat := 3 * p.tokens.length + 3

/-- Nothing but ends of a document may follow it. The directives of a second one are still read. -/
def finish (p : Pending) : Except Problem Unit :=
  match p.tokens.dropWhile (· == .documentEnd) with
  | [] => .ok ()
  | rest => do
    let (_, rest) ← directives false [] rest
    .error ({ p with tokens := rest }.orBroken .secondDocument)

end Pending

/-- The node of the only document of a text, if there is a document. -/
def Node.ofTokens? (tokens : List Token) : Except Problem (Option Node) := do
  match tokens with
  | [] => return none
  | .directive _ :: _ | .documentStart :: _ =>
    let (handles, rest) ← Pending.directives false [] tokens
    let p : Pending := { tokens := rest, handles }
    match rest with
    | .documentStart :: next =>
      let p := { p with tokens := next }
      match next with
      | [] | .directive _ :: _ | .documentStart :: _ | .documentEnd :: _ =>
        p.finish
        return some .empty
      | _ =>
        let (node, p) ← p.node .block p.fuel
        p.finish
        return some node
    | _ => .error p.problem
  | _ =>
    let p : Pending := { tokens, handles := Pending.standardHandles }
    let (node, p) ← p.node .block p.fuel
    p.finish
    return some node

end Cadence.Yaml

import Cadence.Value
import Cadence.Yaml.Lexer
import Cadence.Yaml.Node
import Cadence.Yaml.Typed

/-!
# From nodes to values

A node becomes a plain value. Merges put the entries of other mappings below the own entries of a
mapping. Of all faults the one at the shallowest level is reported, and of several there the first.
-/

namespace Cadence.Yaml

/-- Problems, each with its level. -/
abbrev Faults := List (Nat × Problem)

/-- The first problem of the shallowest level. -/
def Faults.first? (faults : Faults) : Option Problem :=
  faults.foldl (fun best? fault =>
    match best? with
    | none => some fault
    | some best => if fault.1 < best.1 then some fault else some best) none |>.map (·.2)

/-- The address that the tags of YAML's own types begin with. -/
def standardAddress : List Char := "tag:yaml.org,2002:".toList

/-- A type that a tag asks for. -/
inductive Wanted where
  /-- what the spelling says -/
  | any
  | null | bool | int | float | timestamp | bytes | text | list | map | set
  /-- a list of pairs, each written as a mapping of one entry -/
  | pairs
  | merge | default
  | unknown (uri : List Char)
  deriving Repr, DecidableEq

def Tag.wanted : Tag → Wanted
  | absent | bare => .any
  | uri address =>
    let known := [("null", Wanted.null), ("bool", .bool), ("int", .int), ("float", .float),
      ("timestamp", .timestamp), ("binary", .bytes), ("str", .text), ("seq", .list), ("map", .map),
      ("set", .set), ("omap", .pairs), ("pairs", .pairs), ("merge", .merge), ("value", .default)]
    ((known.map fun (name, w) => (standardAddress ++ name.toList, w)).lookup address).getD
      (.unknown address)

/-- What a scalar stands for: text if it is quoted, unless a bare tag takes the quotes off. -/
def meaning (tag : Tag) (isPlain : Bool) (content : Content) : Meaning :=
  if content.more?.isNone && (isPlain || tag == .bare) then Meaning.ofPlain content.chars else .text

/-- The text of a scalar. -/
def Content.value (content : Content) : Value :=
  match content.more? with
  | none => .text (String.ofList content.chars)
  | some (half, after) => .brokenText ⟨String.ofList content.chars, half, after⟩

/-- The value of a scalar by its meaning. -/
def valueOf (content : Content) : Meaning → Except Problem Value
  | .null => .ok .null
  | .bool b => .ok (.bool b)
  | .int n => .ok (.int n)
  | .float x => .ok (.float x)
  | .date => .ok .date
  | .dateTime => .ok .dateTime
  | .impossible => .error (.impossible content.chars)
  | .merge | .default => .error .noValue
  | .text => .ok content.value

/-- The meaning of a scalar that is asked to be of a type. Half of a character is part of none. -/
def Content.as (content : Content) (meaningOf : List Char → Meaning) : Meaning :=
  if content.more?.isNone then meaningOf content.chars else .impossible

/-- The value of a scalar of a type that is asked for. -/
def scalarValue (tag : Tag) (isPlain : Bool) (content : Content) : Except Problem Value :=
  match tag.wanted with
  | .any => valueOf content (meaning tag isPlain content)
  | .null => .ok .null
  | .bool => valueOf content (content.as Meaning.asBool)
  | .int => valueOf content (content.as Meaning.asInt)
  | .float => valueOf content (content.as Meaning.asFloat)
  | .timestamp => valueOf content (content.as Meaning.asDate)
  | .bytes =>
    match content.more?, asBytes? content.chars with
    | none, some bs => .ok (.bytes bs)
    | _, _ => .error .bytes
  | .text => .ok content.value
  | .list | .map | .set | .pairs | .merge | .default => .error .noValue
  | .unknown uri => .error (.unknownTag uri)

/-- Whether a type is one of collections. A node that cannot be one shows only a level deeper, when the
collection is filled. -/
def Wanted.isCollection : Wanted → Bool
  | list | map | set | pairs => true
  | _ => false

namespace Node

/-- The mark of a merge. -/
def isMerge : Node → Bool
  | scalar tag isPlain content =>
    tag.wanted == .merge || (tag.wanted == .any && meaning tag isPlain content == .merge)
  | _ => false

/-- The name that a key gives, if it is text. -/
def keyName? : Node → Except Problem (Option String)
  | scalar tag isPlain content =>
    if tag.wanted == .default || (tag.wanted == .any && meaning tag isPlain content == .default) then
      .ok (some (String.ofList content.chars))
    else match scalarValue tag isPlain content with
      | .ok (.text name) => .ok (some name)
      | .ok _ => .ok none
      | .error problem => .error problem
  | _ => .error .collectionKey

/-- The problem with the tag of a collection. -/
def tagFaults (level : Nat) (tag : Tag) (own : Wanted) : Faults :=
  if tag.wanted = .any ∨ tag.wanted = own then []
  else if tag.wanted.isCollection then [(level + 1, .noValue)]
  else match tag.wanted with
    | .unknown uri => [(level, .unknownTag uri)]
    | _ => [(level, .noValue)]

end Node

/-- The entries of a mapping: those that it merges in, later ones over earlier ones, and its own. -/
structure Entries where
  merged : List (String × Value) := []
  own : List (String × Value) := []
  /-- faults of the merging itself -/
  mergeFaults : Faults := []
  mergedFaults : Faults := []
  ownFaults : Faults := []

namespace Entries

/-- All entries, the own ones over the merged ones. -/
def all (es : Entries) : List (String × Value) := es.merged ++ es.own

/-- The faults in the order in which they are met. -/
def faults (es : Entries) : Faults := es.mergedFaults ++ es.ownFaults

/-- Merges in the entries of another mapping, below what is merged in so far. -/
def mergeIn (es other : Entries) : Entries :=
  { es with
    merged := other.all ++ es.merged
    mergeFaults := other.mergeFaults ++ es.mergeFaults
    mergedFaults := other.faults ++ es.mergedFaults }

/-- Adds an entry in front. A key that is no text names nothing. -/
def put (es : Entries) (level : Nat) (key : Except Problem (Option String)) (value : Value)
    (faults : Faults) : Entries :=
  match key with
  | .ok (some name) => { es with own := (name, value) :: es.own, ownFaults := faults ++ es.ownFaults }
  | .ok none => { es with ownFaults := faults ++ es.ownFaults }
  | .error problem => { es with ownFaults := (level, problem) :: faults ++ es.ownFaults }

end Entries

mutual

/-- The value of a node at a level, and the faults in it. -/
def Node.value (level : Nat) : Node → Value × Faults
  | .scalar tag isPlain content =>
    match scalarValue tag isPlain content with
    | .ok v => (v, [])
    | .error problem =>
      (.null, [(if tag.wanted.isCollection then level + 1 else level, problem)])
  | .list tag items =>
    if tag.wanted = .pairs then
      let (vs, faults) := pairsOf (level + 1) items
      (.list vs, faults)
    else
      let (vs, faults) := valuesOf (level + 1) items
      (.list vs, Node.tagFaults level tag .list ++ faults)
  | .map tag entries =>
    let es := entriesOf (level + 1) entries
    let faults := es.mergeFaults ++ es.faults
    -- a set is written as a mapping whose keys are its members
    if tag.wanted = .set then (.set, faults) else (.map es.all, Node.tagFaults level tag .map ++ faults)

/-- The values of items. -/
def valuesOf (level : Nat) : List Node → List Value × Faults
  | [] => ([], [])
  | node :: nodes =>
    let (v, faults) := node.value level
    let (vs, more) := valuesOf level nodes
    (v :: vs, faults ++ more)

/-- The only entry of a mapping as a pair. -/
def pairOf (level : Nat) : List (Node × Node) → Value × Faults
  | [(key, value)] =>
    let (k, keyFaults) := key.value level
    let (v, faults) := value.value level
    (.list [k, v], keyFaults ++ faults)
  | _ => (.null, [(level, .noValue)])

/-- The pairs that items are written for. -/
def pairsOf (level : Nat) : List Node → List Value × Faults
  | [] => ([], [])
  | .map _ entries :: nodes =>
    let (v, faults) := pairOf level entries
    let (vs, more) := pairsOf level nodes
    (v :: vs, faults ++ more)
  | _ :: nodes =>
    let (vs, more) := pairsOf level nodes
    (vs, (level, .noValue) :: more)

/-- The entries of a mapping at a level. -/
def entriesOf (level : Nat) : List (Node × Node) → Entries
  | [] => {}
  | (key, value) :: rest =>
    let es := entriesOf level rest
    if key.isMerge then
      match value with
      | .map _ entries => es.mergeIn (entriesOf level entries)
      | .list _ items =>
        let merged := mergedOf level items
        es.mergeIn merged
      | .scalar _ _ _ => { es with mergeFaults := (level, .merge) :: es.mergeFaults }
    else
      let (v, faults) := value.value level
      es.put level key.keyName? v faults

/-- The entries of several mappings, earlier ones over later ones. -/
def mergedOf (level : Nat) : List Node → Entries
  | [] => {}
  | .map _ entries :: nodes =>
    let es := entriesOf level entries
    let others := mergedOf level nodes
    { merged := others.merged ++ es.all
      mergeFaults := es.mergeFaults ++ others.mergeFaults
      mergedFaults := others.mergedFaults ++ es.faults }
  | _ :: nodes =>
    let others := mergedOf level nodes
    { others with mergeFaults := (level, .merge) :: others.mergeFaults }

end

/-- What makes plain data of a text. -/
abbrev Loader := String → Except Problem Value

/-- The value of a text. A text without a document is nothing. -/
def read : Loader := fun text => do
  let cs := text.toList
  if let some c := cs.find? (!isAllowed ·) then .error (.character c)
  match ← Node.ofTokens? (tokens cs) with
  | none => return .null
  | some node =>
    let (value, faults) := node.value 0
    match faults.first? with
    | none => return value
    | some problem => .error problem

end Cadence.Yaml

/-!
# What is wrong with a YAML text

The causes for which a text has no value. Most say that the text is malformed. The last ones do not: it
is well formed and asks for a value that does not exist, or something else stops its loader.
-/

namespace Cadence.Yaml

/-- Why a text has no value. -/
inductive Problem where
  /-- a character that no text may hold -/
  | character (c : Char)
  /-- a character that begins no token -/
  | start (c : Char)
  | directive
  | tag
  | anchor
  /-- an escape that stands for nothing -/
  | escape
  /-- a quote that is never closed -/
  | quote
  /-- the first line of a block scalar -/
  | header
  /-- a key where none may stand, or one that has no colon -/
  | key
  /-- an entry of a block list where none may stand -/
  | entry
  /-- a token that the grammar has no place for -/
  | unexpected
  | secondDocument
  | undefinedAlias (name : List Char)
  | repeatedAnchor (name : List Char)
  | unknownTag (uri : List Char)
  /-- something other than mappings merged into a mapping -/
  | merge
  /-- a collection as a key -/
  | collectionKey
  /-- bytes that are not spelled in base sixty-four -/
  | bytes
  /-- a token with a meaning that no value has -/
  | noValue
  /-- a number without digits or with too many, or a date that no calendar has -/
  | impossible (text : List Char)
  /-- an escape beyond the last character -/
  | escapeRange (code : Nat)
  /-- whatever else a loader of texts may raise -/
  | other (reason : String)
  deriving Repr, DecidableEq

namespace Problem

/-- Not said of a malformed text, and not expected by those who expect malformed texts. -/
def isForeign : Problem → Bool
  | impossible _ | escapeRange _ | other _ => true
  | _ => false

def message : Problem → String
  | character c => s!"unacceptable character {Nat.repr c.toNat}"
  | start c => s!"character {Nat.repr c.toNat} cannot begin a token"
  | directive => "malformed directive"
  | tag => "malformed tag"
  | anchor => "malformed anchor or alias"
  | escape => "unknown escape"
  | quote => "quote is not closed"
  | header => "malformed first line of a block scalar"
  | key => "no key can stand here, or a colon is missing"
  | entry => "no entry of a list can stand here"
  | unexpected => "unexpected token"
  | secondDocument => "more than one document"
  | undefinedAlias name => "undefined alias " ++ String.ofList name
  | repeatedAnchor name => "repeated anchor " ++ String.ofList name
  | unknownTag uri => "unknown tag " ++ String.ofList uri
  | merge => "only mappings can be merged"
  | collectionKey => "a key cannot be a collection"
  | bytes => "malformed bytes"
  | noValue => "this token has no value"
  | impossible text => "impossible value " ++ String.ofList text
  | escapeRange code => s!"no character {Nat.repr code}"
  | other reason => reason

end Problem

end Cadence.Yaml

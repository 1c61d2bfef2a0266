import Cadence.Text.Blank
import Cadence.Text.Quoted

/-!
# Names

An escape in a document can spell half of a character: one of the two codes that together stand for a
character beyond the first plane. A text with such a half in it can be compared and shown, but it has
no bytes.
-/

namespace Cadence

/-- Half of a character: its code, counted from `0xd800`. -/
abbrev Half := Fin 2048

/-- A character or half of one. -/
inductive Point where
  | char (c : Char)
  | half (h : Half)
  deriving Repr, DecidableEq

/-- Text with half of a character in it: what stands before the first one, and what after it. -/
structure Broken where
  before : String
  half : Half
  after : List Point := []
  deriving Repr, DecidableEq

/-- A text that a document can spell. -/
inductive Name where
  | whole (text : String)
  | broken (b : Broken)
  deriving Repr, DecidableEq

instance : Coe String Name := ⟨Name.whole⟩

namespace Half

/-- The half with a code. -/
def ofCode? (code : Nat) : Option Half :=
  if h : 0xd800 ≤ code ∧ code < 0xe000 then some ⟨code - 0xd800, by omega⟩ else none

theorem ofCode?_eq_none_iff {code : Nat} : ofCode? code = none ↔ code < 0xd800 ∨ 0xe000 ≤ code := by
  unfold ofCode?
  split <;> simp <;> omega

/-- The escape that shows half of a character. -/
def escape (h : Half) : List Char := '\\' :: 'u' :: Text.hex 4 (0xd800 + h.val)

end Half

namespace Point

/-- A character as it is, half of one by its escape. -/
def shown : Point → List Char
  | char c => [c]
  | half h => h.escape

/-- As it is shown between quotes. -/
def quoted (quote : Char) : Point → List Char
  | char c => Text.quotedChar quote c
  | half h => h.escape

/-- The character, if it is one. -/
def char? : Point → Option Char
  | char c => some c
  | half _ => none

def isHalf : Point → Bool
  | char _ => false
  | half _ => true

end Point

namespace Broken

/-- Characters and halves in their order. -/
def points (b : Broken) : List Point := b.before.toList.map .char ++ .half b.half :: b.after

/-- The text without the blanks around it. -/
def strip (b : Broken) : Broken :=
  { b with
    before := String.ofList (b.before.toList.dropWhile Text.isBlank)
    after := (b.after.reverse.dropWhile (·.char?.any Text.isBlank)).reverse }

/-- The text in quotes. -/
def quoted (b : Broken) : String :=
  let quote := Text.quoteFor (b.points.filterMap Point.char?)
  String.ofList (quote :: b.points.flatMap (Point.quoted quote) ++ [quote])

/-- Why the text has no bytes. -/
def noBytes (b : Broken) : String :=
  let first := b.before.length
  let others := (b.after.takeWhile Point.isHalf).length
  let what :=
    if others = 0 then s!" '{String.ofList b.half.escape}' in position {Nat.repr first}"
    else s!"s in position {Nat.repr first}-{Nat.repr (first + others)}"
  s!"'utf-8' codec can't encode character{what}: surrogates not allowed"

end Broken

namespace Name

/-- The name as it is printed. Half of a character is shown by its escape. -/
def text : Name → String
  | whole s => s
  | broken b => String.ofList (b.points.flatMap Point.shown)

/-- Made of characters only. -/
def isWhole : Name → Bool
  | whole _ => true
  | broken _ => false

/-- The name in quotes. -/
def quoted : Name → String
  | whole s => Text.quoted s
  | broken b => b.quoted

/-- A token without the blanks around it. -/
def strip : Name → Name
  | whole s => whole (Text.strip s)
  | broken b => broken b.strip

/-- One name after another. -/
def append : Name → Name → Name
  | whole s, whole s' => whole (s ++ s')
  | whole s, broken b => broken { b with before := s ++ b.before }
  | broken b, whole s => broken { b with after := b.after ++ s.toList.map .char }
  | broken b, broken b' => broken { b with after := b.after ++ b'.points }

instance : Append Name := ⟨append⟩

@[simp] theorem text_whole (s : String) : (whole s).text = s := rfl

@[simp] theorem isWhole_whole (s : String) : (whole s).isWhole = true := rfl

@[simp] theorem whole_append (s s' : String) : whole s ++ whole s' = whole (s ++ s') := rfl

@[simp] theorem append_empty (name : Name) : name ++ whole "" = name := by
  cases name with
  | whole s => rw [whole_append, String.append_empty]
  | broken b =>
    show broken { b with after := b.after ++ [] } = broken b
    rw [List.append_nil]

theorem whole_text {name : Name} (h : name.isWhole = true) : whole name.text = name := by
  cases name with
  | whole s => rfl
  | broken b => cases h

end Name

end Cadence

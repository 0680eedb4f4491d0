import Conformance.Shell.Numeral
/-!
# Patterns

What a word matches: characters that stand for themselves, for any one, for any
number of them, or for one of a set. Quoted characters stand for themselves.
-/
namespace Conformance.Shell

/-- A character of a word after expansion. -/
structure Glyph where
  char : Char
  quoted : Bool
  deriving DecidableEq

/-- A character that is not quoted. -/
def Glyph.plain? (g : Glyph) : Option Char :=
  if g.quoted then none else some g.char

/-- What one place of a pattern stands for. -/
inductive Place
  | octet (c : Char)
  | one
  | many
  | set (negated : Bool) (ranges : List (Char × Char))
  deriving DecidableEq

abbrev Pattern := List Place

namespace Pattern

/-- The named classes of characters, as ranges. -/
def classes : List (String × List (Char × Char)) :=
  [("alpha", [('a', 'z'), ('A', 'Z')]), ("digit", [('0', '9')]),
    ("alnum", [('a', 'z'), ('A', 'Z'), ('0', '9')]), ("upper", [('A', 'Z')]),
    ("lower", [('a', 'z')]), ("space", [(' ', ' '), ('\t', '\r')]),
    ("blank", [(' ', ' '), ('\t', '\t')]),
    ("punct", [('!', '/'), (':', '@'), ('[', backquote), ('\x7b', '~')]),
    ("print", [(' ', '~')]), ("graph", [('!', '~')]),
    ("cntrl", [('\x00', '\x1f'), ('\x7f', '\x7f')]),
    ("xdigit", [('0', '9'), ('a', 'f'), ('A', 'F')])]

/-- The ranges of a named class in front, and how many characters its name takes. -/
def classFront? (glyphs : List Glyph) : Option (List (Char × Char) × Nat) :=
  let text := glyphs.map (·.char)
  classes.findSome? fun (name, ranges) =>
    let written := "[:".toList ++ name.toList ++ ":]".toList
    if written.isPrefixOf text then some (ranges, written.length) else none

/-- The ranges of a set up to the bracket that closes it, and the glyphs after that. -/
def ranges (isFirst : Bool) : (skip : Nat) → List Glyph → Option (List (Char × Char) × List Glyph)
  | _, [] => none
  | skip + 1, _ :: rest => ranges false skip rest
  | 0, g :: rest =>
    if g.plain? = some ']' ∧ ¬ isFirst then some ([], rest)
    else
      match classFront? (g :: rest), rest with
      | some (found, n), _ =>
        (ranges false (n - 1) rest).map fun (others, after) => (found ++ others, after)
      | none, dash :: last :: _ =>
        if dash.plain? = some '-' ∧ last.plain? ≠ some ']' then
          (ranges false 2 rest).map fun (others, after) => ((g.char, last.char) :: others, after)
        else (ranges false 0 rest).map fun (others, after) => ((g.char, g.char) :: others, after)
      | none, _ =>
        (ranges false 0 rest).map fun (others, after) => ((g.char, g.char) :: others, after)

/-- A set after its opening bracket, and the glyphs after it. -/
def set? (glyphs : List Glyph) : Option (Place × List Glyph) :=
  let negated := (glyphs.head?.bind Glyph.plain?).any fun c => c == '!' || c == '^'
  (ranges true 0 (if negated then glyphs.drop 1 else glyphs)).map fun (found, after) =>
    (.set negated found, after)

def read : (skip : Nat) → List Glyph → Pattern
  | _, [] => []
  | skip + 1, _ :: rest => read skip rest
  | 0, g :: rest =>
    match g.plain? with
    | some '*' => .many :: read 0 rest
    | some '?' => .one :: read 0 rest
    | some '[' =>
      match set? rest with
      | some (place, after) => place :: read (rest.length - after.length) rest
      | none => .octet '[' :: read 0 rest
    | _ => .octet g.char :: read 0 rest

def ofGlyphs (glyphs : List Glyph) : Pattern :=
  read 0 glyphs

/-- Whether a pattern matches more than one text, or one that is written otherwise. -/
def isOpen (p : Pattern) : Bool :=
  p.any fun
    | .octet _ => false
    | _ => true

end Pattern

def Place.accepts : Place → Char → Bool
  | .octet d, c => c == d
  | .one, _ => true
  | .many, _ => true
  | .set negated ranges, c =>
    (ranges.any fun (low, high) => decide (low ≤ c) && decide (c ≤ high)) != negated

/-- A text and all texts that it ends in. -/
def endings (text : Octets) : List Octets :=
  (List.range (text.length + 1)).map text.drop

namespace Pattern

def accepts : Pattern → Octets → Bool
  | [], text => text.isEmpty
  | .many :: rest, text => (endings text).any (accepts rest)
  | _ :: _, [] => false
  | place :: rest, c :: text => place.accepts c && accepts rest text

/-- Where a text can be cut in two, from the start on or, for the longest part, from the end. -/
def cuts (longestFirst : Bool) (text : Octets) : List Nat :=
  let all := List.range (text.length + 1)
  if longestFirst then all.reverse else all

/-- Removes what matches at the start of a text. -/
def trimStart (p : Pattern) (longest : Bool) (text : Octets) : Octets :=
  match (cuts longest text).find? fun n => p.accepts (text.take n) with
  | some n => text.drop n
  | none => text

/-- Removes what matches at the end of a text. -/
def trimEnd (p : Pattern) (longest : Bool) (text : Octets) : Octets :=
  match (cuts (!longest) text).find? fun n => p.accepts (text.drop n) with
  | some n => text.take n
  | none => text

end Pattern
end Conformance.Shell

/-!
# Listings

Terms are shown in messages and traces as constructors with their parts. A `Listing` is such a text
before it is laid out, either on one line or with every part on a line of its own.
-/

namespace Inliner

/-- What encloses the parts of a listing. -/
inductive Bracket where
  /-- Positional parts, as in `Unary(Neg, x)`. -/
  | round
  /-- Labelled parts, as in `New { ctor: m, args: [] }`. -/
  | curly
  /-- The items of a list. -/
  | square

/-- A text built from constructors and their parts. -/
inductive Listing where
  /-- A text without parts. -/
  | atom (text : String)
  /-- A part with its label. -/
  | labelled (name : String) (item : Listing)
  /-- The parts of `head`. -/
  | group (head : String) (bracket : Bracket) (items : List Listing)

namespace Listing

/-- The brackets around parts that stand on one line. -/
def tightBrackets : Bracket → String × String
  | .round => ("(", ")")
  | .curly => (" \x7b ", " \x7d")
  | .square => ("[", "]")

/-- The brackets around parts that stand on lines of their own. -/
def wideBrackets : Bracket → String × String
  | .round => ("(", ")")
  | .curly => (" \x7b", "\x7d")
  | .square => ("[", "]")

mutual

/-- The text on one line. -/
def inline : Listing → String
  | .atom text => text
  | .labelled name item => name ++ ": " ++ item.inline
  | .group head bracket items =>
    head ++ (tightBrackets bracket).1 ++ ", ".intercalate (inlineAll items) ++
      (tightBrackets bracket).2

/-- The parts, each on one line. -/
def inlineAll : List Listing → List String
  | [] => []
  | item :: rest => item.inline :: inlineAll rest

end

/-- The blanks at the start of a line at the given depth. -/
def margin (depth : Nat) : String :=
  "".pushn ' ' (4 * depth)

mutual

/-- The text with every part on a line of its own, four blanks further in than its whole and followed
by a comma. A group without parts stays together. -/
def indented (depth : Nat) : Listing → String
  | .atom text => text
  | .labelled name item => name ++ ": " ++ item.indented depth
  | .group head bracket [] => head ++ (wideBrackets bracket).1 ++ (wideBrackets bracket).2
  | .group head bracket items =>
    head ++ (wideBrackets bracket).1 ++ "\n" ++ indentedAll (depth + 1) items ++ margin depth ++
      (wideBrackets bracket).2

/-- The lines of the parts. -/
def indentedAll (depth : Nat) : List Listing → String
  | [] => ""
  | item :: rest => margin depth ++ item.indented depth ++ ",\n" ++ indentedAll depth rest

end

/-- The digits of a number in base sixteen. -/
def hexadecimal (n : Nat) : String :=
  String.ofList (Nat.toDigits 16 n)

/-- The character as it stands in a quoted text: quotes, backslashes and control characters are
escaped, all others stand for themselves. -/
def quotedChar (c : Char) : String :=
  if c == '"' then "\\\""
  else if c == '\\' then "\\\\"
  else if c == '\n' then "\\n"
  else if c == '\t' then "\\t"
  else if c == '\r' then "\\r"
  else if c.toNat == 0 then "\\0"
  else if c.toNat < 0x20 || (0x7f ≤ c.toNat && c.toNat < 0xa0) then
    "\\u\x7b" ++ hexadecimal c.toNat ++ "\x7d"
  else c.toString

/-- A text in double quotes. -/
def quoted (s : String) : Listing :=
  .atom ("\"" ++ String.join (s.toList.map quotedChar) ++ "\"")

/-- A number or truth value as it is printed. -/
def shown {α : Type} [ToString α] (a : α) : Listing :=
  .atom (toString a)

/-- The constructor `head` with positional parts. -/
def node (head : String) (items : List Listing) : Listing :=
  .group head .round items

/-- The constructor `head` with labelled parts. -/
def labelledNode (head : String) (items : List (String × Listing)) : Listing :=
  .group head .curly (items.map fun p => .labelled p.1 p.2)

/-- The items of a list. -/
def items (l : List Listing) : Listing :=
  .group "" .square l

/-- Something that may be missing. -/
def optional : Option Listing → Listing
  | none => .atom "None"
  | some item => node "Some" [item]

end Listing

end Inliner

/-
A strict reader of JSON text.

It takes exactly the grammar: no comments, no trailing commas, no leading
zeros, no raw control characters in strings, nothing but blanks behind
the value. Numbers are kept as they are written, so that whoever wants an
integer can insist on the form of one. A string whose escapes leave half
a surrogate pair is well formed but stands for no text; it is kept as
`none`, and refusing it is left to whoever needs its text.

The reader goes down one unit of fuel per call. A call takes a character
or returns, so twice the length of the text is always enough.
-/
import Quorum.Basic
import Quorum.Text.Hex

namespace Quorum

/-- A JSON value. Members of objects are in order, repeated names
included. -/
inductive Json where
  | null
  | bool (value : Bool)
  | number (digits : List Char)
  | string (text : Option String)
  | array (items : List Json)
  | object (members : List (Option String × Json))

namespace Json

-- ====================================================== blanks, numbers

/-- The four characters that may stand between tokens. -/
def isBlank (c : Char) : Bool := c == ' ' || c == '\n' || c == '\t' || c == '\r'

/-- What is behind the blanks. -/
def skip (cs : List Char) : List Char := cs.dropWhile isBlank

/-- Characters that can belong to a number. -/
def isNumberChar (c : Char) : Bool :=
  c.isDigit || c == '-' || c == '+' || c == '.' || c == 'e' || c == 'E'

/-- One digit or more, and what is behind them. -/
def digits? (cs : List Char) : Option (List Char) :=
  match cs with
  | c :: rest => if c.isDigit then some (rest.dropWhile Char.isDigit) else none
  | [] => none

/-- Whether these characters are an exponent, or nothing. -/
def isExponent : List Char → Bool
  | [] => true
  | e :: rest =>
    (e == 'e' || e == 'E') &&
      let unsigned :=
        match rest with
        | sign :: more => if sign == '+' || sign == '-' then more else rest
        | [] => rest
      digits? unsigned == some []

/-- Whether these characters are a fraction, an exponent, both or
nothing. -/
def isTail : List Char → Bool
  | '.' :: rest =>
    match digits? rest with
    | some more => isExponent more
    | none => false
  | rest => isExponent rest

/-- Whether these characters are a number: a whole part without leading
zero, then fraction and exponent. -/
def isNumber (cs : List Char) : Bool :=
  let unsigned :=
    match cs with
    | '-' :: rest => rest
    | rest => rest
  match unsigned with
  | '0' :: rest => isTail rest
  | rest =>
    match digits? rest with
    | some more => isTail more
    | none => false

-- ============================================================ strings

/-- The value of four hexadecimal digits. -/
def hex4? (a b c d : Char) : Option Nat := do
  let a ← Hex.value? a
  let b ← Hex.value? b
  let c ← Hex.value? c
  let d ← Hex.value? d
  return ((a * 16 + b) * 16 + c) * 16 + d

/-- What a one-letter escape stands for. -/
def escape? : Char → Option Nat
  | '"' => some 0x22
  | '\\' => some 0x5C
  | '/' => some 0x2F
  | 'b' => some 0x08
  | 'f' => some 0x0C
  | 'n' => some 0x0A
  | 'r' => some 0x0D
  | 't' => some 0x09
  | _ => none

/-- The code units of a string up to its closing quote, last first, and
what is behind it. -/
def units? : List Nat → List Char → Option (List Nat × List Char)
  | _, [] => none
  | units, '"' :: rest => some (units, rest)
  | units, '\\' :: 'u' :: a :: b :: c :: d :: rest =>
    match hex4? a b c d with
    | some unit => units? (unit :: units) rest
    | none => none
  | units, '\\' :: c :: rest =>
    match escape? c with
    | some unit => units? (unit :: units) rest
    | none => none
  | units, c :: rest => if c.toNat < 0x20 then none else units? (c.toNat :: units) rest

/-- The text that code units spell: surrogates have to come in pairs. -/
def assemble : List Nat → Option (List Char)
  | [] => some []
  | unit :: rest =>
    if 0xD800 ≤ unit ∧ unit < 0xDC00 then
      match rest with
      | low :: rest =>
        if 0xDC00 ≤ low ∧ low < 0xE000 then
          (assemble rest).map
            (Char.ofNat (0x10000 + (unit - 0xD800) * 0x400 + (low - 0xDC00)) :: ·)
        else none
      | [] => none
    else if 0xDC00 ≤ unit ∧ unit < 0xE000 then none
    else (assemble rest).map (Char.ofNat unit :: ·)

/-- A string behind its opening quote: its text, if it has one. -/
def string? (cs : List Char) : Option (Option String × List Char) :=
  (units? [] cs).map fun (units, rest) => ((assemble units.reverse).map String.ofList, rest)

-- ============================================================= values

mutual

/-- A value behind blanks. -/
def value? : Nat → List Char → Option (Json × List Char)
  | 0, _ => none
  | fuel + 1, cs =>
    match skip cs with
    | 'n' :: 'u' :: 'l' :: 'l' :: rest => some (.null, rest)
    | 't' :: 'r' :: 'u' :: 'e' :: rest => some (.bool true, rest)
    | 'f' :: 'a' :: 'l' :: 's' :: 'e' :: rest => some (.bool false, rest)
    | '"' :: rest => (string? rest).map fun (text, rest) => (.string text, rest)
    | '[' :: rest =>
      match skip rest with
      | ']' :: rest => some (.array [], rest)
      | _ => (items? fuel rest).map fun (items, rest) => (.array items, rest)
    | '{' :: rest =>
      match skip rest with
      | '}' :: rest => some (.object [], rest)
      | _ => (members? fuel rest).map fun (members, rest) => (.object members, rest)
    | cs =>
      let digits := cs.takeWhile isNumberChar
      if isNumber digits then some (.number digits, cs.dropWhile isNumberChar) else none

/-- The items of an array, one at least, up to its closing bracket. -/
def items? : Nat → List Char → Option (List Json × List Char)
  | 0, _ => none
  | fuel + 1, cs =>
    match value? fuel cs with
    | none => none
    | some (item, rest) =>
      match skip rest with
      | ',' :: rest => (items? fuel rest).map fun (items, rest) => (item :: items, rest)
      | ']' :: rest => some ([item], rest)
      | _ => none

/-- The members of an object, one at least, up to its closing brace. -/
def members? : Nat → List Char → Option (List (Option String × Json) × List Char)
  | 0, _ => none
  | fuel + 1, cs =>
    match skip cs with
    | '"' :: rest =>
      match string? rest with
      | none => none
      | some (name, rest) =>
        match skip rest with
        | ':' :: rest =>
          match value? fuel rest with
          | none => none
          | some (value, rest) =>
            match skip rest with
            | ',' :: rest =>
              (members? fuel rest).map fun (members, rest) => ((name, value) :: members, rest)
            | '}' :: rest => some ([(name, value)], rest)
            | _ => none
        | _ => none
    | _ => none

end

/-- The value that a whole text is. -/
def ofText? (text : String) : Option Json :=
  let cs := text.toList
  match value? (2 * cs.length + 2) cs with
  | some (value, rest) => if (skip rest).isEmpty then some value else none
  | none => none

/-- The value that a whole byte string is, read as UTF-8. -/
def ofBytes? (bs : Bytes) : Option Json :=
  (String.fromUTF8? ⟨bs.toArray⟩).bind ofText?

-- ============================================================ reading

/-- A number written as a plain whole number that fits its word. -/
def word? : Json → Option UInt64
  | .number digits =>
    if digits.all Char.isDigit then
      let value := digits.foldl (fun acc c => acc * 10 + (c.toNat - '0'.toNat)) 0
      if value < UInt64.size then some (UInt64.ofNat value) else none
    else none
  | _ => none

/-- A case without data: its name, or an object with the name as its only
member and nothing in it. -/
def caseName? : Json → Option String
  | .string text => text
  | .object [(name, .null)] => name
  | _ => none

end Json

end Quorum

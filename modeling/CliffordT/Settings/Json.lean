/-
A strict reader of JSON texts.

A value keeps what the text says and nothing more: a number keeps its text, so that its reader can
tell `3` from `3.0`, and an object keeps its pairs in order, repeated keys included. A string that
names half of a surrogate pair stands for no text; it is kept as such, because a value that nobody
looks at may hold one.

The reader goes over the characters once. Its depth is bounded by the length of the text, which
`parse?` passes as fuel; each level of a value uses up at least one character.
-/
import CliffordT.Text.Digits

namespace CliffordT

inductive Json where
  | null
  | bool (b : Bool)
  /-- A number, as its text. -/
  | number (text : List Char)
  /-- A string, or `none` for one with half of a surrogate pair. -/
  | string (text : Option String)
  | array (items : List Json)
  | object (pairs : List (Option String × Json))
  deriving Repr, Inhabited

namespace Json

/-- Drops the white space of JSON: blank, tab, line feed and carriage return. -/
def skipBlanks : List Char → List Char
  | c :: rest =>
    if c == ' ' || c == '\t' || c == '\n' || c == '\r' then skipBlanks rest else c :: rest
  | [] => []

/-- Takes a given text off the front. -/
def keyword? (word : List Char) (cs : List Char) : Option (List Char) :=
  if word.isPrefixOf cs then some (cs.drop word.length) else none

/-! ## Numbers -/

def takeDigits? (cs : List Char) : Option (List Char × List Char) :=
  match cs.takeWhile Char.isDigit with
  | [] => none
  | ds => some (ds, cs.dropWhile Char.isDigit)

def takeWhole? (cs : List Char) : Option (List Char × List Char) :=
  match takeDigits? cs with
  | some (['0'], rest) => some (['0'], rest)
  | some ('0' :: _, _) => none
  | r => r

def takeFraction? : List Char → Option (List Char × List Char)
  | '.' :: rest => (takeDigits? rest).map fun (ds, rest) => ('.' :: ds, rest)
  | cs => some ([], cs)

def takeExponent? : List Char → Option (List Char × List Char)
  | c :: rest =>
    if c == 'e' || c == 'E' then
      match rest with
      | s :: more =>
        if s == '+' || s == '-' then (takeDigits? more).map fun (ds, r) => (c :: s :: ds, r)
        else (takeDigits? rest).map fun (ds, r) => (c :: ds, r)
      | [] => none
    else some ([], c :: rest)
  | [] => some ([], [])

def takeNumber? (cs : List Char) : Option (List Char × List Char) :=
  let (minus, cs) := if cs.head? == some '-' then (['-'], cs.drop 1) else ([], cs)
  match takeWhole? cs with
  | none => none
  | some (whole, cs) =>
    match takeFraction? cs with
    | none => none
    | some (fraction, cs) =>
      (takeExponent? cs).map fun (exponent, cs) => (minus ++ whole ++ fraction ++ exponent, cs)

/-! ## Strings -/

def takeCodeUnit? : List Char → Option (Nat × List Char)
  | a :: b :: c :: d :: rest =>
    match Text.hexDigit? a, Text.hexDigit? b, Text.hexDigit? c, Text.hexDigit? d with
    | some a, some b, some c, some d => some (((a * 16 + b) * 16 + c) * 16 + d, rest)
    | _, _, _, _ => none
  | _ => none

def escape? : Char → Option Char
  | '"' => some '"'
  | '\\' => some '\\'
  | '/' => some '/'
  | 'b' => some '\x08'
  | 'f' => some '\x0c'
  | 'n' => some '\n'
  | 'r' => some '\r'
  | 't' => some '\t'
  | _ => none

/-- What has been read of a string: characters, and the first half of a surrogate pair that waits
for its second half. -/
structure StringState where
  text : Option (List Char)
  pending : Option Nat

def StringState.push (s : StringState) (c : Char) : StringState :=
  match s.pending with
  | none => { s with text := s.text.map (c :: ·) }
  | some _ => { text := none, pending := none }

def StringState.pushUnit (s : StringState) (n : Nat) : StringState :=
  if 0xD800 ≤ n ∧ n < 0xDC00 then
    match s.pending with
    | none => { s with pending := some n }
    | some _ => { text := none, pending := none }
  else if 0xDC00 ≤ n ∧ n < 0xE000 then
    match s.pending with
    | some high =>
      let c := Char.ofNat (0x10000 + (high - 0xD800) * 0x400 + (n - 0xDC00))
      { text := s.text.map (c :: ·), pending := none }
    | none => { text := none, pending := none }
  else s.push (Char.ofNat n)

def StringState.finish (s : StringState) : Option String :=
  match s.pending with
  | none => s.text.map fun cs => String.ofList cs.reverse
  | some _ => none

/-- The rest of a string after its opening quote. A control character may not stand in it. -/
def takeString? : Nat → StringState → List Char → Option (Option String × List Char)
  | 0, _, _ => none
  | fuel + 1, s, cs =>
    match cs with
    | [] => none
    | '"' :: rest => some (s.finish, rest)
    | '\\' :: 'u' :: rest =>
      match takeCodeUnit? rest with
      | some (n, rest) => takeString? fuel (s.pushUnit n) rest
      | none => none
    | '\\' :: c :: rest =>
      match escape? c with
      | some c => takeString? fuel (s.push c) rest
      | none => none
    | '\\' :: [] => none
    | c :: rest => if c.toNat < 0x20 then none else takeString? fuel (s.push c) rest

/-! ## Values -/

mutual

def takeValue? : Nat → List Char → Option (Json × List Char)
  | 0, _ => none
  | fuel + 1, cs =>
    match skipBlanks cs with
    | 'n' :: rest => (keyword? ['u', 'l', 'l'] rest).map (null, ·)
    | 't' :: rest => (keyword? ['r', 'u', 'e'] rest).map (bool true, ·)
    | 'f' :: rest => (keyword? ['a', 'l', 's', 'e'] rest).map (bool false, ·)
    | '"' :: rest =>
      (takeString? (rest.length + 1) ⟨some [], none⟩ rest).map fun (s, rest) => (string s, rest)
    | '[' :: rest =>
      match skipBlanks rest with
      | ']' :: rest => some (array [], rest)
      | rest => (takeItems? fuel rest).map fun (items, rest) => (array items, rest)
    | '\x7b' :: rest =>
      match skipBlanks rest with
      | '\x7d' :: rest => some (object [], rest)
      | rest => (takePairs? fuel rest).map fun (pairs, rest) => (object pairs, rest)
    | cs => (takeNumber? cs).map fun (text, rest) => (number text, rest)

def takeItems? : Nat → List Char → Option (List Json × List Char)
  | 0, _ => none
  | fuel + 1, cs =>
    match takeValue? fuel cs with
    | none => none
    | some (item, rest) =>
      match skipBlanks rest with
      | ']' :: rest => some ([item], rest)
      | ',' :: rest => (takeItems? fuel rest).map fun (items, rest) => (item :: items, rest)
      | _ => none

def takePairs? : Nat → List Char → Option (List (Option String × Json) × List Char)
  | 0, _ => none
  | fuel + 1, cs =>
    match skipBlanks cs with
    | '"' :: rest =>
      match takeString? (rest.length + 1) ⟨some [], none⟩ rest with
      | none => none
      | some (key, rest) =>
        match skipBlanks rest with
        | ':' :: rest =>
          match takeValue? fuel rest with
          | none => none
          | some (value, rest) =>
            match skipBlanks rest with
            | '\x7d' :: rest => some ([(key, value)], rest)
            | ',' :: rest =>
              (takePairs? fuel rest).map fun (pairs, rest) => ((key, value) :: pairs, rest)
            | _ => none
        | _ => none
    | _ => none

end

/-- The value that a text holds, with nothing but blanks around it. -/
def parse? (s : String) : Option Json :=
  let cs := s.toList
  match takeValue? (2 * cs.length + 2) cs with
  | some (v, rest) => if (skipBlanks rest).isEmpty then some v else none
  | none => none

end Json

end CliffordT

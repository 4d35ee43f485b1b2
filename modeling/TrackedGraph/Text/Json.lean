/-
The strict syntax of JSON texts.

A text becomes a tree that commits to nothing beyond syntax. Numbers stay as they
are written and repeated keys stay repeated, because what becomes of them is
decided where a tree is read as something. A string whose escapes hold half of a
surrogate pair is well formed but stands for no text, so strings are optional.
In this way a part of a document that nobody reads can be anything that the
grammar allows.
-/
import TrackedGraph.Text.Numeral

set_option autoImplicit false

namespace TrackedGraph.Text

/-- A JSON text as a tree. -/
inductive Json where
  | null
  | bool (b : Bool)
  | number (n : Numeral)
  | text (s : Option String)
  | array (items : List Json)
  | object (members : List (Option String × Json))
deriving Inhabited

namespace Json

/-- Takes something off the front of a text. -/
abbrev Scan (α : Type) := List Char → Option (α × List Char)

def isBlank (c : Char) : Bool := c == ' ' || c == '\n' || c == '\t' || c == '\r'

def skipBlanks (cs : List Char) : List Char := cs.dropWhile isBlank

/-! ## Strings -/

/-- What one character or one escape contributes to a string. -/
inductive Piece where
  | char (c : Char)
  /-- A UTF-16 unit, which may be half of a character. -/
  | unit (n : Nat)

def isHigh (n : Nat) : Bool := 0xD800 ≤ n && n < 0xDC00

def isLow (n : Nat) : Bool := 0xDC00 ≤ n && n < 0xE000

/-- The characters that pieces spell; nothing if half of a pair stands alone. -/
def spellPieces : List Piece → Option (List Char)
  | [] => some []
  | .char c :: ps => do return c :: (← spellPieces ps)
  | .unit n :: ps =>
    if isHigh n then
      match ps with
      | .unit m :: ps =>
        if isLow m then do
          return Char.ofNat (0x10000 + (n - 0xD800) * 0x400 + (m - 0xDC00)) :: (← spellPieces ps)
        else none
      | _ => none
    else if isLow n then none
    else do return Char.ofNat n :: (← spellPieces ps)

def hexDigit? (c : Char) : Option Nat :=
  if '0' ≤ c && c ≤ '9' then some (c.toNat - '0'.toNat)
  else if 'a' ≤ c && c ≤ 'f' then some (c.toNat - 'a'.toNat + 10)
  else if 'A' ≤ c && c ≤ 'F' then some (c.toNat - 'A'.toNat + 10)
  else none

/-- The character that a one-letter escape stands for. -/
def escaped? : Char → Option Char
  | '"' => some '"'
  | '\\' => some '\\'
  | '/' => some '/'
  | 'b' => some '\x08'
  | 'f' => some '\x0c'
  | 'n' => some '\n'
  | 'r' => some '\r'
  | 't' => some '\t'
  | _ => none

/-- The pieces up to the closing quote. Control characters have to be escaped. -/
def scanPieces : Scan (List Piece)
  | [] => none
  | '"' :: cs => some ([], cs)
  | '\\' :: 'u' :: a :: b :: c :: d :: cs => do
    let n := 4096 * (← hexDigit? a) + 256 * (← hexDigit? b) + 16 * (← hexDigit? c) + (← hexDigit? d)
    let (ps, cs) ← scanPieces cs
    return (.unit n :: ps, cs)
  | '\\' :: e :: cs => do
    let c ← escaped? e
    let (ps, cs) ← scanPieces cs
    return (.char c :: ps, cs)
  | c :: cs =>
    if c.toNat < 0x20 || c == '\\' then none
    else do
      let (ps, cs) ← scanPieces cs
      return (.char c :: ps, cs)

/-- A string behind its opening quote. -/
def scanString : Scan (Option String) := fun cs => do
  let (ps, cs) ← scanPieces cs
  return ((spellPieces ps).map String.ofList, cs)

/-! ## Numbers -/

/-- The longest run of digits. -/
def scanDigits : List Char → List Nat × List Char
  | [] => ([], [])
  | c :: cs =>
    match digit? c with
    | some d =>
      let (ds, cs) := scanDigits cs
      (d :: ds, cs)
    | none => ([], c :: cs)

/-- At least one digit. -/
def scanSomeDigits : Scan (List Nat) := fun cs =>
  match scanDigits cs with
  | ([], _) => none
  | (ds, cs) => some (ds, cs)

/-- The whole part: a zero, or digits that do not begin with one. -/
def scanWhole : Scan (List Nat) := fun cs =>
  match scanDigits cs with
  | ([], _) => none
  | (0 :: _ :: _, _) => none
  | (ds, cs) => some (ds, cs)

def scanFraction : Scan (Option (List Nat))
  | '.' :: cs => do
    let (ds, cs) ← scanSomeDigits cs
    return (some ds, cs)
  | cs => some (none, cs)

/-- The sign of an exponent, which may be missing. -/
def scanSign : List Char → Bool × List Char
  | '-' :: cs => (true, cs)
  | '+' :: cs => (false, cs)
  | cs => (false, cs)

def scanExponent : Scan (Option (Bool × List Nat)) := fun cs =>
  match cs with
  | [] => some (none, [])
  | c :: rest =>
    if c == 'e' || c == 'E' then do
      let (down, rest) := scanSign rest
      let (ds, rest) ← scanSomeDigits rest
      return (some (down, ds), rest)
    else some (none, cs)

def scanNumber : Scan Numeral := fun cs => do
  let (negative, cs) := match cs with
    | '-' :: cs => (true, cs)
    | cs => (false, cs)
  let (whole, cs) ← scanWhole cs
  let (fraction, cs) ← scanFraction cs
  let (exponent, cs) ← scanExponent cs
  return (⟨negative, whole, fraction, exponent⟩, cs)

/-! ## Values

Every call below takes at least one character or hands the text to a call that
does, so fuel of twice the length of the text is never used up. -/

mutual

/-- A value at the front of the text. -/
def scanValue : Nat → Scan Json
  | 0, _ => none
  | fuel + 1, cs =>
    match cs with
    | '"' :: cs => do
      let (s, cs) ← scanString cs
      return (.text s, cs)
    | '[' :: cs =>
      match skipBlanks cs with
      | ']' :: cs => some (.array [], cs)
      | cs => do
        let (items, cs) ← scanItems fuel cs
        return (.array items, cs)
    | '{' :: cs =>
      match skipBlanks cs with
      | '}' :: cs => some (.object [], cs)
      | cs => do
        let (members, cs) ← scanMembers fuel cs
        return (.object members, cs)
    | 'n' :: 'u' :: 'l' :: 'l' :: cs => some (.null, cs)
    | 't' :: 'r' :: 'u' :: 'e' :: cs => some (.bool true, cs)
    | 'f' :: 'a' :: 'l' :: 's' :: 'e' :: cs => some (.bool false, cs)
    | cs => do
      let (n, cs) ← scanNumber cs
      return (.number n, cs)

/-- The items of an array, with its closing bracket. -/
def scanItems : Nat → Scan (List Json)
  | 0, _ => none
  | fuel + 1, cs => do
    let (item, cs) ← scanValue fuel cs
    match skipBlanks cs with
    | ',' :: cs =>
      let (items, cs) ← scanItems fuel (skipBlanks cs)
      return (item :: items, cs)
    | ']' :: cs => return ([item], cs)
    | _ => none

/-- The members of an object, with its closing brace. -/
def scanMembers : Nat → Scan (List (Option String × Json))
  | 0, _ => none
  | fuel + 1, cs =>
    match cs with
    | '"' :: cs => do
      let (key, cs) ← scanString cs
      match skipBlanks cs with
      | ':' :: cs =>
        let (value, cs) ← scanValue fuel (skipBlanks cs)
        match skipBlanks cs with
        | ',' :: cs =>
          let (members, cs) ← scanMembers fuel (skipBlanks cs)
          return ((key, value) :: members, cs)
        | '}' :: cs => return ([(key, value)], cs)
        | _ => none
      | _ => none
    | _ => none

end

/-- **A whole text**: one value, with blanks around it and nothing else. -/
def parse? (text : String) : Option Json := do
  let cs := text.toList
  let (value, rest) ← scanValue (2 * cs.length + 2) (skipBlanks cs)
  if (skipBlanks rest).isEmpty then some value else none

end Json

end TrackedGraph.Text

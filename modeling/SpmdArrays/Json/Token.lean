/-!
Tokens of JSON text. The scanner is an automaton over characters. A string may
contain escapes for halves of surrogate pairs; one that does not pair them up is
still a string, but denotes no text. Numbers are kept as they are written.
-/

namespace SpmdArrays.Json

inductive Token where
  | openBrace
  | closeBrace
  | openBracket
  | closeBracket
  | colon
  | comma
  | null
  | bool (b : Bool)
  | number (text : String)
  /-- The text that a string denotes, if it denotes one. -/
  | string (text : Option String)
  deriving DecidableEq, Repr

/-! ### Strings -/

/-- A piece of a string: a character, or a sixteen-bit unit from an escape. -/
inductive Piece where
  | char (c : Char)
  | unit (n : Nat)
  deriving DecidableEq, Repr

def isHighSurrogate (n : Nat) : Bool := 0xd800 ≤ n && n < 0xdc00

def isLowSurrogate (n : Nat) : Bool := 0xdc00 ≤ n && n < 0xe000

def pairedChar (high low : Nat) : Char :=
  Char.ofNat (0x10000 + (high - 0xd800) * 0x400 + (low - 0xdc00))

/-- The characters of a string, if its surrogates come in pairs. -/
def assemble : List Piece → Option (List Char)
  | [] => some []
  | .char c :: rest => (assemble rest).map (c :: ·)
  | .unit n :: rest =>
    if isLowSurrogate n then none
    else if isHighSurrogate n then
      match rest with
      | .unit m :: rest =>
        if isLowSurrogate m then (assemble rest).map (pairedChar n m :: ·) else none
      | _ => none
    else (assemble rest).map (Char.ofNat n :: ·)

def shortEscape? : Char → Option Char
  | '"' => some '"'
  | '\\' => some '\\'
  | '/' => some '/'
  | 'b' => some '\x08'
  | 'f' => some '\x0c'
  | 'n' => some '\n'
  | 'r' => some '\r'
  | 't' => some '\t'
  | _ => none

def hexDigit? (c : Char) : Option Nat :=
  if '0' ≤ c ∧ c ≤ '9' then some (c.toNat - '0'.toNat)
  else if 'a' ≤ c ∧ c ≤ 'f' then some (c.toNat - 'a'.toNat + 10)
  else if 'A' ≤ c ∧ c ≤ 'F' then some (c.toNat - 'A'.toNat + 10)
  else none

/-! ### Numbers -/

/-- At least one digit, and what follows the digits. -/
def digits? (cs : List Char) : Option (List Char) :=
  if (cs.takeWhile Char.isDigit).isEmpty then none else some (cs.dropWhile Char.isDigit)

/-- A whole part: zero, or digits that do not start with zero. -/
def wholePart? : List Char → Option (List Char)
  | '0' :: rest => some rest
  | cs => digits? cs

def fraction? : List Char → Option (List Char)
  | '.' :: rest => digits? rest
  | cs => some cs

def exponent? : List Char → Option (List Char)
  | c :: rest =>
    if c = 'e' ∨ c = 'E' then
      match rest with
      | '+' :: rest => digits? rest
      | '-' :: rest => digits? rest
      | rest => digits? rest
    else some (c :: rest)
  | [] => some []

def withoutMinus : List Char → List Char
  | '-' :: rest => rest
  | cs => cs

def isNumber (cs : List Char) : Bool :=
  (wholePart? (withoutMinus cs) >>= fraction? >>= exponent?) == some []

def isNumberChar (c : Char) : Bool :=
  c.isDigit || c == '-' || c == '+' || c == '.' || c == 'e' || c == 'E'

/-! ### The scanner -/

def isBlank (c : Char) : Bool := c == ' ' || c == '\n' || c == '\t' || c == '\r'

/-- Where the scanner is. Texts being read are kept last character first. -/
inductive Scan where
  | between
  | inString (pieces : List Piece)
  | inEscape (pieces : List Piece)
  /-- Inside a unit escape: the value so far and the digits still to come. -/
  | inUnit (pieces : List Piece) (value left : Nat)
  | inNumber (chars : List Char)
  | inWord (chars : List Char)
  deriving DecidableEq, Repr

def numberToken? (reversed : List Char) : Option Token :=
  if isNumber reversed.reverse then some (.number (String.ofList reversed.reverse)) else none

def wordToken? (reversed : List Char) : Option Token :=
  match String.ofList reversed.reverse with
  | "null" => some .null
  | "true" => some (.bool true)
  | "false" => some (.bool false)
  | _ => none

def stringToken (reversed : List Piece) : Token :=
  .string ((assemble reversed.reverse).map String.ofList)

/-- A character outside of strings, numbers and words. -/
def scanBetween (c : Char) : Option (Scan × List Token) :=
  if isBlank c then some (.between, [])
  else
    match c with
    | '\x7b' => some (.between, [.openBrace])
    | '\x7d' => some (.between, [.closeBrace])
    | '[' => some (.between, [.openBracket])
    | ']' => some (.between, [.closeBracket])
    | ':' => some (.between, [.colon])
    | ',' => some (.between, [.comma])
    | '"' => some (.inString [], [])
    | c =>
      if c.isDigit || c == '-' then some (.inNumber [c], [])
      else if c.isAlpha then some (.inWord [c], [])
      else none

/-- One character: the next place and the tokens that it completes. -/
def scanChar (s : Scan) (c : Char) : Option (Scan × List Token) :=
  match s with
  | .between => scanBetween c
  | .inString pieces =>
    if c = '"' then some (.between, [stringToken pieces])
    else if c = '\\' then some (.inEscape pieces, [])
    else if c.toNat < 0x20 then none
    else some (.inString (.char c :: pieces), [])
  | .inEscape pieces =>
    if c = 'u' then some (.inUnit pieces 0 4, [])
    else (shortEscape? c).map fun e => (.inString (.char e :: pieces), [])
  | .inUnit pieces value left =>
    (hexDigit? c).map fun d =>
      if left ≤ 1 then (.inString (.unit (16 * value + d) :: pieces), [])
      else (.inUnit pieces (16 * value + d) (left - 1), [])
  | .inNumber chars =>
    if isNumberChar c then some (.inNumber (c :: chars), [])
    else do
      let token ← numberToken? chars
      let (next, tokens) ← scanBetween c
      return (next, token :: tokens)
  | .inWord chars =>
    if c.isAlpha then some (.inWord (c :: chars), [])
    else do
      let token ← wordToken? chars
      let (next, tokens) ← scanBetween c
      return (next, token :: tokens)

def scanEnd : Scan → Option (List Token)
  | .between => some []
  | .inNumber chars => (numberToken? chars).map ([·])
  | .inWord chars => (wordToken? chars).map ([·])
  | _ => none

def scan (s : Scan) : List Char → Option (List Token)
  | [] => scanEnd s
  | c :: cs => do
    let (next, tokens) ← scanChar s c
    return tokens ++ (← scan next cs)

def tokens? (text : String) : Option (List Token) := scan .between text.toList

end SpmdArrays.Json

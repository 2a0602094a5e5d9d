import ServerPack.Json.Number

/-!
Lexemes of a JSON text. `Scanner.step` is a machine over characters that remembers what it is inside
of, and `lexemes` runs it over a text: brackets, commas, colons, literals, numbers and strings, each
with the number of bytes that were unread before and behind it. The first thing that is no lexeme
ends the list with a token that says so; whether a reader ever gets there is not decided here.

Since the machine goes character by character, a text put into the middle of a string is read in the
state that the string's beginning left behind.
-/

namespace ServerPack.Json

/-- The smallest units of a JSON text. A broken token began well and then went wrong; a stray one
began with a character that begins nothing. -/
inductive Token where
  | arrayOpen
  | arrayClose
  | objectOpen
  | objectClose
  | comma
  | colon
  | null
  | bool (value : Bool)
  | number (spelling : Text)
  | string (value : Text)
  | brokenString (fault : Fault)
  | brokenScalar (fault : Fault)
  | stray
  deriving DecidableEq

/-- A token with the numbers of bytes unread before it and behind it. -/
structure Lexeme where
  token : Token
  before : Nat
  behind : Nat
  deriving DecidableEq

/-- Where the machine is: between lexemes, inside one of which `before` bytes were unread at the
start, or stopped. Spellings and strings are collected backwards. A `\u` escape waits for `missing`
more bytes, has the value so far unless one of them was no digit, and may be the second half of a
pair. -/
inductive Scanner where
  | between
  | literal (before : Nat) (token : Token) (rest : Text)
  | number (before : Nat) (stage : Number.Stage) (spelling : Text)
  | string (before : Nat) (chars : Text)
  | escape (before : Nat) (chars : Text)
  | unicode (before : Nat) (chars : Text) (high : Option Nat) (missing : Nat) (value : Option Nat)
  | pairBackslash (before : Nat) (chars : Text) (high : Nat)
  | pairMark (before : Nat) (chars : Text) (high : Nat)
  | stopped
  deriving DecidableEq

namespace Scanner

/-- Blanks between lexemes. -/
def isBlank (c : Char) : Bool := c = ' ' || c = '\n' || c = '\t' || c = '\r'

/-- The character that a one-letter escape stands for. -/
def shortEscape (c : Char) : Option Char :=
  match c with
  | '"' => some '"'
  | '\\' => some '\\'
  | '/' => some '/'
  | 'b' => some '\x08'
  | 'f' => some '\x0c'
  | 'n' => some '\n'
  | 'r' => some '\r'
  | 't' => some '\t'
  | _ => none

/-- The value of a hexadecimal digit of either case. -/
def hexDigit (c : Char) : Option Nat :=
  if c.isDigit then some (c.toNat - 48)
  else if 'a' ≤ c ∧ c ≤ 'f' then some (c.toNat - 87)
  else if 'A' ≤ c ∧ c ≤ 'F' then some (c.toNat - 55)
  else none

/-- Ends the list with a string that cannot be read. -/
def breakString (before : Nat) (problem : Problem) (left : Nat) : List Lexeme × Scanner :=
  ([⟨.brokenString ⟨problem, left, none⟩, before, left⟩], .stopped)

/-- Ends the list with a literal or number that cannot be read. -/
def breakScalar (before : Nat) (problem : Problem) (left : Nat) : List Lexeme × Scanner :=
  ([⟨.brokenScalar ⟨problem, left, none⟩, before, left⟩], .stopped)

/-- The first character of a lexeme, or a blank. -/
def start (left : Nat) (c : Char) : List Lexeme × Scanner :=
  let single (token : Token) : List Lexeme × Scanner := ([⟨token, left, left - 1⟩], .between)
  if isBlank c then ([], .between)
  else match c with
    | '[' => single .arrayOpen
    | ']' => single .arrayClose
    | '\x7b' => single .objectOpen
    | '\x7d' => single .objectClose
    | ',' => single .comma
    | ':' => single .colon
    | '"' => ([], .string left [])
    | 'n' => ([], .literal left .null ['u', 'l', 'l'])
    | 't' => ([], .literal left (.bool true) ['r', 'u', 'e'])
    | 'f' => ([], .literal left (.bool false) ['a', 'l', 's', 'e'])
    | _ =>
      match Number.Stage.first c with
      | some stage => ([], .number left stage [c])
      | none => ([⟨.stray, left, left⟩], .stopped)

/-- A `\u` escape whose four bytes have been read; `left` bytes are unread behind it. -/
def closeUnicode (before : Nat) (chars : Text) (high value : Option Nat) (left : Nat) :
    List Lexeme × Scanner :=
  match value, high with
  | none, _ => breakString before .invalidEscape left
  | some n, none =>
    if 0xDC00 ≤ n ∧ n ≤ 0xDFFF then breakString before .loneSurrogate left
    else if 0xD800 ≤ n ∧ n ≤ 0xDBFF then ([], .pairBackslash before chars n)
    else ([], .string before (Char.ofNat n :: chars))
  | some n, some high =>
    if 0xDC00 ≤ n ∧ n ≤ 0xDFFF then
      ([], .string before (Char.ofNat (0x10000 + (high - 0xD800) * 0x400 + (n - 0xDC00)) :: chars))
    else breakString before .loneSurrogate left

/-- One more character, of which and of all behind it `left` bytes are unread. -/
def step (left : Nat) (c : Char) : Scanner → List Lexeme × Scanner
  | .between => start left c
  | .stopped => ([], .stopped)
  | .literal before token rest =>
    match rest with
    | expected :: more =>
      if c ≠ expected then breakScalar before .expectedLiteral (left - 1)
      else if more.isEmpty then ([⟨token, before, left - 1⟩], .between)
      else ([], .literal before token more)
    | [] => ([], .stopped)
  | .number before stage spelling =>
    match stage.next c with
    | some stage => ([], .number before stage (c :: spelling))
    | none =>
      if !stage.complete || (stage = .zero && c.isDigit) then
        breakScalar before .invalidNumber (left - 1)
      else
        let (following, scanner) := start left c
        (⟨.number (Number.keep spelling.reverse), before, left⟩ :: following, scanner)
  | .string before chars =>
    if c = '"' then ([⟨.string chars.reverse, before, left - 1⟩], .between)
    else if c = '\\' then ([], .escape before chars)
    else if c.toNat < 0x20 then breakString before .controlCharacter (left - 1)
    else ([], .string before (c :: chars))
  | .escape before chars =>
    if c = 'u' then ([], .unicode before chars none 4 (some 0))
    else match shortEscape c with
      | some meant => ([], .string before (meant :: chars))
      | none => breakString before .invalidEscape (left - 1)
  | .unicode before chars high missing value =>
    let value := match value, hexDigit c with
      | some n, some digit => some (n * 16 + digit)
      | _, _ => none
    if missing ≤ c.utf8Size then closeUnicode before chars high value (left - missing)
    else ([], .unicode before chars high (missing - c.utf8Size) value)
  | .pairBackslash before chars high =>
    if c = '\\' then ([], .pairMark before chars high)
    else breakString before .unfinishedPair (left - 1)
  | .pairMark before chars high =>
    if c = 'u' then ([], .unicode before chars (some high) 4 (some 0))
    else breakString before .unfinishedPair (left - 1)

/-- What the end of the text makes of what the machine was inside of. -/
def finish : Scanner → List Lexeme
  | .between | .stopped => []
  | .literal before _ _ => (breakScalar before .endInValue 0).1
  | .number before stage spelling =>
    if stage.complete then [⟨.number (Number.keep spelling.reverse), before, 0⟩]
    else (breakScalar before .endInValue 0).1
  | .string before _ | .escape before _ | .unicode before _ _ _ _ | .pairBackslash before _ _
  | .pairMark before _ _ => (breakString before .endInString 0).1

/-- The lexemes of the rest of a text, of which `left` bytes are unread. -/
def run (scanner : Scanner) (left : Nat) : Text → List Lexeme
  | [] => scanner.finish
  | c :: rest =>
    let (found, scanner) := scanner.step left c
    found ++ run scanner (left - c.utf8Size) rest

end Scanner

/-- The lexemes of a text. -/
def lexemes (text : Text) : List Lexeme := Scanner.between.run (Utf8.size text) text

example : (lexemes ['[', '-', '0', ',', '"', '\\', 'n', '"']).map Lexeme.token =
    [.arrayOpen, .number ['0'], .comma, .string ['\n']] := by decide

end ServerPack.Json

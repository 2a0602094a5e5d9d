import ServerPack.Text.Basic

/-!
UTF-8. `encode` writes a text as bytes. Reading goes byte by byte: a lead byte says how many
continuation bytes follow and which range the first of them has, so that neither overlong forms,
surrogates nor values above U+10FFFF are accepted. `pieces` cuts any byte string into scalar values
and maximal malformed parts; `decode?` asks that there be no malformed part, `decodeLossy` shows
each of them as U+FFFD.
-/

namespace ServerPack.Utf8

/-- The UTF-8 form of a text. -/
def encode (text : Text) : Bytes := text.flatMap String.utf8EncodeChar

/-- The number of bytes of the UTF-8 form of a text. -/
def size (text : Text) : Nat := (encode text).length

/-- A sequence that has begun: how many continuation bytes are missing, between which bounds the
next of them lies, and the bits read so far. -/
structure Pending where
  missing : Nat
  low : UInt8
  high : UInt8
  bits : Nat
  deriving DecidableEq

/-- What a byte means where a sequence may begin. -/
inductive Lead where
  | whole (c : Char)
  | begins (pending : Pending)
  | malformed
  deriving DecidableEq

/-- The meaning of a first byte. -/
def lead (b : UInt8) : Lead :=
  if b < 0x80 then .whole (Char.ofNat b.toNat)
  else if b < 0xC2 then .malformed
  else if b < 0xE0 then .begins ⟨1, 0x80, 0xBF, b.toNat - 0xC0⟩
  else if b = 0xE0 then .begins ⟨2, 0xA0, 0xBF, 0⟩
  else if b = 0xED then .begins ⟨2, 0x80, 0x9F, 0xD⟩
  else if b < 0xF0 then .begins ⟨2, 0x80, 0xBF, b.toNat - 0xE0⟩
  else if b = 0xF0 then .begins ⟨3, 0x90, 0xBF, 0⟩
  else if b < 0xF4 then .begins ⟨3, 0x80, 0xBF, b.toNat - 0xF0⟩
  else if b = 0xF4 then .begins ⟨3, 0x80, 0x8F, 4⟩
  else .malformed

/-- A byte where a sequence may begin: the scalar value or malformed part that it is, or the
sequence that it begins. -/
def begin (b : UInt8) : List (Option Char) × Option Pending :=
  match lead b with
  | .whole c => ([some c], none)
  | .begins pending => ([], some pending)
  | .malformed => ([none], none)

/-- One more byte: what it completes, with `none` for a malformed part, and the sequence that goes
on. -/
def step : Option Pending → UInt8 → List (Option Char) × Option Pending
  | none, b => begin b
  | some pending, b =>
    if pending.low ≤ b ∧ b ≤ pending.high then
      let bits := pending.bits * 64 + (b.toNat - 0x80)
      if pending.missing ≤ 1 then ([some (Char.ofNat bits)], none)
      else ([], some ⟨pending.missing - 1, 0x80, 0xBF, bits⟩)
    else (none :: (begin b).1, (begin b).2)

/-- The scalar values of a byte string in order, with `none` for each maximal malformed part. -/
def piecesFrom : Option Pending → Bytes → List (Option Char)
  | none, [] => []
  | some _, [] => [none]
  | state, b :: rest => (step state b).1 ++ piecesFrom (step state b).2 rest

/-- The scalar values and malformed parts of a whole byte string. -/
def pieces (bytes : Bytes) : List (Option Char) := piecesFrom none bytes

/-- The text that a byte string is the UTF-8 form of, if there is one. -/
def decode? (bytes : Bytes) : Option Text := (pieces bytes).mapM id

/-- A byte string shown as text, with U+FFFD for each malformed part. -/
def decodeLossy (bytes : Bytes) : Text := (pieces bytes).map (·.getD '\uFFFD')

example : decode? [0x61, 0xC3, 0xA9, 0xE6, 0x97, 0xA5] = some ['a', 'é', '日'] := by decide
example : decode? [0xED, 0xA0, 0x80] = none := by decide
example : decodeLossy [0x66, 0xE6, 0x97, 0x2F, 0xFF] = ['f', '\uFFFD', '/', '\uFFFD'] := by decide

end ServerPack.Utf8

import ClassFile.Bytes
/-!
# UTF-8 that may be damaged

Decoding that never fails. A sequence of the encoding gives its character; bytes that are no part of a sequence give
the replacement character. A sequence that breaks off is replaced as one, as far as it could still have become a
sequence, and the byte that broke it off is looked at anew.
-/

namespace ClassFile.Text.Utf8

/-- What stands for bytes that are not text. -/
def replacement : Char := '\ufffd'

/-- A sequence of which the front was read: how many bytes it still needs, between which bounds the next one must lie,
and the bits read so far. -/
structure Begun where
  owed : Nat
  low : UInt8
  high : UInt8
  bits : Nat

/-- The sequence that a byte begins. The bounds leave out what has a shorter form, surrogates, and what lies beyond the
last character. -/
def begun? (b : UInt8) : Option Begun :=
  if b < 0xc2 then none
  else if b < 0xe0 then some ⟨1, 0x80, 0xbf, b.toNat - 0xc0⟩
  else if b < 0xf0 then
    some ⟨2, if b == 0xe0 then 0xa0 else 0x80, if b == 0xed then 0x9f else 0xbf, b.toNat - 0xe0⟩
  else if b < 0xf5 then
    some ⟨3, if b == 0xf0 then 0x90 else 0x80, if b == 0xf4 then 0x8f else 0xbf, b.toNat - 0xf0⟩
  else none

/-- The characters found (last one first), and the sequence that is being read. -/
structure Progress where
  found : List Char
  begun : Option Begun

/-- A byte outside a sequence. -/
def Progress.enter (p : Progress) (b : UInt8) : Progress :=
  if b < 0x80 then ⟨Char.ofNat b.toNat :: p.found, none⟩
  else
    match begun? b with
    | some s => ⟨p.found, some s⟩
    | none => ⟨replacement :: p.found, none⟩

/-- The next byte. -/
def Progress.next (p : Progress) (b : UInt8) : Progress :=
  match p.begun with
  | none => p.enter b
  | some s =>
      if s.low ≤ b && b ≤ s.high then
        let bits := s.bits * 64 + (b.toNat - 0x80)
        if s.owed == 1 then ⟨Char.ofNat bits :: p.found, none⟩
        else ⟨p.found, some ⟨s.owed - 1, 0x80, 0xbf, bits⟩⟩
      else Progress.enter ⟨replacement :: p.found, none⟩ b

/-- The characters of all that was read. -/
def Progress.characters (p : Progress) : List Char :=
  match p.begun with
  | none => p.found.reverse
  | some _ => (replacement :: p.found).reverse

/-- The text of a byte string. -/
def decode (bytes : Bytes) : String :=
  String.ofList (bytes.foldl Progress.next ⟨[], none⟩).characters

end ClassFile.Text.Utf8

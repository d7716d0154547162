import ClassFile.Bytes
/-!
# Code page 437

A character set of one byte a character: the lower half is ASCII, the upper half holds accented letters, lines to
draw boxes with, and signs. Names of old archives are written in it. Every byte is a character, so decoding never fails.
-/

namespace ClassFile.Text.CodePage437

/-- The characters of the upper half, in order. -/
def upperHalf : Array Char :=
  #['Ç', 'ü', 'é', 'â', 'ä', 'à', 'å', 'ç', 'ê', 'ë', 'è', 'ï', 'î', 'ì', 'Ä', 'Å',
    'É', 'æ', 'Æ', 'ô', 'ö', 'ò', 'û', 'ù', 'ÿ', 'Ö', 'Ü', '¢', '£', '¥', '₧', 'ƒ',
    'á', 'í', 'ó', 'ú', 'ñ', 'Ñ', 'ª', 'º', '¿', '⌐', '¬', '½', '¼', '¡', '«', '»',
    '░', '▒', '▓', '│', '┤', '╡', '╢', '╖', '╕', '╣', '║', '╗', '╝', '╜', '╛', '┐',
    '└', '┴', '┬', '├', '─', '┼', '╞', '╟', '╚', '╔', '╩', '╦', '╠', '═', '╬', '╧',
    '╨', '╤', '╥', '╙', '╘', '╒', '╓', '╫', '╪', '┘', '┌', '█', '▄', '▌', '▐', '▀',
    'α', 'ß', 'Γ', 'π', 'Σ', 'σ', 'µ', 'τ', 'Φ', 'Θ', 'Ω', 'δ', '∞', 'φ', 'ε', '∩',
    '≡', '±', '≥', '≤', '⌠', '⌡', '÷', '≈', '°', '∙', '·', '√', 'ⁿ', '²', '■', '\u00a0']

/-- The character that a byte stands for. -/
def character (b : UInt8) : Char :=
  if b < 0x80 then Char.ofNat b.toNat
  else upperHalf.getD (b.toNat - 0x80) ' '

/-- The text of a byte string. -/
def decode (bytes : Bytes) : String :=
  String.ofList (bytes.map character)

end ClassFile.Text.CodePage437

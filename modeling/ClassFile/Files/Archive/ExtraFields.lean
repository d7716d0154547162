import ClassFile.Files.Archive.Layout
import ClassFile.Files.Checksum
/-!
# Extra fields

An entry of the directory may carry extra fields behind its name. Each has a kind, a length and a body. Some amend what
the entry itself says: sizes and places that do not fit, a name or a comment in UTF-8, a lock on the file. Others hold
times, which change nothing here but have to be well formed. Unknown kinds are skipped.

A wrong field refuses the whole archive. Fields that merely end too early do not: what was read until then
counts, and the rest is left alone. So a reader ends in one of three ways, which `Progress` keeps apart.
-/

namespace ClassFile.Files.Archive

/-- A file of an archive, as the directory describes it. -/
structure Entry where
  name : String
  /-- The bytes are kept under a password. -/
  locked : Bool
  /-- How the bytes are stored. -/
  method : Nat
  checksum : UInt32
  /-- The number of bytes as they are stored. -/
  size : Nat
  /-- Where the file's header is. -/
  offset : Nat

/-- An entry while its extra fields are read. Its place does not yet count what stands in front of the archive. -/
structure Description extends Entry where
  nameBytes : Bytes
  comment : String
  /-- The number of bytes of the file itself. -/
  fullSize : Nat
  /-- A field describes the lock. -/
  hasLock : Bool

/-- How far the reading of extra fields has come. -/
inductive Progress where
  /-- All is well, and some bytes are left. -/
  | onward (d : Description) (rest : Bytes)
  /-- The bytes ended inside a field. -/
  | cutOff (d : Description)
  /-- A field is wrong. -/
  | refused

/-! ## §1  Steps -/

/-- The next `size` bytes, and what follows them. -/
def takeBytes? (size : Nat) (bytes : Bytes) : Option (Bytes × Bytes) :=
  let taken := bytes.take size
  if taken.length == size then some (taken, bytes.drop size) else none

/-- The number in the next `width` bytes, and what follows them. -/
def takeNumber? (width : Nat) (bytes : Bytes) : Option (Nat × Bytes) :=
  (takeBytes? width bytes).map fun r => (ofLittleEndian r.1, r.2)

namespace Progress

/-- Goes on with the next number. -/
def number (p : Progress) (width : Nat) (next : Description → Nat → Bytes → Progress) : Progress :=
  match p with
  | .onward d rest =>
      match takeNumber? width rest with
      | some (n, behind) => next d n behind
      | none => .cutOff d
  | stopped => stopped

/-- Passes over bytes. -/
def skip (p : Progress) (size : Nat) : Progress :=
  match p with
  | .onward d rest =>
      match takeBytes? size rest with
      | some (_, behind) => .onward d behind
      | none => .cutOff d
  | stopped => stopped

/-- Passes over a number that has to have a certain value. -/
def expect (p : Progress) (width value : Nat) : Progress :=
  p.number width fun d n behind => if n == value then .onward d behind else .refused

/-- Takes over a wide number, if it is present. -/
def wide (p : Progress) (isPresent : Description → Bool) (set : Description → Nat → Description) :
    Progress :=
  match p with
  | .onward d rest =>
      if isPresent d then (onward d rest).number 8 fun d n behind => .onward (set d n) behind
      else .onward d rest
  | stopped => stopped

end Progress

/-! ## §2  Fields -/

/-- The length from which on all wide numbers are present. -/
def allWideNumbers : Nat := 24

/-- Wide numbers stand for those that carry the mark, in a fixed order. -/
def wideNumbers (length : Nat) (d : Description) (body : Bytes) : Progress :=
  let isPresent (current : Description → Nat) (d : Description) :=
    allWideNumbers ≤ length || current d == sizeMark
  let read := (Progress.onward d body)
    |>.wide (isPresent (·.fullSize)) (fun d n => { d with fullSize := n })
    |>.wide (isPresent (·.size)) (fun d n => { d with size := n })
    |>.wide (isPresent (·.offset)) (fun d n => { d with offset := n })
  match read with
  | .onward _ behind =>
      let used := body.length - behind.length
      if length < used then .refused else read.skip (length - used)
  | stopped => stopped

/-- Three times of a file, under a tag and with their size. -/
def fineTimes (length : Nat) (d : Description) (body : Bytes) : Progress :=
  if length != 32 then .refused
  else (Progress.onward d body).skip 4 |>.expect 2 1 |>.expect 2 24 |>.skip 24

/-- How many of the eight flags are set. -/
def countFlags (flags : Nat) : Nat :=
  ((List.range 8).filter flags.testBit).length

/-- Times of a file, of which flags say which are present. The length has to agree with the flags, or be that of one time.
At most the three times with a meaning are passed over. -/
def plainTimes (length : Nat) (d : Description) (body : Bytes) : Progress :=
  (Progress.onward d body).number 1 fun d flags behind =>
    if length == 5 then (Progress.onward d behind).skip 4
    else if length == 1 + 4 * countFlags flags then
      (Progress.onward d behind).skip (4 * countFlags (flags % 8))
    else .refused

/-- The maker of locks that is known. -/
def lockMaker : Nat := 0x4541

/-- The description of a lock. It also says how the bytes under the lock are stored. -/
def lock (length : Nat) (d : Description) (body : Bytes) : Progress :=
  if length != 7 then .refused
  else
    (Progress.onward d body).number 2 fun d version rest =>
      (Progress.onward d rest).number 2 fun d maker rest =>
        (Progress.onward d rest).number 1 fun d strength rest =>
          (Progress.onward d rest).number 2 fun d method rest =>
            if maker == lockMaker && [1, 2].contains version && [1, 2, 3].contains strength then
              .onward { d with method := method, locked := true, hasLock := true } rest
            else .refused

/-- A text in UTF-8 that stands for another one, which is known by its checksum. -/
def unicodeText (length : Nat) (replaced : Bytes) (set : Description → Bytes → String → Description)
    (d : Description) (body : Bytes) : Progress :=
  (Progress.onward d body).number 1 fun d _ rest =>
    (Progress.onward d rest).number 4 fun d checksum rest =>
      if length < 5 then .refused
      else
        match takeBytes? (length - 5) rest with
        | none => .cutOff d
        | some (content, behind) =>
            match String.fromUTF8? ⟨content.toArray⟩ with
            | none => .refused
            | some text =>
                if checksum == (Checksum.ofBytes replaced).toNat then .onward (set d content text) behind
                else .refused

/-- A field of the given kind. -/
def extraField (kind length : Nat) (d : Description) (body : Bytes) : Progress :=
  match kind with
  | 0x0001 => wideNumbers length d body
  | 0x000a => fineTimes length d body
  | 0x5455 => plainTimes length d body
  | 0x6375 =>
      unicodeText length d.comment.toUTF8.toList (fun d _ text => { d with comment := text }) d body
  | 0x7075 =>
      unicodeText length d.nameBytes
        (fun d bytes text => { d with name := text, nameBytes := bytes }) d body
  | 0x9901 => lock length d body
  | _ => (Progress.onward d body).skip length

/-! ## §3  All fields -/

/-- One field with its kind and length. -/
def nextField (d : Description) (bytes : Bytes) : Progress :=
  (Progress.onward d bytes).number 2 fun d kind rest =>
    (Progress.onward d rest).number 2 fun d length body => extraField kind length d body

/-- At most `count` fields. -/
def readExtraFields : (count : Nat) → Description → Bytes → Option Description
  | 0, d, _ => some d
  | count + 1, d, bytes =>
      match nextField d bytes with
      | .onward d rest => readExtraFields count d rest
      | .cutOff d => some d
      | .refused => none

/-- The entry as its extra fields amend it. A field takes at least a byte, so their size bounds their number. -/
def Description.amended? (d : Description) (fields : Bytes) : Option Description :=
  readExtraFields fields.length d fields

end ClassFile.Files.Archive

import ClassFile.Files.Archive.Layout
import ClassFile.Files.Checksum
/-!
# Making archives

An archive of files that are stored as they are. The files stand in the order in which they are given, and
nothing stands in front of them, between them, or behind the record at the end. Times are left at the first day that
the format knows.
-/

namespace ClassFile.Files.Archive

/-- A file that goes into an archive. A name that ends with a slash is that of a directory. -/
structure Packed where
  name : String
  bytes : Bytes

namespace Packed

/-- The bytes of a file's name. -/
def nameBytes (f : Packed) : Bytes := f.name.toUTF8.toList

/-- The fields that a file's header and its entry in the directory share. -/
def sharedFields (f : Packed) : Bytes :=
  let flags := if f.nameBytes.all (· < 0x80) then 0 else utf8Flag
  toLittleEndian 2 20 ++ toLittleEndian 2 flags ++ toLittleEndian 2 storedMethod ++ toLittleEndian 2 0 ++ toLittleEndian 2 0x0021 ++
    toLittleEndian 4 (Checksum.ofBytes f.bytes).toNat ++ toLittleEndian 4 f.bytes.length ++
    toLittleEndian 4 f.bytes.length ++ toLittleEndian 2 f.nameBytes.length ++ toLittleEndian 2 0

/-- A file with its header. -/
def record (f : Packed) : Bytes :=
  fileSignature ++ f.sharedFields ++ f.nameBytes ++ f.bytes

/-- The entry of a file whose header is at `offset`. -/
def entry (f : Packed) (offset : Nat) : Bytes :=
  entrySignature ++ toLittleEndian 2 20 ++ f.sharedFields ++ toLittleEndian 2 0 ++ toLittleEndian 2 0 ++ toLittleEndian 2 0 ++
    toLittleEndian 4 0 ++ toLittleEndian 4 offset ++ f.nameBytes

end Packed

/-- The directory of files of which the first one has its header at `offset`. -/
def directory : (offset : Nat) → List Packed → List Bytes
  | _, [] => []
  | offset, f :: more => f.entry offset :: directory (offset + f.record.length) more

/-- The record at the end, for a directory of `count` entries that has `size` bytes and starts at `offset`. -/
def endRecord (count size offset : Nat) : Bytes :=
  endSignature ++ toLittleEndian 2 0 ++ toLittleEndian 2 0 ++ toLittleEndian 2 count ++ toLittleEndian 2 count ++
    toLittleEndian 4 size ++ toLittleEndian 4 offset ++ toLittleEndian 2 0

/-- The archive of some files. -/
def pack (files : List Packed) : Bytes :=
  let records := files.flatMap Packed.record
  let entries := (directory 0 files).flatten
  records ++ entries ++ endRecord files.length entries.length records.length

end ClassFile.Files.Archive

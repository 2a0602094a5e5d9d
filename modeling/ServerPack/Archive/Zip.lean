import ServerPack.FileSystem.Tree

/-!
The bytes of an archive: a ZIP file whose entries are stored as they are. Each entry has a header in
front of its bytes and a record in the directory at the end, both with the length and the checksum
of the bytes. Times are those of the beginning of 1980, the earliest that the format can say.
-/

namespace ServerPack.Archive.Zip

/-- A number in little-endian order. -/
def littleEndian : (width : Nat) → Nat → Bytes
  | 0, _ => []
  | width + 1, n => UInt8.ofNat n :: littleEndian width (n / 256)

/-- One bit of the checksum: division by the reflected polynomial. -/
def crcBit (c : UInt32) : UInt32 := if c &&& 1 = 1 then (c >>> 1) ^^^ 0xEDB88320 else c >>> 1

/-- The checksum with one more byte. -/
def crcByte (c : UInt32) (b : UInt8) : UInt32 := Nat.repeat crcBit 8 (c ^^^ b.toUInt32)

/-- The cyclic redundancy check of a byte string. -/
def checksum (bytes : Bytes) : UInt32 := bytes.foldl crcByte 0xFFFFFFFF ^^^ 0xFFFFFFFF

/-- The fields that an entry has in both places: version, flags, method, time, checksum, lengths.
The flag says that the name is UTF-8. -/
def commonFields (name contents : Bytes) : Bytes :=
  littleEndian 2 20 ++ littleEndian 2 (if name.all (· < 0x80) then 0 else 0x0800) ++ littleEndian 2 0
    ++ littleEndian 2 0 ++ littleEndian 2 0x21 ++ littleEndian 4 (checksum contents).toNat
    ++ littleEndian 4 contents.length ++ littleEndian 4 contents.length
    ++ littleEndian 2 name.length ++ littleEndian 2 0

/-- An entry: its header, its name and its bytes. -/
def localEntry (name contents : Bytes) : Bytes :=
  littleEndian 4 0x04034B50 ++ commonFields name contents ++ name ++ contents

/-- The directory record of an entry that begins at an offset: a regular file that its owner may
write. -/
def directoryRecord (name contents : Bytes) (offset : Nat) : Bytes :=
  littleEndian 4 0x02014B50 ++ littleEndian 2 0x031E ++ commonFields name contents ++ littleEndian 2 0
    ++ littleEndian 2 0 ++ littleEndian 2 0 ++ littleEndian 4 0x81A40000 ++ littleEndian 4 offset ++ name

/-- The entries and the directory records of an archive that goes on at an offset. -/
def parts (offset : Nat) : List (Text × Bytes) → Bytes × Bytes
  | [] => ([], [])
  | (name, contents) :: rest =>
    let name := Utf8.encode name
    let entry := localEntry name contents
    let (entries, records) := parts (offset + entry.length) rest
    (entry ++ entries, directoryRecord name contents offset ++ records)

/-- The bytes of an archive. -/
def bytes (entries : List (Text × Bytes)) : Bytes :=
  let (body, records) := parts 0 entries
  body ++ records ++ littleEndian 4 0x06054B50 ++ littleEndian 4 0 ++ littleEndian 2 entries.length
    ++ littleEndian 2 entries.length ++ littleEndian 4 records.length ++ littleEndian 4 body.length
    ++ littleEndian 2 0

end ServerPack.Archive.Zip

namespace ServerPack

/-- The bytes that are read from a file. -/
def Content.bytes : Content → Bytes
  | .plain bytes => bytes
  | .archive entries => Archive.Zip.bytes entries

end ServerPack

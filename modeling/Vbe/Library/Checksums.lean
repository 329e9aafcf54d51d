/-! The checksum of IEEE 802.3. -/
namespace Vbe.Library.Checksums

/-- One bit of a reflected CRC-32 with the polynomial of IEEE 802.3. -/
def crc32Bit (crc : UInt32) : UInt32 := if crc &&& 1 = 1 then (crc >>> 1) ^^^ 0xEDB88320 else crc >>> 1

/-- `crc32.ChecksumIEEE`. -/
def ChecksumIEEE (data : List UInt8) : UInt32 :=
  ~~~(data.foldl (fun crc b => Nat.repeat crc32Bit 8 (crc ^^^ b.toUInt32)) 0xFFFFFFFF)

end Vbe.Library.Checksums

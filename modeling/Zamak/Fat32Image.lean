import Mathlib.Data.BitVec
import Mathlib.Data.List.Basic

/-! # A FAT32 image in memory

`RamFat32` of `ram_fat32.rs`: the boot-sector checks of `parse` and the arithmetic
from clusters to bytes and to the next cluster. Sector and cluster numbers are
`u32`, byte offsets `usize` of the target's width; both are naturals here, with
each checked operation spelled out. An image is a slice, so its length fits the
address space. -/

set_option autoImplicit false

namespace Zamak.Fat32Image

def sectorSize : ℕ := 512

def fat32EndOfChain : ℕ := 0x0FFFFFF8

def leBytes {w : ℕ} (n : ℕ) (x : BitVec w) : List UInt8 :=
  (List.range n).map fun j => UInt8.ofBitVec (x.extractLsb' (8*j) 8)

def readU16Le (buf : List UInt8) (ofs : ℕ) : BitVec 16 :=
  (buf.getD ofs 0).toBitVec.setWidth 16|||((buf.getD (ofs+1) 0).toBitVec.setWidth 16<<<8)

def readU32Le (buf : List UInt8) (ofs : ℕ) : BitVec 32 :=
  (buf.getD ofs 0).toBitVec.setWidth 32|||((buf.getD (ofs+1) 0).toBitVec.setWidth 32<<<8)|||
    ((buf.getD (ofs+2) 0).toBitVec.setWidth 32<<<16)|||
    ((buf.getD (ofs+3) 0).toBitVec.setWidth 32<<<24)

/-- `checked_mul` and `checked_add` at a given width. -/
def checkedMul (bits a b : ℕ) : Option ℕ := if a*b < 2^bits then some (a*b) else none

def checkedAdd (bits a b : ℕ) : Option ℕ := if a+b < 2^bits then some (a+b) else none

/-- A parsed image. The fields carry what `parse` has checked. -/
structure RamFat32 (usizeBits : ℕ) where
  image : List UInt8
  sectorsPerCluster : ℕ
  reservedSectors : ℕ
  rootCluster : ℕ
  firstDataSector : ℕ
  image_lt : image.length < 2^usizeBits
  sectorsPerCluster_pos : 0 < sectorsPerCluster
  sectorsPerCluster_lt : sectorsPerCluster < 2^8
  reservedSectors_lt : reservedSectors < 2^16
  rootCluster_lt : rootCluster < 2^32
  firstDataSector_lt : firstDataSector < 2^32

def parse (usizeBits : ℕ) (image : List UInt8) (himage : image.length < 2^usizeBits) :
    Option (RamFat32 usizeBits) :=
  if image.length < sectorSize then none
  else if (readU16Le image 0x0B).toNat ≠ sectorSize then none
  else
    let sectorsPerCluster := (image.getD 0x0D 0).toNat
    if hspc : sectorsPerCluster = 0 then none
    else
      let reservedSectors := (readU16Le image 0x0E).toNat
      if reservedSectors = 0 then none
      else
        let fatCount := (image.getD 0x10 0).toNat
        if fatCount = 0 then none
        else
          let sectorsPerFat := (readU32Le image 0x24).toNat
          if sectorsPerFat = 0 then none
          else
            let rootCluster := (readU32Le image 0x2C).toNat
            if rootCluster < 2 then none
            else if image.getD 0x1FE 0 ≠ 0x55 ∨ image.getD 0x1FF 0 ≠ 0xAA then none
            else if fatCount*sectorsPerFat < 2^32 then
              if hdata : reservedSectors+fatCount*sectorsPerFat < 2^32 then
                some
                  { image := image, sectorsPerCluster := sectorsPerCluster,
                    reservedSectors := reservedSectors, rootCluster := rootCluster,
                    firstDataSector := reservedSectors+fatCount*sectorsPerFat,
                    image_lt := himage,
                    sectorsPerCluster_pos := Nat.pos_of_ne_zero hspc,
                    sectorsPerCluster_lt := UInt8.toNat_lt _,
                    reservedSectors_lt := (readU16Le image 0x0E).isLt,
                    rootCluster_lt := (readU32Le image 0x2C).isLt,
                    firstDataSector_lt := hdata }
              else none
            else none

section Clusters
variable {usizeBits : ℕ} (fs : RamFat32 usizeBits)

def sector (lba : ℕ) : Option (List UInt8) := do
  let start ← checkedMul usizeBits lba sectorSize
  let stop ← checkedAdd usizeBits start sectorSize
  if stop > fs.image.length then none else some ((fs.image.drop start).take sectorSize)

def clusterFirstSector (cluster : ℕ) : Option ℕ := do
  let index ← if 2 ≤ cluster then some (cluster-2) else none
  let off ← checkedMul 32 index fs.sectorsPerCluster
  checkedAdd 32 fs.firstDataSector off

def clusterBytes (cluster : ℕ) : Option (List UInt8) := do
  let first ← clusterFirstSector fs cluster
  let start ← checkedMul usizeBits first sectorSize
  let len ← checkedMul usizeBits fs.sectorsPerCluster sectorSize
  let stop ← checkedAdd usizeBits start len
  if stop > fs.image.length then none else some ((fs.image.drop start).take len)

def nextCluster (cluster : ℕ) : Option ℕ := do
  let byteOffset ← checkedMul usizeBits cluster 4
  let lba ← checkedAdd usizeBits fs.reservedSectors (byteOffset/sectorSize)
  let ofs := byteOffset%sectorSize
  let bytes ← sector fs (lba%2^32)
  if ofs+4 > bytes.length then none
  else some ((readU32Le bytes ofs)&&&0x0FFFFFFF#32).toNat

end Clusters

end Zamak.Fat32Image

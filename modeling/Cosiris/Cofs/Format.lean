import Cosiris.Cofs.Alloc
import Cosiris.Cofs.Dir

/-!
# The formatter

`util/mkcofs.c`: the program that lays out the partition on a hard disk image and copies files to
its root directory. It takes blocks and inodes one after the other, and writes the bitmap last.

The image is kept as its sectors. A sector is found by an offset in bytes of 32 bits, and a read
past the end of the image makes the program exit. The list of the blocks that `inode_append` has
assigned is not in the code; no function reads it. An index outside one of the two buffers of
`inode_append` stops the model. -/

namespace Cosiris.Mkcofs

open Function Prog Cofs

/-! ### Sectors -/

/-- `PARTITION_OFFSET`. -/
@[irreducible] def partitionOffset : ℕ := 204801

/-- How the program ends early: it exits with an error, or it leaves one of its buffers. -/
inductive Stop where
  | exit
  | overrun
  deriving DecidableEq

/-- The image, and the global variables `superb`, `free_inode` and `free_block`. -/
structure Img where
  /-- The number of whole sectors of the image. -/
  sectors : ℕ
  disk : ℕ → Block
  superb : Superblock
  freeInode : ℕ
  freeBlock : ℕ
  /-- The blocks that were assigned. -/
  assigned : List ℕ

abbrev Fmt := Prog Stop Img

/-- The sector that `lseek` finds for a sector of the partition. -/
def seek (sector : ℕ) : ℕ := (sector + partitionOffset) % 2 ^ 32 * 512 % 2 ^ 32 / 512

/-- `write_sector`. -/
def writeSector (sector : ℕ) (buf : Block) : Fmt Unit := modify fun s =>
  { s with disk := update s.disk (seek sector) buf, sectors := max s.sectors (seek sector + 1) }

/-- `read_sector`. -/
def readSector (sector : ℕ) : Fmt Block := do
  let s ← read
  if s.sectors ≤ seek sector then halt .exit
  return s.disk (seek sector)

/-! ### Inodes -/

/-- `write_inode`. -/
def writeInode (inum : ℕ) (ino : Inode) : Fmt Unit := do
  let s ← read
  let buffer ← readSector (s.superb.inoBlk inum)
  writeSector (s.superb.inoBlk inum) (putInode buffer (inum % 8) ino)

/-- `read_inode`. -/
def readInode (inum : ℕ) : Fmt Inode := do
  let s ← read
  let buffer ← readSector (s.superb.inoBlk inum)
  return getInode buffer (inum % 8)

/-- The record that `inode_alloc` writes. -/
def newInode (type : ℕ) : Inode :=
  { type := type, major := 0, minor := 0, uid := 0, gid := 0, numLinks := 1, atime := 0, mtime := 0,
    ctime := 0, size := 0, addrs := fun _ => 0 }

/-- `inode_alloc`. -/
def inodeAlloc (type : ℕ) : Fmt ℕ := do
  let s ← read
  modify fun s => { s with freeInode := (s.freeInode + 1) % 2 ^ 32 }
  writeInode s.freeInode (newInode type)
  return s.freeInode

/-! ### Files -/

/-- `free_block++`. -/
def takeBlock : Fmt ℕ := do
  let s ← read
  modify fun s =>
    { s with freeBlock := (s.freeBlock + 1) % 2 ^ 32, assigned := s.freeBlock :: s.assigned }
  return s.freeBlock

/-- Entry `j` of the addresses of the inode; a block is assigned if there is none. -/
def appendAddr (ino : Inode) (j : ℕ) : Fmt Inode := do
  if ino.addrs j = 0 then
    let b ← takeBlock
    return { ino with addrs := update ino.addrs j b }
  else return ino

/-- Entry `k` of the indirect block `b`; a block is assigned if there is none. -/
def appendEntry (b k : ℕ) : Fmt ℕ := do
  let buf ← readSector b
  if 128 ≤ k then halt .overrun
  if word buf k = 0 then
    let a ← takeBlock
    writeSector b (setWord buf k a)
    return word (setWord buf k a) k
  else return word buf k

/-- The branches of `inode_append`: the block of a block of the file. -/
def fileBlock (ino : Inode) (fileBlockNumber : ℕ) : Fmt (Inode × ℕ) :=
  if fileBlockNumber < 6 then do
    let ino ← appendAddr ino fileBlockNumber
    return (ino, ino.addrs fileBlockNumber)
  else if fileBlockNumber < 134 then do
    let ino ← appendAddr ino 6
    let csect ← appendEntry (ino.addrs 6) (fileBlockNumber - 6)
    return (ino, csect)
  else do
    let ino ← appendAddr ino 7
    let mblk ← appendEntry (ino.addrs 7) ((fileBlockNumber - 134) / 128)
    let csect ← appendEntry mblk ((fileBlockNumber - 134) % 128)
    return (ino, csect)

/-- The loop of `inode_append`, with the bytes `p` to go; at least one is copied in each of the
`n` rounds. It returns the inode and the offset that it has reached. -/
def appendLoop : ℕ → Inode → ℕ → List UInt8 → Fmt (Inode × ℕ)
  | 0, ino, offset, _ => pure (ino, offset)
  | n + 1, ino, offset, p =>
    if p = [] then pure (ino, offset) else do
      let fileBlockNumber := offset / 512
      if fileBlockNumber > 6 + 128 + 128 * 128 then halt .exit
      let (ino, csect) ← fileBlock ino fileBlockNumber
      let k := min p.length ((fileBlockNumber + 1) * 512 - offset)
      let buf ← readSector csect
      writeSector csect (putBytes buf (offset - fileBlockNumber * 512) (p.take k))
      appendLoop n ino (offset + k) (p.drop k)

/-- `inode_append`. -/
def inodeAppend (inum : ℕ) (p : List UInt8) : Fmt Unit := do
  let ino ← readInode inum
  let (ino, offset) ← appendLoop p.length ino ino.size p
  writeInode inum { ino with size := offset }

/-! ### The program -/

/-- A bitmap block with its first `used` bits set. -/
def bits (used : ℕ) : Block := (List.range used).foldl setBit zeroBlock

/-- `block_alloc`. Its argument is a signed number. -/
def blockAlloc (used : ℕ) : Fmt Unit := do
  if 4096 < used ∧ used < 2 ^ 31 then halt .exit
  let s ← read
  writeSector s.superb.bitmapStart (bits (if used < 2 ^ 31 then used else 0))

/-- A file on the command line: its base name and its bytes. -/
structure Input where
  name : CStr
  data : List UInt8

/-- The loop that copies a file, 512 bytes at a time; `n` is no less than the number of reads. -/
def copyFile (inum : ℕ) : ℕ → List UInt8 → Fmt Unit
  | 0, _ => pure ()
  | n + 1, data =>
    if data = [] then pure () else do
      inodeAppend inum (data.take 512)
      copyFile inum n (data.drop 512)

/-- One round of the loop over the files. -/
def addFile (f : Input) : Fmt Unit := do
  let inum ← inodeAlloc 0x8000
  inodeAppend 1 (putDirent inum f.name)
  copyFile inum f.data.length f.data

/-- The loop over the files. -/
def addFiles : List Input → Fmt Unit
  | [] => pure ()
  | f :: files => do
    addFile f
    addFiles files

/-- `COFS_MAGIC`. -/
def cofsMagic : ℕ := 0xC0517155

/-- The block with the superblock. -/
def superBlock (sb : Superblock) : Block :=
  putBytes zeroBlock 0 (encode [(4, cofsMagic), (4, sb.size), (4, sb.size + 2 ^ 32 - sb.dataStart),
    (4, sb.numInodes), (4, sb.bitmapStart), (4, sb.inodeStart), (4, 0)])

/-- `cofs_size`: the sectors of the image from `PARTITION_OFFSET` on, in 32 bits. -/
def cofsSize (sectors : ℕ) : ℕ := (sectors + 2 ^ 32 - partitionOffset) % 2 ^ 32

/-- The size of the root directory is rounded up to the next block. -/
def roundUp (size : ℕ) : ℕ := (size / 512 + 1) * 512

/-- `main`, for an image that is there and files that can be read. Without a file it prints its
usage. -/
def main (files : List Input) : Fmt Unit := do
  if files = [] then halt .exit
  let s ← read
  let superb := Superblock.mkcofs (cofsSize s.sectors)
  modify fun s => { s with superb := superb, freeBlock := superb.dataStart }
  let _ ← readSector 1
  upTo (fun i => writeSector i zeroBlock) superb.size
  writeSector 1 (superBlock superb)
  let root ← inodeAlloc 0x4000
  if root ≠ 1 then halt .exit
  inodeAppend root (putDirent root dot)
  inodeAppend root (putDirent root dotdot)
  addFiles files
  let ino ← readInode root
  writeInode root { ino with size := roundUp ino.size }
  let s ← read
  blockAlloc s.freeBlock

/-- An image before the program has run. -/
def start (sectors : ℕ) (disk : ℕ → Block) : Img := ⟨sectors, disk, ⟨0, 0, 0, 0⟩, 1, 0, []⟩

/-- A block of the partition. -/
def Img.block (s : Img) (b : ℕ) : Block := s.disk (b + partitionOffset)

/-- An inode of the partition. -/
def Img.inode (s : Img) (i : ℕ) : Inode := getInode (s.block (s.superb.inoBlk i)) (i % 8)

/-- **No holes and no overflow**: the program leaves no buffer; when it does not exit with an
error, every block that it has assigned is one of the partition, and every block of a file, as far
as the size of its inode goes, has an address. -/
def Right (sectors : ℕ) (disk : ℕ → Block) (files : List Input) : Prop :=
  wp (main files) (fun _ s => (∀ b ∈ s.assigned, b < s.superb.size) ∧
      ∀ i, i < s.superb.numInodes → Filled s.block (s.inode i).addrs (s.inode i).size)
    (fun e _ => e = .exit) (start sectors disk)

end Cosiris.Mkcofs

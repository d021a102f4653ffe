import Reddcoin.Lib.Extents
import Reddcoin.Validation.CheckBlock

/-!
# Block files

Where `main.cpp` puts the data of a block and its undo data.  A file has one size for each of the two, and new
data goes to the end of the last file.  While the node reindexes, blocks are found at positions in files that
exist already.
-/

namespace Reddcoin

open Lib

def MAX_BLOCKFILE_SIZE : Nat := 0x8000000
def BLOCKFILE_CHUNK_SIZE : Nat := 0x1000000
def UNDOFILE_CHUNK_SIZE : Nat := 0x100000
def nMinDiskSpace : Nat := 52428800

/-- Addition of unsigned ints. -/
def addUInt (a b : Nat) : Nat :=
  (a + b) % 2 ^ 32

structure CDiskBlockPos where
  nFile : Nat
  nPos : Nat
deriving DecidableEq

structure CBlockFileInfo where
  nBlocks : Nat
  /-- Number of used bytes of the block file. -/
  nSize : Nat
  /-- Number of used bytes in the undo file. -/
  nUndoSize : Nat
  nHeightFirst : Nat
  nHeightLast : Nat
  nTimeFirst : Nat
  nTimeLast : Nat
deriving DecidableEq

namespace CBlockFileInfo

def null : CBlockFileInfo where
  nBlocks := 0
  nSize := 0
  nUndoSize := 0
  nHeightFirst := 0
  nHeightLast := 0
  nTimeFirst := 0
  nTimeLast := 0

/-- Updates the statistics, but not `nSize`. -/
def addBlock (info : CBlockFileInfo) (nHeightIn nTimeIn : Nat) : CBlockFileInfo :=
  { info with
    nHeightFirst := if info.nBlocks = 0 ∨ nHeightIn < info.nHeightFirst then nHeightIn else info.nHeightFirst
    nTimeFirst := if info.nBlocks = 0 ∨ nTimeIn < info.nTimeFirst then nTimeIn else info.nTimeFirst
    nBlocks := addUInt info.nBlocks 1
    nHeightLast := max info.nHeightLast nHeightIn
    nTimeLast := max info.nTimeLast nTimeIn }

end CBlockFileInfo

/-- What `AcceptBlock` hands on of a block that has passed `CheckBlock`. -/
structure StoredBlock where
  nBlockSize : Nat
  nHeight : Nat
  nTime : Nat
  size_le : nBlockSize ≤ MAX_BLOCK_SIZE

structure BlockFiles where
  vinfoBlockFile : List CBlockFileInfo
  nLastBlockFile : Nat
  setDirtyFileInfo : List Nat
  /-- The bytes of each block file that have been handed out for blocks. -/
  blockRegions : Nat → List Extent
  /-- The bytes of each undo file that have been handed out. -/
  undoRegions : Nat → List Extent
  /-- The regions that lost bytes when a file was truncated. -/
  cut : List Extent

namespace BlockFiles

/-- No files. -/
def fresh : BlockFiles where
  vinfoBlockFile := []
  nLastBlockFile := 0
  setDirtyFileInfo := []
  blockRegions := fun _ => []
  undoRegions := fun _ => []
  cut := []

variable (s : BlockFiles)

/-- The entry of a file, empty for a file that has none yet. -/
def info (nFile : Nat) : CBlockFileInfo :=
  s.vinfoBlockFile.getD nFile .null

def setInfo (nFile : Nat) (info : CBlockFileInfo) : BlockFiles :=
  { s with vinfoBlockFile := s.vinfoBlockFile.set nFile info, setDirtyFileInfo := s.setDirtyFileInfo.insert nFile }

/-- `resize`, where the vector is too short. -/
def resize (nFiles : Nat) : BlockFiles :=
  { s with
    vinfoBlockFile :=
      s.vinfoBlockFile ++ List.replicate (nFiles - s.vinfoBlockFile.length) CBlockFileInfo.null }

/-- `FlushBlockFile(true)` truncates the last file and its undo file to the sizes in their entry. -/
def flushBlockFile : BlockFiles :=
  let f := s.nLastBlockFile
  { s with
    cut := s.cut ++ (s.blockRegions f).filter (fun r => decide ((s.info f).nSize < r.stop)) ++
      (s.undoRegions f).filter fun r => decide ((s.info f).nUndoSize < r.stop) }

/-- A block does not go into a file that would become too large. -/
def full (nAddSize nFile : Nat) : Bool :=
  decide (MAX_BLOCKFILE_SIZE ≤ addUInt (s.info nFile).nSize nAddSize)

/-- The loop that leaves full files.  Beyond the last entry every file has room. -/
def leaveFull (nAddSize : Nat) : Nat → BlockFiles → Nat → BlockFiles × Nat
  | 0, s, nFile => (s, nFile)
  | turns + 1, s, nFile =>
    if s.full nAddSize nFile then
      leaveFull nAddSize turns (s.flushBlockFile.resize (nFile + 2)) (nFile + 1)
    else (s, nFile)

/-- The test of `CheckDiskSpace` when a file grows into a new chunk.  Where it fails the node is aborted. -/
def diskSpaceLow (chunk nOldSize nNewSize nFreeBytesAvailable : Nat) : Bool :=
  let nOldChunks := addUInt nOldSize (chunk - 1) / chunk
  let nNewChunks := addUInt nNewSize (chunk - 1) / chunk
  decide (nOldChunks < nNewChunks) &&
    decide (nFreeBytesAvailable < nMinDiskSpace + (nNewChunks * chunk - nOldSize))

/-- The data of a block is added to a file. -/
def addBlock (nFile nAddSize nHeight nTime : Nat) : BlockFiles :=
  let info := s.info nFile
  { s.setInfo nFile ({ info with nSize := addUInt info.nSize nAddSize }.addBlock nHeight nTime) with
    nLastBlockFile := nFile }

def findBlockPos (pos : CDiskBlockPos) (nAddSize nHeight nTime nFreeBytesAvailable : Nat) (fKnown : Bool) :
    Option (BlockFiles × CDiskBlockPos) :=
  if fKnown then some ((s.resize (pos.nFile + 1)).addBlock pos.nFile nAddSize nHeight nTime, pos)
  else
    let s := s.resize (s.nLastBlockFile + 1)
    let (s, nFile) := leaveFull nAddSize s.vinfoBlockFile.length s s.nLastBlockFile
    let pos : CDiskBlockPos := { nFile := nFile, nPos := (s.info nFile).nSize }
    let s := s.addBlock nFile nAddSize nHeight nTime
    if diskSpaceLow BLOCKFILE_CHUNK_SIZE pos.nPos (s.info nFile).nSize nFreeBytesAvailable then none
    else some (s, pos)

/-- An index beyond the entries is out of bounds. -/
def findUndoPos (nFile nAddSize nFreeBytesAvailable : Nat) : Option (BlockFiles × CDiskBlockPos) :=
  if s.vinfoBlockFile.length ≤ nFile then none
  else
    let info := s.info nFile
    let pos : CDiskBlockPos := { nFile := nFile, nPos := info.nUndoSize }
    let nNewSize := addUInt info.nUndoSize nAddSize
    let s := s.setInfo nFile { info with nUndoSize := nNewSize }
    if diskSpaceLow UNDOFILE_CHUNK_SIZE pos.nPos nNewSize nFreeBytesAvailable then none else some (s, pos)

end BlockFiles

/-- The magic bytes and the size in front of a block. -/
def BLOCK_SERIALIZATION_HEADER_SIZE : Nat := 8

inductive FileCall where
  /-- `AcceptBlock` stores a block that was received. -/
  | received (block : StoredBlock) (nFreeBytesAvailable : Nat)
  /-- `AcceptBlock` of a block that `LoadExternalBlockFile` found; its magic bytes stand at `start`, and `dbp` points
  behind them and the size. -/
  | found (block : StoredBlock) (nFile start : Nat)
  /-- `FindUndoPos` with the size of undo data. -/
  | undo (nFile nAddSize nFreeBytesAvailable : Nat)

namespace BlockFiles

/-- A position handed out for `size` bytes. -/
def region (start size : Nat) : Extent :=
  { start := start, stop := start + size }

def step (s : BlockFiles) : FileCall → Option BlockFiles
  | .received block nFree => do
    let nAddSize := block.nBlockSize + BLOCK_SERIALIZATION_HEADER_SIZE
    let (s, pos) ← s.findBlockPos { nFile := 0, nPos := 0 } nAddSize block.nHeight block.nTime nFree false
    some
      { s with
        blockRegions := Function.update s.blockRegions pos.nFile
          (s.blockRegions pos.nFile ++ [region pos.nPos nAddSize]) }
  | .found block nFile start => do
    let nAddSize := block.nBlockSize + BLOCK_SERIALIZATION_HEADER_SIZE
    let dbp : CDiskBlockPos := { nFile := nFile, nPos := start + BLOCK_SERIALIZATION_HEADER_SIZE }
    let (s, pos) ← s.findBlockPos dbp nAddSize block.nHeight block.nTime 0 true
    some
      { s with
        blockRegions := Function.update s.blockRegions pos.nFile
          (s.blockRegions pos.nFile ++ [region (pos.nPos - BLOCK_SERIALIZATION_HEADER_SIZE) nAddSize]) }
  | .undo nFile nAddSize nFree => do
    let (s, pos) ← s.findUndoPos nFile nAddSize nFree
    some
      { s with
        undoRegions := Function.update s.undoRegions nFile
          (s.undoRegions nFile ++ [region pos.nPos nAddSize]) }

def run (s : BlockFiles) (calls : List FileCall) : Option BlockFiles :=
  calls.foldlM step s

end BlockFiles

end Reddcoin

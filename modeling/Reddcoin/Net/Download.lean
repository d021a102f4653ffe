import Reddcoin.Index.Run
import Reddcoin.Chain.SkipList
import Reddcoin.Net.InFlight

/-!
# What to download from a peer

`ProcessBlockAvailability`, `UpdateBlockAvailability` and `FindNextBlocksToDownload` of `main.cpp`.  The walk from the
last common block towards the best block of the peer is made in chunks; each chunk is filled from its end, along
`pprev`, and then looked through from its beginning.
-/

namespace Reddcoin

/-- What `CNodeState` holds about the blocks of a peer. -/
structure PeerBlocks where
  pindexBestKnownBlock : Option Ptr
  hashLastUnknownBlock : Uint256
  pindexLastCommonBlock : Option Ptr
deriving DecidableEq

def PeerBlocks.new : PeerBlocks where
  pindexBestKnownBlock := none
  hashLastUnknownBlock := 0
  pindexLastCommonBlock := none

/-- `mapBlocksInFlight`: the peer and the iterator into its list. -/
abbrev BlocksInFlight := AList fun _ : Uint256 => NodeId × Nat

def BLOCK_DOWNLOAD_WINDOW : Nat := 1024

section

variable (s : NodeState)

/-- The best known block becomes `p`, unless the one before has more work. -/
def PeerBlocks.announce (state : PeerBlocks) (p : Ptr) : PeerBlocks :=
  match state.pindexBestKnownBlock with
  | none => { state with pindexBestKnownBlock := some p }
  | some best =>
    if (s.entry best).nChainWork ≤ (s.entry p).nChainWork then { state with pindexBestKnownBlock := some p }
    else state

/-- The entry of a hash, if there is one and its chain has work. -/
def NodeState.findWithWork (hash : Uint256) : Option Ptr :=
  (s.mapBlockIndex.find hash).filter fun p => decide (0 < (s.entry p).nChainWork)

/-- `ProcessBlockAvailability`, on the state of the peer. -/
def processBlockAvailability (state : PeerBlocks) : PeerBlocks :=
  if state.hashLastUnknownBlock ≠ 0 then
    match s.findWithWork state.hashLastUnknownBlock with
    | some p => { state.announce s p with hashLastUnknownBlock := 0 }
    | none => state
  else state

def updateBlockAvailability (state : PeerBlocks) (hash : Uint256) : PeerBlocks :=
  let state := processBlockAvailability s state
  match s.findWithWork hash with
  | some p => state.announce s p
  -- An unknown block was announced; just assume that the latest one is the best one.
  | none => { state with hashLastUnknownBlock := hash }

end

/-- What the loops of `FindNextBlocksToDownload` change. -/
structure Fetch where
  pindexLastCommonBlock : Ptr
  vBlocks : List Ptr
  /-- `none` for -1. -/
  waitingfor : Option NodeId
  /-- The argument; `none` for -1. -/
  nodeStaller : Option NodeId
deriving DecidableEq

/-- A filled `vToFetch`: `p` after the `k` entries below it.  `none` when a null pointer is read. -/
def fillToFetch (m : BlockMap) : Nat → Ptr → Option (List Ptr)
  | 0, p => some [p]
  | k + 1, p => (m.par p).bind fun q => (fillToFetch m k q).map fun vToFetch => vToFetch ++ [p]

section

variable (s : NodeState) (mapBlocksInFlight : BlocksInFlight) (nodeid : NodeId) (count : UInt32)

/-- The body of the loop over `vToFetch`.  `error` stands for `return`. -/
def Fetch.visit (nWindowEnd : Nat) (f : Fetch) (pindex : Ptr) : Except Fetch Fetch :=
  if s.haveData pindex then
    if s.linked pindex then .ok { f with pindexLastCommonBlock := pindex } else .ok f
  else
    match mapBlocksInFlight.lookup (s.entry pindex).hash with
    | none =>
      -- The block is not already downloaded, and not yet in flight.
      if nWindowEnd < s.ht pindex then
        -- We reached the end of the window.
        if f.vBlocks.length = 0 ∧ f.waitingfor ≠ some nodeid then .error { f with nodeStaller := f.waitingfor }
        else .error f
      else
        let f := { f with vBlocks := f.vBlocks ++ [pindex] }
        if f.vBlocks.length = count.toNat then .error f else .ok f
    | some (node, _) =>
      -- This is the first already-in-flight block.
      if f.waitingfor = none then .ok { f with waitingfor := some node } else .ok f

/-- `std::max<int>(count - vBlocks.size(), 128)`, but no more than what is left. -/
def Fetch.nToFetch (f : Fetch) (left : Nat) : Nat :=
  (min (left : Int) (max (((count.toNat : Int) - f.vBlocks.length).bmod (2 ^ 32)) 128)).toNat

/-- The loop over the chunks; `none` when a null pointer is read, and when it is not done after `turns` turns. -/
def fetchLoop (pindexBestKnownBlock : Ptr) (nWindowEnd nMaxHeight : Nat) : Nat → Fetch → Ptr → Option Fetch
  | 0, _, _ => none
  | turns + 1, f, pindexWalk =>
    if s.ht pindexWalk < nMaxHeight then
      let nToFetch := f.nToFetch count (nMaxHeight - s.ht pindexWalk)
      match s.mapBlockIndex.readingGetAncestor pindexBestKnownBlock (s.ht pindexWalk + nToFetch : Nat) with
      | some (some pindexWalk) =>
        match fillToFetch s.mapBlockIndex (nToFetch - 1) pindexWalk with
        | some vToFetch =>
          match vToFetch.foldlM (Fetch.visit s mapBlocksInFlight nodeid count nWindowEnd) f with
          | .error f => some f
          | .ok f => fetchLoop pindexBestKnownBlock nWindowEnd nMaxHeight turns f pindexWalk
        | none => none
      | _ => none
    else some f

/-- What `FindNextBlocksToDownload` leaves of the state of the peer and of its arguments. -/
structure Found where
  state : PeerBlocks
  vBlocks : List Ptr
  nodeStaller : Option NodeId
deriving DecidableEq

/-- The rest of `FindNextBlocksToDownload`, once the last common block is an ancestor of the best known one. -/
def fetchFrom (state : PeerBlocks) (pindexBestKnownBlock pindexLastCommonBlock : Ptr) (vBlocks : List Ptr)
    (nodeStaller : Option NodeId) : Option Found :=
  let f : Fetch :=
    { pindexLastCommonBlock := pindexLastCommonBlock, vBlocks := vBlocks, waitingfor := none,
      nodeStaller := nodeStaller }
  let nWindowEnd := s.ht pindexLastCommonBlock + BLOCK_DOWNLOAD_WINDOW
  let nMaxHeight := min (s.ht pindexBestKnownBlock) (nWindowEnd + 1)
  let fetched :=
    if pindexLastCommonBlock = pindexBestKnownBlock then some f
    else fetchLoop s mapBlocksInFlight nodeid count pindexBestKnownBlock nWindowEnd nMaxHeight (nMaxHeight + 1) f
      pindexLastCommonBlock
  fetched.map fun f =>
    { state := { state with pindexLastCommonBlock := some f.pindexLastCommonBlock }
      vBlocks := f.vBlocks
      nodeStaller := f.nodeStaller }

/-- `FindNextBlocksToDownload` for a known peer; `none` when a null pointer is read, when the assertion of
`LastCommonAncestor` fails, and when a loop does not end. -/
def findNextBlocksToDownload (state : PeerBlocks) (vBlocks : List Ptr) (nodeStaller : Option NodeId) : Option Found :=
  if count = 0 then some { state := state, vBlocks := vBlocks, nodeStaller := nodeStaller }
  else
    let state := processBlockAvailability s state
    match state.pindexBestKnownBlock with
    | none => some { state := state, vBlocks := vBlocks, nodeStaller := nodeStaller }
    | some best =>
      match s.tip with
      | none => none
      | some tip =>
        if (s.entry best).nChainWork < (s.entry tip).nChainWork then
          -- This peer has nothing interesting.
          some { state := state, vBlocks := vBlocks, nodeStaller := nodeStaller }
        else
          -- Bootstrap quickly by guessing a parent of our best tip is the forking point.
          match state.pindexLastCommonBlock <|> s.chainActive.at? (min (s.ht best) (s.chainActive.length - 1)) with
          | none => none
          | some common =>
            match s.mapBlockIndex.lastCommonAncestor common best with
            | some (some fork) =>
              fetchFrom s mapBlocksInFlight nodeid count state best fork vBlocks nodeStaller
            | _ => none

end

/-! ## Peers over a run -/

/-- The index and the peers. -/
structure Downloads where
  node : NodeState
  mapNodeState : AList fun _ : NodeId => PeerBlocks

def Downloads.setState (d : Downloads) (nodeid : NodeId) (state : PeerBlocks) : Downloads :=
  { d with mapNodeState := d.mapNodeState.insert nodeid state }

section

variable (N : Node)

/-- What happens while `cs_main` is held.  The blocks in flight are any that are in flight at that time. -/
inductive DownloadStep : Downloads → Downloads → Prop where
  | index {d : Downloads} {s' : NodeState} (op : Op) (stays : ∀ A, op ≠ .restart A) (step : Step N op d.node s') :
      DownloadStep d { d with node := s' }
  /-- `ActivateBestChain` lets go of `cs_main` after each turn of its loop. -/
  | turn {d : Downloads} {pindexMostWork : Ptr} {s₁ s' : NodeState} (pblock : Option CBlock)
      (most : findMostWorkChain d.node = (.ok (some pindexMostWork), s₁))
      (step : activateBestChainStep N s₁ pindexMostWork (blockOf N s₁ pblock pindexMostWork) = (.ok (), s')) :
      DownloadStep d { d with node := s' }
  | restart {d : Downloads} {s' : NodeState} (A : Addresses) (step : Step N (.restart A) d.node s') :
      DownloadStep d { node := s', mapNodeState := ∅ }
  | initializeNode (d : Downloads) (nodeid : NodeId) :
      DownloadStep d (d.setState nodeid ((d.mapNodeState.lookup nodeid).getD PeerBlocks.new))
  | finalizeNode (d : Downloads) (nodeid : NodeId) :
      DownloadStep d { d with mapNodeState := d.mapNodeState.erase nodeid }
  | processBlockAvailability {d : Downloads} {nodeid : NodeId} {state : PeerBlocks}
      (known : d.mapNodeState.lookup nodeid = some state) :
      DownloadStep d (d.setState nodeid (Reddcoin.processBlockAvailability d.node state))
  | updateBlockAvailability {d : Downloads} {nodeid : NodeId} {state : PeerBlocks} (hash : Uint256)
      (known : d.mapNodeState.lookup nodeid = some state) :
      DownloadStep d (d.setState nodeid (Reddcoin.updateBlockAvailability d.node state hash))
  | findNextBlocksToDownload {d : Downloads} {nodeid : NodeId} {state : PeerBlocks} {found : Found}
      (mapBlocksInFlight : BlocksInFlight) (count : UInt32) (vBlocks : List Ptr) (nodeStaller : Option NodeId)
      (known : d.mapNodeState.lookup nodeid = some state)
      (run : Reddcoin.findNextBlocksToDownload d.node mapBlocksInFlight nodeid count state vBlocks nodeStaller =
        some found) :
      DownloadStep d (d.setState nodeid found.state)

/-- The states of a node with peers.  There are none when it starts. -/
inductive DownloadReachable : Downloads → Prop where
  | start {s : NodeState} (reachable : Reachable N s) : DownloadReachable { node := s, mapNodeState := ∅ }
  | step {d d' : Downloads} (before : DownloadReachable d) (step : DownloadStep N d d') : DownloadReachable d'

end

end Reddcoin

import Reddcoin.Mempool.Orphans
import Reddcoin.Net.Address

/-!
# Blocks in flight

The bookkeeping of `main.cpp` about the blocks that have been requested from peers.  A requested block is an
element of the list of its peer, `mapBlocksInFlight` points to that element, and two counters keep the length of
each list and the number of elements with validated headers.
-/

namespace Reddcoin

abbrev NodeId := Nat

structure QueuedBlock where
  hash : Uint256
  pindex : Option Nat
  /-- In microseconds. -/
  nTime : Int
  nValidatedQueuedBefore : Int
  fValidatedHeaders : Bool
deriving DecidableEq

/-- The test of `SendMessages` on the first element of the list of a peer. -/
def QueuedBlock.timedOut (front : QueuedBlock) (targetSpacing nNow : Int) : Bool :=
  decide (front.nTime < nNow - 500000 * targetSpacing * (4 + front.nValidatedQueuedBefore))

/-- What `InitializeNode` reads of a `CNode`. -/
structure CNode where
  addrName : String
  addr : CService

structure CNodeState where
  address : CService
  fCurrentlyConnected : Bool
  nMisbehavior : Int
  name : String
  fSyncStarted : Bool
  nStallingSince : Int
  /-- Each element of the list with its iterator. -/
  vBlocksInFlight : List (Nat × QueuedBlock)
  nBlocksInFlight : Int
  fPreferredDownload : Bool

def CNodeState.new : CNodeState where
  address := { addr := { ip := List.replicate 16 0, size := CNetAddr.length_zeros }, port := 0 }
  fCurrentlyConnected := false
  nMisbehavior := 0
  name := ""
  fSyncStarted := false
  nStallingSince := 0
  vBlocksInFlight := []
  nBlocksInFlight := 0
  fPreferredDownload := false

structure NodeStates where
  mapNodeState : AList fun _ : NodeId => CNodeState
  /-- The peer and the iterator into its list. -/
  mapBlocksInFlight : AList fun _ : Uint256 => NodeId × Nat
  nQueuedValidatedHeaders : Int
  nSyncStarted : Int
  nPreferredDownload : Int
  txs : TxNode
  /-- The calls of `AddressCurrentlyConnected`. -/
  connected : List CService
  /-- The number of list elements made so far. -/
  nElements : Nat

namespace NodeStates

/-- No peers. -/
def fresh (txs : TxNode) : NodeStates where
  mapNodeState := ∅
  mapBlocksInFlight := ∅
  nQueuedValidatedHeaders := 0
  nSyncStarted := 0
  nPreferredDownload := 0
  txs := txs
  connected := []
  nElements := 0

variable (s : NodeStates)

/-- A peer that is known already keeps its state, but for the name and the address. -/
def initializeNode (nodeid : NodeId) (pnode : CNode) : NodeStates :=
  let state := (s.mapNodeState.lookup nodeid).getD CNodeState.new
  { s with
    mapNodeState := s.mapNodeState.insert nodeid { state with name := pnode.addrName, address := pnode.addr } }

/-- A pointer to an unknown peer is null, and reading through it stops the node. -/
def finalizeNode (C : Crypto) (nodeid : NodeId) : Option NodeStates :=
  match s.mapNodeState.lookup nodeid with
  | none => none
  | some state =>
    some
      { s with
        nSyncStarted := if state.fSyncStarted then s.nSyncStarted - 1 else s.nSyncStarted
        connected :=
          if state.nMisbehavior = 0 ∧ state.fCurrentlyConnected = true then state.address :: s.connected
          else s.connected
        -- The elements leave the map, but those with validated headers stay counted.
        mapBlocksInFlight :=
          state.vBlocksInFlight.foldl (fun inFlight n => inFlight.erase n.2.hash) s.mapBlocksInFlight
        txs := s.txs.eraseOrphansFor C nodeid
        nPreferredDownload := s.nPreferredDownload - if state.fPreferredDownload then 1 else 0
        mapNodeState := s.mapNodeState.erase nodeid }

def markBlockAsReceived (hash : Uint256) : Option NodeStates :=
  match s.mapBlocksInFlight.lookup hash with
  | none => some s
  | some (nodeid, it) =>
    match s.mapNodeState.lookup nodeid with
    | none => none
    | some state =>
      match state.vBlocksInFlight.lookup it with
      -- The iterator points to no element.
      | none => none
      | some entry =>
        some
          { s with
            nQueuedValidatedHeaders := s.nQueuedValidatedHeaders - if entry.fValidatedHeaders then 1 else 0
            mapNodeState := s.mapNodeState.insert nodeid
              { state with
                vBlocksInFlight := state.vBlocksInFlight.filter fun n => decide (n.1 ≠ it)
                nBlocksInFlight := state.nBlocksInFlight - 1
                nStallingSince := 0 }
            mapBlocksInFlight := s.mapBlocksInFlight.erase hash }

/-- The second half of `MarkBlockAsInFlight`, once the block is not listed any more. -/
def queueBlock (nodeid : NodeId) (hash : Uint256) (pindex : Option Nat) (now : Int) : Option NodeStates :=
  match s.mapNodeState.lookup nodeid with
  | none => none
  | some state =>
    let newentry : QueuedBlock :=
      { hash := hash, pindex := pindex, nTime := now, nValidatedQueuedBefore := s.nQueuedValidatedHeaders,
        fValidatedHeaders := pindex.isSome }
    some
      { s with
        nQueuedValidatedHeaders := s.nQueuedValidatedHeaders + if newentry.fValidatedHeaders then 1 else 0
        mapNodeState := s.mapNodeState.insert nodeid
          { state with
            vBlocksInFlight := state.vBlocksInFlight ++ [(s.nElements, newentry)]
            nBlocksInFlight := state.nBlocksInFlight + 1 }
        mapBlocksInFlight := s.mapBlocksInFlight.insert hash (nodeid, s.nElements)
        nElements := s.nElements + 1 }

def markBlockAsInFlight (nodeid : NodeId) (hash : Uint256) (pindex : Option Nat) (now : Int) :
    Option NodeStates :=
  if (s.mapNodeState.lookup nodeid).isNone then none
  else (s.markBlockAsReceived hash).bind fun s => s.queueBlock nodeid hash pindex now

end NodeStates

inductive NodeCall where
  | initializeNode (nodeid : NodeId) (pnode : CNode)
  | finalizeNode (nodeid : NodeId)
  | markBlockAsReceived (hash : Uint256)
  /-- The last argument is the clock. -/
  | markBlockAsInFlight (nodeid : NodeId) (hash : Uint256) (pindex : Option Nat) (now : Int)

namespace NodeStates

def step (C : Crypto) (s : NodeStates) : NodeCall → Option NodeStates
  | .initializeNode nodeid pnode => some (s.initializeNode nodeid pnode)
  | .finalizeNode nodeid => s.finalizeNode C nodeid
  | .markBlockAsReceived hash => s.markBlockAsReceived hash
  | .markBlockAsInFlight nodeid hash pindex now => s.markBlockAsInFlight nodeid hash pindex now

def run (C : Crypto) (s : NodeStates) (calls : List NodeCall) : Option NodeStates :=
  calls.foldlM (step C) s

end NodeStates

end Reddcoin

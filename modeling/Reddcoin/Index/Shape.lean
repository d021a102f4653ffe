import Reddcoin.Chain.SkipList
import Reddcoin.Index.Run

/-!
# The shape of the index

The fields of an entry that never change once it is made: its header, its place in the tree and its work.
-/

namespace Reddcoin

open Forest (Anc Graded path)

variable {p : Ptr} {s s' : NodeState}

/-- The fields that are fixed when the entry is made. -/
structure EntryShape where
  hash : Uint256
  pprev : Option Ptr
  pskip : Option Ptr
  nHeight : Nat
  nVersion : Int
  hashMerkleRoot : Uint256
  nTime : Nat
  nBits : Nat
  nNonce : Nat
  nChainWork : Nat

def CBlockIndex.shape (e : CBlockIndex) : EntryShape where
  hash := e.hash
  pprev := e.pprev
  pskip := e.pskip
  nHeight := e.nHeight
  nVersion := e.nVersion
  hashMerkleRoot := e.hashMerkleRoot
  nTime := e.nTime
  nBits := e.nBits
  nNonce := e.nNonce
  nChainWork := e.nChainWork

namespace BlockMap

/-- Two maps with entries of the same shapes. -/
structure SameShape (m m' : BlockMap) : Prop where
  size : m'.size = m.size
  shape : ∀ p, (m'.entry p).shape = (m.entry p).shape

namespace SameShape

variable {m m' : BlockMap}

theorem refl (m : BlockMap) : SameShape m m :=
  ⟨rfl, fun _ => rfl⟩

theorem trans {m'' : BlockMap} (h : SameShape m m') (h' : SameShape m' m'') : SameShape m m'' :=
  ⟨h'.size.trans h.size, fun p => (h'.shape p).trans (h.shape p)⟩

theorem modify (m : BlockMap) (p : Ptr) {f : CBlockIndex → CBlockIndex} (hf : ∀ e, (f e).shape = e.shape) :
    SameShape m (m.modify p f) :=
  ⟨rfl, entry_modify_proj CBlockIndex.shape hf p⟩

section

variable (h : SameShape m m')

include h

theorem par : m'.par = m.par :=
  funext fun p => congrArg EntryShape.pprev (h.shape p)

theorem ht : m'.ht = m.ht :=
  funext fun p => congrArg EntryShape.nHeight (h.shape p)

theorem hash (p : Ptr) : (m'.entry p).hash = (m.entry p).hash :=
  congrArg EntryShape.hash (h.shape p)

theorem pskip (p : Ptr) : (m'.entry p).pskip = (m.entry p).pskip :=
  congrArg EntryShape.pskip (h.shape p)

theorem nChainWork (p : Ptr) : (m'.entry p).nChainWork = (m.entry p).nChainWork :=
  congrArg EntryShape.nChainWork (h.shape p)

theorem nBits (p : Ptr) : (m'.entry p).nBits = (m.entry p).nBits :=
  congrArg EntryShape.nBits (h.shape p)

theorem nVersion (p : Ptr) : (m'.entry p).nVersion = (m.entry p).nVersion :=
  congrArg EntryShape.nVersion (h.shape p)

theorem getBlockHeader (p : Ptr) : m'.getBlockHeader p = m.getBlockHeader p := by
  have hprev : (m'.entry p).pprev = (m.entry p).pprev := congrArg EntryShape.pprev (h.shape p)
  have hroot := congrArg EntryShape.hashMerkleRoot (h.shape p)
  have htime := congrArg EntryShape.nTime (h.shape p)
  have hnonce := congrArg EntryShape.nNonce (h.shape p)
  simp only [CBlockIndex.shape] at hroot htime hnonce
  simp only [BlockMap.getBlockHeader]
  rw [h.nVersion p, h.nBits p, hprev, hroot, htime, hnonce]
  cases (m.entry p).pprev with
  | none => rfl
  | some q => simp only [h.hash q]

theorem find (hash : Uint256) : m'.find hash = m.find hash := by
  unfold BlockMap.find
  rw [h.size]
  simp only [h.hash]

theorem tree (hm : m.Tree) : m'.Tree where
  graded := by
    rw [h.par, h.ht, h.size]
    exact hm.graded
  root := by
    rw [h.par, h.size]
    exact hm.root
  skip := by
    intro p
    rw [h.par, h.ht, h.size, h.pskip p]
    exact hm.skip p

theorem endsAt {v : CChain} {t : Ptr} (ht : CChain.EndsAt m v t) : CChain.EndsAt m' v t := by
  unfold CChain.EndsAt
  rw [h.par, h.ht]
  exact ht

end

end SameShape

end BlockMap

/-- What holds of the shapes in every state: a tree with one root, the genesis block, over which hashes,
heights and work are computed, and in which proof-of-work stops at its last height. -/
structure Shape (N : Node) (m : BlockMap) : Prop where
  tree : m.Tree
  hash : ∀ p < m.size, N.C.headerHash (m.getBlockHeader p) = (m.entry p).hash
  hash_injective : ∀ p < m.size, ∀ q < m.size, (m.entry p).hash = (m.entry q).hash → p = q
  genesis : ∀ p < m.size, m.par p = none → (m.entry p).hash = N.P.hashGenesisBlock
  work : ∀ p < m.size, (m.entry p).nChainWork = (match m.par p with
      | some q => (m.entry q).nChainWork
      | none => 0) + getBlockProof (m.entry p).nBits
  proofOfWork : ∀ p < m.size, (m.entry p).nVersion ≤ POW_BLOCK_VERSION → m.ht p ≤ N.P.lastProofOfWorkHeight

namespace Shape

variable {N : Node} {m m' : BlockMap}

theorem congr (hm : Shape N m) (h : m.SameShape m') : Shape N m' where
  tree := h.tree hm.tree
  hash := by
    intro p hp
    rw [h.getBlockHeader, h.hash]
    exact hm.hash p (h.size ▸ hp)
  hash_injective := by
    intro p hp q hq
    rw [h.hash, h.hash]
    exact hm.hash_injective p (h.size ▸ hp) q (h.size ▸ hq)
  genesis := by
    intro p hp
    rw [h.par, h.hash]
    exact hm.genesis p (h.size ▸ hp)
  work := by
    intro p hp
    rw [h.nChainWork, h.nBits, h.par, hm.work p (h.size ▸ hp)]
    cases m.par p with
    | none => rfl
    | some q => simp only [h.nChainWork q]
  proofOfWork := by
    intro p hp
    rw [h.nVersion, h.ht]
    exact hm.proofOfWork p (h.size ▸ hp)

theorem find_eq (hm : Shape N m) (hp : p < m.size) : m.find (m.entry p).hash = some p := by
  cases h : m.find (m.entry p).hash with
  | none => exact absurd rfl (BlockMap.find_eq_none h p hp)
  | some q =>
    obtain ⟨hq, hhash⟩ := BlockMap.find_eq_some h
    rw [hm.hash_injective q hq p hp hhash]

end Shape

/-! ## A new entry -/

section

variable {N : Node} {s : NodeState} {block : CBlockHeader} {q : Ptr}

section

variable (s : NodeState) (e : CBlockIndex)

theorem addEntry_entry_old (hp : p < s.size) : (s.addEntry e).entry p = s.entry p :=
  if_neg (Nat.ne_of_lt hp)

theorem addEntry_entry_new : (s.addEntry e).entry s.size = e :=
  if_pos rfl

theorem addEntry_par_old (hp : p < s.size) : (s.addEntry e).par p = s.par p :=
  congrArg CBlockIndex.pprev (addEntry_entry_old s e hp)

theorem addEntry_ht_old (hp : p < s.size) : (s.addEntry e).ht p = s.ht p :=
  congrArg CBlockIndex.nHeight (addEntry_entry_old s e hp)

theorem addEntry_haveData_old (hp : p < s.size) : (s.addEntry e).haveData p = s.haveData p :=
  congrArg (fun e : CBlockIndex => e.nStatus.haveData) (addEntry_entry_old s e hp)

theorem addEntry_linked_old (hp : p < s.size) : (s.addEntry e).linked p = s.linked p :=
  congrArg CBlockIndex.linked (addEntry_entry_old s e hp)

variable {s e} in
theorem addEntry_cases (hp : p < (s.addEntry e).size) : p < s.size ∨ p = s.size :=
  Nat.lt_succ_iff_lt_or_eq.mp hp

end

/-- The ancestors of an old entry stay the same. -/
theorem addEntry_anc (hs : s.mapBlockIndex.Tree) (e : CBlockIndex) {a p : Ptr} (hp : p < s.size) :
    Anc (s.addEntry e).par a p ↔ Anc s.par a p :=
  hs.graded.anc_congr (fun _ hr => addEntry_par_old s e hr) hp

theorem addEntry_path (hs : s.mapBlockIndex.Tree) (e : CBlockIndex) (n : Nat) (hp : p < s.size) :
    path (s.addEntry e).par n p = path s.par n p := by
  induction n generalizing p with
  | zero => rfl
  | succ n ih =>
    have hpar := addEntry_par_old s e hp
    cases h : s.par p with
    | none =>
      rw [h] at hpar
      rw [path, path, hpar, h]
    | some r =>
      rw [h] at hpar
      rw [path, path, hpar, h]
      simp only
      rw [ih (hs.graded.closed hp h)]

variable (hs : Shape N s.mapBlockIndex) (hnew : s.mapBlockIndex.find (N.C.headerHash block) = none)
  (hq : s.mapBlockIndex.find block.hashPrevBlock = some q)

/-- The entry of a header on `q`. -/
abbrev childEntry (N : Node) (s : NodeState) (block : CBlockHeader) (q : Ptr) : CBlockIndex :=
  newEntry s block (N.C.headerHash block) (some q)

theorem childEntry_haveData : (s.addEntry (childEntry N s block q)).haveData s.size = false :=
  congrArg (fun e : CBlockIndex => e.nStatus.haveData) (addEntry_entry_new s (childEntry N s block q))

theorem childEntry_linked : (s.addEntry (childEntry N s block q)).linked s.size = false :=
  congrArg CBlockIndex.linked (addEntry_entry_new s (childEntry N s block q))

/-- `AddToBlockIndex` calls `BuildSkip` once the parent and the height are set. -/
theorem newEntry_placed {hash : Uint256} {pprev : Option Ptr} (h : ∀ q, pprev = some q → q < s.size) :
    s.mapBlockIndex.Placed (newEntry s block hash pprev) := by
  constructor
  · intro hnone
    obtain rfl : pprev = none := hnone
    rfl
  · intro q hsome
    obtain rfl : pprev = some q := hsome
    exact ⟨h q rfl, rfl, rfl⟩

include hs hq in
theorem addEntry_tree : (s.addEntry (childEntry N s block q)).mapBlockIndex.Tree := by
  have hqs := (BlockMap.find_eq_some hq).1
  have hplaced : s.mapBlockIndex.Placed (childEntry N s block q) := by
    refine newEntry_placed fun r hr => ?_
    cases hr
    exact hqs
  have hforest := hs.tree.forested.push hplaced
  have hpnew : (s.addEntry (childEntry N s block q)).par s.size = some q :=
    congrArg CBlockIndex.pprev (addEntry_entry_new s _)
  refine ⟨hforest.graded, ?_, hforest.skip⟩
  intro p hp r hr hpar hrpar
  rcases addEntry_cases hp with hlt | rfl
  · rcases addEntry_cases hr with hrlt | rfl
    · exact hs.tree.root p hlt r hrlt ((addEntry_par_old s _ hlt).symm.trans hpar)
        ((addEntry_par_old s _ hrlt).symm.trans hrpar)
    · have := hpnew.symm.trans hrpar
      simp at this
  · have := hpnew.symm.trans hpar
    simp at this

theorem addEntry_getBlockHeader_old (hs : s.mapBlockIndex.Tree) (e : CBlockIndex) (hp : p < s.size) :
    (s.addEntry e).mapBlockIndex.getBlockHeader p = s.mapBlockIndex.getBlockHeader p := by
  have he : (s.addEntry e).mapBlockIndex.entry p = s.mapBlockIndex.entry p := addEntry_entry_old s e hp
  simp only [BlockMap.getBlockHeader, he]
  cases hpar : (s.mapBlockIndex.entry p).pprev with
  | none => rfl
  | some r =>
    have hr : r < s.size := hs.graded.closed hp hpar
    have hre : (s.addEntry e).mapBlockIndex.entry r = s.mapBlockIndex.entry r := addEntry_entry_old s e hr
    simp only [hre]

include hq in
theorem addEntry_getBlockHeader_new :
    (s.addEntry (childEntry N s block q)).mapBlockIndex.getBlockHeader s.size = block := by
  obtain ⟨hqs, hqhash⟩ := BlockMap.find_eq_some hq
  have he : (s.addEntry (childEntry N s block q)).mapBlockIndex.entry s.size = childEntry N s block q :=
    addEntry_entry_new s _
  have hqe : (s.addEntry (childEntry N s block q)).mapBlockIndex.entry q = s.mapBlockIndex.entry q :=
    addEntry_entry_old s _ hqs
  simp only [BlockMap.getBlockHeader, he]
  show CBlockHeader.mk block.nVersion
    ((s.addEntry (childEntry N s block q)).mapBlockIndex.entry q).hash block.hashMerkleRoot block.nTime
    block.nBits block.nNonce = block
  rw [hqe, hqhash]

include hs hnew hq in
theorem addEntry_shape
    (hpow : block.nVersion ≤ POW_BLOCK_VERSION → s.ht q + 1 ≤ N.P.lastProofOfWorkHeight) :
    Shape N (s.addEntry (childEntry N s block q)).mapBlockIndex := by
  obtain ⟨hqs, -⟩ := BlockMap.find_eq_some hq
  have hold : ∀ p < s.size, (s.addEntry (childEntry N s block q)).mapBlockIndex.entry p =
      s.mapBlockIndex.entry p := fun p hp => addEntry_entry_old s _ hp
  have hnewe : (s.addEntry (childEntry N s block q)).mapBlockIndex.entry s.size =
      childEntry N s block q := addEntry_entry_new s _
  have hfresh := BlockMap.find_eq_none hnew
  refine ⟨addEntry_tree hs hq, ?_, ?_, ?_, ?_, ?_⟩
  · intro p hp
    rcases addEntry_cases hp with hlt | rfl
    · rw [addEntry_getBlockHeader_old hs.tree _ hlt, hold p hlt]
      exact hs.hash p hlt
    · rw [addEntry_getBlockHeader_new hq, hnewe]
      rfl
  · intro p hp r hr hhash
    rcases addEntry_cases hp with hlt | rfl
    · rcases addEntry_cases hr with hrlt | rfl
      · rw [hold p hlt, hold r hrlt] at hhash
        exact hs.hash_injective p hlt r hrlt hhash
      · rw [hold p hlt, hnewe] at hhash
        exact absurd hhash (hfresh p hlt)
    · rcases addEntry_cases hr with hrlt | rfl
      · rw [hold r hrlt, hnewe] at hhash
        exact absurd hhash.symm (hfresh r hrlt)
      · rfl
  · intro p hp hpar
    rcases addEntry_cases hp with hlt | rfl
    · rw [hold p hlt]
      exact hs.genesis p hlt ((addEntry_par_old s _ hlt).symm.trans hpar)
    · have := (congrArg CBlockIndex.pprev hnewe).symm.trans hpar
      simp [childEntry, newEntry] at this
  · intro p hp
    rcases addEntry_cases hp with hlt | rfl
    · have hpar : (s.addEntry (childEntry N s block q)).mapBlockIndex.par p = s.mapBlockIndex.par p :=
        addEntry_par_old s _ hlt
      rw [hold p hlt, hpar, hs.work p hlt]
      cases h : s.mapBlockIndex.par p with
      | none => rfl
      | some r => simp only [hold r (hs.tree.graded.closed hlt h)]
    · have hpar : (s.addEntry (childEntry N s block q)).mapBlockIndex.par s.size = some q :=
        congrArg CBlockIndex.pprev hnewe
      rw [hpar, hnewe]
      simp only
      rw [hold q hqs]
      rfl
  · intro p hp hversion
    rcases addEntry_cases hp with hlt | rfl
    · rw [hold p hlt] at hversion
      rw [show (s.addEntry (childEntry N s block q)).mapBlockIndex.ht p = s.mapBlockIndex.ht p from
        addEntry_ht_old s _ hlt]
      exact hs.proofOfWork p hlt hversion
    · rw [hnewe] at hversion
      rw [show (s.addEntry (childEntry N s block q)).mapBlockIndex.ht s.size = s.ht q + 1 from
          congrArg CBlockIndex.nHeight hnewe]
      exact hpow hversion

end

end Reddcoin

/-!
## Elementary changes of the state

Every function on the index changes the state by a sequence of moves.  A move says what changes and what
the code has made sure of at that point; what holds in every state is proved once for each move.
-/

namespace Reddcoin

open Forest (Anc)

/-- The entry without the mint, the proof hash and the stake modifier. -/
def CBlockIndex.unstaked (e : CBlockIndex) : CBlockIndex :=
  { e with nMint := 0, nMoneySupply := 0, hashProof := 0, nStakeModifier := 0, fStakeModifier := false }

/-- Two entries that differ in the mint, the proof hash and the stake modifier at most. -/
def CBlockIndex.SameButStake (e e' : CBlockIndex) : Prop :=
  e'.unstaked = e.unstaked

/-- The entry without anything that linking it sets. -/
def CBlockIndex.received (e : CBlockIndex) : CBlockIndex :=
  { e.unstaked with nChainTx := 0, nSequenceId := 0 }

namespace CBlockIndex.SameButStake

variable {e e' e'' : CBlockIndex}

theorem received (h : SameButStake e e') : e'.received = e.received :=
  congrArg (fun e : CBlockIndex => { e with nChainTx := 0, nSequenceId := 0 }) h

theorem refl (e : CBlockIndex) : SameButStake e e :=
  rfl

section

variable (h : SameButStake e e')

include h

theorem trans (h' : SameButStake e' e'') : SameButStake e e'' :=
  Eq.trans h' h

theorem shape : e'.shape = e.shape :=
  (congrArg CBlockIndex.shape h :)

theorem nTx : e'.nTx = e.nTx :=
  (congrArg CBlockIndex.nTx h :)

theorem nChainTx : e'.nChainTx = e.nChainTx :=
  (congrArg CBlockIndex.nChainTx h :)

theorem nStatus : e'.nStatus = e.nStatus :=
  (congrArg CBlockIndex.nStatus h :)

theorem nSequenceId : e'.nSequenceId = e.nSequenceId :=
  (congrArg CBlockIndex.nSequenceId h :)

theorem fProofOfStake : e'.fProofOfStake = e.fProofOfStake :=
  (congrArg CBlockIndex.fProofOfStake h :)

end

end CBlockIndex.SameButStake

/-- The change of the entry by `f` is on record, unless the entry is marked dirty or does not change. -/
def NodeState.Noted (s : NodeState) (p : Ptr) (f : CBlockIndex → CBlockIndex) : Prop :=
  p ∈ s.setDirtyBlockIndex ∨ f (s.entry p) = s.entry p ∨ ∃ place, (place, p) ∈ s.quietChanges

/-- The moves of `ActivateBestChain`. -/
inductive ChainMove : NodeState → NodeState → Prop where
  /-- Only records about the run change. -/
  | note (s : NodeState) (pindexBestInvalid pindexBestHeader : Option Ptr) (now : Nat)
      (stakeChecks : List (CTransaction × Nat)) :
      ChainMove s
        { s with
          pindexBestInvalid := pindexBestInvalid
          pindexBestHeader := pindexBestHeader
          now := now
          stakeChecks := stakeChecks }
  | quiet (s : NodeState) (place : QuietPlace) (p : Ptr) :
      ChainMove s { s with quietChanges := (place, p) :: s.quietChanges }
  | write (s : NodeState) : ChainMove s s.writeBlockIndex
  /-- The mint is set, and the undo data cannot be written. -/
  | mint {s : NodeState} {p : Ptr} (r : ConnectResult) (noted : s.Noted p (mintedEntry r)) :
      ChainMove s (s.modify p (mintedEntry r))
  /-- `ConnectBlock` finds the entry above the tip invalid. -/
  | reject {s : NodeState} {p t : Ptr} (size : p < s.size) (par : s.par p = some t)
      (tip : s.tip = some t) (linked : s.linked p = true) (valid : s.failed p = false) :
      ChainMove s ((((s.recordVerdict p).failValid p).setDirty p).eraseCandidate p)
  | failChild {s : NodeState} {a p : Ptr} (size : p < s.size) (linked : s.linked p = true)
      (anc : Anc s.par a p) (failed : s.failed a = true) (noted : s.Noted p CBlockIndex.failChild) :
      ChainMove s (s.failChild p)
  /-- The tip is going to be disconnected because an ancestor of it is invalid. -/
  | failTip {s : NodeState} {a p : Ptr} (size : p < s.size) (linked : s.linked p = true)
      (anc : Anc s.par a p) (failed : s.failed a = true) : ChainMove s ((s.failChild p).setDirty p)
  | erase {s : NodeState} {p : Ptr} (failed : s.failed p = true) : ChainMove s (s.eraseCandidate p)
  /-- `ConnectBlock` accepts the entry above the tip. -/
  | record {s : NodeState} {p t : Ptr} (nUndoPos : Nat) (r : ConnectResult) (size : p < s.size)
      (par : s.par p = some t) (tip : s.tip = some t) (linked : s.linked p = true)
      (valid : s.failed p = false) : ChainMove s (s.recorded p nUndoPos r)
  /-- The entry becomes the tip, and worse candidates are dropped. -/
  | connect {s : NodeState} {p t : Ptr} (view : CoinsView) (size : p < s.size)
      (par : s.par p = some t) (tip : s.tip = some t) (linked : s.linked p = true)
      (valid : s.failed p = false) (scripts : BLOCK_VALID_SCRIPTS ≤ (s.entry p).nStatus.valid)
      (best : view.BestIs (s.entry p).hash) :
      ChainMove s ((({ s with pcoinsTip := view } : NodeState).updateTip (some p)).dropWorse p)
  | disconnect {s : NodeState} {t q : Ptr} (view : CoinsView) (tip : s.tip = some t)
      (par : s.par t = some q) (best : view.BestIs (s.entry q).hash) :
      ChainMove s (({ s with pcoinsTip := view } : NodeState).updateTip (some q))

/-- The moves of `InvalidateBlock` and `ReconsiderBlock`. -/
inductive UserMove : NodeState → NodeState → Prop where
  | chain {s s' : NodeState} (move : ChainMove s s') : UserMove s s'
  /-- The user invalidates the entry. -/
  | invalidate {s : NodeState} {p : Ptr} (size : p < s.size) :
      UserMove s (((s.failValid p).setDirty p).eraseCandidate p)
  /-- The user reconsiders the entry. -/
  | clear {s : NodeState} {p : Ptr} (size : p < s.size) : UserMove s ((s.clearFailed p).setDirty p)
  | insert {s : NodeState} {p : Ptr} (size : p < s.size) (linked : s.linked p = true) :
      UserMove s (s.insertCandidate p)

/-- The moves of all functions. -/
inductive Move (N : Node) : NodeState → NodeState → Prop where
  | user {s s' : NodeState} (move : UserMove s s') : Move N s s'
  /-- A header that is not indexed yet passed its checks on the parent `q`. -/
  | add {s : NodeState} {block : CBlockHeader} {q : Ptr}
      (new : s.mapBlockIndex.find (N.C.headerHash block) = none)
      (prev : s.mapBlockIndex.find block.hashPrevBlock = some q)
      (proofOfWork : block.nVersion ≤ POW_BLOCK_VERSION → s.ht q + 1 ≤ N.P.lastProofOfWorkHeight) :
      Move N s (s.addEntry (childEntry N s block q))
  /-- A block that is not stored is found invalid. -/
  | failEmpty {s : NodeState} {p : Ptr} (size : p < s.size) (empty : s.haveData p = false) :
      Move N s ((s.failValid p).setDirty p)
  | failQuiet {s : NodeState} {p : Ptr} (size : p < s.size) (empty : s.haveData p = false)
      (noted : s.Noted p CBlockIndex.failValid) : Move N s (s.failValid p)
  /-- The block of the entry is stored. -/
  | receive {s : NodeState} {block : CBlock} {p : Ptr} (size : p < s.size)
      (empty : s.haveData p = false) (valid : s.failed p = false) (txs : block.vtx ≠ [])
      (hash : block.getHash N.C = (s.entry p).hash) : Move N s (receiveData N s block p)
  | link {s : NodeState} {p : Ptr} (size : p < s.size) (data : s.haveData p = true)
      (unlinked : s.linked p = false) (parent : ∀ q, s.par p = some q → s.linked q = true)
      (drained : ∀ w ∈ s.mapBlocksUnlinked, w.2 ≠ p) : Move N s (s.link p)
  /-- The proof hash or the stake modifier of an entry in the queue is set. -/
  | stake {s : NodeState} {f : CBlockIndex → CBlockIndex} (p : Ptr)
      (same : ∀ e, CBlockIndex.SameButStake e (f e))
      (proof : ∀ e, (f e).hashProof = e.hashProof ∨ (f e).hashProof = 0)
      (noted : s.Noted p f) : Move N s (s.modify p f)
  | drain (s : NodeState) (p : Ptr) : Move N s (s.drain p)
  | wait {s : NodeState} {q p : Ptr} (size : p < s.size) (par : s.par p = some q)
      (data : s.haveData p = true) (unlinked : s.linked p = false)
      (new : ∀ w ∈ s.mapBlocksUnlinked, w.2 ≠ p) :
      Move N s { s with mapBlocksUnlinked := s.mapBlocksUnlinked ++ [(q, p)] }

abbrev ChainMoves := Relation.ReflTransGen ChainMove

abbrev UserMoves := Relation.ReflTransGen UserMove

abbrev Moves (N : Node) := Relation.ReflTransGen (Move N)

/-- A quiet change is put on record. -/
theorem noteQuiet_moves (s : NodeState) (place : QuietPlace) (p : Ptr) (f : CBlockIndex → CBlockIndex) :
    ChainMoves s (s.noteQuiet place p f) ∧ (s.noteQuiet place p f).Noted p f := by
  unfold NodeState.noteQuiet
  split_ifs with h
  · exact ⟨.refl, h.imp_right .inl⟩
  · exact ⟨.single (.quiet s place p), .inr (.inr ⟨place, List.mem_cons_self⟩)⟩

theorem Move.chain {N : Node} (h : ChainMove s s') : Move N s s' :=
  .user (.chain h)

theorem ChainMoves.userMoves (h : ChainMoves s s') : UserMoves s s' :=
  Relation.ReflTransGen.mono (fun _ _ => UserMove.chain) _ _ h

theorem UserMoves.moves {N : Node} (h : UserMoves s s') : Moves N s s' :=
  Relation.ReflTransGen.mono (fun _ _ => Move.user) _ _ h

theorem ChainMoves.moves {N : Node} (h : ChainMoves s s') : Moves N s s' :=
  h.userMoves.moves

/-! ## What holds of the entries in every state -/

/-- What holds of the data, the candidates and the active chain in every state. -/
structure Flow (s : NodeState) : Prop where
  valid : ∀ p < s.size, BLOCK_VALID_TREE ≤ (s.entry p).nStatus.valid
  data_tx : ∀ p < s.size, s.haveData p = true ↔ 0 < (s.entry p).nTx
  data_valid : ∀ p < s.size, s.haveData p = true ↔ BLOCK_VALID_TRANSACTIONS ≤ (s.entry p).nStatus.valid
  linked_data : ∀ p < s.size, s.linked p = true → s.haveData p = true
  linked_parent : ∀ p < s.size, s.linked p = true → ∀ q, s.par p = some q → s.linked q = true
  candidates : ∀ p ∈ s.setBlockIndexCandidates, p < s.size ∧ s.linked p = true
  unlinked : ∀ w ∈ s.mapBlocksUnlinked, w.2 < s.size ∧ s.par w.2 = some w.1 ∧
    s.haveData w.2 = true ∧ s.linked w.2 = false
  unlinked_nodup : s.mapBlocksUnlinked.Nodup
  genesis_undo : ∀ p < s.size, s.par p = none → (s.entry p).nStatus.haveUndo = false
  active : ∃ t < s.size, CChain.EndsAt s.mapBlockIndex s.chainActive t ∧ s.linked t = true ∧
    s.pcoinsTip.BestIs (s.entry t).hash

/-- Every failure flag of the first status is one of the second. -/
structure BlockStatus.FlagsLe (st st' : BlockStatus) : Prop where
  failedValid : st.failedValid = true → st'.failedValid = true
  failedChild : st.failedChild = true → st'.failedChild = true

/-- The part of the shape that is written to disk. -/
def EntryShape.stored (e : EntryShape) : EntryShape :=
  { e with pskip := none, nChainWork := 0 }

/-- The record of an entry agrees with it, but perhaps for failure flags that it does not have yet. -/
structure OnDisk (s : NodeState) (p : Ptr) (r : CDiskBlockIndex) : Prop where
  record : s.blockTree p = some r
  hashPrev : r.hashPrev = (s.mapBlockIndex.getBlockHeader p).hashPrevBlock
  shape : r.index.shape.stored = (s.entry p).shape.stored
  nTx : r.index.nTx = (s.entry p).nTx
  valid : r.index.nStatus.valid = (s.entry p).nStatus.valid
  haveData : r.index.nStatus.haveData = s.haveData p
  haveUndo : r.index.nStatus.haveUndo = (s.entry p).nStatus.haveUndo
  failedValid : s.haveData p = true → r.index.nStatus.failedValid = (s.entry p).nStatus.failedValid
  flags : r.index.nStatus.FlagsLe (s.entry p).nStatus

/-- Every entry is on disk or marked to be written. -/
def Stored (s : NodeState) : Prop :=
  ∀ p < s.size, p ∈ s.setDirtyBlockIndex ∨ ∃ r, OnDisk s p r

/-- What holds in every state of the node. -/
structure IndexInv (N : Node) (s : NodeState) : Prop where
  shape : Shape N s.mapBlockIndex
  flow : Flow s
  stored : Stored s

end Reddcoin

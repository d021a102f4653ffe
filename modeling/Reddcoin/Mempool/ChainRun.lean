import Reddcoin.Connect.MoneySupply
import Reddcoin.Mempool.ChainAgreement

/-!
# The memory pool along every run

The pool starts empty over some chain, and transactions are accepted and blocks connected and disconnected in any
order.  After each of these the assertions of `check` hold.
-/

namespace Reddcoin

section

variable (C : Crypto) (T : Set CTransaction)

/-- The coins at the tip, and below each block of the chain. -/
def ChainCoins : List ConnectedBlock → CoinsView → Prop
  | [], v => Truthful C T v ∧ CreatedBelow 1 v
  | tip :: rest, v =>
    (Truthful C T v ∧ CreatedBelow (rest.length + 2) v) ∧ v.utxo = tip.below.utxo.applyTxs C tip.block.vtx ∧
      (∀ tx ∈ tip.block.vtx, tx ∈ T) ∧ ChainCoins rest tip.below

structure NodeAgrees (s : ChainNode) : Prop where
  coins : ChainCoins C T s.active s.pcoinsTip
  pool : PoolAgrees C T s.mempool s.pcoinsTip (s.height + 1)

/-- `DisconnectBlock` at the tip gives the coins from before the block back, with their metadata. -/
def RestoresCoins (s : ChainNode) : Prop :=
  ∀ tip rest view, s.active = tip :: rest →
    disconnectBlock C tip.ctx tip.block tip.blockundo s.pcoinsTip.flush = .ok (view, true) → SameCoins view tip.below

end

section

variable {P : CChainParams} {C : Crypto} {T : Set CTransaction} {s s' : ChainNode} {pool : CTxMemPool}
  {policy : RelayPolicy}

theorem ChainCoins.truthful {active : List ConnectedBlock} {v : CoinsView} (h : ChainCoins C T active v) :
    Truthful C T v ∧ CreatedBelow (active.length + 1) v := by
  cases active with
  | nil => exact h
  | cons tip rest => exact h.1

theorem ChainCoins.same {active : List ConnectedBlock} {v v' : CoinsView} (h : ChainCoins C T active v)
    (hsame : SameCoins v' v) : ChainCoins C T active v' := by
  cases active with
  | nil => exact ⟨LiveEntries.same h.1 hsame, LiveEntries.same h.2 hsame⟩
  | cons tip rest =>
    refine ⟨⟨LiveEntries.same h.1.1 hsame, LiveEntries.same h.1.2 hsame⟩, ?_, h.2.2⟩
    rw [hsame.utxo_eq]
    exact h.2.1

theorem sameCoins_flush (v : CoinsView) : SameCoins v.flush v := by
  intro k
  rw [coins_flush]
  exact CCoins.same_refl _

theorem PoolAgrees.flush {v : CoinsView} {nSpendHeight : Nat} (hp : PoolAgrees C T pool v nSpendHeight) :
    PoolAgrees C T pool v.flush nSpendHeight where
  inv := hp.inv
  vetted := hp.vetted
  supported := by
    intro hash entry hin txin htxin
    rw [utxo_flush, coins_flush]
    exact hp.supported hash entry hin txin htxin

theorem onPool_eq_ok {α : Type} {x : Except PoolStop α} {a : α} : onPool x = .ok a ↔ x = .ok a := by
  cases x <;> simp [onPool]

theorem NodeAgrees.check (hT : Set.InjOn C.txHash T) (hs : NodeAgrees C T s) :
    s.mempool.check C s.pcoinsTip (s.height + 1) = .ok () :=
  hs.pool.check hT hs.coins.truthful.1

/-! ## The steps -/

theorem NodeAgrees.accept (hs : NodeAgrees C T s) {tx : CTransaction} (hmem : tx ∈ T)
    (h : s.accept P C policy tx = .accepted pool) : NodeAgrees C T { s with mempool := pool } where
  coins := hs.coins
  pool := hs.pool.accept hs.coins.truthful.1 hmem h

/-- `ConnectTip` connects the block, or `ConnectBlock` refuses it. -/
theorem NodeAgrees.connectTip (hT : Set.InjOn C.txHash T) (hs : NodeAgrees C T s) {ctx : ConnectContext}
    {block : CBlock} (htxs : ∀ tx ∈ block.vtx, tx ∈ T) (hgenesis : block.getHash C ≠ P.hashGenesisBlock)
    (hnew : NoUnspentId C s.pcoinsTip block) :
    (∃ s' conflicted, s.connectTip P C ctx block = .ok (s', conflicted) ∧ NodeAgrees C T s') ∨
      ∃ stop, s.connectTip P C ctx block = .error (.block stop) := by
  have hcheck := onPool_eq_ok.mpr (hs.check hT)
  unfold ChainNode.connectTip
  cases hconnect : connectBlock P C (s.contextOf C ctx block) block s.pcoinsTip.flush false with
  | error stop =>
    refine .inr ⟨stop, ?_⟩
    rw [hcheck]
    rfl
  | ok r =>
    obtain ⟨htruthful, hbelow⟩ := hs.coins.truthful
    have hv := LiveEntries.flush htruthful
    have hb : CreatedBelow (s.contextOf C ctx block).nHeight s.pcoinsTip.flush := LiveEntries.flush hbelow
    have hnew' : NoUnspentId C s.pcoinsTip.flush block := by
      unfold NoUnspentId
      rw [utxo_flush]
      exact hnew
    obtain ⟨htruthful', hbelow', hutxo, -⟩ := connectBlock_coins htxs hgenesis hv hb hconnect
    obtain ⟨result, hresult, -⟩ := hs.pool.inv.removeForBlock block.vtx []
    obtain ⟨hafter, -, -⟩ := hs.pool.inv.removeForBlock_spec hresult
    have hpool := (hs.pool.flush.connect hT htxs hgenesis hnew' hv hb hconnect hafter).flush
    let tip : ConnectedBlock :=
      { block := block, ctx := s.contextOf C ctx block, blockundo := r.blockundo, below := s.pcoinsTip }
    have hagrees : NodeAgrees C T
        { mempool := result.1, pcoinsTip := r.view.flush, active := tip :: s.active } := by
      refine ⟨⟨⟨LiveEntries.flush htruthful', LiveEntries.flush hbelow'⟩, ?_, htxs, hs.coins⟩, hpool⟩
      rw [utxo_flush, hutxo, utxo_flush]
    have hcheck' := onPool_eq_ok.mpr (hpool.check hT (LiveEntries.flush htruthful'))
    refine .inl ⟨_, result.2, ?_, hagrees⟩
    exact check_seq_ok.mpr ⟨hcheck, check_bind_ok.mpr ⟨result, onPool_eq_ok.mpr hresult,
      check_seq_ok.mpr ⟨hcheck', rfl⟩⟩⟩

/-- `DisconnectTip` disconnects the tip, or `DisconnectBlock` fails. -/
theorem NodeAgrees.disconnectTip (hT : Set.InjOn C.txHash T) (hs : NodeAgrees C T s) (hrestores : RestoresCoins C s) :
    (∃ s' accepted, s.disconnectTip P C policy = .ok (s', accepted) ∧ NodeAgrees C T s') ∨
      ∃ stop, s.disconnectTip P C policy = .error (.block stop) := by
  have hcheck := onPool_eq_ok.mpr (hs.check hT)
  unfold ChainNode.disconnectTip
  rw [hcheck]
  cases hactive : s.active with
  | nil => exact .inr ⟨_, rfl⟩
  | cons tip rest =>
    cases hdisconnect : disconnectBlock C tip.ctx tip.block tip.blockundo s.pcoinsTip.flush with
    | error stop => exact .inr ⟨stop, by simp only [hdisconnect]; rfl⟩
    | ok result =>
      obtain ⟨view, clean⟩ := result
      cases clean with
      | false => exact .inr ⟨_, by simp only [hdisconnect]; rfl⟩
      | true =>
        have hheight : s.height = rest.length + 1 := by
          rw [ChainNode.height, hactive]
          rfl
        have hcoins := hs.coins
        rw [hactive] at hcoins
        obtain ⟨-, hutxo, htxs, hbelow⟩ := hcoins
        have hsame := hrestores tip rest view hactive hdisconnect
        have hcoins' := (hbelow.same hsame).same (sameCoins_flush view)
        obtain ⟨htruthful, hlow⟩ := hcoins'.truthful
        have hrestoring : PoolRestoring C T s.mempool view.flush tip.block.vtx := by
          refine hs.pool.restoring ?_
          rw [utxo_flush, hsame.utxo_eq]
          exact hutxo
        have hback : ∃ result, ChainNode.resurrect (relayAt P C policy s.height view.flush s.height)
            tip.block.vtx s.mempool [] = .ok result ∧ PoolRestoring C T result.1 view.flush [] :=
          hrestoring.resurrect hT htruthful htxs
        obtain ⟨mid, hmid, hdone⟩ := hback
        rw [← hheight] at hlow
        obtain ⟨mempool, hmempool, hagrees⟩ := hdone.removeCoinbaseSpends hT hlow
        have hcheck' := onPool_eq_ok.mpr (hagrees.check hT htruthful)
        refine .inl ⟨{ mempool := mempool, pcoinsTip := view.flush, active := rest }, mid.2, ?_, hcoins', ?_⟩
        · simp only [hdisconnect]
          refine check_seq_ok.mpr ⟨rfl, check_bind_ok.mpr ⟨(mempool, mid.2), onPool_eq_ok.mpr ?_,
            check_seq_ok.mpr ⟨hcheck', rfl⟩⟩⟩
          exact check_bind_ok.mpr ⟨mid, hmid, check_bind_ok.mpr ⟨mempool, hmempool, rfl⟩⟩
        · show PoolAgrees C T mempool view.flush (rest.length + 1)
          rw [← hheight]
          exact hagrees

end

/-! ## Runs -/

/-- The states that are reached with transactions from `T`.  The node can be started with an empty pool over any chain;
no block creates an id with an unspent output, and `DisconnectBlock` restores the coins. -/
inductive ChainRun (P : CChainParams) (C : Crypto) (T : Set CTransaction) : ChainNode → Prop where
  | start {view : CoinsView} (fSanityCheck : Bool) (fresh : ∀ k, (view.coins k).isPruned = true) :
      ChainRun P C T { mempool := .new fSanityCheck, pcoinsTip := view, active := [] }
  | restart {s : ChainNode} (prev : ChainRun P C T s) (fSanityCheck : Bool) :
      ChainRun P C T { s with mempool := .new fSanityCheck }
  | accept {s : ChainNode} {policy : RelayPolicy} {tx : CTransaction} {pool : CTxMemPool}
      (prev : ChainRun P C T s) (mem : tx ∈ T) (accepted : s.accept P C policy tx = .accepted pool) :
      ChainRun P C T { s with mempool := pool }
  | connect {s s' : ChainNode} {ctx : ConnectContext} {block : CBlock} {conflicted : List CTransaction}
      (prev : ChainRun P C T s) (txs : ∀ tx ∈ block.vtx, tx ∈ T)
      (not_genesis : block.getHash C ≠ P.hashGenesisBlock) (new_ids : NoUnspentId C s.pcoinsTip block)
      (connected : s.connectTip P C ctx block = .ok (s', conflicted)) : ChainRun P C T s'
  | disconnect {s s' : ChainNode} {policy : RelayPolicy} {accepted : List CTransaction}
      (prev : ChainRun P C T s) (restores : RestoresCoins C s)
      (disconnected : s.disconnectTip P C policy = .ok (s', accepted)) : ChainRun P C T s'

section

variable {P : CChainParams} {C : Crypto} {T : Set CTransaction} {s : ChainNode}

theorem poolAgrees_new (fSanityCheck : Bool) (v : CoinsView) (nSpendHeight : Nat) :
    PoolAgrees C T (.new fSanityCheck) v nSpendHeight where
  inv := CTxMemPool.inv_new fSanityCheck
  vetted hash entry hin := by simp [CTxMemPool.new] at hin
  supported hash entry hin := by simp [CTxMemPool.new] at hin

theorem ChainRun.agrees (hT : Set.InjOn C.txHash T) (h : ChainRun P C T s) : NodeAgrees C T s := by
  induction h with
  | start fSanityCheck fresh =>
    refine ⟨⟨fun k hlive => ?_, fun k hlive => ?_⟩, poolAgrees_new fSanityCheck _ _⟩
    · rw [fresh k] at hlive
      cases hlive
    · rw [fresh k] at hlive
      cases hlive
  | restart _ fSanityCheck ih => exact ⟨ih.coins, poolAgrees_new fSanityCheck _ _⟩
  | accept _ mem accepted ih => exact ih.accept mem accepted
  | connect _ txs not_genesis new_ids connected ih =>
    rcases ih.connectTip hT txs not_genesis new_ids with ⟨s', conflicted, hok, hagrees⟩ | ⟨stop, hstop⟩
    · rw [connected] at hok
      obtain ⟨rfl, -⟩ := Prod.mk.inj (Except.ok.inj hok)
      exact hagrees
    · rw [connected] at hstop
      cases hstop
  | disconnect _ restores disconnected ih =>
    rcases ih.disconnectTip hT restores with ⟨s', accepted, hok, hagrees⟩ | ⟨stop, hstop⟩
    · rw [disconnected] at hok
      obtain ⟨rfl, -⟩ := Prod.mk.inj (Except.ok.inj hok)
      exact hagrees
    · rw [disconnected] at hstop
      cases hstop

/-- In every state that is reached, all assertions of `check` hold: each input is an output of the pool or an available
coin, no transaction depends on itself, and the inputs pass `CheckInputs` in some order.  Nor do the assertions that
`ConnectTip` and `DisconnectTip` make on their way stop the next step. -/
theorem mempool_agrees_with_chain (hT : Set.InjOn C.txHash T) (h : ChainRun P C T s) :
    s.mempool.checkAll C s.pcoinsTip (s.height + 1) = .ok () ∧
    (∀ hash entry, s.mempool.mapTx.lookup hash = some entry → ∀ txin ∈ entry.tx.vin,
      (∃ parent out, s.mempool.mapTx.lookup txin.prevout.hash = some parent ∧
        parent.tx.vout[txin.prevout.n]? = some out ∧ out.isNull = false) ∨
      ∃ out, s.pcoinsTip.out? txin.prevout.hash txin.prevout.n = some out) ∧
    WellFounded s.mempool.ParentOf ∧
    (∃ order : List CTransaction, order.Perm (s.mempool.mapTx.entries.map fun e => e.2.tx) ∧
      ∃ last, order.foldlM (CTxMemPool.applyPoolTx C (s.height + 1)) s.pcoinsTip.flush = .ok last) ∧
    (∀ ctx block stop, (∀ tx ∈ block.vtx, tx ∈ T) → block.getHash C ≠ P.hashGenesisBlock →
      NoUnspentId C s.pcoinsTip block → s.connectTip P C ctx block ≠ .error (.pool stop)) ∧
    ∀ policy stop, RestoresCoins C s → s.disconnectTip P C policy ≠ .error (.pool stop) := by
  have hs := h.agrees hT
  have hv := hs.coins.truthful.1
  refine ⟨hs.pool.checkAll hT hv, fun hash entry hin txin htxin => ?_, hs.pool.parentOf_wellFounded hT,
    hs.pool.order hT hv, fun ctx block stop htxs hgenesis hnew hstop => ?_, fun policy stop hrestores hstop => ?_⟩
  · rcases hs.pool.supported hash entry hin txin htxin with ⟨parent, hparent⟩ | ⟨havail, -⟩
    · obtain ⟨nValueIn, hpays, -⟩ := (hs.pool.vetted hash entry hin).pays
      obtain ⟨p, hpmem, hphash, out, hout⟩ := hpays.source htxin
      obtain rfl : p = parent.tx := hT hpmem (hs.pool.vetted _ parent hparent).mem
        (hphash.trans (hs.pool.inv.keyed _ parent hparent).symm)
      obtain ⟨hget, hspendable⟩ := Option.filter_eq_some_iff.mp hout
      rw [Bool.and_eq_true, Bool.not_eq_true'] at hspendable
      exact .inl ⟨parent, out, hparent, hget, hspendable.1⟩
    · exact .inr (Option.isSome_iff_exists.mp havail)
  · have hstep : (∃ s' conflicted, s.connectTip P C ctx block = .ok (s', conflicted) ∧ NodeAgrees C T s') ∨ _ :=
      hs.connectTip hT htxs hgenesis hnew
    rcases hstep with ⟨s', conflicted, hok, -⟩ | ⟨stop', hother⟩
    · rw [hstop] at hok
      cases hok
    · rw [hstop] at hother
      cases hother
  · have hstep : (∃ s' accepted, s.disconnectTip P C policy = .ok (s', accepted) ∧ NodeAgrees C T s') ∨ _ :=
      hs.disconnectTip hT hrestores
    rcases hstep with ⟨s', accepted, hok, -⟩ | ⟨stop', hother⟩
    · rw [hstop] at hok
      cases hok
    · rw [hstop] at hother
      cases hother

/-- Block by block, the coins are those below with the transactions of the block applied. -/
theorem coinsTip_replays (hT : Set.InjOn C.txHash T) (h : ChainRun P C T s) : ChainCoins C T s.active s.pcoinsTip :=
  (h.agrees hT).coins

end

/-- Ids that are new to the coins and occur once create nothing over an unspent output. -/
theorem NoUnspentId.of_nodup {C : Crypto} {v : CoinsView} {block : CBlock} (hnodup : (block.vtx.map C.txHash).Nodup)
    (hnew : ∀ tx ∈ block.vtx, (v.coins (C.txHash tx)).isPruned) : NoUnspentId C v block := by
  intro pre tx post heq n
  by_contra hne
  obtain ⟨out, hout⟩ := Option.ne_none_iff_exists'.mp hne
  rcases Utxo.created_of_applyTxs hout with ⟨t, ht, hid, -⟩ | hview
  · rw [heq, List.map_append, List.nodup_append] at hnodup
    exact hnodup.2.2 _ (List.mem_map_of_mem ht) _ (List.mem_map_of_mem List.mem_cons_self) hid
  · have htx : tx ∈ block.vtx := by
      rw [heq]
      exact List.mem_append_right _ List.mem_cons_self
    rw [CoinsView.spent_iff.mpr (hnew tx htx) n] at hview
    cases hview

namespace Example

def openPolicy : RelayPolicy where
  nonStandard := fun _ => none
  areInputsStandard := fun _ _ => true
  refusedFees := fun _ _ => none

/-- `ConnectTip` with one block after another, as long as their ids are new. -/
def connectTips : List CBlock → ChainNode → Except TipStop ChainNode
  | [], s => .ok s
  | block :: blocks, s =>
    if block.getHash crypto ≠ params.hashGenesisBlock ∧ (block.vtx.map crypto.txHash).Nodup ∧
        ∀ tx ∈ block.vtx, (s.pcoinsTip.coins (crypto.txHash tx)).isPruned = true then do
      let r ← s.connectTip params crypto (supplyContext (s.height + 1) block 0) block
      connectTips blocks r.1
    else .error (.block .crashes)

theorem connectTips_run {T : Set CTransaction} {blocks : List CBlock}
    (htxs : ∀ block ∈ blocks, ∀ tx ∈ block.vtx, tx ∈ T) {s s' : ChainNode} (hs : ChainRun params crypto T s)
    (h : connectTips blocks s = .ok s') : ChainRun params crypto T s' := by
  induction blocks generalizing s with
  | nil =>
    cases h
    exact hs
  | cons block blocks ih =>
    unfold connectTips at h
    split_ifs at h with hnew
    obtain ⟨r, hr, h⟩ := check_bind_ok.mp h
    have hstep := ChainRun.connect hs (htxs block List.mem_cons_self) hnew.1 (.of_nodup hnew.2.1 hnew.2.2) hr
    exact ih (fun b hb => htxs b (List.mem_cons_of_mem _ hb)) hstep h

def emptyNode : ChainNode where
  mempool := .new true
  pcoinsTip := genesisView
  active := []

/-- Blocks without transactions beside their coinbases. -/
def plainBlocks (n : Nat) : List CBlock :=
  (List.range n).map fun i => supplyBlock (i + 1) []

def runTxs : List CTransaction :=
  splitTx :: (List.range 30).map fun i => mintTx (101 + i)

def AcceptOutcome.pool? : AcceptOutcome → Option CTxMemPool
  | .accepted pool => some pool
  | _ => none

/-- The pool once the first coinbase is spent. -/
def splitPool (s : ChainNode) : Option CTxMemPool :=
  AcceptOutcome.pool? (s.accept params crypto openPolicy splitTx)

end Example

open Example

/-- After thirty blocks, a transaction that spends the first coinbase is accepted, and the assertions hold. -/
theorem mempool_agrees_with_chain_example : ∃ s pool, ChainRun params crypto {tx | tx ∈ runTxs} s ∧
    s.accept params crypto openPolicy splitTx = .accepted pool ∧
    pool.has (crypto.txHash splitTx) = true ∧
    pool.checkAll crypto s.pcoinsTip (s.height + 1) = .ok () := by
  have hinj : Set.InjOn crypto.txHash {tx | tx ∈ runTxs} := by
    have hnodup : (runTxs.map crypto.txHash).Nodup := by decide +kernel
    exact fun a ha b hb heq => List.inj_on_of_nodup_map hnodup ha hb heq
  have hrun : ((connectTips (plainBlocks 30) emptyNode).toOption.bind fun s =>
      (splitPool s).map fun pool => pool.has (crypto.txHash splitTx)) = some true := by
    decide +kernel
  obtain ⟨s, hs, hpool⟩ := Option.bind_eq_some_iff.mp hrun
  obtain ⟨pool, haccept, hhas⟩ := Option.map_eq_some_iff.mp hpool
  have hs : connectTips (plainBlocks 30) emptyNode = .ok s := by
    cases hconnect : connectTips (plainBlocks 30) emptyNode with
    | error stop =>
      rw [hconnect] at hs
      cases hs
    | ok s' =>
      rw [hconnect] at hs
      rw [Option.some.inj hs]
  have haccept : s.accept params crypto openPolicy splitTx = .accepted pool := by
    unfold splitPool AcceptOutcome.pool? at haccept
    split at haccept
    · rename_i pool' heq
      rw [heq, Option.some.inj haccept]
    · cases haccept
  have hblocks : ∀ block ∈ plainBlocks 30, ∀ tx ∈ block.vtx, tx ∈ runTxs := by
    decide +kernel
  have hreached := connectTips_run (T := {tx | tx ∈ runTxs}) hblocks
    (.start true fun k => by rfl) hs
  have hsplit : splitTx ∈ {tx | tx ∈ runTxs} := List.mem_cons_self
  exact ⟨s, pool, hreached, haccept, hhas, (mempool_agrees_with_chain hinj (hreached.accept hsplit haccept)).1⟩

theorem coinsTip_replays_example : ∃ s, connectTips (plainBlocks 1) emptyNode = .ok s ∧
    ChainCoins crypto {mintTx 101} s.active s.pcoinsTip := by
  have hok : (connectTips (plainBlocks 1) emptyNode).isOk := by decide
  have hblocks : ∀ block ∈ plainBlocks 1, ∀ tx ∈ block.vtx, tx = mintTx 101 := by decide
  cases hrun : connectTips (plainBlocks 1) emptyNode with
  | error stop =>
    rw [hrun] at hok
    cases hok
  | ok s =>
    have hs := connectTips_run hblocks (.start true fun _ => rfl) hrun
    exact ⟨s, rfl, coinsTip_replays (Set.injOn_singleton _ _) hs⟩

end Reddcoin

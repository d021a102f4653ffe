import Reddcoin.Coins.Stack

/-!
# A stack of caches refines a plain map

Each operation keeps `Linked` and acts on the coins a stack stands for as the plain map says.
-/

namespace Reddcoin
namespace CoinsStack

variable {β ω : Type} {V : CoinsBase β ω} {b : β} {cs : List CCoinsViewCache} {e : CCoinsCacheEntry}
  {c : CCoinsViewCache} {k : Uint256}

/-! ## Fetching -/

/-- What a query gives: a stack that stands for the same coins, and an answer that agrees with
them and is held on top. -/
structure FetchSpec (V : CoinsBase β ω) (b : β) (cs : List CCoinsViewCache) (k : Uint256)
    (r : Option CCoins × List CCoinsViewCache) : Prop where
  linked : Linked V b r.2
  extended : Extends V b cs r.2
  agrees : Agrees r.1 (view V b cs k)
  clean : ∀ a, r.1 = some a → a.Clean
  held : r.1 ≠ none → TopHolds r.2 k

theorem getCoins_base_agrees (w : ω) (k : Uint256) :
    Agrees (V.getCoins w b k) (V.coins b k) ∧ ∀ a, V.getCoins w b k = some a → a.Clean := by
  cases hp : (V.coins b k).isPruned with
  | false =>
    rw [V.getCoins_unspent w b k hp]
    refine ⟨CCoins.same_refl _, fun a ha => ?_⟩
    cases ha
    exact V.coins_clean b k
  | true =>
    cases hg : V.getCoins w b k with
    | none => exact ⟨hp, fun a ha => by simp at ha⟩
    | some a =>
      obtain ⟨hpruned, hclean⟩ := V.getCoins_pruned w b k a hp hg
      refine ⟨CCoins.same_of_pruned hpruned hp, fun a' ha' => ?_⟩
      cases ha'
      exact hclean

theorem pulled_linked {a : CCoins} (hclean : a.Clean) (hsame : a.same (view V b cs k))
    (hheld : TopHolds cs k) : EntryLinked V b cs k (CCoinsViewCache.pulled a) where
  clean := hclean
  fresh := fun hf => (CCoins.same_isPruned hsame).symm.trans hf
  kept := fun _ => hsame
  held := fun _ => hheld

theorem lookup_fetchCoins_of_none (answer : Option CCoins) (hl : c.cacheCoins.lookup k = none)
    (k' : Uint256) :
    (c.fetchCoins k answer).cacheCoins.lookup k' =
      if k' = k then answer.map CCoinsViewCache.pulled else c.cacheCoins.lookup k' := by
  rw [CCoinsViewCache.lookup_fetchCoins, hl, Option.none_or]

/-- A cache that stores what the level below answered stands for the same coins. -/
theorem fetchCoins_spec (hcs : Linked V b (c :: cs)) (hl : c.cacheCoins.lookup k = none)
    {r : Option CCoins × List CCoinsViewCache} (hr : FetchSpec V b cs k r) :
    FetchSpec V b (c :: cs) k (r.1, c.fetchCoins k r.1 :: r.2) := by
  have hlook := lookup_fetchCoins_of_none r.1 hl
  have hbelow : view V b (c :: cs) k = view V b cs k := view_cons_none hl
  refine ⟨⟨hr.linked, ?_⟩, ⟨?_, ?_⟩, ?_, hr.clean, ?_⟩
  · intro k' e he
    rw [hlook] at he
    by_cases hk : k' = k
    · subst hk
      rw [if_pos rfl] at he
      obtain ⟨a, ha, rfl⟩ := Option.map_eq_some_iff.mp he
      have hagrees := hr.agrees
      rw [ha] at hagrees
      exact pulled_linked (hr.clean a ha)
        (CCoins.same_trans hagrees (CCoins.same_symm (hr.extended.view k')))
        (hr.held (by simp [ha]))
    · rw [if_neg hk] at he
      exact (hcs.2 k' e he).extend hr.extended
  · intro k'
    by_cases hk : k' = k
    · subst hk
      rw [hbelow]
      cases ha : r.1 with
      | none =>
        rw [view_cons_none (by rw [← ha, hlook, ha]; simp)]
        exact hr.extended.view k'
      | some a =>
        rw [view_cons_some (by rw [← ha, hlook, ha, if_pos rfl]; rfl)]
        have hagrees := hr.agrees
        rw [ha] at hagrees
        exact hagrees
    · cases hc : c.cacheCoins.lookup k' with
      | none =>
        rw [view_cons_none hc, view_cons_none (by rw [hlook, if_neg hk, hc])]
        exact hr.extended.view k'
      | some e =>
        rw [view_cons_some hc, view_cons_some (by rw [hlook, if_neg hk, hc])]
        exact CCoins.same_refl _
  · intro k' hholds
    show (c.fetchCoins k r.1).cacheCoins.lookup k' ≠ none
    rw [hlook]
    by_cases hk : k' = k
    · subst hk
      exact absurd hl hholds
    · rw [if_neg hk]
      exact hholds
  · rw [hbelow]
    exact hr.agrees
  · intro hsome
    show (c.fetchCoins k r.1).cacheCoins.lookup k ≠ none
    rw [hlook, if_pos rfl]
    simpa using hsome

theorem fetch_spec (w : ω) (hcs : Linked V b cs) (k : Uint256) :
    FetchSpec V b cs k (fetch V w b cs k) := by
  induction cs with
  | nil =>
    obtain ⟨hagrees, hclean⟩ := getCoins_base_agrees (V := V) (b := b) w k
    exact ⟨trivial, Extends.refl [], hagrees, hclean, fun _ => trivial⟩
  | cons c cs ih =>
    cases hl : c.cacheCoins.lookup k with
    | none =>
      have hfetch : fetch V w b (c :: cs) k =
          ((fetch V w b cs k).1, c.fetchCoins k (fetch V w b cs k).1 :: (fetch V w b cs k).2) := by
        simp only [fetch, hl, CCoinsViewCache.getCoins]
      rw [hfetch]
      exact fetchCoins_spec hcs hl (ih hcs.1)
    | some e =>
      have hfetch : fetch V w b (c :: cs) k = (some e.coins, c :: cs) := by
        simp only [fetch, hl]
      rw [hfetch]
      refine ⟨hcs, Extends.refl _, ?_, ?_, fun _ => ?_⟩
      · rw [view_cons_some hl]
        exact CCoins.same_refl _
      · intro a ha
        cases ha
        exact (hcs.2 k e hl).clean
      · show c.cacheCoins.lookup k ≠ none
        rw [hl]
        simp

/-! ## Modifying -/

/-- The entry handed to a modification, and the levels below it by then. -/
structure ModifierSpec (V : CoinsBase β ω) (b : β) (c : CCoinsViewCache)
    (cs cs' : List CCoinsViewCache) (k : Uint256) (e : CCoinsCacheEntry) : Prop where
  linked : Linked V b cs'
  extended : Extends V b cs cs'
  same : e.coins.same (view V b (c :: cs) k) = true
  fresh : e.fresh = true → (view V b cs' k).isPruned = true
  held : e.fresh = false → TopHolds cs' k

theorem modifierEntry_spec_of_some (hcs : Linked V b (c :: cs)) (hl : c.cacheCoins.lookup k = some e) :
    ModifierSpec V b c cs cs k (c.modifierEntry k none) := by
  have hentry : c.modifierEntry k none = e := by
    simp only [CCoinsViewCache.modifierEntry, hl]
  rw [hentry]
  have he := hcs.2 k e hl
  refine ⟨hcs.1, Extends.refl cs, ?_, he.fresh, he.held⟩
  rw [view_cons_some hl]
  exact CCoins.same_refl _

theorem modifierEntry_spec_of_none {r : Option CCoins × List CCoinsViewCache}
    (hl : c.cacheCoins.lookup k = none) (hr : FetchSpec V b cs k r) :
    ModifierSpec V b c cs r.2 k (c.modifierEntry k r.1) := by
  have hbelow : view V b (c :: cs) k = view V b cs k := view_cons_none hl
  have hview := hr.extended.view k
  have hagrees := hr.agrees
  unfold CCoinsViewCache.modifierEntry
  rw [hl]
  cases ha : r.1 with
  | none =>
    rw [ha] at hagrees
    refine ⟨hr.linked, hr.extended, ?_, fun _ => ?_, fun hf => by simp at hf⟩
    · rw [hbelow]
      exact CCoins.same_of_pruned (CCoins.isPruned_clear _) hagrees
    · exact (CCoins.same_isPruned hview).trans hagrees
  | some a =>
    rw [ha] at hagrees
    have hpruned : a.isPruned = (view V b r.2 k).isPruned :=
      (CCoins.same_isPruned hagrees).trans (CCoins.same_isPruned hview).symm
    refine ⟨hr.linked, hr.extended, ?_, fun hf => ?_, fun _ => hr.held (by simp [ha])⟩
    · rw [hbelow]
      exact hagrees
    · exact hpruned.symm.trans hf

/-- A modification through the top cache changes what the stack stands for at its own key only. -/
theorem modifyCoins_spec {cs' : List CCoinsViewCache} {answer : Option CCoins}
    (hcs : Linked V b (c :: cs)) (he : ModifierSpec V b c cs cs' k (c.modifierEntry k answer))
    (f : CCoins → CCoins) :
    Linked V b (c.modifyCoins k answer f :: cs') ∧ (view V b (c.modifyCoins k answer f :: cs') k).same
        (f (c.modifierEntry k answer).coins).cleanup ∧
      ∀ k', k' ≠ k → (view V b (c.modifyCoins k answer f :: cs') k').same (view V b (c :: cs) k') = true := by
  have hlook := CCoinsViewCache.lookup_modifyCoins c k answer f
  refine ⟨⟨he.linked, ?_⟩, ?_, ?_⟩
  · intro k' e' he'
    rw [hlook] at he'
    by_cases hk : k' = k
    · subst hk
      rw [if_pos rfl] at he'
      split at he'
      · simp at he'
      · cases he'
        exact ⟨CCoins.clean_cleanup _, he.fresh, fun hd => by simp at hd, he.held⟩
    · rw [if_neg hk] at he'
      exact (hcs.2 k' e' he').extend he.extended
  · have hat := hlook k
    rw [if_pos rfl] at hat
    split at hat
    · rename_i hdrop
      rw [Bool.and_eq_true] at hdrop
      rw [view_cons_none hat]
      exact CCoins.same_of_pruned (he.fresh hdrop.1) (by simpa using hdrop.2)
    · rw [view_cons_some hat]
      exact CCoins.same_refl _
  · intro k' hk
    have hat := hlook k'
    rw [if_neg hk] at hat
    cases hc : c.cacheCoins.lookup k' with
    | none =>
      rw [view_cons_none hc, view_cons_none (hat.trans hc)]
      exact he.extended.view k'
    | some e =>
      rw [view_cons_some hc, view_cons_some (hat.trans hc)]
      exact CCoins.same_refl _

/-! ## Flushing -/

/-- No turn of `BatchWrite` fails: a dirty unspent entry that the parent lacks is fresh. -/
theorem batchWriteAt_ne_none {parent : CCoinsViewCache} (he : EntryLinked V b (parent :: cs) k e) :
    CCoinsViewCache.batchWriteAt e (parent.cacheCoins.lookup k) ≠ none := by
  unfold CCoinsViewCache.batchWriteAt
  cases hl : parent.cacheCoins.lookup k with
  | some us =>
    dsimp only
    split
    · simp
    · split <;> simp
  | none =>
    have hfresh : e.fresh = true := by
      by_contra hf
      exact he.held (by simpa using hf) hl
    dsimp only
    split
    · simp
    · split
      · simp
      · simp

/-- What `BatchWrite` leaves at `k` stands for the flushed entry, and is linked to the levels
below. -/
theorem batchWriteAt_spec {parent parent' : CCoinsViewCache} (hcs : Linked V b (parent :: cs))
    (he : EntryLinked V b (parent :: cs) k e)
    (hw : CCoinsViewCache.batchWriteAt e (parent.cacheCoins.lookup k) = some (parent'.cacheCoins.lookup k)) :
    (view V b (parent' :: cs) k).same e.coins ∧
      ∀ e', parent'.cacheCoins.lookup k = some e' → EntryLinked V b cs k e' := by
  unfold CCoinsViewCache.batchWriteAt at hw
  cases hd : e.dirty with
  | false =>
    have hkeep : parent.cacheCoins.lookup k = parent'.cacheCoins.lookup k := by
      simpa [hd] using hw
    refine ⟨?_, fun e' he' => hcs.2 k e' (hkeep.trans he')⟩
    have hview : view V b (parent' :: cs) k = view V b (parent :: cs) k := by
      simp only [view, hkeep]
    rw [hview]
    exact CCoins.same_symm (he.kept hd)
  | true =>
    cases hl : parent.cacheCoins.lookup k with
    | none =>
      have hfresh : e.fresh = true := by
        by_contra hf
        exact he.held (by simpa using hf) hl
      have hbelow : (view V b cs k).isPruned = true := by
        rw [← view_cons_none hl]
        exact he.fresh hfresh
      cases hp : e.coins.isPruned with
      | true =>
        have hnone : parent'.cacheCoins.lookup k = none := by
          simpa [hd, hl, hp] using hw.symm
        refine ⟨?_, fun e' he' => by simp [hnone] at he'⟩
        rw [view_cons_none hnone]
        exact CCoins.same_of_pruned hbelow hp
      | false =>
        have hsome : parent'.cacheCoins.lookup k = some { coins := e.coins, dirty := true, fresh := true } := by
          simpa [hd, hl, hp, hfresh] using hw.symm
        refine ⟨?_, fun e' he' => ?_⟩
        · rw [view_cons_some hsome]
          exact CCoins.same_refl _
        · rw [hsome] at he'
          cases he'
          exact ⟨he.clean, fun _ => hbelow, fun h => by simp at h, fun h => by simp at h⟩
    | some us =>
      have hus := hcs.2 k us hl
      cases hp : us.fresh && e.coins.isPruned with
      | true =>
        rw [Bool.and_eq_true] at hp
        have hnone : parent'.cacheCoins.lookup k = none := by
          simpa [hd, hl, hp] using hw.symm
        refine ⟨?_, fun e' he' => by simp [hnone] at he'⟩
        rw [view_cons_none hnone]
        exact CCoins.same_of_pruned (hus.fresh hp.1) hp.2
      | false =>
        have hsome : parent'.cacheCoins.lookup k = some { us with coins := e.coins, dirty := true } := by
          have hw' := hw.symm
          simp only [hd, hl, hp, Bool.not_true, Bool.false_eq_true, if_false] at hw'
          exact Option.some.inj hw'
        refine ⟨?_, fun e' he' => ?_⟩
        · rw [view_cons_some hsome]
          exact CCoins.same_refl _
        · rw [hsome] at he'
          cases he'
          exact ⟨he.clean, hus.fresh, fun h => by simp at h, hus.held⟩

theorem flush_cache_spec {parent : CCoinsViewCache} (hcs : Linked V b (c :: parent :: cs)) :
    ∃ parent', parent.batchWrite c.cacheCoins c.hashBlock = some parent' ∧ Linked V b (parent' :: cs) ∧
      ∀ k, (view V b (parent' :: cs) k).same (view V b (c :: parent :: cs) k) = true := by
  obtain ⟨hbelow, hentries⟩ := hcs
  obtain ⟨parent', hwrite, -, hpoint⟩ := CCoinsViewCache.batchWrite_lookup
    (fun k e he => batchWriteAt_ne_none (hentries k e he)) c.hashBlock
  refine ⟨parent', hwrite, ⟨hbelow.1, fun k e' he' => ?_⟩, fun k => ?_⟩
  · cases hc : c.cacheCoins.lookup k with
    | none =>
      have hkeep : parent'.cacheCoins.lookup k = parent.cacheCoins.lookup k := by
        simpa [hc] using hpoint k
      exact hbelow.2 k e' (hkeep.symm.trans he')
    | some e =>
      have hw := hpoint k
      rw [hc] at hw
      exact (batchWriteAt_spec hbelow (hentries k e hc) hw.symm).2 e' he'
  · cases hc : c.cacheCoins.lookup k with
    | none =>
      have hkeep : parent'.cacheCoins.lookup k = parent.cacheCoins.lookup k := by
        simpa [hc] using hpoint k
      have hview : view V b (parent' :: cs) k = view V b (parent :: cs) k := by
        simp only [view, hkeep]
      rw [view_cons_none hc, hview]
      exact CCoins.same_refl _
    | some e =>
      have hw := hpoint k
      rw [hc] at hw
      rw [view_cons_some hc]
      exact (batchWriteAt_spec hbelow (hentries k e hc) hw.symm).1

theorem flush_base_spec (w : ω) (hcs : Linked V b [c]) (k : Uint256) :
    (V.coins (V.batchWrite w b c.cacheCoins c.hashBlock) k).same (view V b [c] k) = true := by
  cases hc : c.cacheCoins.lookup k with
  | none =>
    rw [view_cons_none hc]
    exact V.batchWrite_other w b _ _ k hc
  | some e =>
    have he := hcs.2 k e hc
    rw [view_cons_some hc]
    cases hd : e.dirty with
    | true => exact V.batchWrite_dirty w b _ _ k e hc hd he.clean
    | false =>
      have hkept := he.kept hd
      exact CCoins.same_trans (V.batchWrite_kept w b _ _ k e hc hd he.clean hkept)
        (CCoins.same_symm hkept)

/-- `Flush` never fails an assertion and does not change what the stack stands for. -/
theorem flush_spec (w : ω) {s : CoinsStack β} (hs : Linked V s.base s.caches) :
    ∃ s', flush V w s = some s' ∧ Linked V s'.base s'.caches ∧
      ∀ k, (view V s'.base s'.caches k).same (view V s.base s.caches k) = true := by
  obtain ⟨b, cs⟩ := s
  match cs, hs with
  | [], hs => exact ⟨_, rfl, hs, fun k => CCoins.same_refl _⟩
  | [c], hs => exact ⟨_, rfl, trivial, flush_base_spec w hs⟩
  | c :: parent :: cs, hs =>
    obtain ⟨parent', hwrite, hlinked, hview⟩ := flush_cache_spec hs
    refine ⟨{ base := b, caches := parent' :: cs }, ?_, hlinked, hview⟩
    simp only [flush, hwrite, Option.bind_eq_bind, Option.bind_some]
    rfl

theorem push_spec {cs : List CCoinsViewCache} (hcs : Linked V b cs) :
    Linked V b (CCoinsViewCache.new :: cs) ∧ ∀ k, view V b (CCoinsViewCache.new :: cs) k = view V b cs k := by
  have hempty : ∀ k, CCoinsViewCache.new.cacheCoins.lookup k = none := AList.lookup_empty
  refine ⟨⟨hcs, fun k e he => ?_⟩, fun k => view_cons_none (hempty k)⟩
  rw [hempty k] at he
  simp at he

/-! ## Runs -/

/-- The stack stands for the map beside it. -/
structure Simulates (V : CoinsBase β ω) (s : CoinsSimulation β) : Prop where
  linked : Linked V s.stack.base s.stack.caches
  view : ∀ k, (view V s.stack.base s.stack.caches k).same (s.result k) = true

/-- A modification that respects pruned objects acts alike on the stack and on the map. -/
theorem modify_simulates (w : ω) (txid : Uint256) {f : CCoins → CCoins} (hf : RespectsPruned f)
    {s : CoinsSimulation β} (hs : Simulates V s) (hne : s.stack.caches ≠ []) :
    Linked V s.stack.base (modify V w s.stack.base s.stack.caches txid f) ∧
      ∀ k, (CoinsStack.view V s.stack.base (modify V w s.stack.base s.stack.caches txid f) k).same
        (CoinsSimulation.modifyMap s.result txid f k) = true := by
  obtain ⟨⟨b, cs⟩, result⟩ := s
  obtain ⟨c, cs, rfl⟩ := List.exists_cons_of_ne_nil hne
  have hlinked : Linked V b (c :: cs) := hs.linked
  have hview : ∀ k, (CoinsStack.view V b (c :: cs) k).same (result k) = true := hs.view
  have key : ∃ cs' answer, modify V w b (c :: cs) txid f = c.modifyCoins txid answer f :: cs' ∧
      ModifierSpec V b c cs cs' txid (c.modifierEntry txid answer) := by
    cases hl : c.cacheCoins.lookup txid with
    | some e => exact ⟨cs, none, by simp only [modify, hl], modifierEntry_spec_of_some hlinked hl⟩
    | none =>
      exact ⟨(fetch V w b cs txid).2, (fetch V w b cs txid).1, by simp only [modify, hl],
        modifierEntry_spec_of_none hl (fetch_spec w hlinked.1 txid)⟩
  obtain ⟨cs', answer, hmodify, hmod⟩ := key
  obtain ⟨hlinked', hat, hother⟩ := modifyCoins_spec hlinked hmod f
  show Linked V b (modify V w b (c :: cs) txid f) ∧ ∀ k, (CoinsStack.view V b (modify V w b (c :: cs) txid f) k).same
      (CoinsSimulation.modifyMap result txid f k) = true
  rw [hmodify]
  refine ⟨hlinked', fun k => ?_⟩
  unfold CoinsSimulation.modifyMap
  by_cases hk : k = txid
  · subst hk
    rw [if_pos rfl]
    refine CCoins.same_trans hat (CCoins.same_cleanup ?_)
    rcases CCoins.same_iff.mp (CCoins.same_trans hmod.same (hview k)) with ⟨hp, hp'⟩ | heq
    · exact hf _ _ hp hp'
    · rw [heq]
      exact CCoins.same_refl _
  · rw [if_neg hk]
    exact CCoins.same_trans (hother k hk) (hview k)

theorem fetch_simulates (w : ω) (txid : Uint256) {s : CoinsSimulation β} (hs : Simulates V s) :
    Simulates V { s with
      stack := { s.stack with caches := (fetch V w s.stack.base s.stack.caches txid).2 } } := by
  have hfetch := fetch_spec w hs.linked txid
  exact ⟨hfetch.linked, fun k => CCoins.same_trans (hfetch.extended.view k) (hs.view k)⟩

section

variable {s : CoinsSimulation β} (hs : Simulates V s)

include hs

theorem step_simulates {op : Op ω} (hop : op.RespectsPruned) : ∃ s', s.step V op = some s' ∧ Simulates V s' := by
  have hmap : ∀ stack : CoinsStack β, s.stack.step V op = some stack →
      s.step V op = some { stack := stack, result := if s.stack.caches.isEmpty then s.result
        else CoinsSimulation.mapStep s.result op } := by
    intro stack hstep
    simp only [CoinsSimulation.step, hstep, Option.bind_eq_bind, Option.bind_some]
    rfl
  cases op with
  | getCoins w txid | accessCoins w txid | haveCoins w txid =>
    refine ⟨_, hmap _ rfl, ?_⟩
    simp only [CoinsSimulation.mapStep, ite_self]
    exact fetch_simulates w txid hs
  | modifyCoins w txid f =>
    refine ⟨_, hmap _ rfl, ?_⟩
    by_cases hne : s.stack.caches = []
    · simp only [hne, List.isEmpty_nil, if_true]
      refine ⟨trivial, fun k => ?_⟩
      have hview := hs.view k
      rw [hne] at hview
      exact hview
    · have hempty : s.stack.caches.isEmpty = false := by simpa using hne
      simp only [hempty, Bool.false_eq_true, if_false]
      obtain ⟨hlinked, hview⟩ := modify_simulates w txid hop hs hne
      exact ⟨hlinked, hview⟩
  | push =>
    refine ⟨_, hmap _ rfl, ?_⟩
    simp only [CoinsSimulation.mapStep, ite_self]
    obtain ⟨hlinked, hview⟩ := push_spec hs.linked
    refine ⟨hlinked, fun k => ?_⟩
    rw [hview]
    exact hs.view k
  | flush w =>
    obtain ⟨stack, hflush, hlinked, hview⟩ := flush_spec w hs.linked
    refine ⟨_, hmap stack hflush, hlinked, fun k => ?_⟩
    simp only [CoinsSimulation.mapStep, ite_self]
    exact CCoins.same_trans (hview k) (hs.view k)

theorem run_simulates {ops : List (Op ω)}
    (hops : ∀ op ∈ ops, op.RespectsPruned) : ∃ s', s.run V ops = some s' ∧ Simulates V s' := by
  induction ops generalizing s with
  | nil => exact ⟨s, rfl, hs⟩
  | cons op ops ih =>
    obtain ⟨mid, hmid, hsim⟩ := step_simulates hs (hops op List.mem_cons_self)
    obtain ⟨s', hs', hfinal⟩ := ih hsim fun op' hop' => hops op' (List.mem_cons_of_mem _ hop')
    refine ⟨s', ?_, hfinal⟩
    show List.foldlM (CoinsSimulation.step V) s (op :: ops) = some s'
    rw [List.foldlM_cons, hmid]
    exact hs'

/-- The answers of the top of a simulating stack are those of the map. -/
theorem query_agrees (w : ω) (k : Uint256) :
    Agrees (query V w s.stack k) (s.result k) ∧ queryHave V w s.stack k = !(s.result k).isPruned := by
  have hfetch := fetch_spec w hs.linked k
  have hagrees := hfetch.agrees
  have hclean := hfetch.clean
  have hview := hs.view k
  unfold queryHave query
  cases ha : (fetch V w s.stack.base s.stack.caches k).1 with
  | none =>
    rw [ha] at hagrees
    have hpruned : (s.result k).isPruned = true := (CCoins.same_isPruned hview).symm.trans hagrees
    exact ⟨hpruned, by rw [hpruned]; rfl⟩
  | some a =>
    rw [ha] at hagrees
    have hsame : a.same (s.result k) = true := CCoins.same_trans hagrees hview
    refine ⟨hsame, ?_⟩
    rw [← CCoins.same_isPruned hsame, Bool.eq_iff_iff]
    have hnil := (hclean a ha).vout_eq_nil_iff
    cases hp : a.isPruned <;> simp_all

end

/-- Along every run whose modifications do not look into pruned objects, no assertion fails, the top
answers every query as the plain map does, and flushing the top changes no answer. -/
theorem coinsStack_refines_map (V : CoinsBase β ω) (b : β) (ops : List (Op ω))
    (hops : ∀ op ∈ ops, op.RespectsPruned) :
    ∃ s, (CoinsSimulation.start V b).run V ops = some s ∧ (∀ w k, Agrees (query V w s.stack k) (s.result k) ∧
        queryHave V w s.stack k = !(s.result k).isPruned) ∧
      ∀ w, ∃ stack, flush V w s.stack = some stack ∧ ∀ w' k, Agrees (query V w' stack k) (s.result k) ∧
          queryHave V w' stack k = !(s.result k).isPruned := by
  have hstart : Simulates V (CoinsSimulation.start V b) := ⟨trivial, fun k => CCoins.same_refl _⟩
  obtain ⟨s, hrun, hs⟩ := run_simulates hstart hops
  refine ⟨s, hrun, query_agrees hs, fun w => ?_⟩
  obtain ⟨stack, hflush, hlinked, hview⟩ := flush_spec w hs.linked
  refine ⟨stack, hflush, fun w' k => ?_⟩
  have hs' : Simulates V { stack := stack, result := s.result } :=
    ⟨hlinked, fun k => CCoins.same_trans (hview k) (hs.view k)⟩
  exact query_agrees hs' w' k

def exampleOut : CTxOut :=
  { nValue := 5, scriptPubKey := [0x51] }

/-- An entry created from nothing, spent in a second cache and recreated after a flush. -/
def exampleOps : List (Op Unit) :=
  [.push, .modifyCoins () 1 fun _ => { CCoins.new with vout := [exampleOut], nTime := 7 }, .push,
    .modifyCoins () 1 CCoins.clear, .flush ()]

theorem exampleOps_respectsPruned : ∀ op ∈ exampleOps, op.RespectsPruned := by
  intro op hop
  simp only [exampleOps, List.mem_cons, List.not_mem_nil, or_false] at hop
  rcases hop with rfl | rfl | rfl | rfl | rfl
  · trivial
  · exact fun _ _ _ _ => CCoins.same_refl _
  · trivial
  · exact fun _ _ _ _ => CCoins.same_of_pruned (CCoins.isPruned_clear _) (CCoins.isPruned_clear _)
  · trivial

theorem coinsStack_refines_map_example :
    ∃ s, (CoinsSimulation.start coinsViewDB ∅).run coinsViewDB exampleOps = some s ∧
      ∀ k, Agrees (query coinsViewDB () s.stack k) (s.result k) := by
  obtain ⟨s, hrun, hquery, -⟩ :=
    coinsStack_refines_map coinsViewDB ∅ exampleOps exampleOps_respectsPruned
  exact ⟨s, hrun, fun k => (hquery () k).1⟩

/-- The restoring step of `DisconnectBlock` sets an output and keeps `nTime`. -/
def restoreOps : List (Op Unit) :=
  [.push, .modifyCoins () 1 fun _ => { CCoins.new with vout := [exampleOut], nTime := 7 },
    .modifyCoins () 1 CCoins.clear, .modifyCoins () 1 fun c => { c with vout := [exampleOut] }]

/-- With a modification that reads what a pruned entry still holds, the stack and the map part: the
cache has dropped the fresh spent entry with its time, the map has not. -/
theorem coinsStack_not_refines_map :
    ¬ ∀ (ops : List (Op Unit)) (s : CoinsSimulation CoinsDB),
      (CoinsSimulation.start coinsViewDB ∅).run coinsViewDB ops = some s →
        ∀ k, Agrees (query coinsViewDB () s.stack k) (s.result k) := by
  intro hall
  have hagrees := hall restoreOps _ rfl 1
  revert hagrees
  decide

end CoinsStack
end Reddcoin

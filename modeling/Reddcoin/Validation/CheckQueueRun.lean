import Reddcoin.Validation.CheckQueueInvariant

/-!
# Runs of the queue of script checks

Any interleaving of the master and the workers gives the result that checking one by one would give.
-/

namespace Reddcoin

open Function List
namespace CheckQueue

open Function (update)

section

variable {T : Type} {nWorkers : Nat}

variable {fCheck : T → Bool} {s : State T nWorkers} {t : Thread nWorkers} {vChecks : List (Job T)} {fOk : Bool}

/-! ## One step -/

/-- The phases that a thread entering a section leaves to the others. -/
def State.entering (s : State T nWorkers) (t : Thread nWorkers) (vChecks : List (Job T)) (fOk : Bool) :
    Thread nWorkers → Phase T :=
  if decide (vChecks ≠ []) && decide ((s.pqueue.cleanUp vChecks fOk).nTodo = 0) && decide (t ≠ none) then
    notifyMaster s.phase
  else s.phase

theorem entering_wakes (s : State T nWorkers) (t : Thread nWorkers) (vChecks : List (Job T)) (fOk : Bool) :
    Wakes s.phase (s.entering t vChecks fOk) := by
  unfold State.entering
  split
  · exact wakes_notifyMaster s.phase
  · exact Wakes.refl s.phase

theorem notifyMaster_ne (phase : Thread nWorkers → Phase T) : notifyMaster phase none ≠ .waiting := by
  unfold notifyMaster
  cases h : phase none <;> simp [h]

theorem inv_enter (h : Inv fCheck s) (hbound : s.outstanding < 2 ^ 32) (hout : s.phase t = .outside vChecks fOk) :
    Inv fCheck ((s.enter t vChecks (execute fCheck vChecks fOk)).leave t).1 ∧
      ∀ fRet, ((s.enter t vChecks (execute fCheck vChecks fOk)).leave t).2 = some fRet →
        WaitReturns fCheck s fRet ((s.enter t vChecks (execute fCheck vChecks fOk)).leave t).1 := by
  obtain ⟨fOk', hfOk'⟩ : ∃ b, b = execute fCheck vChecks fOk := ⟨_, rfl⟩
  rw [← hfOk']
  have hwakes := entering_wakes s t vChecks fOk'
  obtain ⟨phase, hphase⟩ : ∃ p, p = s.entering t vChecks fOk' := ⟨_, rfl⟩
  rw [← hphase] at hwakes
  have houtside : phase t = .outside vChecks fOk := by
    rcases hwakes t with hsame | ⟨hwait, _⟩
    · rw [hsame, hout]
    · rw [hout] at hwait
      cases hwait
  have henter : s.enter t vChecks fOk' =
      { s with pqueue := s.pqueue.cleanUp vChecks fOk', phase := update phase t .inside } := by
    rw [hphase]
    rfl
  have hcounts : Counts (s.enter t vChecks fOk') := by
    rw [henter]
    refine (h.counts.wakes hwakes).cleanUp houtside fOk' fun hzero hne ht => ?_
    show phase none ≠ .waiting
    rw [hphase, State.entering, if_pos (by simp [hne, ht]; exact hzero)]
    exact notifyMaster_ne s.phase
  have hresults : Results fCheck (s.enter t vChecks fOk') := by
    rw [henter, hfOk']
    exact (h.results.wakes hwakes).cleanUp houtside
  have hin : (s.enter t vChecks fOk').phase t = .inside := by
    rw [henter]
    exact update_self ..
  have hfree : ∀ t', t' ≠ t → (s.enter t vChecks fOk').phase t' ≠ .inside := by
    intro t' ht
    rw [henter]
    show update phase t .inside t' ≠ .inside
    rw [update_of_ne ht]
    rcases hwakes t' with hsame | ⟨_, hwoken⟩
    · rw [hsame]
      exact h.free t'
    · rw [hwoken]
      simp
  have hless : (s.enter t vChecks fOk').outstanding < 2 ^ 32 := by
    have hsum := total_batchSize_update phase t .inside
    have hsame : Pool.total Phase.batchSize phase = Pool.total Phase.batchSize s.phase :=
      Pool.total_congr fun t => congrArg List.length (hwakes.batch t)
    have hqueue : (s.pqueue.cleanUp vChecks fOk').queue = s.pqueue.queue := by
      unfold CCheckQueue.cleanUp
      split <;> rfl
    have hs : s.outstanding = s.pqueue.queue.length + Pool.total Phase.batchSize s.phase := rfl
    rw [henter]
    show (s.pqueue.cleanUp vChecks fOk').queue.length + Pool.total Phase.batchSize (update phase t .inside) <
      2 ^ 32
    rw [hqueue]
    have hnil : (Phase.inside : Phase T).batch.length = 0 := rfl
    omega
  have hadded : (s.enter t vChecks fOk').added = s.added := rfl
  have htaken : (s.enter t vChecks fOk').taken = s.taken := rfl
  obtain ⟨hinv, hwait⟩ := inv_leave hcounts hresults hin hfree hless
  refine ⟨hinv, fun fRet hret => ?_⟩
  have hreturns := hwait fRet hret
  exact ⟨hadded ▸ hreturns.result, htaken ▸ hadded ▸ hreturns.taken, hreturns.nTotal_eq, hreturns.nTodo_eq,
    hreturns.fAllOk_eq⟩

theorem inv_resume (h : Inv fCheck s) (hbound : s.outstanding < 2 ^ 32) (hwoken : s.phase t = .woken) :
    Inv fCheck ((s.resume t).leave t).1 ∧
      ∀ fRet, ((s.resume t).leave t).2 = some fRet → WaitReturns fCheck s fRet ((s.resume t).leave t).1 := by
  have hcounts : Counts (s.resume t) := by
    refine h.counts.move ?_ ?_ ?_ ?_
    · rw [hwoken]
      rfl
    · rw [hwoken]
      show s.pqueue.nIdle - 1 + 1 = s.pqueue.nIdle + 0
      omega
    · rw [hwoken]
      rfl
    · intro hwait
      by_cases ht : t = none
      · rw [ht, update_self] at hwait
        cases hwait
      · rw [update_of_ne (Ne.symm ht)] at hwait
        exact h.counts.master hwait
  have hresults : Results fCheck (s.resume t) := h.results.move (by rw [hwoken]; rfl) rfl (by simp) rfl rfl
  have hin : (s.resume t).phase t = .inside := update_self ..
  have hfree : ∀ t', t' ≠ t → (s.resume t).phase t' ≠ .inside := by
    intro t' ht
    show update s.phase t .inside t' ≠ .inside
    rw [update_of_ne ht]
    exact h.free t'
  have hless : (s.resume t).outstanding < 2 ^ 32 := by
    have hsum := total_batchSize_update s.phase t .inside
    rw [hwoken] at hsum
    have hs : s.outstanding = s.pqueue.queue.length + Pool.total Phase.batchSize s.phase := rfl
    show s.pqueue.queue.length + Pool.total Phase.batchSize (update s.phase t .inside) < 2 ^ 32
    have hnil : (Phase.inside : Phase T).batch.length = 0 := rfl
    have hnil' : (Phase.woken : Phase T).batch.length = 0 := rfl
    omega
  obtain ⟨hinv, hwait⟩ := inv_leave hcounts hresults hin hfree hless
  refine ⟨hinv, fun fRet hret => ?_⟩
  have hreturns := hwait fRet hret
  exact ⟨hreturns.result, hreturns.taken, hreturns.nTotal_eq, hreturns.nTodo_eq, hreturns.fAllOk_eq⟩

theorem inv_spurious (h : Inv fCheck s) (hwait : s.phase t = .waiting) :
    Inv fCheck { s with phase := update s.phase t .woken } := by
  have hwakes := wakes_update hwait
  refine ⟨h.counts.wakes hwakes, h.results.wakes hwakes, fun t' => ?_⟩
  rcases hwakes t' with hsame | ⟨_, hwoken⟩
  · exact fun hin => h.free t' (hsame.symm.trans hin)
  · exact fun hin => absurd (hwoken.symm.trans hin) (by simp)

theorem inv_wait (h : Inv fCheck s) (habsent : s.phase none = .absent) :
    Inv fCheck { s with phase := update s.phase none (.outside [] true) } := by
  refine ⟨h.counts.move ?_ ?_ ?_ ?_, h.results.move (by rw [habsent]; rfl) rfl (by simp) rfl rfl, fun t => ?_⟩
  · rw [habsent]
    rfl
  · rw [habsent]
    rfl
  · rw [habsent]
    rfl
  · rw [update_self]
    intro hwait
    cases hwait
  · by_cases ht : t = none
    · rw [ht]
      simp only [update_self]
      simp
    · simp only [update_of_ne ht]
      exact h.free t

/-- `Add` queues new checks, and the master is not in `Wait`. -/
theorem inv_add (h : Inv fCheck s) (habsent : s.phase none = .absent) (vChecks : List T) :
    Inv fCheck { s with
      pqueue := s.pqueue.add (vChecks.zipIdx s.added.length)
      added := s.added ++ vChecks.zipIdx s.added.length } := by
  refine ⟨⟨?_, h.counts.nIdle_eq, h.counts.nTotal_eq, ?_⟩, ⟨?_, ?_, ?_, ?_, h.results.skipped, ?_⟩, h.free⟩
  · show s.pqueue.nTodo + UInt32.ofNat (vChecks.zipIdx s.added.length).length =
      UInt32.ofNat (((vChecks.zipIdx s.added.length).reverse ++ s.pqueue.queue).length +
        Pool.total Phase.batchSize s.phase)
    have hs : s.pqueue.nTodo = UInt32.ofNat (s.pqueue.queue.length + Pool.total Phase.batchSize s.phase) :=
      h.counts.nTodo_eq
    rw [hs, ← UInt32.ofNat_add, length_append, length_reverse]
    congr 1
    omega
  · intro hwait
    rw [show s.phase none = .waiting from hwait] at habsent
    cases habsent
  · show (s.added ++ vChecks.zipIdx s.added.length).map Prod.snd = _
    rw [map_append, h.results.numbered, length_append, length_zipIdx, range_add]
    congr 1
    rw [zipIdx_map_snd, range'_eq_map_range]
  · show List.Perm (s.added ++ vChecks.zipIdx s.added.length)
      ((vChecks.zipIdx s.added.length).reverse ++ s.pqueue.queue ++ s.taken.map Prod.snd)
    rw [append_assoc]
    refine List.Perm.trans perm_append_comm ?_
    exact List.Perm.append (reverse_perm _).symm h.results.perm
  · intro t job hjob
    exact mem_append_left _ (h.results.batch_added t job hjob)
  · intro hfail
    obtain ⟨job, hjob, hbad⟩ := h.results.failed hfail
    exact ⟨job, mem_append_left _ hjob, hbad⟩
  · intro job hjob
    show _ ∨ s.pqueue.fAllOk = false ∨ job ∈ (vChecks.zipIdx s.added.length).reverse ++ s.pqueue.queue ∨ _
    rcases mem_append.mp hjob with hold | hnew
    · rcases h.results.settled job hold with hgood | hfail | hqueued | hheld
      · exact .inl hgood
      · exact .inr (.inl hfail)
      · exact .inr (.inr (.inl (mem_append_right _ hqueued)))
      · exact .inr (.inr (.inr hheld))
    · exact .inr (.inr (.inl (mem_append_left _ (mem_reverse.mpr hnew))))

/-- One step keeps the invariant, and a step in which `Wait` returns gives the right result. -/
theorem inv_step {s' : State T nWorkers} {r : Option Bool} (h : Inv fCheck s) (hbound : s.outstanding < 2 ^ 32)
    (hstep : Step fCheck s r s') : Inv fCheck s' ∧ ∀ fRet, r = some fRet → WaitReturns fCheck s fRet s' := by
  cases hstep with
  | enter hout => exact inv_enter h hbound hout
  | resume hwoken => exact inv_resume h hbound hwoken
  | spurious hwait => exact ⟨inv_spurious h hwait, fun fRet hret => by cases hret⟩
  | add vChecks habsent hnotify =>
    have hwakes := hnotify.wakes
    have hadd := inv_add h habsent vChecks
    refine ⟨⟨hadd.counts.wakes hwakes, hadd.results.wakes hwakes, fun t => ?_⟩, fun fRet hret => by cases hret⟩
    rcases hwakes t with hsame | ⟨_, hwoken⟩
    · exact fun hin => h.free t (hsame.symm.trans hin)
    · exact fun hin => absurd (hwoken.symm.trans hin) (by simp)
  | wait habsent => exact ⟨inv_wait h habsent, fun fRet hret => by cases hret⟩

theorem start_phase (T : Type) (nBatchSize : UInt32) (t : Thread nWorkers) :
    (State.start nWorkers nBatchSize : State T nWorkers).phase t = .absent ∨
      (State.start nWorkers nBatchSize : State T nWorkers).phase t = .outside [] true := by
  cases t with
  | none => exact .inl rfl
  | some w => exact .inr rfl

theorem start_outstanding (nBatchSize : UInt32) :
    (State.start nWorkers nBatchSize : State T nWorkers).outstanding = 0 := by
  have hnone : (State.start nWorkers nBatchSize : State T nWorkers).inBatches = 0 :=
    Pool.total_eq_zero fun t => by rcases start_phase T nBatchSize t with h | h <;> rw [h] <;> rfl
  show 0 + _ = 0
  rw [hnone]

theorem inv_start (nBatchSize : UInt32) : Inv fCheck (State.start nWorkers nBatchSize : State T nWorkers) := by
  have hphase : ∀ t : Thread nWorkers, _ := start_phase T nBatchSize
  refine ⟨⟨?_, ?_, ?_, ?_⟩, ⟨rfl, List.Perm.refl _, ?_, ?_, ?_, ?_⟩, ?_⟩
  · rw [start_outstanding]
    rfl
  · exact (Pool.total_eq_zero fun t => by rcases hphase t with h | h <;> rw [h] <;> rfl).symm
  · exact (Pool.total_eq_zero fun t => by rcases hphase t with h | h <;> rw [h] <;> rfl).symm
  · intro hwait
    cases hwait
  · intro t job hjob
    rcases hphase t with h | h <;> rw [h] at hjob <;> cases hjob
  · intro hfail
    cases hfail
  · intro t vChecks hout
    rcases hphase t with h | h <;> rw [h] at hout <;> cases hout
  · intro job hjob
    cases hjob
  · intro t hin
    rcases hphase t with h | h <;> rw [h] at hin <;> cases hin

/-! ## Whole runs -/

/-- Fewer checks than `nTodo` can count are outstanding. -/
def Fits (s : State T nWorkers) : Prop :=
  s.outstanding < 2 ^ 32

instance (s : State T nWorkers) : Decidable (Fits s) :=
  inferInstanceAs (Decidable (_ < _))

theorem Reachable.inv {nBatchSize : UInt32} (h : Reachable fCheck nBatchSize Fits s) :
    Inv fCheck s ∧ Fits s := by
  induction h with
  | start =>
    refine ⟨inv_start nBatchSize, ?_⟩
    rw [Fits, start_outstanding]
    omega
  | step h hstep hfits ih => exact ⟨(inv_step ih.1 ih.2 hstep).1, hfits⟩

/-- A waiting master is owed a batch that some worker still evaluates. -/
theorem Inv.no_deadlock (h : Inv fCheck s) :
    ¬ (s.phase none = .waiting ∧ ∀ w : Fin nWorkers, s.phase (some w) = .waiting) := by
  rintro ⟨hmaster, hworkers⟩
  obtain ⟨htodo, hqueue⟩ := h.counts.master hmaster
  refine htodo ?_
  have hall : ∀ t, (s.phase t).batchSize = 0 := by
    intro t
    cases t with
    | none =>
      rw [hmaster]
      rfl
    | some w =>
      rw [hworkers w]
      rfl
  have hnone : s.outstanding = 0 := by
    show s.pqueue.queue.length + Pool.total Phase.batchSize s.phase = 0
    rw [Pool.total_eq_zero hall, hqueue]
    rfl
  rw [h.counts.nTodo_eq, hnone]
  rfl

/-- What the queue promises in a state. -/
structure Sound (fCheck : T → Bool) (s : State T nWorkers) : Prop where
  nTodo_eq : s.pqueue.nTodo.toNat = s.pqueue.queue.length + s.inBatches
  taken : TakenOnce s
  waits : ∀ fRet s', Step fCheck s (some fRet) s' → WaitReturns fCheck s fRet s'
  no_deadlock : ¬ (s.phase none = .waiting ∧ ∀ w : Fin nWorkers, s.phase (some w) = .waiting)

/-- In every run of the master and any number of workers in which `nTodo` does not overflow, parallel checking gives the
result of sequential checking, every check is taken once, and the threads never all wait for each other. -/
theorem run_sound {nBatchSize : UInt32} (h : Reachable fCheck nBatchSize Fits s) : Sound fCheck s := by
  obtain ⟨hinv, hfits⟩ := h.inv
  refine ⟨?_, hinv.results.takenOnce, fun fRet s' hstep => ?_, hinv.no_deadlock⟩
  · rw [hinv.counts.nTodo_eq, UInt32.toNat_ofNat']
    exact Nat.mod_eq_of_lt hfits
  · exact (inv_step hinv hfits hstep).2 fRet rfl

end

/-- A check that the master takes itself, while the only worker has not started. -/
theorem run_sound_example : ∃ s : State Bool 1, Reachable id 128 Fits s ∧ s.added = [(false, 0)] ∧
    (∃ s', Step id s (some false) s') ∧ Sound id s := by
  have hstart : Reachable id 128 Fits (State.start 1 128 : State Bool 1) := Reachable.start
  have hadd := hstart.step (Step.add [false] rfl (Notified.lost (by simp [State.start]))) (by decide)
  have hwait := hadd.step (Step.wait rfl) (by decide)
  have htake := hwait.step (Step.enter (t := none) rfl) (by decide)
  exact ⟨_, htake, rfl, ⟨_, @Step.enter Bool 1 id _ none [(false, 0)] true rfl⟩, run_sound htake⟩

/-- After 2 ^ 32 checks have been added, `nTodo` is 0 again. -/
theorem nTodo_overflow : ∃ s : State Bool 1,
    Reachable id 128 (fun _ => True) s ∧ s.pqueue.queue.length = 2 ^ 32 ∧ s.pqueue.nTodo = 0 ∧ ¬ Sound id s := by
  have hstart : Reachable id 128 (fun _ => True) (State.start 1 128 : State Bool 1) := Reachable.start
  have hlength : (List.replicate (2 ^ 32) true).length = 2 ^ 32 := length_replicate
  have hnotify : Notified (State.start 1 128 : State Bool 1).phase (2 ^ 32) _ := Notified.all (2 ^ 32 - 2)
  rw [← hlength] at hnotify
  have hadd := hstart.step (Step.add (List.replicate (2 ^ 32) true) rfl hnotify) trivial
  have hjobs : ((List.replicate (2 ^ 32) true).zipIdx 0).length = 2 ^ 32 := by rw [length_zipIdx, hlength]
  have hqueue : (((List.replicate (2 ^ 32) true).zipIdx 0).reverse ++ ([] : List (Job Bool))).length = 2 ^ 32 := by
    rw [append_nil, length_reverse, hjobs]
  have htodo : (0 : UInt32) + UInt32.ofNat ((List.replicate (2 ^ 32) true).zipIdx 0).length = 0 := by
    rw [hjobs]
    rfl
  obtain ⟨s, hs, hsqueue, hstodo⟩ : ∃ s : State Bool 1,
      Reachable id 128 (fun _ => True) s ∧ s.pqueue.queue.length = 2 ^ 32 ∧ s.pqueue.nTodo = 0 :=
    ⟨_, hadd, hqueue, htodo⟩
  refine ⟨s, hs, hsqueue, hstodo, fun hsound => ?_⟩
  have hcount := hsound.nTodo_eq
  rw [hstodo, hsqueue, UInt32.toNat_zero] at hcount
  omega

end CheckQueue
end Reddcoin

import Reddcoin.Validation.CheckQueue

/-!
# The invariant of the queue of script checks

What the counters count and what `fAllOk` says about the checks, while a thread enters a section under the mutex, cleans
up its last batch and leaves with the next one.
-/

namespace Reddcoin

open List Function
namespace CheckQueue

open Function (update)

open UInt32 (ofNat ofNat_add)

variable {T : Type} {nWorkers : Nat} {phase : Thread nWorkers → Phase T}

/-- The counters are what they are meant to count. -/
structure Counts (s : State T nWorkers) : Prop where
  nTodo_eq : s.pqueue.nTodo = ofNat s.outstanding
  nIdle_eq : s.pqueue.nIdle = Pool.total Phase.idle s.phase
  nTotal_eq : s.pqueue.nTotal = Pool.total Phase.counted s.phase
  /-- A master that waits has seen an empty queue and unfinished checks. -/
  master : s.phase none = .waiting → s.pqueue.nTodo ≠ 0 ∧ s.pqueue.queue = []

/-- Every check is where it should be, and `fAllOk` tells of the checks that are not outstanding. -/
structure Results (fCheck : T → Bool) (s : State T nWorkers) : Prop where
  numbered : s.added.map Prod.snd = List.range s.added.length
  perm : List.Perm s.added (s.pqueue.queue ++ s.taken.map Prod.snd)
  batch_added : ∀ t, ∀ job ∈ (s.phase t).batch, job ∈ s.added
  failed : s.pqueue.fAllOk = false → ∃ job ∈ s.added, fCheck job.1 = false
  /-- A batch that is skipped was taken after the failure. -/
  skipped : ∀ t vChecks, s.phase t = .outside vChecks false → vChecks ≠ [] ∧ s.pqueue.fAllOk = false
  settled : ∀ job ∈ s.added, fCheck job.1 = true ∨ s.pqueue.fAllOk = false ∨ job ∈ s.pqueue.queue ∨
    ∃ t, job ∈ (s.phase t).batch

variable {fCheck : T → Bool} {s : State T nWorkers} {t : Thread nWorkers} {vChecks : List (Job T)} {fOk : Bool}

theorem execute_eq (fCheck : T → Bool) (vChecks : List (Job T)) (fOk : Bool) :
    execute fCheck vChecks fOk = (fOk && vChecks.all fun job => fCheck job.1) := by
  induction vChecks generalizing fOk with
  | nil => simp [execute]
  | cons job vChecks ih =>
    show execute fCheck vChecks (if fOk then fCheck job.1 else fOk) = _
    rw [ih, all_cons]
    cases fOk <;> rfl

theorem nNow_pos (q : CCheckQueue T) : 1 ≤ q.nNow := by
  unfold CCheckQueue.nNow
  omega

/-! ### Wake-ups

Waking a thread up changes no sum, since a woken thread still counts as idle. -/

/-- The phases differ in that some waiting threads have been woken. -/
def Wakes (phase phase' : Thread nWorkers → Phase T) : Prop :=
  ∀ t, phase' t = phase t ∨ phase t = .waiting ∧ phase' t = .woken

theorem Wakes.refl (phase : Thread nWorkers → Phase T) : Wakes phase phase :=
  fun _ => .inl rfl

theorem wakes_update (h : phase t = .waiting) : Wakes phase (update phase t .woken) := by
  intro t'
  by_cases ht : t' = t
  · subst ht
    exact .inr ⟨h, update_self ..⟩
  · exact .inl (update_of_ne ht ..)

theorem wakes_notifyMaster (phase : Thread nWorkers → Phase T) : Wakes phase (notifyMaster phase) := by
  unfold notifyMaster
  split
  · rename_i h
    exact wakes_update h
  · exact Wakes.refl phase

theorem Notified.wakes {phase phase' : Thread nWorkers → Phase T} {n : Nat} (h : Notified phase n phase') :
    Wakes phase phase' := by
  cases h with
  | nobody | lost => exact Wakes.refl phase
  | one w h => exact wakes_update h
  | all =>
    intro t
    cases t with
    | none => exact .inl rfl
    | some w =>
      cases h : phase (some w) with
      | waiting => exact .inr ⟨rfl, by simp [h]⟩
      | _ => exact .inl (by simp [h])

section Wakes

variable {phase phase' : Thread nWorkers → Phase T}

section

variable (h : Wakes phase phase') (t : Thread nWorkers)

include h

theorem Wakes.batch : (phase' t).batch = (phase t).batch := by
  rcases h t with heq | ⟨hwait, hwoken⟩
  · rw [heq]
  · rw [hwait, hwoken]
    rfl

theorem Wakes.idle : (phase' t).idle = (phase t).idle := by
  rcases h t with heq | ⟨hwait, hwoken⟩
  · rw [heq]
  · rw [hwait, hwoken]
    rfl

theorem Wakes.counted : (phase' t).counted = (phase t).counted := by
  rcases h t with heq | ⟨hwait, hwoken⟩
  · rw [heq]
  · rw [hwait, hwoken]
    rfl

end

theorem Wakes.outside (h : Wakes phase phase') (heq : phase' t = .outside vChecks fOk) :
    phase t = .outside vChecks fOk := by
  rcases h t with hsame | ⟨_, hwoken⟩
  · rw [← hsame, heq]
  · rw [hwoken] at heq
    cases heq

end Wakes

theorem Counts.wakes (h : Counts s) (hwakes : Wakes s.phase phase) : Counts { s with phase := phase } where
  nTodo_eq := by
    have hsame : Pool.total Phase.batchSize phase = Pool.total Phase.batchSize s.phase :=
      Pool.total_congr fun t => congrArg List.length (hwakes.batch t)
    rw [h.nTodo_eq]
    show ofNat (s.pqueue.queue.length + Pool.total Phase.batchSize s.phase) =
      ofNat (s.pqueue.queue.length + Pool.total Phase.batchSize phase)
    rw [hsame]
  nIdle_eq := h.nIdle_eq.trans (Pool.total_congr hwakes.idle).symm
  nTotal_eq := h.nTotal_eq.trans (Pool.total_congr hwakes.counted).symm
  master := by
    intro hmaster
    rcases hwakes none with hsame | ⟨_, hwoken⟩
    · exact h.master (hsame.symm.trans hmaster)
    · exact absurd (hwoken.symm.trans hmaster) (by simp)

theorem Results.wakes (h : Results fCheck s) (hwakes : Wakes s.phase phase) :
    Results fCheck { s with phase := phase } where
  numbered := h.numbered
  perm := h.perm
  batch_added := by
    intro t job hjob
    rw [hwakes.batch t] at hjob
    exact h.batch_added t job hjob
  failed := h.failed
  skipped := fun t vChecks hout => h.skipped t vChecks (hwakes.outside hout)
  settled := by
    intro job hjob
    rcases h.settled job hjob with hok | hfail | hqueued | ⟨t, hbatch⟩
    · exact .inl hok
    · exact .inr (.inl hfail)
    · exact .inr (.inr (.inl hqueued))
    · refine .inr (.inr (.inr ⟨t, ?_⟩))
      rw [hwakes.batch t]
      exact hbatch

/-! ### Entering a section -/

theorem total_batchSize_update (phase : Thread nWorkers → Phase T) (t : Thread nWorkers) (p : Phase T) :
    Pool.total Phase.batchSize (update phase t p) + (phase t).batch.length =
      Pool.total Phase.batchSize phase + p.batch.length :=
  Pool.total_update Phase.batchSize phase t p

theorem Counts.move (h : Counts s) {q : CCheckQueue T} {p : Phase T} {added : List (Job T)}
    {taken : List (Thread nWorkers × Job T)}
    (htodo : q.nTodo + ofNat (s.pqueue.queue.length + (s.phase t).batch.length) =
      s.pqueue.nTodo + ofNat (q.queue.length + p.batch.length))
    (hidle : q.nIdle + (s.phase t).idle = s.pqueue.nIdle + p.idle)
    (htotal : q.nTotal + (s.phase t).counted = s.pqueue.nTotal + p.counted)
    (hmaster : update s.phase t p none = .waiting → q.nTodo ≠ 0 ∧ q.queue = []) :
    Counts { pqueue := q, phase := update s.phase t p, added := added, taken := taken } where
  nTodo_eq := by
    have hsum := total_batchSize_update s.phase t p
    have hs : s.pqueue.nTodo = ofNat (s.pqueue.queue.length + Pool.total Phase.batchSize s.phase) := h.nTodo_eq
    show q.nTodo = ofNat (q.queue.length + Pool.total Phase.batchSize (update s.phase t p))
    have heq : s.pqueue.queue.length + Pool.total Phase.batchSize s.phase + (q.queue.length + p.batch.length) =
        q.queue.length + Pool.total Phase.batchSize (update s.phase t p) +
          (s.pqueue.queue.length + (s.phase t).batch.length) := by omega
    rw [hs, ← ofNat_add, heq,
      ofNat_add (q.queue.length + Pool.total Phase.batchSize (update s.phase t p))] at htodo
    exact (UInt32.add_left_inj _).mp htodo
  nIdle_eq := by
    have hsum := Pool.total_update Phase.idle s.phase t p
    have hs := h.nIdle_eq
    show q.nIdle = Pool.total Phase.idle (update s.phase t p)
    omega
  nTotal_eq := by
    have hsum := Pool.total_update Phase.counted s.phase t p
    have hs := h.nTotal_eq
    show q.nTotal = Pool.total Phase.counted (update s.phase t p)
    omega
  master := hmaster

/-- A thread moves between phases without a batch. -/
theorem Results.move (h : Results fCheck s) {q : CCheckQueue T} {p : Phase T} (hbatch : (s.phase t).batch = [])
    (hp : p.batch = []) (hout : ∀ vChecks, p ≠ .outside vChecks false) (hqueue : q.queue = s.pqueue.queue)
    (hok : q.fAllOk = s.pqueue.fAllOk) :
    Results fCheck { s with pqueue := q, phase := update s.phase t p } where
  numbered := h.numbered
  perm := by
    show List.Perm s.added (q.queue ++ s.taken.map Prod.snd)
    rw [hqueue]
    exact h.perm
  batch_added := by
    intro t' job hjob
    by_cases ht : t' = t
    · rw [ht] at hjob
      simp only [update_self, hp, not_mem_nil] at hjob
    · simp only [update_of_ne ht] at hjob
      exact h.batch_added t' job hjob
  failed := by
    intro hfail
    exact h.failed (hok.symm.trans hfail)
  skipped := by
    intro t' vChecks hphase
    by_cases ht : t' = t
    · rw [ht] at hphase
      simp only [update_self] at hphase
      exact absurd hphase (hout vChecks)
    · simp only [update_of_ne ht] at hphase
      exact ⟨(h.skipped t' vChecks hphase).1, hok.trans (h.skipped t' vChecks hphase).2⟩
  settled := by
    intro job hjob
    show _ ∨ q.fAllOk = false ∨ job ∈ q.queue ∨ _
    rw [hok, hqueue]
    rcases h.settled job hjob with hgood | hfail | hqueued | ⟨t', hin⟩
    · exact .inl hgood
    · exact .inr (.inl hfail)
    · exact .inr (.inr (.inl hqueued))
    · have ht : t' ≠ t := by
        rintro rfl
        rw [hbatch] at hin
        cases hin
      refine .inr (.inr (.inr ⟨t', ?_⟩))
      simp only [update_of_ne ht]
      exact hin

/-! ### The clean-up -/

theorem Counts.cleanUp (h : Counts s) (hout : s.phase t = .outside vChecks fOk) (fOk' : Bool)
    (hmaster : (s.pqueue.cleanUp vChecks fOk').nTodo = 0 → vChecks ≠ [] → t ≠ none → s.phase none ≠ .waiting) :
    Counts { s with pqueue := s.pqueue.cleanUp vChecks fOk', phase := update s.phase t .inside } := by
  have hwaits : update s.phase t .inside none = .waiting → t ≠ none ∧ s.phase none = .waiting := by
    intro hwait
    by_cases ht : t = none
    · rw [ht, update_self] at hwait
      cases hwait
    · rw [update_of_ne (Ne.symm ht)] at hwait
      exact ⟨ht, hwait⟩
  cases vChecks with
  | nil =>
    refine h.move ?_ ?_ ?_ ?_
    · rw [hout]
      rfl
    · rw [hout]
      rfl
    · rw [hout]
      show s.pqueue.nTotal + 1 + 0 = s.pqueue.nTotal + 1
      rw [Int.add_zero]
    · intro hwait
      exact h.master (hwaits hwait).2
  | cons job vChecks =>
    refine h.move ?_ ?_ ?_ ?_
    · rw [hout]
      show s.pqueue.nTodo - ofNat (job :: vChecks).length +
          ofNat (s.pqueue.queue.length + (job :: vChecks).length) =
        s.pqueue.nTodo + ofNat (s.pqueue.queue.length + 0)
      rw [Nat.add_comm, ofNat_add, ← UInt32.add_assoc, UInt32.sub_add_cancel, Nat.add_zero]
    · rw [hout]
      rfl
    · rw [hout]
      rfl
    · intro hwait
      obtain ⟨ht, hmwait⟩ := hwaits hwait
      refine ⟨fun hzero => hmaster hzero (by simp) ht hmwait, (h.master hmwait).2⟩

/-- A batch that has been evaluated: if all checks passed so far, they still have. -/
theorem Results.cleanUp (h : Results fCheck s) (hout : s.phase t = .outside vChecks fOk) :
    Results fCheck { s with
      pqueue := s.pqueue.cleanUp vChecks (execute fCheck vChecks fOk)
      phase := update s.phase t .inside } := by
  by_cases hnil : vChecks = []
  · subst hnil
    rw [CCheckQueue.cleanUp, if_pos rfl]
    exact h.move (by rw [hout]; rfl) rfl (by simp) rfl rfl
  · have hother : ∀ t', t' ≠ t → update s.phase t .inside t' = s.phase t' :=
      fun t' ht => update_of_ne ht ..
    have hfalse : ∀ t' vs, update s.phase t .inside t' = .outside vs false → t' ≠ t := by
      rintro t' vs hphase rfl
      rw [update_self] at hphase
      cases hphase
    rw [CCheckQueue.cleanUp, if_neg hnil, execute_eq]
    refine ⟨h.numbered, h.perm, ?_, ?_, ?_, ?_⟩
    · intro t' job hjob
      by_cases ht : t' = t
      · rw [ht] at hjob
        simp only [update_self] at hjob
        cases hjob
      · simp only [update_of_ne ht] at hjob
        exact h.batch_added t' job hjob
    · show (s.pqueue.fAllOk && (fOk && _)) = false → _
      intro hfail
      cases hok : s.pqueue.fAllOk with
      | false => exact h.failed hok
      | true =>
        rw [hok, Bool.true_and] at hfail
        cases hfOk : fOk with
        | false => exact absurd (h.skipped t vChecks (hfOk ▸ hout)).2 (by simp [hok])
        | true =>
          rw [hfOk, Bool.true_and] at hfail
          obtain ⟨job, hjob, hbad⟩ := all_eq_false.mp hfail
          exact ⟨job, h.batch_added t job (by rw [hout]; exact hjob), by simpa using hbad⟩
    · intro t' vs hphase
      have ht := hfalse t' vs hphase
      have hprev := h.skipped t' vs (by rw [← hother t' ht]; exact hphase)
      refine ⟨hprev.1, ?_⟩
      show (s.pqueue.fAllOk && (fOk && _)) = false
      rw [hprev.2, Bool.false_and]
    · intro job hjob
      show _ ∨ (s.pqueue.fAllOk && (fOk && _)) = false ∨ job ∈ s.pqueue.queue ∨ _
      rcases h.settled job hjob with hgood | hfail | hqueued | ⟨t', hin⟩
      · exact .inl hgood
      · exact .inr (.inl (by rw [hfail, Bool.false_and]))
      · exact .inr (.inr (.inl hqueued))
      · by_cases ht : t' = t
        · rw [ht, hout] at hin
          cases hrun : fOk && vChecks.all fun job => fCheck job.1 with
          | false => exact .inr (.inl (Bool.and_false _))
          | true =>
            rw [Bool.and_eq_true, all_eq_true] at hrun
            exact .inl (hrun.2 job hin)
        · refine .inr (.inr (.inr ⟨t', ?_⟩))
          simp only [update_of_ne ht]
          exact hin

/-! ### Leaving a section -/

theorem batch_eq_nil_of_outstanding (h : s.outstanding = 0) (t : Thread nWorkers) : (s.phase t).batch = [] := by
  have hsum : ∑ t, (s.phase t).batchSize = 0 := (Nat.add_eq_zero_iff.mp h).2
  exact length_eq_zero_iff.mp (Finset.sum_eq_zero_iff.mp hsum t (Finset.mem_univ t))

theorem outstanding_eq_zero (h : Counts s) (hzero : s.pqueue.nTodo = 0) (hbound : s.outstanding < 2 ^ 32) :
    s.outstanding = 0 := by
  have hmod : s.outstanding % 2 ^ 32 = 0 := by
    rw [h.nTodo_eq] at hzero
    exact (UInt32.ofNat_eq_iff_mod_eq_toNat _ _).mp hzero
  omega

section Leave

variable (hin : s.phase t = .inside)
include hin

theorem Counts.waits (h : Counts s) (hqueue : s.pqueue.queue = []) (hstay : ¬ (t = none ∧ s.pqueue.nTodo = 0)) :
    Counts { s with
      pqueue := { s.pqueue with nIdle := s.pqueue.nIdle + 1 }
      phase := update s.phase t .waiting } := by
  refine h.move ?_ ?_ ?_ ?_
  · rw [hin]
    rfl
  · rw [hin]
    show s.pqueue.nIdle + 1 + 0 = s.pqueue.nIdle + 1
    rw [Int.add_zero]
  · rw [hin]
    rfl
  · intro hwait
    refine ⟨fun hzero => ?_, hqueue⟩
    by_cases ht : t = none
    · exact hstay ⟨ht, hzero⟩
    · rw [update_of_ne (Ne.symm ht)] at hwait
      exact (h.master hwait).1 hzero

theorem Counts.takes (h : Counts s) (hqueue : s.pqueue.queue ≠ []) (taken : List (Thread nWorkers × Job T)) :
    Counts { s with
      pqueue := { s.pqueue with queue := s.pqueue.queue.drop s.pqueue.nNow }
      phase := update s.phase t (.outside (s.pqueue.queue.take s.pqueue.nNow) s.pqueue.fAllOk)
      taken := taken } := by
  have hlength := length_pos_iff.mpr hqueue
  have hpos := nNow_pos s.pqueue
  refine h.move ?_ ?_ ?_ ?_
  · rw [hin]
    show s.pqueue.nTodo + ofNat (s.pqueue.queue.length + 0) = s.pqueue.nTodo +
      ofNat ((s.pqueue.queue.drop s.pqueue.nNow).length + (s.pqueue.queue.take s.pqueue.nNow).length)
    rw [length_drop, length_take]
    congr 2
    omega
  · rw [hin]
    rfl
  · rw [hin]
    cases hbatch : s.pqueue.queue.take s.pqueue.nNow with
    | nil =>
      have hnone := congrArg List.length hbatch
      rw [length_take, length_nil] at hnone
      omega
    | cons job vChecks => rfl
  · intro hwait
    by_cases ht : t = none
    · rw [ht, update_self] at hwait
      cases hwait
    · rw [update_of_ne (Ne.symm ht)] at hwait
      exact absurd (h.master hwait).2 hqueue

theorem Results.takes (h : Results fCheck s) (hqueue : s.pqueue.queue ≠ []) :
    Results fCheck { s with
      pqueue := { s.pqueue with queue := s.pqueue.queue.drop s.pqueue.nNow }
      phase := update s.phase t (.outside (s.pqueue.queue.take s.pqueue.nNow) s.pqueue.fAllOk)
      taken := s.taken ++ (s.pqueue.queue.take s.pqueue.nNow).map fun job => (t, job) } := by
  have hlength := length_pos_iff.mpr hqueue
  have hpos := nNow_pos s.pqueue
  have hsplit : s.pqueue.queue.take s.pqueue.nNow ++ s.pqueue.queue.drop s.pqueue.nNow = s.pqueue.queue :=
    take_append_drop ..
  refine ⟨h.numbered, ?_, ?_, h.failed, ?_, ?_⟩
  · show List.Perm s.added (s.pqueue.queue.drop s.pqueue.nNow ++
      (s.taken ++ (s.pqueue.queue.take s.pqueue.nNow).map fun job => (t, job)).map Prod.snd)
    have hsnd : ((s.pqueue.queue.take s.pqueue.nNow).map fun job => (t, job)).map Prod.snd =
        s.pqueue.queue.take s.pqueue.nNow := by
      rw [map_map]
      exact map_id _
    rw [map_append, hsnd]
    refine h.perm.trans ?_
    rw [← append_assoc]
    refine List.Perm.trans ?_ perm_append_comm
    rw [← append_assoc, hsplit]
  · intro t' job hjob
    by_cases ht : t' = t
    · rw [ht] at hjob
      simp only [update_self] at hjob
      exact h.perm.symm.subset (mem_append_left _ (mem_of_mem_take hjob))
    · simp only [update_of_ne ht] at hjob
      exact h.batch_added t' job hjob
  · intro t' vChecks hphase
    by_cases ht : t' = t
    · rw [ht] at hphase
      simp only [update_self] at hphase
      obtain ⟨rfl, hok⟩ := Phase.outside.inj hphase
      refine ⟨fun hnil => ?_, hok⟩
      have hnone := congrArg List.length hnil
      rw [length_take, length_nil] at hnone
      omega
    · simp only [update_of_ne ht] at hphase
      exact h.skipped t' vChecks hphase
  · intro job hjob
    rcases h.settled job hjob with hgood | hfail | hqueued | ⟨t', hheld⟩
    · exact .inl hgood
    · exact .inr (.inl hfail)
    · rw [← hsplit] at hqueued
      rcases mem_append.mp hqueued with htake | hdrop
      · refine .inr (.inr (.inr ⟨t, ?_⟩))
        simp only [update_self]
        exact htake
      · exact .inr (.inr (.inl hdrop))
    · have ht : t' ≠ t := by
        rintro rfl
        rw [hin] at hheld
        cases hheld
      refine .inr (.inr (.inr ⟨t', ?_⟩))
      simp only [update_of_ne ht]
      exact hheld

end Leave

/-- With nothing outstanding, `fAllOk` tells of all checks. -/
theorem Results.fAllOk_iff (h : Results fCheck s) (hzero : s.outstanding = 0) :
    s.pqueue.fAllOk ↔ ∀ job ∈ s.added, fCheck job.1 = true := by
  have hqueue : s.pqueue.queue = [] := length_eq_zero_iff.mp (Nat.add_eq_zero_iff.mp hzero).1
  constructor
  · intro hok job hjob
    rcases h.settled job hjob with hgood | hfail | hqueued | ⟨t, hheld⟩
    · exact hgood
    · rw [hok] at hfail
      cases hfail
    · rw [hqueue] at hqueued
      cases hqueued
    · rw [batch_eq_nil_of_outstanding hzero t] at hheld
      cases hheld
  · intro hall
    by_contra hfail
    obtain ⟨job, hjob, hbad⟩ := h.failed (by simpa using hfail)
    rw [hall job hjob] at hbad
    cases hbad

/-- Every check is in the queue, or one thread has taken it, and that once. -/
structure TakenOnce (s : State T nWorkers) : Prop where
  nodup : (s.taken.map Prod.snd).Nodup
  once : ∀ job ∈ s.added, (job ∈ s.pqueue.queue ∧ ∀ t, (t, job) ∉ s.taken) ∨
    (job ∉ s.pqueue.queue ∧ ∃! t, (t, job) ∈ s.taken)

theorem Results.takenOnce (h : Results fCheck s) : TakenOnce s := by
  have hadded : s.added.Nodup := by
    refine List.Nodup.of_map Prod.snd ?_
    rw [h.numbered]
    exact nodup_range
  obtain ⟨-, htaken, hdisjoint⟩ := nodup_append.mp (h.perm.nodup_iff.mp hadded)
  refine ⟨htaken, fun job hjob => ?_⟩
  rcases mem_append.mp (h.perm.subset hjob) with hqueued | hmem
  · refine .inl ⟨hqueued, fun t ht => ?_⟩
    exact hdisjoint job hqueued job (mem_map.mpr ⟨(t, job), ht, rfl⟩) rfl
  · refine .inr ⟨fun hqueued => hdisjoint job hqueued job hmem rfl, ?_⟩
    obtain ⟨⟨t, job'⟩, ht, rfl⟩ := mem_map.mp hmem
    refine ⟨t, ht, fun t' ht' => ?_⟩
    exact congrArg Prod.fst (inj_on_of_nodup_map htaken ht' ht rfl)

/-- What holds when `Wait` returns `fRet` in state `s` and leaves `s'`: the result, and the assertions of the next
`CCheckQueueControl`. -/
structure WaitReturns (fCheck : T → Bool) (s : State T nWorkers) (fRet : Bool) (s' : State T nWorkers) : Prop where
  result : fRet = true ↔ ∀ job ∈ s.added, fCheck job.1 = true
  taken : ∀ job ∈ s.added, ∃! t, (t, job) ∈ s.taken
  nTotal_eq : s'.pqueue.nTotal = s'.pqueue.nIdle
  nTodo_eq : s'.pqueue.nTodo = 0
  fAllOk_eq : s'.pqueue.fAllOk = true

/-- The invariant between two sections. -/
structure Inv (fCheck : T → Bool) (s : State T nWorkers) : Prop where
  counts : Counts s
  results : Results fCheck s
  free : ∀ t, s.phase t ≠ .inside

theorem inv_returns (hc : Counts s) (hr : Results fCheck s) (hin : s.phase none = .inside)
    (hfree : ∀ t, t ≠ none → s.phase t ≠ .inside) (hqueue : s.pqueue.queue = []) (hzero : s.pqueue.nTodo = 0)
    (hbound : s.outstanding < 2 ^ 32) {s' : State T nWorkers}
    (hs' : s' = { pqueue := { s.pqueue with nTotal := s.pqueue.nTotal - 1, fAllOk := true }
                  phase := update s.phase none .absent
                  added := []
                  taken := [] }) :
    Inv fCheck s' ∧ WaitReturns fCheck s s.pqueue.fAllOk s' := by
  have hnone := outstanding_eq_zero hc hzero hbound
  have hbatch := batch_eq_nil_of_outstanding hnone
  have hcounts : Counts s' := by
    rw [hs']
    refine hc.move ?_ ?_ ?_ ?_
    · rw [hin]
      rfl
    · rw [hin]
      rfl
    · rw [hin]
      show s.pqueue.nTotal - 1 + 1 = s.pqueue.nTotal + 0
      omega
    · rw [update_self]
      intro hwait
      cases hwait
  have hphase : ∀ t, t ≠ none → s'.phase t = s.phase t := by
    intro t ht
    rw [hs']
    show update s.phase none .absent t = s.phase t
    rw [update_of_ne ht]
  have hmaster : s'.phase none = .absent := by
    rw [hs']
    show update s.phase none .absent none = .absent
    rw [update_self]
  have hempty : ∀ t, (s'.phase t).batch = [] := by
    intro t
    by_cases ht : t = none
    · rw [ht, hmaster]
      rfl
    · rw [hphase t ht]
      exact hbatch t
  have hfree' : ∀ t, s'.phase t ≠ .inside := by
    intro t
    by_cases ht : t = none
    · rw [ht, hmaster]
      simp
    · rw [hphase t ht]
      exact hfree t ht
  refine ⟨⟨hcounts, ?_, hfree'⟩, ?_⟩
  · have hadded : s'.added = [] := by rw [hs']
    refine ⟨?_, ?_, ?_, ?_, ?_, ?_⟩
    · rw [hadded]
      rfl
    · rw [hs']
      show List.Perm [] (s.pqueue.queue ++ [])
      rw [hqueue]
      exact List.Perm.refl []
    · intro t job hjob
      rw [hempty t] at hjob
      cases hjob
    · rw [hs']
      intro hfail
      cases hfail
    · intro t vChecks hout
      have hnil := hempty t
      rw [hout] at hnil
      by_cases ht : t = none
      · rw [ht, hmaster] at hout
        cases hout
      · rw [hphase t ht] at hout
        exact absurd hnil (hr.skipped t vChecks hout).1
    · rw [hadded]
      intro job hjob
      cases hjob
  · refine ⟨hr.fAllOk_iff hnone, ?_, ?_, ?_, ?_⟩
    · intro job hjob
      rcases hr.takenOnce.once job hjob with ⟨hqueued, _⟩ | ⟨_, honce⟩
      · rw [hqueue] at hqueued
        cases hqueued
      · exact honce
    · -- Every thread in `Loop` is counted and idle.
      rw [hcounts.nTotal_eq, hcounts.nIdle_eq]
      refine Pool.total_congr fun t => ?_
      have hnil := hempty t
      have hout := hfree' t
      cases hp : s'.phase t with
      | absent => rfl
      | waiting => rfl
      | woken => rfl
      | inside => exact absurd hp hout
      | outside vChecks fOk =>
        rw [hp] at hnil
        rw [show vChecks = [] from hnil]
        rfl
    · rw [hs']
      exact hzero
    · rw [hs']

/-- A section that thread `t` has entered ends with the invariant. -/
theorem inv_leave (hc : Counts s) (hr : Results fCheck s) (hin : s.phase t = .inside)
    (hfree : ∀ t', t' ≠ t → s.phase t' ≠ .inside) (hbound : s.outstanding < 2 ^ 32) :
    Inv fCheck (s.leave t).1 ∧ ∀ fRet, (s.leave t).2 = some fRet → WaitReturns fCheck s fRet (s.leave t).1 := by
  have hfree' : ∀ p, p ≠ Phase.inside → ∀ t', update s.phase t p t' ≠ .inside := by
    intro p hp t'
    by_cases ht : t' = t
    · rw [ht, update_self]
      exact hp
    · rw [update_of_ne ht]
      exact hfree t' ht
  unfold State.leave
  by_cases hqueue : s.pqueue.queue = []
  · by_cases hreturn : t = none ∧ s.pqueue.nTodo = 0
    · obtain ⟨rfl, hzero⟩ := hreturn
      rw [if_pos hqueue, if_pos ⟨rfl, hzero⟩]
      obtain ⟨hinv, hwait⟩ := inv_returns hc hr hin hfree hqueue hzero hbound rfl
      refine ⟨hinv, fun fRet hret => ?_⟩
      cases hret
      exact hwait
    · rw [if_pos hqueue, if_neg hreturn]
      refine ⟨⟨hc.waits hin hqueue hreturn, ?_, hfree' _ (by simp)⟩, fun fRet hret => by cases hret⟩
      exact hr.move (by rw [hin]; rfl) rfl (by simp) rfl rfl
  · rw [if_neg hqueue]
    exact ⟨⟨hc.takes hin hqueue _, hr.takes hin hqueue, hfree' _ (by simp)⟩, fun fRet hret => by cases hret⟩

end CheckQueue
end Reddcoin

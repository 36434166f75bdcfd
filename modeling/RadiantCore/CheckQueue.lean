import Mathlib.Data.List.Basic
import Mathlib.Tactic

/-!
# A queue of checks

`CCheckQueue` hands checks to worker threads. The master adds checks and waits ; a worker takes some
off the queue, runs them until one fails, and reports whether all succeeded. `QueueRun` is any
interleaving of these steps. Whatever the interleaving, the master gets the conjunction of all
checks (`QueueInv.wait_eq`), and when they all succeed each was run once (`QueueInv.perm_done`).

A run may also keep to a rule about the checks that are started (`allow`). A rule that leaves room for
the cost of each check keeps the cost of all within its limit (`QueueRun.cost_le`).

`LoopRun` has the threads themselves, each at its place in `Loop`, over any number of sessions. What
they share and their batches keep the invariant of the queue (`LoopRun.inv`).
-/

namespace RadiantCore

open List

open scoped List

variable {T : Type}

/-- What a worker holds in `Loop` : the checks it took and has not run, how many it took, and
`fOk`. -/
structure WorkerBatch (T : Type) where
  vChecks : List T
  nNow : ℕ
  fOk : Bool

/-- `CCheckQueue`, with the batches of its workers. The back of the vector `queue` is first here.
The checks in `done` were run and succeeded, which the source does not record. -/
structure CCheckQueue (T : Type) where
  queue : List T := []
  fAllOk : Bool := true
  nTodo : ℕ := 0
  batches : List (WorkerBatch T) := []
  done : List T := []

namespace CCheckQueue

/-- `Add`. -/
def add (q : CCheckQueue T) (vChecks : List T) : CCheckQueue T :=
  { q with queue := vChecks.reverse ++ q.queue, nTodo := q.nTodo + vChecks.length }

/-- A worker takes `nNow` checks off the queue. -/
def take (q : CCheckQueue T) (nNow : ℕ) : CCheckQueue T :=
  { q with
    queue := q.queue.drop nNow
    batches := ⟨q.queue.take nNow, nNow, q.fAllOk⟩ :: q.batches }

/-- The checks that are still to be run. -/
def pending (q : CCheckQueue T) : List T := q.queue ++ q.batches.flatMap WorkerBatch.vChecks

/-- The master returns from `Wait`. -/
def Finished (q : CCheckQueue T) : Prop := q.queue = [] ∧ q.nTodo = 0

/-- No failed check was noticed, by the queue or by a worker. -/
def Clean (q : CCheckQueue T) : Prop := q.fAllOk = true ∧ ∀ b ∈ q.batches, b.fOk = true

end CCheckQueue

/-- The interleavings of the master and the workers, for the checks `jobs` that were added. The
rule `allow` holds of every check where it is run, after those that succeeded before. -/
inductive QueueRun (check : T → Bool) (allow : List T → T → Prop) :
    List T → CCheckQueue T → Prop
  | start : QueueRun check allow [] {}
  | add {jobs : List T} {q : CCheckQueue T} (vChecks : List T) :
      QueueRun check allow jobs q → QueueRun check allow (jobs ++ vChecks) (q.add vChecks)
  | take {jobs : List T} {q : CCheckQueue T} {nNow : ℕ} :
      QueueRun check allow jobs q → 0 < nNow → nNow ≤ q.queue.length →
      QueueRun check allow jobs (q.take nNow)
  /-- A worker runs the next check of its batch. -/
  | run {jobs : List T} {q : CCheckQueue T} {pre post : List (WorkerBatch T)} {c : T} {cs : List T}
      {nNow : ℕ} :
      QueueRun check allow jobs q → q.batches = pre ++ ⟨c :: cs, nNow, true⟩ :: post →
      allow q.done c →
      QueueRun check allow jobs { q with
        batches := pre ++ ⟨cs, nNow, check c⟩ :: post
        done := if check c then q.done ++ [c] else q.done }
  /-- A worker passes over a check after a failure. -/
  | skip {jobs : List T} {q : CCheckQueue T} {pre post : List (WorkerBatch T)} {c : T} {cs : List T}
      {nNow : ℕ} :
      QueueRun check allow jobs q → q.batches = pre ++ ⟨c :: cs, nNow, false⟩ :: post →
      QueueRun check allow jobs { q with batches := pre ++ ⟨cs, nNow, false⟩ :: post }
  /-- A worker reports at the end of its batch. -/
  | finish {jobs : List T} {q : CCheckQueue T} {pre post : List (WorkerBatch T)} {nNow : ℕ}
      {fOk : Bool} :
      QueueRun check allow jobs q → q.batches = pre ++ ⟨[], nNow, fOk⟩ :: post →
      QueueRun check allow jobs { q with
        batches := pre ++ post, fAllOk := q.fAllOk && fOk, nTodo := q.nTodo - nNow }

/-! ## What every interleaving keeps -/

/-- The invariant of a queue. -/
structure QueueInv (check : T → Bool) (jobs : List T) (q : CCheckQueue T) : Prop where
  nTodo : q.nTodo = q.queue.length + (q.batches.map WorkerBatch.nNow).sum
  nNow : ∀ b ∈ q.batches, 0 < b.nNow
  pending : ∀ c ∈ q.pending, c ∈ jobs
  done : ∀ c ∈ q.done, check c = true
  /-- Without a failure every check is still to be run or was run. -/
  clean : q.Clean → jobs ~ q.pending ++ q.done
  failed : ¬ q.Clean → ∃ c ∈ jobs, check c = false

section Invariant

variable {check : T → Bool} {allow : List T → T → Prop} {jobs : List T} {q : CCheckQueue T}

theorem QueueInv.start : QueueInv check [] ({} : CCheckQueue T) where
  nTodo := rfl
  nNow := by simp
  pending := by simp [CCheckQueue.pending]
  done := by simp
  clean := by simp [CCheckQueue.pending]
  failed h := absurd ⟨rfl, by simp⟩ h

theorem QueueInv.add (h : QueueInv check jobs q) (vChecks : List T) :
    QueueInv check (jobs ++ vChecks) (q.add vChecks) where
  nTodo := by
    simp only [CCheckQueue.add, h.nTodo, length_append, length_reverse]
    omega
  nNow := h.nNow
  pending c hc := by
    have hmem : c ∈ vChecks ∨ c ∈ q.pending := by
      simpa [CCheckQueue.pending, CCheckQueue.add, or_assoc] using hc
    exact mem_append.mpr (hmem.symm.imp_left (h.pending c))
  done := h.done
  clean hclean := by
    calc jobs ++ vChecks
      _ ~ (q.pending ++ q.done) ++ vChecks := (h.clean hclean).append_right _
      _ ~ vChecks.reverse ++ (q.pending ++ q.done) :=
        perm_append_comm.trans ((reverse_perm _).symm.append_right _)
      _ = (q.add vChecks).pending ++ q.done := by
        simp [CCheckQueue.pending, CCheckQueue.add]
  failed hnot := by
    obtain ⟨c, hc, hfail⟩ := h.failed hnot
    exact ⟨c, mem_append_left _ hc, hfail⟩

/-- A step that keeps what is pending and whether a failure was noticed. -/
theorem QueueInv.of_pending {q' : CCheckQueue T} (h : QueueInv check jobs q)
    (hpending : q'.pending ~ q.pending) (hclean : q'.Clean ↔ q.Clean) (hdone : q'.done = q.done)
    (hnTodo : q'.nTodo = q'.queue.length + (q'.batches.map WorkerBatch.nNow).sum)
    (hnNow : ∀ b ∈ q'.batches, 0 < b.nNow) : QueueInv check jobs q' where
  nTodo := hnTodo
  nNow := hnNow
  pending c hc := h.pending c (hpending.mem_iff.mp hc)
  done := hdone ▸ h.done
  clean hc := hdone ▸ (h.clean (hclean.mp hc)).trans (hpending.symm.append_right _)
  failed hc := h.failed (mt hclean.mpr hc)

variable {nNow : ℕ}

theorem QueueInv.take (h : QueueInv check jobs q) (hpos : 0 < nNow)
    (hle : nNow ≤ q.queue.length) : QueueInv check jobs (q.take nNow) := by
  refine h.of_pending ?_ ?_ rfl ?_ (forall_mem_cons.mpr ⟨hpos, h.nNow⟩)
  · calc (q.take nNow).pending
      _ = (q.queue.drop nNow ++ q.queue.take nNow) ++ q.batches.flatMap WorkerBatch.vChecks :=
        (append_assoc _ _ _).symm
      _ ~ (q.queue.take nNow ++ q.queue.drop nNow) ++ q.batches.flatMap WorkerBatch.vChecks :=
        perm_append_comm.append_right _
      _ = q.pending := by rw [take_append_drop, CCheckQueue.pending]
  · simp only [CCheckQueue.Clean, CCheckQueue.take, forall_mem_cons]
    tauto
  · simp only [CCheckQueue.take, h.nTodo, length_drop, map_cons, sum_cons]
    omega

theorem QueueInv.of_perm {bs : List (WorkerBatch T)} (h : QueueInv check jobs q)
    (hperm : bs ~ q.batches) : QueueInv check jobs { q with batches := bs } :=
  h.of_pending ((hperm.flatMap_right _).append_left _)
    (and_congr_right' (forall_congr' fun b => by rw [hperm.mem_iff])) rfl
    (h.nTodo.trans (by rw [(hperm.map _).sum_eq])) fun b hb => h.nNow b (hperm.mem_iff.mp hb)

variable {pre post : List (WorkerBatch T)} {c : T} {fOk : Bool}

/-- A thread goes on to the next check of its batch, which it runs if none failed before. -/
theorem QueueInv.next {cs : List T} (h : QueueInv check jobs q)
    (hbatch : q.batches = pre ++ ⟨c :: cs, nNow, fOk⟩ :: post) :
    QueueInv check jobs { q with
      batches := pre ++ ⟨cs, nNow, fOk && check c⟩ :: post
      done := if fOk && check c then q.done ++ [c] else q.done } := by
  have hpending : q.pending ~ c :: (q.queue ++
      (pre ++ ⟨cs, nNow, fOk && check c⟩ :: post).flatMap WorkerBatch.vChecks) := by
    simp only [CCheckQueue.pending, hbatch, flatMap_append, flatMap_cons, ← append_assoc]
    exact perm_middle.append_right _
  have hclean : ({ q with batches := pre ++ ⟨cs, nNow, fOk && check c⟩ :: post } :
      CCheckQueue T).Clean ↔ q.Clean ∧ check c = true := by
    simp only [CCheckQueue.Clean, hbatch, forall_mem_append, forall_mem_cons, Bool.and_eq_true]
    tauto
  have hnTodo := h.nTodo
  have hnNow := h.nNow
  rw [hbatch] at hnTodo hnNow
  refine ⟨?_, ?_, fun a ha => h.pending a (hpending.mem_iff.mpr (mem_cons_of_mem _ ha)), ?_,
    fun hq => ?_, fun hq => ?_⟩
  · simpa using hnTodo
  · simp only [forall_mem_append, forall_mem_cons] at hnNow ⊢
    exact hnNow
  · intro a ha
    dsimp only at ha
    split_ifs at ha with hc
    · rcases mem_append.mp ha with ha | ha
      · exact h.done a ha
      · rw [mem_singleton.mp ha]
        exact (Bool.and_eq_true_iff.mp hc).2
    · exact h.done a ha
  · obtain ⟨hcleanq, hc⟩ := hclean.mp hq
    have hok : fOk = true := hcleanq.2 ⟨c :: cs, nNow, fOk⟩ (by simp [hbatch])
    calc jobs
      _ ~ q.pending ++ q.done := h.clean hcleanq
      _ ~ (c :: (q.queue ++ _)) ++ q.done := hpending.append_right _
      _ ~ (q.queue ++ _) ++ (q.done ++ [c]) := by
        rw [cons_append, ← append_assoc]
        exact (perm_append_singleton c _).symm
      _ = _ := by rw [hok, hc]; rfl
  · by_cases hcleanq : q.Clean
    · refine ⟨c, h.pending c (hpending.mem_iff.mpr mem_cons_self), ?_⟩
      exact Bool.eq_false_iff.mpr fun hc => hq (hclean.mpr ⟨hcleanq, hc⟩)
    · exact h.failed hcleanq

theorem QueueInv.finish
    (h : QueueInv check jobs q) (hbatch : q.batches = pre ++ ⟨[], nNow, fOk⟩ :: post) :
    QueueInv check jobs { q with
      batches := pre ++ post, fAllOk := q.fAllOk && fOk, nTodo := q.nTodo - nNow } := by
  have hnTodo := h.nTodo
  have hnNow := h.nNow
  rw [hbatch] at hnTodo hnNow
  rw [forall_mem_append, forall_mem_cons] at hnNow
  refine h.of_pending (.of_eq ?_) ?_ rfl ?_ (forall_mem_append.mpr ⟨hnNow.1, hnNow.2.2⟩)
  · simp [CCheckQueue.pending, hbatch]
  · simp only [CCheckQueue.Clean, hbatch, forall_mem_append, forall_mem_cons, Bool.and_eq_true]
    tauto
  · simp only [map_append, map_cons, sum_append, sum_cons] at hnTodo ⊢
    omega

theorem QueueRun.inv (h : QueueRun check allow jobs q) : QueueInv check jobs q := by
  induction h with
  | start => exact .start
  | add vChecks _ ih => exact ih.add vChecks
  | take _ hpos hle ih => exact ih.take hpos hle
  | run _ hbatch _ ih => exact ih.next hbatch
  | skip _ hbatch ih => exact ih.next hbatch
  | finish _ hbatch ih => exact ih.finish hbatch

/-! ## What the master gets -/

theorem QueueInv.batches_eq_nil (h : QueueInv check jobs q) (hend : q.Finished) :
    q.batches = [] := by
  cases hbatches : q.batches with
  | nil => rfl
  | cons b bs =>
    have hnTodo := h.nTodo
    have hpos := h.nNow b (by simp [hbatches])
    rw [hend.2, hbatches, map_cons, sum_cons] at hnTodo
    omega

/-- When all checks succeed, each was run once. -/
theorem QueueInv.perm_done (h : QueueInv check jobs q) (hend : q.Finished)
    (hok : q.fAllOk = true) : jobs ~ q.done := by
  have hbatches := h.batches_eq_nil hend
  have hperm := h.clean ⟨hok, by simp [hbatches]⟩
  rwa [CCheckQueue.pending, hend.1, hbatches, flatMap_nil, append_nil,
    nil_append] at hperm

/-- The master gets the conjunction of the checks. -/
theorem QueueInv.wait_eq (h : QueueInv check jobs q) (hend : q.Finished) :
    q.fAllOk = jobs.all check := by
  cases hok : q.fAllOk with
  | true =>
    symm
    rw [all_eq_true]
    exact fun c hc => h.done c ((h.perm_done hend hok).mem_iff.mp hc)
  | false =>
    obtain ⟨c, hc, hfail⟩ := h.failed fun hclean => Bool.false_ne_true (hok ▸ hclean.1)
    symm
    rw [all_eq_false]
    exact ⟨c, hc, by simp [hfail]⟩

end Invariant

/-! ## The threads of the queue -/

/-- Where a thread stands in `Loop`. -/
inductive LoopThread (T : Type)
  /-- Before its first critical section. -/
  | first
  /-- It waits on its condition variable. -/
  | waiting
  /-- It runs the checks of a batch, and then asks for the lock. -/
  | busy (batch : WorkerBatch T)

/-- The batch of a thread. -/
def LoopThread.batch? : LoopThread T → Option (WorkerBatch T)
  | .busy batch => some batch
  | _ => none

/-- The thread may enter a critical section. -/
def LoopThread.Ready (t : LoopThread T) : Prop := ∀ b ∈ t.batch?, b.vChecks = []

/-- A `CCheckQueue` and its threads, each with `fMaster`. The checks in `taken` were taken off the
queue since the last session, which the source does not record. -/
structure LoopState (T : Type) where
  queue : List T := []
  nIdle : ℕ := 0
  nTotal : ℕ := 0
  fAllOk : Bool := true
  nTodo : ℕ := 0
  threads : List (Bool × LoopThread T)
  taken : List T := []

namespace LoopState

/-- `Add`. -/
def add (s : LoopState T) (vChecks : List T) : LoopState T :=
  { s with queue := vChecks.reverse ++ s.queue, nTodo := s.nTodo + vChecks.length }

/-- The beginning of a critical section of `Loop` : the clean-up of the previous run, or the end of
a wait. -/
def cleanUp (s : LoopState T) : LoopThread T → LoopState T
  | .first => { s with nTotal := s.nTotal + 1 }
  | .waiting => { s with nIdle := s.nIdle - 1 }
  | .busy b => { s with fAllOk := s.fAllOk && b.fOk, nTodo := s.nTodo - b.nNow }

/-- The number of checks that a thread takes. -/
def nNow (nBatchSize : ℕ) (s : LoopState T) : ℕ :=
  max 1 (min nBatchSize (s.queue.length / (s.nTotal + s.nIdle + 1)))

/-- The thread takes checks. -/
def take (nBatchSize : ℕ) (s : LoopState T) : LoopState T :=
  { s with
    queue := s.queue.drop (s.nNow nBatchSize)
    taken := s.taken ++ s.queue.take (s.nNow nBatchSize) }

/-- The batch that it takes. -/
def nextBatch (nBatchSize : ℕ) (s : LoopState T) : WorkerBatch T :=
  ⟨s.queue.take (s.nNow nBatchSize), s.nNow nBatchSize, s.fAllOk⟩

/-- What the threads share, as the abstract queue. -/
def toQueue (s : LoopState T) (done : List T) : CCheckQueue T :=
  ⟨s.queue, s.fAllOk, s.nTodo, s.threads.filterMap (·.2.batch?), done⟩

end LoopState

/-- The interleavings of the critical sections of `Loop`, `Add` and `Wait` and of the checks, over
any number of sessions, with the checks added since the last `Wait` returned. -/
inductive LoopRun (check : T → Bool) (nBatchSize n : ℕ) : List T → LoopState T → Prop
  /-- `StartWorkerThreads`. -/
  | start : LoopRun check nBatchSize n [] { threads := replicate n (false, .first) }
  | add {jobs s} (vChecks : List T) :
      LoopRun check nBatchSize n jobs s →
      LoopRun check nBatchSize n (jobs ++ vChecks) (s.add vChecks)
  | wait {jobs s} :
      LoopRun check nBatchSize n jobs s → (∀ t ∈ s.threads, t.1 = false) →
      LoopRun check nBatchSize n jobs { s with threads := (true, .first) :: s.threads }
  | sleep {jobs s pre post fMaster t} :
      LoopRun check nBatchSize n jobs s → s.threads = pre ++ (fMaster, t) :: post → t.Ready →
      (s.cleanUp t).queue = [] → ¬ (fMaster = true ∧ (s.cleanUp t).nTodo = 0) →
      LoopRun check nBatchSize n jobs { s.cleanUp t with
        nIdle := (s.cleanUp t).nIdle + 1, threads := pre ++ (fMaster, .waiting) :: post }
  | take {jobs s pre post fMaster t} :
      LoopRun check nBatchSize n jobs s → s.threads = pre ++ (fMaster, t) :: post → t.Ready →
      (s.cleanUp t).queue ≠ [] →
      LoopRun check nBatchSize n jobs { (s.cleanUp t).take nBatchSize with
        threads := pre ++ (fMaster, .busy ((s.cleanUp t).nextBatch nBatchSize)) :: post }
  /-- The master returns from `Wait`, with the value of `fAllOk` before it is reset. -/
  | leave {jobs s pre post t} :
      LoopRun check nBatchSize n jobs s → s.threads = pre ++ (true, t) :: post → t.Ready →
      (s.cleanUp t).queue = [] → (s.cleanUp t).nTodo = 0 →
      LoopRun check nBatchSize n [] { s.cleanUp t with
        nTotal := (s.cleanUp t).nTotal - 1, fAllOk := true, threads := pre ++ post, taken := [] }
  /-- A thread goes on to the next check of its batch, and runs it if none failed before. -/
  | check {jobs s pre post fMaster c cs nNow fOk} :
      LoopRun check nBatchSize n jobs s →
      s.threads = pre ++ (fMaster, .busy ⟨c :: cs, nNow, fOk⟩) :: post →
      LoopRun check nBatchSize n jobs
        { s with threads := pre ++ (fMaster, .busy ⟨cs, nNow, fOk && check c⟩) :: post }

/-- The invariant of the threads : what they share keeps that of the queue, and no check is lost. -/
structure LoopInv (check : T → Bool) (jobs : List T) (s : LoopState T) : Prop where
  queue : ∃ done, QueueInv check jobs (s.toQueue done)
  taken : jobs ~ s.queue ++ s.taken

section Threads

variable {check : T → Bool} {jobs : List T} {s : LoopState T}
  {pre post : List (Bool × LoopThread T)} {fMaster : Bool} {t : LoopThread T}
  {nBatchSize n : ℕ}

theorem LoopInv.cleanUp (h : LoopInv check jobs s)
    (hthreads : s.threads = pre ++ (fMaster, t) :: post) (hready : t.Ready) : LoopInv check jobs { s.cleanUp t with threads := pre ++ post } := by
  obtain ⟨done, hqueue⟩ := h.queue
  rw [LoopState.toQueue, hthreads, filterMap_append, filterMap_cons] at hqueue
  refine ⟨⟨done, ?_⟩, ?_⟩
  · cases t with
    | first | waiting => simpa [LoopState.toQueue, LoopState.cleanUp, LoopThread.batch?] using hqueue
    | busy b =>
      obtain ⟨vChecks, nNow, fOk⟩ := b
      obtain rfl : vChecks = [] := hready _ rfl
      simpa [LoopState.toQueue, LoopState.cleanUp] using hqueue.finish rfl
  · cases t <;> exact h.taken

theorem LoopInv.take (h : LoopInv check jobs { s with threads := pre ++ post })
    (hqueue : s.queue ≠ []) : LoopInv check jobs { s.take nBatchSize with
      threads := pre ++ (fMaster, .busy (s.nextBatch nBatchSize)) :: post } := by
  obtain ⟨done, hinv⟩ := h.queue
  rw [LoopState.toQueue, filterMap_append] at hinv
  have hle : s.nNow nBatchSize ≤ s.queue.length :=
    max_le (length_pos_iff.mpr hqueue) ((min_le_right _ _).trans (Nat.div_le_self _ _))
  refine ⟨⟨done, ?_⟩, ?_⟩
  · rw [LoopState.toQueue, filterMap_append, filterMap_cons]
    exact (hinv.take (lt_max_of_lt_left Nat.one_pos) hle).of_perm perm_middle
  · have hmoved := @perm_append_comm _ (s.queue.drop (s.nNow nBatchSize) ++ s.taken)
      (s.queue.take (s.nNow nBatchSize))
    rw [← append_assoc (List.take _ _), take_append_drop, append_assoc] at hmoved
    exact h.taken.trans hmoved.symm

theorem LoopRun.inv (h : LoopRun check nBatchSize n jobs s) : LoopInv check jobs s := by
  induction h with
  | start =>
    refine ⟨⟨[], ?_⟩, .rfl⟩
    simpa [LoopState.toQueue, LoopThread.batch?] using QueueInv.start
  | @add jobs s vChecks _ ih =>
    refine ⟨ih.queue.imp fun _ h => h.add vChecks, ?_⟩
    calc jobs ++ vChecks
      _ ~ s.queue ++ s.taken ++ vChecks.reverse := ih.taken.append (reverse_perm _).symm
      _ ~ vChecks.reverse ++ s.queue ++ s.taken := by
        rw [append_assoc vChecks.reverse]
        exact perm_append_comm
  | wait _ _ ih => exact ⟨ih.queue, ih.taken⟩
  | sleep _ hthreads hready _ _ ih =>
    obtain ⟨⟨done, hqueue⟩, htaken⟩ := ih.cleanUp hthreads hready
    rw [LoopState.toQueue, filterMap_append] at hqueue
    refine ⟨⟨done, ?_⟩, htaken⟩
    rwa [LoopState.toQueue, filterMap_append, filterMap_cons]
  | take _ hthreads hready hne ih => exact (ih.cleanUp hthreads hready).take hne
  | leave _ hthreads hready hnil htodo ih =>
    obtain ⟨done, hqueue⟩ := (ih.cleanUp hthreads hready).queue
    refine ⟨⟨[], ?_⟩, by rw [hnil, append_nil]⟩
    rw [LoopState.toQueue, show filterMap _ _ = [] from hqueue.batches_eq_nil ⟨hnil, htodo⟩, hnil,
      htodo]
    exact .start
  | @check _ _ _ _ _ c _ _ fOk _ hthreads ih =>
    obtain ⟨done, hqueue⟩ := ih.queue
    rw [LoopState.toQueue, hthreads, filterMap_append, filterMap_cons] at hqueue
    refine ⟨⟨if fOk && check c then done ++ [c] else done, ?_⟩, ih.taken⟩
    rw [LoopState.toQueue, filterMap_append, filterMap_cons]
    exact hqueue.next rfl

/-- Whenever `Wait` returns, with any number of threads, any batch size and any interleaving, it
returns whether every check added in the session succeeds, and each was taken off the queue once.
The queue is left as at the start, and what follows is a run again, so this holds in every session. -/
theorem parallel_checks_exact (hrun : LoopRun check nBatchSize n jobs s)
    (hthread : s.threads = pre ++ (true, t) :: post) (hready : t.Ready)
    (hqueue : (s.cleanUp t).queue = []) (htodo : (s.cleanUp t).nTodo = 0) :
    ((s.cleanUp t).fAllOk = true ↔ ∀ c ∈ jobs, check c = true) ∧ (s.cleanUp t).taken ~ jobs ∧
      ∃ s', LoopRun check nBatchSize n [] s' ∧ s'.threads = pre ++ post ∧
        s'.queue = [] ∧ s'.nTodo = 0 ∧ s'.fAllOk = true := by
  obtain ⟨⟨_, hinv⟩, htaken⟩ := hrun.inv.cleanUp hthread hready
  have hall : (s.cleanUp t).fAllOk = jobs.all check := hinv.wait_eq ⟨hqueue, htodo⟩
  rw [hqueue, nil_append] at htaken
  refine ⟨?_, htaken.symm, _, hrun.leave hthread hready hqueue htodo, rfl, hqueue, htodo, rfl⟩
  rw [hall, all_eq_true]

/-- The master runs a check that fails, and the worker has not started. -/
theorem parallel_checks_exact_alone : ∃ s : LoopState Bool, LoopRun id 128 1 [false] s ∧
    (s.cleanUp (.busy ⟨[], 1, false⟩)).fAllOk = false ∧
    (s.cleanUp (.busy ⟨[], 1, false⟩)).taken ~ [false] := by
  have hfirst : (LoopThread.first : LoopThread Bool).Ready := by rintro _ ⟨⟩
  have hready : (LoopThread.busy ⟨[], 1, false⟩ : LoopThread Bool).Ready := by rintro _ ⟨⟩; rfl
  have htaken := ((LoopRun.start.add [false] : LoopRun id 128 1 _ _).wait
    (by simp [LoopState.add])).take (nil_append _).symm hfirst (cons_ne_nil _ _)
  have hrun := htaken.check (nil_append _).symm
  exact ⟨_, hrun, rfl,
    (parallel_checks_exact hrun (nil_append _).symm hready rfl rfl).2.1⟩

end Threads

end RadiantCore

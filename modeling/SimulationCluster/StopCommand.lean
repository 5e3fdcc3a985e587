import SimulationCluster.ClientFlags

namespace SimulationCluster
open ByteText Transition

/-- The next `result++` ends the task, and its result is not taken for the
interrupt mark -1. -/
def Frame.lastRound (f : Frame) : Bool :=
  hasReachedEndpoint f.bump.input f.bump.result && f.bump.result != -1

/-- The worker asks for one more task, or clears `stop_flag` for one it has
asked for, and no longer tests `stop_flag` before that. -/
def WorkerPc.committed : WorkerPc → Bool
  | .sendReady | .recvTask | .resetStop _ | .sendResult _ _ => true
  | .testStart f | .testPause f | .increment f => f.lastRound
  | .writeStop f => f.result != -1
  | .returned _ result => result != -1
  | .waitStart _ | .testStop _ | .left _ => false

/-- From `p` on `stop_flag` stays 1 and the worker sends no further request. -/
def FinalFrom (p : Process) : Prop :=
  ∀ es q, run Process.step p es = some q →
    q.flags.stopFlag = 1 ∧ ∀ message, .worker (.request message) ∉ es

/-- A stop command that will not be lost. -/
structure Process.Stopped (p : Process) : Prop where
  main : p.main.afterStop = true
  start : p.flags.startFlag = 0
  stop : p.flags.stopFlag = 1
  worker : p.worker.committed = false

/-- The ends of a round keep a worker uncommitted. -/
theorem committed_increment {f : Frame} (h : (WorkerPc.increment f).committed = false) :
    (if hasReachedEndpoint f.bump.input f.bump.result then WorkerPc.writeStop f.bump
      else .testStop f.bump).committed = false := by
  split_ifs with hend
  · simpa [WorkerPc.committed, Frame.lastRound, hend] using h
  · rfl

theorem stopped_preserved {p q : Process} {e : Event} (hp : p.Stopped) (h : Process.Step p e q) :
    q.Stopped ∧ ∀ message, e ≠ .worker (.request message) := by
  obtain ⟨hmain, hstart, hstop, hworker⟩ := hp
  cases h
  case testAgain f w signal =>
    refine ⟨⟨?_, hstart, hstop, hworker⟩, by simp⟩
    rw [if_pos (by rw [hstop]; decide)]
    rfl
  case join f newTask => exact ⟨⟨rfl, hstart, hstop, rfl⟩, by simp⟩
  case waitStart f m g =>
    refine ⟨⟨hmain, hstart, hstop, ?_⟩, by simp⟩
    rw [if_pos hstart]
    rfl
  case roundStop f m g =>
    refine ⟨⟨hmain, hstart, hstop, ?_⟩, by simp⟩
    rw [if_pos (by rw [hstop]; decide)]
    rfl
  case roundStart f m g =>
    refine ⟨⟨hmain, hstart, hstop, ?_⟩, by simp⟩
    split_ifs <;> exact hworker
  case roundPause f m g =>
    refine ⟨⟨hmain, hstart, hstop, ?_⟩, by simp⟩
    split_ifs
    · rfl
    · exact hworker
  case increment f m g => exact ⟨⟨hmain, hstart, hstop, committed_increment hworker⟩, by simp⟩
  case writeStop f m g => exact ⟨⟨hmain, hstart, rfl, hworker⟩, by simp⟩
  case returned f m newTask result =>
    refine ⟨⟨hmain, hstart, hstop, ?_⟩, by simp⟩
    rw [if_pos (by simpa [WorkerPc.committed] using hworker)]
    rfl
  case sendReady | recvTask | resetStop | sendResult => cases hworker
  all_goals cases hmain

theorem finalFrom_of_stopped {p : Process} (hp : p.Stopped) : FinalFrom p := by
  intro es q hr
  have h := run_forall_labels (I := Process.Stopped) (P := fun _ _ => True)
    (Q := fun e => ∀ message, e ≠ .worker (.request message))
    (fun p e q hp _ he => stopped_preserved hp ((Process.step_eq_some_iff p q e).mp he))
    hp (along_of_forall _ _ _ fun _ _ _ => trivial) hr
  exact ⟨h.1.stop, fun message hmem => h.2 _ hmem message rfl⟩

theorem finalFrom_step {p q : Process} {e : Event} (h : Process.Step p e q) (hp : FinalFrom p) :
    FinalFrom q := by
  intro es r hr
  have hp := hp (e :: es) r ((run_cons_iff _ _ _ _ _).mpr ⟨q, Process.step_of_Step h, hr⟩)
  exact ⟨hp.1, fun message hmem => hp.2 message (List.mem_cons_of_mem e hmem)⟩

theorem not_finalFrom_resetStop (f : Flags) (m : MainPc) (newTask : Bytes) :
    ¬FinalFrom ⟨f, m, .resetStop newTask⟩ := by
  intro h
  have hq := finalFrom_step (.resetStop f m newTask) h [] _ rfl
  exact absurd hq.1 (show (0 : Int32) ≠ 1 by decide)

theorem not_finalFrom_sendReady (f : Flags) (m : MainPc) : ¬FinalFrom ⟨f, m, .sendReady⟩ := by
  intro h
  have hrun : run Process.step ⟨f, m, .sendReady⟩ [.worker (.request (ascii "ready"))] =
      some ⟨f, m, .recvTask⟩ :=
    (run_cons_iff _ _ _ _ _).mpr ⟨_, Process.step_of_Step (.sendReady f m), rfl⟩
  exact (h _ _ hrun).2 (ascii "ready") List.mem_cons_self

theorem not_finalFrom_returned (f : Flags) (m : MainPc) (newTask : Bytes) (result : Int32)
    (h : result ≠ -1) : ¬FinalFrom ⟨f, m, .returned newTask result⟩ := by
  intro hp
  have hq := finalFrom_step (.returned f m newTask result) hp
  rw [if_neg h] at hq
  exact not_finalFrom_sendReady f m (finalFrom_step (.sendResult f m newTask result) hq)

/-- The last round of a task, once past its stop test, goes on to the next task. -/
theorem not_finalFrom_increment (f : Flags) (m : MainPc) (g : Frame) (h : g.lastRound = true) :
    ¬FinalFrom ⟨f, m, .increment g⟩ := by
  intro hp
  simp only [Frame.lastRound, Bool.and_eq_true, bne_iff_ne] at h
  have hq := finalFrom_step (.increment f m g) hp
  rw [if_pos h.1] at hq
  exact not_finalFrom_returned _ m _ _ h.2 (finalFrom_step (.writeStop f m g.bump) hq)

theorem not_finalFrom_of_committed {p : Process} (hs : p.flags.startFlag = 0)
    (hz : p.flags.pauseFlag = 0) (hc : p.worker.committed = true) : ¬FinalFrom p := by
  obtain ⟨f, m, w⟩ := p
  dsimp only at hs hz hc
  cases w with
  | sendReady => exact not_finalFrom_sendReady f m
  | recvTask =>
    exact fun hp => not_finalFrom_resetStop f m [] (finalFrom_step (.recvTask f m []) hp)
  | resetStop newTask => exact not_finalFrom_resetStop f m newTask
  | sendResult newTask result =>
    exact fun hp =>
      not_finalFrom_sendReady f m (finalFrom_step (.sendResult f m newTask result) hp)
  | returned newTask result =>
    exact not_finalFrom_returned f m newTask result (by simpa [WorkerPc.committed] using hc)
  | writeStop g =>
    intro hp
    exact not_finalFrom_returned _ m _ _ (by simpa [WorkerPc.committed] using hc)
      (finalFrom_step (.writeStop f m g) hp)
  | increment g => exact not_finalFrom_increment f m g hc
  | testStart g =>
    intro hp
    have hq := finalFrom_step (.roundStart f m g) hp
    rw [if_neg (by rw [hs]; decide)] at hq
    exact not_finalFrom_increment f m g hc hq
  | testPause g =>
    intro hp
    have hq := finalFrom_step (.roundPause f m g) hp
    rw [if_neg (by rw [hz]; decide)] at hq
    exact not_finalFrom_increment f m g hc hq
  | waitStart | testStop | left => cases hc

/-- The third write of a stop command is final if and only if the worker is not
committed to a further task when it is made. -/
theorem stop_final_iff (pre : List Event) (p q : Process)
    (hp : run Process.step {} pre = some p) (hq : p.step (.main (.write .stopFlag 1)) = some q) :
    FinalFrom q ↔ p.worker.committed = false := by
  have hfit := (sound_of_run hp).fit
  obtain ⟨f, w, rfl, rfl⟩ := Process.step_stop hq
  constructor
  · intro h
    by_contra hc
    exact not_finalFrom_of_committed (p := ⟨{ f with stopFlag := 1 }, .testAgain .kStop, w⟩)
      hfit.1 hfit.2 (by simpa using hc) h
  · exact fun hc => finalFrom_of_stopped ⟨rfl, hfit.1, rfl, hc⟩

/-- A worker that is stopped at the top of its first round. -/
theorem stop_final_iff_first_round :
    FinalFrom ⟨⟨0, 0, 1⟩, .testAgain .kStop, .testStop (.enter (ascii "0"))⟩ :=
  (stop_final_iff
    (fetchTask (ascii "0") ++ [.worker (.write .stopFlag 0)] ++ assertIdle ++ startCommand ++
      [.worker (.read .startFlag 1)] ++ assertRunning ++ stopGate ++ stopClears)
    ⟨⟨0, 0, 0⟩, .stopStop, .testStop (.enter (ascii "0"))⟩ _ rfl rfl).mpr rfl

/-- The first task is received, started and stopped before the worker gets to
its reset: the reset then clears the stop. -/
theorem stop_lost_by_reset : ∃ p q r,
    run Process.step {} (fetchTask (ascii "0") ++ assertIdle ++ startCommand ++ assertRunning ++
      stopGate ++ stopClears) = some p ∧
    p.step (.main (.write .stopFlag 1)) = some q ∧
    run Process.step q [.worker (.write .stopFlag 0)] = some r ∧ r.flags.stopFlag = 0 ∧
    ¬FinalFrom q :=
  ⟨_, _, _, rfl, rfl, rfl, rfl,
    fun h => absurd (h [.worker (.write .stopFlag 0)] _ rfl).1 (by decide)⟩

end SimulationCluster

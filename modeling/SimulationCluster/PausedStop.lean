import SimulationCluster.ClientProgress

namespace SimulationCluster
open ByteText Transition

/-- In a round of `simulation`, not yet past its pause test. -/
def WorkerPc.beforePauseTest : WorkerPc → Bool
  | .testStop _ | .testStart _ | .testPause _ => true
  | _ => false

/-- A worker that makes no further increment: before its pause test, or interrupted. -/
def WorkerPc.heldBack : WorkerPc → Bool
  | .returned _ result => result == -1
  | .left _ => true
  | w => w.beforePauseTest

/-- The pause test reads `start_flag` before the first write of the stop command, and
`pause_flag` before the second. -/
def pauseTestInTime (p : Process) : Event → Bool
  | .main _ => true
  | .worker _ =>
    match p.worker with
    | .testStart _ => p.main == .switch .kStop
    | .testPause _ => p.main == .switch .kStop || p.main == .stopPause
    | _ => true

/-- A client that is paused with its worker before the pause test, and whose `main`
is about to execute a stop command. -/
structure Process.PausedAtStop (p : Process) : Prop where
  start : p.flags.startFlag = 1
  pause : p.flags.pauseFlag = 1
  worker : p.worker.beforePauseTest = true
  main : p.main = .switch .kStop

/-- (`start_flag`, `pause_flag`) of a paused client while `main` executes a stop command. -/
def MainPc.stopFlags : MainPc → Option (Int32 × Int32)
  | .switch .kStop => some (1, 1)
  | .stopPause => some (0, 1)
  | .stopStop | .testAgain .kStop | .join | .joinHeartbeat => some (0, 0)
  | _ => none

/-- A paused client that a stop command is stopping, or has stopped. -/
structure Process.HeldStop (p : Process) : Prop where
  flags : p.main.stopFlags = some (p.flags.startFlag, p.flags.pauseFlag)
  written : p.main = .testAgain .kStop → p.flags.stopFlag ≠ 0
  worker : p.worker.heldBack = true

theorem heldBack_of_beforePauseTest {w : WorkerPc} (h : w.beforePauseTest = true) :
    w.heldBack = true := by
  cases w <;> first | exact h | cases h

theorem heldStop_of_paused {p : Process} (hp : p.PausedAtStop) : p.HeldStop := by
  refine ⟨?_, ?_, heldBack_of_beforePauseTest hp.worker⟩
  · rw [hp.main, hp.start, hp.pause]
    rfl
  · rw [hp.main]
    nofun

/-- A read of the pause test sees 1 exactly when it is in time. -/
theorem stopFlags_iff {m : MainPc} {s z : Int32} (h : m.stopFlags = some (s, z)) :
    (s = 1 ↔ (m == .switch .kStop) = true) ∧
      (z = 1 ↔ (m == .switch .kStop || m == .stopPause) = true) := by
  cases m with
  | switch signal | testAgain signal =>
    cases signal <;> cases h
    decide
  | _ => cases h <;> decide

theorem heldStop_step {p q : Process} {e : Event} (hp : p.HeldStop)
    (hc : pauseTestInTime p e = true) (h : Process.Step p e q) :
    q.HeldStop ∧ e.isIncrement = false ∧ ∀ line, e ≠ .worker (.push line) := by
  obtain ⟨hflags, hwritten, hworker⟩ := hp
  cases h
  case stopStart f w =>
    have hz : 1 = f.pauseFlag := (Prod.mk.inj (Option.some.inj hflags)).2
    refine ⟨⟨?_, nofun, hworker⟩, rfl, by simp⟩
    rw [← hz]
    rfl
  case stopPause f w =>
    have hs : 0 = f.startFlag := (Prod.mk.inj (Option.some.inj hflags)).1
    refine ⟨⟨?_, nofun, hworker⟩, rfl, by simp⟩
    rw [← hs]
    rfl
  case stopStop f w =>
    exact ⟨⟨hflags, fun _ => (by decide : (1 : Int32) ≠ 0), hworker⟩, rfl, by simp⟩
  case testAgain f w signal =>
    cases signal
    case kStop =>
      rw [if_pos (hwritten rfl)]
      exact ⟨⟨hflags, nofun, hworker⟩, rfl, by simp⟩
    all_goals cases hflags
  case join f newTask => exact ⟨⟨hflags, nofun, rfl⟩, rfl, by simp⟩
  case roundStop f m g =>
    refine ⟨⟨hflags, hwritten, ?_⟩, rfl, by simp⟩
    split_ifs <;> rfl
  case roundStart f m g =>
    refine ⟨⟨hflags, hwritten, ?_⟩, rfl, by simp⟩
    rw [if_pos ((stopFlags_iff hflags).1.mpr hc)]
    rfl
  case roundPause f m g =>
    refine ⟨⟨hflags, hwritten, ?_⟩, rfl, by simp⟩
    rw [if_pos ((stopFlags_iff hflags).2.mpr hc)]
    rfl
  case returned f m newTask result =>
    refine ⟨⟨hflags, hwritten, ?_⟩, rfl, by simp⟩
    rw [if_pos (beq_iff_eq.mp hworker)]
    rfl
  case sendReady | recvTask | resetStop | waitStart | increment | writeStop | sendResult =>
    cases hworker
  all_goals cases hflags

theorem heldStop_of_run {p q : Process} {es : List Event} (hp : p.PausedAtStop)
    (hr : run Process.step p es = some q)
    (hc : Along Process.step (fun p e => pauseTestInTime p e) p es) :
    q.HeldStop ∧ ∀ e ∈ es, e.isIncrement = false ∧ ∀ line, e ≠ .worker (.push line) :=
  run_forall_labels (P := fun p e => pauseTestInTime p e)
    (fun p e q hp hc he => heldStop_step hp hc ((Process.step_eq_some_iff p q e).mp he))
    (heldStop_of_paused hp) hc hr

/-- Stopping a paused client does not let it run, as long as the worker makes no read of
its pause test after the write that clears the flag. -/
theorem paused_stop_holds (p q : Process) (es : List Event) (hp : p.PausedAtStop)
    (hr : run Process.step p es = some q)
    (hc : Along Process.step (fun p e => pauseTestInTime p e) p es) :
    es.countP Event.isIncrement = 0 ∧ (∀ line, .worker (.push line) ∉ es) ∧
      ∀ newTask result, q.worker = .returned newTask result → result = -1 := by
  obtain ⟨hheld, hes⟩ := heldStop_of_run hp hr hc
  refine ⟨List.countP_eq_zero.mpr fun e he => ?_, fun line hmem => (hes _ hmem).2 line rfl, ?_⟩
  · rw [(hes e he).1]
    decide
  · intro newTask result hw
    have hback := hheld.worker
    rw [hw] at hback
    exact beq_iff_eq.mp hback

/-- A first task that is paused, and the receipt of the stop command. -/
def pausedTask : List Event :=
  fetchTask (ascii "0") ++ [.worker (.write .stopFlag 0)] ++ assertIdle ++ startCommand ++
    [.worker (.read .startFlag 1)] ++ assertRunning ++ pauseCommand ++ assertRunning ++ stopGate

/-- The worker reads `start_flag` before the first write of a stop command, `pause_flag`
between the first two, and `stop_flag` after the last. -/
def stopAroundRound : List Event :=
  [.worker (.read .stopFlag 0), .worker (.read .startFlag 1), .main (.write .startFlag 0),
    .worker (.read .pauseFlag 1), .main (.write .pauseFlag 0), .main (.write .stopFlag 1),
    .worker (.read .stopFlag 1), .worker .tau, .main (.read .stopFlag 1), .main .join]

theorem paused_stop_holds_around : ∃ p q, run Process.step {} pausedTask = some p ∧
    run Process.step p stopAroundRound = some q ∧ stopAroundRound.countP Event.isIncrement = 0 ∧
    ∀ line, .worker (.push line) ∉ stopAroundRound := by
  have h := paused_stop_holds ⟨⟨1, 1, 0⟩, .switch .kStop, .testStop (.enter (ascii "0"))⟩ _
    stopAroundRound ⟨rfl, rfl, rfl, rfl⟩ rfl (by decide)
  exact ⟨_, _, rfl, rfl, h.1, h.2.1⟩

/-- The worker tests `stop_flag` before the stop command and `start_flag` after its
first write: the paused task moves on. -/
theorem paused_stop_increments : ∃ p q, run Process.step {} pausedTask = some p ∧
    p.PausedAtStop ∧
    run Process.step p [.worker (.read .stopFlag 0), .main (.write .startFlag 0),
      .worker (.read .startFlag 0), .worker .increment] = some q ∧
    q.worker = .testStop (.after (ascii "0") 1) :=
  ⟨_, _, rfl, ⟨rfl, rfl, rfl, rfl⟩, rfl, rfl⟩

/-- The condition is needed: after the first read that is too late the worker's next step
is an increment. -/
theorem increment_of_late_read {p q r : Process} {es : List Event} {e : Event}
    (hp : p.PausedAtStop) (hr : run Process.step p es = some q)
    (hc : Along Process.step (fun p e => pauseTestInTime p e) p es)
    (he : q.step e = some r) (hlate : pauseTestInTime q e = false) :
    ∃ u, r.step (.worker .increment) = some u := by
  have hflags := (heldStop_of_run hp hr hc).1.flags
  have hstep := (Process.step_eq_some_iff q r e).mp he
  cases hstep <;> try cases hlate
  case roundStart f m g =>
    have hs : ¬f.startFlag = 1 := fun hs =>
      Bool.false_ne_true (hlate.symm.trans ((stopFlags_iff hflags).1.mp hs))
    rw [if_neg hs]
    exact ⟨_, Process.step_of_Step (.increment f m g)⟩
  case roundPause f m g =>
    have hz : ¬f.pauseFlag = 1 := fun hz =>
      Bool.false_ne_true (hlate.symm.trans ((stopFlags_iff hflags).2.mp hz))
    rw [if_neg hz]
    exact ⟨_, Process.step_of_Step (.increment f m g)⟩

/-- No such state is safe under every interleaving: each has one in which the worker makes
an increment after the first write of the stop command and before the last. -/
theorem paused_stop_unsafe {past : List Event} {p : Process}
    (hr : run Process.step {} past = some p) (hp : p.PausedAtStop) :
    ∃ pre post q, run Process.step p (pre ++ .worker .increment :: post) = some q ∧
      .main (.write .startFlag 0) ∈ pre ∧ .main (.write .stopFlag 1) ∉ pre ∧
      .main (.write .stopFlag 1) ∈ post := by
  have hsound := sound_of_run hr
  obtain ⟨⟨s, z, x⟩, m, w⟩ := p
  obtain ⟨hs, hz, hw, hm⟩ := hp
  dsimp only at hs hz hw hm
  subst hs hz hm
  have hstop (hin : w.inSimulation = true) : x = 0 := by
    by_contra hx
    cases (hsound.stopped hin hx).1
  cases w with
  | testStop g =>
    obtain rfl := hstop rfl
    exact ⟨[.worker (.read .stopFlag 0), .main (.write .startFlag 0),
      .worker (.read .startFlag 0)], [.main (.write .pauseFlag 0), .main (.write .stopFlag 1)],
      _, rfl, by decide, by decide, by decide⟩
  | testStart g =>
    exact ⟨[.main (.write .startFlag 0), .worker (.read .startFlag 0)],
      [.main (.write .pauseFlag 0), .main (.write .stopFlag 1)],
      _, rfl, by decide, by decide, by decide⟩
  | testPause g =>
    exact ⟨[.main (.write .startFlag 0), .main (.write .pauseFlag 0),
      .worker (.read .pauseFlag 0)], [.main (.write .stopFlag 1)],
      _, rfl, by decide, by decide, by decide⟩
  | _ => cases hw

theorem paused_stop_unsafe_first : ∃ pre post q,
    run Process.step ⟨⟨1, 1, 0⟩, .switch .kStop, .testStop (.enter (ascii "0"))⟩
      (pre ++ .worker .increment :: post) = some q ∧
    .main (.write .startFlag 0) ∈ pre ∧ .main (.write .stopFlag 1) ∉ pre ∧
    .main (.write .stopFlag 1) ∈ post := by
  have hr : run Process.step {} pausedTask =
      some ⟨⟨1, 1, 0⟩, .switch .kStop, .testStop (.enter (ascii "0"))⟩ := rfl
  exact paused_stop_unsafe hr ⟨rfl, rfl, rfl, rfl⟩

end SimulationCluster

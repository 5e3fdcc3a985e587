import SimulationCluster.StopCommand
import SimulationCluster.SimulationRounds

namespace SimulationCluster
open ByteText Transition

/-- Some continuation makes `simulation_wrap` return. -/
def CanLeave (p : Process) : Prop := CanReach Process.step (fun q => q.worker.hasLeft = true) p

/-- In `while (!start_flag)`. -/
def WorkerPc.spinning : WorkerPc → Bool
  | .waitStart _ => true
  | _ => false

/-- The task in hand ends with the interrupt mark -1 without another test of a flag. -/
def WorkerPc.endsMarked : WorkerPc → Bool
  | .left _ => true
  | .returned _ result => result == -1
  | .writeStop f => f.result == -1
  | .increment f => hasReachedEndpoint f.bump.input f.bump.result && f.bump.result == -1
  | _ => false

/-- `main` has cleared `start_flag` in a stop command and will leave its loop. -/
def Process.stopping (p : Process) : Bool :=
  match p.main with
  | .stopPause | .stopStop => true
  | .testAgain .kStop => p.flags.stopFlag != 0
  | _ => false

/-- The states from which the worker has a way out. While `main` is in its loop only a
worker that spins under a stop has none. Once `main` has left, the flags are final:
with `start_flag` = 0 the worker must be on its way to a stop test, with both flags 1
it must be past its pause test in a task whose result is -1, and a worker that runs on
leaves only through such a task. -/
def Process.exitOpen (p : Process) : Bool :=
  if p.main.gone then
    if p.flags.startFlag = 0 then !p.worker.committed && !p.worker.spinning
    else p.flags.pauseFlag == 0 || p.worker.endsMarked
  else !(p.worker.spinning && p.stopping)

theorem canLeave_of_step {p q : Process} {e : Event} (h : Process.Step p e q)
    (hq : CanLeave q) : CanLeave p :=
  canReach_of_step (Process.step_of_Step h) hq

section WorkerAlone

variable {f : Flags} {m : MainPc}

theorem canLeave_left (newTask : Bytes) : CanLeave ⟨f, m, .left newTask⟩ := canReach_self rfl

theorem canLeave_returned_mark (newTask : Bytes) : CanLeave ⟨f, m, .returned newTask (-1)⟩ :=
  canLeave_of_step (.returned f m newTask (-1)) (canLeave_left newTask)

theorem canLeave_testStop (g : Frame) (h : f.stopFlag ≠ 0) : CanLeave ⟨f, m, .testStop g⟩ := by
  apply canLeave_of_step (.roundStop f m g)
  rw [if_pos h]
  exact canLeave_returned_mark g.newTask

theorem canLeave_returned {newTask : Bytes} {result : Int32}
    (h : CanLeave ⟨f, m, .sendReady⟩) : CanLeave ⟨f, m, .returned newTask result⟩ := by
  apply canLeave_of_step (.returned f m newTask result)
  split_ifs
  · exact canLeave_left newTask
  · exact canLeave_of_step (.sendResult f m newTask result) h

end WorkerAlone

/-- A worker that is not spinning gets, on its own, to a stop test under the present
flags or to `while (!start_flag)` after its reset, unless it leaves. -/
theorem canLeave_of_parked {s z x : Int32} {m : MainPc} {w : WorkerPc} (hw : w.Counts)
    (hspin : w.spinning = false)
    (hT : ∀ newTask k, k < 10 → CanLeave ⟨⟨s, z, x⟩, m, .testStop (.after newTask k)⟩)
    (hW : ∀ newTask, CanLeave ⟨⟨s, z, 0⟩, m, .waitStart (.after newTask 0)⟩) :
    CanLeave ⟨⟨s, z, x⟩, m, w⟩ := by
  have hreset (x : Int32) (newTask : Bytes) : CanLeave ⟨⟨s, z, x⟩, m, .resetStop newTask⟩ := by
    apply canLeave_of_step (.resetStop _ m newTask)
    rw [enter_eq_after]
    exact hW newTask
  have hrecv (x : Int32) : CanLeave ⟨⟨s, z, x⟩, m, .recvTask⟩ :=
    canLeave_of_step (.recvTask _ m []) (hreset x [])
  have hready (x : Int32) : CanLeave ⟨⟨s, z, x⟩, m, .sendReady⟩ :=
    canLeave_of_step (.sendReady _ m) (hrecv x)
  have hwrite (g : Frame) : CanLeave ⟨⟨s, z, x⟩, m, .writeStop g⟩ :=
    canLeave_of_step (.writeStop _ m g) (canLeave_returned (hready 1))
  have hincr (newTask : Bytes) (k : ℕ) (hk : k < 10) :
      CanLeave ⟨⟨s, z, x⟩, m, .increment (.after newTask k)⟩ := by
    apply canLeave_of_step (.increment _ m _)
    rw [next_increment_onInput newTask (atoi newTask) k hk]
    split_ifs with h9
    · exact hwrite _
    · exact hT newTask (k+1) (by omega)
  have hpause (newTask : Bytes) (k : ℕ) (hk : k < 10) :
      CanLeave ⟨⟨s, z, x⟩, m, .testPause (.after newTask k)⟩ := by
    apply canLeave_of_step (.roundPause _ m _)
    split_ifs
    · exact hT newTask k hk
    · exact hincr newTask k hk
  cases w with
  | sendReady => exact hready x
  | recvTask => exact hrecv x
  | resetStop newTask => exact hreset x newTask
  | waitStart g => cases hspin
  | testStop g =>
    obtain ⟨newTask, k, hk, rfl⟩ := hw
    exact hT newTask k hk
  | testStart g =>
    obtain ⟨newTask, k, hk, rfl⟩ := hw
    apply canLeave_of_step (.roundStart _ m _)
    split_ifs
    · exact hpause newTask k hk
    · exact hincr newTask k hk
  | testPause g =>
    obtain ⟨newTask, k, hk, rfl⟩ := hw
    exact hpause newTask k hk
  | increment g =>
    obtain ⟨newTask, k, hk, rfl⟩ := hw
    exact hincr newTask k hk
  | writeStop g => exact hwrite g
  | returned newTask result => exact canLeave_returned (hready x)
  | sendResult newTask result => exact canLeave_of_step (.sendResult _ m _ _) (hready x)
  | left newTask => exact canLeave_left newTask

/-- The worker waits at a stop test or for `start_flag`. -/
def WorkerPc.parked : WorkerPc → Bool
  | .waitStart _ | .testStop _ => true
  | _ => false

/-- A stop command from the dispatch on, with the worker at its stop test. -/
theorem canLeave_switch_stop {f : Flags} {w : WorkerPc} (hs : f.startFlag = 1)
    (hw : w.parked = true) : CanLeave ⟨f, .switch .kStop, w⟩ := by
  have hT (g : Frame) : CanLeave ⟨f, .switch .kStop, .testStop g⟩ := by
    apply canLeave_of_step (.stopStart f _)
    apply canLeave_of_step (.stopPause _ _)
    apply canLeave_of_step (.stopStop _ _)
    exact canLeave_testStop g (by decide : (1 : Int32) ≠ 0)
  cases w with
  | testStop g => exact hT g
  | waitStart g =>
    apply canLeave_of_step (.waitStart f _ g)
    rw [if_neg (by rw [hs]; decide)]
    exact hT g
  | _ => cases hw

/-- `main` at its receive with `stop_flag` 0 can be told to stop, after a start if
it is idle. -/
theorem canLeave_listen {s z : Int32} {w : WorkerPc} (hset : Settled s z)
    (hw : w.parked = true) : CanLeave ⟨⟨s, z, 0⟩, .listen, w⟩ := by
  have hrun (z : Int32) : CanLeave ⟨⟨1, z, 0⟩, .listen, w⟩ := by
    have hgate : run Process.step ⟨⟨1, z, 0⟩, .listen, w⟩ stopGate =
        some ⟨⟨1, z, 0⟩, .switch .kStop, w⟩ := rfl
    exact canReach_of_run hgate (canLeave_switch_stop rfl hw)
  rcases hset with ⟨rfl, rfl⟩ | ⟨rfl, rfl⟩ | ⟨rfl, rfl⟩
  · have hstart : run Process.step ⟨⟨0, 0, 0⟩, .listen, w⟩ startCommand =
        some ⟨⟨1, 0, 0⟩, .assertStart, w⟩ := rfl
    apply canReach_of_run hstart
    exact canLeave_of_step (.assertStart _ w) (hrun 0)
  · exact hrun 0
  · exact hrun 1

theorem canLeave_assertStart {s z : Int32} {w : WorkerPc} (hset : Settled s z)
    (hw : w.parked = true) : CanLeave ⟨⟨s, z, 0⟩, .assertStart, w⟩ := by
  apply canLeave_of_step (.assertStart _ w)
  split_ifs with hs
  · dsimp only at hs
    subst hs
    obtain rfl : z = 0 := by
      rcases hset with ⟨-, hz⟩ | ⟨hs, -⟩ | ⟨hs, -⟩
      · exact hz
      · exact absurd hs (by decide)
      · exact absurd hs (by decide)
    exact canLeave_of_step (.assertPause _ w) (canLeave_listen hset hw)
  · exact canLeave_listen hset hw

theorem canLeave_testAgain {s z : Int32} {w : WorkerPc} (signal : SignalSet)
    (hset : Settled s z) (hw : w.parked = true) :
    CanLeave ⟨⟨s, z, 0⟩, .testAgain signal, w⟩ :=
  canLeave_of_step (.testAgain _ w signal) (canLeave_assertStart hset hw)

theorem canLeave_switch {s z : Int32} {w : WorkerPc} {signal : SignalSet}
    (hfit : (MainPc.switch signal).FlagsFit s z) (hw : w.parked = true) :
    CanLeave ⟨⟨s, z, 0⟩, .switch signal, w⟩ := by
  have hsw := switch_flags hfit
  cases signal with
  | kStart =>
    obtain ⟨rfl, rfl⟩ := hsw
    exact canLeave_of_step (.start _ w) (canLeave_testAgain _ (.inr (.inl ⟨rfl, rfl⟩)) hw)
  | kStop => exact canLeave_switch_stop hsw.1 hw
  | kPause =>
    obtain ⟨rfl, rfl⟩ := hsw
    exact canLeave_of_step (.pause _ w) (canLeave_testAgain _ (.inr (.inr ⟨rfl, rfl⟩)) hw)
  | kContinue =>
    obtain ⟨rfl, rfl⟩ := hsw
    exact canLeave_of_step (.goOn _ w) (canLeave_testAgain _ (.inr (.inl ⟨rfl, rfl⟩)) hw)
  | kUnknow => exact hsw.elim

theorem canLeave_gatePause {s z : Int32} {w : WorkerPc} {signal : SignalSet}
    (hfit : (MainPc.gatePause signal).FlagsFit s z) (hw : w.parked = true) :
    CanLeave ⟨⟨s, z, 0⟩, .gatePause signal, w⟩ := by
  apply canLeave_of_step (.gatePause _ w signal)
  have hnext := fit_afterPauseFlag hfit
  rcases afterPauseFlag_cases hfit with ⟨hgate, -⟩ | hgate
  · rw [hgate]
    exact canLeave_assertStart hfit.1 hw
  · rw [hgate] at hnext ⊢
    exact canLeave_switch hnext hw

theorem canLeave_gateStart {s z : Int32} {w : WorkerPc} {signal : SignalSet}
    (hset : Settled s z) (hw : w.parked = true) :
    CanLeave ⟨⟨s, z, 0⟩, .gateStart signal, w⟩ := by
  apply canLeave_of_step (.gateStart _ w signal)
  have hnext : (MainPc.afterStartFlag signal s).FlagsFit s z := fit_afterStartFlag hset
  rcases afterStartFlag_cases signal s with ⟨hgate, -⟩ | hgate | hgate
  · rw [hgate]
    exact canLeave_assertStart hset hw
  · rw [hgate] at hnext ⊢
    exact canLeave_gatePause hnext hw
  · rw [hgate] at hnext ⊢
    exact canLeave_switch hnext hw

/-- With `stop_flag` 0 and `main` in its loop, a parked worker can be let out. -/
theorem canLeave_parked {s z : Int32} {m : MainPc} {w : WorkerPc} (hfit : m.FlagsFit s z)
    (hgone : m.gone = false) (hstopping : (⟨⟨s, z, 0⟩, m, w⟩ : Process).stopping = false)
    (hw : w.parked = true) : CanLeave ⟨⟨s, z, 0⟩, m, w⟩ := by
  cases m with
  | assertStart => exact canLeave_assertStart hfit hw
  | assertPause =>
    obtain ⟨rfl, rfl⟩ := hfit
    exact canLeave_of_step (.assertPause _ w) (canLeave_listen (.inl ⟨rfl, rfl⟩) hw)
  | listen => exact canLeave_listen hfit hw
  | testStop signal =>
    apply canLeave_of_step (.testStop _ w signal)
    rw [if_neg (not_not.mpr rfl)]
    split_ifs
    · exact canLeave_assertStart hfit hw
    · exact canLeave_gateStart hfit hw
  | gateStart signal => exact canLeave_gateStart hfit hw
  | gatePause signal => exact canLeave_gatePause hfit hw
  | switch signal => exact canLeave_switch hfit hw
  | testAgain signal =>
    have hset : Settled s z := by
      cases signal
      case kStop => exact .inl hfit
      all_goals exact hfit
    exact canLeave_testAgain signal hset hw
  | stopPause | stopStop => cases hstopping
  | join | joinHeartbeat => cases hgone
  | aborted => exact hfit.elim

theorem canLeave_written {x : Int32} {w : WorkerPc} (hx : x ≠ 0) (hw : w.Counts)
    (hspin : w.spinning = false) : CanLeave ⟨⟨0, 0, x⟩, .testAgain .kStop, w⟩ := by
  apply canLeave_of_parked hw hspin
  · intro newTask k _
    exact canLeave_testStop _ hx
  · intro newTask
    exact canLeave_testAgain _ (.inl ⟨rfl, rfl⟩) rfl

theorem canLeave_of_stopping {p : Process} (hp : p.Sound) (hw : p.worker.Counts)
    (hstopping : p.stopping = true) (hspin : p.worker.spinning = false) : CanLeave p := by
  obtain ⟨⟨s, z, x⟩, m, w⟩ := p
  have hfit := hp.fit
  have hone : (1 : Int32) ≠ 0 := by decide
  cases m with
  | stopPause =>
    obtain rfl : s = 0 := hfit.1
    apply canLeave_of_step (.stopPause _ w)
    exact canLeave_of_step (.stopStop _ w) (canLeave_written hone hw hspin)
  | stopStop =>
    obtain ⟨rfl, rfl⟩ : s = 0 ∧ z = 0 := hfit
    exact canLeave_of_step (.stopStop _ w) (canLeave_written hone hw hspin)
  | testAgain signal =>
    cases signal
    case kStop =>
      obtain ⟨rfl, rfl⟩ : s = 0 ∧ z = 0 := hfit
      exact canLeave_written (bne_iff_ne.mp hstopping) hw hspin
    all_goals cases hstopping
  | _ => cases hstopping

theorem stopping_of_reset {s z x : Int32} {m : MainPc} {w : WorkerPc}
    (h : (⟨⟨s, z, x⟩, m, w⟩ : Process).stopping = false) (w' : WorkerPc) :
    (⟨⟨s, z, 0⟩, m, w'⟩ : Process).stopping = false := by
  cases m with
  | stopPause | stopStop => cases h
  | testAgain signal => cases signal <;> rfl
  | _ => rfl

/-- While `main` is in its loop the worker can be let out, unless it spins under a stop. -/
theorem canLeave_of_not_gone {p : Process} (hp : p.Sound) (hw : p.worker.Counts)
    (hgone : p.main.gone = false) (hopen : (p.worker.spinning && p.stopping) = false) :
    CanLeave p := by
  by_cases hstopping : p.stopping = true
  · exact canLeave_of_stopping hp hw hstopping (by simpa [hstopping] using hopen)
  obtain ⟨⟨s, z, x⟩, m, w⟩ := p
  have hnot := Bool.eq_false_iff.mpr hstopping
  have hparked (w : WorkerPc) (h : w.parked = true) : CanLeave ⟨⟨s, z, 0⟩, m, w⟩ :=
    canLeave_parked hp.fit hgone (stopping_of_reset hnot w) h
  by_cases hspin : w.spinning = true
  · obtain rfl : x = 0 := by
      by_contra hx
      have hsim : w.inSimulation = true := by
        cases w with
        | waitStart g => rfl
        | _ => cases hspin
      have hafter := (hp.stopped hsim hx).1
      cases m with
      | testAgain signal =>
        cases signal
        case kStop => exact hx (by simpa [Process.stopping] using hnot)
        all_goals cases hafter
      | join | joinHeartbeat => cases hgone
      | _ => cases hafter
    apply hparked
    cases w with
    | waitStart g => rfl
    | _ => cases hspin
  · apply canLeave_of_parked hw (Bool.eq_false_iff.mpr hspin)
    · intro newTask k _
      by_cases hx : x = 0
      · subst hx
        exact hparked _ rfl
      · exact canLeave_testStop _ hx
    · exact fun newTask => hparked _ rfl

/-- A task on whose completion the worker goes on to leave can be run to its end. -/
theorem canLeave_rounds {m : MainPc} (newTask : Bytes) (k : ℕ) (hk : k < 10)
    (h : CanLeave ⟨⟨1, 0, 1⟩, m, .returned newTask (Frame.after newTask 10).result⟩) :
    CanLeave ⟨⟨1, 0, 0⟩, m, .testStop (.after newTask k)⟩ := by
  apply canReach_of_run (run_workRounds m newTask k (9-k) (by omega))
  have hlast := run_workRound m newTask (k+(9-k)) (by omega)
  rw [if_pos (by omega)] at hlast
  apply canReach_of_run hlast
  exact canLeave_of_step (.writeStop _ m _) h

/-- A task text whose result is the interrupt mark. -/
def markTask : Bytes := ascii "-11"

theorem result_markTask : (Frame.after markTask 10).result = -1 := by decide

/-- A running worker that nothing will stop leaves through a task whose result is -1. -/
theorem canLeave_running {m : MainPc} {x : Int32} {w : WorkerPc} (hw : w.Counts) :
    CanLeave ⟨⟨1, 0, x⟩, m, w⟩ := by
  -- ten increments take -11 to the mark
  have hmark : CanLeave ⟨⟨1, 0, 0⟩, m, .testStop (.after markTask 0)⟩ := by
    apply canLeave_rounds markTask 0 (by decide)
    rw [result_markTask]
    exact canLeave_returned_mark markTask
  have hready : CanLeave ⟨⟨1, 0, 1⟩, m, .sendReady⟩ := by
    apply canLeave_of_step (.sendReady _ m)
    apply canLeave_of_step (.recvTask _ m markTask)
    apply canLeave_of_step (.resetStop _ m markTask)
    rw [enter_eq_after]
    exact canLeave_of_step (.waitStart _ m _) hmark
  have hT (newTask : Bytes) (k : ℕ) (hk : k < 10) :
      CanLeave ⟨⟨1, 0, x⟩, m, .testStop (.after newTask k)⟩ := by
    by_cases hx : x = 0
    · subst hx
      exact canLeave_rounds newTask k hk (canLeave_returned hready)
    · exact canLeave_testStop _ hx
  have hW (newTask : Bytes) : CanLeave ⟨⟨1, 0, 0⟩, m, .waitStart (.after newTask 0)⟩ :=
    canLeave_of_step (.waitStart _ m _)
      (canLeave_rounds newTask 0 (by decide) (canLeave_returned hready))
  cases hspin : w.spinning with
  | false => exact canLeave_of_parked hw hspin hT hW
  | true =>
    cases w with
    | waitStart g =>
      obtain ⟨newTask, rfl⟩ := hw
      exact canLeave_of_step (.waitStart _ m _) (hT newTask 0 (by decide))
    | _ => cases hspin

theorem canLeave_endsMarked {f : Flags} {m : MainPc} {w : WorkerPc} (h : w.endsMarked = true) :
    CanLeave ⟨f, m, w⟩ := by
  have hwrite (f : Flags) (g : Frame) (hg : g.result = -1) : CanLeave ⟨f, m, .writeStop g⟩ := by
    apply canLeave_of_step (.writeStop f m g)
    rw [hg]
    exact canLeave_returned_mark g.newTask
  cases w with
  | left newTask => exact canLeave_left newTask
  | returned newTask result =>
    obtain rfl : result = -1 := beq_iff_eq.mp h
    exact canLeave_returned_mark newTask
  | writeStop g => exact hwrite f g (beq_iff_eq.mp h)
  | increment g =>
    simp only [WorkerPc.endsMarked, Bool.and_eq_true, beq_iff_eq] at h
    apply canLeave_of_step (.increment f m g)
    rw [if_pos h.1]
    exact hwrite f _ h.2
  | _ => cases h

/-- With `main` gone and both flags 0, a worker that will still test `stop_flag` leaves. -/
theorem canLeave_gone_idle {x : Int32} {m : MainPc} {w : WorkerPc}
    (hx : w.inRound = true → x ≠ 0) (hc : w.committed = false) (hspin : w.spinning = false) :
    CanLeave ⟨⟨0, 0, x⟩, m, w⟩ := by
  have hincr (g : Frame) (hg : (WorkerPc.increment g).committed = false) (hx : x ≠ 0) :
      CanLeave ⟨⟨0, 0, x⟩, m, .increment g⟩ := by
    by_cases hend : hasReachedEndpoint g.bump.input g.bump.result = true
    · apply canLeave_endsMarked
      simpa [WorkerPc.committed, Frame.lastRound, WorkerPc.endsMarked, hend] using hg
    · apply canLeave_of_step (.increment _ m g)
      rw [if_neg hend]
      exact canLeave_testStop _ hx
  cases w with
  | testStop g => exact canLeave_testStop g (hx rfl)
  | testStart g => exact canLeave_of_step (.roundStart _ m g) (hincr g hc (hx rfl))
  | testPause g => exact canLeave_of_step (.roundPause _ m g) (hincr g hc (hx rfl))
  | increment g => exact hincr g hc (hx rfl)
  | writeStop g =>
    exact canLeave_endsMarked (by simpa [WorkerPc.committed, WorkerPc.endsMarked] using hc)
  | returned newTask result =>
    exact canLeave_endsMarked (by simpa [WorkerPc.committed, WorkerPc.endsMarked] using hc)
  | left newTask => exact canLeave_left newTask
  | sendReady | recvTask | resetStop | sendResult => cases hc
  | waitStart => cases hspin

end SimulationCluster

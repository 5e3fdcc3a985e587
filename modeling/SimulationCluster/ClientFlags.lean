import SimulationCluster.ClientThreads

namespace SimulationCluster
open Transition

/-- The pairs (`start_flag`, `pause_flag`) between two commands. -/
def Settled (s p : Int32) : Prop := (s = 0 ∧ p = 0) ∨ (s = 1 ∧ p = 0) ∨ (s = 1 ∧ p = 1)

/-- The values of `start_flag` and `pause_flag` at each point of `main`. A stop
command passes through the unsettled pair (0, 1). -/
def MainPc.FlagsFit : MainPc → Int32 → Int32 → Prop
  | .assertPause, s, p => s = 0 ∧ p = 0
  | .gatePause signal, s, p => Settled s p ∧
    ((signal = .kStart ∧ s = 0) ∨ ((signal = .kPause ∨ signal = .kContinue) ∧ s = 1))
  | .switch signal, s, p => Settled s p ∧ isIrrelevant signal s p = false
  | .stopPause, s, p => s = 0 ∧ (p = 0 ∨ p = 1)
  | .stopStop, s, p => s = 0 ∧ p = 0
  | .testAgain .kStop, s, p => s = 0 ∧ p = 0
  | .aborted, _, _ => False
  | _, s, p => Settled s p

/-- `main` is past its command loop. -/
def MainPc.gone : MainPc → Bool
  | .join | .joinHeartbeat => true
  | _ => false

/-- `main` is past the last write of a stop command that it has not lost. -/
def MainPc.afterStop : MainPc → Bool
  | .testAgain .kStop | .join | .joinHeartbeat => true
  | _ => false

/-- Inside the second loop of `simulation`, before its end. -/
def WorkerPc.inRound : WorkerPc → Bool
  | .testStop _ | .testStart _ | .testPause _ | .increment _ => true
  | _ => false

/-- In one of the two loops of `simulation`. -/
def WorkerPc.inSimulation : WorkerPc → Bool
  | .waitStart _ => true
  | w => w.inRound

/-- What holds of the flags in every reachable state of a client. -/
structure Process.Sound (p : Process) : Prop where
  fit : p.main.FlagsFit p.flags.startFlag p.flags.pauseFlag
  stopBit : p.flags.stopFlag = 0 ∨ p.flags.stopFlag = 1
  /-- between its reset and the end of its task the worker sees only `main`'s stop -/
  stopped : p.worker.inSimulation → p.flags.stopFlag ≠ 0 →
    p.main.afterStop ∧ p.flags.startFlag = 0
  /-- a round goes on after `main` has left with `start_flag` = 0 only under a stop -/
  goneRound : p.main.gone → p.worker.inRound → p.flags.startFlag = 0 → p.flags.stopFlag ≠ 0

theorem sound_init : Process.Sound {} := by
  constructor <;> simp [MainPc.FlagsFit, Settled, MainPc.gone, WorkerPc.inSimulation, WorkerPc.inRound]

/-- The gate of the command loop lets a signal through exactly when
`is_irrelevant` is false of the flags. -/
theorem afterFlags_eq_switch_iff (signal : SignalSet) (s p : Int32) (h : signal ≠ .kUnknow) :
    (MainPc.afterStartFlag signal s = .switch signal ∨
      (MainPc.afterStartFlag signal s = .gatePause signal ∧
        MainPc.afterPauseFlag signal p = .switch signal)) ↔ isIrrelevant signal s p = false := by
  cases signal <;>
    simp only [MainPc.afterStartFlag, MainPc.afterPauseFlag, isIrrelevant] at * <;>
    split_ifs <;> simp_all

theorem fit_afterStartFlag {signal : SignalSet} {s p : Int32} (h : Settled s p) :
    (MainPc.afterStartFlag signal s).FlagsFit s p := by
  cases signal <;> simp only [MainPc.afterStartFlag]
  case kStop =>
    split_ifs with hs
    · exact ⟨h, by simp [isIrrelevant, hs]⟩
    · exact h
  case kUnknow => exact h
  all_goals
    split_ifs with hs
    · exact ⟨h, by simp [hs]⟩
    · exact h

theorem fit_afterPauseFlag {signal : SignalSet} {s p : Int32}
    (h : (MainPc.gatePause signal).FlagsFit s p) : (MainPc.afterPauseFlag signal p).FlagsFit s p := by
  obtain ⟨hset, hsig⟩ := h
  rcases hsig with ⟨rfl, hs⟩ | ⟨rfl | rfl, hs⟩
  all_goals
    simp only [MainPc.afterPauseFlag]
    split_ifs with hp
    · exact ⟨hset, by simp [isIrrelevant, hs, hp]⟩
    · exact hset

theorem afterStartFlag_cases (signal : SignalSet) (s : Int32) :
    (MainPc.afterStartFlag signal s = .assertStart ∧ ∀ p, isIrrelevant signal s p = true) ∨
    MainPc.afterStartFlag signal s = .gatePause signal ∨
    MainPc.afterStartFlag signal s = .switch signal := by
  cases signal <;> simp only [MainPc.afterStartFlag]
  case kUnknow => exact .inl ⟨trivial, fun _ => rfl⟩
  all_goals
    split_ifs with hs
    · simp
    · exact .inl ⟨rfl, by simp [isIrrelevant, hs]⟩

theorem afterPauseFlag_cases {signal : SignalSet} {s p : Int32}
    (h : (MainPc.gatePause signal).FlagsFit s p) :
    (MainPc.afterPauseFlag signal p = .assertStart ∧ isIrrelevant signal s p = true) ∨
    MainPc.afterPauseFlag signal p = .switch signal := by
  rcases h.2 with ⟨rfl, hs⟩ | ⟨rfl | rfl, hs⟩
  all_goals
    simp only [MainPc.afterPauseFlag]
    split_ifs with hp
    · exact .inr rfl
    · exact .inl ⟨rfl, by simp [isIrrelevant, hp]⟩

theorem switch_flags {signal : SignalSet} {s p : Int32} (h : (MainPc.switch signal).FlagsFit s p) :
    match signal with
    | .kStart => s = 0 ∧ p = 0
    | .kPause => s = 1 ∧ p = 0
    | .kStop => s = 1 ∧ (p = 0 ∨ p = 1)
    | .kContinue => s = 1 ∧ p = 1
    | .kUnknow => False := by
  obtain ⟨hset, hsig⟩ := h
  cases signal <;> simp only [isIrrelevant, reduceCtorEq, false_and, true_and, ↓reduceIte] at hsig ⊢
  case kStop =>
    have hs : s = 1 := by simpa using hsig
    rcases hset with ⟨hs0, _⟩ | ⟨_, hp⟩ | ⟨_, hp⟩
    · exact absurd (hs.symm.trans hs0) (by decide)
    · exact ⟨hs, .inl hp⟩
    · exact ⟨hs, .inr hp⟩
  all_goals simpa using hsig

theorem fit_step {p q : Process} {e : Event} (h : Process.Step p e q)
    (hp : p.main.FlagsFit p.flags.startFlag p.flags.pauseFlag) :
    q.main.FlagsFit q.flags.startFlag q.flags.pauseFlag := by
  cases h <;> dsimp only at hp ⊢
  case gateStart f w signal => exact fit_afterStartFlag hp
  case gatePause f w signal => exact fit_afterPauseFlag hp
  case assertStart f w =>
    split_ifs with hs
    · rcases hp with hp | hp | hp
      · exact hp
      · exact absurd (hs.symm.trans hp.1) (by decide)
      · exact absurd (hs.symm.trans hp.1) (by decide)
    · exact hp
  case assertPause f w =>
    rw [if_neg (by rw [hp.2]; decide)]
    exact .inl hp
  case testStop f w signal => split_ifs <;> exact hp
  case testAgain f w signal =>
    have hset : Settled f.startFlag f.pauseFlag := by
      cases signal
      case kStop => exact .inl hp
      all_goals exact hp
    split_ifs <;> exact hset
  case start f w => exact .inr (.inl ⟨rfl, (switch_flags hp).2⟩)
  case goOn f w => exact .inr (.inl ⟨(switch_flags hp).1, rfl⟩)
  case pause f w => exact .inr (.inr ⟨(switch_flags hp).1, rfl⟩)
  case stopStart f w => exact ⟨rfl, (switch_flags hp).2⟩
  case stopPause f w => exact ⟨hp.1, rfl⟩
  case unknown f w => exact (switch_flags hp).elim
  all_goals exact hp

theorem stopBit_step {p q : Process} {e : Event} (h : Process.Step p e q)
    (hp : p.flags.stopFlag = 0 ∨ p.flags.stopFlag = 1) :
    q.flags.stopFlag = 0 ∨ q.flags.stopFlag = 1 := by
  cases h
  case resetStop => exact .inl rfl
  case stopStop | writeStop => exact .inr rfl
  all_goals exact hp

theorem stopped_step {p q : Process} {e : Event} (hp : p.Sound) (h : Process.Step p e q)
    (hw : q.worker.inSimulation) (hs : q.flags.stopFlag ≠ 0) :
    q.main.afterStop ∧ q.flags.startFlag = 0 := by
  have hold := hp.stopped
  have hfit := hp.fit
  cases h
  case testAgain f w signal =>
    rw [if_pos hs]
    exact ⟨rfl, (hold hw hs).2⟩
  case stopStop f w => exact ⟨rfl, hfit.1⟩
  case resetStop f m newTask => exact absurd rfl hs
  case waitStart | roundStop | roundStart | roundPause | increment => exact hold rfl hs
  case returned f m newTask result => split_ifs at hw <;> cases hw
  case join | sendReady | recvTask | sendResult | writeStop => cases hw
  all_goals exact absurd (hold hw hs).1 (by simp [MainPc.afterStop])

@[simp] theorem gone_afterStartFlag (signal : SignalSet) (v : Int32) :
    (MainPc.afterStartFlag signal v).gone = false := by
  cases signal <;> simp only [MainPc.afterStartFlag]
  case kUnknow => rfl
  all_goals split_ifs <;> rfl

@[simp] theorem gone_afterPauseFlag (signal : SignalSet) (v : Int32) :
    (MainPc.afterPauseFlag signal v).gone = false := by
  cases signal <;> simp only [MainPc.afterPauseFlag]
  case kStop | kUnknow => rfl
  all_goals split_ifs <;> rfl

theorem goneRound_step {p q : Process} {e : Event} (hp : p.Sound) (h : Process.Step p e q)
    (hg : q.main.gone) (hw : q.worker.inRound) (hs : q.flags.startFlag = 0) :
    q.flags.stopFlag ≠ 0 := by
  have hold := hp.goneRound
  cases h
  case testStop f w signal =>
    intro hstop
    rw [if_neg (not_not.mpr hstop)] at hg
    split_ifs at hg <;> cases hg
  case testAgain f w signal =>
    intro hstop
    rw [if_neg (not_not.mpr hstop)] at hg
    cases hg
  case waitStart f m g =>
    rw [if_pos hs] at hw
    cases hw
  case roundStop | roundStart | roundPause | increment => exact hold hg rfl hs
  case returned f m newTask result => split_ifs at hw <;> cases hw
  case assertStart | assertPause => split_ifs at hg <;> cases hg
  case gateStart | gatePause => simp at hg
  case sendReady | recvTask | sendResult | writeStop | resetStop | join => cases hw
  all_goals cases hg

theorem sound_step {p q : Process} {e : Event} (hp : p.Sound) (h : Process.Step p e q) :
    q.Sound :=
  ⟨fit_step h hp.fit, stopBit_step h hp.stopBit, stopped_step hp h, goneRound_step hp h⟩

theorem sound_of_run {es : List Event} {p : Process} (h : run Process.step {} es = some p) :
    p.Sound :=
  run_invariant (fun p e q hp he => sound_step hp ((Process.step_eq_some_iff p q e).mp he))
    sound_init h

/-- Only a stop command clears `start_flag` before `pause_flag`. -/
theorem unsettled_fit {m : MainPc} {s p : Int32} (h : m.FlagsFit s p) (hs : s = 0) (hp : p = 1) :
    m = .stopPause := by
  subst hs hp
  have hsettled : ¬Settled 0 1 := by simp [Settled]
  cases m with
  | stopPause => rfl
  | assertPause | stopStop => exact absurd h.2 (by decide)
  | gatePause signal | switch signal => exact absurd h.1 hsettled
  | testAgain signal =>
    cases signal
    case kStop => exact absurd h.2 (by decide)
    all_goals exact absurd h hsettled
  | aborted => exact h.elim
  | _ => exact absurd h hsettled

/-- The assert at the head of the command loop never fails: `main` does not abort, the
pair (0, 1) is not there while the assert reads it, and it is there at all only between
the first two writes of a stop command. -/
theorem assert_holds (es : List Event) (p : Process) (h : run Process.step {} es = some p) :
    p.main ≠ .aborted ∧
    (p.main = .assertStart ∨ p.main = .assertPause →
      ¬(p.flags.startFlag = 0 ∧ p.flags.pauseFlag = 1)) ∧
    (p.flags.startFlag = 0 ∧ p.flags.pauseFlag = 1 → p.main = .stopPause) := by
  have hfit := (sound_of_run h).fit
  refine ⟨?_, ?_, fun hz => unsettled_fit hfit hz.1 hz.2⟩
  · intro hm
    rw [hm] at hfit
    exact hfit
  · rintro hm ⟨hs, hp⟩
    have hstop := unsettled_fit hfit hs hp
    rcases hm with hm | hm <;> cases hm.symm.trans hstop

/-- A client that is started, paused and told to stop, up to the first write of the stop. -/
def pausedStopping : List Event :=
  assertIdle ++ startCommand ++ assertRunning ++ pauseCommand ++ assertRunning ++ stopGate ++
    [.main (.write .startFlag 0)]

theorem assert_holds_stopping : ∃ p, run Process.step {} pausedStopping = some p ∧
    p.flags.startFlag = 0 ∧ p.flags.pauseFlag = 1 ∧ p.main = .stopPause :=
  ⟨⟨⟨0, 1, 0⟩, .stopPause, .sendReady⟩, rfl, rfl, rfl,
    (assert_holds pausedStopping _ rfl).2.2 ⟨rfl, rfl⟩⟩

end SimulationCluster

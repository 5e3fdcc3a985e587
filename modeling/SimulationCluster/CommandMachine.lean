import SimulationCluster.SimulationRounds

namespace SimulationCluster
open ByteText Transition

inductive CommandState
  | idle | running | paused | stopped
  deriving DecidableEq

/-- The reference machine: what a received string does to it. -/
def CommandState.receive (r : CommandState) (message : Bytes) : CommandState :=
  match r with
  | .idle => if message = ascii "start" then .running else .idle
  | .running =>
    if message = ascii "pause" then .paused
    else if message = ascii "stop" then .stopped else .running
  | .paused =>
    if message = ascii "continue" then .running
    else if message = ascii "stop" then .stopped else .paused
  | .stopped => .stopped

/-- The reference machine reads only the receives of `main`. -/
def CommandState.next (r : CommandState) : Event → CommandState
  | .main (.recv message) => r.receive message
  | _ => r

/-- (`start_flag`, `pause_flag`) in a state of the reference machine. -/
def CommandState.flags : CommandState → Int32 × Int32
  | .idle | .stopped => (0, 0)
  | .running => (1, 0)
  | .paused => (1, 1)

/-- `main` is about to receive, or has left its loop. -/
def MainPc.observed (m : MainPc) : Prop := m = .listen ∨ m.gone = true

/-- The client shows the state `r` of the reference machine. -/
structure Process.Shows (p : Process) (r : CommandState) : Prop where
  flags : p.main.observed → (p.flags.startFlag, p.flags.pauseFlag) = r.flags
  left : p.main.observed → (p.main.gone ↔ r = .stopped)

/-- When `main` tests `stop_flag`, it is set if and only if `main` has just set it
in a stop command. -/
def testsOwnStop (p : Process) : Event → Bool
  | .worker _ => true
  | .main _ =>
    match p.main with
    | .testStop _ => p.flags.stopFlag == 0
    | .testAgain signal => (p.flags.stopFlag != 0) == (signal == .kStop)
    | _ => true

/-- The reference machine on a signal. -/
def CommandState.signal : CommandState → SignalSet → CommandState
  | .idle, .kStart => .running
  | .running, .kPause => .paused
  | .paused, .kContinue => .running
  | .running, .kStop | .paused, .kStop => .stopped
  | r, _ => r

theorem receive_eq_signal (r : CommandState) (message : Bytes) :
    r.receive message = r.signal (listenFromServer message) := by
  have h1 : ascii "pause" ≠ ascii "start" := by decide
  have h2 : ascii "stop" ≠ ascii "start" := by decide
  have h3 : ascii "stop" ≠ ascii "pause" := by decide
  have h4 : ascii "continue" ≠ ascii "start" := by decide
  have h5 : ascii "continue" ≠ ascii "pause" := by decide
  have h6 : ascii "continue" ≠ ascii "stop" := by decide
  unfold CommandState.receive listenFromServer
  cases r <;> dsimp only <;> split_ifs <;> simp_all [CommandState.signal]

/-- `is_irrelevant` lets a signal through exactly when the machine moves on it. -/
theorem isIrrelevant_iff_signal {r : CommandState} (h : r ≠ .stopped) (signal : SignalSet) :
    isIrrelevant signal r.flags.1 r.flags.2 = true ↔ r.signal signal = r := by
  cases r <;> cases signal <;> first | decide | exact absurd rfl h

/-- How the flags follow the machine at each point of `main`. From the receive to
the write that acts on it the flags are those of the state `r₀` before the message. -/
def MainPc.Tracks (m : MainPc) (s p : Int32) (r : CommandState) : Prop :=
  match m with
  | .assertStart | .assertPause | .listen => r ≠ .stopped ∧ (s, p) = r.flags
  | .testStop signal | .gateStart signal | .gatePause signal | .switch signal =>
    ∃ r₀, r₀ ≠ CommandState.stopped ∧ (s, p) = r₀.flags ∧ r = r₀.signal signal
  | .stopPause | .stopStop => r = .stopped
  | .testAgain .kStop | .join | .joinHeartbeat => r = .stopped ∧ (s, p) = (0, 0)
  | .testAgain _ => r ≠ .stopped ∧ (s, p) = r.flags
  | .aborted => False

theorem tracks_of_irrelevant {signal : SignalSet} {s p : Int32} {r : CommandState}
    (h : (MainPc.gateStart signal).Tracks s p r) (hi : isIrrelevant signal s p = true) :
    MainPc.assertStart.Tracks s p r := by
  obtain ⟨r₀, hne, hflags, rfl⟩ := h
  have hsame : r₀.signal signal = r₀ := by
    rw [← isIrrelevant_iff_signal hne, ← hflags]
    exact hi
  rw [hsame]
  exact ⟨hne, hflags⟩

theorem tracks_switch {signal : SignalSet} {s p : Int32} {r : CommandState}
    (hfit : (MainPc.switch signal).FlagsFit s p) (h : (MainPc.switch signal).Tracks s p r) :
    match signal with
    | .kStart => r = .running
    | .kPause => r = .paused
    | .kStop => r = .stopped
    | .kContinue => r = .running
    | .kUnknow => False := by
  obtain ⟨r₀, hne, hflags, rfl⟩ := h
  have hsw := switch_flags hfit
  cases r₀
  case stopped => exact absurd rfl hne
  all_goals
    obtain ⟨rfl, rfl⟩ := Prod.mk.inj hflags
    cases signal <;> simp_all [CommandState.signal]

theorem tracks_step {p q : Process} {e : Event} {r : CommandState}
    (hfit : p.main.FlagsFit p.flags.startFlag p.flags.pauseFlag)
    (hp : p.main.Tracks p.flags.startFlag p.flags.pauseFlag r) (hc : testsOwnStop p e)
    (h : Process.Step p e q) :
    q.main.Tracks q.flags.startFlag q.flags.pauseFlag (r.next e) := by
  cases h <;> dsimp only at hfit hp hc ⊢
  case assertStart f w => split_ifs <;> exact hp
  case assertPause f w =>
    rw [if_neg (by rw [hfit.2]; decide)]
    exact hp
  case listen f w command => exact ⟨r, hp.1, hp.2, receive_eq_signal r command⟩
  case testStop f w signal =>
    have hstop : f.stopFlag = 0 := beq_iff_eq.mp hc
    rw [if_neg (not_not.mpr hstop)]
    split_ifs with hsig
    · exact tracks_of_irrelevant hp (by rw [hsig]; rfl)
    · exact hp
  case gateStart f w signal =>
    rcases afterStartFlag_cases signal f.startFlag with ⟨hgate, hi⟩ | hgate | hgate
    · rw [hgate]
      exact tracks_of_irrelevant hp (hi _)
    · rw [hgate]
      exact hp
    · rw [hgate]
      exact hp
  case gatePause f w signal =>
    rcases afterPauseFlag_cases hfit with ⟨hgate, hi⟩ | hgate
    · rw [hgate]
      exact tracks_of_irrelevant hp hi
    · rw [hgate]
      exact hp
  case start f w =>
    obtain rfl : r = .running := tracks_switch hfit hp
    have hf := switch_flags hfit
    exact ⟨by decide, by rw [hf.2]; rfl⟩
  case goOn f w =>
    obtain rfl : r = .running := tracks_switch hfit hp
    have hf := switch_flags hfit
    exact ⟨by decide, by rw [hf.1]; rfl⟩
  case pause f w =>
    obtain rfl : r = .paused := tracks_switch hfit hp
    have hf := switch_flags hfit
    exact ⟨by decide, by rw [hf.1]; rfl⟩
  case stopStart f w =>
    obtain rfl : r = .stopped := tracks_switch hfit hp
    rfl
  case stopPause f w => exact hp
  case stopStop f w => exact ⟨hp, by rw [hfit.1, hfit.2]⟩
  case unknown f w => exact (switch_flags hfit).elim
  case testAgain f w signal =>
    have hb : (f.stopFlag != 0) = (signal == .kStop) := beq_iff_eq.mp hc
    have hc : f.stopFlag ≠ 0 ↔ signal = .kStop := by rw [← bne_iff_ne, hb, beq_iff_eq]
    by_cases hsig : signal = .kStop
    · have hstop : f.stopFlag ≠ 0 := hc.mpr hsig
      subst hsig
      rw [if_pos hstop]
      exact hp
    · have hstop : ¬f.stopFlag ≠ 0 := fun h => hsig (hc.mp h)
      rw [if_neg hstop]
      cases signal
      case kStop => exact absurd rfl hsig
      all_goals exact hp
  all_goals exact hp

theorem tracks_of_run {es : List Event} {p : Process} (hr : run Process.step {} es = some p)
    (hc : Along Process.step (fun p e => testsOwnStop p e) {} es) :
    p.main.FlagsFit p.flags.startFlag p.flags.pauseFlag ∧
      p.main.Tracks p.flags.startFlag p.flags.pauseFlag (es.foldl CommandState.next .idle) :=
  run_simulation
    (R := fun p r => p.main.FlagsFit p.flags.startFlag p.flags.pauseFlag ∧
      p.main.Tracks p.flags.startFlag p.flags.pauseFlag r) CommandState.next
    (fun p r e q hp hc he => by
      have hstep := (Process.step_eq_some_iff p q e).mp he
      exact ⟨fit_step hstep hp.1, tracks_step hp.1 hp.2 hc hstep⟩)
    (a := .idle) ⟨sound_init.fit, by decide, rfl⟩ hc hr

theorem shows_of_tracks {p : Process} {r : CommandState}
    (ht : p.main.Tracks p.flags.startFlag p.flags.pauseFlag r) : p.Shows r := by
  obtain ⟨f, m, w⟩ := p
  constructor <;> rintro (rfl | hg)
  · exact ht.2
  · cases m <;> cases hg
    all_goals
      rw [ht.1]
      exact ht.2
  · exact ⟨fun h => (by cases h), fun h => absurd h ht.1⟩
  · cases m <;> cases hg
    all_goals exact ⟨fun _ => ht.1, fun _ => rfl⟩

/-- While every test of `stop_flag` by `main` sees what `main` itself wrote last, the
command loop refines the command machine under any interleaving with the worker. -/
theorem command_loop_refines (es : List Event) (p : Process)
    (hr : run Process.step {} es = some p)
    (hc : Along Process.step (fun p e => testsOwnStop p e) {} es) :
    p.Shows (es.foldl CommandState.next .idle) :=
  shows_of_tracks (tracks_of_run hr hc).2

/-- The worker finishes a task, and resets `stop_flag` for the next, between the tests of
`stop_flag` for a start and for a pause; then `main` receives a stop. -/
def taskBetweenTests : List Event :=
  fetchTask (ascii "0") ++ [.worker (.write .stopFlag 0)] ++ assertIdle ++ startCommand ++
    assertRunning ++ [.worker (.read .startFlag 1)] ++
    finishTask (ascii "result of task 0 is: 10") ++ fetchTask (ascii "1") ++
    [.worker (.write .stopFlag 0), .worker (.read .startFlag 1)] ++ pauseCommand ++
    assertRunning ++ stopGate ++ stopClears ++ [.main (.write .stopFlag 1), .main (.read .stopFlag 1)]

set_option maxRecDepth 2000 in
theorem command_loop_refines_stop : ∃ p, run Process.step {} taskBetweenTests = some p ∧
    p.main = .join ∧ p.Shows .stopped :=
  ⟨_, rfl, rfl, command_loop_refines taskBetweenTests _ rfl (by decide)⟩

/-- The first task ends, and a pause command arrives before the next one. -/
def pauseAfterTask : List Event :=
  fetchTask (ascii "0") ++ [.worker (.write .stopFlag 0)] ++ assertIdle ++ startCommand ++
    assertRunning ++ [.worker (.read .startFlag 1)] ++ (List.replicate 10 workRound).flatten ++
    [.worker (.write .stopFlag 1), .main (.recv (ascii "pause")), .main (.read .stopFlag 1)]

/-- The end of a task makes `main` drop a command and leave its loop. -/
theorem pause_dropped_after_task : ∃ p, run Process.step {} pauseAfterTask = some p ∧
    p.main = .join ∧ pauseAfterTask.foldl CommandState.next .idle = .paused ∧
    ¬p.Shows (pauseAfterTask.foldl CommandState.next .idle) :=
  ⟨_, rfl, rfl, rfl, fun h => absurd (h.flags (.inr rfl)) (by decide)⟩

/-- The condition is needed: once a test of `stop_flag` sees a value that `main` did
not mean, the refinement fails at once or after the next assert. -/
theorem refinement_fails_of_test {es : List Event} {p q : Process} {e : Event}
    (hr : run Process.step {} es = some p)
    (hc : Along Process.step (fun p e => testsOwnStop p e) {} es)
    (he : p.step e = some q) (hbad : testsOwnStop p e = false) :
    ∃ fs r, run Process.step q fs = some r ∧
      ¬r.Shows ((es ++ e :: fs).foldl CommandState.next .idle) := by
  obtain ⟨hfit, ht⟩ := tracks_of_run hr hc
  simp only [List.foldl_append, List.foldl_cons]
  generalize es.foldl CommandState.next .idle = r at ht
  have hstep := (Process.step_eq_some_iff p q e).mp he
  cases hstep <;> try cases hbad
  case testStop f w signal =>
    have hstop : f.stopFlag ≠ 0 := by simpa [testsOwnStop] using hbad
    obtain ⟨r₀, hne, hflags, rfl⟩ := ht
    refine ⟨[], _, rfl, fun hshows => ?_⟩
    rw [if_pos hstop] at hshows
    -- `main` left before the message took effect: even for a stop the flags are still up
    have hr : r₀.signal signal = .stopped := (hshows.left (.inr rfl)).mp rfl
    have hf : (f.startFlag, f.pauseFlag) = (r₀.signal signal).flags := hshows.flags (.inr rfl)
    rw [hflags, hr] at hf
    revert hf hr hne
    cases r₀ <;> cases signal <;> decide
  case testAgain f w signal =>
    by_cases hsig : signal = .kStop
    · subst hsig
      have hstop : ¬f.stopFlag ≠ 0 := by simpa [testsOwnStop] using hbad
      rw [if_neg hstop]
      have hassert : run Process.step ⟨f, .assertStart, w⟩ assertIdle =
          some ⟨f, .listen, w⟩ := by
        obtain ⟨s, p, x⟩ := f
        obtain ⟨rfl, rfl⟩ : s = 0 ∧ p = 0 := hfit
        rfl
      refine ⟨assertIdle, _, hassert, fun hshows => ?_⟩
      exact absurd ((hshows.left (.inl rfl)).mpr ht.1) Bool.false_ne_true
    · have hstop : f.stopFlag ≠ 0 := by
        have hkstop : (signal == SignalSet.kStop) = false := beq_false_of_ne hsig
        simpa [testsOwnStop, hkstop] using hbad
      refine ⟨[], _, rfl, fun hshows => ?_⟩
      rw [if_pos hstop] at hshows
      have hstopped : r = .stopped := (hshows.left (.inr rfl)).mp rfl
      cases signal
      case kStop => exact hsig rfl
      all_goals exact ht.1 hstopped

/-- The command loop follows the command machine up to the first test of `stop_flag` that
sees a value `main` did not mean, and that test can end it. -/
theorem refinement_until_test {es : List Event} {p : Process}
    (hr : run Process.step {} es = some p)
    (hc : Along Process.step (fun p e => testsOwnStop p e) {} es) :
    p.Shows (es.foldl CommandState.next .idle) ∧
      ∀ e q, p.step e = some q → testsOwnStop p e = false →
        ∃ fs r, run Process.step q fs = some r ∧
          ¬r.Shows ((es ++ e :: fs).foldl CommandState.next .idle) :=
  ⟨shows_of_tracks (tracks_of_run hr hc).2, fun _ _ => refinement_fails_of_test hr hc⟩

/-- The test for a pause reads the end of the first task for a stop. -/
theorem refinement_until_test_pause : ∃ p q fs r,
    run Process.step {} pauseAfterTask.dropLast = some p ∧
    p.Shows (pauseAfterTask.dropLast.foldl CommandState.next .idle) ∧
    p.step (.main (.read .stopFlag 1)) = some q ∧ run Process.step q fs = some r ∧
    ¬r.Shows ((pauseAfterTask.dropLast ++ .main (.read .stopFlag 1) :: fs).foldl
      CommandState.next .idle) := by
  have hrun : run Process.step {} pauseAfterTask.dropLast =
      some ⟨⟨1, 0, 1⟩, .testStop .kPause, .returned (ascii "0") 10⟩ := rfl
  obtain ⟨hshows, hfails⟩ := refinement_until_test hrun (by decide)
  obtain ⟨fs, r, hfs, hr⟩ := hfails (.main (.read .stopFlag 1)) _ rfl rfl
  exact ⟨_, _, fs, r, rfl, hshows, rfl, hfs, hr⟩

end SimulationCluster

import SimulationCluster.WorkerExit

namespace SimulationCluster
open ByteText Transition

/-- The worker spins on `start_flag`, and `main` will not set it any more. -/
def Process.Stranded (p : Process) : Prop :=
  p.worker.spinning = true ∧ p.flags.startFlag = 0 ∧ (p.stopping = true ∨ p.main.gone = true)

/-- `main` has left with both flags 0, and the worker will not test `stop_flag`. -/
def Process.Idled (p : Process) : Prop :=
  p.main.gone = true ∧ p.flags.startFlag = 0 ∧ p.flags.pauseFlag = 0 ∧
    (p.worker.committed = true ∨ p.worker.spinning = true)

/-- `main` has left a pause behind, and no stop. -/
def Process.LeftPaused (p : Process) : Prop :=
  p.main.gone = true ∧ p.flags.startFlag = 1 ∧ p.flags.pauseFlag = 1 ∧
    p.worker.endsMarked = false ∧ (p.worker.inSimulation = true → p.flags.stopFlag = 0)

/-- States that no step leaves, and in which the worker has not left. -/
theorem not_canLeave_of_closed {D : Process → Prop}
    (hstep : ∀ p q e, D p → Process.Step p e q → D q)
    (hleft : ∀ f m newTask, ¬D ⟨f, m, .left newTask⟩) {p : Process} (hp : D p) : ¬CanLeave p := by
  refine not_canReach_of_closed
    (fun p e q hp he => hstep p q e hp ((Process.step_eq_some_iff p q e).mp he)) ?_ hp
  rintro ⟨f, m, w⟩ hp hw
  cases w with
  | left newTask => exact hleft f m newTask hp
  | _ => cases hw

theorem stranded_step {p q : Process} {e : Event} (hp : p.Stranded) (h : Process.Step p e q) :
    q.Stranded := by
  obtain ⟨hspin, hs, hm⟩ := hp
  cases h
  case stopPause | stopStop => exact ⟨hspin, hs, .inl rfl⟩
  case testAgain f w signal =>
    have hx : f.stopFlag ≠ 0 := by
      rcases hm with hm | hm
      · cases signal
        case kStop => exact bne_iff_ne.mp hm
        all_goals cases hm
      · cases hm
    rw [if_pos hx]
    exact ⟨hspin, hs, .inr rfl⟩
  case waitStart f m g =>
    rw [if_pos hs]
    exact ⟨rfl, hs, hm⟩
  case sendReady | recvTask | resetStop | roundStop | roundStart | roundPause | increment |
      writeStop | returned | sendResult | join => cases hspin
  all_goals rcases hm with hm | hm <;> cases hm

theorem not_canLeave_stranded {p : Process} (hp : p.Stranded) : ¬CanLeave p := by
  refine not_canLeave_of_closed (fun _ _ _ => stranded_step) ?_ hp
  intro f m newTask hleft
  cases hleft.1

/-- The last rounds keep a committed worker committed while both flags are 0. -/
theorem committed_of_lastRound {g : Frame} (h : g.lastRound = true) :
    (if hasReachedEndpoint g.bump.input g.bump.result then WorkerPc.writeStop g.bump
      else .testStop g.bump).committed = true := by
  simp only [Frame.lastRound, Bool.and_eq_true] at h
  rw [if_pos h.1]
  exact h.2

theorem idled_step {p q : Process} {e : Event} (hp : p.Idled) (h : Process.Step p e q) :
    q.Idled := by
  obtain ⟨hgone, hs, hz, hw⟩ := hp
  cases h
  case sendReady | recvTask => exact ⟨hgone, hs, hz, .inl rfl⟩
  case resetStop => exact ⟨hgone, hs, hz, .inr rfl⟩
  case waitStart f m g =>
    rw [if_pos hs]
    exact ⟨hgone, hs, hz, .inr rfl⟩
  case roundStart f m g =>
    rw [if_neg (by rw [hs]; decide)]
    exact ⟨hgone, hs, hz, hw⟩
  case roundPause f m g =>
    rw [if_neg (by rw [hz]; decide)]
    exact ⟨hgone, hs, hz, hw⟩
  case increment f m g =>
    have hlast : g.lastRound = true := hw.resolve_right (by simp [WorkerPc.spinning])
    exact ⟨hgone, hs, hz, .inl (committed_of_lastRound hlast)⟩
  case writeStop f m g => exact ⟨hgone, hs, hz, hw⟩
  case returned f m newTask result =>
    have hresult : result ≠ -1 := bne_iff_ne.mp (hw.resolve_right (by simp [WorkerPc.spinning]))
    rw [if_neg hresult]
    exact ⟨hgone, hs, hz, .inl rfl⟩
  case sendResult => exact ⟨hgone, hs, hz, .inl rfl⟩
  case roundStop | join => rcases hw with hw | hw <;> cases hw
  all_goals cases hgone

theorem not_canLeave_idled {p : Process} (hp : p.Idled) : ¬CanLeave p := by
  refine not_canLeave_of_closed (fun _ _ _ => idled_step) ?_ hp
  intro f m newTask hleft
  rcases hleft.2.2.2 with hw | hw <;> cases hw

theorem leftPaused_step {p q : Process} {e : Event} (hp : p.LeftPaused)
    (h : Process.Step p e q) : q.LeftPaused := by
  obtain ⟨hgone, hs, hz, hw, hx⟩ := hp
  cases h
  case sendReady | recvTask | sendResult =>
    exact ⟨hgone, hs, hz, rfl, fun h => absurd h Bool.false_ne_true⟩
  case resetStop => exact ⟨hgone, hs, hz, rfl, fun _ => rfl⟩
  case waitStart f m g =>
    rw [if_neg (by rw [hs]; decide)]
    exact ⟨hgone, hs, hz, rfl, fun _ => hx rfl⟩
  case roundStop f m g =>
    rw [if_neg (not_not.mpr (hx rfl))]
    exact ⟨hgone, hs, hz, rfl, fun _ => hx rfl⟩
  case roundStart f m g =>
    rw [if_pos hs]
    exact ⟨hgone, hs, hz, rfl, fun _ => hx rfl⟩
  case roundPause f m g =>
    rw [if_pos hz]
    exact ⟨hgone, hs, hz, rfl, fun _ => hx rfl⟩
  case increment f m g =>
    refine ⟨hgone, hs, hz, ?_, fun _ => hx rfl⟩
    split_ifs with hend
    · simpa [WorkerPc.endsMarked, hend] using hw
    · rfl
  case writeStop f m g => exact ⟨hgone, hs, hz, hw, fun h => absurd h Bool.false_ne_true⟩
  case returned f m newTask result =>
    rw [if_neg (beq_eq_false_iff_ne.mp hw)]
    exact ⟨hgone, hs, hz, rfl, fun h => absurd h Bool.false_ne_true⟩
  case join => cases hw
  all_goals cases hgone

theorem not_canLeave_leftPaused {p : Process} (hp : p.LeftPaused) : ¬CanLeave p := by
  refine not_canLeave_of_closed (fun _ _ _ => leftPaused_step) ?_ hp
  intro f m newTask hleft
  cases hleft.2.2.2.1

theorem startFlag_of_stopping {p : Process} (hp : p.Sound) (h : p.stopping = true) :
    p.flags.startFlag = 0 := by
  obtain ⟨f, m, w⟩ := p
  have hfit := hp.fit
  cases m with
  | stopPause | stopStop => exact hfit.1
  | testAgain signal =>
    cases signal
    case kStop => exact hfit.1
    all_goals cases h
  | _ => cases h

theorem canLeave_iff_of_gone {p : Process} (hp : p.Sound) (hw : p.worker.Counts)
    (hgone : p.main.gone = true) : CanLeave p ↔ p.exitOpen = true := by
  obtain ⟨⟨s, z, x⟩, m, w⟩ := p
  have hset : Settled s z := by
    have hfit := hp.fit
    cases m with
    | join | joinHeartbeat => exact hfit
    | _ => cases hgone
  rw [Process.exitOpen, if_pos hgone]
  rcases hset with ⟨rfl, rfl⟩ | ⟨rfl, rfl⟩ | ⟨rfl, rfl⟩
  · rw [if_pos rfl]
    constructor
    · intro h
      by_contra hopen
      refine not_canLeave_idled ⟨hgone, rfl, rfl, ?_⟩ h
      by_contra hno
      simp_all
    · intro hopen
      simp only [Bool.and_eq_true, Bool.not_eq_true'] at hopen
      exact canLeave_gone_idle (fun hround => hp.goneRound hgone hround rfl) hopen.1 hopen.2
  · exact ⟨fun _ => rfl, fun _ => canLeave_running hw⟩
  · constructor
    · intro h
      by_contra hopen
      refine not_canLeave_leftPaused ⟨hgone, rfl, rfl, by simpa using hopen, fun hsim => ?_⟩ h
      by_contra hx
      exact absurd (hp.stopped hsim hx).2 (show (1 : Int32) ≠ 0 by decide)
    · intro hopen
      exact canLeave_endsMarked (by simpa using hopen)

/-- In every reachable state, `simulation_wrap` can still return if and only if the
exit is open. -/
theorem canLeave_iff_exitOpen (es : List Event) (p : Process)
    (hr : run Process.step {} es = some p) : CanLeave p ↔ p.exitOpen = true := by
  have hp := sound_of_run hr
  have hw := counts_of_run hr
  by_cases hgone : p.main.gone = true
  · exact canLeave_iff_of_gone hp hw hgone
  · have hloop := Bool.eq_false_iff.mpr hgone
    rw [Process.exitOpen, if_neg hgone]
    constructor
    · intro h
      by_contra hopen
      have hboth : p.worker.spinning = true ∧ p.stopping = true := by simpa using hopen
      exact not_canLeave_stranded
        ⟨hboth.1, startFlag_of_stopping hp hboth.2, .inl hboth.2⟩ h
    · intro hopen
      rw [Bool.not_eq_true'] at hopen
      exact canLeave_of_not_gone hp hw hloop hopen

/-- A worker in its first round is let out by the stop command that `main` has left on. -/
theorem canLeave_first_round :
    CanLeave ⟨⟨0, 0, 1⟩, .join, .testStop (.enter (ascii "0"))⟩ :=
  (canLeave_iff_exitOpen
    (fetchTask (ascii "0") ++ [.worker (.write .stopFlag 0)] ++ assertIdle ++ startCommand ++
      [.worker (.read .startFlag 1)] ++ assertRunning ++ stopGate ++ stopClears ++
      [.main (.write .stopFlag 1), .main (.read .stopFlag 1)])
    _ rfl).mpr rfl

/-- The first task is started and stopped while its worker is still in
`while (!start_flag)`: the worker never gets out. -/
theorem stranded_worker : ∃ es p, run Process.step {} es = some p ∧
    .main (.write .stopFlag 1) ∈ es ∧ ¬CanLeave p :=
  ⟨fetchTask (ascii "0") ++ [.worker (.write .stopFlag 0)] ++ assertIdle ++ startCommand ++
    assertRunning ++ stopGate ++ stopClears ++
    [.main (.write .stopFlag 1), .main (.read .stopFlag 1)],
    ⟨⟨0, 0, 1⟩, .join, .waitStart (.enter (ascii "0"))⟩, rfl, by decide,
    not_canLeave_stranded ⟨rfl, rfl, .inr rfl⟩⟩

end SimulationCluster

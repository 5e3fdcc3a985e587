import SimulationCluster.SimulationRounds

namespace SimulationCluster
open ByteText Transition

def Event.isIncrement (e : Event) : Bool := e == .worker .increment

/-- A write of `main` to `start_flag` or `pause_flag`. -/
def Event.isCommandWrite : Event → Bool
  | .main (.write .startFlag _) | .main (.write .pauseFlag _) => true
  | _ => false

/-- The worker's reset of `stop_flag` falls between the last write of a stop command
and the test of `stop_flag` that follows it. -/
def resetsUnreadStop (p : Process) (e : Event) : Bool :=
  p.main == .testAgain .kStop && e == .worker (.write .stopFlag 0)

/-- No round begins before a start command. -/
theorem started_step {past : List Event} {p q : Process} {e : Event}
    (hp : .main (.write .startFlag 1) ∈ past ∨
      (p.flags.startFlag = 0 ∧ p.worker.inRound = false)) (h : Process.Step p e q) :
    .main (.write .startFlag 1) ∈ past ++ [e] ∨
      (q.flags.startFlag = 0 ∧ q.worker.inRound = false) := by
  rcases hp with hp | ⟨hs, hw⟩
  · exact .inl (List.mem_append_left _ hp)
  cases h
  case start => exact .inl (by simp)
  case stopStart => exact .inr ⟨rfl, hw⟩
  case waitStart f m g =>
    refine .inr ⟨hs, ?_⟩
    rw [if_pos hs]
    rfl
  case returned f m newTask result =>
    refine .inr ⟨hs, ?_⟩
    split_ifs <;> rfl
  case roundStop | roundStart | roundPause | increment => cases hw
  all_goals exact .inr ⟨hs, hw⟩

theorem increment_after_start {pre post : List Event} {p : Process}
    (hr : run Process.step {} (pre ++ .worker .increment :: post) = some p) :
    .main (.write .startFlag 1) ∈ pre := by
  obtain ⟨s, t, hpre, he, -⟩ := run_split _ _ _ _ _ _ hr
  have hI := run_history (I := fun past s => .main (.write .startFlag 1) ∈ past ∨
      (s.flags.startFlag = 0 ∧ s.worker.inRound = false))
    (fun past s e t hs he => started_step hs ((Process.step_eq_some_iff s t e).mp he))
    (.inr ⟨rfl, rfl⟩) hpre
  refine hI.resolve_right fun hno => ?_
  have hstep := (Process.step_eq_some_iff _ _ _).mp he
  cases hstep
  exact Bool.noConfusion hno.2

/-- Increments that a paused worker can still make: one, when it is past the test. -/
def WorkerPc.pausedBudget : WorkerPc → ℕ
  | .increment _ => 1
  | _ => 0

theorem paused_step {p q : Process} {e : Event}
    (hp : p.flags.startFlag = 1 ∧ p.flags.pauseFlag = 1) (hc : e.isCommandWrite = false)
    (h : Process.Step p e q) :
    (q.flags.startFlag = 1 ∧ q.flags.pauseFlag = 1) ∧
      q.worker.pausedBudget+(if e.isIncrement then 1 else 0) ≤ p.worker.pausedBudget := by
  cases h
  case start | goOn | pause | stopStart | stopPause => cases hc
  case waitStart f m g =>
    refine ⟨hp, ?_⟩
    rw [if_neg (by rw [hp.1]; decide)]
    exact le_rfl
  case roundStop f m g =>
    refine ⟨hp, ?_⟩
    change WorkerPc.pausedBudget _+0 ≤ 0
    split_ifs <;> exact le_rfl
  case roundStart f m g =>
    refine ⟨hp, ?_⟩
    rw [if_pos hp.1]
    exact le_rfl
  case roundPause f m g =>
    refine ⟨hp, ?_⟩
    rw [if_pos hp.2]
    exact le_rfl
  case increment f m g =>
    refine ⟨hp, ?_⟩
    change WorkerPc.pausedBudget _+1 ≤ 1
    split_ifs <;> exact le_rfl
  case returned f m newTask result =>
    refine ⟨hp, ?_⟩
    change WorkerPc.pausedBudget _+0 ≤ 0
    split_ifs <;> exact le_rfl
  all_goals exact ⟨hp, le_rfl⟩

theorem pausedBudget_le_one (w : WorkerPc) : w.pausedBudget ≤ 1 := by
  cases w <;> simp [WorkerPc.pausedBudget]

/-- After the write of a pause command one `result++` can still happen. -/
theorem increments_while_paused {pre mid post : List Event} {p : Process}
    (hr : run Process.step {} (pre ++ .main (.write .pauseFlag 1) :: (mid ++ post)) = some p)
    (hmid : ∀ e ∈ mid, e.isCommandWrite = false) : mid.countP Event.isIncrement ≤ 1 := by
  obtain ⟨s, t, hpre, he, hrest⟩ := run_split _ _ _ _ _ _ hr
  obtain ⟨u, hu, -⟩ := (run_append_iff _ _ _ _ _).mp hrest
  have hfit := (sound_of_run hpre).fit
  have hpaused : t.flags.startFlag = 1 ∧ t.flags.pauseFlag = 1 := by
    obtain ⟨f, w, rfl, rfl⟩ := Process.step_pause he
    exact ⟨(switch_flags hfit).1, rfl⟩
  refine (countP_le_budget (I := fun p => p.flags.startFlag = 1 ∧ p.flags.pauseFlag = 1)
    (P := fun _ e => e.isCommandWrite = false) Event.isIncrement (fun p => p.worker.pausedBudget)
    (fun p e q hp hc he => paused_step hp hc ((Process.step_eq_some_iff p q e).mp he))
    hpaused (along_of_forall _ _ _ fun e hmem _ => hmid e hmem) hu).trans (pausedBudget_le_one _)

/-- Increments that a stopped worker can still make: one, when it is past its stop test. -/
def WorkerPc.stoppedBudget : WorkerPc → ℕ
  | .testStart _ | .testPause _ | .increment _ => 1
  | _ => 0

/-- A stop command that `main` has seen or is about to see. The worker may have
reset `stop_flag` after `main` left; then it spins on `start_flag`. -/
structure Process.Halting (p : Process) : Prop where
  main : p.main.afterStop = true
  start : p.flags.startFlag = 0
  unread : p.main = .testAgain .kStop → p.flags.stopFlag ≠ 0
  round : p.worker.inRound = true → p.flags.stopFlag ≠ 0

theorem halting_step {p q : Process} {e : Event} (hp : p.Halting)
    (hc : resetsUnreadStop p e = false) (h : Process.Step p e q) :
    q.Halting ∧
      q.worker.stoppedBudget+(if e.isIncrement then 1 else 0) ≤ p.worker.stoppedBudget := by
  obtain ⟨hmain, hstart, hunread, hround⟩ := hp
  cases h
  case testAgain f w signal =>
    have hsig : signal = .kStop := by
      cases signal
      case kStop => rfl
      all_goals cases hmain
    subst hsig
    rw [if_pos (hunread rfl)]
    exact ⟨⟨rfl, hstart, nofun, hround⟩, le_rfl⟩
  case join f newTask => exact ⟨⟨rfl, hstart, nofun, hround⟩, le_rfl⟩
  case resetStop f m newTask =>
    refine ⟨⟨hmain, hstart, fun hm => ?_, nofun⟩, le_rfl⟩
    subst hm
    cases hc
  case waitStart f m g =>
    rw [if_pos hstart]
    exact ⟨⟨hmain, hstart, hunread, nofun⟩, le_rfl⟩
  case roundStop f m g =>
    rw [if_pos (hround rfl)]
    exact ⟨⟨hmain, hstart, hunread, nofun⟩, le_rfl⟩
  case roundStart f m g =>
    refine ⟨⟨hmain, hstart, hunread, fun _ => hround rfl⟩, ?_⟩
    change WorkerPc.stoppedBudget _+0 ≤ 1
    split_ifs <;> exact le_rfl
  case roundPause f m g =>
    refine ⟨⟨hmain, hstart, hunread, fun _ => hround rfl⟩, ?_⟩
    change WorkerPc.stoppedBudget _+0 ≤ 1
    split_ifs
    · exact Nat.zero_le 1
    · exact le_rfl
  case increment f m g =>
    refine ⟨⟨hmain, hstart, hunread, fun _ => hround rfl⟩, ?_⟩
    change WorkerPc.stoppedBudget _+1 ≤ 1
    split_ifs <;> exact le_rfl
  case writeStop f m g =>
    exact ⟨⟨hmain, hstart, fun _ => (by decide : (1 : Int32) ≠ 0), nofun⟩, le_rfl⟩
  case returned f m newTask result =>
    refine ⟨⟨hmain, hstart, hunread, fun hw => ?_⟩, ?_⟩
    · dsimp only at hw
      split_ifs at hw <;> cases hw
    · change WorkerPc.stoppedBudget _+0 ≤ 0
      split_ifs <;> exact le_rfl
  case sendReady | recvTask | sendResult => exact ⟨⟨hmain, hstart, hunread, nofun⟩, le_rfl⟩
  all_goals cases hmain

theorem stoppedBudget_le_one (w : WorkerPc) : w.stoppedBudget ≤ 1 := by
  cases w <;> simp [WorkerPc.stoppedBudget]

/-- After the last write of a stop command one `result++` can still happen, unless
the worker resets `stop_flag` before `main` has tested it. -/
theorem increments_after_stop {pre post : List Event} {p : Process}
    (hr : run Process.step {} (pre ++ .main (.write .stopFlag 1) :: post) = some p)
    (hc : Along Process.step (fun p e => ¬resetsUnreadStop p e) {}
      (pre ++ .main (.write .stopFlag 1) :: post)) : post.countP Event.isIncrement ≤ 1 := by
  obtain ⟨s, t, hpre, he, hrest⟩ := run_split _ _ _ _ _ _ hr
  have hfit := (sound_of_run hpre).fit
  have hpost := (along_append _ _ _ _ _ hc hpre).2.2 t he
  have hhalt : t.Halting := by
    obtain ⟨f, w, rfl, rfl⟩ := Process.step_stop he
    have hone : (1 : Int32) ≠ 0 := by decide
    exact ⟨rfl, hfit.1, fun _ => hone, fun _ => hone⟩
  refine (countP_le_budget (P := fun p e => ¬resetsUnreadStop p e) Event.isIncrement
    (fun p => p.worker.stoppedBudget)
    (fun p e q hp hc he => halting_step hp (Bool.not_eq_true _ ▸ hc)
      ((Process.step_eq_some_iff p q e).mp he)) hhalt hpost hrest).trans (stoppedBudget_le_one _)

/-- Commands bound the progress of the simulation: nothing before a start, at most
one `result++` under a pause, and at most one after a stop that is not lost. -/
theorem commands_bound_progress (es : List Event) (p : Process)
    (hr : run Process.step {} es = some p) :
    (∀ pre post, es = pre ++ .worker .increment :: post → .main (.write .startFlag 1) ∈ pre) ∧
    (∀ pre mid post, es = pre ++ .main (.write .pauseFlag 1) :: (mid ++ post) →
      (∀ e ∈ mid, e.isCommandWrite = false) → mid.countP Event.isIncrement ≤ 1) ∧
    (Along Process.step (fun p e => ¬resetsUnreadStop p e) {} es →
      ∀ pre post, es = pre ++ .main (.write .stopFlag 1) :: post →
        post.countP Event.isIncrement ≤ 1) := by
  refine ⟨?_, ?_, ?_⟩
  · rintro pre post rfl
    exact increment_after_start hr
  · rintro pre mid post rfl hmid
    exact increments_while_paused hr hmid
  · rintro hc pre post rfl
    exact increments_after_stop hr hc

/-- A first round up to its increment, with a pause command after the pause test. -/
def pausedRound : List Event :=
  fetchTask (ascii "0") ++ [.worker (.write .stopFlag 0)] ++ assertIdle ++ startCommand ++
    [.worker (.read .startFlag 1)] ++ assertRunning ++
    [.worker (.read .stopFlag 0), .worker (.read .startFlag 1), .worker (.read .pauseFlag 0),
      .main (.recv (ascii "pause")), .main (.read .stopFlag 0), .main (.read .startFlag 1),
      .main (.read .pauseFlag 0)]

/-- A stop command up to its last write, with a test of the worker between the first two. -/
def stopInRound : List Event :=
  [.main (.read .stopFlag 0)] ++ assertRunning ++ stopGate ++
    [.worker (.read .stopFlag 0), .main (.write .startFlag 0), .worker (.read .startFlag 0),
      .main (.write .pauseFlag 0)]

/-- The worker is past its stop test when the stop is complete. -/
def lastRound : List Event := [.worker .increment, .worker (.read .stopFlag 1)]

/-- One increment after the pause command, and one after the stop command. -/
theorem commands_bound_progress_paused_round : ∃ p,
    run Process.step {} (pausedRound ++ .main (.write .pauseFlag 1) :: ([.worker .increment] ++
      (stopInRound ++ .main (.write .stopFlag 1) :: lastRound))) = some p ∧
    [Event.worker .increment].countP Event.isIncrement ≤ 1 ∧
    lastRound.countP Event.isIncrement ≤ 1 := by
  have h := commands_bound_progress (pausedRound ++ .main (.write .pauseFlag 1) ::
    ([.worker .increment] ++ (stopInRound ++ .main (.write .stopFlag 1) :: lastRound)))
    ⟨⟨0, 0, 1⟩, .testAgain .kStop, .returned (ascii "0") (-1)⟩ (by decide)
  exact ⟨_, rfl, h.2.1 pausedRound _ _ rfl (by decide),
    h.2.2 (by decide) (pausedRound ++ .main (.write .pauseFlag 1) ::
      ([.worker .increment] ++ stopInRound)) lastRound rfl⟩

/-- `main` does not see its stop and is started again, and the worker with it. -/
def secondStart : List Event :=
  [.main (.read .stopFlag 0)] ++ assertIdle ++ startCommand ++ [.worker (.read .startFlag 1)]

/-- What can follow a stop that a reset has cleared. -/
def restart : List Event := secondStart ++ (List.replicate 2 workRound).flatten

/-- A lost stop, a second start command, and the task that was stopped runs on. -/
theorem increments_after_lost_stop : ∃ p,
    run Process.step {} ((fetchTask (ascii "0") ++ assertIdle ++ startCommand ++ assertRunning ++
      stopGate ++ stopClears) ++ .main (.write .stopFlag 1) ::
      (.worker (.write .stopFlag 0) :: restart)) = some p ∧
    (.worker (.write .stopFlag 0) :: restart).countP Event.isIncrement = 2 :=
  ⟨_, rfl, rfl⟩

/-- The condition is needed: a reset that clears an unread stop can be followed by
two increments of the task it was made for. -/
theorem increments_of_resetsUnreadStop {es : List Event} {p q : Process} {e : Event}
    (hr : run Process.step {} es = some p) (hc : resetsUnreadStop p e = true)
    (he : p.step e = some q) :
    ∃ r, run Process.step q restart = some r ∧ restart.countP Event.isIncrement = 2 := by
  have hfit := (sound_of_run hr).fit
  simp only [resetsUnreadStop, Bool.and_eq_true, beq_iff_eq] at hc
  obtain ⟨hmain, rfl⟩ := hc
  obtain ⟨f, m, newTask, rfl, rfl⟩ := Process.step_reset he
  dsimp only at hmain
  subst hmain
  obtain ⟨s, p, x⟩ := f
  obtain ⟨rfl, rfl⟩ : s = 0 ∧ p = 0 := hfit
  rw [enter_eq_after]
  have hone : run Process.step ⟨⟨0, 0, 0⟩, .testAgain .kStop, .waitStart (.after newTask 0)⟩
      secondStart = some ⟨⟨1, 0, 0⟩, .assertStart, .testStop (.after newTask 0)⟩ := rfl
  have htwo := run_workRounds .assertStart newTask 0 2 (by decide)
  exact ⟨_, (run_append_iff _ _ _ secondStart _).mpr ⟨_, hone, htwo⟩, rfl⟩

end SimulationCluster

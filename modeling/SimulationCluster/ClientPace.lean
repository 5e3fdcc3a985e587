import SimulationCluster.ClientRest
import SimulationCluster.ClientWork

namespace SimulationCluster
open ByteText Transition

def Event.isWorker : Event → Bool
  | .worker _ => true
  | .main _ => false

/-- The increments that a call of `simulation` has made. -/
def Frame.made (f : Frame) : ℕ := (f.result-f.input).toNatClampNeg

theorem made_onInput (newTask : Bytes) (input : Int32) {k : ℕ} (hk : k ≤ 10) :
    (Frame.onInput newTask input k).made = k := by
  have hsub (x y : Int32) : x+y-x = y := by grind
  rw [Frame.made, Frame.onInput, hsub]
  interval_cases k <;> decide

/-- The steps of the worker up to the next result that it sends, while it runs. A worker
that has left owes one step for good. -/
def WorkerPc.ahead : WorkerPc → ℕ
  | .sendReady => 47
  | .recvTask => 46
  | .resetStop _ => 45
  | .waitStart _ => 44
  | .testStop f => 4*(10-f.made)+3
  | .testStart f => 4*(10-f.made)+2
  | .testPause f => 4*(10-f.made)+1
  | .increment f => 4*(10-f.made)
  | .writeStop _ => 3
  | .returned _ _ => 2
  | .sendResult _ _ | .left _ => 1

theorem ahead_pos {w : WorkerPc} (h : w.Counts) : 0 < w.ahead := by
  cases w with
  | increment f =>
    obtain ⟨newTask, k, hk, rfl⟩ := h
    rw [WorkerPc.ahead, made_onInput newTask _ hk.le]
    omega
  | _ => exact Nat.succ_pos _

theorem ahead_le (w : WorkerPc) : w.ahead ≤ 47 := by
  cases w <;> simp only [WorkerPc.ahead] <;> omega

/-- A client that has been started and is not paused. -/
structure Process.Running (p : Process) : Prop where
  sound : p.Sound
  counts : p.worker.Counts
  start : p.flags.startFlag = 1
  pause : p.flags.pauseFlag = 0

section Steps

variable {p q : Process} {e : Event}

theorem running_step (hp : p.Running) (hc : e.isCommandWrite = false) (h : Process.Step p e q) :
    q.Running := by
  have hflags : q.flags.startFlag = p.flags.startFlag ∧ q.flags.pauseFlag = p.flags.pauseFlag := by
    cases h
    case start | goOn | pause | stopStart | stopPause => cases hc
    all_goals exact ⟨rfl, rfl⟩
  exact ⟨sound_step hp.sound h, counts_step h hp.counts, hflags.1.trans hp.start,
    hflags.2.trans hp.pause⟩

/-- A running client passes each of its tests, so a step of its worker is one step of the way. -/
theorem ahead_step (hp : p.Running) (h : Process.Step p e q) :
    q.worker.ahead+(if e.isWorker then 1 else 0) =
      p.worker.ahead+(if e.isPush then 47 else 0) := by
  obtain ⟨hsound, hcounts, hstart, hpause⟩ := hp
  -- `stop_flag` is set inside a task only by a stop, and that takes `start_flag` down first
  have hstop : p.worker.inSimulation → p.flags.stopFlag = 0 := by
    intro hw
    by_contra hx
    have hz := (hsound.stopped hw hx).2
    rw [hstart] at hz
    exact absurd hz (by decide)
  cases h
  case waitStart f m g =>
    obtain ⟨newTask, rfl⟩ := hcounts
    dsimp only
    rw [if_neg (by rw [hstart]; decide)]
    change 4*(10-(Frame.after newTask 0).made)+3+1 = 44
    rw [made_onInput newTask _ (Nat.zero_le _)]
  case roundStop f m g =>
    dsimp only
    rw [if_neg (not_not.mpr (hstop rfl))]
    rfl
  case roundStart f m g =>
    dsimp only
    rw [if_pos hstart]
    rfl
  case roundPause f m g =>
    dsimp only
    rw [if_neg (by rw [hpause]; decide)]
    rfl
  case increment f m g =>
    obtain ⟨newTask, k, hk, rfl⟩ := hcounts
    dsimp only
    rw [next_increment_onInput newTask (atoi newTask) k hk]
    change _+1 = 4*(10-(Frame.after newTask k).made)
    rw [made_onInput newTask _ hk.le]
    by_cases h9 : k = 9
    · subst h9
      rfl
    · rw [if_neg h9]
      change 4*(10-(Frame.after newTask (k+1)).made)+3+1 = _
      rw [made_onInput newTask _ hk]
      omega
  case returned f m newTask result =>
    dsimp only
    by_cases hr : result = -1
    · rw [if_pos hr]
      rfl
    · rw [if_neg hr]
      rfl
  all_goals rfl

end Steps

theorem countP_isPush (es : List Event) : es.countP Event.isPush = (resultsSent es).length := by
  induction es with
  | nil => rfl
  | cons e es ih =>
    rw [List.countP_cons, ih, ← List.singleton_append, resultsSent_append, List.length_append,
      Nat.add_comm]
    congr 1
    cases e with
    | main a => rfl
    | worker a => cases a <;> rfl

theorem ahead_of_run {p q : Process} {es : List Event} (hp : p.Running)
    (hes : ∀ e ∈ es, e.isCommandWrite = false) (h : run Process.step p es = some q) :
    q.Running ∧ es.countP Event.isWorker+q.worker.ahead =
      p.worker.ahead+47*(resultsSent es).length := by
  have hstep (p : Process) (e : Event) (q : Process) (hp : p.Running)
      (hc : e.isCommandWrite = false) (he : p.step e = some q) :
      q.Running ∧ q.worker.ahead+(if e.isWorker then 1 else 0) =
        p.worker.ahead+(if e.isPush then 47 else 0) := by
    have hs := (Process.step_eq_some_iff p q e).mp he
    exact ⟨running_step hp hc hs, ahead_step hp hs⟩
  have halong : Along Process.step (fun _ e => e.isCommandWrite = false) p es :=
    along_of_forall _ _ _ fun e he _ => hes e he
  constructor
  · exact run_invariant_along (fun p e q hp hc he => (hstep p e q hp hc he).1) hp halong h
  · rw [← countP_isPush]
    exact countP_account Event.isWorker Event.isPush (fun p => p.worker.ahead) 47 hstep hp halong h

/-- While a client has been started and is not paused, no step of its worker is wasted:
every 47 of them are one result, however `main` and the worker interleave and whatever
`main` receives, as long as it writes neither of the two flags. -/
theorem pace_of_run (pre es : List Event) (p q : Process) (hpre : run Process.step {} pre = some p)
    (hstart : p.flags.startFlag = 1) (hpause : p.flags.pauseFlag = 0)
    (hes : ∀ e ∈ es, e.isCommandWrite = false) (h : run Process.step p es = some q) :
    es.countP Event.isWorker/47 ≤ (resultsSent es).length ∧
      (resultsSent es).length ≤ (es.countP Event.isWorker+46)/47 := by
  have hrunning : p.Running := ⟨sound_of_run hpre, counts_of_run hpre, hstart, hpause⟩
  obtain ⟨hend, haccount⟩ := ahead_of_run hrunning hes h
  have hp := ahead_pos hrunning.counts
  have hp' := ahead_le p.worker
  have hq := ahead_pos hend.counts
  have hq' := ahead_le q.worker
  omega

/-- The first task after a start, and a second start in between. -/
def taskAfterStart : List Event :=
  fetchTask (ascii "0") ++ [.worker (.write .stopFlag 0), .worker (.read .startFlag 1)] ++
    assertRunning ++ [.main (.recv (ascii "start"))] ++
    finishTask (ascii "result of task 0 is: 10")

theorem pace_of_run_first : ∃ p q,
    run Process.step {} (assertIdle ++ startCommand) = some p ∧
    run Process.step p taskAfterStart = some q ∧ taskAfterStart.countP Event.isWorker = 47 ∧
    1 ≤ (resultsSent taskAfterStart).length ∧ (resultsSent taskAfterStart).length ≤ (47+46)/47 :=
  ⟨_, _, rfl, rfl, rfl,
    pace_of_run (assertIdle ++ startCommand) taskAfterStart _ _ rfl rfl rfl (by decide) rfl⟩

end SimulationCluster

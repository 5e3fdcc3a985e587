import SimulationCluster.ClientFlags
import Mathlib.Tactic.IntervalCases

namespace SimulationCluster
open ByteText Transition

/-- The locals of the call `simulation(input)` after `k` increments. -/
def Frame.onInput (newTask : Bytes) (input : Int32) (k : ℕ) : Frame :=
  ⟨newTask, input, input+Int32.ofNat k⟩

theorem onInput_zero (newTask : Bytes) (input : Int32) :
    Frame.onInput newTask input 0 = ⟨newTask, input, input⟩ := by
  simp [Frame.onInput]

theorem bump_onInput (newTask : Bytes) (input : Int32) (k : ℕ) :
    (Frame.onInput newTask input k).bump = .onInput newTask input (k+1) := by
  simp only [Frame.bump, Frame.onInput, Frame.mk.injEq, true_and, Int32.ofNat_add]
  exact Int32.add_assoc _ _ _

theorem hasReachedEndpoint_onInput (newTask : Bytes) (input : Int32) (k : ℕ) (hk : k ≤ 10) :
    hasReachedEndpoint (Frame.onInput newTask input k).input
      (Frame.onInput newTask input k).result = decide (k = 10) := by
  have hsub (x y : Int32) : x+y-x = y := by grind
  rw [hasReachedEndpoint, Frame.onInput, hsub]
  interval_cases k <;> decide

/-- What `result++` leads to. -/
theorem next_increment_onInput (newTask : Bytes) (input : Int32) (k : ℕ) (hk : k < 10) :
    (if hasReachedEndpoint (Frame.onInput newTask input k).bump.input
        (Frame.onInput newTask input k).bump.result
      then WorkerPc.writeStop (Frame.onInput newTask input k).bump
      else .testStop (Frame.onInput newTask input k).bump) =
    if k = 9 then .writeStop (.onInput newTask input 10)
      else .testStop (.onInput newTask input (k+1)) := by
  rw [bump_onInput, hasReachedEndpoint_onInput newTask input (k+1) hk]
  by_cases h9 : k = 9
  · subst h9
    rfl
  · rw [if_neg (by simpa using h9), if_neg h9]

/-- The locals of a call of `simulation_wrap` after `k` increments. -/
abbrev Frame.after (newTask : Bytes) (k : ℕ) : Frame := .onInput newTask (atoi newTask) k

theorem enter_eq_after (newTask : Bytes) : Frame.enter newTask = .after newTask 0 :=
  (onInput_zero newTask (atoi newTask)).symm

/-- Where the locals stand at each point of the worker. -/
def WorkerPc.Counts : WorkerPc → Prop
  | .waitStart f => ∃ newTask, f = .after newTask 0
  | .testStop f | .testStart f | .testPause f | .increment f =>
    ∃ newTask k, k < 10 ∧ f = .after newTask k
  | .writeStop f => ∃ newTask, f = .after newTask 10
  | .returned newTask result => result = -1 ∨ result = (Frame.after newTask 10).result
  | .sendResult newTask result => result = (Frame.after newTask 10).result
  | _ => True

theorem counts_step {p q : Process} {e : Event} (h : Process.Step p e q)
    (hp : p.worker.Counts) : q.worker.Counts := by
  cases h
  case resetStop f m newTask => exact ⟨newTask, enter_eq_after newTask⟩
  case waitStart f m g =>
    obtain ⟨newTask, rfl⟩ := hp
    dsimp only
    split_ifs
    · exact ⟨newTask, rfl⟩
    · exact ⟨newTask, 0, by decide, rfl⟩
  case roundStop f m g =>
    dsimp only
    split_ifs
    · exact .inl rfl
    · exact hp
  case roundStart f m g | roundPause f m g =>
    dsimp only
    split_ifs <;> exact hp
  case increment f m g =>
    obtain ⟨newTask, k, hk, rfl⟩ := hp
    dsimp only
    rw [next_increment_onInput newTask (atoi newTask) k hk]
    split_ifs with h9
    · exact ⟨newTask, rfl⟩
    · exact ⟨newTask, k+1, by omega, rfl⟩
  case writeStop f m g =>
    obtain ⟨newTask, rfl⟩ := hp
    exact .inr rfl
  case returned f m newTask result =>
    dsimp only
    split_ifs with hr
    · trivial
    · exact hp.resolve_left hr
  case sendReady | recvTask | sendResult => trivial
  all_goals exact hp

theorem counts_of_run {es : List Event} {p : Process} (h : run Process.step {} es = some p) :
    p.worker.Counts :=
  run_invariant (I := fun p => p.worker.Counts)
    (fun p e q hp he => counts_step ((Process.step_eq_some_iff p q e).mp he) hp) trivial h

/-- A round of `simulation` that neither stops nor pauses. -/
def workRound : List Event :=
  [.worker (.read .stopFlag 0), .worker (.read .startFlag 1), .worker (.read .pauseFlag 0),
    .worker .increment]

/-- The rounds of a call of `simulation` that nothing interrupts, and its result. -/
def finishTask (result : Bytes) : List Event :=
  (List.replicate 10 workRound).flatten ++
    [.worker (.write .stopFlag 1), .worker .tau, .worker (.push result)]

theorem run_workRound (m : MainPc) (newTask : Bytes) (k : ℕ) (hk : k < 10) :
    run Process.step ⟨⟨1, 0, 0⟩, m, .testStop (.after newTask k)⟩ workRound =
      some ⟨⟨1, 0, 0⟩, m,
        if k = 9 then .writeStop (.after newTask 10) else .testStop (.after newTask (k+1))⟩ := by
  rw [← next_increment_onInput newTask (atoi newTask) k hk]
  rfl

theorem run_workRounds (m : MainPc) (newTask : Bytes) (k n : ℕ) (hk : k+n < 10) :
    run Process.step ⟨⟨1, 0, 0⟩, m, .testStop (.after newTask k)⟩
      (List.replicate n workRound).flatten =
      some ⟨⟨1, 0, 0⟩, m, .testStop (.after newTask (k+n))⟩ := by
  induction n generalizing k with
  | zero => rfl
  | succ n ih =>
    rw [List.replicate_succ, List.flatten_cons]
    refine (run_append_iff _ _ _ _ _).mpr ⟨_, run_workRound m newTask k (by omega), ?_⟩
    rw [if_neg (by omega), ih (k+1) (by omega), Nat.add_right_comm k 1 n]
    rfl

end SimulationCluster

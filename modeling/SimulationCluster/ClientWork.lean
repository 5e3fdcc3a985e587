import SimulationCluster.ClientProgress
import SimulationCluster.TaskCustody

namespace SimulationCluster
open ByteText Transition

def tasksReceived (es : List Event) : List Bytes :=
  es.filterMap fun
    | .worker (.recv newTask) => some newTask
    | _ => none

def resultsSent (es : List Event) : List Bytes :=
  es.filterMap fun
    | .worker (.push result) => some result
    | _ => none

def requestsSent (es : List Event) : List Bytes :=
  es.filterMap fun
    | .worker (.request request) => some request
    | _ => none

theorem requestsSent_append (es fs : List Event) :
    requestsSent (es ++ fs) = requestsSent es ++ requestsSent fs := List.filterMap_append

theorem tasksReceived_append (es fs : List Event) :
    tasksReceived (es ++ fs) = tasksReceived es ++ tasksReceived fs := List.filterMap_append

theorem resultsSent_append (es fs : List Event) :
    resultsSent (es ++ fs) = resultsSent es ++ resultsSent fs := List.filterMap_append

theorem tasksReceived_eq_nil {e : Event} (h : ∀ newTask, e ≠ .worker (.recv newTask)) :
    tasksReceived [e] = [] := by
  cases e with
  | main a => rfl
  | worker a =>
    cases a
    case recv newTask => exact absurd rfl (h newTask)
    all_goals rfl

theorem resultsSent_eq_nil {e : Event} (h : ∀ line, e ≠ .worker (.push line)) :
    resultsSent [e] = [] := by
  cases e with
  | main a => rfl
  | worker a =>
    cases a
    case push line => exact absurd rfl (h line)
    all_goals rfl

theorem requestsSent_eq_nil {e : Event} (h : ∀ request, e ≠ .worker (.request request)) :
    requestsSent [e] = [] := by
  cases e with
  | main a => rfl
  | worker a =>
    cases a
    case request request => exact absurd rfl (h request)
    all_goals rfl

/-- What is sent for a task. -/
def resultOf (newTask : Bytes) : Bytes := resultInfo newTask (Frame.after newTask 10).result

/-- The task that was received last, while its result has not been sent. -/
def WorkerPc.unsent (w : WorkerPc) : Option Bytes := w.inHand.or w.dropped

theorem unsent_of_other {p q : Process} {e : Event} (h : p.step e = some q)
    (hrecv : ∀ reply, e ≠ .worker (.recv reply)) (hpush : ∀ line, e ≠ .worker (.push line)) :
    q.worker.unsent = p.worker.unsent := by
  rcases Process.step_inHand h hrecv hpush with ⟨hhand, hdrop⟩ | ⟨newTask, hhand, -, hleft⟩
  · rw [WorkerPc.unsent, hhand, hdrop, WorkerPc.unsent]
  · rw [WorkerPc.unsent, hleft, WorkerPc.unsent, hhand]
    rfl

/-- The results are those of the tasks, in the order of the tasks; only the last may be missing. -/
def WorksInOrder (es : List Event) (p : Process) : Prop :=
  (tasksReceived es).map resultOf = resultsSent es ++ p.worker.unsent.toList.map resultOf

theorem worksInOrder_step {es : List Event} {p q : Process} {e : Event} (hc : p.worker.Counts)
    (hp : WorksInOrder es p) (h : p.step e = some q) : WorksInOrder (es ++ [e]) q := by
  unfold WorksInOrder at hp ⊢
  rw [tasksReceived_append, resultsSent_append, List.map_append, hp]
  by_cases hrecv : ∃ reply, e = .worker (.recv reply)
  · obtain ⟨reply, rfl⟩ := hrecv
    obtain ⟨hold, hnew⟩ := Process.step_recv h
    rw [hold, hnew]
    simp [WorkerPc.unsent, WorkerPc.inHand, WorkerPc.dropped, tasksReceived, resultsSent]
  by_cases hpush : ∃ line, e = .worker (.push line)
  · obtain ⟨line, rfl⟩ := hpush
    obtain ⟨newTask, result, hold, rfl, hnew⟩ := Process.step_push h
    rw [hold] at hc
    obtain rfl : result = (Frame.after newTask 10).result := hc
    rw [hold, hnew]
    simp [WorkerPc.unsent, WorkerPc.inHand, WorkerPc.dropped, tasksReceived, resultsSent, resultOf]
  have hrecv : ∀ reply, e ≠ .worker (.recv reply) := fun reply he => hrecv ⟨reply, he⟩
  have hpush : ∀ line, e ≠ .worker (.push line) := fun line he => hpush ⟨line, he⟩
  rw [unsent_of_other h hrecv hpush, tasksReceived_eq_nil hrecv, resultsSent_eq_nil hpush]
  simp

theorem worksInOrder_init : WorksInOrder [] {} := rfl

theorem worksInOrder_of_run {es : List Event} {p : Process}
    (hr : run Process.step {} es = some p) : WorksInOrder es p := by
  have h := run_history (I := fun es p => p.worker.Counts ∧ WorksInOrder es p)
    (fun es p e q hp he => ?_) ⟨trivial, worksInOrder_init⟩ hr
  · exact h.2
  · exact ⟨counts_step ((Process.step_eq_some_iff p q e).mp he) hp.1,
      worksInOrder_step hp.1 hp.2 he⟩

/-- The worker has made `k` increments for the task that it received last. -/
def WorkerPc.Progress : WorkerPc → ℕ → Prop
  | .testStop f, k | .testStart f, k | .testPause f, k | .increment f, k =>
    f = .after f.newTask k ∧ k < 10
  | .writeStop _, k | .sendResult _ _, k => k = 10
  | .returned _ result, k => if result = -1 then k ≤ 10 else k = 10
  | .left _, k => k ≤ 10
  | _, k => k = 0

/-- What the increments of a run amount to. -/
def Worked (es : List Event) (p : Process) : Prop :=
  ∃ k, es.countP Event.isIncrement = 10*(resultsSent es).length+k ∧ p.worker.Progress k

/-- A step with neither an increment nor a result leaves the progress as it was. -/
theorem worked_keep {es : List Event} {p q : Process} {e : Event} (hp : Worked es p)
    (hinc : e.isIncrement = false) (hpush : resultsSent [e] = [])
    (h : ∀ k, p.worker.Progress k → q.worker.Progress k) : Worked (es ++ [e]) q := by
  obtain ⟨k, hcount, hk⟩ := hp
  refine ⟨k, ?_, h k hk⟩
  rw [List.countP_append, resultsSent_append, hpush, List.append_nil, hcount]
  simp [hinc]

theorem worked_step {es : List Event} {p q : Process} {e : Event} (hc : p.worker.Counts)
    (hp : Worked es p) (h : Process.Step p e q) : Worked (es ++ [e]) q := by
  cases h
  case increment f m g =>
    obtain ⟨k, hcount, hg, hk⟩ := hp
    refine ⟨k+1, ?_, ?_⟩
    · rw [List.countP_append, resultsSent_append, hcount]
      simp [resultsSent, Event.isIncrement, Nat.add_assoc]
    · dsimp only
      rw [hg, next_increment_onInput g.newTask (atoi g.newTask) k hk]
      split_ifs with h9
      · rw [h9]
        rfl
      · exact ⟨rfl, by omega⟩
  case sendResult f m newTask result =>
    obtain ⟨k, hcount, rfl⟩ := hp
    refine ⟨0, ?_, rfl⟩
    rw [List.countP_append, resultsSent_append, hcount]
    simp [resultsSent, Event.isIncrement]
    omega
  all_goals refine worked_keep hp rfl rfl fun k hk => ?_
  case waitStart f m g =>
    obtain ⟨newTask, rfl⟩ := hc
    obtain rfl : k = 0 := hk
    dsimp only
    split_ifs
    · rfl
    · exact ⟨rfl, by decide⟩
  case roundStop f m g =>
    dsimp only
    split_ifs
    · have := hk.2
      change if (-1 : Int32) = -1 then k ≤ 10 else k = 10
      rw [if_pos rfl]
      omega
    · exact hk
  case roundStart f m g | roundPause f m g =>
    dsimp only
    split_ifs <;> exact hk
  case writeStop f m g =>
    obtain rfl : k = 10 := hk
    change if g.result = -1 then 10 ≤ 10 else 10 = 10
    split_ifs <;> rfl
  case returned f m newTask result =>
    change if result = -1 then k ≤ 10 else k = 10 at hk
    dsimp only
    split_ifs at hk ⊢
    · exact hk
    · exact hk
  all_goals exact hk

theorem worked_init : Worked [] {} := ⟨0, rfl, rfl⟩

theorem worked_of_run {es : List Event} {p : Process} (hr : run Process.step {} es = some p) :
    Worked es p := by
  have h := run_history (I := fun es p => p.worker.Counts ∧ Worked es p)
    (fun es p e q hp he => ?_) ⟨trivial, worked_init⟩ hr
  · exact h.2
  · have hstep := (Process.step_eq_some_iff p q e).mp he
    exact ⟨counts_step hstep hp.1, worked_step hp.1 hp.2 hstep⟩

theorem progress_le {w : WorkerPc} {k : ℕ} (h : w.Progress k) :
    k ≤ 10 * w.unsent.toList.length := by
  cases w
  case returned newTask result =>
    change if result = -1 then k ≤ 10 else k = 10 at h
    change k ≤ 10*1
    split_ifs at h <;> omega
  case testStop | testStart | testPause | increment =>
    obtain ⟨-, hk⟩ := h
    change k ≤ 10*1
    omega
  case sendReady | recvTask =>
    obtain rfl : k = 0 := h
    exact Nat.zero_le _
  case resetStop | waitStart =>
    obtain rfl : k = 0 := h
    exact Nat.zero_le _
  case writeStop | sendResult =>
    obtain rfl : k = 10 := h
    exact le_rfl
  case left => exact h

/-- Ten increments stand behind every result, and at most ten behind every task. -/
theorem increments_of_run {es : List Event} {p : Process}
    (hr : run Process.step {} es = some p) :
    10*(resultsSent es).length ≤ es.countP Event.isIncrement ∧
      es.countP Event.isIncrement ≤ 10*(tasksReceived es).length := by
  obtain ⟨k, hcount, hk⟩ := worked_of_run hr
  have hle := progress_le hk
  have horder := congrArg List.length (worksInOrder_of_run hr)
  simp only [List.length_map, List.length_append] at horder
  omega

end SimulationCluster

import SimulationCluster.TaskConservation
import SimulationCluster.ClientWork
import Mathlib.Data.Multiset.Count

namespace SimulationCluster
open ByteText Transition

variable {N : ℕ}

theorem Process.step_request {p q : Process} {request : Bytes}
    (h : p.step (.worker (.request request)) = some q) :
    p.worker = .sendReady ∧ request = ascii "ready" ∧ q.worker = .recvTask := by
  cases (Process.step_eq_some_iff _ _ _).mp h
  exact ⟨rfl, rfl, rfl⟩

theorem Process.eq_of_worker {p : Process} {w : WorkerPc} (h : p.worker = w) :
    p = ⟨p.flags, p.main, w⟩ := by
  subst h
  rfl

/-- Only a request and its reply begin and end the wait. -/
theorem Process.step_waiting {p q : Process} {e : Event} (h : p.step e = some q)
    (hreq : ∀ request, e ≠ .worker (.request request))
    (hrecv : ∀ reply, e ≠ .worker (.recv reply)) :
    q.worker = .recvTask ↔ p.worker = .recvTask := by
  cases (Process.step_eq_some_iff _ _ _).mp h
  case sendReady => exact absurd rfl (hreq _)
  case recvTask newTask => exact absurd rfl (hrecv newTask)
  case waitStart | roundStop | roundStart | roundPause | increment | returned =>
    dsimp only
    split_ifs <;> simp
  all_goals simp

/-- The number of messages in flight from or to client `i`. -/
def concerning (ms : Multiset (Fin N × Bytes)) (i : Fin N) : ℕ := ms.countP fun x => x.1 = i

theorem concerning_cons (i j : Fin N) (message : Bytes) (ms : Multiset (Fin N × Bytes)) :
    concerning ((i, message) ::ₘ ms) j = concerning ms j + if i = j then 1 else 0 :=
  Multiset.countP_cons _ _ _

theorem concerning_cons_self (i : Fin N) (message : Bytes) (ms : Multiset (Fin N × Bytes)) :
    concerning ((i, message) ::ₘ ms) i = concerning ms i+1 := by
  rw [concerning_cons, if_pos rfl]

theorem concerning_cons_of_ne {i j : Fin N} (h : j ≠ i) (message : Bytes)
    (ms : Multiset (Fin N × Bytes)) : concerning ((i, message) ::ₘ ms) j = concerning ms j := by
  rw [concerning_cons, if_neg (Ne.symm h), Nat.add_zero]

/-- The messages of client `i` under way: its request, the request that is being
answered, and its reply. -/
def TaskSystem.underway (s : TaskSystem N) (i : Fin N) : ℕ :=
  concerning s.requests i + (if s.assign = .send i then 1 else 0) + concerning s.replies i

structure TaskSystem.Lockstep (s : TaskSystem N) : Prop where
  ready : ∀ x ∈ s.requests, x.2 = ascii "ready"
  underway : ∀ i, s.underway i = if (s.clients i).worker = .recvTask then 1 else 0

theorem lockstep_init : TaskSystem.Lockstep ({} : TaskSystem N) where
  ready x hx := absurd hx (Multiset.notMem_zero x)
  underway _ := rfl

section Steps

variable {s : TaskSystem N} {i : Fin N} {p : Process}

/-- A step of client `i` that keeps its account, and touches no message of another client. -/
theorem underway_client {t : TaskSystem N} (hs : s.Lockstep) (hassign : t.assign = s.assign)
    (hclients : t.clients = Function.update s.clients i p)
    (hother : ∀ j, j ≠ i → concerning t.requests j = concerning s.requests j ∧
      concerning t.replies j = concerning s.replies j)
    (hself : concerning t.requests i + concerning t.replies i +
        (if (s.clients i).worker = .recvTask then 1 else 0) =
      concerning s.requests i + concerning s.replies i +
        if p.worker = .recvTask then 1 else 0) (j : Fin N) :
    t.underway j = if (t.clients j).worker = .recvTask then 1 else 0 := by
  have hj := hs.underway j
  unfold TaskSystem.underway at hj ⊢
  rw [hassign, hclients]
  by_cases hij : j = i
  · subst hij
    rw [Function.update_self]
    omega
  · rw [Function.update_of_ne hij, (hother j hij).1, (hother j hij).2, hj]

theorem lockstep_client {e : Event} {t : TaskSystem N} (hs : s.Lockstep)
    (hp : (s.clients i).step e = some p) (ht : s.transfer i e = some t) :
    ({ t with clients := Function.update t.clients i p } : TaskSystem N).Lockstep := by
  unfold TaskSystem.transfer at ht
  split at ht
  · obtain ⟨hold, rfl, hnew⟩ := Process.step_request hp
    obtain rfl := Option.some.inj ht
    constructor
    · intro x hx
      rcases Multiset.mem_cons.mp hx with rfl | hx
      · rfl
      · exact hs.ready x hx
    · refine underway_client (i := i) (p := p) hs rfl rfl ?_ ?_
      · intro j hj
        exact ⟨concerning_cons_of_ne hj _ _, rfl⟩
      · dsimp only
        rw [hold, hnew, concerning_cons_self, if_neg (by simp), if_pos rfl]
        omega
  · obtain ⟨hold, hnew⟩ := Process.step_recv hp
    obtain ⟨hmem, ht⟩ := Option.ite_none_right_eq_some.mp ht
    obtain rfl := Option.some.inj ht
    obtain ⟨rest, hrest⟩ := Multiset.exists_cons_of_mem hmem
    refine ⟨hs.ready, ?_⟩
    rw [hrest, Multiset.erase_cons_head]
    refine underway_client (i := i) (p := p) hs rfl rfl ?_ ?_
    · intro j hj
      rw [hrest, concerning_cons_of_ne hj]
      exact ⟨rfl, rfl⟩
    · dsimp only
      rw [hold, hnew, hrest, concerning_cons_self, if_pos rfl, if_neg (by simp)]
      omega
  all_goals
    obtain rfl := Option.some.inj ht
    refine ⟨hs.ready, underway_client (i := i) (p := p) hs rfl rfl (fun j _ => ⟨rfl, rfl⟩) ?_⟩
  · obtain ⟨_, _, hold, -, hnew⟩ := Process.step_push hp
    rw [hold, hnew]
    simp
  · rename_i hreq hrecv _
    have hsame := Process.step_waiting hp hreq hrecv
    simp only [hsame]

/-- One step of the server moves one message on, or none. -/
theorem lockstep_step {e : TaskEvent N} {t : TaskSystem N} (hs : s.Lockstep)
    (h : s.step e = some t) : t.Lockstep := by
  cases e with
  | client i e =>
    simp only [TaskSystem.step, Option.bind_eq_bind, Option.bind_eq_some_iff,
      Option.some.injEq] at h
    obtain ⟨p, hp, s', hs', rfl⟩ := h
    exact lockstep_client hs hp hs'
  | recvRequest i request =>
    obtain ⟨⟨ha, hmem⟩, ht⟩ := Option.ite_none_right_eq_some.mp h
    obtain rfl := Option.some.inj ht
    obtain ⟨rest, hrest⟩ := Multiset.exists_cons_of_mem hmem
    constructor
    · intro x hx
      exact hs.ready x (Multiset.mem_of_mem_erase hx)
    · intro j
      have hj := hs.underway j
      unfold TaskSystem.underway at hj ⊢
      rw [hrest, ha, if_neg (by simp), concerning_cons] at hj
      rw [hrest, Multiset.erase_cons_head]
      simp only [AssignPc.send.injEq]
      omega
  | sendReply i reply =>
    obtain ⟨⟨ha, rfl⟩, ht⟩ := Option.ite_none_right_eq_some.mp h
    obtain rfl := Option.some.inj ht
    refine ⟨hs.ready, fun j => ?_⟩
    have hj := hs.underway j
    unfold TaskSystem.underway at hj ⊢
    simp only [ha, AssignPc.send.injEq] at hj
    dsimp only
    rw [if_neg (by simp), concerning_cons]
    omega
  | bump =>
    obtain ⟨ha, ht⟩ := Option.ite_none_right_eq_some.mp h
    obtain rfl := Option.some.inj ht
    refine ⟨hs.ready, fun j => ?_⟩
    have hj := hs.underway j
    unfold TaskSystem.underway at hj ⊢
    rw [ha] at hj
    simpa using hj
  | collect result =>
    obtain ⟨hr, ht⟩ := Option.ite_none_right_eq_some.mp h
    obtain rfl := Option.some.inj ht
    exact ⟨hs.ready, hs.underway⟩

end Steps

/-- In every reachable state a client whose worker waits for a task has exactly one
message under way, any other client none, and every request says "ready". -/
theorem lockstep_of_run {es : List (TaskEvent N)} {s : TaskSystem N}
    (h : run TaskSystem.step {} es = some s) : s.Lockstep :=
  run_invariant (fun _ _ _ => lockstep_step) lockstep_init h

/-- A step of `assign_tasks`. -/
def TaskEvent.isAssign : TaskEvent N → Bool
  | .recvRequest _ _ | .sendReply _ _ | .bump => true
  | _ => false

/-- At most `n` steps of `assign_tasks`, and no other step, bring client `i` its next task. -/
def TaskSystem.ServedWithin (s : TaskSystem N) (i : Fin N) (n : ℕ) : Prop :=
  ∃ fs reply t, fs.length ≤ n ∧ (∀ e ∈ fs, e.isAssign = true) ∧
    run TaskSystem.step s (fs ++ [.client i (.worker (.recv reply))]) = some t

section Served

variable {s t : TaskSystem N} {i : Fin N} {n : ℕ}

theorem served_of_step {e : TaskEvent N} (he : s.step e = some t) (ha : e.isAssign = true)
    (ht : t.ServedWithin i n) : s.ServedWithin i (n+1) := by
  obtain ⟨fs, reply, u, hlen, hfs, hrun⟩ := ht
  refine ⟨e :: fs, reply, u, Nat.succ_le_succ hlen, List.forall_mem_cons.mpr ⟨ha, hfs⟩, ?_⟩
  rw [List.cons_append]
  exact (run_cons_iff _ _ _ _ _).mpr ⟨t, he, hrun⟩

theorem served_of_reply {reply : Bytes} (hw : (s.clients i).worker = .recvTask)
    (hr : (i, reply) ∈ s.replies) : s.ServedWithin i 0 := by
  obtain ⟨p, hp⟩ : ∃ p, (s.clients i).step (.worker (.recv reply)) = some p := by
    rw [Process.eq_of_worker hw]
    exact ⟨_, Process.step_of_Step (.recvTask _ _ reply)⟩
  refine ⟨[], reply, { s with
    replies := s.replies.erase (i, reply)
    clients := Function.update s.clients i p }, le_rfl, nofun, ?_⟩
  rw [List.nil_append, run_cons_iff]
  refine ⟨_, ?_, rfl⟩
  simp only [TaskSystem.step, hp, TaskSystem.transfer, if_pos hr, Option.bind_eq_bind,
    Option.bind_some]

theorem served_of_send (hw : (s.clients i).worker = .recvTask) (ha : s.assign = .send i) :
    s.ServedWithin i 1 := by
  apply served_of_step (e := .sendReply i (toStringInt s.workload)) (if_pos ⟨ha, rfl⟩) rfl
  exact served_of_reply hw (Multiset.mem_cons_self _ _)

theorem served_of_request (hw : (s.clients i).worker = .recvTask) (ha : s.assign = .recv)
    (hr : (i, ascii "ready") ∈ s.requests) : s.ServedWithin i 2 := by
  apply served_of_step (e := .recvRequest i (ascii "ready")) (if_pos ⟨ha, hr⟩) rfl
  exact served_of_send hw rfl

theorem served_of_bump (hw : (s.clients i).worker = .recvTask) (ha : s.assign = .bump)
    (hr : (i, ascii "ready") ∈ s.requests) : s.ServedWithin i 3 := by
  apply served_of_step (e := .bump) (if_pos ha) rfl
  exact served_of_request hw rfl hr

theorem ServedWithin.mono {m : ℕ} (h : s.ServedWithin i n) (hm : n ≤ m) : s.ServedWithin i m := by
  obtain ⟨fs, reply, t, hlen, hrest⟩ := h
  exact ⟨fs, reply, t, hlen.trans hm, hrest⟩

theorem mem_of_concerning_ne_zero {ms : Multiset (Fin N × Bytes)} (h : concerning ms i ≠ 0) :
    ∃ message, (i, message) ∈ ms := by
  obtain ⟨⟨j, message⟩, hmem, rfl⟩ := Multiset.countP_pos.mp (Nat.pos_of_ne_zero h)
  exact ⟨message, hmem⟩

theorem served_of_lockstep (hlock : s.Lockstep) (hw : (s.clients i).worker = .recvTask) :
    s.ServedWithin i 4 := by
  have hone := hlock.underway i
  rw [if_pos hw, TaskSystem.underway] at hone
  by_cases hreply : concerning s.replies i = 0
  · by_cases hsend : s.assign = .send i
    · exact ServedWithin.mono (served_of_send hw hsend) (by decide)
    · have hreq : concerning s.requests i ≠ 0 := by
        rw [if_neg hsend, hreply] at hone
        omega
      obtain ⟨message, hmem⟩ := mem_of_concerning_ne_zero hreq
      obtain rfl : message = ascii "ready" := hlock.ready _ hmem
      cases ha : s.assign with
      | recv => exact ServedWithin.mono (served_of_request hw ha hmem) (by decide)
      | bump => exact ServedWithin.mono (served_of_bump hw ha hmem) (by decide)
      | send j =>
        apply served_of_step (e := .sendReply j (toStringInt s.workload)) (if_pos ⟨ha, rfl⟩) rfl
        exact served_of_bump hw rfl hmem
  · obtain ⟨reply, hmem⟩ := mem_of_concerning_ne_zero hreply
    exact ServedWithin.mono (served_of_reply hw hmem) (by decide)

end Served

end SimulationCluster

import SimulationCluster.ClientPace
import SimulationCluster.TaskOrder

namespace SimulationCluster
open ByteText Transition

/-- A worker that has a task in hand, and is not about to send its result or to leave, has
a local step. -/
theorem exists_local_step {p : Process} {newTask : Bytes} (hp : p.Running)
    (hgoing : p.worker.gaveUp = none) (hhand : p.worker.inHand = some newTask)
    (hmark : (Frame.after newTask 10).result ≠ -1)
    (hsend : ∀ result, p.worker ≠ .sendResult newTask result) :
    ∃ e q, e.isLocal = true ∧ Process.Step p e q ∧ q.worker.gaveUp = none ∧
      q.worker.inHand = some newTask := by
  obtain ⟨hsound, hcounts, hstart, -⟩ := hp
  obtain ⟨f, m, w⟩ := p
  dsimp only at hgoing hhand hsend hcounts hstart
  cases w with
  | sendReady | recvTask | left => cases hhand
  | resetStop task => exact ⟨_, _, rfl, .resetStop f m task, rfl, hhand⟩
  | waitStart g =>
    refine ⟨_, _, rfl, .waitStart f m g, ?_, ?_⟩
    all_goals
      dsimp only
      rw [if_neg (by rw [hstart]; decide)]
    · rfl
    · exact hhand
  | testStop g =>
    have hstop : f.stopFlag = 0 := by
      by_contra hx
      have hz := (hsound.stopped rfl hx).2
      exact absurd (hstart.symm.trans hz) (by decide)
    refine ⟨_, _, rfl, .roundStop f m g, ?_, ?_⟩
    all_goals
      dsimp only
      rw [if_neg (not_not.mpr hstop)]
    · rfl
    · exact hhand
  | testStart g =>
    refine ⟨_, _, rfl, .roundStart f m g, ?_, ?_⟩
    all_goals
      dsimp only
      rw [if_pos hstart]
    · rfl
    · exact hhand
  | testPause g =>
    refine ⟨_, _, rfl, .roundPause f m g, ?_, ?_⟩
    all_goals
      dsimp only
      split_ifs <;> first | rfl | exact hhand
  | increment g =>
    refine ⟨_, _, rfl, .increment f m g, ?_, ?_⟩
    all_goals
      dsimp only
      split_ifs <;> first | rfl | exact hhand
  | writeStop g =>
    obtain ⟨task, rfl⟩ := hcounts
    obtain rfl : task = newTask := Option.some.inj hhand
    exact ⟨_, _, rfl, .writeStop f m (.after task 10), if_neg hmark, rfl⟩
  | returned task result =>
    obtain rfl : task = newTask := Option.some.inj hhand
    have hresult : result ≠ -1 := by
      intro hr
      rw [WorkerPc.gaveUp, if_pos hr] at hgoing
      cases hgoing
    refine ⟨_, _, rfl, .returned f m task result, ?_, ?_⟩
    all_goals
      dsimp only
      rw [if_neg hresult]
      rfl
  | sendResult task result =>
    obtain rfl : task = newTask := Option.some.inj hhand
    exact absurd rfl (hsend result)

/-- A local step is one of the worker, and nothing is sent with it. -/
theorem isLocal_facts {e : Event} (h : e.isLocal = true) : e.isWorker = true ∧
    e.isPush = false ∧ e.isCommandWrite = false ∧ resultsSent [e] = [] := by
  cases e with
  | main a => cases h
  | worker a => cases a <;> first | exact ⟨rfl, rfl, rfl, rfl⟩ | cases h

variable {N : ℕ}

/-- A step of `assign_tasks`, or of the worker of client `i`. -/
def TaskEvent.worksFor (i : Fin N) : TaskEvent N → Bool
  | .client j (.worker _) => j == i
  | e => e.isAssign

theorem worksFor_client {e : Event} (h : e.isWorker = true) (i : Fin N) :
    (TaskEvent.client i e).worksFor i = true := by
  cases e with
  | main a => cases h
  | worker a => exact beq_self_eq_true i

/-- At most `k` such steps, with which client `i` sends one result, and no other steps,
bring the result to the collector. -/
def TaskSystem.DeliversWithin (s : TaskSystem N) (i : Fin N) (k : ℕ) : Prop :=
  ∃ fs n t, fs.length ≤ k ∧ (∀ e ∈ fs, e.worksFor i = true) ∧ resultsOf i fs = [resultLine n] ∧
    run TaskSystem.step s (fs ++ [.collect (resultLine n)]) = some t

theorem resultsOf_append (i : Fin N) (es fs : List (TaskEvent N)) :
    resultsOf i (es ++ fs) = resultsOf i es ++ resultsOf i fs := by
  rw [resultsOf, eventsOf_append, resultsSent_append, resultsOf, resultsOf]

theorem step_local {s : TaskSystem N} {i : Fin N} {e : Event} {p : Process}
    (he : e.isLocal = true) (hp : (s.clients i).step e = some p) :
    s.step (.client i e) = some { s with clients := Function.update s.clients i p } := by
  have htransfer : s.transfer i e = some s := by
    cases e with
    | main a => cases he
    | worker a => cases a <;> first | rfl | cases he
  simp [TaskSystem.step, hp, htransfer]

section Delivers

variable {s t : TaskSystem N} {i : Fin N} {k : ℕ}

theorem delivers_of_run {fs : List (TaskEvent N)} (hr : run TaskSystem.step s fs = some t)
    (hfs : ∀ e ∈ fs, e.worksFor i = true) (hnone : resultsOf i fs = [])
    (ht : t.DeliversWithin i k) : s.DeliversWithin i (fs.length+k) := by
  obtain ⟨gs, n, u, hlen, hgs, hone, hrun⟩ := ht
  refine ⟨fs ++ gs, n, u, ?_, ?_, ?_, ?_⟩
  · rw [List.length_append]
    omega
  · exact List.forall_mem_append.mpr ⟨hfs, hgs⟩
  · rw [resultsOf_append, hnone, hone, List.nil_append]
  · rw [List.append_assoc]
    exact (run_append_iff _ _ _ _ _).mpr ⟨t, hr, hrun⟩

theorem DeliversWithin.mono {l : ℕ} (h : s.DeliversWithin i k) (hk : k ≤ l) :
    s.DeliversWithin i l := by
  obtain ⟨fs, n, t, hlen, hrest⟩ := h
  exact ⟨fs, n, t, hlen.trans hk, hrest⟩

theorem delivers_of_sendResult {n : ℕ} (hc : (s.clients i).worker.Counts) (hn : n+10 < 2^31)
    {result : Int32} (hw : (s.clients i).worker = .sendResult (decimal n) result) :
    s.DeliversWithin i 1 := by
  rw [hw] at hc
  obtain rfl : result = (Frame.after (decimal n) 10).result := hc
  obtain ⟨p, hp⟩ : ∃ p, (s.clients i).step (.worker (.push (resultLine n))) = some p := by
    rw [← resultInfo_decimal hn, Process.eq_of_worker hw]
    exact ⟨_, Process.step_of_Step (.sendResult _ _ _ _)⟩
  have hpush : s.step (.client i (.worker (.push (resultLine n)))) = some { s with
      results := resultLine n ::ₘ s.results
      clients := Function.update s.clients i p } := by
    simp [TaskSystem.step, hp, TaskSystem.transfer]
  refine ⟨[.client i (.worker (.push (resultLine n)))], n, _, le_rfl, ?_, ?_,
    (run_cons_iff _ _ _ _ _).mpr ⟨_, hpush, (run_cons_iff _ _ _ _ _).mpr
      ⟨_, if_pos (Multiset.mem_cons_self _ _), rfl⟩⟩⟩
  · simp [TaskEvent.worksFor]
  · rw [resultsOf, eventsOf_client, if_pos rfl]
    rfl

/-- By induction on the steps that are left: a client with a task in hand works it off. -/
theorem delivers_of_inHand {n : ℕ} (hn : n+10 < 2^31) (hp : (s.clients i).Running)
    (hgoing : (s.clients i).worker.gaveUp = none)
    (hhand : (s.clients i).worker.inHand = some (decimal n)) (hk : (s.clients i).worker.ahead ≤ k) :
    s.DeliversWithin i k := by
  induction k generalizing s with
  | zero => exact absurd (ahead_pos hp.counts) (by omega)
  | succ k ih =>
    by_cases hsend : ∃ result, (s.clients i).worker = .sendResult (decimal n) result
    · obtain ⟨result, hsend⟩ := hsend
      exact DeliversWithin.mono (delivers_of_sendResult hp.counts hn hsend) (by omega)
    · obtain ⟨e, q, hlocal, hstep, hgoing', hhand'⟩ := exists_local_step hp hgoing hhand
        (result_ne_mark hn) fun result h => hsend ⟨result, h⟩
      obtain ⟨hworker, hpush, hwrite, hnone⟩ := isLocal_facts hlocal
      have hdown := ahead_step hp hstep
      rw [hworker, hpush, if_pos rfl, if_neg Bool.false_ne_true] at hdown
      have hrest : ({ s with clients := Function.update s.clients i q } :
          TaskSystem N).DeliversWithin i k := by
        apply ih
        all_goals
          dsimp only
          rw [Function.update_self]
        · exact running_step hp hwrite hstep
        · exact hgoing'
        · exact hhand'
        · omega
      have hfirst : run TaskSystem.step s [.client i e] =
          some { s with clients := Function.update s.clients i q } :=
        (run_cons_iff _ _ _ _ _).mpr ⟨_, step_local hlocal (Process.step_of_Step hstep), rfl⟩
      rw [Nat.add_comm]
      refine delivers_of_run hfirst ?_ ?_ hrest
      · simpa using worksFor_client hworker i
      · rw [resultsOf, eventsOf_client, if_pos rfl, hnone]

/-- The id in hand is one that the server has handed out, and its result is in range. -/
theorem delivers_of_task {es : List (TaskEvent N)} {newTask : Bytes}
    (h : run TaskSystem.step {} es = some s) (hrange : (repliesSent es).length ≤ maxTasks)
    (hp : (s.clients i).Running) (hgoing : (s.clients i).worker.gaveUp = none)
    (hhand : (s.clients i).worker.inHand = some newTask) :
    s.DeliversWithin i (s.clients i).worker.ahead := by
  obtain ⟨l, -, hl⟩ := conserved_of_run h hrange
  obtain ⟨n, rfl⟩ := hl.inHand i newTask hhand
  have hlt := Ledger.lt_of_place (hl.place_inHand hhand)
  have hle : l.handed ≤ 2^31-10 := hl.handed_eq ▸ hrange
  exact delivers_of_inHand (by omega) hp hgoing hhand le_rfl

theorem clients_of_assign {fs : List (TaskEvent N)} (hfs : ∀ e ∈ fs, e.isAssign = true)
    (hr : run TaskSystem.step s fs = some t) : t.clients = s.clients ∧ eventsOf i fs = [] := by
  constructor
  · refine run_invariant_along (I := fun t : TaskSystem N => t.clients = s.clients)
      (P := fun _ e => e.isAssign = true) ?_ rfl (along_of_forall _ _ _ fun e he _ => hfs e he) hr
    intro s' e t' hs ha he
    cases TaskSystem.step_cases he with
    | recvRequest | sendReply | bump => exact hs
    | recvTask | sendResult | other | collect => cases ha
  · apply List.filterMap_eq_nil_iff.mpr
    intro e he
    cases e with
    | client j e => cases hfs _ he
    | _ => rfl

theorem delivers_of_recvTask {es : List (TaskEvent N)} (h : run TaskSystem.step {} es = some s)
    (hrange : (repliesSent es).length+4 ≤ maxTasks) (hp : (s.clients i).Running)
    (hw : (s.clients i).worker = .recvTask) : s.DeliversWithin i 50 := by
  obtain ⟨fs, reply, t, hlen, hfs, hrun⟩ := served_of_lockstep (lockstep_of_run h) hw
  obtain ⟨m, hm, he⟩ := (run_snoc_iff _ _ _ _ _).mp hrun
  obtain ⟨hclients, hnone⟩ := clients_of_assign (i := i) hfs hm
  obtain ⟨p, hq, hclient⟩ : ∃ p, (s.clients i).step (.worker (.recv reply)) = some p ∧
      t.clients i = p := by
    rw [← hclients]
    cases TaskSystem.step_cases he with
    | recvTask i p reply hq hr => exact ⟨p, hq, Function.update_self _ _ _⟩
    | other i p e requests hq hrecv hpush => exact absurd rfl (hrecv reply)
  have hnew := (Process.step_recv hq).2
  -- the server may hand out up to four more tasks before this client is answered
  have hsent : (repliesSent (es ++ (fs ++ [.client i (.worker (.recv reply))]))).length ≤
      maxTasks := by
    have hle : (repliesSent fs).length ≤ fs.length := List.length_filterMap_le _ _
    rw [repliesSent_append, repliesSent_snoc rfl, List.length_append]
    omega
  have ht : t.DeliversWithin i 45 := by
    rw [← hclient] at hnew
    have hrunning : (t.clients i).Running := by
      rw [hclient]
      exact running_step hp rfl ((Process.step_eq_some_iff _ _ _).mp hq)
    have hgoing : (t.clients i).worker.gaveUp = none := by rw [hnew]; rfl
    have hhand : (t.clients i).worker.inHand = some reply := by rw [hnew]; rfl
    have hrest := delivers_of_task ((run_append_iff _ _ _ _ _).mpr ⟨s, h, hrun⟩) hsent hrunning
      hgoing hhand
    rwa [hnew] at hrest
  refine DeliversWithin.mono (delivers_of_run hrun ?_ ?_ ht) ?_
  · intro e he
    rcases List.mem_append.mp he with he | he
    · have hassign := hfs e he
      cases e with
      | client => cases hassign
      | _ => exact hassign
    · obtain rfl := List.mem_singleton.mp he
      exact worksFor_client rfl i
  · rw [resultsOf, eventsOf_append, hnone, eventsOf_client, if_pos rfl]
    rfl
  · rw [List.length_append, List.length_singleton]
    omega

theorem delivers_of_sendReady {es : List (TaskEvent N)} (h : run TaskSystem.step {} es = some s)
    (hrange : (repliesSent es).length+4 ≤ maxTasks) (hp : (s.clients i).Running)
    (hw : (s.clients i).worker = .sendReady) : s.DeliversWithin i 51 := by
  obtain ⟨p, hq⟩ : ∃ p, (s.clients i).step (.worker (.request (ascii "ready"))) = some p := by
    rw [Process.eq_of_worker hw]
    exact ⟨_, Process.step_of_Step (.sendReady _ _)⟩
  have hstep : s.step (.client i (.worker (.request (ascii "ready")))) = some { s with
      requests := (i, ascii "ready") ::ₘ s.requests
      clients := Function.update s.clients i p } := by
    simp [TaskSystem.step, hq, TaskSystem.transfer]
  have hrest : ({ s with
      requests := (i, ascii "ready") ::ₘ s.requests
      clients := Function.update s.clients i p } : TaskSystem N).DeliversWithin i 50 := by
    refine delivers_of_recvTask ((run_snoc_iff _ _ _ _ _).mpr ⟨s, h, hstep⟩) ?_ ?_ ?_
    · rwa [repliesSent_snoc rfl]
    all_goals
      dsimp only
      rw [Function.update_self]
    · exact running_step hp rfl ((Process.step_eq_some_iff _ _ _).mp hq)
    · exact (Process.step_request hq).2.2
  refine delivers_of_run ((run_cons_iff _ _ _ _ []).mpr ⟨_, hstep, rfl⟩) ?_ ?_ hrest
  · simpa using worksFor_client rfl i
  · rw [resultsOf, eventsOf_client, if_pos rfl]
    rfl

end Delivers

/-- In every reachable state a client that has been started and is not paused, and whose
`simulation` has not given up, can finish a task: at most 51 steps of its worker and of
`assign_tasks` bring one more result to the collector. No step of another client, and none
of any `main`, is needed. -/
theorem running_client_delivers (es : List (TaskEvent N)) (s : TaskSystem N) (i : Fin N)
    (h : run TaskSystem.step {} es = some s) (hrange : (repliesSent es).length+4 ≤ maxTasks)
    (hstart : (s.clients i).flags.startFlag = 1) (hpause : (s.clients i).flags.pauseFlag = 0)
    (hgoing : (s.clients i).worker.gaveUp = none) : s.DeliversWithin i 51 := by
  have hrun := run_eventsOf h i
  have hp : (s.clients i).Running := ⟨sound_of_run hrun, counts_of_run hrun, hstart, hpause⟩
  cases hw : (s.clients i).worker with
  | sendReady => exact delivers_of_sendReady h hrange hp hw
  | recvTask => exact DeliversWithin.mono (delivers_of_recvTask h hrange hp hw) (by decide)
  | left newTask =>
    rw [hw] at hgoing
    cases hgoing
  | _ =>
    have hhand : ∃ newTask, (s.clients i).worker.inHand = some newTask := by
      rw [hw]
      exact ⟨_, rfl⟩
    obtain ⟨newTask, hhand⟩ := hhand
    have hall := delivers_of_task h (by omega) hp hgoing hhand
    exact DeliversWithin.mono hall ((ahead_le _).trans (by decide))

/-- A client has just been started, and the server is about to answer another one. -/
def startedBusy (i j : Fin N) : List (TaskEvent N) :=
  (assertIdle ++ startCommand).map (.client i) ++
    [.client j (.worker (.request (ascii "ready"))), .recvRequest j (ascii "ready")]

theorem running_client_delivers_busy : ∃ s : TaskSystem 2,
    run TaskSystem.step {} (startedBusy 0 1) = some s ∧ s.assign = .send 1 ∧ s.DeliversWithin 0 51 :=
  ⟨_, rfl, rfl, running_client_delivers (startedBusy 0 1) _ 0 rfl (by decide) rfl rfl rfl⟩

end SimulationCluster

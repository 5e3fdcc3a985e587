import SimulationCluster.TaskExchange
import Mathlib.Algebra.BigOperators.Ring.Finset
import Mathlib.Algebra.Order.BigOperators.Group.Finset
import Mathlib.Data.Fintype.Basic

namespace SimulationCluster
open ByteText Transition

variable {N : ℕ}

/-- The replies that were sent to client `i`, in order. -/
def repliesTo (i : Fin N) (es : List (TaskEvent N)) : List Bytes :=
  es.filterMap fun
    | .sendReply j reply => if j = i then some reply else none
    | _ => none

theorem repliesTo_append (i : Fin N) (es fs : List (TaskEvent N)) :
    repliesTo i (es ++ fs) = repliesTo i es ++ repliesTo i fs := List.filterMap_append

theorem repliesTo_sendReply (i j : Fin N) (reply : Bytes) :
    repliesTo i [.sendReply j reply] = if j = i then [reply] else [] := by
  by_cases hj : j = i <;> simp [repliesTo, hj]

/-- The tasks that client `i` has received. -/
def tasksOf (i : Fin N) (es : List (TaskEvent N)) : List Bytes := tasksReceived (eventsOf i es)

theorem tasksOf_append (i : Fin N) (es fs : List (TaskEvent N)) :
    tasksOf i (es ++ fs) = tasksOf i es ++ tasksOf i fs := by
  rw [tasksOf, eventsOf_append, tasksReceived_append, tasksOf, tasksOf]

theorem tasksOf_client (i j : Fin N) (e : Event) :
    tasksOf i [.client j e] = if j = i then tasksReceived [e] else [] := by
  rw [tasksOf, eventsOf_client]
  split_ifs <;> rfl

/-- What was sent to a client it has received, but for at most one reply in flight. -/
structure Delivered (es : List (TaskEvent N)) (s : TaskSystem N) : Prop where
  lockstep : s.Lockstep
  replies : ∀ i, ∃ l, repliesTo i es = tasksOf i es ++ l ∧ concerning s.replies i = l.length ∧
    ∀ reply, (i, reply) ∈ s.replies → reply ∈ l

theorem delivered_init : Delivered [] ({} : TaskSystem N) where
  lockstep := lockstep_init
  replies _ := ⟨[], rfl, rfl, fun _ hr => absurd hr (Multiset.notMem_zero _)⟩

section Steps

variable {es : List (TaskEvent N)} {s t : TaskSystem N} {e : TaskEvent N}

theorem delivered_keep (hs : Delivered es s) (ht : t.Lockstep) (hr : t.replies = s.replies)
    (hsent : ∀ i, repliesTo i [e] = []) (hgot : ∀ i, tasksOf i [e] = []) :
    Delivered (es ++ [e]) t := by
  refine ⟨ht, fun i => ?_⟩
  rw [repliesTo_append, tasksOf_append, hsent, hgot, List.append_nil, List.append_nil, hr]
  exact hs.replies i

theorem tasksOf_eq_nil {j : Fin N} {e : Event} (h : ∀ reply, e ≠ .worker (.recv reply))
    (i : Fin N) : tasksOf i [.client j e] = [] := by
  rw [tasksOf_client, tasksReceived_eq_nil h, ite_self]

theorem delivered_recvTask {i : Fin N} {p : Process} {reply : Bytes} (hs : Delivered es s)
    (ht : TaskSystem.Lockstep { s with
      replies := s.replies.erase (i, reply)
      clients := Function.update s.clients i p }) (hr : (i, reply) ∈ s.replies) :
    Delivered (es ++ [.client i (.worker (.recv reply))]) { s with
      replies := s.replies.erase (i, reply)
      clients := Function.update s.clients i p } := by
  refine ⟨ht, fun j => ?_⟩
  obtain ⟨l, hl, hlen, hmem⟩ := hs.replies j
  obtain ⟨rest, hrest⟩ := Multiset.exists_cons_of_mem hr
  rw [repliesTo_append, tasksOf_append, tasksOf_client, hl]
  simp only [hrest, Multiset.erase_cons_head]
  by_cases hj : i = j
  · subst hj
    have hone := hs.lockstep.underway i
    rw [TaskSystem.underway] at hone
    have hle : l.length ≤ 1 := by
      split_ifs at hone <;> omega
    obtain rfl : l = [reply] := by
      have hin := hmem reply hr
      have hpos := List.length_pos_of_mem hin
      obtain ⟨a, rfl⟩ := List.length_eq_one_iff.mp (by omega : l.length = 1)
      rw [List.mem_singleton.mp hin]
    rw [hrest, concerning_cons_self, List.length_singleton] at hlen
    refine ⟨[], ?_, ?_, ?_⟩
    · rw [if_pos rfl]
      rfl
    · rw [List.length_nil]
      omega
    · intro reply' hr'
      have hpos : 0 < concerning rest i := Multiset.countP_pos.mpr ⟨_, hr', rfl⟩
      omega
  · rw [if_neg hj, List.append_nil]
    refine ⟨l, List.append_nil _, ?_, ?_⟩
    · rw [hrest, concerning_cons_of_ne (Ne.symm hj)] at hlen
      exact hlen
    · intro reply' hr'
      apply hmem
      rw [hrest]
      exact Multiset.mem_cons_of_mem hr'

theorem delivered_sendReply {i : Fin N} {reply : Bytes} (hs : Delivered es s)
    (ht : TaskSystem.Lockstep { s with assign := .bump, replies := (i, reply) ::ₘ s.replies }) :
    Delivered (es ++ [.sendReply i reply])
      { s with assign := .bump, replies := (i, reply) ::ₘ s.replies } := by
  refine ⟨ht, fun j => ?_⟩
  obtain ⟨l, hl, hlen, hmem⟩ := hs.replies j
  rw [repliesTo_append, repliesTo_sendReply, tasksOf_append, hl]
  refine ⟨l ++ if i = j then [reply] else [], ?_, ?_, ?_⟩
  · rw [List.append_assoc, List.append_assoc]
    rfl
  · rw [concerning_cons, hlen, List.length_append]
    split_ifs <;> rfl
  · intro reply' hr'
    rcases Multiset.mem_cons.mp hr' with heq | hr'
    · obtain ⟨rfl, rfl⟩ := Prod.mk.inj heq
      rw [if_pos rfl]
      exact List.mem_append_right _ List.mem_cons_self
    · exact List.mem_append_left _ (hmem reply' hr')

theorem delivered_step (hs : Delivered es s) (he : s.step e = some t) :
    Delivered (es ++ [e]) t := by
  have ht := lockstep_step hs.lockstep he
  cases TaskSystem.step_cases he with
  | recvTask i p reply hp hr => exact delivered_recvTask hs ht hr
  | sendReply i ha => exact delivered_sendReply hs ht
  | sendResult i p result hp =>
    exact delivered_keep hs ht rfl (fun _ => rfl) (tasksOf_eq_nil nofun)
  | other i p e requests hp hrecv hpush =>
    exact delivered_keep hs ht rfl (fun _ => rfl) (tasksOf_eq_nil hrecv)
  | recvRequest | bump | collect =>
    exact delivered_keep hs ht rfl (fun _ => rfl) (fun _ => rfl)

end Steps

theorem delivered_of_run {es : List (TaskEvent N)} {s : TaskSystem N}
    (h : run TaskSystem.step {} es = some s) : Delivered es s :=
  run_history (fun _ _ _ _ => delivered_step) delivered_init h

theorem tasksOf_replies {es : List (TaskEvent N)} {s : TaskSystem N} {i : Fin N}
    (h : run TaskSystem.step {} es = some s) : tasksOf i es <+: repliesTo i es := by
  obtain ⟨l, hl, -⟩ := (delivered_of_run h).replies i
  exact ⟨l, hl.symm⟩

/-- The requests that client `i` has sent. -/
def requestsOf (i : Fin N) (es : List (TaskEvent N)) : List Bytes := requestsSent (eventsOf i es)

theorem requestsOf_append (i : Fin N) (es fs : List (TaskEvent N)) :
    requestsOf i (es ++ fs) = requestsOf i es ++ requestsOf i fs := by
  rw [requestsOf, eventsOf_append, requestsSent_append, requestsOf, requestsOf]

theorem requestsOf_client (i j : Fin N) (e : Event) :
    requestsOf i [.client j e] = if j = i then requestsSent [e] else [] := by
  rw [requestsOf, eventsOf_client]
  split_ifs <;> rfl

/-- Every request of client `i` is answered, being answered or in flight. -/
def Answered (i : Fin N) (es : List (TaskEvent N)) (s : TaskSystem N) : Prop :=
  (requestsOf i es).length =
    (repliesTo i es).length+concerning s.requests i+if s.assign = .send i then 1 else 0

theorem transfer_requests {s t : TaskSystem N} {i : Fin N} {e : Event}
    (ht : s.transfer i e = some t) (j : Fin N) : t.assign = s.assign ∧
      concerning t.requests j =
        concerning s.requests j + if i = j then (requestsSent [e]).length else 0 := by
  unfold TaskSystem.transfer at ht
  split at ht
  · obtain rfl := Option.some.inj ht
    exact ⟨rfl, concerning_cons _ _ _ _⟩
  · obtain ⟨-, ht⟩ := Option.ite_none_right_eq_some.mp ht
    obtain rfl := Option.some.inj ht
    exact ⟨rfl, by rw [requestsSent_eq_nil (by simp), List.length_nil, ite_self, Nat.add_zero]⟩
  · obtain rfl := Option.some.inj ht
    exact ⟨rfl, by rw [requestsSent_eq_nil (by simp), List.length_nil, ite_self, Nat.add_zero]⟩
  · rename_i hreq _ _
    obtain rfl := Option.some.inj ht
    exact ⟨rfl, by rw [requestsSent_eq_nil hreq, List.length_nil, ite_self, Nat.add_zero]⟩

theorem answered_step {j : Fin N} {es : List (TaskEvent N)} {s t : TaskSystem N}
    {e : TaskEvent N} (hs : Answered j es s) (h : s.step e = some t) :
    Answered j (es ++ [e]) t := by
  unfold Answered at hs ⊢
  rw [requestsOf_append, repliesTo_append, List.length_append, List.length_append, hs]
  cases e with
  | client i e =>
    simp only [TaskSystem.step, Option.bind_eq_bind, Option.bind_eq_some_iff,
      Option.some.injEq] at h
    obtain ⟨p, -, s', hs', rfl⟩ := h
    obtain ⟨hassign, hrequests⟩ := transfer_requests hs' j
    have hnone : repliesTo j [.client i e] = [] := rfl
    rw [requestsOf_client, apply_ite List.length, hnone]
    dsimp only [List.length_nil]
    rw [hassign, hrequests]
    omega
  | recvRequest i request =>
    obtain ⟨⟨ha, hmem⟩, ht⟩ := Option.ite_none_right_eq_some.mp h
    obtain rfl := Option.some.inj ht
    obtain ⟨rest, hrest⟩ := Multiset.exists_cons_of_mem hmem
    have hnone : requestsOf j [.recvRequest i request] = [] ∧
        repliesTo j [.recvRequest i request] = [] := ⟨rfl, rfl⟩
    rw [hnone.1, hnone.2, hrest, Multiset.erase_cons_head, ha, if_neg (by simp), concerning_cons]
    simp only [AssignPc.send.injEq, List.length_nil]
    omega
  | sendReply i reply =>
    obtain ⟨⟨ha, rfl⟩, ht⟩ := Option.ite_none_right_eq_some.mp h
    obtain rfl := Option.some.inj ht
    have hnone : requestsOf j [.sendReply i (toStringInt s.workload)] = [] := rfl
    rw [hnone, repliesTo_sendReply, apply_ite List.length, ha]
    simp only [AssignPc.send.injEq, List.length_nil, List.length_singleton, reduceCtorEq, if_false]
    omega
  | bump =>
    obtain ⟨ha, ht⟩ := Option.ite_none_right_eq_some.mp h
    obtain rfl := Option.some.inj ht
    rw [ha, if_neg (by simp)]
    rfl
  | collect result =>
    obtain ⟨-, ht⟩ := Option.ite_none_right_eq_some.mp h
    obtain rfl := Option.some.inj ht
    rfl

theorem answered_of_run {i : Fin N} {es : List (TaskEvent N)} {s : TaskSystem N}
    (h : run TaskSystem.step {} es = some s) : Answered i es s := by
  have hinit : Answered i [] ({} : TaskSystem N) := rfl
  exact run_history (I := Answered i) (fun _ _ _ _ => answered_step) hinit h

/-- The exchange of every client in every reachable state: each request is answered
once, each answer is received once, at most one message of a client is under way, and
one is exactly while its worker waits. -/
theorem exchange_exact (es : List (TaskEvent N)) (s : TaskSystem N) (i : Fin N)
    (h : run TaskSystem.step {} es = some s) :
    (requestsOf i es).length =
      (repliesTo i es).length+concerning s.requests i+(if s.assign = .send i then 1 else 0) ∧
    (repliesTo i es).length = (tasksOf i es).length+concerning s.replies i ∧
    tasksOf i es <+: repliesTo i es ∧
    s.underway i = (if (s.clients i).worker = .recvTask then 1 else 0) ∧
    ∀ request, (i, request) ∈ s.requests → request = ascii "ready" := by
  have hlock := lockstep_of_run h
  obtain ⟨l, hl, hlen, -⟩ := (delivered_of_run h).replies i
  refine ⟨?_, ?_, ⟨l, hl.symm⟩, hlock.underway i, fun request hmem => hlock.ready _ hmem⟩
  · exact answered_of_run h
  · rw [hl, List.length_append, hlen]

/-- Client 0 has been answered twice and has left; the reply to client 1 is in flight. -/
theorem exchange_exact_stopped : ∃ s, run TaskSystem.step {} stoppedTrace = some s ∧
    tasksOf 0 stoppedTrace = [ascii "0", ascii "1"] ∧
    tasksOf 0 stoppedTrace <+: repliesTo 0 stoppedTrace ∧
    (repliesTo 1 stoppedTrace).length = (tasksOf 1 stoppedTrace).length+1 ∧
    s.underway 1 = 1 := by
  obtain ⟨-, -, hprefix, -⟩ := exchange_exact stoppedTrace _ 0 rfl
  obtain ⟨-, hreplies, -, hunderway, -⟩ := exchange_exact stoppedTrace _ 1 rfl
  exact ⟨_, rfl, rfl, hprefix, hreplies, hunderway⟩

theorem repliesTo_sublist (i : Fin N) (es : List (TaskEvent N)) :
    (repliesTo i es).Sublist (repliesSent es) := by
  induction es with
  | nil => exact List.Sublist.refl []
  | cons e es ih =>
    rw [← List.singleton_append, repliesTo_append, repliesSent_append]
    apply List.Sublist.append _ ih
    cases e with
    | sendReply j reply =>
      rw [repliesTo_sendReply]
      split_ifs
      · exact List.Sublist.refl [reply]
      · exact List.nil_sublist [reply]
    | _ => exact List.Sublist.refl []

theorem count_repliesTo_le {i j : Fin N} (h : j ≠ i) (es : List (TaskEvent N)) (reply : Bytes) :
    (repliesTo i es).count reply + (repliesTo j es).count reply ≤ (repliesSent es).count reply := by
  induction es with
  | nil => exact le_rfl
  | cons e es ih =>
    rw [← List.singleton_append, repliesTo_append, repliesTo_append, repliesSent_append,
      List.count_append, List.count_append, List.count_append]
    have hhead : (repliesTo i [e]).count reply + (repliesTo j [e]).count reply ≤
        (repliesSent [e]).count reply := by
      cases e with
      | sendReply k reply' =>
        rw [repliesTo_sendReply, repliesTo_sendReply]
        by_cases hk : k = i
        · subst hk
          rw [if_pos rfl, if_neg (Ne.symm h)]
          exact le_rfl
        · rw [if_neg hk, List.count_nil, Nat.zero_add]
          split_ifs
          · exact le_rfl
          · exact Nat.zero_le _
      | _ => exact le_rfl
    omega

/-- The results that client `i` has sent. -/
def resultsOf (i : Fin N) (es : List (TaskEvent N)) : List Bytes := resultsSent (eventsOf i es)

/-- Each client gets increasing ids, no two clients get the same id, and a client sends
the results of its tasks in the order of the tasks; at most its last one is missing. -/
theorem tasks_in_order (es : List (TaskEvent N)) (s : TaskSystem N) (i : Fin N)
    (h : run TaskSystem.step {} es = some s) (hrange : (repliesSent es).length ≤ maxTasks) :
    ∃ ns : List ℕ, ns.Pairwise (· < ·) ∧ tasksOf i es = ns.map decimal ∧
      resultsOf i es <+: ns.map resultLine ∧ ns.length ≤ (resultsOf i es).length+1 ∧
      ∀ j, j ≠ i → ∀ n ∈ ns, decimal n ∉ tasksOf j es := by
  obtain ⟨l, -, hl⟩ := conserved_of_run h hrange
  have hsent := hl.sent
  have hsub : (tasksOf i es).Sublist ((List.range l.handed).map decimal) := by
    rw [← hsent]
    exact (tasksOf_replies h).sublist.trans (repliesTo_sublist i es)
  obtain ⟨ms, hms, htasks⟩ := List.sublist_map_iff.mp hsub
  have hlt (n : ℕ) (hn : n ∈ ms) : n+10 < 2^31 := by
    have hk := List.mem_range.mp (hms.subset hn)
    have hle : l.handed ≤ 2^31-10 := hl.handed_eq ▸ hrange
    omega
  have horder := worksInOrder_of_run (run_eventsOf h i)
  have hlines : (tasksOf i es).map resultOf = ms.map resultLine := by
    rw [htasks, List.map_map]
    apply List.map_congr_left
    intro n hn
    exact resultInfo_decimal (hlt n hn)
  refine ⟨ms, List.pairwise_lt_range.sublist hms, htasks, ?_, ?_, ?_⟩
  · rw [← hlines]
    exact ⟨_, horder.symm⟩
  · have hlen := congrArg List.length (hlines.symm.trans horder)
    have hone : (s.clients i).worker.unsent.toList.length ≤ 1 := Option.length_toList_le
    rw [List.length_map, List.length_append, List.length_map] at hlen
    change ms.length = (resultsOf i es).length+_ at hlen
    omega
  · intro j hj n hn hmem
    have hi : 1 ≤ (repliesTo i es).count (decimal n) := by
      apply List.count_pos_iff.mpr
      apply (tasksOf_replies h).subset
      rw [htasks]
      exact List.mem_map_of_mem hn
    have hj' : 1 ≤ (repliesTo j es).count (decimal n) :=
      List.count_pos_iff.mpr ((tasksOf_replies h).subset hmem)
    have hone : (repliesSent es).count (decimal n) ≤ 1 := by
      rw [hsent]
      exact List.nodup_iff_count_le_one.mp (List.nodup_range.map decimal_injective) _
    have := count_repliesTo_le hj es (decimal n)
    omega

/-- Client 0 has sent the result of its first task, and has dropped the second one. -/
theorem tasks_in_order_stopped : (resultsOf 0 stoppedTrace).length = 1 ∧ ∃ ns : List ℕ,
    ns.Pairwise (· < ·) ∧ tasksOf 0 stoppedTrace = ns.map decimal ∧
      resultsOf 0 stoppedTrace <+: ns.map resultLine ∧ ns.length ≤ 1+1 := by
  obtain ⟨ns, hpairwise, htasks, hresults, hlen, -⟩ :=
    tasks_in_order stoppedTrace _ 0 rfl (by decide)
  exact ⟨rfl, ns, hpairwise, htasks, hresults, hlen⟩

def totalResults (es : List (TaskEvent N)) : ℕ := ∑ i, (resultsOf i es).length

def totalTasks (es : List (TaskEvent N)) : ℕ := ∑ i, (tasksOf i es).length

theorem totalResults_append (es fs : List (TaskEvent N)) :
    totalResults (es ++ fs) = totalResults es+totalResults fs := by
  simp only [totalResults, resultsOf, eventsOf_append, resultsSent_append, List.length_append,
    Finset.sum_add_distrib]

theorem totalTasks_append (es fs : List (TaskEvent N)) :
    totalTasks (es ++ fs) = totalTasks es+totalTasks fs := by
  simp only [totalTasks, tasksOf_append, List.length_append, Finset.sum_add_distrib]

theorem totalResults_client (j : Fin N) (e : Event) :
    totalResults [.client j e] = (resultsSent [e]).length := by
  have hone (i : Fin N) : (resultsOf i [.client j e]).length =
      if j = i then (resultsSent [e]).length else 0 := by
    rw [resultsOf, eventsOf_client]
    split_ifs <;> rfl
  simp only [totalResults, hone, Finset.sum_ite_eq, Finset.mem_univ, if_true]

theorem totalTasks_client (j : Fin N) (e : Event) :
    totalTasks [.client j e] = (tasksReceived [e]).length := by
  have hone (i : Fin N) : (tasksOf i [.client j e]).length =
      if j = i then (tasksReceived [e]).length else 0 := by
    rw [tasksOf_client]
    split_ifs <;> rfl
  simp only [totalTasks, hone, Finset.sum_ite_eq, Finset.mem_univ, if_true]

theorem total_other {e : TaskEvent N} (h : ∀ i, eventsOf i [e] = []) :
    totalResults [e] = 0 ∧ totalTasks [e] = 0 := by
  constructor
  · apply Finset.sum_eq_zero
    intro i _
    rw [resultsOf, h i]
    rfl
  · apply Finset.sum_eq_zero
    intro i _
    rw [tasksOf, h i]
    rfl

/-- Every result sent is in flight or collected, and every reply sent in flight or received. -/
structure Balanced (es : List (TaskEvent N)) (s : TaskSystem N) : Prop where
  results : totalResults es = s.results.card+s.collected.length
  tasks : totalTasks es+s.replies.card = (repliesSent es).length

theorem balanced_init : Balanced [] ({} : TaskSystem N) where
  results := Finset.sum_eq_zero fun _ _ => rfl
  tasks := by
    have hzero : totalTasks ([] : List (TaskEvent N)) = 0 := Finset.sum_eq_zero fun _ _ => rfl
    rw [hzero]
    rfl

theorem balanced_step {es : List (TaskEvent N)} {s t : TaskSystem N} {e : TaskEvent N}
    (hs : Balanced es s) (he : s.step e = some t) : Balanced (es ++ [e]) t := by
  obtain ⟨hresults, htasks⟩ := hs
  have hother (h : ∀ i, eventsOf i [e] = []) := total_other h
  refine ⟨?_, ?_⟩
  all_goals
    simp only [totalResults_append, totalTasks_append, repliesSent_append, List.length_append]
  · cases TaskSystem.step_cases he with
    | recvTask i p reply hp hr =>
      rw [totalResults_client, hresults]
      rfl
    | sendResult i p result hp =>
      rw [totalResults_client, hresults, Multiset.card_cons]
      change _+1 = _+1+s.collected.length
      omega
    | other i p e requests hp hrecv hpush =>
      rw [totalResults_client, hresults, resultsSent_eq_nil hpush]
      rfl
    | collect result hr =>
      have hcard := Multiset.card_erase_add_one hr
      rw [(hother fun _ => rfl).1, hresults, List.length_append]
      change _ = Multiset.card (s.results.erase _)+(_+1)
      omega
    | recvRequest | bump | sendReply =>
      rw [(hother fun _ => rfl).1]
      exact hresults
  · rw [← htasks]
    cases TaskSystem.step_cases he with
    | recvTask i p reply hp hr =>
      have hcard := Multiset.card_erase_add_one hr
      rw [totalTasks_client]
      change _+1+Multiset.card (s.replies.erase _) = _+0
      omega
    | sendResult i p result hp =>
      rw [totalTasks_client]
      rfl
    | other i p e requests hp hrecv hpush =>
      rw [totalTasks_client, tasksReceived_eq_nil hrecv]
      rfl
    | sendReply i ha =>
      rw [(hother fun _ => rfl).2, Multiset.card_cons]
      rfl
    | recvRequest | bump | collect =>
      rw [(hother fun _ => rfl).2]
      rfl

/-- The increments of all clients together: ten for every result that has arrived or is
on its way, and at most ten for every task handed out. -/
theorem work_conserved (es : List (TaskEvent N)) (s : TaskSystem N)
    (h : run TaskSystem.step {} es = some s) :
    10*(s.results.card+s.collected.length) ≤ ∑ i, (eventsOf i es).countP Event.isIncrement ∧
      ∑ i, (eventsOf i es).countP Event.isIncrement ≤ 10*(repliesSent es).length := by
  have hbal : Balanced es s := run_history (fun _ _ _ _ => balanced_step) balanced_init h
  have hinc (i : Fin N) := increments_of_run (run_eventsOf h i)
  constructor
  · rw [← hbal.results, totalResults, Finset.mul_sum]
    exact Finset.sum_le_sum fun i _ => (hinc i).1
  · calc ∑ i, (eventsOf i es).countP Event.isIncrement
        ≤ ∑ i, 10*(tasksOf i es).length := Finset.sum_le_sum fun i _ => (hinc i).2
      _ = 10*totalTasks es := (Finset.mul_sum _ _ _).symm
      _ ≤ 10*(repliesSent es).length := by
        have := hbal.tasks
        omega

theorem work_conserved_stopped :
    10*(0+1) ≤ ∑ i, (eventsOf i stoppedTrace).countP Event.isIncrement ∧
      ∑ i, (eventsOf i stoppedTrace).countP Event.isIncrement ≤ 10*3 :=
  work_conserved stoppedTrace _ rfl

end SimulationCluster

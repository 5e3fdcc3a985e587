import SimulationCluster.Ledger
import SimulationCluster.TaskCustody
import Mathlib.Logic.Relation

namespace SimulationCluster
open ByteText Transition

variable {N : ℕ}

theorem repliesSent_append (es fs : List (TaskEvent N)) :
    repliesSent (es ++ fs) = repliesSent es ++ repliesSent fs := List.filterMap_append

theorem eventsOf_append (i : Fin N) (es fs : List (TaskEvent N)) :
    eventsOf i (es ++ fs) = eventsOf i es ++ eventsOf i fs := List.filterMap_append

theorem eventsOf_client (i j : Fin N) (e : Event) :
    eventsOf i [.client j e] = if j = i then [e] else [] := by
  by_cases hj : j = i <;> simp [eventsOf, hj]

/-- The steps of one client make up a run of that client. -/
theorem run_eventsOf {es : List (TaskEvent N)} {s : TaskSystem N}
    (h : run TaskSystem.step {} es = some s) (i : Fin N) :
    run Process.step {} (eventsOf i es) = some (s.clients i) := by
  refine run_history (I := fun es s => run Process.step {} (eventsOf i es) = some (s.clients i))
    (fun es s e t hs he => ?_) rfl h
  have hstep (j : Fin N) (e : Event) (p : Process) (hp : (s.clients j).step e = some p) :
      run Process.step {} (eventsOf i (es ++ [.client j e])) =
        some (Function.update s.clients j p i) := by
    rw [eventsOf_append, eventsOf_client]
    by_cases hj : j = i
    · subst hj
      rw [if_pos rfl, Function.update_self]
      exact (run_snoc_iff _ _ _ _ _).mpr ⟨_, hs, hp⟩
    · rw [if_neg hj, List.append_nil, Function.update_of_ne (Ne.symm hj)]
      exact hs
  cases TaskSystem.step_cases he with
  | recvTask j p reply hp => exact hstep j _ p hp
  | sendResult j p result hp => exact hstep j _ p hp
  | other j p e requests hp => exact hstep j e p hp
  | recvRequest | sendReply | bump | collect =>
    rw [eventsOf_append]
    exact (List.append_nil _).symm ▸ hs

theorem mem_eventsOf {i : Fin N} {es : List (TaskEvent N)} {e : Event}
    (h : e ∈ eventsOf i es) : .client i e ∈ es := by
  obtain ⟨e', he', hsome⟩ := List.mem_filterMap.mp h
  split at hsome
  case h_1 j e'' =>
    obtain ⟨rfl, rfl⟩ : j = i ∧ e'' = e := by simpa using hsome
    exact he'
  case h_2 => cases hsome

theorem decimal_eq_iff (m n : ℕ) : decimal n = decimal m ↔ m = n :=
  decimal_injective.eq_iff.trans eq_comm

theorem resultLine_eq_iff (m n : ℕ) : resultLine n = resultLine m ↔ m = n :=
  resultLine_injective.eq_iff.trans eq_comm

section Clients

variable {s : TaskSystem N} {i : Fin N} {p : Process} {n : ℕ} (f : WorkerPc → Option Bytes)

/-- A count that looks into the clients (`f` is `WorkerPc.inHand` or `WorkerPc.dropped`),
after client `i` has gone on to `p`. -/
theorem count_keep (h : f p.worker = f (s.clients i).worker) (m : ℕ) (j : Fin N) :
    (if f (Function.update s.clients i p j).worker = some (decimal m) then 1 else 0) =
      if f (s.clients j).worker = some (decimal m) then 1 else 0 := by
  by_cases hj : j = i
  · subst hj
    rw [Function.update_self, h]
  · rw [Function.update_of_ne hj]

theorem count_gain (hold : f (s.clients i).worker = none) (hnew : f p.worker = some (decimal n))
    (m : ℕ) (j : Fin N) :
    (if f (Function.update s.clients i p j).worker = some (decimal m) then 1 else 0) =
      (if f (s.clients j).worker = some (decimal m) then 1 else 0) +
        if m = n ∧ j = i then 1 else 0 := by
  by_cases hj : j = i
  · subst hj
    simp [hold, hnew, decimal_eq_iff]
  · simp [hj]

theorem count_lose (hold : f (s.clients i).worker = some (decimal n)) (hnew : f p.worker = none)
    (m : ℕ) (j : Fin N) :
    (if f (Function.update s.clients i p j).worker = some (decimal m) then 1 else 0) +
        (if m = n ∧ j = i then 1 else 0) =
      if f (s.clients j).worker = some (decimal m) then 1 else 0 := by
  by_cases hj : j = i
  · subst hj
    simp [hold, hnew, decimal_eq_iff]
  · simp [hj]

end Clients

theorem copies_recvTask {s : TaskSystem N} {i : Fin N} {p : Process} {n : ℕ}
    (hp : (s.clients i).step (.worker (.recv (decimal n))) = some p)
    (hr : (i, decimal n) ∈ s.replies) (m : ℕ) (r : Place N) :
    ({ s with
        replies := s.replies.erase (i, decimal n)
        clients := Function.update s.clients i p } : TaskSystem N).copies m r +
      (if m = n ∧ r = .reply i then 1 else 0) =
    s.copies m r + if m = n ∧ r = .inHand i then 1 else 0 := by
  obtain ⟨hold, hnew⟩ := Process.step_recv hp
  cases r with
  | reply j =>
    have hcount : 0 < s.replies.count (i, decimal n) := Multiset.count_pos.mpr hr
    by_cases hmn : m = n ∧ j = i
    · obtain ⟨rfl, rfl⟩ := hmn
      simp [TaskSystem.copies]
      omega
    · have hne : (j, decimal m) ≠ (i, decimal n) := by
        intro heq
        rw [Prod.mk.injEq] at heq
        exact hmn ⟨decimal_injective heq.2, heq.1⟩
      simp [TaskSystem.copies, Multiset.count_erase_of_ne hne, hmn]
  | inHand j =>
    have hempty : (s.clients i).worker.inHand = none := by rw [hold]; rfl
    have hhand : p.worker.inHand = some (decimal n) := by rw [hnew]; rfl
    simpa [TaskSystem.copies] using count_gain WorkerPc.inHand hempty hhand m j
  | dropped j =>
    have hdrop : p.worker.dropped = (s.clients i).worker.dropped := by rw [hold, hnew]; rfl
    simpa [TaskSystem.copies] using count_keep WorkerPc.dropped hdrop m j
  | result | collected => simp [TaskSystem.copies]

theorem copies_sendResult {s : TaskSystem N} {i : Fin N} {p : Process} {n : ℕ} {v : Int32}
    (hold : (s.clients i).worker = .sendResult (decimal n) v) (hnew : p.worker = .sendReady)
    (m : ℕ) (r : Place N) :
    ({ s with
        results := resultLine n ::ₘ s.results
        clients := Function.update s.clients i p } : TaskSystem N).copies m r +
      (if m = n ∧ r = .inHand i then 1 else 0) =
    s.copies m r + if m = n ∧ r = .result then 1 else 0 := by
  cases r with
  | inHand j =>
    have hhand : (s.clients i).worker.inHand = some (decimal n) := by rw [hold]; rfl
    have hempty : p.worker.inHand = none := by rw [hnew]; rfl
    simpa [TaskSystem.copies] using count_lose WorkerPc.inHand hhand hempty m j
  | dropped j =>
    have hdrop : p.worker.dropped = (s.clients i).worker.dropped := by rw [hold, hnew]; rfl
    simpa [TaskSystem.copies] using count_keep WorkerPc.dropped hdrop m j
  | result => simp [TaskSystem.copies, Multiset.count_cons, resultLine_injective.eq_iff]
  | reply | collected => simp [TaskSystem.copies]

theorem copies_drop {s : TaskSystem N} {i : Fin N} {p : Process} {n : ℕ}
    {requests : Multiset (Fin N × Bytes)}
    (hhand : (s.clients i).worker.inHand = some (decimal n))
    (hdrop : (s.clients i).worker.dropped = none) (hnew : p.worker = .left (decimal n))
    (m : ℕ) (r : Place N) :
    ({ s with requests, clients := Function.update s.clients i p } : TaskSystem N).copies m r +
      (if m = n ∧ r = .inHand i then 1 else 0) =
    s.copies m r + if m = n ∧ r = .dropped i then 1 else 0 := by
  cases r with
  | inHand j =>
    have hempty : p.worker.inHand = none := by rw [hnew]; rfl
    simpa [TaskSystem.copies] using count_lose WorkerPc.inHand hhand hempty m j
  | dropped j =>
    have hleft : p.worker.dropped = some (decimal n) := by rw [hnew]; rfl
    simpa [TaskSystem.copies] using count_gain WorkerPc.dropped hdrop hleft m j
  | reply | result | collected => simp [TaskSystem.copies]

theorem copies_keep {s : TaskSystem N} {i : Fin N} {p : Process}
    {requests : Multiset (Fin N × Bytes)}
    (hhand : p.worker.inHand = (s.clients i).worker.inHand)
    (hdrop : p.worker.dropped = (s.clients i).worker.dropped) (m : ℕ) (r : Place N) :
    ({ s with requests, clients := Function.update s.clients i p } : TaskSystem N).copies m r =
      s.copies m r := by
  cases r with
  | inHand j => exact count_keep WorkerPc.inHand hhand m j
  | dropped j => exact count_keep WorkerPc.dropped hdrop m j
  | reply | result | collected => rfl

theorem copies_collect {s : TaskSystem N} {n : ℕ} (hr : resultLine n ∈ s.results)
    (m : ℕ) (r : Place N) :
    ({ s with
        results := s.results.erase (resultLine n)
        collected := s.collected ++ [resultLine n] } : TaskSystem N).copies m r +
      (if m = n ∧ r = .result then 1 else 0) =
    s.copies m r + if m = n ∧ r = .collected then 1 else 0 := by
  cases r with
  | result =>
    have hcount : 0 < s.results.count (resultLine n) := Multiset.count_pos.mpr hr
    by_cases hmn : m = n
    · subst hmn
      simp [TaskSystem.copies]
      omega
    · simp [TaskSystem.copies, Multiset.count_erase_of_ne (resultLine_injective.ne hmn), hmn]
  | collected =>
    simp [TaskSystem.copies, List.count_append, List.count_cons, resultLine_eq_iff]
  | reply | inHand | dropped => simp [TaskSystem.copies]

theorem copies_sendReply {s : TaskSystem N} {i : Fin N} {n : ℕ} (m : ℕ) (r : Place N) :
    ({ s with assign := .bump, replies := (i, decimal n) ::ₘ s.replies } : TaskSystem N).copies m r =
      s.copies m r + if m = n ∧ r = .reply i then 1 else 0 := by
  cases r with
  | reply j =>
    simp [TaskSystem.copies, Multiset.count_cons, decimal_injective.eq_iff, and_comm]
  | inHand | dropped | result | collected => simp [TaskSystem.copies]

/-- What ties a run and the state it ends in to the ledger of its tasks. -/
structure Conserved (es : List (TaskEvent N)) (s : TaskSystem N) (l : Ledger (Place N)) : Prop where
  counter : s.workload.toInt + (if s.assign = .bump then 1 else 0) = l.handed
  sent : repliesSent es = (List.range l.handed).map decimal
  shows : l.Shows s.copies
  replies : ∀ x ∈ s.replies, ∃ n, x.2 = decimal n
  inHand : ∀ i newTask, (s.clients i).worker.inHand = some newTask → ∃ n, newTask = decimal n
  results : ∀ line ∈ s.results, ∃ n, line = resultLine n
  collected : ∀ line ∈ s.collected, ∃ n, line = resultLine n

theorem conserved_init : Conserved [] ({} : TaskSystem N) .empty where
  counter := rfl
  sent := rfl
  shows := by
    apply Ledger.shows_empty
    intro n r
    cases r <;> rfl
  replies := nofun
  inHand i newTask h := by cases h
  results := nofun
  collected := nofun

/-- The number of tasks that can be handed out with every result in range. -/
def maxTasks : ℕ := 2^31-10

theorem repliesSent_snoc {es : List (TaskEvent N)} {e : TaskEvent N} (h : repliesSent [e] = []) :
    repliesSent (es ++ [e]) = repliesSent es := by
  rw [repliesSent_append, h, List.append_nil]

section Steps

variable {es : List (TaskEvent N)} {s : TaskSystem N} {l : Ledger (Place N)}

theorem Conserved.handed_eq (h : Conserved es s l) : l.handed = (repliesSent es).length := by
  rw [h.sent, List.length_map, List.length_range]

theorem Conserved.place_inHand {i : Fin N} {n : ℕ} (h : Conserved es s l)
    (hhand : (s.clients i).worker.inHand = some (decimal n)) : l.place n = some (.inHand i) := by
  apply Ledger.place_of_count h.shows
  rw [TaskSystem.copies, if_pos hhand]
  decide

/-- The texts in the hands of the clients after client `i` has gone on to `p`. -/
theorem inHand_update {i : Fin N} {p : Process}
    (hs : ∀ i newTask, (s.clients i).worker.inHand = some newTask → ∃ n, newTask = decimal n)
    (hp : ∀ newTask, p.worker.inHand = some newTask → ∃ n, newTask = decimal n) (j : Fin N)
    (newTask : Bytes) (h : (Function.update s.clients i p j).worker.inHand = some newTask) :
    ∃ n, newTask = decimal n := by
  by_cases hj : j = i
  · subst hj
    rw [Function.update_self] at h
    exact hp newTask h
  · rw [Function.update_of_ne hj] at h
    exact hs j newTask h

theorem conserved_recvTask {i : Fin N} {p : Process} {reply : Bytes} (hs : Conserved es s l)
    (hp : (s.clients i).step (.worker (.recv reply)) = some p) (hr : (i, reply) ∈ s.replies) :
    ∃ l', Ledger.Step Route l l' ∧ Conserved (es ++ [.client i (.worker (.recv reply))])
      { s with replies := s.replies.erase (i, reply), clients := Function.update s.clients i p }
      l' := by
  obtain ⟨n, rfl⟩ : ∃ n, reply = decimal n := hs.replies _ hr
  have hplace : l.place n = some (.reply i) :=
    Ledger.place_of_count hs.shows (Multiset.count_ne_zero.mpr hr)
  refine ⟨_, .move l n _ _ hplace (.receive i), hs.counter, (repliesSent_snoc rfl).trans hs.sent,
    Ledger.shows_move hs.shows _ (copies_recvTask hp hr) nofun, ?_, ?_, hs.results, hs.collected⟩
  · intro x hx
    exact hs.replies x (Multiset.mem_of_mem_erase hx)
  · apply inHand_update hs.inHand
    intro newTask hnew
    rw [(Process.step_recv hp).2] at hnew
    exact ⟨n, (Option.some.inj hnew).symm⟩

theorem conserved_sendResult {i : Fin N} {p : Process} {result : Bytes} (hs : Conserved es s l)
    (hp : (s.clients i).step (.worker (.push result)) = some p)
    (hc : (s.clients i).worker.Counts) (hb : l.handed ≤ maxTasks) :
    ∃ l', Ledger.Step Route l l' ∧ Conserved (es ++ [.client i (.worker (.push result))])
      { s with results := result ::ₘ s.results, clients := Function.update s.clients i p } l' := by
  obtain ⟨newTask, v, hold, rfl, hnew⟩ := Process.step_push hp
  have hhand : (s.clients i).worker.inHand = some newTask := by rw [hold]; rfl
  obtain ⟨n, rfl⟩ := hs.inHand i newTask hhand
  have hplace := hs.place_inHand hhand
  have hn := Ledger.lt_of_place hplace
  have hv : v = (Frame.after (decimal n) 10).result := by
    rw [hold] at hc
    exact hc
  have hline : resultInfo (decimal n) v = resultLine n := by
    rw [hv]
    apply resultInfo_decimal
    have : l.handed ≤ 2^31-10 := hb
    omega
  rw [hline]
  refine ⟨_, .move l n _ _ hplace (.send i), hs.counter, (repliesSent_snoc rfl).trans hs.sent,
    Ledger.shows_move hs.shows _ (copies_sendResult hold hnew) nofun, hs.replies, ?_, ?_,
    hs.collected⟩
  · apply inHand_update hs.inHand
    intro newTask h
    rw [hnew] at h
    cases h
  · intro line h
    rcases Multiset.mem_cons.mp h with h | h
    · exact ⟨n, h⟩
    · exact hs.results line h

theorem conserved_other {i : Fin N} {p : Process} {e : Event} {requests : Multiset (Fin N × Bytes)}
    (hs : Conserved es s l) (hp : (s.clients i).step e = some p)
    (hrecv : ∀ reply, e ≠ .worker (.recv reply)) (hpush : ∀ result, e ≠ .worker (.push result)) :
    ∃ l', Relation.ReflGen (Ledger.Step Route) l l' ∧ Conserved (es ++ [.client i e])
      { s with requests, clients := Function.update s.clients i p } l' := by
  have hsent : repliesSent (es ++ [.client i e]) = (List.range l.handed).map decimal :=
    (repliesSent_snoc rfl).trans hs.sent
  rcases Process.step_inHand hp hrecv hpush with ⟨hhand, hdrop⟩ | ⟨newTask, hhand, hdrop, hnew⟩
  · refine ⟨l, .refl, hs.counter, hsent, Ledger.shows_congr hs.shows (copies_keep hhand hdrop),
      hs.replies, ?_, hs.results, hs.collected⟩
    apply inHand_update hs.inHand
    intro newTask h
    exact hs.inHand i newTask (hhand ▸ h)
  · obtain ⟨n, rfl⟩ := hs.inHand i newTask hhand
    have hplace := hs.place_inHand hhand
    refine ⟨_, .single (.move l n _ _ hplace (.drop i)), hs.counter, hsent,
      Ledger.shows_move hs.shows _ (copies_drop hhand hdrop hnew) nofun, hs.replies, ?_,
      hs.results, hs.collected⟩
    apply inHand_update hs.inHand
    intro newTask h
    rw [hnew] at h
    cases h

theorem conserved_sendReply {i : Fin N} (hs : Conserved es s l) (ha : s.assign = .send i)
    (hb : l.handed < maxTasks) :
    ∃ l', Ledger.Step Route l l' ∧ Conserved (es ++ [.sendReply i (toStringInt s.workload)])
      { s with
        assign := .bump
        replies := (i, toStringInt s.workload) ::ₘ s.replies } l' := by
  -- between `recv` and the reply the counter is the number of ids handed out
  have hcounter : s.workload.toInt = l.handed := by
    have := hs.counter
    rwa [ha, if_neg nofun, Int.add_zero] at this
  have hb : l.handed < 2^31-10 := hb
  have hreply : toStringInt s.workload = decimal l.handed := by
    have hw : s.workload = Int32.ofNat l.handed := by
      apply Int32.toInt_inj.mp
      rw [hcounter, Int32.toInt_ofNat_of_lt (by omega)]
    rw [hw, toStringInt_ofNat (by omega)]
  rw [hreply]
  refine ⟨_, .hand l (.reply i), ?_, ?_, Ledger.shows_hand hs.shows copies_sendReply, ?_, hs.inHand,
    hs.results, hs.collected⟩
  · rw [if_pos rfl]
    change s.workload.toInt + 1 = ((l.handed+1 : ℕ) : ℤ)
    omega
  · change repliesSent (es ++ _) = (List.range (l.handed+1)).map decimal
    rw [repliesSent_append, hs.sent, List.range_succ, List.map_append]
    rfl
  · intro x hx
    rcases Multiset.mem_cons.mp hx with rfl | hx
    · exact ⟨_, rfl⟩
    · exact hs.replies x hx

theorem conserved_bump (hs : Conserved es s l) (ha : s.assign = .bump) (hb : l.handed ≤ maxTasks) :
    Conserved (es ++ [.bump]) { s with assign := .recv, workload := s.workload+1 } l := by
  have hcounter : s.workload.toInt + 1 = l.handed := by
    have := hs.counter
    rwa [ha, if_pos rfl] at this
  have hb : l.handed ≤ 2^31-10 := hb
  refine ⟨?_, (repliesSent_snoc rfl).trans hs.sent, Ledger.shows_congr hs.shows ?_, hs.replies,
    hs.inHand, hs.results, hs.collected⟩
  · have hone : (1 : Int32).toInt = 1 := by decide
    rw [if_neg nofun, Int.add_zero, Int32.toInt_add, hone, hcounter]
    apply Int.bmod_eq_of_le <;> omega
  · intro n r
    cases r <;> rfl

theorem conserved_collect {result : Bytes} (hs : Conserved es s l) (hr : result ∈ s.results) :
    ∃ l', Ledger.Step Route l l' ∧ Conserved (es ++ [.collect result])
      { s with
        results := s.results.erase result
        collected := s.collected ++ [result] } l' := by
  obtain ⟨n, rfl⟩ := hs.results result hr
  have hplace : l.place n = some .result :=
    Ledger.place_of_count hs.shows (Multiset.count_ne_zero.mpr hr)
  refine ⟨_, .move l n _ _ hplace .collect, hs.counter, (repliesSent_snoc rfl).trans hs.sent,
    Ledger.shows_move hs.shows _ (copies_collect hr) nofun, hs.replies, hs.inHand, ?_, ?_⟩
  · intro line h
    exact hs.results line (Multiset.mem_of_mem_erase h)
  · intro line h
    rcases List.mem_append.mp h with h | h
    · exact hs.collected line h
    · exact ⟨n, List.mem_singleton.mp h⟩

end Steps

/-- One step of the system is one step of its ledger, or none. -/
theorem conserved_step {es : List (TaskEvent N)} {s t : TaskSystem N} {e : TaskEvent N}
    {l : Ledger (Place N)} (hs : Conserved es s l) (he : s.step e = some t)
    (hc : ∀ i, (s.clients i).worker.Counts) (hb : (repliesSent (es ++ [e])).length ≤ maxTasks) :
    ∃ l', Relation.ReflGen (Ledger.Step Route) l l' ∧ Conserved (es ++ [e]) t l' := by
  have hle : l.handed ≤ maxTasks := by
    rw [repliesSent_append, List.length_append] at hb
    rw [hs.handed_eq]
    omega
  cases TaskSystem.step_cases he with
  | recvTask i p reply hp hr =>
    obtain ⟨l', hl, hs'⟩ := conserved_recvTask hs hp hr
    exact ⟨l', .single hl, hs'⟩
  | sendResult i p result hp =>
    obtain ⟨l', hl, hs'⟩ := conserved_sendResult hs hp (hc i) hle
    exact ⟨l', .single hl, hs'⟩
  | other i p e requests hp hrecv hpush => exact conserved_other hs hp hrecv hpush
  | recvRequest i requests request ha =>
    refine ⟨l, .refl, ?_, (repliesSent_snoc rfl).trans hs.sent, Ledger.shows_congr hs.shows ?_,
      hs.replies, hs.inHand, hs.results, hs.collected⟩
    · have := hs.counter
      rwa [ha, if_neg nofun] at this
    · intro n r
      cases r <;> rfl
  | sendReply i ha =>
    have hlt : l.handed < maxTasks := by
      rw [hs.handed_eq]
      rwa [repliesSent_append, List.length_append] at hb
    obtain ⟨l', hl, hs'⟩ := conserved_sendReply hs ha hlt
    exact ⟨l', .single hl, hs'⟩
  | bump ha => exact ⟨l, .refl, conserved_bump hs ha hle⟩
  | collect result hr =>
    obtain ⟨l', hl, hs'⟩ := conserved_collect hs hr
    exact ⟨l', .single hl, hs'⟩

/-- Every run in range refines a run of the ledger. -/
theorem conserved_of_run {es : List (TaskEvent N)} {s : TaskSystem N}
    (h : run TaskSystem.step {} es = some s) (hb : (repliesSent es).length ≤ maxTasks) :
    ∃ l, Relation.ReflTransGen (Ledger.Step Route) .empty l ∧ Conserved es s l := by
  have hrun := run_history (I := fun es s => run TaskSystem.step {} es = some s ∧
      ((repliesSent es).length ≤ maxTasks →
        ∃ l, Relation.ReflTransGen (Ledger.Step Route) .empty l ∧ Conserved es s l))
    (fun es s e t hs he => ?_) ⟨rfl, fun _ => ⟨_, .refl, conserved_init⟩⟩ h
  · exact hrun.2 hb
  · obtain ⟨hes, hl⟩ := hs
    refine ⟨(run_snoc_iff _ _ _ _ _).mpr ⟨s, hes, he⟩, fun hb => ?_⟩
    have hle : (repliesSent es).length ≤ maxTasks := by
      rw [repliesSent_append, List.length_append] at hb
      omega
    obtain ⟨l, hpath, hs⟩ := hl hle
    obtain ⟨l', hl', hs'⟩ := conserved_step hs he
      (fun i => counts_of_run (run_eventsOf hes i)) hb
    exact ⟨l', hpath.trans hl'.to_reflTransGen, hs'⟩

/-- A client that has left with a task whose result is in range was stopped by its `main`. -/
theorem stopWrite_of_dropped {es : List (TaskEvent N)} {s : TaskSystem N} {i : Fin N} {n : ℕ}
    (h : run TaskSystem.step {} es = some s) (hn : n+10 < 2^31)
    (hd : s.copies n (.dropped i) ≠ 0) : .client i stopWrite ∈ es := by
  have hleft : (s.clients i).worker.dropped = some (decimal n) := by
    by_contra hne
    exact hd (by rw [TaskSystem.copies, if_neg hne])
  have hgave : (s.clients i).worker.gaveUp = some (decimal n) := by
    cases hw : (s.clients i).worker with
    | left newTask =>
      rw [hw] at hleft
      exact hleft
    | _ =>
      rw [hw] at hleft
      cases hleft
  rcases (stopsExplained_of_run (run_eventsOf h i)).gaveUp _ hgave with hw | hres
  · exact mem_eventsOf hw
  · exact absurd hres (result_ne_mark hn)

/-- The ids sent out are 0, …, k-1. In every reachable state each of them is in
exactly one place, a dropped one with a client that was stopped; no other id is
anywhere, and every result line is the line of one of them. -/
theorem tasks_conserved (es : List (TaskEvent N)) (s : TaskSystem N)
    (h : run TaskSystem.step {} es = some s) (hrange : (repliesSent es).length ≤ 2^31-10) :
    ∃ k, repliesSent es = (List.range k).map decimal ∧
      (∀ n < k, ∃ place, s.copies n place = 1 ∧ (∀ other, other ≠ place → s.copies n other = 0) ∧
        ∀ i, place = .dropped i → .client i stopWrite ∈ es) ∧
      (∀ n, k ≤ n → ∀ place, s.copies n place = 0) ∧
      ∀ line, line ∈ s.results ∨ line ∈ s.collected → ∃ n < k, line = resultLine n := by
  obtain ⟨l, -, hl⟩ := conserved_of_run h hrange
  have hle : l.handed ≤ 2^31-10 := hl.handed_eq ▸ hrange
  refine ⟨l.handed, hl.sent, ?_, fun n hn => Ledger.no_place hl.shows hn, ?_⟩
  · intro n hn
    obtain ⟨place, -, hone, hother⟩ := Ledger.one_place hl.shows hn
    refine ⟨place, hone, hother, ?_⟩
    rintro i rfl
    have hdropped : s.copies n (.dropped i) ≠ 0 := by omega
    exact stopWrite_of_dropped h (by omega) hdropped
  · rintro line (hline | hline)
    · obtain ⟨n, rfl⟩ := hl.results line hline
      have hcount : s.copies n .result ≠ 0 := Multiset.count_ne_zero.mpr hline
      exact ⟨n, Ledger.lt_of_place (Ledger.place_of_count hl.shows hcount), rfl⟩
    · obtain ⟨n, rfl⟩ := hl.collected line hline
      have hcount : s.copies n .collected ≠ 0 := List.count_pos_iff.mpr hline |>.ne'
      exact ⟨n, Ledger.lt_of_place (Ledger.place_of_count hl.shows hcount), rfl⟩

/-- Client `i` asks for a task, and `newTask` is sent to it. -/
def handOut (i : Fin N) (newTask : Bytes) : List (TaskEvent N) :=
  [.client i (.worker (.request (ascii "ready"))), .recvRequest i (ascii "ready"),
    .sendReply i newTask, .bump]

/-- A client is started, and finishes its first task. -/
def firstTask : List Event :=
  [.worker (.recv (ascii "0")), .worker (.write .stopFlag 0)] ++ assertIdle ++ startCommand ++
    assertRunning ++ [.worker (.read .startFlag 1)] ++
    finishTask (ascii "result of task 0 is: 10")

/-- A second task, and a stop command up to its last write. -/
def secondTask : List Event :=
  [.worker (.recv (ascii "1")), .worker (.write .stopFlag 0), .worker (.read .startFlag 1)] ++
    stopGate ++ stopClears

/-- Client 0 has finished task 0, and is in task 1 at the last write of a stop command. -/
def untilStop : List (TaskEvent 2) :=
  handOut 0 (ascii "0") ++ firstTask.map (.client 0) ++
    [.collect (ascii "result of task 0 is: 10")] ++ handOut 0 (ascii "1") ++
    secondTask.map (.client 0)

/-- Client 0 drops task 1, and the reply with task 2 is on its way to client 1. -/
def afterStop : List (TaskEvent 2) :=
  [.client 0 (.worker (.read .stopFlag 1)), .client 0 (.worker .tau)] ++ handOut 1 (ascii "2")

def stoppedTrace : List (TaskEvent 2) := untilStop ++ .client 0 stopWrite :: afterStop

theorem tasks_conserved_stopped : ∃ s, run TaskSystem.step {} stoppedTrace = some s ∧
    s.copies 0 .collected = 1 ∧ s.copies 1 (.dropped 0) = 1 ∧ s.copies 2 (.reply 1) = 1 ∧
    ∃ k, repliesSent stoppedTrace = (List.range k).map decimal ∧
      (∀ n < k, ∃ place, s.copies n place = 1 ∧ (∀ other, other ≠ place → s.copies n other = 0) ∧
        ∀ i, place = .dropped i → .client i stopWrite ∈ stoppedTrace) ∧
      (∀ n, k ≤ n → ∀ place, s.copies n place = 0) ∧
      ∀ line, line ∈ s.results ∨ line ∈ s.collected → ∃ n < k, line = resultLine n :=
  ⟨_, rfl, rfl, rfl, rfl, tasks_conserved stoppedTrace _ rfl (by decide)⟩

end SimulationCluster

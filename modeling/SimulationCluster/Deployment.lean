import SimulationCluster.Cluster
import SimulationCluster.ClientPace
import SimulationCluster.HeartbeatSystem
import SimulationCluster.TaskOrder

/-! All threads of the server and of its clients. An exception that leaves
`receive_heartbeat` ends the server's process, and `main`, `assign_tasks` and
`collect_result` with it. The clients go on. -/
namespace SimulationCluster
open ByteText Transition

structure Deployment (N : ℕ) where
  cluster : Cluster N
  heartbeats : HeartbeatSystem

inductive DeploymentEvent (N : ℕ)
  | cluster (e : ClusterEvent N)
  | heartbeat (e : HeartbeatEvent N)

variable {N : ℕ}

/-- A step of a thread of the server. -/
def ClusterEvent.byServer : ClusterEvent N → Bool
  | .task (.client _ _) => false
  | _ => true

def HeartbeatSystem.ended (s : HeartbeatSystem) : Bool :=
  match s.receiver.table with
  | .ok _ => false
  | .error _ => true

def Deployment.start (N : ℕ) (console : Bytes) (command : UInt8) (clock : ℕ → FileTime) :
    Deployment N where
  cluster := .start N console command
  heartbeats := .start clock

def Deployment.step (overflow : ℤ → Int32) (argument : Fin N → Bytes) (d : Deployment N) :
    DeploymentEvent N → Option (Deployment N)
  | .cluster e =>
    if e.byServer && d.heartbeats.ended then none else do
      let cluster ← d.cluster.step e
      some { d with cluster }
  | .heartbeat e => do
    let heartbeats ← d.heartbeats.step overflow argument e
    some { d with heartbeats }

/-- What one step of all threads can do. -/
inductive Deployment.Step (overflow : ℤ → Int32) (argument : Fin N → Bytes) :
    Deployment N → DeploymentEvent N → Deployment N → Prop
  | cluster (d : Deployment N) (e c) (hfree : e.byServer = true → d.heartbeats.ended = false)
      (hc : d.cluster.step e = some c) :
      Step overflow argument d (.cluster e) { d with cluster := c }
  | heartbeat (d : Deployment N) (e h) (hh : d.heartbeats.step overflow argument e = some h) :
      Step overflow argument d (.heartbeat e) { d with heartbeats := h }

theorem Deployment.step_eq_some_iff (overflow : ℤ → Int32) (argument : Fin N → Bytes)
    (d d' : Deployment N) (e : DeploymentEvent N) :
    d.step overflow argument e = some d' ↔ Deployment.Step overflow argument d e d' := by
  constructor
  · intro h
    cases e with
    | cluster e =>
      obtain ⟨hfree, h⟩ := Option.ite_none_left_eq_some.mp h
      obtain ⟨c, hc, h⟩ := Option.bind_eq_some_iff.mp h
      obtain rfl := Option.some.inj h
      exact .cluster d e c (by simpa using hfree) hc
    | heartbeat e =>
      obtain ⟨s, hs, h⟩ := Option.bind_eq_some_iff.mp h
      obtain rfl := Option.some.inj h
      exact .heartbeat d e s hs
  · intro h
    cases h with
    | cluster e c hfree hc =>
      refine Option.ite_none_left_eq_some.mpr ⟨by simpa using hfree, ?_⟩
      exact Option.bind_eq_some_iff.mpr ⟨c, hc, rfl⟩
    | heartbeat e s hs => exact Option.bind_eq_some_iff.mpr ⟨s, hs, rfl⟩

/-- The steps of the commands, the tasks and the clients. -/
def clusterIn (es : List (DeploymentEvent N)) : List (ClusterEvent N) :=
  es.filterMap fun
    | .cluster e => some e
    | .heartbeat _ => none

/-- The steps of the heartbeats. -/
def heartbeatsIn (es : List (DeploymentEvent N)) : List (HeartbeatEvent N) :=
  es.filterMap fun
    | .heartbeat e => some e
    | .cluster _ => none

section Halves

variable {overflow : ℤ → Int32} {argument : Fin N → Bytes} {d d' : Deployment N}
  {es : List (DeploymentEvent N)}

theorem run_clusterIn (h : run (Deployment.step overflow argument) d es = some d') :
    run Cluster.step d.cluster (clusterIn es) = some d'.cluster := by
  refine run_filterMap (Deployment.step overflow argument) Deployment.cluster _ ?_ ?_ h
  · intro d e d' b hd hb
    cases (Deployment.step_eq_some_iff _ _ _ _ _).mp hd with
    | cluster e c hfree hc =>
      obtain rfl := Option.some.inj hb
      exact hc
    | heartbeat => cases hb
  · intro d e d' hd hb
    cases (Deployment.step_eq_some_iff _ _ _ _ _).mp hd with
    | cluster => cases hb
    | heartbeat => rfl

theorem run_heartbeatsIn (h : run (Deployment.step overflow argument) d es = some d') :
    run (HeartbeatSystem.step overflow argument) d.heartbeats (heartbeatsIn es) =
      some d'.heartbeats := by
  refine run_filterMap (Deployment.step overflow argument) Deployment.heartbeats _ ?_ ?_ h
  · intro d e d' b hd hb
    cases (Deployment.step_eq_some_iff _ _ _ _ _).mp hd with
    | cluster => cases hb
    | heartbeat e s hs =>
      obtain rfl := Option.some.inj hb
      exact hs
  · intro d e d' hd hb
    cases (Deployment.step_eq_some_iff _ _ _ _ _).mp hd with
    | cluster => rfl
    | heartbeat => cases hb

theorem run_of_halves (hrun : ∀ hs s,
      run (HeartbeatSystem.step overflow argument) d.heartbeats hs = some s → s.ended = false)
    (hc : run Cluster.step d.cluster (clusterIn es) = some d'.cluster)
    (hh : run (HeartbeatSystem.step overflow argument) d.heartbeats (heartbeatsIn es) =
      some d'.heartbeats) : run (Deployment.step overflow argument) d es = some d' := by
  induction es generalizing d with
  | nil =>
    obtain ⟨c, s⟩ := d
    obtain rfl : c = d'.cluster := Option.some.inj hc
    obtain rfl : s = d'.heartbeats := Option.some.inj hh
    rfl
  | cons e es ih =>
    refine (run_cons_iff _ _ _ _ _).mpr ?_
    cases e with
    | cluster e =>
      obtain ⟨c, he, hc⟩ := (run_cons_iff _ _ _ _ _).mp hc
      refine ⟨_, (Deployment.step_eq_some_iff _ _ _ _ _).mpr (.cluster d e c ?_ he), ih hrun hc hh⟩
      exact fun _ => hrun [] _ rfl
    | heartbeat e =>
      obtain ⟨s, he, hh⟩ := (run_cons_iff _ _ _ _ _).mp hh
      refine ⟨_, (Deployment.step_eq_some_iff _ _ _ _ _).mpr (.heartbeat d e s he), ih ?_ hc hh⟩
      exact fun hs t ht => hrun (e :: hs) t ((run_cons_iff _ _ _ _ _).mpr ⟨s, he, ht⟩)

end Halves

theorem ended_eq_false_iff (s : HeartbeatSystem) :
    s.ended = false ↔ ∃ clients, s.receiver.table = .ok clients := by
  unfold HeartbeatSystem.ended
  cases s.receiver.table <;> simp

/-- The heartbeats and the rest of the system do not disturb each other, so that any
interleaving of a run of one with a run of the other is a run of both, exactly when
`atoi` made no client's argument negative. -/
theorem halves_independent_iff (overflow : ℤ → Int32) (argument : Fin N → Bytes)
    (console : Bytes) (command : UInt8) (clock : ℕ → FileTime) :
    (∀ es d, run (Deployment.step overflow argument) (.start N console command clock) es = some d ↔
      run Cluster.step (.start N console command) (clusterIn es) = some d.cluster ∧
        run (HeartbeatSystem.step overflow argument) (.start clock) (heartbeatsIn es) =
          some d.heartbeats) ↔
    ∀ i, 0 ≤ (atoiWith overflow (argument i)).toInt := by
  constructor
  · intro hfree
    by_contra hargs
    obtain ⟨i, hi⟩ := not_forall.mp hargs
    obtain ⟨heard, s, hs, hend⟩ := exists_end (s := .start clock)
      ⟨clock nodeNum, rfl⟩ rfl (by omega : (atoiWith overflow (argument i)).toInt < 0)
    let first : ClusterEvent N := .round fun _ => false
    obtain ⟨c, hc⟩ : ∃ c, run Cluster.step (.start N console command) [first] = some c :=
      ⟨_, rfl⟩
    let ending : List (DeploymentEvent N) := [.heartbeat (.beat i), .heartbeat (.receive heard)]
    have hrun := (hfree (ending ++ [DeploymentEvent.cluster first]) ⟨c, s⟩).mpr ⟨hc, hs⟩
    obtain ⟨d, hd, hlast⟩ := (run_snoc_iff _ _ _ _ _).mp hrun
    have hheart : run (HeartbeatSystem.step overflow argument) (.start clock)
        [.beat i, .receive heard] = some d.heartbeats := run_heartbeatsIn hd
    obtain rfl : s = d.heartbeats := Option.some.inj (hs.symm.trans hheart)
    cases (Deployment.step_eq_some_iff _ _ _ _ _).mp hlast with
    | cluster e c hfree hc =>
      obtain ⟨clients, hok⟩ := (ended_eq_false_iff _).mp (hfree rfl)
      cases hok.symm.trans hend
  · intro hargs es d
    constructor
    · exact fun h => ⟨run_clusterIn h, run_heartbeatsIn h⟩
    · rintro ⟨hc, hh⟩
      refine run_of_halves (fun hs s hr => ?_) hc hh
      exact (ended_eq_false_iff s).mpr (ok_of_args hargs hr)

/-- The end of the receiver lasts, and the server takes no step after it. -/
theorem clients_only {overflow : ℤ → Int32} {argument : Fin N → Bytes} {d d' : Deployment N}
    {es : List (DeploymentEvent N)} (hend : d.heartbeats.ended = true)
    (h : run (Deployment.step overflow argument) d es = some d') :
    ∀ e ∈ clusterIn es, e.byServer = false := by
  have hlabels := run_forall_labels (I := fun d : Deployment N => d.heartbeats.ended = true)
    (P := fun _ _ => True) (Q := fun e => ∀ c, e = .cluster c → c.byServer = false) ?_ hend
    (along_of_forall _ _ _ fun _ _ _ => trivial) h
  · intro c hc
    obtain ⟨e, he, hec⟩ := List.mem_filterMap.mp hc
    cases e with
    | cluster e =>
      obtain rfl := Option.some.inj hec
      exact hlabels.2 _ he _ rfl
    | heartbeat e => cases hec
  · intro d e d' hend _ hd
    cases (Deployment.step_eq_some_iff _ _ _ _ _).mp hd with
    | cluster e c hfree hc =>
      refine ⟨hend, ?_⟩
      rintro e' heq
      obtain rfl := DeploymentEvent.cluster.inj heq
      by_contra hserver
      rw [hfree (by simpa using hserver)] at hend
      cases hend
    | heartbeat e s hs =>
      refine ⟨?_, fun c hc => by cases hc⟩
      cases HeartbeatSystem.step_cases _ _ hs with
      | beat => exact hend
      | receive heard receiver hmem hr =>
        obtain ⟨clients, hok, -⟩ := Receiver.step_cases hr
        rw [(ended_eq_false_iff d.heartbeats).mpr ⟨clients, hok⟩] at hend
        cases hend

section Without

variable {c c' : Cluster N} {es : List (ClusterEvent N)} {i : Fin N}

theorem repliesTo_without (hes : ∀ e ∈ es, e.byServer = false) : repliesTo i (tasksIn es) = [] := by
  apply List.filterMap_eq_nil_iff.mpr
  intro e he
  obtain ⟨e', he', hsome⟩ := List.mem_filterMap.mp he
  have hserver := hes e' he'
  cases e' with
  | round => cases hserver
  | task e' =>
    obtain rfl := Option.some.inj hsome
    cases e' with
    | client => rfl
    | _ => cases hserver

/-- Without the server a queue only gets shorter. -/
theorem queue_without (hes : ∀ e ∈ es, e.byServer = false)
    (h : run Cluster.step c es = some c') :
    c'.channel.received i ++ c'.channel.inbox i = c.channel.received i ++ c.channel.inbox i := by
  refine run_invariant_along (P := fun _ e => e ∈ es)
    (I := fun b : Cluster N => b.channel.received i ++ b.channel.inbox i =
      c.channel.received i ++ c.channel.inbox i) ?_ rfl (along_of_forall _ _ _ fun e he _ => he) h
  intro b e b' hb hmem hstep
  cases Cluster.step_cases hstep with
  | wrong | publish => cases hes _ hmem
  | receive j m tasks channel ht htake => rw [Broadcast.queue_of_take htake, hb]
  | task => exact hb

end Without

section Answerless

variable {es fs : List (TaskEvent N)} {s t : TaskSystem N} {i : Fin N}

/-- Without further replies a client that waits gets the one in flight to it, if any. -/
theorem tasks_left (h : run TaskSystem.step {} es = some s)
    (h' : run TaskSystem.step {} (es ++ fs) = some t) (hnone : repliesTo i fs = []) :
    (tasksOf i fs).length ≤ if (s.clients i).worker = .recvTask then 1 else 0 := by
  obtain ⟨l, hl, hlen, -⟩ := (delivered_of_run h).replies i
  obtain ⟨l', hl', -⟩ := (delivered_of_run h').replies i
  rw [repliesTo_append, hnone, List.append_nil, hl, tasksOf_append, List.append_assoc] at hl'
  have hsplit := congrArg List.length (List.append_cancel_left hl')
  rw [List.length_append] at hsplit
  have hunderway := (lockstep_of_run h).underway i
  rw [TaskSystem.underway] at hunderway
  omega

theorem work_left (h : run TaskSystem.step {} es = some s)
    (h' : run TaskSystem.step {} (es ++ fs) = some t) (hnone : repliesTo i fs = []) :
    (s.clients i).worker.unsent.toList.length+(tasksOf i fs).length ≤ 1 := by
  have htasks := tasks_left h h' hnone
  by_cases hw : (s.clients i).worker = .recvTask
  · rw [if_pos hw] at htasks
    have hidle : (s.clients i).worker.unsent = none := by
      rw [hw]
      rfl
    rw [hidle, Option.toList_none, List.length_nil]
    omega
  · rw [if_neg hw] at htasks
    have hone : (s.clients i).worker.unsent.toList.length ≤ 1 := Option.length_toList_le
    omega

theorem results_left (h : run TaskSystem.step {} es = some s)
    (h' : run TaskSystem.step {} (es ++ fs) = some t) :
    (resultsOf i fs).length+(t.clients i).worker.unsent.toList.length =
      (s.clients i).worker.unsent.toList.length+(tasksOf i fs).length := by
  have horder := congrArg List.length (worksInOrder_of_run (run_eventsOf h i))
  have horder' := congrArg List.length (worksInOrder_of_run (run_eventsOf h' i))
  rw [eventsOf_append, tasksReceived_append, resultsSent_append] at horder'
  simp only [List.length_map, List.length_append] at horder horder'
  rw [resultsOf, tasksOf]
  omega

theorem increments_left (h : run TaskSystem.step {} es = some s)
    (h' : run TaskSystem.step {} (es ++ fs) = some t) :
    (eventsOf i fs).countP Event.isIncrement ≤
      10*((s.clients i).worker.unsent.toList.length+(tasksOf i fs).length) := by
  have horder := congrArg List.length (worksInOrder_of_run (run_eventsOf h i))
  simp only [List.length_map, List.length_append] at horder
  have hinc := (increments_of_run (run_eventsOf h i)).1
  have hinc' := (increments_of_run (run_eventsOf h' i)).2
  rw [eventsOf_append, List.countP_append, tasksReceived_append, List.length_append] at hinc'
  rw [tasksOf]
  omega

theorem requests_left (h : run TaskSystem.step {} es = some s)
    (h' : run TaskSystem.step {} (es ++ fs) = some t) (hnone : repliesTo i fs = []) :
    (requestsOf i fs).length ≤ 1 := by
  have hcount : Answered i es s := answered_of_run h
  have hcount' : Answered i (es ++ fs) t := answered_of_run h'
  rw [Answered, requestsOf_append, repliesTo_append, hnone, List.append_nil,
    List.length_append, hcount] at hcount'
  have hunderway := (lockstep_of_run h').underway i
  rw [TaskSystem.underway] at hunderway
  have hone : (if (t.clients i).worker = .recvTask then 1 else 0) ≤ 1 := by
    split_ifs <;> omega
  omega

end Answerless

section Ended

variable {overflow : ℤ → Int32} {argument : Fin N → Bytes} {console : Bytes} {command : UInt8}
  {clock : ℕ → FileTime}
  {pre post : List (DeploymentEvent N)} {d d' : Deployment N}

/-- What a client still receives is what was on the way to it. -/
theorem commands_left (i : Fin N)
    (h : run (Deployment.step overflow argument) (.start N console command clock) pre = some d)
    (hend : d.heartbeats.ended = true)
    (h' : run (Deployment.step overflow argument) d post = some d') :
    commandsOf (clientEvents i (clusterIn post)) <+: d.cluster.channel.inbox i := by
  have hpre : run Cluster.step (.start N console command) (clusterIn pre) = some d.cluster :=
    run_clusterIn h
  have hall := (run_append_iff _ _ _ _ _).mpr ⟨d.cluster, hpre, run_clusterIn h'⟩
  have hqueue := queue_without (i := i) (clients_only hend h') (run_clusterIn h')
  rw [(connected_of_run hall).received, (connected_of_run hpre).received, clientEvents_append,
    commandsOf_append, List.append_assoc] at hqueue
  exact ⟨_, List.append_cancel_left hqueue⟩

end Ended

/-- Client `i` is started, and the heartbeat of client `j` ends the server. -/
def lostServer (i j : Fin N) : List (DeploymentEvent N) :=
  .cluster (.round fun _ => true) ::
    ((assertIdle ++ startCommand ++ assertRunning).map fun e => .cluster (.task (.client i e))) ++
    [.heartbeat (.beat j), .heartbeat (.receive ⟨ascii "HEARTBEAT_4294967295", ⟨0, 30000⟩, 0, 0⟩)]

/-- Client `i` asks for a task. -/
def lostRequest (i : Fin N) : List (DeploymentEvent N) :=
  [.cluster (.task (.client i (.worker (.request (ascii "ready")))))]

/-- When the receiver has ended, every client runs dry: it receives the commands that are
on their way to it, and makes at most one more request, receives at most one more task,
and makes at most ten more increments and sends at most one more result. -/
theorem clients_run_dry (overflow : ℤ → Int32) (argument : Fin N → Bytes)
    (console : Bytes) (command : UInt8)
    (clock : ℕ → FileTime) (pre post : List (DeploymentEvent N)) (d d' : Deployment N) (i : Fin N)
    (h : run (Deployment.step overflow argument) (.start N console command clock) pre = some d)
    (hend : d.heartbeats.ended = true)
    (h' : run (Deployment.step overflow argument) d post = some d') :
    let es := clientEvents i (clusterIn post)
    commandsOf es <+: d.cluster.channel.inbox i ∧ (requestsSent es).length ≤ 1 ∧
      (tasksReceived es).length ≤ 1 ∧ es.countP Event.isIncrement ≤ 10 ∧
      (resultsSent es).length ≤ 1 := by
  intro es
  have hcluster : run Cluster.step (.start N console command) (clusterIn pre) = some d.cluster :=
    run_clusterIn h
  have hpre : run TaskSystem.step {} (tasksIn (clusterIn pre)) = some d.cluster.tasks :=
    run_tasksIn hcluster
  have hall := (run_append_iff _ _ _ _ _).mpr ⟨_, hpre, run_tasksIn (run_clusterIn h')⟩
  have hnone : repliesTo i (tasksIn (clusterIn post)) = [] :=
    repliesTo_without (clients_only hend h')
  have hwork := work_left hpre hall hnone
  have hresults := results_left (i := i) hpre hall
  have hincrements := increments_left (i := i) hpre hall
  refine ⟨commands_left i h hend h', requests_left hpre hall hnone, ?_, ?_, ?_⟩
  · exact (Nat.le_add_left _ _).trans hwork
  · exact hincrements.trans (Nat.mul_le_mul_left 10 hwork)
  · exact (Nat.le_add_right _ _).trans (hresults.le.trans hwork)

theorem clients_run_dry_lost : ∃ d d' : Deployment 2,
    run (Deployment.step Int32.ofInt twoArguments) (.start 2 (ascii "s") 0 fun _ => ⟨0, 10000⟩)
      (lostServer 0 1) = some d ∧
    run (Deployment.step Int32.ofInt twoArguments) d (lostRequest 0) = some d' ∧
    (clientEvents 0 (clusterIn (lostRequest (0 : Fin 2)))).countP Event.isIncrement ≤ 10 :=
  ⟨_, _, rfl, rfl, (clients_run_dry Int32.ofInt twoArguments (ascii "s") 0 (fun _ => ⟨0, 10000⟩)
    (lostServer 0 1) (lostRequest 0) _ _ 0 rfl rfl rfl).2.2.2.1⟩

end SimulationCluster

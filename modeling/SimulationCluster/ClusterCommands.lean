import SimulationCluster.Cluster
import SimulationCluster.TaskDelivery

namespace SimulationCluster
open ByteText Transition

variable {N : ℕ} {console : Bytes} {command : UInt8} {es : List (ClusterEvent N)} {c : Cluster N}

/-- "s" and "e" are typed, both commands reach client 0, and client 1 gets the first one. -/
def startAndStop : List (ClusterEvent 2) := [.round fun _ => true, .round fun i => i.val == 0]

/-- Client 0 is started, and stopped in its second task, which it drops. -/
def stoppedCluster : List (ClusterEvent 2) := startAndStop ++ stoppedTrace.map .task

theorem stopLast_rounds (n : ℕ) {o : Operator} (ho : o.StopLast) : (o.rounds n).StopLast := by
  induction n generalizing o with
  | zero => exact ho
  | succ n ih =>
    rw [Operator.rounds]
    split_ifs with h
    · exact ih (stopLast_round ho h)
    · exact ho

theorem stopLast_start (console : Bytes) (command : UInt8) :
    Operator.StopLast { console, command } :=
  ⟨fun _ => List.not_mem_nil, fun h => by cases h⟩

theorem stopLast_of_run (h : run Cluster.step (.start N console command) es = some c) :
    c.operator.StopLast := by
  rw [(connected_of_run h).operator]
  exact stopLast_rounds _ (stopLast_start console command)

/-- A stop that was received is the last of what was published, and of what is received. -/
theorem stop_is_last {i : Fin N} (h : run Cluster.step (.start N console command) es = some c)
    (hs : ascii "stop" ∈ commandsOf (clientEvents i es)) :
    c.operator.inLoop = false ∧ c.channel.inbox i = [] ∧
      ∃ front, commandsOf (clientEvents i es) = front ++ [ascii "stop"] ∧
        ascii "stop" ∉ front := by
  have hcon := connected_of_run h
  rw [← hcon.received i] at hs ⊢
  have hlog := c.channel.mem_log_of_received hs
  rw [hcon.log] at hlog
  have hstop := stopLast_of_run h
  cases hloop : c.operator.inLoop with
  | true => exact absurd hlog (hstop.inLoop hloop)
  | false =>
    obtain ⟨front, hpub, hfront⟩ := hstop.left hloop
    exact ⟨rfl, Broadcast.inbox_of_last (hcon.log.trans hpub) hfront hs⟩

/-- Who has received a stop receives nothing more. -/
theorem nothing_after_stop {i : Fin N} {fs : List (ClusterEvent N)} {d : Cluster N}
    (h : run Cluster.step (.start N console command) es = some c)
    (hs : ascii "stop" ∈ commandsOf (clientEvents i es)) (hd : run Cluster.step c fs = some d) :
    commandsOf (clientEvents i fs) = [] := by
  have hwhole := (run_append_iff _ _ _ _ _).mpr ⟨c, h, hd⟩
  have hmem : ascii "stop" ∈ commandsOf (clientEvents i (es ++ fs)) := by
    rw [clientEvents_append, commandsOf_append]
    exact List.mem_append_left _ hs
  obtain ⟨-, -, front, hall, hfront⟩ := stop_is_last hwhole hmem
  obtain ⟨r, t, hsplit⟩ := List.append_of_mem hs
  rw [clientEvents_append, commandsOf_append, hsplit, List.append_assoc, List.cons_append] at hall
  have hsub : (r ++ ascii "stop" :: (t ++ commandsOf (clientEvents i fs))).Sublist
      (front ++ [ascii "stop"]) := by rw [hall]
  exact (List.append_eq_nil_iff.mp (Broadcast.eq_nil_of_sublist_last hfront hsub)).2

/-- What a client receives is a part of what was published, in the same order; when a
stop is typed, of what was typed up to it. Once a client has received a stop, nothing is
on its way to it and it receives nothing more. -/
theorem commands_received (console : Bytes) (command : UInt8) (es : List (ClusterEvent N))
    (c : Cluster N) (i : Fin N) (h : run Cluster.step (.start N console command) es = some c) :
    (commandsOf (clientEvents i es)).Sublist c.operator.published ∧
      ('e'.toUInt8 ∈ console → (commandsOf (clientEvents i es)).Sublist
        ((throughStop (typed console)).filterMap commandMessage)) ∧
      (ascii "stop" ∈ commandsOf (clientEvents i es) →
        c.operator.inLoop = false ∧ c.channel.inbox i = [] ∧
        (∃ front, commandsOf (clientEvents i es) = front ++ [ascii "stop"] ∧
          ascii "stop" ∉ front) ∧
        ∀ fs d, run Cluster.step c fs = some d → commandsOf (clientEvents i fs) = []) := by
  have hcon := connected_of_run h
  have hsub : (commandsOf (clientEvents i es)).Sublist c.operator.published := by
    rw [← hcon.received i, ← hcon.log]
    exact (List.sublist_append_left _ _).trans (c.channel.sublist i)
  refine ⟨hsub, fun he => ?_, fun hs => ?_⟩
  · obtain ⟨n, hleft, hpub⟩ := published_of_stop he command
    rw [← hpub]
    apply hsub.trans
    rw [hcon.operator]
    rcases Nat.le_total (roundsIn es) n with hle | hle
    · obtain ⟨k, rfl⟩ := Nat.exists_eq_add_of_le hle
      exact (published_extends _ k _).sublist
    · obtain ⟨k, hk⟩ := Nat.exists_eq_add_of_le hle
      rw [hk, rounds_add, rounds_of_left hleft]
  · obtain ⟨hloop, hinbox, hfront⟩ := stop_is_last h hs
    exact ⟨hloop, hinbox, hfront, fun fs d hd => nothing_after_stop h hs hd⟩

example : ((run Cluster.step (.start 2 (ascii "se") 0) stoppedCluster).map fun c =>
    (c.channel.received 0, c.channel.inbox 1)) =
      some ([ascii "start", ascii "stop"], [ascii "start"]) := by
  decide

theorem commands_received_stopped : ∃ c,
    run Cluster.step (.start 2 (ascii "se") 0) stoppedCluster = some c ∧
      (commandsOf (clientEvents 0 stoppedCluster)).Sublist [ascii "start", ascii "stop"] ∧
      c.channel.inbox 0 = [] ∧
      ∀ fs d, run Cluster.step c fs = some d → commandsOf (clientEvents 0 fs) = [] := by
  obtain ⟨-, htyped, hstop⟩ := commands_received (ascii "se") 0 stoppedCluster _ 0 rfl
  obtain ⟨-, hinbox, -, hnone⟩ := hstop (by decide)
  exact ⟨_, rfl, htyped (by decide), hinbox, hnone⟩

theorem published_from (n : ℕ) (o : Operator) {m : Bytes} (h : m ∈ (o.rounds n).published) :
    m ∈ o.published ∨ ∃ ch, (ch ∈ o.console ∨ ch = o.command) ∧ commandMessage ch = some m := by
  induction n generalizing o with
  | zero => exact .inl h
  | succ n ih =>
    rw [Operator.rounds] at h
    split_ifs at h with hloop
    · have hread : (∀ ch ∈ o.round.console, ch ∈ o.console) ∧
          (o.round.command ∈ o.console ∨ o.round.command = o.command) ∧
          o.round.command = o.read.command := by
        rw [Operator.round, dispatch_console, dispatch_command]
        unfold Operator.read
        split
        · exact ⟨fun ch hch => absurd hch List.not_mem_nil, .inr rfl, rfl⟩
        · rename_i b rest hdrop
          have hmem (ch : UInt8) (hch : ch ∈ b :: rest) : ch ∈ o.console := by
            apply (List.dropWhile_sublist isBlank).subset
            rw [hdrop]
            exact hch
          exact ⟨fun ch hch => hmem ch (List.mem_cons_of_mem b hch),
            .inl (hmem b List.mem_cons_self), rfl⟩
      obtain ⟨hconsole, hcommand, hsame⟩ := hread
      rcases ih o.round h with hm | ⟨ch, hch, hm⟩
      · rw [round_published] at hm
        rcases List.mem_append.mp hm with hm | hm
        · exact .inl hm
        · rw [← hsame] at hm
          exact .inr ⟨_, hcommand, Option.mem_toList.mp hm⟩
      · refine .inr ⟨ch, ?_, hm⟩
        rcases hch with hch | rfl
        · exact .inl (hconsole ch hch)
        · exact hcommand
    · exact .inl h

theorem clientEvents_client (i : Fin N) (e : Event) :
    clientEvents i [.task (.client i e)] = [e] := by
  change eventsOf i [.client i e] = [e]
  rw [eventsOf_client, if_pos rfl]

theorem clientEvents_split (i : Fin N) (pre post : List (ClusterEvent N)) (e : Event) :
    clientEvents i (pre ++ .task (.client i e) :: post) =
      clientEvents i pre ++ e :: clientEvents i post := by
  rw [← List.singleton_append, clientEvents_append, clientEvents_append, clientEvents_client,
    List.singleton_append]

/-- No client makes an increment before the server has published a start. -/
theorem increment_needs_start (console : Bytes) (command : UInt8)
    (pre post : List (ClusterEvent N)) (c : Cluster N) (i : Fin N)
    (h : run Cluster.step (.start N console command)
      (pre ++ .task (.client i (.worker .increment)) :: post) = some c) :
    (∃ d, run Cluster.step (.start N console command) pre = some d ∧
      ascii "start" ∈ d.operator.published) ∧
    ('s'.toUInt8 ∈ console ∨ command = 's'.toUInt8) := by
  obtain ⟨d, d', hpre, he, -⟩ := run_split _ _ _ _ _ _ h
  have hcon := connected_of_run hpre
  have hd' := run_clientEvents ((run_snoc_iff _ _ _ _ _).mpr ⟨d, hpre, he⟩) i
  rw [clientEvents_append, clientEvents_client] at hd'
  have hwrite := increment_after_start hd'
  have hstart := start_received (run_clientEvents hpre i) hwrite
  rw [← hcon.received i] at hstart
  have hpub := d.channel.mem_log_of_received hstart
  rw [hcon.log] at hpub
  refine ⟨⟨d, hpre, hpub⟩, ?_⟩
  rw [hcon.operator] at hpub
  rcases published_from _ _ hpub with hm | ⟨ch, hch, hm⟩
  · exact absurd hm List.not_mem_nil
  · obtain rfl : ch = 's'.toUInt8 := by
      unfold commandMessage at hm
      split_ifs at hm with h1 h2 h3 h4
      · exact h1
      all_goals exact absurd (Option.some.inj hm) (by decide)
    exact hch.imp_right Eq.symm

/-- A first task that is received and started, up to an increment. -/
def firstRound : List Event :=
  [.worker (.recv (ascii "0")), .worker (.write .stopFlag 0)] ++ assertIdle ++ startCommand ++
    assertRunning ++ [.worker (.read .startFlag 1), .worker (.read .stopFlag 0),
      .worker (.read .startFlag 1), .worker (.read .pauseFlag 0)]

/-- "s" is typed, and a client gets its first task. -/
def startedCluster (i : Fin N) : List (ClusterEvent N) :=
  [.round fun _ => true] ++ (handOut i (ascii "0") ++ firstRound.map (TaskEvent.client i)).map .task

theorem increment_needs_start_first : ∃ d,
    run Cluster.step (.start 2 (ascii "s") 0) (startedCluster 0) = some d ∧
      ascii "start" ∈ d.operator.published :=
  (increment_needs_start (ascii "s") 0 (startedCluster 0) [] _ 0 rfl).1

/-- A task whose result is in range is dropped only after the server has published its
stop and left its loop. -/
theorem drop_needs_stop (console : Bytes) (command : UInt8) (es : List (ClusterEvent N))
    (c : Cluster N) (i : Fin N) (n : ℕ)
    (h : run Cluster.step (.start N console command) es = some c) (hn : n+10 < 2^31)
    (hd : c.tasks.copies n (.dropped i) ≠ 0) :
    c.operator.inLoop = false ∧ ∃ front, c.operator.published = front ++ [ascii "stop"] := by
  have hmem := stopWrite_of_dropped (run_tasksIn h) hn hd
  have hown : stopWrite ∈ clientEvents i es := by
    refine List.mem_filterMap.mpr ⟨_, hmem, ?_⟩
    exact if_pos rfl
  have hs := stop_received (run_clientEvents h i) hown
  have hloop := (stop_is_last h hs).1
  obtain ⟨front, hpub, -⟩ := (stopLast_of_run h).left hloop
  exact ⟨hloop, front, hpub⟩

theorem drop_needs_stop_stopped : ∃ c,
    run Cluster.step (.start 2 (ascii "se") 0) stoppedCluster = some c ∧
      c.operator.inLoop = false :=
  ⟨_, rfl, (drop_needs_stop (ascii "se") 0 stoppedCluster _ 0 1 rfl (by decide) (by decide)).1⟩

theorem nothing_after_stopWrite {pre post : List (ClusterEvent N)} {i : Fin N}
    (h : run Cluster.step (.start N console command) (pre ++ .task (.client i stopWrite) :: post) =
      some c) : commandsOf (clientEvents i post) = [] := by
  obtain ⟨d, d', hpre, he, hpost⟩ := run_split _ _ _ _ _ _ h
  have hd' := (run_snoc_iff _ _ _ _ _).mpr ⟨d, hpre, he⟩
  have hown : stopWrite ∈ clientEvents i (pre ++ [.task (.client i stopWrite)]) := by
    rw [clientEvents_append, clientEvents_client]
    exact List.mem_append_right _ List.mem_cons_self
  exact nothing_after_stop hd' (stop_received (run_clientEvents hd' i) hown) hpost

/-- A client that has executed a stop stays idle for good, and comes to rest: it makes
at most one more increment, request and result, and eleven steps besides its spinning. -/
theorem stopped_client_rests (console : Bytes) (command : UInt8)
    (pre post : List (ClusterEvent N)) (c : Cluster N) (i : Fin N)
    (h : run Cluster.step (.start N console command) (pre ++ .task (.client i stopWrite) :: post) =
      some c) :
    (c.tasks.clients i).flags.startFlag = 0 ∧ (c.tasks.clients i).flags.pauseFlag = 0 ∧
      (clientEvents i post).countP Event.isIncrement ≤ 1 ∧
      (clientEvents i post).countP Event.isRequest ≤ 1 ∧
      (clientEvents i post).countP Event.isPush ≤ 1 ∧
      (clientEvents i post).countP (fun e => !e.isSpin) ≤ 11 := by
  have hrun := run_clientEvents h i
  rw [clientEvents_split] at hrun
  have hnone := nothing_after_stopWrite h
  have hquiet := quiet_of_run hrun hnone
  exact ⟨hquiet.start, hquiet.pause, rests_after_stop hrun hnone⟩

/-- Up to, not including, the last write of client 0's stop. -/
def stoppingCluster : List (ClusterEvent 2) := startAndStop ++ untilStop.map .task

theorem stopped_client_rests_dropped :
    (clientEvents 0 (afterStop.map .task)).countP (fun e => !e.isSpin) = 2 ∧
      (clientEvents 0 (afterStop.map .task)).countP (fun e => !e.isSpin) ≤ 11 :=
  ⟨rfl, (stopped_client_rests (ascii "se") 0 stoppingCluster (afterStop.map .task) _ 0
    rfl).2.2.2.2.2⟩

/-- Local steps of a client are steps of the whole. -/
theorem run_local {fs : List Event} {i : Fin N} {q : Process}
    (h : run Process.localStep (c.tasks.clients i) fs = some q) :
    ∃ d, run Cluster.step c (fs.map fun e => .task (.client i e)) = some d ∧
      d.tasks.clients i = q := by
  induction fs generalizing c with
  | nil =>
    obtain rfl := Option.some.inj h
    exact ⟨c, rfl, rfl⟩
  | cons e fs ih =>
    obtain ⟨p, hp, hfs⟩ := (run_cons_iff _ _ _ _ _).mp h
    obtain ⟨hlocal, hstep⟩ := (localStep_eq_some_iff _ _ _).mp hp
    have hnone : (TaskEvent.client i e).command = none := by
      cases e with
      | main a => cases hlocal
      | worker a => rfl
    have hd : c.step (.task (.client i e)) = some { c with
        tasks := { c.tasks with clients := Function.update c.tasks.clients i p } } := by
      simp [Cluster.step, step_local hlocal hstep, Cluster.deliver, hnone]
    have hnext : run Process.localStep (({ c with
        tasks := { c.tasks with clients := Function.update c.tasks.clients i p } } :
          Cluster N).tasks.clients i) fs = some q := by
      dsimp only
      rwa [Function.update_self]
    obtain ⟨d, hrun, hq⟩ := ih hnext
    exact ⟨d, (run_cons_iff _ _ _ _ _).mpr ⟨_, hd, hrun⟩, hq⟩

/-- In the whole system, too, a stopped client can leave exactly when its worker neither
is bound for a further task nor spins on `start_flag`. -/
theorem stopped_client_leaves_iff (console : Bytes) (command : UInt8)
    (pre post : List (ClusterEvent N)) (c : Cluster N) (i : Fin N)
    (h : run Cluster.step (.start N console command) (pre ++ .task (.client i stopWrite) :: post) =
      some c) :
    (∃ fs d, run Cluster.step c fs = some d ∧ (d.tasks.clients i).worker.hasLeft = true) ↔
      (c.tasks.clients i).worker.committed = false ∧
        (c.tasks.clients i).worker.spinning = false := by
  have hrun := run_clientEvents h i
  rw [clientEvents_split] at hrun
  have hnone := nothing_after_stopWrite h
  constructor
  · rintro ⟨fs, d, hfs, hleft⟩
    have hwhole : run Cluster.step (.start N console command)
        (pre ++ .task (.client i stopWrite) :: (post ++ fs)) = some d := by
      rw [← List.cons_append, ← List.append_assoc]
      exact (run_append_iff _ _ _ _ _).mpr ⟨c, h, hfs⟩
    have hnone' := nothing_after_stopWrite hwhole
    rw [clientEvents_append, commandsOf_append, hnone, List.nil_append] at hnone'
    have hown := run_clientEvents hwhole i
    rw [clientEvents_split, clientEvents_append, ← List.cons_append, ← List.append_assoc,
      run_append_iff] at hown
    obtain ⟨p, hp, hq⟩ := hown
    obtain rfl := Option.some.inj (hrun.symm.trans hp)
    exact (leaves_after_stop_iff hrun hnone).mp ⟨_, _, hq, hnone', hleft⟩
  · rintro ⟨hc, hspin⟩
    obtain ⟨fs, q, hfs, hleft⟩ := leavesAlone_of_quiet (quiet_of_run hrun hnone) hc hspin
    obtain ⟨d, hd, rfl⟩ := run_local hfs
    exact ⟨_, d, hd, hleft⟩

theorem stopped_client_leaves_first_round : ∃ c,
    run Cluster.step (.start 2 (ascii "se") 0) (stoppingCluster ++ [.task (.client 0 stopWrite)]) =
      some c ∧
      ∃ fs d, run Cluster.step c fs = some d ∧ (d.tasks.clients 0).worker.hasLeft = true :=
  ⟨_, rfl, (stopped_client_leaves_iff (ascii "se") 0 stoppingCluster [] _ 0 rfl).mpr ⟨rfl, rfl⟩⟩

/-- Every command that the server publishes passes the filters of the clients. -/
theorem isSubscribed_commandMessage {ch : UInt8} {m : Bytes} (h : commandMessage ch = some m) :
    isSubscribed m = true := by
  unfold commandMessage at h
  split_ifs at h
  all_goals
    obtain rfl := Option.some.inj h
    decide

theorem lossless_of_run {i : Fin N} (h : run Cluster.step (.start N console command) es = some c)
    (hkeep : ∀ keep, .round keep ∈ es → keep i = true) : c.channel.Lossless i := by
  refine run_invariant_along (I := fun c => c.channel.Lossless i)
    (P := fun _ e => ∀ keep, e = .round keep → keep i = true) ?_ rfl
    (along_of_forall _ _ _ ?_) h
  case refine_2 =>
    rintro e he - keep rfl
    exact hkeep keep he
  intro c e d hc hkeep hd
  cases Cluster.step_cases hd with
  | wrong | task => exact hc
  | publish keep m hloop hm =>
    apply Broadcast.lossless_publish hc
    rw [hkeep keep rfl, isSubscribed_commandMessage hm]
    rfl
  | receive j m tasks channel ht htake => exact Broadcast.lossless_take hc htake

/-- A client for which no command was dropped, and which has received them all, is in the
state that the operator's commands describe, as long as its tests of `stop_flag` see
only its own stops. So any two such clients agree. -/
theorem client_follows_operator (console : Bytes) (command : UInt8)
    (es : List (ClusterEvent N)) (c : Cluster N) (i : Fin N)
    (h : run Cluster.step (.start N console command) es = some c)
    (hkeep : ∀ keep, .round keep ∈ es → keep i = true) (hin : c.channel.inbox i = [])
    (hown : Along Process.step (fun p e => testsOwnStop p e) {} (clientEvents i es)) :
    let p := c.tasks.clients i
    let r := c.operator.published.foldl CommandState.receive .idle
    (p.main = .listen → r ≠ .stopped ∧ (p.flags.startFlag, p.flags.pauseFlag) = r.flags) ∧
      (p.main.gone = true → r = .stopped ∧ (p.flags.startFlag, p.flags.pauseFlag) = (0, 0)) := by
  intro p r
  have hcon := connected_of_run h
  have hall : commandsOf (clientEvents i es) = c.operator.published := by
    have hlossless : c.channel.received i ++ c.channel.inbox i = c.channel.log :=
      lossless_of_run h hkeep
    rw [hin, List.append_nil, hcon.received, hcon.log] at hlossless
    exact hlossless
  have htracks := (tracks_of_run (run_clientEvents h i) hown).2
  rw [foldl_next, hall] at htracks
  constructor
  · intro hm
    rw [hm] at htracks
    exact htracks
  · intro hg
    change p.main.Tracks p.flags.startFlag p.flags.pauseFlag r at htracks
    cases hm : p.main with
    | join | joinHeartbeat =>
      rw [hm] at htracks
      exact htracks
    | _ =>
      rw [hm] at hg
      cases hg

theorem client_follows_operator_started : ∃ c,
    run Cluster.step (.start 2 (ascii "s") 0) (startedCluster 0) = some c ∧
      ((c.tasks.clients 0).flags.startFlag, (c.tasks.clients 0).flags.pauseFlag) =
        CommandState.running.flags := by
  have hkeep (keep : Fin 2 → Bool) (h : .round keep ∈ startedCluster 0) : keep 0 = true := by
    rcases List.mem_append.mp h with h | h
    · obtain rfl := ClusterEvent.round.inj (List.mem_singleton.mp h)
      rfl
    · obtain ⟨e, -, he⟩ := List.mem_map.mp h
      cases he
  exact ⟨_, rfl, ((client_follows_operator (ascii "s") 0 (startedCluster 0) _ 0 rfl hkeep rfl
    (by decide)).1 rfl).2⟩

/-- The branch for an unknown command is dead: no client receives anything but the four
commands, so its `main` never works on any other signal. -/
theorem unknown_never_received (console : Bytes) (command : UInt8)
    (es : List (ClusterEvent N)) (c : Cluster N) (i : Fin N)
    (h : run Cluster.step (.start N console command) es = some c) :
    (∀ m ∈ commandsOf (clientEvents i es), listenFromServer m ≠ .kUnknow) ∧
      (c.tasks.clients i).main.signal ≠ some .kUnknow := by
  have hcon := connected_of_run h
  have hknown (m : Bytes) (hm : m ∈ commandsOf (clientEvents i es)) :
      listenFromServer m ≠ .kUnknow := by
    rw [← hcon.received] at hm
    have hpub := c.channel.mem_log_of_received hm
    rw [hcon.log, hcon.operator] at hpub
    exact published_known console command _ m hpub
  refine ⟨hknown, fun hs => ?_⟩
  obtain ⟨m, hlast, hm⟩ := Option.map_eq_some_iff.mp (signal_of_run (run_clientEvents h i) hs)
  exact hknown m (List.mem_of_getLast? hlast) hm

theorem unknown_never_received_stopped : ∃ c,
    run Cluster.step (.start 2 (ascii "se") 0) stoppedCluster = some c ∧
      (c.tasks.clients 0).main.signal ≠ some .kUnknow :=
  ⟨_, rfl, (unknown_never_received (ascii "se") 0 stoppedCluster _ 0 rfl).2⟩

end SimulationCluster

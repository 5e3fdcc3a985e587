import SimulationCluster.Broadcast
import SimulationCluster.ClientCommands
import SimulationCluster.OperatorLoop
import SimulationCluster.TaskConservation

/-! The server and its clients in one: the command loop of the server's `main`, the
PUB socket that it sends on, `assign_tasks`, `collect_result`, and any number of
clients. A PUB socket keeps the order of its messages and may drop any of them for
any client, as it does for one that is not connected yet. -/
namespace SimulationCluster
open ByteText Transition

/-- The filters of `subscribe_specific_signal`. -/
def subscriptions : List Bytes := [ascii "start", ascii "continue", ascii "pause", ascii "stop"]

/-- A SUB socket takes the messages that begin with one of its filters. -/
def isSubscribed (message : Bytes) : Bool :=
  subscriptions.any fun filter => filter.isPrefixOf message

structure Cluster (N : ℕ) where
  operator : Operator
  channel : Broadcast (Fin N) Bytes := .empty
  tasks : TaskSystem N := {}

/-- The programs started, with nothing published. -/
def Cluster.start (N : ℕ) (console : Bytes) (command : UInt8) : Cluster N where
  operator := { console, command }

inductive ClusterEvent (N : ℕ)
  | round (keep : Fin N → Bool)       -- a round of the server's `main`, and who is not dropped
  | task (e : TaskEvent N)

variable {N : ℕ}

/-- The client whose `main` receives in this step, and what it receives. -/
def TaskEvent.command : TaskEvent N → Option (Fin N × Bytes)
  | .client i (.main (.recv command)) => some (i, command)
  | _ => none

/-- The channel after a step of the tasks and the clients. -/
def Cluster.deliver (c : Cluster N) (e : TaskEvent N) : Option (Broadcast (Fin N) Bytes) :=
  match e.command with
  | some (i, command) => c.channel.take i command
  | none => some c.channel

def Cluster.step (c : Cluster N) : ClusterEvent N → Option (Cluster N)
  | .round keep =>
    if c.operator.inLoop then
      -- what the round has published is sent to the clients that are kept
      let sent := c.operator.round.published.drop c.operator.published.length
      some {
        operator := c.operator.round
        channel := sent.foldl (fun b m => b.publish m fun i => keep i && isSubscribed m) c.channel
        tasks := c.tasks }
    else none
  | .task e => do
    let tasks ← c.tasks.step e
    let channel ← c.deliver e
    some { c with channel, tasks }

/-- What one step of the system can do. -/
inductive Cluster.Step : Cluster N → ClusterEvent N → Cluster N → Prop
  | wrong (c : Cluster N) (keep) (hloop : c.operator.inLoop = true)
      (hm : commandMessage c.operator.read.command = none) :
      Step c (.round keep) { c with operator := c.operator.round }
  | publish (c : Cluster N) (keep m) (hloop : c.operator.inLoop = true)
      (hm : commandMessage c.operator.read.command = some m) :
      Step c (.round keep) { c with
        operator := c.operator.round
        channel := c.channel.publish m fun i => keep i && isSubscribed m }
  | receive (c : Cluster N) (i m tasks channel)
      (ht : c.tasks.step (.client i (.main (.recv m))) = some tasks)
      (hc : c.channel.take i m = some channel) :
      Step c (.task (.client i (.main (.recv m)))) { c with channel, tasks }
  | task (c : Cluster N) (e tasks) (ht : c.tasks.step e = some tasks) (he : e.command = none) :
      Step c (.task e) { c with tasks }

theorem Cluster.step_cases {c d : Cluster N} {e : ClusterEvent N} (h : c.step e = some d) :
    Cluster.Step c e d := by
  cases e with
  | round keep =>
    obtain ⟨hloop, hd⟩ := Option.ite_none_right_eq_some.mp h
    obtain rfl := Option.some.inj hd
    rw [round_published, List.drop_left]
    cases hm : commandMessage c.operator.read.command with
    | none => exact .wrong c keep hloop hm
    | some m => exact .publish c keep m hloop hm
  | task e =>
    simp only [Cluster.step, Option.bind_eq_bind, Option.bind_eq_some_iff,
      Option.some.injEq] at h
    obtain ⟨tasks, ht, channel, hc, rfl⟩ := h
    unfold Cluster.deliver at hc
    split at hc
    · rename_i i command he
      unfold TaskEvent.command at he
      split at he
      · obtain ⟨rfl, rfl⟩ := Prod.mk.inj (Option.some.inj he)
        exact .receive c _ _ tasks channel ht hc
      · cases he
    · rename_i he
      obtain rfl := Option.some.inj hc
      exact .task c e tasks ht he

/-- The steps of the tasks and the clients. -/
def tasksIn (es : List (ClusterEvent N)) : List (TaskEvent N) :=
  es.filterMap fun
    | .task e => some e
    | .round _ => none

theorem tasksIn_append (es fs : List (ClusterEvent N)) :
    tasksIn (es ++ fs) = tasksIn es ++ tasksIn fs := List.filterMap_append

/-- The steps of client `i`. -/
def clientEvents (i : Fin N) (es : List (ClusterEvent N)) : List Event := eventsOf i (tasksIn es)

theorem clientEvents_append (i : Fin N) (es fs : List (ClusterEvent N)) :
    clientEvents i (es ++ fs) = clientEvents i es ++ clientEvents i fs := by
  rw [clientEvents, tasksIn_append, eventsOf_append, clientEvents, clientEvents]

theorem run_tasksIn {es : List (ClusterEvent N)} {c d : Cluster N}
    (h : run Cluster.step c es = some d) :
    run TaskSystem.step c.tasks (tasksIn es) = some d.tasks := by
  refine run_filterMap Cluster.step Cluster.tasks _ ?_ ?_ h
  · intro c e d b hd hb
    cases Cluster.step_cases hd with
    | wrong | publish => cases hb
    | receive i m tasks channel ht hc =>
      obtain rfl := Option.some.inj hb
      exact ht
    | task e tasks ht he =>
      obtain rfl := Option.some.inj hb
      exact ht
  · intro c e d hd hb
    cases Cluster.step_cases hd with
    | wrong | publish => rfl
    | receive | task => cases hb

theorem run_clientEvents {es : List (ClusterEvent N)} {c : Cluster N} {console : Bytes}
    {command : UInt8} (h : run Cluster.step (.start N console command) es = some c) (i : Fin N) :
    run Process.step {} (clientEvents i es) = some (c.tasks.clients i) :=
  run_eventsOf (run_tasksIn h) i

/-- The number of rounds that the server's `main` has made. -/
def roundsIn (es : List (ClusterEvent N)) : ℕ :=
  es.countP fun
    | .round _ => true
    | .task _ => false

theorem roundsIn_append (es fs : List (ClusterEvent N)) :
    roundsIn (es ++ fs) = roundsIn es+roundsIn fs := List.countP_append

/-- How the parts fit together. -/
structure Connected (start : Operator) (es : List (ClusterEvent N)) (c : Cluster N) : Prop where
  operator : c.operator = start.rounds (roundsIn es)
  log : c.channel.log = c.operator.published
  received : ∀ i, c.channel.received i = commandsOf (clientEvents i es)

theorem rounds_succ {o : Operator} {n : ℕ} (h : (o.rounds n).inLoop = true) :
    o.rounds (n+1) = (o.rounds n).round := by
  rw [rounds_add, Operator.rounds, if_pos h, Operator.rounds]

theorem commandsOf_clientEvents (i j : Fin N) (m : Bytes) :
    commandsOf (clientEvents i [.task (.client j (.main (.recv m)))]) =
      if j = i then [m] else [] := by
  change commandsOf (eventsOf i [.client j (.main (.recv m))]) = _
  rw [eventsOf_client]
  split_ifs <;> rfl

theorem commandsOf_clientEvents_of_none {e : TaskEvent N} (h : e.command = none) (i : Fin N) :
    commandsOf (clientEvents i [.task e]) = [] := by
  change commandsOf (eventsOf i [e]) = []
  cases e with
  | client j e =>
    rw [eventsOf_client]
    split_ifs
    · cases e with
      | worker a => rfl
      | main a =>
        cases a
        case recv m => cases h
        all_goals rfl
    · rfl
  | _ => rfl

theorem connected_step {start : Operator} {es : List (ClusterEvent N)} {c d : Cluster N}
    {e : ClusterEvent N} (hc : Connected start es c) (h : c.step e = some d) :
    Connected start (es ++ [e]) d := by
  obtain ⟨hoperator, hlog, hreceived⟩ := hc
  have hround (keep : Fin N → Bool) (hloop : c.operator.inLoop = true) :
      c.operator.round = start.rounds (roundsIn (es ++ [.round keep])) := by
    rw [hoperator] at hloop ⊢
    rw [← rounds_succ hloop, roundsIn_append]
    rfl
  cases Cluster.step_cases h with
  | wrong keep hloop hm =>
    refine ⟨hround keep hloop, ?_, fun i => ?_⟩
    · rw [round_published, hm]
      exact hlog.trans (List.append_nil _).symm
    · rw [clientEvents_append, commandsOf_append]
      exact (hreceived i).trans (List.append_nil _).symm
  | publish keep m hloop hm =>
    refine ⟨hround keep hloop, ?_, fun i => ?_⟩
    · rw [round_published, hm, ← hlog]
      rfl
    · rw [clientEvents_append, commandsOf_append]
      exact (hreceived i).trans (List.append_nil _).symm
  | receive i m tasks channel ht hc =>
    have hsame : roundsIn (es ++ [.task (.client i (.main (.recv m)))]) = roundsIn es := by
      rw [roundsIn_append]
      rfl
    refine ⟨hoperator.trans (by rw [hsame]), (Broadcast.take_cases hc).2.1.trans hlog,
      fun j => ?_⟩
    rw [clientEvents_append, commandsOf_append, commandsOf_clientEvents, ← hreceived j]
    exact Broadcast.received_of_take hc j
  | task e tasks ht he =>
    have hsame : roundsIn (es ++ [.task e]) = roundsIn es := by
      rw [roundsIn_append]
      rfl
    refine ⟨hoperator.trans (by rw [hsame]), hlog, fun j => ?_⟩
    rw [clientEvents_append, commandsOf_append, commandsOf_clientEvents_of_none he, List.append_nil]
    exact hreceived j

theorem connected_of_run {es : List (ClusterEvent N)} {c : Cluster N} {console : Bytes}
    {command : UInt8} (h : run Cluster.step (.start N console command) es = some c) :
    Connected { console, command } es c :=
  run_history (fun _ _ _ _ => connected_step) ⟨rfl, rfl, fun _ => rfl⟩ h

end SimulationCluster

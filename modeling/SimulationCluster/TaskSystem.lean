import SimulationCluster.ClientThreads
import Mathlib.Data.Multiset.AddSub

/-! `assign_tasks` and `collect_result` of the server, together with any number of
clients. A socket keeps the messages in flight; it delivers each of them once, in
any order, and a reply only to the client whose request it answers. -/
namespace SimulationCluster
open ByteText Transition

/-- Where `assign_tasks` is in its loop. -/
inductive AssignPc (N : ℕ)
  | recv
  | send (i : Fin N)                  -- `i` sent the request being answered
  | bump                              -- `workload++`
  deriving DecidableEq

structure TaskSystem (N : ℕ) where
  workload : Int32 := 0
  assign : AssignPc N := .recv
  clients : Fin N → Process := fun _ => {}
  requests : Multiset (Fin N × Bytes) := 0
  replies : Multiset (Fin N × Bytes) := 0
  results : Multiset Bytes := 0
  collected : List Bytes := []        -- what `collect_result` has printed

inductive TaskEvent (N : ℕ)
  | client (i : Fin N) (e : Event)
  | recvRequest (i : Fin N) (request : Bytes)
  | sendReply (i : Fin N) (reply : Bytes)
  | bump
  | collect (result : Bytes)
  deriving DecidableEq

variable {N : ℕ}

/-- What a step of client `i` does to the messages in flight. The commands that
its `main` receives come from outside. -/
def TaskSystem.transfer (s : TaskSystem N) (i : Fin N) : Event → Option (TaskSystem N)
  | .worker (.request request) => some { s with requests := (i, request) ::ₘ s.requests }
  | .worker (.recv reply) =>
    if (i, reply) ∈ s.replies then some { s with replies := s.replies.erase (i, reply) } else none
  | .worker (.push result) => some { s with results := result ::ₘ s.results }
  | _ => some s

def TaskSystem.step (s : TaskSystem N) : TaskEvent N → Option (TaskSystem N)
  | .client i e => do
    let p ← (s.clients i).step e
    let s ← s.transfer i e
    some { s with clients := Function.update s.clients i p }
  | .recvRequest i request =>
    if s.assign = .recv ∧ (i, request) ∈ s.requests then
      some { s with assign := .send i, requests := s.requests.erase (i, request) }
    else none
  | .sendReply i reply =>
    -- a REP socket answers the request it received last
    if s.assign = .send i ∧ reply = toStringInt s.workload then
      some { s with assign := .bump, replies := (i, reply) ::ₘ s.replies }
    else none
  | .bump =>
    if s.assign = .bump then some { s with assign := .recv, workload := s.workload+1 } else none
  | .collect result =>
    if result ∈ s.results then
      some { s with results := s.results.erase result, collected := s.collected ++ [result] }
    else none

/-- The task that the simulation thread has received and whose result it has not sent. -/
def WorkerPc.inHand : WorkerPc → Option Bytes
  | .sendReady | .recvTask | .left _ => none
  | .resetStop newTask | .returned newTask _ | .sendResult newTask _ => some newTask
  | .waitStart f | .testStop f | .testStart f | .testPause f | .increment f | .writeStop f =>
    some f.newTask

/-- The task with which `simulation_wrap` broke out of its loop. -/
def WorkerPc.dropped : WorkerPc → Option Bytes
  | .left newTask => some newTask
  | _ => none

/-- Where a task that the server has handed out can be. -/
inductive Place (N : ℕ)
  | reply (i : Fin N)
  | inHand (i : Fin N)
  | dropped (i : Fin N)
  | result
  | collected
  deriving DecidableEq

/-- The life of a task. -/
inductive Route : Place N → Place N → Prop
  | receive (i) : Route (.reply i) (.inHand i)
  | send (i) : Route (.inHand i) .result
  | drop (i) : Route (.inHand i) (.dropped i)
  | collect : Route .result .collected

/-- "result of task n is: m", with `m` ten more than `n`. -/
def resultLine (n : ℕ) : Bytes :=
  ascii "result of task " ++ decimal n ++ ascii " is: " ++ decimal (n+10)

/-- How many copies of task `n` there are at a place. -/
def TaskSystem.copies (s : TaskSystem N) (n : ℕ) : Place N → ℕ
  | .reply i => s.replies.count (i, decimal n)
  | .inHand i => if (s.clients i).worker.inHand = some (decimal n) then 1 else 0
  | .dropped i => if (s.clients i).worker.dropped = some (decimal n) then 1 else 0
  | .result => s.results.count (resultLine n)
  | .collected => s.collected.count (resultLine n)

/-- The replies that a run has sent, in order. -/
def repliesSent (es : List (TaskEvent N)) : List Bytes :=
  es.filterMap fun
    | .sendReply _ reply => some reply
    | _ => none

/-- The steps of a run that client `i` took. -/
def eventsOf (i : Fin N) (es : List (TaskEvent N)) : List Event :=
  es.filterMap fun
    | .client j e => if j = i then some e else none
    | _ => none

/-- What one step of the system can do. -/
inductive TaskSystem.Step : TaskSystem N → TaskEvent N → TaskSystem N → Prop
  | recvTask (s : TaskSystem N) (i p reply) (hp : (s.clients i).step (.worker (.recv reply)) = some p)
      (hr : (i, reply) ∈ s.replies) :
      Step s (.client i (.worker (.recv reply)))
        { s with replies := s.replies.erase (i, reply), clients := Function.update s.clients i p }
  | sendResult (s : TaskSystem N) (i p result)
      (hp : (s.clients i).step (.worker (.push result)) = some p) :
      Step s (.client i (.worker (.push result)))
        { s with results := result ::ₘ s.results, clients := Function.update s.clients i p }
  | other (s : TaskSystem N) (i p e requests) (hp : (s.clients i).step e = some p)
      (hrecv : ∀ reply, e ≠ .worker (.recv reply)) (hpush : ∀ result, e ≠ .worker (.push result)) :
      Step s (.client i e) { s with requests, clients := Function.update s.clients i p }
  | recvRequest (s : TaskSystem N) (i requests request) (ha : s.assign = .recv) :
      Step s (.recvRequest i request) { s with assign := .send i, requests }
  | sendReply (s : TaskSystem N) (i) (ha : s.assign = .send i) :
      Step s (.sendReply i (toStringInt s.workload))
        { s with assign := .bump, replies := (i, toStringInt s.workload) ::ₘ s.replies }
  | bump (s : TaskSystem N) (ha : s.assign = .bump) :
      Step s .bump { s with assign := .recv, workload := s.workload+1 }
  | collect (s : TaskSystem N) (result) (hr : result ∈ s.results) :
      Step s (.collect result)
        { s with results := s.results.erase result, collected := s.collected ++ [result] }

theorem TaskSystem.step_cases {s t : TaskSystem N} {e : TaskEvent N} (h : s.step e = some t) :
    TaskSystem.Step s e t := by
  cases e with
  | client i e =>
    simp only [TaskSystem.step, Option.bind_eq_bind, Option.bind_eq_some_iff,
      Option.some.injEq] at h
    obtain ⟨p, hp, s', hs', rfl⟩ := h
    unfold TaskSystem.transfer at hs'
    split at hs'
    · obtain rfl := Option.some.inj hs'
      exact .other s i p _ _ hp nofun nofun
    · obtain ⟨hr, hs'⟩ := Option.ite_none_right_eq_some.mp hs'
      obtain rfl := Option.some.inj hs'
      exact .recvTask s i p _ hp hr
    · obtain rfl := Option.some.inj hs'
      exact .sendResult s i p _ hp
    · obtain rfl := Option.some.inj hs'
      rename_i hrecv hpush
      exact .other s i p e s.requests hp hrecv hpush
  | recvRequest i request =>
    obtain ⟨⟨ha, -⟩, ht⟩ := Option.ite_none_right_eq_some.mp h
    obtain rfl := Option.some.inj ht
    exact .recvRequest s i _ request ha
  | sendReply i reply =>
    obtain ⟨⟨ha, rfl⟩, ht⟩ := Option.ite_none_right_eq_some.mp h
    obtain rfl := Option.some.inj ht
    exact .sendReply s i ha
  | bump =>
    obtain ⟨ha, ht⟩ := Option.ite_none_right_eq_some.mp h
    obtain rfl := Option.some.inj ht
    exact .bump s ha
  | collect result =>
    obtain ⟨hr, ht⟩ := Option.ite_none_right_eq_some.mp h
    obtain rfl := Option.some.inj ht
    exact .collect s result hr

end SimulationCluster

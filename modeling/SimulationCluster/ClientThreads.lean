import SimulationCluster.Transition
import SimulationCluster.ByteText

/-! The client program. `main`'s command loop and the simulation thread share
`start_flag`, `pause_flag` and `stop_flag`; every read and every write of a flag
is one atomic step, and the two threads interleave. -/
namespace SimulationCluster
open ByteText

inductive SignalSet
  | kStart | kStop | kPause | kContinue | kUnknow
  deriving DecidableEq

def listenFromServer (command : Bytes) : SignalSet :=
  if command = ascii "start" then .kStart
  else if command = ascii "pause" then .kPause
  else if command = ascii "stop" then .kStop
  else if command = ascii "continue" then .kContinue
  else .kUnknow

/-- `is_irrelevant`, on the values of the two flags that it reads. -/
def isIrrelevant (signal : SignalSet) (startFlag pauseFlag : Int32) : Bool :=
  if signal = .kStart ∧ (startFlag = 0 ∧ pauseFlag = 0) then false
  else if signal = .kPause ∧ (startFlag = 1 ∧ pauseFlag = 0) then false
  else if signal = .kStop ∧ startFlag = 1 then false
  else if signal = .kContinue ∧ (startFlag = 1 ∧ pauseFlag = 1) then false
  else true

/-- `atoi`. For a number outside `int` the behaviour is undefined; `overflow` is what an
implementation makes of it. -/
def atoiWith (overflow : ℤ → Int32) (s : Bytes) : Int32 :=
  let z := (scanInt s).getD 0
  if -2^31 ≤ z ∧ z < 2^31 then Int32.ofInt z else overflow z

/-- `atoi` of an implementation that wraps around. The simulation thread reads the tasks
of the server with it, which fit `int`. -/
def atoi (s : Bytes) : Int32 := atoiWith Int32.ofInt s

theorem atoi_eq (s : Bytes) : atoi s = Int32.ofInt ((scanInt s).getD 0) := ite_self _

/-- `std::to_string(int)`. -/
def toStringInt (v : Int32) : Bytes :=
  if v.toInt < 0 then ascii "-" ++ decimal v.toInt.natAbs else decimal v.toInt.natAbs

def hasReachedEndpoint (input result : Int32) : Bool := result-input == 10

def resultInfo (newTask : Bytes) (result : Int32) : Bytes :=
  ascii "result of task " ++ newTask ++ ascii " is: " ++ toStringInt result

inductive Flag
  | startFlag | pauseFlag | stopFlag
  deriving DecidableEq

structure Flags where
  startFlag : Int32 := 0
  pauseFlag : Int32 := 0
  stopFlag : Int32 := 0
  deriving DecidableEq

/-- One atomic step of a thread. `request` and `push` send on the REQ and the
PUSH socket, `recv` is a receive that returned; `tau` touches only locals. -/
inductive Act
  | read (x : Flag) (v : Int32)
  | write (x : Flag) (v : Int32)
  | recv (message : Bytes)
  | request (message : Bytes)
  | push (message : Bytes)
  | increment
  | join
  | tau
  deriving DecidableEq

def Flags.get (f : Flags) : Flag → Int32
  | .startFlag => f.startFlag
  | .pauseFlag => f.pauseFlag
  | .stopFlag => f.stopFlag

def Flags.set (f : Flags) (v : Int32) : Flag → Flags
  | .startFlag => { f with startFlag := v }
  | .pauseFlag => { f with pauseFlag := v }
  | .stopFlag => { f with stopFlag := v }

/-- A read returns the current value; only a write changes the flags. -/
def Flags.perform (f : Flags) : Act → Option Flags
  | .read x v => if f.get x = v then some f else none
  | .write x v => some (f.set v x)
  | _ => some f

theorem Flags.perform_read_iff (f f' : Flags) (x : Flag) (v : Int32) :
    f.perform (.read x v) = some f' ↔ f.get x = v ∧ f = f' := by
  simp [Flags.perform]

/-- The value that an action reads from `x`. -/
def Act.readOf (x : Flag) : Act → Option Int32
  | .read y v => if y = x then some v else none
  | _ => none

def Act.received : Act → Option Bytes
  | .recv message => some message
  | _ => none

theorem Act.readOf_eq_some_iff (a : Act) (x : Flag) (v : Int32) :
    a.readOf x = some v ↔ a = .read x v := by
  cases a <;> simp [Act.readOf]

theorem Act.received_eq_some_iff (a : Act) (message : Bytes) :
    a.received = some message ↔ a = .recv message := by
  cases a <;> simp [Act.received]

/-- Where `main` is in client_main.cpp, with its local `signal`. -/
inductive MainPc
  | assertStart                       -- the assert reads `start_flag`
  | assertPause                       -- and `pause_flag` when that was 0
  | listen
  | testStop (signal : SignalSet)     -- `if (stop_flag)` before the dispatch
  | gateStart (signal : SignalSet)    -- `is_irrelevant` reads `start_flag`
  | gatePause (signal : SignalSet)    -- and then `pause_flag`
  | switch (signal : SignalSet)
  | stopPause                         -- second write of a stop command
  | stopStop                          -- third write
  | testAgain (signal : SignalSet)    -- `if (stop_flag) break` after the switch
  | join
  | joinHeartbeat
  | aborted
  deriving DecidableEq

/-- `is_irrelevant` after its read of `start_flag`. -/
def MainPc.afterStartFlag (signal : SignalSet) (v : Int32) : MainPc :=
  match signal with
  | .kStart => if v = 0 then .gatePause .kStart else .assertStart
  | .kPause => if v = 1 then .gatePause .kPause else .assertStart
  -- a stop is let through whatever `pause_flag` is, and does not read it
  | .kStop => if v = 1 then .switch .kStop else .assertStart
  | .kContinue => if v = 1 then .gatePause .kContinue else .assertStart
  | .kUnknow => .assertStart

/-- `is_irrelevant` after its read of `pause_flag`. -/
def MainPc.afterPauseFlag (signal : SignalSet) (v : Int32) : MainPc :=
  match signal with
  | .kStart => if v = 0 then .switch .kStart else .assertStart
  | .kPause => if v = 0 then .switch .kPause else .assertStart
  | .kContinue => if v = 1 then .switch .kContinue else .assertStart
  | .kStop | .kUnknow => .assertStart

def MainPc.next (m : MainPc) (a : Act) : Option MainPc :=
  match m with
  | .assertStart => (a.readOf .startFlag).map fun v => if v = 0 then .assertPause else .listen
  | .assertPause => (a.readOf .pauseFlag).map fun v => if v = 1 then .aborted else .listen
  | .listen => a.received.map fun command => .testStop (listenFromServer command)
  | .testStop signal => (a.readOf .stopFlag).map fun v =>
    -- `is_irrelevant` compares the signal first, so an unknown one reads no flag
    if v ≠ 0 then .join else if signal = .kUnknow then .assertStart else .gateStart signal
  | .gateStart signal => (a.readOf .startFlag).map (afterStartFlag signal)
  | .gatePause signal => (a.readOf .pauseFlag).map (afterPauseFlag signal)
  | .switch .kStart => if a = .write .startFlag 1 then some (.testAgain .kStart) else none
  | .switch .kContinue => if a = .write .pauseFlag 0 then some (.testAgain .kContinue) else none
  | .switch .kPause => if a = .write .pauseFlag 1 then some (.testAgain .kPause) else none
  | .switch .kStop => if a = .write .startFlag 0 then some .stopPause else none
  | .switch .kUnknow => if a = .tau then some (.testAgain .kUnknow) else none
  | .stopPause => if a = .write .pauseFlag 0 then some .stopStop else none
  | .stopStop => if a = .write .stopFlag 1 then some (.testAgain .kStop) else none
  | .testAgain _ => (a.readOf .stopFlag).map fun v => if v ≠ 0 then .join else .assertStart
  | .join => if a = .join then some .joinHeartbeat else none
  | .joinHeartbeat | .aborted => none

/-- The locals of `simulation_wrap` and `simulation` while a task is worked on. -/
structure Frame where
  newTask : Bytes
  input : Int32
  result : Int32
  deriving DecidableEq

/-- `simulation(atoi(new_task))` entered. -/
def Frame.enter (newTask : Bytes) : Frame := ⟨newTask, atoi newTask, atoi newTask⟩

/-- `result++`. -/
def Frame.bump (f : Frame) : Frame := { f with result := f.result+1 }

/-- Where the simulation thread is in `simulation_wrap` and `simulation`. -/
inductive WorkerPc
  | sendReady
  | recvTask
  | resetStop (newTask : Bytes)
  | waitStart (f : Frame)             -- `while (!start_flag)`
  | testStop (f : Frame)              -- top of a round
  | testStart (f : Frame)             -- `start_flag == 1 &&`
  | testPause (f : Frame)             -- `pause_flag == 1`
  | increment (f : Frame)
  | writeStop (f : Frame)             -- endpoint reached
  | returned (newTask : Bytes) (result : Int32)
  | sendResult (newTask : Bytes) (result : Int32)
  | left (newTask : Bytes)
  deriving DecidableEq

def WorkerPc.next : WorkerPc → Act → Option WorkerPc
  | .sendReady, .request message => if message = ascii "ready" then some .recvTask else none
  | .recvTask, .recv newTask => some (.resetStop newTask)
  | .resetStop newTask, .write .stopFlag v =>
    if v = 0 then some (.waitStart (.enter newTask)) else none
  -- a truth test here, a comparison with 1 in the pause test
  | .waitStart f, .read .startFlag v => some (if v = 0 then .waitStart f else .testStop f)
  | .testStop f, .read .stopFlag v =>
    some (if v ≠ 0 then .returned f.newTask (-1) else .testStart f)
  | .testStart f, .read .startFlag v => some (if v = 1 then .testPause f else .increment f)
  | .testPause f, .read .pauseFlag v => some (if v = 1 then .testStop f else .increment f)
  | .increment f, .increment =>
    some (if hasReachedEndpoint f.bump.input f.bump.result then .writeStop f.bump
      else .testStop f.bump)
  | .writeStop f, .write .stopFlag v =>
    if v = 1 then some (.returned f.newTask f.result) else none
  | .returned newTask result, .tau =>
    some (if result = -1 then .left newTask else .sendResult newTask result)
  | .sendResult newTask result, .push message =>
    if message = resultInfo newTask result then some .sendReady else none
  | _, _ => none

def WorkerPc.hasLeft : WorkerPc → Bool
  | .left _ => true
  | _ => false

/-- A client: its flags and the two threads. -/
structure Process where
  flags : Flags := {}
  main : MainPc := .assertStart
  worker : WorkerPc := .sendReady
  deriving DecidableEq

inductive Event
  | main (a : Act)
  | worker (a : Act)
  deriving DecidableEq

/-- One step of one thread. `main` gets past `simulation_thread.join()` only
when `simulation_wrap` has returned. -/
def Process.step (p : Process) : Event → Option Process
  | .main a => do
    let flags ← p.flags.perform a
    let main ← p.main.next a
    -- the only step of one thread that waits for the other
    if a = .join ∧ ¬p.worker.hasLeft then none else some ⟨flags, main, p.worker⟩
  | .worker a => do
    let flags ← p.flags.perform a
    let worker ← p.worker.next a
    some ⟨flags, p.main, worker⟩

/-- What one step can do, said once: the transitions of both threads on the state
they share. -/
inductive Process.Step : Process → Event → Process → Prop
  | assertStart (f w) : Step ⟨f, .assertStart, w⟩ (.main (.read .startFlag f.startFlag))
      ⟨f, if f.startFlag = 0 then .assertPause else .listen, w⟩
  | assertPause (f w) : Step ⟨f, .assertPause, w⟩ (.main (.read .pauseFlag f.pauseFlag))
      ⟨f, if f.pauseFlag = 1 then .aborted else .listen, w⟩
  | listen (f w command) : Step ⟨f, .listen, w⟩ (.main (.recv command))
      ⟨f, .testStop (listenFromServer command), w⟩
  | testStop (f w signal) : Step ⟨f, .testStop signal, w⟩ (.main (.read .stopFlag f.stopFlag))
      ⟨f, if f.stopFlag ≠ 0 then .join
        else if signal = .kUnknow then .assertStart else .gateStart signal, w⟩
  | gateStart (f w signal) :
      Step ⟨f, .gateStart signal, w⟩ (.main (.read .startFlag f.startFlag))
        ⟨f, MainPc.afterStartFlag signal f.startFlag, w⟩
  | gatePause (f w signal) :
      Step ⟨f, .gatePause signal, w⟩ (.main (.read .pauseFlag f.pauseFlag))
        ⟨f, MainPc.afterPauseFlag signal f.pauseFlag, w⟩
  | start (f w) : Step ⟨f, .switch .kStart, w⟩ (.main (.write .startFlag 1))
      ⟨{ f with startFlag := 1 }, .testAgain .kStart, w⟩
  | goOn (f w) : Step ⟨f, .switch .kContinue, w⟩ (.main (.write .pauseFlag 0))
      ⟨{ f with pauseFlag := 0 }, .testAgain .kContinue, w⟩
  | pause (f w) : Step ⟨f, .switch .kPause, w⟩ (.main (.write .pauseFlag 1))
      ⟨{ f with pauseFlag := 1 }, .testAgain .kPause, w⟩
  | stopStart (f w) : Step ⟨f, .switch .kStop, w⟩ (.main (.write .startFlag 0))
      ⟨{ f with startFlag := 0 }, .stopPause, w⟩
  | stopPause (f w) : Step ⟨f, .stopPause, w⟩ (.main (.write .pauseFlag 0))
      ⟨{ f with pauseFlag := 0 }, .stopStop, w⟩
  | stopStop (f w) : Step ⟨f, .stopStop, w⟩ (.main (.write .stopFlag 1))
      ⟨{ f with stopFlag := 1 }, .testAgain .kStop, w⟩
  | unknown (f w) : Step ⟨f, .switch .kUnknow, w⟩ (.main .tau) ⟨f, .testAgain .kUnknow, w⟩
  | testAgain (f w signal) : Step ⟨f, .testAgain signal, w⟩ (.main (.read .stopFlag f.stopFlag))
      ⟨f, if f.stopFlag ≠ 0 then .join else .assertStart, w⟩
  | join (f newTask) : Step ⟨f, .join, .left newTask⟩ (.main .join)
      ⟨f, .joinHeartbeat, .left newTask⟩
  | sendReady (f m) : Step ⟨f, m, .sendReady⟩ (.worker (.request (ascii "ready")))
      ⟨f, m, .recvTask⟩
  | recvTask (f m newTask) : Step ⟨f, m, .recvTask⟩ (.worker (.recv newTask))
      ⟨f, m, .resetStop newTask⟩
  | resetStop (f m newTask) : Step ⟨f, m, .resetStop newTask⟩ (.worker (.write .stopFlag 0))
      ⟨{ f with stopFlag := 0 }, m, .waitStart (.enter newTask)⟩
  | waitStart (f m g) : Step ⟨f, m, .waitStart g⟩ (.worker (.read .startFlag f.startFlag))
      ⟨f, m, if f.startFlag = 0 then .waitStart g else .testStop g⟩
  | roundStop (f m g) : Step ⟨f, m, .testStop g⟩ (.worker (.read .stopFlag f.stopFlag))
      ⟨f, m, if f.stopFlag ≠ 0 then .returned g.newTask (-1) else .testStart g⟩
  | roundStart (f m g) : Step ⟨f, m, .testStart g⟩ (.worker (.read .startFlag f.startFlag))
      ⟨f, m, if f.startFlag = 1 then .testPause g else .increment g⟩
  | roundPause (f m g) : Step ⟨f, m, .testPause g⟩ (.worker (.read .pauseFlag f.pauseFlag))
      ⟨f, m, if f.pauseFlag = 1 then .testStop g else .increment g⟩
  | increment (f m g) : Step ⟨f, m, .increment g⟩ (.worker .increment)
      ⟨f, m, if hasReachedEndpoint g.bump.input g.bump.result then .writeStop g.bump
        else .testStop g.bump⟩
  | writeStop (f m g) : Step ⟨f, m, .writeStop g⟩ (.worker (.write .stopFlag 1))
      ⟨{ f with stopFlag := 1 }, m, .returned g.newTask g.result⟩
  | returned (f m newTask result) : Step ⟨f, m, .returned newTask result⟩ (.worker .tau)
      ⟨f, m, if result = -1 then .left newTask else .sendResult newTask result⟩
  | sendResult (f m newTask result) :
      Step ⟨f, m, .sendResult newTask result⟩ (.worker (.push (resultInfo newTask result)))
        ⟨f, m, .sendReady⟩

theorem Process.step_of_Step {p q : Process} {e : Event} (h : Process.Step p e q) :
    p.step e = some q := by
  cases h <;> simp [Process.step, Flags.perform, Flags.get, Flags.set, Act.readOf,
    Act.received, MainPc.next, WorkerPc.next, WorkerPc.hasLeft]

/-- The relation and the step function are the same. -/
theorem Process.step_eq_some_iff (p q : Process) (e : Event) :
    p.step e = some q ↔ Process.Step p e q := by
  refine ⟨fun h => ?_, step_of_Step⟩
  obtain ⟨f, m, w⟩ := p
  cases e with
  | main a =>
    simp only [Process.step, Option.bind_eq_bind, Option.bind_eq_some_iff] at h
    obtain ⟨f', hf, m', hm, hq⟩ := h
    unfold MainPc.next at hm
    split at hm
    all_goals
      simp only [Option.map_eq_some_iff, Act.readOf_eq_some_iff, Act.received_eq_some_iff,
        Option.ite_none_right_eq_some, Option.some.injEq, reduceCtorEq] at hm
    all_goals
      first
      | obtain ⟨rfl, rfl⟩ := hm
      | obtain ⟨v, rfl, rfl⟩ := hm
      simp only [reduceCtorEq, false_and, ↓reduceIte, true_and, Option.ite_none_left_eq_some,
        not_not, Option.some.injEq] at hq
    case h_15 =>
      obtain ⟨hleft, rfl⟩ := hq
      cases w <;> simp only [WorkerPc.hasLeft, Bool.false_eq_true] at hleft
      obtain rfl := Option.some.inj hf
      exact .join f _
    all_goals
      obtain rfl := hq
      first
      | obtain ⟨rfl, rfl⟩ := (Flags.perform_read_iff _ _ _ _).mp hf
      | obtain rfl := Option.some.inj hf
      constructor
  | worker a =>
    simp only [Process.step, Option.bind_eq_bind, Option.bind_eq_some_iff, Option.some.injEq] at h
    obtain ⟨f', hf, w', hw, rfl⟩ := h
    unfold WorkerPc.next at hw
    split at hw
    all_goals
      simp only [Option.ite_none_right_eq_some, Option.some.injEq, reduceCtorEq] at hw
    all_goals
      first
      | obtain ⟨rfl, rfl⟩ := (Flags.perform_read_iff _ _ _ _).mp hf
      | obtain rfl := Option.some.inj hf
      obtain ⟨rfl, rfl⟩ := hw
      constructor

theorem Process.step_pause {p q : Process} (h : p.step (.main (.write .pauseFlag 1)) = some q) :
    ∃ f w, p = ⟨f, .switch .kPause, w⟩ ∧ q = ⟨{ f with pauseFlag := 1 }, .testAgain .kPause, w⟩ := by
  have hstep := (Process.step_eq_some_iff p q _).mp h
  generalize he : Event.main (.write .pauseFlag 1) = e at hstep
  cases hstep <;> simp at he
  case pause f w => exact ⟨f, w, rfl, rfl⟩

/-- `main` writes `stop_flag` only at the end of a stop command. -/
theorem Process.step_stop {p q : Process} (h : p.step (.main (.write .stopFlag 1)) = some q) :
    ∃ f w, p = ⟨f, .stopStop, w⟩ ∧ q = ⟨{ f with stopFlag := 1 }, .testAgain .kStop, w⟩ := by
  have hstep := (Process.step_eq_some_iff p q _).mp h
  generalize he : Event.main (.write .stopFlag 1) = e at hstep
  cases hstep <;> simp at he
  case stopStop f w => exact ⟨f, w, rfl, rfl⟩

theorem Process.step_reset {p q : Process} (h : p.step (.worker (.write .stopFlag 0)) = some q) :
    ∃ f m newTask, p = ⟨f, m, .resetStop newTask⟩ ∧
      q = ⟨{ f with stopFlag := 0 }, m, .waitStart (.enter newTask)⟩ := by
  have hstep := (Process.step_eq_some_iff p q _).mp h
  generalize he : Event.worker (.write .stopFlag 0) = e at hstep
  cases hstep <;> simp at he
  case resetStop f m newTask => exact ⟨f, m, newTask, rfl, rfl⟩

/-- The head of the command loop with `start_flag` = 1. -/
def assertRunning : List Event := [.main (.read .startFlag 1)]

/-- The head of the command loop with both flags 0. -/
def assertIdle : List Event := [.main (.read .startFlag 0), .main (.read .pauseFlag 0)]

/-- A start command that is received with both flags 0 and `stop_flag` 0. -/
def startCommand : List Event :=
  [.main (.recv (ascii "start")), .main (.read .stopFlag 0), .main (.read .startFlag 0),
    .main (.read .pauseFlag 0), .main (.write .startFlag 1), .main (.read .stopFlag 0)]

/-- A pause command that is received while running, with `stop_flag` 0. -/
def pauseCommand : List Event :=
  [.main (.recv (ascii "pause")), .main (.read .stopFlag 0), .main (.read .startFlag 1),
    .main (.read .pauseFlag 0), .main (.write .pauseFlag 1), .main (.read .stopFlag 0)]

/-- A stop command that is received while running or paused, up to its writes. -/
def stopGate : List Event :=
  [.main (.recv (ascii "stop")), .main (.read .stopFlag 0), .main (.read .startFlag 1)]

/-- The first two writes of a stop command, which clear the flags. -/
def stopClears : List Event := [.main (.write .startFlag 0), .main (.write .pauseFlag 0)]

/-- `simulation_wrap` from the top of its loop up to, not including, the reset of `stop_flag`. -/
def fetchTask (newTask : Bytes) : List Event :=
  [.worker (.request (ascii "ready")), .worker (.recv newTask)]

end SimulationCluster

import SimulationCluster.CommandMachine
import SimulationCluster.ClientProgress

namespace SimulationCluster
open ByteText Transition

/-- The messages that `main` receives, in order. -/
def commandsOf (es : List Event) : List Bytes :=
  es.filterMap fun
    | .main (.recv command) => some command
    | _ => none

theorem commandsOf_append (es fs : List Event) :
    commandsOf (es ++ fs) = commandsOf es ++ commandsOf fs := List.filterMap_append

theorem commandsOf_snoc {es : List Event} {e : Event} (h : commandsOf [e] = []) :
    commandsOf (es ++ [e]) = commandsOf es := by
  rw [commandsOf_append, h, List.append_nil]

theorem foldl_next (es : List Event) (r : CommandState) :
    es.foldl CommandState.next r = (commandsOf es).foldl CommandState.receive r := by
  induction es generalizing r with
  | nil => rfl
  | cons e es ih =>
    rw [List.foldl_cons, ih]
    cases e with
    | worker a => rfl
    | main a => cases a <;> rfl

/-- The signal that `main` works on, from its receive to the end of the round. -/
def MainPc.signal : MainPc → Option SignalSet
  | .testStop signal | .gateStart signal | .gatePause signal | .switch signal
  | .testAgain signal => some signal
  | .stopPause | .stopStop => some .kStop
  | _ => none

/-- The gate passes the signal on, or drops it. -/
theorem signal_afterStartFlag (signal : SignalSet) (v : Int32) :
    (MainPc.afterStartFlag signal v).signal = some signal ∨
      (MainPc.afterStartFlag signal v).signal = none := by
  rcases afterStartFlag_cases signal v with ⟨h, -⟩ | h | h
  · exact .inr (by rw [h]; rfl)
  · exact .inl (by rw [h]; rfl)
  · exact .inl (by rw [h]; rfl)

theorem signal_afterPauseFlag (signal : SignalSet) (v : Int32) :
    (MainPc.afterPauseFlag signal v).signal = some signal ∨
      (MainPc.afterPauseFlag signal v).signal = none := by
  cases signal
  case kStop | kUnknow => exact .inr rfl
  all_goals
    simp only [MainPc.afterPauseFlag]
    split_ifs
    · exact .inl rfl
    · exact .inr rfl

theorem signal_step {p q : Process} {e : Event} (h : Process.Step p e q)
    (hrecv : commandsOf [e] = []) : q.main.signal = p.main.signal ∨ q.main.signal = none := by
  cases h
  case listen => cases hrecv
  case gateStart f w signal => exact signal_afterStartFlag signal _
  case gatePause f w signal => exact signal_afterPauseFlag signal _
  case assertStart | assertPause | testAgain =>
    dsimp only
    split_ifs <;> exact .inr rfl
  case testStop f w signal =>
    dsimp only
    split_ifs
    · exact .inr rfl
    · exact .inr rfl
    · exact .inl rfl
  all_goals exact .inl rfl

/-- What `main` works on is the last command that it has received. -/
theorem signal_of_run {es : List Event} {p : Process} {signal : SignalSet}
    (hr : run Process.step {} es = some p) (h : p.main.signal = some signal) :
    (commandsOf es).getLast?.map listenFromServer = some signal := by
  refine run_history (I := fun es p => ∀ signal, p.main.signal = some signal →
    (commandsOf es).getLast?.map listenFromServer = some signal) ?_ ?_ hr signal h
  case refine_2 =>
    intro signal hs
    cases hs
  intro es p e q hp he signal hs
  have hstep := (Process.step_eq_some_iff p q e).mp he
  by_cases hrecv : commandsOf [e] = []
  · rw [commandsOf_snoc hrecv]
    rcases signal_step hstep hrecv with hq | hq
    · exact hp signal (hq ▸ hs)
    · cases hq.symm.trans hs
  · cases hstep
    case listen f w command =>
      obtain rfl : listenFromServer command = signal := Option.some.inj hs
      rw [commandsOf_append]
      exact congrArg _ List.getLast?_concat
    all_goals exact absurd rfl hrecv

/-- The text that `listen_from_server` takes for a signal. -/
def SignalSet.text : SignalSet → Option Bytes
  | .kStart => some (ascii "start")
  | .kStop => some (ascii "stop")
  | .kPause => some (ascii "pause")
  | .kContinue => some (ascii "continue")
  | .kUnknow => none

theorem text_listenFromServer {command : Bytes} {signal : SignalSet}
    (h : listenFromServer command = signal) (hs : signal ≠ .kUnknow) :
    signal.text = some command := by
  subst h
  unfold listenFromServer at hs ⊢
  split_ifs at hs ⊢ with h1 h2 h3 h4
  · rw [h1]
    rfl
  · rw [h2]
    rfl
  · rw [h3]
    rfl
  · rw [h4]
    rfl
  · exact absurd rfl hs

theorem command_of_run {es : List Event} {p : Process} {signal : SignalSet}
    (hr : run Process.step {} es = some p) (h : p.main.signal = some signal)
    (hs : signal ≠ .kUnknow) : (commandsOf es).getLast? = signal.text := by
  obtain ⟨command, hlast, hcommand⟩ := Option.map_eq_some_iff.mp (signal_of_run hr h)
  rw [hlast, text_listenFromServer hcommand hs]

/-- A step that `main` makes only on one signal comes after the command for it. -/
theorem received_of_step (signal : SignalSet) {es : List Event} {p : Process} {e : Event}
    {command : Bytes} (hr : run Process.step {} es = some p) (h : e ∈ es)
    (hsig : ∀ s t, Process.Step s e t → s.main.signal = some signal)
    (htext : signal.text = some command) : command ∈ commandsOf es := by
  obtain ⟨pre, post, rfl⟩ := List.append_of_mem h
  obtain ⟨s, t, hpre, he, -⟩ := run_split _ _ _ _ _ _ hr
  have hknown : signal ≠ .kUnknow := by
    rintro rfl
    cases htext
  have hlast := command_of_run hpre (hsig s t ((Process.step_eq_some_iff _ _ _).mp he)) hknown
  rw [commandsOf_append]
  exact List.mem_append_left _ (List.mem_of_getLast? (hlast.trans htext))

theorem start_received {es : List Event} {p : Process} (hr : run Process.step {} es = some p)
    (h : .main (.write .startFlag 1) ∈ es) : ascii "start" ∈ commandsOf es := by
  refine received_of_step .kStart hr h (fun s t hstep => ?_) rfl
  generalize hlabel : Event.main (.write .startFlag 1) = e at hstep
  cases hstep <;> simp at hlabel
  rfl

theorem stop_received {es : List Event} {p : Process} (hr : run Process.step {} es = some p)
    (h : .main (.write .stopFlag 1) ∈ es) : ascii "stop" ∈ commandsOf es := by
  refine received_of_step .kStop hr h (fun s t hstep => ?_) rfl
  obtain ⟨f, w, rfl, -⟩ := Process.step_stop ((Process.step_eq_some_iff _ _ _).mpr hstep)
  rfl

end SimulationCluster

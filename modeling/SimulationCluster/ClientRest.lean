import SimulationCluster.ClientCommands
import SimulationCluster.WorkerStranded

namespace SimulationCluster
open ByteText Transition

/-- Without a further receive `main` writes no flag from here on. -/
def MainPc.resting : MainPc → Bool
  | .assertStart | .assertPause | .listen | .testAgain _ | .join | .joinHeartbeat
  | .aborted => true
  | _ => false

/-- A stop command has been executed, and nothing was received after it. -/
structure Process.Quiet (p : Process) : Prop where
  main : p.main.resting = true
  start : p.flags.startFlag = 0
  pause : p.flags.pauseFlag = 0
  round : p.worker.inRound = true → p.flags.stopFlag ≠ 0

/-- Steps up to the exit, or to the next `while (!start_flag)`, at most. -/
def WorkerPc.toGo : WorkerPc → ℕ
  | .left _ | .waitStart _ => 0
  | .resetStop _ => 1
  | .recvTask | .testStop _ => 2
  | .sendReady => 3
  | .sendResult _ _ => 4
  | .returned _ result => if result = -1 then 1 else 5
  | .writeStop _ => 6
  | .increment _ => 7
  | .testStart _ | .testPause _ => 8

def MainPc.toGo : MainPc → ℕ
  | .testAgain _ => 3
  | .assertStart => 2
  | .assertPause | .join => 1
  | _ => 0

def Event.isRequest : Event → Bool
  | .worker (.request _) => true
  | _ => false

def Event.isPush : Event → Bool
  | .worker (.push _) => true
  | _ => false

/-- The distance `WorkerPc.toGo` of the worker when it asks, sends or counts. -/
def Event.distance : Event → Option ℕ
  | .worker (.request _) => some 3
  | .worker (.push _) => some 4
  | .worker .increment => some 7
  | _ => none

/-- The read of `while (!start_flag)` that finds 0. The start test of a round can have
the same label. -/
def Event.isSpin (e : Event) : Bool := e == .worker (.read .startFlag 0)

theorem quiet_of_stop {p q : Process} (hfit : p.main.FlagsFit p.flags.startFlag p.flags.pauseFlag)
    (h : p.step (.main (.write .stopFlag 1)) = some q) : q.Quiet := by
  obtain ⟨f, w, rfl, rfl⟩ := Process.step_stop h
  exact ⟨rfl, hfit.1, hfit.2, fun _ => (by decide : (1 : Int32) ≠ 0)⟩

theorem quiet_step {p q : Process} {e : Event} (hp : p.Quiet) (hrecv : commandsOf [e] = [])
    (h : Process.Step p e q) : q.Quiet := by
  obtain ⟨hmain, hstart, hpause, hround⟩ := hp
  cases h
  case listen => cases hrecv
  case assertStart f w =>
    rw [if_pos hstart]
    exact ⟨rfl, hstart, hpause, hround⟩
  case assertPause f w =>
    rw [if_neg (by rw [hpause]; decide)]
    exact ⟨rfl, hstart, hpause, hround⟩
  case testAgain f w signal =>
    refine ⟨?_, hstart, hpause, hround⟩
    split_ifs <;> rfl
  case resetStop f m newTask => exact ⟨hmain, hstart, hpause, fun hw => by cases hw⟩
  case waitStart f m g =>
    rw [if_pos hstart]
    exact ⟨hmain, hstart, hpause, fun hw => by cases hw⟩
  case roundStop f m g =>
    rw [if_pos (hround rfl)]
    exact ⟨hmain, hstart, hpause, fun hw => by cases hw⟩
  case roundStart f m g => exact ⟨hmain, hstart, hpause, fun _ => hround rfl⟩
  case roundPause f m g => exact ⟨hmain, hstart, hpause, fun _ => hround rfl⟩
  case increment f m g => exact ⟨hmain, hstart, hpause, fun _ => hround rfl⟩
  case returned f m newTask result =>
    refine ⟨hmain, hstart, hpause, fun hw => ?_⟩
    dsimp only at hw
    split_ifs at hw <;> cases hw
  case join | sendReady | recvTask | sendResult | writeStop =>
    exact ⟨hmain, hstart, hpause, fun hw => by cases hw⟩
  all_goals cases hmain

/-- Every step of `main` brings it nearer to its receive, or past its join. -/
theorem toGo_main {p q : Process} {a : Act} (hp : p.Quiet) (hrecv : commandsOf [.main a] = [])
    (h : Process.Step p (.main a) q) :
    q.main.toGo+1 ≤ p.main.toGo ∧ q.worker = p.worker := by
  have hmain := hp.main
  cases h
  case listen => cases hrecv
  case assertStart f w =>
    rw [if_pos hp.start]
    exact ⟨le_rfl, rfl⟩
  case assertPause f w =>
    rw [if_neg (by rw [hp.pause]; decide)]
    exact ⟨le_rfl, rfl⟩
  case testAgain f w signal =>
    refine ⟨?_, rfl⟩
    dsimp only
    split_ifs <;> simp [MainPc.toGo]
  case join => exact ⟨le_rfl, rfl⟩
  all_goals cases hmain

/-- Every step of the worker but a spin brings it nearer to its exit, or to the spin. -/
theorem toGo_worker {p q : Process} {a : Act} (hp : p.Quiet) (h : Process.Step p (.worker a) q) :
    q.main = p.main ∧
      q.worker.toGo+(if (Event.worker a).isSpin then 0 else 1) ≤ p.worker.toGo := by
  obtain ⟨-, hstart, -, hround⟩ := hp
  cases h
  case waitStart f m g =>
    have hspin : (Event.worker (.read .startFlag f.startFlag)).isSpin = true := by
      rw [show f.startFlag = 0 from hstart]
      rfl
    rw [if_pos hstart, if_pos hspin]
    exact ⟨rfl, le_rfl⟩
  case roundStop f m g =>
    rw [if_pos (hround rfl)]
    exact ⟨rfl, le_rfl⟩
  case roundStart f m g =>
    have hrun : ¬f.startFlag = 1 := by
      rw [show f.startFlag = 0 from hstart]
      decide
    rw [if_neg hrun]
    refine ⟨rfl, ?_⟩
    change 7+_ ≤ 8
    split_ifs <;> omega
  case roundPause f m g =>
    refine ⟨rfl, ?_⟩
    change WorkerPc.toGo _+1 ≤ 8
    split_ifs <;> simp [WorkerPc.toGo]
  case increment f m g =>
    refine ⟨rfl, ?_⟩
    change WorkerPc.toGo _+1 ≤ 7
    split_ifs <;> simp [WorkerPc.toGo]
  case writeStop f m g =>
    refine ⟨rfl, ?_⟩
    change (if g.result = -1 then 1 else 5)+1 ≤ 6
    split_ifs <;> omega
  case returned f m newTask result =>
    refine ⟨rfl, ?_⟩
    change WorkerPc.toGo _+1 ≤ if result = -1 then 1 else 5
    split_ifs <;> simp [WorkerPc.toGo]
  all_goals exact ⟨rfl, le_rfl⟩

theorem toGo_of_distance {p q : Process} {e : Event} {k : ℕ} (h : Process.Step p e q)
    (he : e.distance = some k) : p.worker.toGo = k := by
  cases h <;> cases he <;> rfl

theorem distance_of_counted (e : Event) :
    (e.isIncrement = true → e.distance = some 7) ∧
      (e.isRequest = true → e.distance = some 3) ∧ (e.isPush = true → e.distance = some 4) := by
  cases e with
  | main a => simp [Event.isIncrement, Event.isRequest, Event.isPush]
  | worker a =>
    cases a <;> simp [Event.isIncrement, Event.isRequest, Event.isPush, Event.distance]

theorem isSpin_of_distance {e : Event} {k : ℕ} (h : e.distance = some k) :
    e.isSpin = false := by
  apply beq_false_of_ne
  rintro rfl
  cases h

/-- Steps of one kind that are all made at the same distance: there is at most one. -/
theorem countP_at_le_one {counted : Event → Bool} {k : ℕ} {p q : Process} {es : List Event}
    (hp : p.Quiet) (hrecv : ∀ e ∈ es, commandsOf [e] = []) (hr : run Process.step p es = some q)
    (hat : ∀ e, counted e = true → e.distance = some k) : es.countP counted ≤ 1 := by
  have hbudget := countP_le_budget (I := Process.Quiet) (P := fun _ e => commandsOf [e] = [])
    counted (fun p => if k ≤ p.worker.toGo then 1 else 0) ?_ hp
    (along_of_forall _ _ _ fun e he _ => hrecv e he) hr
  · refine hbudget.trans ?_
    split_ifs <;> omega
  · intro p e q hp hrecv he
    have hstep := (Process.step_eq_some_iff p q e).mp he
    refine ⟨quiet_step hp hrecv hstep, ?_⟩
    cases e with
    | main a =>
      have hc : ¬counted (.main a) = true := fun hc => by cases hat _ hc
      rw [(toGo_main hp hrecv hstep).2, if_neg hc]
      exact le_rfl
    | worker a =>
      have hdown := (toGo_worker hp hstep).2
      by_cases hc : counted (.worker a) = true
      · have hk := toGo_of_distance hstep (hat _ hc)
        rw [isSpin_of_distance (hat _ hc), if_neg Bool.false_ne_true, hk] at hdown
        rw [if_pos hc, hk, if_pos le_rfl, if_neg (by omega)]
      · rw [if_neg hc]
        split_ifs at hdown ⊢ <;> omega

/-- The steps that are no spins are bounded by the distance. -/
theorem countP_le_toGo {p q : Process} {es : List Event} (hp : p.Quiet)
    (hrecv : ∀ e ∈ es, commandsOf [e] = []) (hr : run Process.step p es = some q) :
    es.countP (fun e => !e.isSpin) ≤ p.main.toGo+p.worker.toGo := by
  refine countP_le_budget (I := Process.Quiet) (P := fun _ e => commandsOf [e] = [])
    (fun e => !e.isSpin) (fun p => p.main.toGo+p.worker.toGo) ?_ hp
    (along_of_forall _ _ _ fun e he _ => hrecv e he) hr
  intro p e q hp hrecv he
  have hstep := (Process.step_eq_some_iff p q e).mp he
  refine ⟨quiet_step hp hrecv hstep, ?_⟩
  cases e with
  | main a =>
    obtain ⟨hdown, hsame⟩ := toGo_main hp hrecv hstep
    rw [hsame]
    split_ifs <;> omega
  | worker a =>
    obtain ⟨hsame, hdown⟩ := toGo_worker hp hstep
    rw [hsame]
    cases hspin : (Event.worker a).isSpin with
    | true =>
      rw [hspin, if_pos rfl] at hdown
      rw [Bool.not_true, if_neg Bool.false_ne_true]
      omega
    | false =>
      rw [hspin, if_neg Bool.false_ne_true] at hdown
      rw [Bool.not_false, if_pos rfl]
      omega

theorem toGo_le (w : WorkerPc) : w.toGo ≤ 8 := by
  cases w <;> simp only [WorkerPc.toGo] <;> try omega
  split_ifs <;> omega

theorem commandsOf_eq_nil_iff (es : List Event) :
    commandsOf es = [] ↔ ∀ e ∈ es, commandsOf [e] = [] := by
  induction es with
  | nil => simp [commandsOf]
  | cons e es ih =>
    rw [← List.singleton_append, commandsOf_append, List.append_eq_nil_iff, ih]
    simp

/-- A stop command that no command follows brings the client to rest: at most one
`result++`, one request and one result come after its last write, and at most eleven
steps of both threads besides the spinning. -/
theorem rests_after_stop {pre post : List Event} {p : Process}
    (hr : run Process.step {} (pre ++ .main (.write .stopFlag 1) :: post) = some p)
    (hnone : commandsOf post = []) :
    post.countP Event.isIncrement ≤ 1 ∧ post.countP Event.isRequest ≤ 1 ∧
      post.countP Event.isPush ≤ 1 ∧ post.countP (fun e => !e.isSpin) ≤ 11 := by
  obtain ⟨s, t, hpre, he, hpost⟩ := run_split _ _ _ _ _ _ hr
  have hquiet := quiet_of_stop (sound_of_run hpre).fit he
  have hrecv := (commandsOf_eq_nil_iff post).mp hnone
  refine ⟨?_, ?_, ?_, ?_⟩
  · exact countP_at_le_one hquiet hrecv hpost fun e => (distance_of_counted e).1
  · exact countP_at_le_one hquiet hrecv hpost fun e => (distance_of_counted e).2.1
  · exact countP_at_le_one hquiet hrecv hpost fun e => (distance_of_counted e).2.2
  · refine (countP_le_toGo hquiet hrecv hpost).trans ?_
    obtain ⟨f, w, -, rfl⟩ := Process.step_stop he
    have hle := toGo_le w
    change 3+w.toGo ≤ 11
    omega

theorem quiet_of_run {pre post : List Event} {p : Process}
    (hr : run Process.step {} (pre ++ .main (.write .stopFlag 1) :: post) = some p)
    (hnone : commandsOf post = []) : p.Quiet := by
  obtain ⟨s, t, hpre, he, hpost⟩ := run_split _ _ _ _ _ _ hr
  refine run_invariant_along (P := fun _ e => commandsOf [e] = [])
    (fun p e q hp hrecv he => quiet_step hp hrecv ((Process.step_eq_some_iff p q e).mp he))
    (quiet_of_stop (sound_of_run hpre).fit he) (along_of_forall _ _ _ fun e hmem _ => ?_) hpost
  exact (commandsOf_eq_nil_iff post).mp hnone e hmem

/-- A step of the worker with which it sends and receives nothing. -/
def Event.isLocal : Event → Bool
  | .worker (.read _ _) | .worker (.write _ _) | .worker .increment | .worker .tau => true
  | _ => false

def Process.localStep (p : Process) (e : Event) : Option Process :=
  if e.isLocal then p.step e else none

theorem localStep_eq_some_iff (p q : Process) (e : Event) :
    p.localStep e = some q ↔ e.isLocal = true ∧ p.step e = some q := Option.ite_none_right_eq_some

/-- Local steps of the worker alone make `simulation_wrap` return. -/
def LeavesAlone (p : Process) : Prop :=
  CanReach Process.localStep (fun q => q.worker.hasLeft = true) p

theorem leavesAlone_of_step {p q : Process} {e : Event} (h : Process.Step p e q)
    (he : e.isLocal = true) (hq : LeavesAlone q) : LeavesAlone p :=
  canReach_of_step ((localStep_eq_some_iff p q e).mpr ⟨he, Process.step_of_Step h⟩) hq

section Alone

variable {f : Flags} {m : MainPc}

theorem leavesAlone_mark (newTask : Bytes) : LeavesAlone ⟨f, m, .returned newTask (-1)⟩ :=
  leavesAlone_of_step (.returned f m newTask (-1)) rfl (canReach_self rfl)

theorem leavesAlone_testStop (g : Frame) (h : f.stopFlag ≠ 0) :
    LeavesAlone ⟨f, m, .testStop g⟩ := by
  apply leavesAlone_of_step (.roundStop f m g) rfl
  rw [if_pos h]
  exact leavesAlone_mark g.newTask

theorem leavesAlone_writeStop (g : Frame) (h : g.result = -1) :
    LeavesAlone ⟨f, m, .writeStop g⟩ := by
  apply leavesAlone_of_step (.writeStop f m g) rfl
  rw [h]
  exact leavesAlone_mark g.newTask

/-- Past its stop test the worker makes one increment; it tests `stop_flag` again or has
reached its endpoint with the mark. -/
theorem leavesAlone_increment (g : Frame) (h : g.lastRound = false) (hx : f.stopFlag ≠ 0) :
    LeavesAlone ⟨f, m, .increment g⟩ := by
  apply leavesAlone_of_step (.increment f m g) rfl
  split_ifs with hend
  · apply leavesAlone_writeStop
    simpa [Frame.lastRound, hend] using h
  · exact leavesAlone_testStop _ hx

end Alone

theorem leavesAlone_of_quiet {p : Process} (hp : p.Quiet) (hc : p.worker.committed = false)
    (hspin : p.worker.spinning = false) : LeavesAlone p := by
  obtain ⟨f, m, w⟩ := p
  obtain ⟨-, hs, hz, hx⟩ := hp
  cases w with
  | left newTask => exact canReach_self rfl
  | testStop g => exact leavesAlone_testStop g (hx rfl)
  | increment g => exact leavesAlone_increment g hc (hx rfl)
  | testStart g =>
    apply leavesAlone_of_step (.roundStart f m g) rfl
    rw [if_neg (by rw [hs]; decide)]
    exact leavesAlone_increment g hc (hx rfl)
  | testPause g =>
    apply leavesAlone_of_step (.roundPause f m g) rfl
    rw [if_neg (by rw [hz]; decide)]
    exact leavesAlone_increment g hc (hx rfl)
  | writeStop g => exact leavesAlone_writeStop g (by simpa [WorkerPc.committed] using hc)
  | returned newTask result =>
    obtain rfl : result = -1 := by simpa [WorkerPc.committed] using hc
    exact leavesAlone_mark newTask
  | sendReady | recvTask | resetStop | sendResult => cases hc
  | waitStart => cases hspin

/-- The worker of a quiet client is bound for a further task, or spins for good. -/
def WorkerPc.held (w : WorkerPc) : Bool := w.committed || w.spinning

theorem held_step {p q : Process} {e : Event} (hp : p.Quiet) (hw : p.worker.held = true)
    (h : Process.Step p e q) : q.worker.held = true := by
  obtain ⟨-, hs, hz, -⟩ := hp
  cases h
  case waitStart f m g =>
    rw [if_pos hs]
    rfl
  case roundStart f m g =>
    rw [if_neg (by rw [hs]; decide)]
    exact hw
  case roundPause f m g =>
    rw [if_neg (by rw [hz]; decide)]
    exact hw
  case increment f m g =>
    have hlast : g.lastRound = true := by
      simpa [WorkerPc.held, WorkerPc.committed, WorkerPc.spinning] using hw
    rw [WorkerPc.held, committed_of_lastRound hlast, Bool.true_or]
  case returned f m newTask result =>
    have hresult : result ≠ -1 := by
      simpa [WorkerPc.held, WorkerPc.committed, WorkerPc.spinning] using hw
    rw [if_neg hresult]
    rfl
  case sendReady | recvTask | resetStop | sendResult => rfl
  case roundStop => cases hw
  all_goals exact hw

/-- Whether a stopped client can still leave when nothing more is received: exactly
when its worker neither is bound for a further task nor spins on `start_flag`. -/
theorem leaves_after_stop_iff {pre post : List Event} {p : Process}
    (hr : run Process.step {} (pre ++ .main (.write .stopFlag 1) :: post) = some p)
    (hnone : commandsOf post = []) :
    (∃ fs q, run Process.step p fs = some q ∧ commandsOf fs = [] ∧ q.worker.hasLeft = true) ↔
      p.worker.committed = false ∧ p.worker.spinning = false := by
  have hquiet := quiet_of_run hr hnone
  constructor
  · rintro ⟨fs, q, hfs, hrecv, hleft⟩
    by_contra hno
    have hheld : p.worker.held = true := by
      by_contra hheld
      exact hno (by simpa [WorkerPc.held] using hheld)
    have hend := run_invariant_along (I := fun p => p.Quiet ∧ p.worker.held = true)
      (P := fun _ e => commandsOf [e] = [])
      (fun p e q hp hrecv he => by
        have hstep := (Process.step_eq_some_iff p q e).mp he
        exact ⟨quiet_step hp.1 hrecv hstep, held_step hp.1 hp.2 hstep⟩)
      ⟨hquiet, hheld⟩
      (along_of_forall _ _ _ fun e he _ => (commandsOf_eq_nil_iff fs).mp hrecv e he) hfs
    obtain ⟨f, m, w⟩ := q
    cases w with
    | left newTask => exact Bool.false_ne_true hend.2
    | _ => cases hleft
  · rintro ⟨hc, hspin⟩
    obtain ⟨fs, q, hfs, hleft⟩ := leavesAlone_of_quiet hquiet hc hspin
    have hlocal := (run_forall_labels (I := fun _ => True) (P := fun _ _ => True)
      (Q := fun e => e.isLocal = true)
      (fun p e q _ _ he => ⟨trivial, ((localStep_eq_some_iff p q e).mp he).1⟩) trivial
      (along_of_forall _ _ _ fun _ _ _ => trivial) hfs).2
    refine ⟨fs, q, run_mono (fun p e q he => ((localStep_eq_some_iff p q e).mp he).2) hfs, ?_, hleft⟩
    apply (commandsOf_eq_nil_iff fs).mpr
    intro e he
    have := hlocal e he
    cases e with
    | worker a => rfl
    | main a => cases this

end SimulationCluster

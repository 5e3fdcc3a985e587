import SimulationCluster.SimulationRounds

namespace SimulationCluster
open ByteText Transition

/-- Inside a call of `simulation`. -/
def WorkerPc.inCall : WorkerPc → Bool
  | .waitStart _ | .testStop _ | .testStart _ | .testPause _ | .increment _ | .writeStop _ => true
  | _ => false

/-- A step of a call. -/
def WorkerPc.callStep (w : WorkerPc) (a : Act) : Option WorkerPc :=
  if w.inCall then w.next a else none

/-- What a step of a call can do. -/
inductive CallStep : WorkerPc → Act → WorkerPc → Prop
  | waitStart (f v) : CallStep (.waitStart f) (.read .startFlag v)
      (if v = 0 then .waitStart f else .testStop f)
  | testStop (f v) : CallStep (.testStop f) (.read .stopFlag v)
      (if v ≠ 0 then .returned f.newTask (-1) else .testStart f)
  | testStart (f v) : CallStep (.testStart f) (.read .startFlag v)
      (if v = 1 then .testPause f else .increment f)
  | testPause (f v) : CallStep (.testPause f) (.read .pauseFlag v)
      (if v = 1 then .testStop f else .increment f)
  | increment (f) : CallStep (.increment f) .increment
      (if hasReachedEndpoint f.bump.input f.bump.result then .writeStop f.bump
        else .testStop f.bump)
  | writeStop (f) : CallStep (.writeStop f) (.write .stopFlag 1) (.returned f.newTask f.result)

theorem callStep_cases {w w' : WorkerPc} {a : Act} (h : w.callStep a = some w') :
    CallStep w a w' := by
  obtain ⟨hin, h⟩ := Option.ite_none_right_eq_some.mp h
  unfold WorkerPc.next at h
  split at h
  all_goals
    simp only [Option.ite_none_right_eq_some, Option.some.injEq, reduceCtorEq] at h
  case h_1 | h_2 | h_3 | h_10 | h_11 => cases hin
  case h_9 =>
    obtain ⟨rfl, rfl⟩ := h
    exact .writeStop _
  all_goals
    subst h
    constructor

/-- The call `simulation(input)`, made for the task `newTask`, does `acts` and returns `result`. -/
def Returns (newTask : Bytes) (input : Int32) (acts : List Act) (result : Int32) : Prop :=
  run WorkerPc.callStep (.waitStart ⟨newTask, input, input⟩) acts = some (.returned newTask result)

/-- The last action is a stop test that fails the round. -/
def Interrupted (acts : List Act) : Prop :=
  ∃ v, v ≠ 0 ∧ acts.getLast? = some (.read .stopFlag v)

/-- The locals of a call. -/
def WorkerPc.locals : WorkerPc → Option Frame
  | .waitStart f | .testStop f | .testStart f | .testPause f | .increment f | .writeStop f => some f
  | _ => none

/-- The outcome of a call says how it went, for every environment in which it returns. -/
structure ExactCall (newTask : Bytes) (input : Int32) : Prop where
  mark : ∀ acts result, Returns newTask input acts result → (result = -1 ↔ Interrupted acts)
  finished : ∀ acts result, Returns newTask input acts result → ¬Interrupted acts →
    acts.count .increment = 10 ∧ acts.count (.write .stopFlag 1) = 1 ∧
      result.toInt = input.toInt+10
  bounded : ∀ acts w f, run WorkerPc.callStep (.waitStart ⟨newTask, input, input⟩) acts = some w →
    w.locals = some f → f.result.toInt ≤ input.toInt+10

/-- `simulation_wrap` takes its interrupt branch exactly on interrupted calls. -/
def ExactBranch (newTask : Bytes) : Prop :=
  ∀ acts result, Returns newTask (atoi newTask) acts result → ∀ w,
    run WorkerPc.next (.resetStop newTask) (.write .stopFlag 0 :: (acts ++ [.tau])) = some w →
      (w = .left newTask ↔ Interrupted acts)

/-- `acts` has `k` increments and `n` writes of `stop_flag`. -/
structure Made (acts : List Act) (k n : ℕ) : Prop where
  increments : acts.count .increment = k
  writes : acts.count (.write .stopFlag 1) = n

theorem made_snoc {acts : List Act} {k n : ℕ} (h : Made acts k n) (a : Act) :
    Made (acts ++ [a]) (k+[a].count .increment) (n+[a].count (.write .stopFlag 1)) := by
  constructor
  · rw [List.count_append, h.increments]
  · rw [List.count_append, h.writes]

/-- What `acts` have done at each point of a call. -/
def Progress (newTask : Bytes) (input : Int32) (acts : List Act) : WorkerPc → Prop
  | .waitStart f => f = .onInput newTask input 0 ∧ Made acts 0 0
  | .testStop f | .testStart f | .testPause f | .increment f =>
    ∃ k, k < 10 ∧ f = .onInput newTask input k ∧ Made acts k 0
  | .writeStop f => f = .onInput newTask input 10 ∧ Made acts 10 0
  | .returned text result => text = newTask ∧
    ((Interrupted acts ∧ result = -1) ∨
      (¬Interrupted acts ∧ result = input+10 ∧ Made acts 10 1))
  | _ => False

theorem interrupted_snoc_iff (acts : List Act) (a : Act) :
    Interrupted (acts ++ [a]) ↔ ∃ v, v ≠ 0 ∧ a = .read .stopFlag v := by
  simp [Interrupted]

theorem progress_step {newTask : Bytes} {input : Int32} {acts : List Act} {w w' : WorkerPc}
    {a : Act} (hw : Progress newTask input acts w) (h : CallStep w a w') :
    Progress newTask input (acts ++ [a]) w' := by
  cases h with
  | waitStart f v =>
    obtain ⟨rfl, hmade⟩ := hw
    split_ifs
    · exact ⟨rfl, made_snoc hmade _⟩
    · exact ⟨0, by decide, rfl, made_snoc hmade _⟩
  | testStop f v =>
    obtain ⟨k, hk, rfl, hmade⟩ := hw
    split_ifs with hv
    · exact ⟨rfl, .inl ⟨(interrupted_snoc_iff _ _).mpr ⟨v, hv, rfl⟩, rfl⟩⟩
    · exact ⟨k, hk, rfl, made_snoc hmade _⟩
  | testStart f v | testPause f v =>
    obtain ⟨k, hk, rfl, hmade⟩ := hw
    split_ifs <;> exact ⟨k, hk, rfl, made_snoc hmade _⟩
  | increment f =>
    obtain ⟨k, hk, rfl, hmade⟩ := hw
    rw [next_increment_onInput newTask input k hk]
    split_ifs with h9
    · subst h9
      exact ⟨rfl, made_snoc hmade _⟩
    · exact ⟨k+1, by omega, rfl, made_snoc hmade _⟩
  | writeStop f =>
    obtain ⟨rfl, hmade⟩ := hw
    refine ⟨rfl, .inr ⟨?_, rfl, made_snoc hmade _⟩⟩
    simp [interrupted_snoc_iff]

theorem progress_of_run {newTask : Bytes} {input : Int32} {acts : List Act} {w : WorkerPc}
    (h : run WorkerPc.callStep (.waitStart ⟨newTask, input, input⟩) acts = some w) :
    Progress newTask input acts w := by
  have hstart : Progress newTask input [] (.waitStart ⟨newTask, input, input⟩) :=
    ⟨(onInput_zero newTask input).symm, rfl, rfl⟩
  exact run_history (I := Progress newTask input)
    (fun _ _ _ _ hw he => progress_step hw (callStep_cases he)) hstart h

theorem toInt_onInput {input : Int32} (h : input.toInt+10 < 2^31) {k : ℕ} (hk : k ≤ 10) :
    (input+Int32.ofNat k).toInt = input.toInt+k := by
  have hle := input.le_toInt
  rw [Int32.toInt_add, Int32.toInt_ofNat_of_lt (by omega)]
  apply Int.bmod_eq_of_le <;> omega

/-- The result is the interrupt mark by chance for one input. -/
theorem add_ten_eq_mark_iff (input : Int32) : input+10 = -1 ↔ input = -11 := by
  constructor
  · intro h
    have hback : input = input+10-10 := by grind
    rw [hback, h]
    rfl
  · rintro rfl
    rfl

theorem returns_cases {newTask : Bytes} {input : Int32} {acts : List Act} {result : Int32}
    (h : Returns newTask input acts result) :
    (Interrupted acts ∧ result = -1) ∨
    (¬Interrupted acts ∧ result = input+10 ∧ Made acts 10 1) := (progress_of_run h).2

theorem bounded_of_run {newTask : Bytes} {input : Int32} (h : input.toInt+10 < 2^31)
    {acts : List Act} {w : WorkerPc} {f : Frame}
    (hr : run WorkerPc.callStep (.waitStart ⟨newTask, input, input⟩) acts = some w)
    (hf : w.locals = some f) : f.result.toInt ≤ input.toInt+10 := by
  have hbound (k : ℕ) (hk : k ≤ 10) (hf : f = .onInput newTask input k) :
      f.result.toInt ≤ input.toInt+10 := by
    have hint := toInt_onInput h hk
    subst hf
    change (input+Int32.ofNat k).toInt ≤ _
    omega
  have hp := progress_of_run hr
  cases w with
  | waitStart g => exact hbound 0 (by decide) (Option.some.inj hf ▸ hp.1)
  | testStop g | testStart g | testPause g | increment g =>
    obtain ⟨k, hk, hg, -⟩ := hp
    exact hbound k hk.le (Option.some.inj hf ▸ hg)
  | writeStop g => exact hbound 10 le_rfl (Option.some.inj hf ▸ hp.1)
  | _ => cases hf

/-- The actions of a round that neither stops nor pauses. -/
def progressRound : List Act :=
  [.read .stopFlag 0, .read .startFlag 1, .read .pauseFlag 0, .increment]

/-- A call that is started at once and never paused or stopped. -/
def tenRounds : List Act :=
  .read .startFlag 1 :: ((List.replicate 10 progressRound).flatten ++ [.write .stopFlag 1])

theorem not_interrupted_tenRounds : ¬Interrupted tenRounds := by
  rintro ⟨v, -, hlast⟩
  have hwrite : tenRounds.getLast? = some (.write .stopFlag 1) := rfl
  cases hwrite.symm.trans hlast

theorem run_progressRound (newTask : Bytes) (input : Int32) (k : ℕ) (hk : k < 10) :
    run WorkerPc.callStep (.testStop (.onInput newTask input k)) progressRound =
      some (if k = 9 then .writeStop (.onInput newTask input 10)
        else .testStop (.onInput newTask input (k+1))) := by
  rw [← next_increment_onInput newTask input k hk]
  rfl

theorem run_progressRounds (newTask : Bytes) (input : Int32) (k n : ℕ) (hk : k+n = 9) :
    run WorkerPc.callStep (.testStop (.onInput newTask input k))
      (List.replicate (n+1) progressRound).flatten =
      some (.writeStop (.onInput newTask input 10)) := by
  induction n generalizing k with
  | zero =>
    rw [List.replicate_one, List.flatten_singleton, run_progressRound newTask input k (by omega),
      if_pos (by omega)]
  | succ n ih =>
    rw [List.replicate_succ, List.flatten_cons]
    refine (run_append_iff _ _ _ _ _).mpr ⟨_, run_progressRound newTask input k (by omega), ?_⟩
    rw [if_neg (by omega)]
    exact ih (k+1) (by omega)

/-- On every input some environment makes the call return ten more. -/
theorem returns_tenRounds (newTask : Bytes) (input : Int32) :
    Returns newTask input tenRounds (input+10) := by
  have hrounds := run_progressRounds newTask input 0 9 rfl
  rw [onInput_zero] at hrounds
  refine (run_cons_iff _ _ _ _ _).mpr ⟨.testStop ⟨newTask, input, input⟩, rfl, ?_⟩
  exact (run_snoc_iff _ _ _ _ _).mpr ⟨_, hrounds, rfl⟩

/-- The mark tells interrupted calls from the others except on one input. -/
theorem mark_iff (newTask : Bytes) (input : Int32) :
    (∀ acts result, Returns newTask input acts result → (result = -1 ↔ Interrupted acts)) ↔
      input ≠ -11 := by
  constructor
  · rintro hmark rfl
    exact not_interrupted_tenRounds ((hmark _ _ (returns_tenRounds newTask (-11))).mp rfl)
  · intro hinput acts result h
    rcases returns_cases h with ⟨hint, rfl⟩ | ⟨hint, rfl, -⟩
    · exact ⟨fun _ => hint, fun _ => rfl⟩
    · have hne : input+10 ≠ -1 := fun heq => hinput ((add_ten_eq_mark_iff input).mp heq)
      exact ⟨fun heq => absurd heq hne, fun hi => absurd hi hint⟩

/-- `simulation_wrap` on a task: the reset, the call, and the test of its result. -/
theorem run_wrap {newTask : Bytes} {acts : List Act} {result : Int32}
    (h : Returns newTask (atoi newTask) acts result) :
    run WorkerPc.next (.resetStop newTask) (.write .stopFlag 0 :: (acts ++ [.tau])) =
      some (if result = -1 then .left newTask else .sendResult newTask result) := by
  have hcall : run WorkerPc.next (.waitStart (.enter newTask)) acts =
      some (.returned newTask result) :=
    run_mono (fun w a w' h => (Option.ite_none_right_eq_some.mp h).2) h
  refine (run_cons_iff _ _ _ _ _).mpr ⟨.waitStart (.enter newTask), rfl, ?_⟩
  exact (run_snoc_iff _ _ _ _ _).mpr ⟨_, hcall, rfl⟩

theorem exactBranch_iff (newTask : Bytes) : ExactBranch newTask ↔ atoi newTask ≠ -11 := by
  rw [← mark_iff newTask]
  have hbranch (result : Int32) :
      (if result = -1 then WorkerPc.left newTask else .sendResult newTask result) =
        .left newTask ↔ result = -1 := by
    split_ifs with hr <;> simp [hr]
  constructor
  · intro hexact acts result h
    rw [← hexact acts result h _ (run_wrap h), hbranch]
  · intro hmark acts result h w hw
    obtain rfl := Option.some.inj ((run_wrap h).symm.trans hw)
    rw [hbranch, hmark acts result h]

/-- The outcome of `simulation` is exact, and `simulation_wrap` takes it for what it is,
on every input but -11. -/
theorem simulation_exact_iff (newTask : Bytes) (input : Int32) (h : input.toInt+10 < 2^31) :
    (ExactCall newTask input ↔ input ≠ -11) ∧
    (atoi newTask = input → (ExactBranch newTask ↔ input ≠ -11)) := by
  refine ⟨⟨fun hexact => (mark_iff newTask input).mp hexact.mark, fun hinput => ?_⟩, ?_⟩
  · refine ⟨(mark_iff newTask input).mpr hinput, fun acts result hr hint => ?_,
      fun acts w f hr hf => bounded_of_run h hr hf⟩
    rcases returns_cases hr with ⟨hi, -⟩ | ⟨-, rfl, hmade⟩
    · exact absurd hi hint
    · exact ⟨hmade.increments, hmade.writes, toInt_onInput h (k := 10) le_rfl⟩
  · rintro rfl
    exact exactBranch_iff newTask

/-- The first task of the server. -/
theorem simulation_exact_first_task : ExactCall (ascii "0") 0 ∧ ExactBranch (ascii "0") :=
  ⟨(simulation_exact_iff (ascii "0") 0 (by decide)).1.mpr (by decide),
    ((simulation_exact_iff (ascii "0") 0 (by decide)).2 rfl).mpr (by decide)⟩

/-- The task "-11" runs to its end, and its result is taken for an interrupt. -/
theorem finished_taken_for_interrupt :
    Returns (ascii "-11") (atoi (ascii "-11")) tenRounds (-1) ∧ ¬Interrupted tenRounds ∧
    run WorkerPc.next (.resetStop (ascii "-11")) (.write .stopFlag 0 :: (tenRounds ++ [.tau])) =
      some (.left (ascii "-11")) :=
  have hreturns : Returns (ascii "-11") (atoi (ascii "-11")) tenRounds (-1) :=
    returns_tenRounds (ascii "-11") (atoi (ascii "-11"))
  ⟨hreturns, not_interrupted_tenRounds, run_wrap hreturns⟩

/-- The actions of the worker in a run of the client. -/
def workerActs (es : List Event) : List Act :=
  es.filterMap fun
    | .worker a => some a
    | .main _ => none

theorem run_workerActs {es : List Event} {p q : Process} (h : run Process.step p es = some q) :
    run WorkerPc.next p.worker (workerActs es) = some q.worker := by
  induction es generalizing p with
  | nil =>
    obtain rfl : p = q := Option.some.inj h
    rfl
  | cons e es ih =>
    obtain ⟨m, hm, hr⟩ := (run_cons_iff _ _ _ _ _).mp h
    have hrest := ih hr
    cases e with
    | main a =>
      simp only [Process.step, Option.bind_eq_bind, Option.bind_eq_some_iff,
        Option.ite_none_left_eq_some, Option.some.injEq] at hm
      obtain ⟨_, -, _, -, -, rfl⟩ := hm
      exact hrest
    | worker a =>
      simp only [Process.step, Option.bind_eq_bind, Option.bind_eq_some_iff,
        Option.some.injEq] at hm
      obtain ⟨_, -, w, hw, rfl⟩ := hm
      exact (run_cons_iff _ _ _ _ _).mpr ⟨w, hw, hrest⟩

theorem callStep_inCall {w w' : WorkerPc} {a : Act} (h : CallStep w a w') :
    w'.inCall = true ∨ ∃ text v, w' = .returned text v := by
  cases h
  case testStop f v =>
    split_ifs
    · exact .inr ⟨f.newTask, -1, rfl⟩
    · exact .inl rfl
  case writeStop f => exact .inr ⟨f.newTask, f.result, rfl⟩
  all_goals
    split_ifs <;> exact .inl rfl

theorem eq_tau_of_returned {text : Bytes} {v : Int32} {a : Act} {w : WorkerPc}
    (h : (WorkerPc.returned text v).next a = some w) : a = .tau := by
  cases a <;> first | rfl | cases h

/-- Until it is past its return, a worker that is in a call stays in it. -/
theorem run_callStep_of_next {w : WorkerPc} {acts : List Act} {newTask : Bytes} {result : Int32}
    (hin : w.inCall = true) (h : run WorkerPc.next w acts = some (.returned newTask result))
    (htau : .tau ∉ acts) : run WorkerPc.callStep w acts = some (.returned newTask result) := by
  induction acts generalizing w with
  | nil =>
    obtain rfl := Option.some.inj h
    cases hin
  | cons a acts ih =>
    obtain ⟨w', hw, hr⟩ := (run_cons_iff _ _ _ _ _).mp h
    have hcall : w.callStep a = some w' := by rw [WorkerPc.callStep, if_pos hin, hw]
    refine (run_cons_iff _ _ _ _ _).mpr ⟨w', hcall, ?_⟩
    have hacts : .tau ∉ acts := fun hmem => htau (List.mem_cons_of_mem a hmem)
    rcases callStep_inCall (callStep_cases hcall) with hin' | ⟨text, v, rfl⟩
    · exact ih hin' hr hacts
    · cases acts with
      | nil => exact hr
      | cons b acts =>
        obtain ⟨_, hb, -⟩ := (run_cons_iff _ _ _ _ _).mp hr
        exact absurd (eq_tau_of_returned hb ▸ List.mem_cons_self) hacts

/-- A call that the worker of a client makes and returns from is a call under the
environment that `main` and the worker itself are for it. -/
theorem returns_of_client {es : List Event} {p q : Process} {newTask : Bytes} {input result : Int32}
    (h : run Process.step p es = some q) (hp : p.worker = .waitStart ⟨newTask, input, input⟩)
    (hq : q.worker = .returned newTask result) (htau : .tau ∉ workerActs es) :
    Returns newTask input (workerActs es) result := by
  have hworker := run_workerActs h
  rw [hp, hq] at hworker
  exact run_callStep_of_next rfl hworker htau

end SimulationCluster

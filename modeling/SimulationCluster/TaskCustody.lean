import SimulationCluster.SimulationRounds
import SimulationCluster.TaskSystem

namespace SimulationCluster
open ByteText Transition

theorem Process.step_recv {p q : Process} {reply : Bytes}
    (h : p.step (.worker (.recv reply)) = some q) :
    p.worker = .recvTask ∧ q.worker = .resetStop reply := by
  cases (Process.step_eq_some_iff _ _ _).mp h
  exact ⟨rfl, rfl⟩

theorem Process.step_push {p q : Process} {line : Bytes}
    (h : p.step (.worker (.push line)) = some q) :
    ∃ newTask result, p.worker = .sendResult newTask result ∧
      line = resultInfo newTask result ∧ q.worker = .sendReady := by
  cases (Process.step_eq_some_iff _ _ _).mp h
  case sendResult f m newTask result => exact ⟨newTask, result, rfl, rfl, rfl⟩

/-- Every other step keeps the task in hand, or drops it. -/
theorem Process.step_inHand {p q : Process} {e : Event} (h : p.step e = some q)
    (hrecv : ∀ reply, e ≠ .worker (.recv reply)) (hpush : ∀ line, e ≠ .worker (.push line)) :
    (q.worker.inHand = p.worker.inHand ∧ q.worker.dropped = p.worker.dropped) ∨
    ∃ newTask, p.worker.inHand = some newTask ∧ p.worker.dropped = none ∧
      q.worker = .left newTask := by
  cases (Process.step_eq_some_iff _ _ _).mp h
  case recvTask f m newTask => exact absurd rfl (hrecv newTask)
  case sendResult f m newTask result => exact absurd rfl (hpush _)
  case returned f m newTask result =>
    dsimp only
    split_ifs
    · exact .inr ⟨newTask, rfl, rfl, rfl⟩
    · exact .inl ⟨rfl, rfl⟩
  case increment f m g =>
    dsimp only
    split_ifs <;> exact .inl ⟨rfl, rfl⟩
  case waitStart | roundStop | roundStart | roundPause =>
    dsimp only
    split_ifs <;> exact .inl ⟨rfl, rfl⟩
  all_goals exact .inl ⟨rfl, rfl⟩

/-- The task on which `simulation` has returned -1. -/
def WorkerPc.gaveUp : WorkerPc → Option Bytes
  | .returned newTask result => if result = -1 then some newTask else none
  | .left newTask => some newTask
  | _ => none

/-- The last write of a stop command. -/
def stopWrite : Event := .main (.write .stopFlag 1)

/-- What the events of a client say about its stops: inside `simulation` a set
`stop_flag` is `main`'s, and -1 is an interrupt unless it is the result. -/
structure StopsExplained (es : List Event) (p : Process) : Prop where
  counts : p.worker.Counts
  written : p.worker.inSimulation → p.flags.stopFlag ≠ 0 → stopWrite ∈ es
  gaveUp : ∀ newTask, p.worker.gaveUp = some newTask →
    stopWrite ∈ es ∨ (Frame.after newTask 10).result = -1

theorem stopsExplained_step {es : List Event} {p q : Process} {e : Event}
    (hp : StopsExplained es p) (h : Process.Step p e q) : StopsExplained (es ++ [e]) q := by
  have hkeep : stopWrite ∈ es → stopWrite ∈ es ++ [e] := List.mem_append_left [e]
  refine ⟨counts_step h hp.counts, ?_, ?_⟩
  · intro hw hs
    have hold := fun hw hs => hkeep (hp.written hw hs)
    cases h
    case stopStop f w => exact List.mem_append_right _ List.mem_cons_self
    case resetStop f m newTask => exact absurd rfl hs
    case waitStart | roundStop | roundStart | roundPause | increment => exact hold rfl hs
    case returned f m newTask result => split_ifs at hw <;> cases hw
    case sendReady | recvTask | sendResult | writeStop => cases hw
    all_goals exact hold hw hs
  · intro newTask hg
    have hold := fun hg => (hp.gaveUp newTask hg).imp_left hkeep
    cases h
    case roundStop f m g =>
      split_ifs at hg with hs
      · exact .inl (hkeep (hp.written rfl hs))
      · cases hg
    case writeStop f m g =>
      -- the loop ended by itself: -1 can only be the tenth increment
      obtain ⟨newTask', rfl⟩ := hp.counts
      simp only [WorkerPc.gaveUp, Option.ite_none_right_eq_some, Option.some.injEq] at hg
      obtain ⟨hres, rfl⟩ := hg
      exact .inr hres
    case returned f m newTask' result =>
      split_ifs at hg with hres
      · subst hres
        exact hold hg
      · cases hg
    case waitStart | roundStart | roundPause | increment => split_ifs at hg <;> cases hg
    case sendReady | recvTask | resetStop | sendResult => cases hg
    all_goals exact hold hg

theorem stopsExplained_init : StopsExplained [] {} where
  counts := trivial
  written hw := by cases hw
  gaveUp newTask hg := by cases hg

theorem stopsExplained_of_run {es : List Event} {p : Process}
    (h : run Process.step {} es = some p) : StopsExplained es p :=
  run_history
    (fun _ p e q hp he => stopsExplained_step hp ((Process.step_eq_some_iff p q e).mp he))
    stopsExplained_init h

theorem atoi_decimal (n : ℕ) : atoi (decimal n) = Int32.ofNat n := by
  rw [atoi_eq, scanInt_decimal, Option.getD_some, Int32.ofInt_eq_ofNat]

theorem result_decimal (n : ℕ) : (Frame.after (decimal n) 10).result = Int32.ofNat (n+10) := by
  simp only [Frame.onInput, atoi_decimal, Int32.ofNat_add]

theorem toStringInt_ofNat {m : ℕ} (h : m < 2^31) : toStringInt (Int32.ofNat m) = decimal m := by
  simp only [toStringInt, Int32.toInt_ofNat_of_lt h]
  rw [if_neg (by omega), Int.natAbs_natCast]

theorem resultInfo_decimal {n : ℕ} (h : n+10 < 2^31) :
    resultInfo (decimal n) (Frame.after (decimal n) 10).result = resultLine n := by
  rw [resultInfo, result_decimal, toStringInt_ofNat h, resultLine]

theorem result_ne_mark {n : ℕ} (h : n+10 < 2^31) : (Frame.after (decimal n) 10).result ≠ -1 := by
  intro hres
  rw [result_decimal] at hres
  have hint := Int32.toInt_ofNat_of_lt h
  rw [hres] at hint
  have : (-1 : Int32).toInt = -1 := by decide
  omega

/-- The id can be read off a result line. -/
theorem resultLine_injective : Function.Injective resultLine := by
  intro m n h
  have hid (n : ℕ) : ((resultLine n).drop 15).takeWhile isDigit = decimal n := by
    have hdrop : (resultLine n).drop 15 = decimal n ++ (ascii " is: " ++ decimal (n+10)) := by
      simp only [resultLine, List.append_assoc]
      rfl
    rw [hdrop]
    apply takeWhile_append_of_head (fun _ => isDigit_of_mem_decimal)
    intro b hb
    obtain rfl : 32 = b := Option.some.inj hb
    rfl
  apply decimal_injective
  rw [← hid m, h, hid n]

end SimulationCluster

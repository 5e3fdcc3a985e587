import SimulationCluster.ServerClock
import Mathlib.Data.Multiset.AddSub

namespace SimulationCluster
open ByteText Transition

structure HeartbeatSystem where
  inFlight : Multiset Bytes := 0
  receiver : Receiver

inductive HeartbeatEvent (N : ℕ)
  | beat (i : Fin N)                  -- a round of `send_heartbeat` in client `i`
  | receive (h : Heard)

def HeartbeatSystem.start (clock : ℕ → FileTime) : HeartbeatSystem where
  receiver := .start clock

section Model

variable {N : ℕ} (overflow : ℤ → Int32) (argument : Fin N → Bytes)

/-- What client `i` sends. -/
def beatOf (i : Fin N) : Bytes := heartbeatSignal (clientId overflow (argument i))

def HeartbeatSystem.step (s : HeartbeatSystem) : HeartbeatEvent N → Option HeartbeatSystem
  | .beat i => some { s with inFlight := beatOf overflow argument i ::ₘ s.inFlight }
  | .receive h =>
    if h.rawSignal ∈ s.inFlight then do
      let receiver ← s.receiver.step h
      some { inFlight := s.inFlight.erase h.rawSignal, receiver }
    else none

/-- What one step of the system can do. -/
inductive HeartbeatSystem.Step : HeartbeatSystem → HeartbeatEvent N → HeartbeatSystem → Prop
  | beat (s : HeartbeatSystem) (i) :
      Step s (.beat i) { s with inFlight := beatOf overflow argument i ::ₘ s.inFlight }
  | receive (s : HeartbeatSystem) (h receiver) (hmem : h.rawSignal ∈ s.inFlight)
      (hr : s.receiver.step h = some receiver) :
      Step s (.receive h) { inFlight := s.inFlight.erase h.rawSignal, receiver }

theorem HeartbeatSystem.step_cases {s t : HeartbeatSystem} {e : HeartbeatEvent N}
    (h : s.step overflow argument e = some t) : HeartbeatSystem.Step overflow argument s e t := by
  cases e with
  | beat i =>
    obtain rfl := Option.some.inj h
    exact .beat s i
  | receive h' =>
    obtain ⟨hmem, ht⟩ := Option.ite_none_right_eq_some.mp h
    obtain ⟨receiver, hr, ht⟩ := Option.bind_eq_some_iff.mp ht
    obtain rfl := Option.some.inj ht
    exact .receive s h' receiver hmem hr

end Model

/-- The messages that the receiver has handled. -/
def heardOf {N : ℕ} (es : List (HeartbeatEvent N)) : List Heard :=
  es.filterMap fun
    | .receive h => some h
    | .beat _ => none

variable {N : ℕ} {overflow : ℤ → Int32} {argument : Fin N → Bytes} {clock : ℕ → FileTime}

/-- The ids that fit `int` are those that `atoi` did not make negative. -/
theorem clientId_lt_iff (overflow : ℤ → Int32) (a : Bytes) :
    (clientId overflow a).toNat < 2^31 ↔ 0 ≤ (atoiWith overflow a).toInt := by
  have hint : (atoiWith overflow a).toInt = (atoiWith overflow a).toBitVec.toInt := rfl
  have hnat : (clientId overflow a).toNat = (atoiWith overflow a).toBitVec.toNat := rfl
  have hlt := (atoiWith overflow a).toBitVec.isLt
  rw [hint, hnat, BitVec.toInt_eq_toNat_cond]
  split_ifs <;> omega

/-- A heartbeat whose id does not fit `int` is an exception. -/
theorem decodeSignal_out_of_range {id : UInt32} (h : 2^31 ≤ id.toNat) :
    decodeSignal (heartbeatSignal id) = .error .outOfRange := by
  have hname : underscore ∉ ascii "HEARTBEAT" := by decide
  have hdigits : underscore ∉ decimal id.toNat := by
    intro hmem
    have hdigit := isDigit_of_mem_decimal hmem
    exact absurd hdigit (by decide)
  have hsplit : splitString (heartbeatSignal id) signalDelim =
      [ascii "HEARTBEAT", decimal id.toNat] := by
    have hsignal : heartbeatSignal id = ascii "HEARTBEAT" ++ underscore :: decimal id.toNat := rfl
    rw [hsignal, splitString_signalDelim, tokens_append_cons hname, if_neg (decimal_ne_nil _),
      tokens_of_not_mem hdigits]
  have hstoi : stoi (decimal id.toNat) = .error .outOfRange := by
    rw [stoi, scanInt_decimal]
    exact if_neg (by omega)
  simp [decodeSignal, hsplit, hstoi, bind, Except.bind]

/-- The heartbeat that a message is, if it is one. -/
def Heard.beat (h : Heard) : Beat where
  id := match decodeSignal h.rawSignal with
    | .ok (id, _) => id.toUInt32
    | .error _ => 0
  thisMoment := sClock h.fileTime
  heartbeat := h.heartbeat
  expiry := h.expiry

theorem beat_id {h : Heard} {id : UInt32} (hsignal : h.rawSignal = heartbeatSignal id)
    (hid : id.toNat < 2^31) : h.beat.id = id := by
  obtain ⟨v, hdecode, hv⟩ := (heartbeat_decoded_iff id).mpr hid
  rw [Heard.beat, hsignal, hdecode]
  exact hv

theorem beat_round {h : Heard} {id : UInt32} (hsignal : h.rawSignal = heartbeatSignal id)
    (hid : id.toNat < 2^31) : h.beat.round = h.round := by
  rw [Beat.round, beat_id hsignal hid, ← hsignal]
  rfl

/-- The messages in flight are heartbeats of clients, and so are those handled. The
heartbeats of a client that has sent any are in flight or handled. -/
structure FromClients (overflow : ℤ → Int32) (argument : Fin N → Bytes)
    (es : List (HeartbeatEvent N)) (s : HeartbeatSystem) : Prop where
  inFlight : ∀ m ∈ s.inFlight, ∃ i, m = beatOf overflow argument i
  heard : ∀ h ∈ heardOf es, ∃ i, h.rawSignal = beatOf overflow argument i
  sent : ∀ i, .beat i ∈ es →
    beatOf overflow argument i ∈ s.inFlight ∨
      ∃ h ∈ heardOf es, h.rawSignal = beatOf overflow argument i

theorem fromClients_step {es : List (HeartbeatEvent N)} {s t : HeartbeatSystem}
    {e : HeartbeatEvent N} (hs : FromClients overflow argument es s)
    (he : s.step overflow argument e = some t) :
    FromClients overflow argument (es ++ [e]) t := by
  have happend : heardOf (es ++ [e]) = heardOf es ++ heardOf [e] := List.filterMap_append
  cases HeartbeatSystem.step_cases _ _ he with
  | beat i =>
    have hheard : heardOf (es ++ [.beat i]) = heardOf es := happend.trans (List.append_nil _)
    refine ⟨?_, by rw [hheard]; exact hs.heard, ?_⟩
    · intro m hm
      rcases Multiset.mem_cons.mp hm with rfl | hm
      · exact ⟨i, rfl⟩
      · exact hs.inFlight m hm
    · intro j hj
      rw [hheard]
      rcases List.mem_append.mp hj with hj | hj
      · exact (hs.sent j hj).imp_left (Multiset.mem_cons_of_mem ·)
      · obtain rfl : j = i := by simpa using hj
        exact .inl (Multiset.mem_cons_self _ _)
  | receive h receiver hmem hr =>
    have hheard : heardOf (es ++ [.receive h]) = heardOf es ++ [h] := happend
    constructor
    · intro m hm
      exact hs.inFlight m (Multiset.mem_of_mem_erase hm)
    · intro h' hh
      rw [hheard] at hh
      rcases List.mem_append.mp hh with hh | hh
      · exact hs.heard h' hh
      · obtain rfl : h' = h := List.mem_singleton.mp hh
        exact hs.inFlight _ hmem
    · intro j hj
      have hj : .beat j ∈ es := by simpa using hj
      rw [hheard]
      rcases hs.sent j hj with hflight | ⟨h', hh', hsignal⟩
      · by_cases hsame : beatOf overflow argument j = h.rawSignal
        · exact .inr ⟨h, by simp, hsame.symm⟩
        · exact .inl ((Multiset.mem_erase_of_ne hsame).mpr hflight)
      · exact .inr ⟨h', List.mem_append_left _ hh', hsignal⟩

theorem fromClients_of_run {es : List (HeartbeatEvent N)} {s : HeartbeatSystem}
    (h : run (HeartbeatSystem.step overflow argument) (.start clock) es = some s) :
    FromClients overflow argument es s :=
  run_history (fun _ _ _ _ => fromClients_step)
    ⟨fun _ hm => absurd hm (Multiset.notMem_zero _), by simp [heardOf], by simp⟩ h

/-- A run of the system is a run of the receiver on what it handles. -/
theorem run_heardOf {es : List (HeartbeatEvent N)} {s t : HeartbeatSystem}
    (h : run (HeartbeatSystem.step overflow argument) s es = some t) :
    run Receiver.step s.receiver (heardOf es) = some t.receiver := by
  refine run_filterMap (HeartbeatSystem.step overflow argument) HeartbeatSystem.receiver _ ?_ ?_ h
  · intro s e t b ht hb
    cases HeartbeatSystem.step_cases _ _ ht with
    | beat i => cases hb
    | receive h receiver hmem hr =>
      obtain rfl := Option.some.inj hb
      exact hr
  · intro s e t ht hb
    cases HeartbeatSystem.step_cases _ _ ht with
    | beat i => rfl
    | receive => cases hb

/-- What the receiver does with a heartbeat: it takes the id if it fits `int`, and ends
otherwise. -/
theorem receiver_step_heartbeat {s t : Receiver} {h : Heard} {id : UInt32}
    (hsignal : h.rawSignal = heartbeatSignal id) (he : s.step h = some t) :
    (id.toNat < 2^31 → ∃ clients, t.table = .ok clients) ∧
    (2^31 ≤ id.toNat → t.table = .error .outOfRange) := by
  obtain ⟨clients, -, -, rfl⟩ := Receiver.step_cases he
  constructor
  · intro hid
    have htaken := receiveStep_beat clients (b := h.beat) (by rwa [beat_id hsignal hid])
    rw [beat_round hsignal hid, receiveStep_eq_some_iff] at htaken
    exact ⟨_, htaken⟩
  · intro hid
    have hdecode := decodeSignal_out_of_range hid
    rw [← hsignal] at hdecode
    simp [receiveHeartbeat, Heard.round, hdecode, bind, Except.bind]

/-- Every message that is handled is a heartbeat, so the receiver ends in one way only. -/
theorem table_of_run {es : List (HeartbeatEvent N)} {s : HeartbeatSystem}
    (h : run (HeartbeatSystem.step overflow argument) (.start clock) es = some s) :
    (∃ clients, s.receiver.table = .ok clients) ∨ s.receiver.table = .error .outOfRange := by
  refine run_invariant_along
    (I := fun s : Receiver => (∃ clients, s.table = .ok clients) ∨ s.table = .error .outOfRange)
    (P := fun _ h => ∃ i, h.rawSignal = beatOf overflow argument i) ?_ (.inl ⟨_, rfl⟩)
    (along_of_forall _ _ _ fun h' hh _ => (fromClients_of_run h).heard h' hh) (run_heardOf h)
  intro s h t _ hsignal he
  obtain ⟨i, hsignal⟩ := hsignal
  have hstep := receiver_step_heartbeat hsignal he
  rcases Nat.lt_or_ge (clientId overflow (argument i)).toNat (2^31) with hid | hid
  · exact .inl (hstep.1 hid)
  · exact .inr (hstep.2 hid)

theorem ok_of_args {es : List (HeartbeatEvent N)} {s : HeartbeatSystem}
    (hargs : ∀ i, 0 ≤ (atoiWith overflow (argument i)).toInt)
    (h : run (HeartbeatSystem.step overflow argument) (.start clock) es = some s) :
    ∃ clients, s.receiver.table = .ok clients := by
  refine run_invariant_along (I := fun s : Receiver => ∃ clients, s.table = .ok clients)
    (P := fun _ h => ∃ i, h.rawSignal = beatOf overflow argument i) ?_ ⟨_, rfl⟩
    (along_of_forall _ _ _ fun h' hh _ => (fromClients_of_run h).heard h' hh) (run_heardOf h)
  intro s h t _ hsignal he
  obtain ⟨i, hsignal⟩ := hsignal
  exact (receiver_step_heartbeat hsignal he).1 ((clientId_lt_iff _ _).mpr (hargs i))

theorem now_of_run {es : List (HeartbeatEvent N)} {s : HeartbeatSystem}
    (h : run (HeartbeatSystem.step overflow argument) (.start clock) es = some s) :
    ∃ fileTime : FileTime, s.receiver.now = fileTime.units := by
  refine run_invariant (I := fun s : Receiver => ∃ fileTime : FileTime, s.now = fileTime.units)
    ?_ ⟨clock nodeNum, rfl⟩ (run_heardOf h)
  intro s h t _ he
  obtain ⟨clients, -, -, rfl⟩ := Receiver.step_cases he
  exact ⟨h.fileTime, rfl⟩

theorem exists_end {s : HeartbeatSystem} {clients : ClientMap} {i : Fin N}
    (hnow : ∃ fileTime : FileTime, s.receiver.now = fileTime.units)
    (hs : s.receiver.table = .ok clients) (hi : (atoiWith overflow (argument i)).toInt < 0) :
    ∃ heard t, run (HeartbeatSystem.step overflow argument) s [.beat i, .receive heard] = some t ∧
      t.receiver.table = .error .outOfRange := by
  obtain ⟨fileTime, hnow⟩ := hnow
  have hid : 2^31 ≤ (clientId overflow (argument i)).toNat := by
    by_contra hlt
    exact absurd ((clientId_lt_iff _ _).mp (Nat.lt_of_not_le hlt)) (by omega)
  let heard : Heard := ⟨beatOf overflow argument i, fileTime, 0, 0⟩
  have hstep : s.receiver.step heard =
      some ⟨fileTime.units, receiveHeartbeat clients heard.round⟩ := by
    rw [Receiver.step, hs]
    exact if_pos hnow.le
  have hreceive : HeartbeatSystem.step overflow argument
      { s with inFlight := beatOf overflow argument i ::ₘ s.inFlight } (.receive heard) =
        some ⟨(beatOf overflow argument i ::ₘ s.inFlight).erase (beatOf overflow argument i),
          ⟨fileTime.units, receiveHeartbeat clients heard.round⟩⟩ := by
    rw [HeartbeatSystem.step, if_pos (Multiset.mem_cons_self _ _)]
    exact Option.bind_eq_some_iff.mpr ⟨_, hstep, rfl⟩
  refine ⟨heard, _, (run_cons_iff _ _ _ _ _).mpr ⟨_, rfl,
    (run_cons_iff _ _ _ _ _).mpr ⟨_, hreceive, rfl⟩⟩, ?_⟩
  exact (receiver_step_heartbeat rfl hstep).2 hid

/-- While the receiver runs, a client whose argument `atoi` made negative can end it with
its next heartbeat; without such a client nothing ends it. It ends by `std::out_of_range`
only. -/
theorem receiver_ends_iff (overflow : ℤ → Int32) (argument : Fin N → Bytes) (clock : ℕ → FileTime)
    (es : List (HeartbeatEvent N)) (s : HeartbeatSystem) (clients : ClientMap)
    (h : run (HeartbeatSystem.step overflow argument) (.start clock) es = some s)
    (hs : s.receiver.table = .ok clients) (f : Failure) :
    CanReach (HeartbeatSystem.step overflow argument) (fun t => t.receiver.table = .error f) s ↔
      f = .outOfRange ∧ ∃ i, (atoiWith overflow (argument i)).toInt < 0 := by
  constructor
  · rintro ⟨fs, t, ht, hf⟩
    have hrun := (run_append_iff _ _ _ _ _).mpr ⟨s, h, ht⟩
    constructor
    · rcases table_of_run hrun with ⟨clients', hok⟩ | hend
      · cases hf.symm.trans hok
      · exact Except.error.inj (hf.symm.trans hend)
    · by_contra hargs
      obtain ⟨clients', hok⟩ := ok_of_args (by simpa using hargs) hrun
      cases hf.symm.trans hok
  · rintro ⟨rfl, i, hi⟩
    obtain ⟨heard, t, ht, hend⟩ := exists_end (now_of_run h) hs hi
    exact ⟨_, t, ht, hend⟩

/-- The second client was started with a negative number. -/
def twoArguments : Fin 2 → Bytes
  | 0 => ascii "3"
  | 1 => ascii "-1"

def firstReport (i : Fin N) : List (HeartbeatEvent N) :=
  [.beat i, .receive ⟨ascii "HEARTBEAT_3", ⟨0, 30000⟩, 0, 0⟩]

theorem receiver_ends_two : ∃ s clients,
    run (HeartbeatSystem.step Int32.ofInt twoArguments) (.start fun _ => ⟨0, 10000⟩)
      (firstReport 0) = some s ∧
    s.receiver.table = .ok clients ∧
    CanReach (HeartbeatSystem.step Int32.ofInt twoArguments)
      (fun t => t.receiver.table = .error .outOfRange) s := by
  refine ⟨_, _, rfl, rfl, ?_⟩
  exact (receiver_ends_iff Int32.ofInt twoArguments (fun _ => ⟨0, 10000⟩) (firstReport 0) _ _
    rfl rfl _).mpr ⟨rfl, 1, by decide⟩

section Table

variable {es : List (HeartbeatEvent N)} {s : HeartbeatSystem}

end Table

end SimulationCluster

import SimulationCluster.HeartbeatTable

namespace SimulationCluster
open ByteText Transition

/-- The system time in units of 100 nanoseconds. -/
structure FileTime where
  dwHighDateTime : UInt32
  dwLowDateTime : UInt32
  deriving DecidableEq

/-- `s_clock`, in milliseconds. -/
def sClock (fileTime : FileTime) : Int64 :=
  let largeInt := fileTime.dwHighDateTime.toUInt64
  let largeInt := largeInt <<< 32
  let largeInt := largeInt ||| fileTime.dwLowDateTime.toUInt64
  let largeInt := largeInt / 10000
  largeInt.toInt64

def FileTime.units (t : FileTime) : ℕ := t.dwHighDateTime.toNat*2^32+t.dwLowDateTime.toNat

theorem units_lt (t : FileTime) : t.units < 2^64 := by
  have hhigh := t.dwHighDateTime.toNat_lt
  have hlow := t.dwLowDateTime.toNat_lt
  unfold FileTime.units
  omega

/-- The two words do not overlap, so the or is a sum. -/
theorem toNat_words (t : FileTime) :
    (t.dwHighDateTime.toUInt64 <<< 32 ||| t.dwLowDateTime.toUInt64).toNat = t.units := by
  have hlt := units_lt t
  have hlow := t.dwLowDateTime.toNat_lt
  have hhigh : t.dwHighDateTime.toNat*2^32 < 2^64 :=
    Nat.lt_of_le_of_lt (Nat.le_add_right _ _) hlt
  have hshift : t.dwHighDateTime.toNat <<< 32 = t.dwHighDateTime.toNat*2^32 :=
    Nat.shiftLeft_eq _ _
  have hbits : (32 : UInt64).toNat % 64 = 32 := by decide
  rw [UInt64.toNat_or, UInt64.toNat_shiftLeft, UInt32.toNat_toUInt64, UInt32.toNat_toUInt64, hbits,
    hshift, Nat.mod_eq_of_lt hhigh, ← hshift, ← Nat.shiftLeft_add_eq_or_of_lt hlow, hshift,
    FileTime.units]

theorem toInt_sClock (t : FileTime) : (sClock t).toInt = (t.units/10000 : ℕ) := by
  have hlt := units_lt t
  have hnat : ((t.dwHighDateTime.toUInt64 <<< 32 ||| t.dwLowDateTime.toUInt64) / 10000).toNat =
      t.units/10000 := by
    have hten : (10000 : UInt64).toNat = 10000 := by decide
    rw [UInt64.toNat_div, toNat_words, hten]
  change (UInt64.toInt64 _).toInt = _
  rw [← UInt64.ofNat_toNat (x := (t.dwHighDateTime.toUInt64 <<< 32 ||| _) / 10000), hnat,
    UInt64.toInt64_ofNat', Int64.toInt_ofNat_of_lt (by omega)]

/-- The timeout can be added to every reading. -/
theorem inTime_sClock (t : FileTime) : InTime (sClock t) := by
  have hlt := units_lt t
  rw [InTime, toInt_sClock]
  omega

/-- What a round of the receiver takes from outside. -/
structure Heard where
  rawSignal : Bytes
  fileTime : FileTime
  heartbeat : Int64
  expiry : Int64
  deriving DecidableEq

def Heard.round (h : Heard) : Round := ⟨h.rawSignal, sClock h.fileTime, h.heartbeat, h.expiry⟩

/-- `receive_heartbeat` between two rounds. A failed round ends the program. -/
structure Receiver where
  now : ℕ                             -- the system time when it was read last
  table : Except Failure ClientMap

def Receiver.start (clock : ℕ → FileTime) : Receiver where
  now := (clock nodeNum).units
  table := .ok (startClients fun i => sClock (clock i))

def Receiver.step (s : Receiver) (h : Heard) : Option Receiver :=
  match s.table with
  | .ok clients =>
    if s.now ≤ h.fileTime.units then
      some ⟨h.fileTime.units, receiveHeartbeat clients h.round⟩
    else none
  | .error _ => none

theorem Receiver.step_cases {s t : Receiver} {h : Heard} (he : s.step h = some t) :
    ∃ clients, s.table = .ok clients ∧ s.now ≤ h.fileTime.units ∧
      t = ⟨h.fileTime.units, receiveHeartbeat clients h.round⟩ := by
  unfold Receiver.step at he
  split at he
  · rename_i clients htable
    obtain ⟨hnow, ht⟩ := Option.ite_none_right_eq_some.mp he
    exact ⟨clients, htable, hnow, (Option.some.inj ht).symm⟩
  · cases he

/-- The times of an entry at the system time `now`. -/
structure Client.Timed (client : Client) (now : ℕ) : Prop where
  expiry : client.expiry.toInt = client.heartbeat.toInt+300000
  heartbeat : 0 ≤ client.heartbeat.toInt ∧ client.heartbeat.toInt ≤ (now/10000 : ℕ)
  status : client.nodeStatus = .kFree

def Receiver.Timed (s : Receiver) : Prop :=
  ∀ clients, s.table = .ok clients → ∀ k client, clients k = some client → client.Timed s.now

theorem timed_mono {client : Client} {m n : ℕ} (h : client.Timed m) (hmn : m ≤ n) :
    client.Timed n := by
  have hdiv : m/10000 ≤ n/10000 := Nat.div_le_div_right hmn
  refine ⟨h.expiry, ⟨h.heartbeat.1, h.heartbeat.2.trans ?_⟩, h.status⟩
  exact_mod_cast hdiv

theorem timed_start {clock : ℕ → FileTime}
    (hclock : ∀ i j, i ≤ j → (clock i).units ≤ (clock j).units) :
    (Receiver.start clock).Timed := by
  intro clients htable k client hclient
  obtain rfl := Except.ok.inj htable
  rw [startClients_apply] at hclient
  split_ifs at hclient with hk
  obtain rfl := Option.some.inj hclient
  refine ⟨toInt_add_timeout (inTime_sClock _), ?_, rfl⟩
  change 0 ≤ (sClock (clock k.toNat)).toInt ∧ (sClock (clock k.toNat)).toInt ≤ _
  rw [toInt_sClock]
  refine ⟨Int.natCast_nonneg _, ?_⟩
  have := Nat.div_le_div_right (c := 10000) (hclock k.toNat nodeNum hk.2)
  exact_mod_cast this

theorem timed_refresh (client : Client) (t : FileTime) (h : client.nodeStatus = .kFree) :
    (updateClientHeartbeat client (sClock t)).Timed t.units := by
  refine ⟨toInt_add_timeout (inTime_sClock t), ?_, h⟩
  rw [updateClientHeartbeat_heartbeat, toInt_sClock]
  exact ⟨Int.natCast_nonneg _, le_rfl⟩

theorem timed_step {s t : Receiver} {h : Heard} (hs : s.Timed) (he : s.step h = some t) :
    t.Timed := by
  obtain ⟨clients, htable, hnow, rfl⟩ := Receiver.step_cases he
  intro clients' hok k client hclient
  have hold (k : UInt32) (client : Client) (hclient : clients k = some client) :
      client.Timed h.fileTime.units := timed_mono (hs clients htable k client hclient) hnow
  rcases (receiveHeartbeat_eq_ok_iff _ _ _).mp hok with ⟨_, _, -, -, rfl⟩ | ⟨j, -, rfl⟩
  · exact hold k client hclient
  · rcases refresh_cases hclient with ⟨rfl, rfl⟩ | ⟨-, hsame⟩
    · apply timed_refresh
      cases hj : clients k with
      | none => rfl
      | some old => exact (hold k old hj).status
    · exact hold k client hsame

theorem timed_of_run {clock : ℕ → FileTime} {hs : List Heard} {s : Receiver}
    (hclock : ∀ i j, i ≤ j → (clock i).units ≤ (clock j).units)
    (h : run Receiver.step (.start clock) hs = some s) : s.Timed :=
  run_invariant (fun _ _ _ => timed_step) (timed_start hclock) h

/-- No entry of `old` is lost or set back. -/
def Receiver.Keeps (old : ClientMap) (s : Receiver) : Prop :=
  ∀ clients, s.table = .ok clients → ∀ k before, old k = some before →
    ∃ client, clients k = some client ∧ before.heartbeat.toInt ≤ client.heartbeat.toInt ∧
      before.expiry.toInt ≤ client.expiry.toInt ∧ client.nodeId = before.nodeId

theorem keeps_step {old : ClientMap} {s t : Receiver} {h : Heard} (htimed : s.Timed)
    (hs : s.Keeps old) (he : s.step h = some t) : t.Keeps old := by
  have htimed' := timed_step htimed he
  obtain ⟨clients, htable, hnow, rfl⟩ := Receiver.step_cases he
  intro clients' hok k before hbefore
  obtain ⟨client, hclient, hheart, hexpiry, hid⟩ := hs clients htable k before hbefore
  rcases (receiveHeartbeat_eq_ok_iff _ _ _).mp hok with ⟨_, _, -, -, rfl⟩ | ⟨j, -, rfl⟩
  · exact ⟨client, hclient, hheart, hexpiry, hid⟩
  · by_cases hk : k = j
    · subst hk
      have hnew := refresh_self clients k h.round
      rw [hclient, Option.getD_some] at hnew
      refine ⟨_, hnew, ?_, ?_, hid⟩
      all_goals
        have hold := htimed clients htable k client hclient
        have hle : (s.now/10000 : ℕ) ≤ (sClock h.fileTime).toInt := by
          rw [toInt_sClock]
          exact_mod_cast Nat.div_le_div_right hnow
        have hupper := hold.heartbeat.2
      · rw [updateClientHeartbeat_heartbeat]
        exact hheart.trans (hupper.trans hle)
      · have hsum := (htimed' _ hok k _ hnew).expiry
        rw [updateClientHeartbeat_heartbeat] at hsum
        have hround : h.round.thisMoment = sClock h.fileTime := rfl
        have hprev := hold.expiry
        rw [hsum, hround]
        omega
    · exact ⟨client, (refresh_of_ne _ _ hk).trans hclient, hheart, hexpiry, hid⟩

theorem ok_of_run {s t : Receiver} {hs : List Heard} {clients : ClientMap}
    (h : run Receiver.step s hs = some t) (ht : t.table = .ok clients) :
    ∃ old, s.table = .ok old := by
  cases hs with
  | nil =>
    obtain rfl := Option.some.inj h
    exact ⟨clients, ht⟩
  | cons e hs =>
    obtain ⟨m, hm, -⟩ := (run_cons_iff _ _ _ _ _).mp h
    obtain ⟨old, hold, -⟩ := Receiver.step_cases hm
    exact ⟨old, hold⟩

/-- Whatever messages arrive: as long as the receiver runs, every expiry in the table is
five minutes after its heartbeat, without an overflow, no heartbeat is later than the
clock, no client is marked as broken down, and no entry is ever lost or set back. -/
theorem table_times (clock : ℕ → FileTime) (pre post : List Heard) (s : Receiver)
    (clients : ClientMap) (hclock : ∀ i j, i ≤ j → (clock i).units ≤ (clock j).units)
    (h : run Receiver.step (.start clock) (pre ++ post) = some s) (hs : s.table = .ok clients) :
    (∀ k client, clients k = some client →
      client.expiry.toInt = client.heartbeat.toInt+300000 ∧ 0 ≤ client.heartbeat.toInt ∧
        client.heartbeat.toInt ≤ (s.now/10000 : ℕ) ∧ client.nodeStatus = .kFree) ∧
    ∃ t old, run Receiver.step (.start clock) pre = some t ∧ t.table = .ok old ∧
      ∀ k before, old k = some before → ∃ client, clients k = some client ∧
        before.heartbeat.toInt ≤ client.heartbeat.toInt ∧
        before.expiry.toInt ≤ client.expiry.toInt ∧ client.nodeId = before.nodeId := by
  obtain ⟨t, hpre, hpost⟩ := (run_append_iff _ _ _ _ _).mp h
  obtain ⟨old, hold⟩ := ok_of_run hpost hs
  constructor
  · intro k client hclient
    have htimed := timed_of_run hclock h clients hs k client hclient
    exact ⟨htimed.expiry, htimed.heartbeat.1, htimed.heartbeat.2, htimed.status⟩
  · refine ⟨t, old, hpre, hold, ?_⟩
    have hkeeps := run_invariant (I := fun s => s.Timed ∧ s.Keeps old)
      (fun s e t hs he => ⟨timed_step hs.1 he, keeps_step hs.1 hs.2 he⟩)
      ⟨timed_of_run hclock hpre, fun clients' h' k before hb => ?_⟩ hpost
    · exact hkeeps.2 clients hs
    · obtain rfl := Except.ok.inj (hold.symm.trans h')
      exact ⟨before, hb, le_rfl, le_rfl, rfl⟩

/-- Client 3 reports, and then another signal arrives. -/
def heardThree : List Heard := [⟨ascii "HEARTBEAT_3", ⟨0, 30000⟩, 0, 0⟩]

theorem table_times_known : ∃ s clients,
    run Receiver.step (.start fun _ => ⟨0, 10000⟩)
      (heardThree ++ [⟨ascii "HELLO_9", ⟨1, 0⟩, 0, 0⟩]) = some s ∧ s.table = .ok clients ∧
    ∀ k client, clients k = some client → client.expiry.toInt = client.heartbeat.toInt+300000 :=
  ⟨_, _, rfl, rfl, fun k client hclient => ((table_times (fun _ => ⟨0, 10000⟩) heardThree
    [⟨ascii "HELLO_9", ⟨1, 0⟩, 0, 0⟩] _ _ (fun _ _ _ => le_rfl) rfl rfl).1 k client hclient).1⟩

end SimulationCluster

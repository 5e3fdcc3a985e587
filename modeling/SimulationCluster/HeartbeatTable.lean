import SimulationCluster.Transition
import SimulationCluster.LastWrite
import SimulationCluster.HeartbeatReceiver
import Mathlib.Tactic.IntervalCases

namespace SimulationCluster
open ByteText Transition

/-- A round that ends normally. -/
def receiveStep (clients : ClientMap) (r : Round) : Option ClientMap :=
  (receiveHeartbeat clients r).toOption

theorem receiveStep_eq_some_iff (clients clients' : ClientMap) (r : Round) :
    receiveStep clients r = some clients' ↔ receiveHeartbeat clients r = .ok clients' := by
  rw [receiveStep]
  cases receiveHeartbeat clients r <;> simp [Except.toOption]

/-- The keys that the first loop creates. -/
def IsPreset (k : UInt32) : Prop := 1 ≤ k.toNat ∧ k.toNat ≤ 5

instance (k : UInt32) : Decidable (IsPreset k) := inferInstanceAs (Decidable (_ ∧ _))

theorem startClients_apply (clock : ℕ → Int64) (k : UInt32) :
    startClients clock k = if IsPreset k then some (.ofId k (clock k.toNat)) else none := by
  by_cases hk : IsPreset k
  · rw [if_pos hk]
    have hof : k = UInt32.ofNat k.toNat := UInt32.ofNat_toNat.symm
    obtain ⟨h1, h5⟩ := hk
    generalize k.toNat = n at *
    subst hof
    interval_cases n <;> rfl
  · rw [if_neg hk]
    have hne (i : ℕ) (h1 : 1 ≤ i) (h5 : i ≤ 5) : k ≠ UInt32.ofNat i := by
      rintro rfl
      apply hk
      rw [IsPreset, UInt32.toNat_ofNat', Nat.mod_eq_of_lt (by omega)]
      exact ⟨h1, h5⟩
    simp only [startClients, nodeNum, List.range'_succ, List.range'_zero, List.foldl_cons,
      List.foldl_nil]
    iterate 5 rw [Function.update_of_ne (hne _ (by omega) (by omega))]

/-- The ids and the keys of the table after the rounds `rs`. -/
structure Filing (rs : List Round) (clients : ClientMap) : Prop where
  nodeId : ∀ k client, clients k = some client → client.nodeId = if k.toNat ≤ 5 then k else 0
  present : ∀ k, (clients k).isSome ↔ IsPreset k ∨ ∃ r ∈ rs, Accepts r.rawSignal k

theorem filing_start (clock : ℕ → Int64) : Filing [] (startClients clock) := by
  constructor
  · intro k client h
    rw [startClients_apply] at h
    split_ifs at h with hk
    obtain rfl := Option.some.inj h
    rw [if_pos hk.2]
    rfl
  · intro k
    rw [startClients_apply]
    split_ifs with hk <;> simp [hk]

theorem filing_step {rs : List Round} {clients clients' : ClientMap} {r : Round}
    (hf : Filing rs clients) (h : receiveStep clients r = some clients') :
    Filing (rs ++ [r]) clients' := by
  have hok := (receiveStep_eq_some_iff _ _ _).mp h
  rcases (receiveHeartbeat_eq_ok_iff _ _ _).mp hok with ⟨name, z, hreads, hname, rfl⟩ | ⟨k, hk, rfl⟩
  · have hnone (k : UInt32) : ¬Accepts r.rawSignal k := by
      rintro ⟨id, hid, -⟩
      exact hname (hreads.unique hid).1
    refine ⟨hf.nodeId, fun k => ?_⟩
    simp [hf.present k, or_and_right, exists_or, hnone]
  · have hother (k' : UInt32) (hne : k' ≠ k) : ¬Accepts r.rawSignal k' := by
      intro hk'
      exact hne (hk'.unique hk)
    constructor
    · intro k' client hclient
      rcases refresh_cases hclient with ⟨rfl, rfl⟩ | ⟨-, hold⟩
      · rw [updateClientHeartbeat_nodeId]
        cases hold : clients k' with
        | some old => exact hf.nodeId k' old hold
        | none =>
          have hpreset : ¬IsPreset k' := by
            intro hp
            have := (hf.present k').mpr (.inl hp)
            rw [hold] at this
            cases this
          change 0 = _
          split_ifs with h5
          · have : k'.toNat = 0 := by
              by_contra h0
              exact hpreset ⟨by omega, h5⟩
            exact (UInt32.toNat_inj.mp this).symm
          · rfl
      · exact hf.nodeId k' client hold
    · intro k'
      by_cases hne : k' = k
      · subst hne
        rw [refresh_self]
        simp only [Option.isSome_some, true_iff]
        exact .inr ⟨r, by simp, hk⟩
      · rw [refresh_of_ne _ _ hne, hf.present k']
        simp [or_and_right, exists_or, hother k' hne]

theorem filing_of_run {clock : ℕ → Int64} {rs : List Round} {clients : ClientMap}
    (h : run receiveStep (startClients clock) rs = some clients) : Filing rs clients :=
  run_history (fun _ _ _ _ hf hr => filing_step hf hr) (filing_start clock) h

/-- The ids up to 5 are those that the conversion to a key takes to a key up to 5. -/
theorem toUInt32_le_iff (v : Int32) : v.toUInt32.toNat ≤ 5 ↔ 0 ≤ v.toInt ∧ v.toInt ≤ 5 := by
  have hint : v.toInt = v.toBitVec.toInt := rfl
  have hnat : v.toUInt32.toNat = v.toBitVec.toNat := rfl
  have hlt := v.toBitVec.isLt
  rw [hint, hnat, BitVec.toInt_eq_toNat_cond]
  split_ifs <;> omega

/-- Every entry is filed under its own id exactly when every heartbeat so far had an
id from 0 to 5. -/
theorem filed_iff (clock : ℕ → Int64) (rs : List Round) (clients : ClientMap)
    (h : run receiveStep (startClients clock) rs = some clients) :
    (∀ k client, clients k = some client → client.nodeId = k) ↔
      ∀ r ∈ rs, ∀ z, Reads r.rawSignal (ascii "HEARTBEAT") z → 0 ≤ z ∧ z ≤ 5 := by
  have hf := filing_of_run h
  constructor
  · intro hfiled r hr z hz
    obtain ⟨v, rfl⟩ := hz.exists_int
    obtain ⟨client, hclient⟩ := Option.isSome_iff_exists.mp
      ((hf.present v.toUInt32).mpr (.inr ⟨r, hr, v, hz, rfl⟩))
    apply (toUInt32_le_iff v).mp
    by_contra h5
    have hid := hf.nodeId _ client hclient
    rw [hfiled _ client hclient, if_neg h5] at hid
    rw [hid] at h5
    exact h5 (by decide)
  · intro hids k client hclient
    rw [hf.nodeId k client hclient, if_pos]
    rcases (hf.present k).mp (by rw [hclient]; rfl) with hk | ⟨r, hr, v, hv, rfl⟩
    · exact hk.2
    · exact (toUInt32_le_iff v).mpr (hids r hr _ hv)

/-- A known client and another signal. -/
theorem filed_iff_known : ∃ clients,
    run receiveStep (startClients fun _ => 0)
      [⟨ascii "HEARTBEAT_3", 1, 0, 0⟩, ⟨ascii "HELLO_9", 2, 0, 0⟩] = some clients ∧
    ((∀ k client, clients k = some client → client.nodeId = k) ↔
      ∀ r ∈ ([⟨ascii "HEARTBEAT_3", 1, 0, 0⟩, ⟨ascii "HELLO_9", 2, 0, 0⟩] : List Round),
        ∀ z, Reads r.rawSignal (ascii "HEARTBEAT") z → 0 ≤ z ∧ z ≤ 5) :=
  ⟨_, rfl, filed_iff _ _ _ rfl⟩

/-- The entry that the first heartbeat of client 6 creates has id 0. -/
theorem new_entry_misfiled : ∃ clients client,
    run receiveStep (startClients fun _ => 0) [⟨ascii "HEARTBEAT_6", 1, 0, 0⟩] = some clients ∧
    clients 6 = some client ∧ client.nodeId ≠ 6 := by
  have hzero : ((run receiveStep (startClients fun _ => 0)
      [⟨ascii "HEARTBEAT_6", 1, 0, 0⟩]).bind fun clients => clients 6).map Client.nodeId =
        some 0 := by
    decide +kernel
  obtain ⟨client, hc, hid⟩ := Option.map_eq_some_iff.mp hzero
  obtain ⟨clients, hrun, hclient⟩ := Option.bind_eq_some_iff.mp hc
  refine ⟨clients, client, hrun, hclient, ?_⟩
  rw [hid]
  decide

/-- A clock reading to which the timeout can be added. -/
def InTime (clock : Int64) : Prop := clock.toInt+300000 < 2^63

instance (clock : Int64) : Decidable (InTime clock) := inferInstanceAs (Decidable (_ < _))

theorem toInt_add_timeout {clock : Int64} (h : InTime clock) :
    (clock+heartbeatTimeout).toInt = clock.toInt+300000 := by
  have htimeout : heartbeatTimeout.toInt = 300000 := by decide
  have hle := clock.le_toInt
  have hlt : clock.toInt+300000 < 2^63 := h
  rw [Int64.toInt_add, htimeout]
  apply Int.bmod_eq_of_le <;> omega

/-- A heartbeat of client `id`, as it reaches the receiver. -/
structure Beat where
  id : UInt32
  thisMoment : Int64
  heartbeat : Int64
  expiry : Int64

def Beat.round (b : Beat) : Round := ⟨heartbeatSignal b.id, b.thisMoment, b.heartbeat, b.expiry⟩

def Beat.sign (b : Beat) : UInt32 × Int64 := (b.id, b.thisMoment)

/-- The reading in the constructor of an entry of the first loop. -/
def startSign (clock : ℕ → Int64) (k : UInt32) : Option Int64 :=
  if IsPreset k then some (clock k.toNat) else none

/-- The table agrees with the last sign of life of each client. -/
structure Records (clients : ClientMap) (signs : UInt32 → Option Int64) : Prop where
  heartbeat : ∀ k, (clients k).map Client.heartbeat = signs k
  expiry : ∀ k client, clients k = some client →
    client.expiry.toInt = client.heartbeat.toInt+300000
  status : ∀ k client, clients k = some client → client.nodeStatus = .kFree

theorem records_start {clock : ℕ → Int64} (h : ∀ i, 1 ≤ i → i ≤ 5 → InTime (clock i)) :
    Records (startClients clock) (startSign clock) := by
  constructor
  · intro k
    rw [startClients_apply, startSign]
    split_ifs <;> rfl
  all_goals
    intro k client hclient
    rw [startClients_apply] at hclient
    split_ifs at hclient with hk
    obtain rfl := Option.some.inj hclient
  · exact toInt_add_timeout (h _ hk.1 hk.2)
  · rfl

theorem receiveStep_beat (clients : ClientMap) {b : Beat} (h : b.id.toNat < 2^31) :
    receiveStep clients b.round = some (clients.refresh b.id b.round) := by
  have haccepts : Accepts b.round.rawSignal b.id := by
    refine ⟨Int32.ofNat b.id.toNat, ?_, toUInt32_ofNat_toNat b.id⟩
    exact (reads_heartbeatSignal_iff _ _ _).mpr ⟨rfl, Int32.toInt_ofNat_of_lt h, h⟩
  rw [receiveStep_eq_some_iff, receiveHeartbeat_eq_ok_iff]
  exact .inr ⟨b.id, haccepts, rfl⟩

theorem records_refresh {clients : ClientMap} {signs : UInt32 → Option Int64} {b : Beat}
    (hr : Records clients signs) (h : InTime b.thisMoment) :
    Records (clients.refresh b.id b.round) (LastWrite.write signs b.sign) := by
  constructor
  · intro k
    rw [LastWrite.write_apply]
    by_cases hk : b.id = k
    · subst hk
      rw [refresh_self]
      simp [Beat.sign, Beat.round]
    · rw [refresh_of_ne _ _ (Ne.symm hk), hr.heartbeat k]
      simp [Beat.sign, hk]
  · intro k client hclient
    rcases refresh_cases hclient with ⟨rfl, rfl⟩ | ⟨-, hold⟩
    · exact toInt_add_timeout h
    · exact hr.expiry k client hold
  · intro k client hclient
    rcases refresh_cases hclient with ⟨rfl, rfl⟩ | ⟨-, hold⟩
    · rw [updateClientHeartbeat_nodeStatus]
      cases hold : clients b.id with
      | none => rfl
      | some old => exact hr.status _ old hold
    · exact hr.status k client hold

theorem records_of_run {clock : ℕ → Int64} {beats : List Beat} {clients : ClientMap}
    (hid : ∀ b ∈ beats, b.id.toNat < 2^31) (hclock : ∀ b ∈ beats, InTime b.thisMoment)
    (hstart : ∀ i, 1 ≤ i → i ≤ 5 → InTime (clock i))
    (h : run receiveStep (startClients clock) (beats.map Beat.round) = some clients) :
    Records clients ((beats.map Beat.sign).foldl LastWrite.write (startSign clock)) := by
  rw [run_map] at h
  rw [List.foldl_map]
  refine run_simulation (R := Records) (P := fun _ b => b.id.toNat < 2^31 ∧ InTime b.thisMoment)
    (fun signs b => LastWrite.write signs b.sign) ?_ (records_start hstart)
    (along_of_forall _ _ _ ?_) h
  · intro clients signs b clients' hr hb hstep
    rw [receiveStep_beat clients hb.1] at hstep
    obtain rfl := Option.some.inj hstep
    exact records_refresh hr hb.2
  · intro b hb _
    exact ⟨hid b hb, hclock b hb⟩

/-- After any sequence of heartbeats the table holds the last sign of life of each
client that is preset or has reported, and its expiry; no entry is lost, and a
heartbeat of one client changes no other entry. -/
theorem table_records_last_signs (clock : ℕ → Int64) (beats : List Beat)
    (hid : ∀ b ∈ beats, b.id.toNat < 2^31) (hclock : ∀ b ∈ beats, InTime b.thisMoment)
    (hstart : ∀ i, 1 ≤ i → i ≤ 5 → InTime (clock i)) :
    ∃ clients, run receiveStep (startClients clock) (beats.map Beat.round) = some clients ∧
      (∀ k, (clients k).isSome ↔ IsPreset k ∨ ∃ b ∈ beats, b.id = k) ∧
      (∀ k client, clients k = some client →
        some client.heartbeat = (LastWrite.lastTo k (beats.map Beat.sign)).or (startSign clock k) ∧
        client.expiry.toInt = client.heartbeat.toInt+300000 ∧ client.nodeStatus = .kFree) ∧
      ∀ pre b post, beats = pre ++ b :: post → ∃ t t',
        run receiveStep (startClients clock) (pre.map Beat.round) = some t ∧
        receiveStep t b.round = some t' ∧ (∀ k, k ≠ b.id → t' k = t k) ∧
        ∀ k, (t k).isSome → (t' k).isSome := by
  have htotal (bs : List Beat) (hbs : ∀ b ∈ bs, b ∈ beats) :
      ∃ t, run receiveStep (startClients clock) (bs.map Beat.round) = some t := by
    rw [run_map]
    apply exists_run
    intro b hb t
    exact ⟨_, receiveStep_beat t (hid b (hbs b hb))⟩
  obtain ⟨clients, hrun⟩ := htotal beats fun _ hb => hb
  have hrec := records_of_run hid hclock hstart hrun
  refine ⟨clients, hrun, ?_, ?_, ?_⟩
  · intro k
    have hsome : (clients k).isSome = ((clients k).map Client.heartbeat).isSome := by simp
    rw [hsome, hrec.heartbeat k, LastWrite.foldl_write, Option.isSome_or, Bool.or_eq_true,
      LastWrite.lastTo_isSome_iff, or_comm]
    apply or_congr
    · rw [startSign]
      split_ifs with hk <;> simp [hk]
    · simp [Beat.sign]
  · intro k client hclient
    refine ⟨?_, hrec.expiry k client hclient, hrec.status k client hclient⟩
    rw [← LastWrite.foldl_write, ← hrec.heartbeat k, hclient]
    rfl
  · rintro pre b post rfl
    obtain ⟨t, ht⟩ := htotal pre fun b' hb' => List.mem_append_left _ hb'
    refine ⟨t, _, ht, receiveStep_beat t (hid b (by simp)), ?_, ?_⟩
    · intro k hk
      exact refresh_of_ne t _ hk
    · intro k hk
      by_cases hne : k = b.id
      · rw [hne, refresh_self]
        rfl
      · rwa [refresh_of_ne t _ hne]

/-- Client 6 reports twice, the second time with an earlier clock, and client 2 in between. -/
def threeBeats : List Beat := [⟨6, 10, 0, 0⟩, ⟨2, 5, 0, 0⟩, ⟨6, 7, 1, 1⟩]

theorem table_records_three : ∃ clients client,
    run receiveStep (startClients fun _ => 0) (threeBeats.map Beat.round) = some clients ∧
    clients 6 = some client ∧ client.heartbeat = 7 ∧ client.expiry.toInt = 300007 := by
  obtain ⟨clients, hrun, hkeys, hsigns, -⟩ := table_records_last_signs (fun _ => 0) threeBeats
    (by decide) (by decide) (fun _ _ _ => by decide)
  obtain ⟨client, hclient⟩ := Option.isSome_iff_exists.mp
    ((hkeys 6).mpr (.inr ⟨⟨6, 10, 0, 0⟩, List.mem_cons_self, rfl⟩))
  obtain ⟨hheart, hexpiry, -⟩ := hsigns 6 client hclient
  have hlast : (LastWrite.lastTo 6 (threeBeats.map Beat.sign)).or (startSign (fun _ => 0) 6) =
      some 7 := by decide
  have hseven : client.heartbeat = 7 := Option.some.inj (hheart.trans hlast)
  refine ⟨clients, client, hrun, hclient, hseven, ?_⟩
  rw [hexpiry, hseven]
  decide

end SimulationCluster

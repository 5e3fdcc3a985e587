import SimulationCluster.HeartbeatText
import Mathlib.Logic.Function.Basic

namespace SimulationCluster
open ByteText

inductive ComputeStatus
  | kNotStart | kInComputing | kFinished
  deriving DecidableEq

inductive StoreStatus
  | kNotSave | kSaved
  deriving DecidableEq

structure Task where
  id : UInt32 := 0
  computeStatus : ComputeStatus := .kNotStart
  storeStatus : StoreStatus := .kNotSave
  deriving DecidableEq

inductive NodeStatus
  | kFree | kInComputing | kBreakdown
  deriving DecidableEq

structure Client where
  nodeId : UInt32
  nodeStatus : NodeStatus
  task : Task
  heartbeat : Int64
  expiry : Int64
  deriving DecidableEq

/-- `Client()`. It leaves the heartbeat and the expiry as it finds them in memory. -/
def Client.unset (heartbeat expiry : Int64) : Client := ⟨0, .kFree, {}, heartbeat, expiry⟩

/-- `Client(id)`, with its reading of the clock. -/
def Client.ofId (id : UInt32) (clock : Int64) : Client := ⟨id, .kFree, {}, clock, clock+300000⟩

abbrev ClientMap := UInt32 → Option Client

def heartbeatTimeout : Int64 := 300000

def nodeIsExpiry : Bool := false

def updateClientHeartbeat (client : Client) (thisMoment : Int64) : Client :=
  { client with heartbeat := thisMoment, expiry := thisMoment+heartbeatTimeout }

@[simp] theorem updateClientHeartbeat_nodeId (client : Client) (t : Int64) :
    (updateClientHeartbeat client t).nodeId = client.nodeId := rfl

@[simp] theorem updateClientHeartbeat_nodeStatus (client : Client) (t : Int64) :
    (updateClientHeartbeat client t).nodeStatus = client.nodeStatus := rfl

@[simp] theorem updateClientHeartbeat_heartbeat (client : Client) (t : Int64) :
    (updateClientHeartbeat client t).heartbeat = t := rfl

def deleteBreakdownClient (clients : ClientMap) : ClientMap := fun k =>
  (clients k).map fun client =>
    if nodeIsExpiry then { client with nodeStatus := .kBreakdown } else client

def nodeNum : ℕ := 5

/-- The table after the first loop. `clock i` is the reading in the constructor of client `i`. -/
def startClients (clock : ℕ → Int64) : ClientMap :=
  (List.range' 1 nodeNum).foldl (fun clients i =>
    Function.update clients (UInt32.ofNat i) (some (.ofId (UInt32.ofNat i) (clock i)))) fun _ => none

/-- What a round takes from outside: the message, the reading of the clock, and what
`Client()` would find in memory. -/
structure Round where
  rawSignal : Bytes
  thisMoment : Int64
  heartbeat : Int64
  expiry : Int64
  deriving DecidableEq

/-- `update_client_heartbeat(clients[k])`. The subscript inserts a `Client()` at a new key. -/
def ClientMap.refresh (clients : ClientMap) (k : UInt32) (r : Round) : ClientMap :=
  let client := (clients k).getD (.unset r.heartbeat r.expiry)
  Function.update clients k (some (updateClientHeartbeat client r.thisMoment))

/-- One round of the loop of `receive_heartbeat`. The `int` id becomes a key by
conversion to `uint32_t`. -/
def receiveHeartbeat (clients : ClientMap) (r : Round) : Except Failure ClientMap := do
  let (id, heartbeatSignal) ← decodeSignal r.rawSignal
  if heartbeatSignal ≠ ascii "HEARTBEAT" then
    return clients
  return deleteBreakdownClient (clients.refresh id.toUInt32 r)

theorem deleteBreakdownClient_eq (clients : ClientMap) : deleteBreakdownClient clients = clients := by
  funext k
  simp [deleteBreakdownClient, nodeIsExpiry]

/-- The message is accepted as a heartbeat and refreshes the entry of `k`. -/
def Accepts (m : Bytes) (k : UInt32) : Prop :=
  ∃ id : Int32, Reads m (ascii "HEARTBEAT") id.toInt ∧ id.toUInt32 = k

theorem Accepts.unique {m : Bytes} {k k' : UInt32} (h : Accepts m k) (h' : Accepts m k') :
    k = k' := by
  obtain ⟨id, hid, rfl⟩ := h
  obtain ⟨id', hid', rfl⟩ := h'
  rw [Int32.toInt_inj.mp (hid.unique hid').2]

theorem refresh_self (clients : ClientMap) (k : UInt32) (r : Round) : clients.refresh k r k =
    some (updateClientHeartbeat ((clients k).getD (.unset r.heartbeat r.expiry)) r.thisMoment) :=
  Function.update_self _ _ _

theorem refresh_of_ne (clients : ClientMap) {k k' : UInt32} (r : Round) (h : k' ≠ k) :
    clients.refresh k r k' = clients k' := Function.update_of_ne h _ _

theorem refresh_cases {clients : ClientMap} {k k' : UInt32} {r : Round} {client : Client}
    (h : clients.refresh k r k' = some client) :
    (k' = k ∧ client = updateClientHeartbeat
      ((clients k).getD (.unset r.heartbeat r.expiry)) r.thisMoment) ∨
    (k' ≠ k ∧ clients k' = some client) := by
  by_cases hk : k' = k
  · subst hk
    rw [refresh_self] at h
    exact .inl ⟨rfl, (Option.some.inj h).symm⟩
  · rw [refresh_of_ne _ _ hk] at h
    exact .inr ⟨hk, h⟩

theorem receiveHeartbeat_eq_ok_iff (clients clients' : ClientMap) (r : Round) :
    receiveHeartbeat clients r = .ok clients' ↔
      (∃ name z, Reads r.rawSignal name z ∧ name ≠ ascii "HEARTBEAT" ∧ clients' = clients) ∨
      ∃ k, Accepts r.rawSignal k ∧ clients' = clients.refresh k r := by
  constructor
  · intro h
    cases hd : decodeSignal r.rawSignal with
    | error f => simp [receiveHeartbeat, hd, bind, Except.bind] at h
    | ok p =>
      obtain ⟨id, name⟩ := p
      have hreads := (decodeSignal_eq_ok_iff _ _ _).mp hd
      simp only [receiveHeartbeat, hd, bind, Except.bind, deleteBreakdownClient_eq] at h
      split_ifs at h with hname
      · exact .inl ⟨name, _, hreads, hname, (Except.ok.inj h).symm⟩
      · obtain rfl := not_not.mp hname
        exact .inr ⟨_, ⟨id, hreads, rfl⟩, (Except.ok.inj h).symm⟩
  · rintro (⟨name, z, hreads, hname, rfl⟩ | ⟨k, ⟨id, hreads, rfl⟩, rfl⟩)
    · obtain ⟨v, rfl⟩ := hreads.exists_int
      have hd := (decodeSignal_eq_ok_iff _ _ _).mpr hreads
      simp [receiveHeartbeat, hd, bind, Except.bind, hname, pure, Except.pure]
    · have hd := (decodeSignal_eq_ok_iff _ _ _).mpr hreads
      simp [receiveHeartbeat, hd, bind, Except.bind, pure, Except.pure, deleteBreakdownClient_eq]

/-- "HEARTBEAT_" followed by a decimal id that fits the id type. -/
def WellFormed (m : Bytes) : Prop :=
  ∃ ds, m = ascii "HEARTBEAT_" ++ ds ∧ ds ≠ [] ∧ (∀ b ∈ ds, isDigit b = true) ∧ value ds < 2^32

/-- The entry of `k` already carries the reading of this round. -/
def ClientMap.UpToDate (clients : ClientMap) (k : UInt32) (r : Round) : Prop :=
  ∃ client, clients k = some client ∧ client.heartbeat = r.thisMoment ∧
    client.expiry = r.thisMoment+heartbeatTimeout

theorem refresh_eq_self_iff (clients : ClientMap) (k : UInt32) (r : Round) :
    clients.refresh k r = clients ↔ clients.UpToDate k r := by
  rw [ClientMap.refresh, Function.update_eq_self_iff, ClientMap.UpToDate]
  cases hk : clients k with
  | none => simp
  | some client =>
    simp only [Option.getD_some, updateClientHeartbeat, Option.some.injEq, exists_eq_left']
    constructor
    · intro h
      rw [← h]
      exact ⟨rfl, rfl⟩
    · rintro ⟨hh, he⟩
      rw [← he, ← hh]

/-- A round ends normally, and leaves the table alone unless the message is well
formed, exactly when the message reads as another signal with an `int` after the
first "_", or is a well-formed heartbeat whose id fits `int`, or would write into
the table what is already there. -/
theorem round_harmless_iff (clients : ClientMap) (r : Round) :
    (∃ clients', receiveHeartbeat clients r = .ok clients' ∧
      (¬WellFormed r.rawSignal → clients' = clients)) ↔
    (∃ name z, Reads r.rawSignal name z ∧ name ≠ ascii "HEARTBEAT") ∨
      ∃ k, Accepts r.rawSignal k ∧ (WellFormed r.rawSignal ∨ clients.UpToDate k r) := by
  constructor
  · rintro ⟨clients', hok, hsame⟩
    rcases (receiveHeartbeat_eq_ok_iff _ _ _).mp hok with ⟨name, z, hreads, hname, -⟩ | ⟨k, hk, rfl⟩
    · exact .inl ⟨name, z, hreads, hname⟩
    · refine .inr ⟨k, hk, ?_⟩
      by_cases hw : WellFormed r.rawSignal
      · exact .inl hw
      · exact .inr ((refresh_eq_self_iff _ _ _).mp (hsame hw))
  · rintro (⟨name, z, hreads, hname⟩ | ⟨k, hk, hkeep⟩)
    · have hok := (receiveHeartbeat_eq_ok_iff clients clients r).mpr
        (.inl ⟨name, z, hreads, hname, rfl⟩)
      exact ⟨clients, hok, fun _ => rfl⟩
    · have hok := (receiveHeartbeat_eq_ok_iff clients _ r).mpr (.inr ⟨k, hk, rfl⟩)
      refine ⟨_, hok, fun hw => ?_⟩
      exact (refresh_eq_self_iff _ _ _).mpr (hkeep.resolve_left hw)

/-- On the fresh table the empty message reads past the pieces, "HEARTBEAT_x" and
"HEARTBEAT_4294967295" throw, and "HEARTBEAT_7x" adds an entry. -/
theorem round_harmful :
    receiveHeartbeat (startClients fun _ => 0) ⟨[], 1, 0, 0⟩ = .error .pastEnd ∧
    receiveHeartbeat (startClients fun _ => 0) ⟨ascii "HEARTBEAT_x", 1, 0, 0⟩ =
      .error .invalidArgument ∧
    receiveHeartbeat (startClients fun _ => 0) ⟨ascii "HEARTBEAT_4294967295", 1, 0, 0⟩ =
      .error .outOfRange ∧
    ∀ m ∈ [[], ascii "HEARTBEAT_7x"],
      ¬∃ clients', receiveHeartbeat (startClients fun _ => 0) ⟨m, 1, 0, 0⟩ = .ok clients' ∧
        (¬WellFormed m → clients' = startClients fun _ => 0) := by
  refine ⟨rfl, rfl, rfl, ?_⟩
  intro m hm
  rintro ⟨clients', hok, hsame⟩
  rcases List.mem_pair.mp hm with rfl | rfl
  · cases hok
  · have hwf : ¬WellFormed (ascii "HEARTBEAT_7x") := by
      rintro ⟨ds, hds, -, hdigit, -⟩
      have hsplit : ascii "HEARTBEAT_7x" = ascii "HEARTBEAT_" ++ ascii "7x" := rfl
      obtain rfl : ascii "7x" = ds := List.append_cancel_left (hsplit.symm.trans hds)
      exact absurd (hdigit 120 (by decide)) (by decide)
    have hseven : clients' 7 ≠ none := by
      rw [← Except.ok.inj hok]
      exact nofun
    rw [hsame hwf] at hseven
    exact hseven rfl

end SimulationCluster

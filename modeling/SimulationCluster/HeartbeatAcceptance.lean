import SimulationCluster.HeartbeatReceiver

namespace SimulationCluster
open ByteText

/-- The text after the first "_", at the head of which `decode_signal` reads the id. -/
def idField (m : Bytes) : Bytes := (m.dropWhile (· != underscore)).drop 1

theorem idField_append {name : Bytes} (h : underscore ∉ name) (rest : Bytes) :
    idField (name ++ underscore :: rest) = rest := by
  rw [idField, dropWhile_append_of_head (bne_of_not_mem h) (by simp)]
  rfl

theorem idField_heartbeatSignal (id : UInt32) : idField (heartbeatSignal id) = decimal id.toNat := by
  have hname : underscore ∉ ascii "HEARTBEAT" := by decide
  exact idField_append hname (decimal id.toNat)

theorem Reads.idField {m name : Bytes} {z : ℤ} (h : Reads m name z) :
    m = name ++ underscore :: idField m ∧ Numeral (idField m) z := by
  obtain ⟨rest, rfl, hname, hnum, -⟩ := h
  rw [idField_append hname]
  exact ⟨rfl, hnum⟩

/-- An `int` that is not negative keeps its value as a key. -/
theorem toNat_toUInt32_of_toInt {id : Int32} {n : ℕ} (h : id.toInt = n) : id.toUInt32.toNat = n := by
  have hlt := id.toInt_lt
  have hid : id = Int32.ofNat n := by
    apply Int32.toInt_inj.mp
    rw [h, Int32.toInt_ofNat_of_lt (by omega)]
  rw [hid, Int32.toUInt32_ofNat', UInt32.toNat_ofNat']
  exact Nat.mod_eq_of_lt (by omega)

/-- Among the messages read as a heartbeat of `id`, the one that a client sends is the
one whose id is written in digits only, without a leading zero. -/
theorem eq_heartbeatSignal_iff {m : Bytes} {id : Int32}
    (h : Reads m (ascii "HEARTBEAT") id.toInt) :
    m = heartbeatSignal id.toUInt32 ↔ IsDecimal (idField m) := by
  constructor
  · intro hm
    rw [hm, idField_heartbeatSignal]
    exact isDecimal_decimal _
  · intro hdec
    obtain ⟨hm, hnum⟩ := h.idField
    have hfield := decimal_value hdec
    have hid : id.toInt = value (idField m) := by
      have hscan := (scanInt_eq_some_iff _ _).mpr hnum
      rw [← hfield, scanInt_decimal] at hscan
      exact (Option.some.inj hscan).symm
    calc m = ascii "HEARTBEAT" ++ underscore :: idField m := hm
      _ = ascii "HEARTBEAT" ++ underscore :: decimal id.toUInt32.toNat := by
        rw [toNat_toUInt32_of_toInt hid, hfield]
      _ = heartbeatSignal id.toUInt32 := rfl

/-- A heartbeat that the server accepts is what the client of that id sends exactly when
its id is digits only without a leading zero, and at most one of the messages that
refresh an entry is of that form. -/
theorem accepted_sent_iff (m : Bytes) (id : Int32)
    (h : decodeSignal m = .ok (id, ascii "HEARTBEAT")) :
    (m = heartbeatSignal id.toUInt32 ↔ IsDecimal (idField m)) ∧
    (IsDecimal (idField m) → ∀ m' id', decodeSignal m' = .ok (id', ascii "HEARTBEAT") →
      id'.toUInt32 = id.toUInt32 → (m' = m ↔ IsDecimal (idField m'))) := by
  have hm := eq_heartbeatSignal_iff ((decodeSignal_eq_ok_iff _ _ _).mp h)
  refine ⟨hm, fun hdec m' id' h' hkey => ?_⟩
  rw [← eq_heartbeatSignal_iff ((decodeSignal_eq_ok_iff _ _ _).mp h'), hkey, hm.mpr hdec]

/-- The heartbeat of client 7. -/
theorem accepted_sent_seven :
    ascii "HEARTBEAT_7" = heartbeatSignal 7 ∧ ascii "HEARTBEAT_+7" ≠ ascii "HEARTBEAT_7" := by
  have hseven : IsDecimal (idField (ascii "HEARTBEAT_7")) := isDecimal_decimal 7
  have hsent := accepted_sent_iff (ascii "HEARTBEAT_7") 7 rfl
  refine ⟨hsent.1.mpr hseven, fun heq => ?_⟩
  have hplus := (hsent.2 hseven (ascii "HEARTBEAT_+7") 7 rfl rfl).mp heq
  exact absurd (hplus.digits 43 (by decide)) (by decide)

/-- A leading zero is accepted: no client sends the text, and it refreshes the entry of
client 7 as the heartbeat of that client does. -/
theorem forged_heartbeat :
    decodeSignal (ascii "HEARTBEAT_07") = .ok (7, ascii "HEARTBEAT") ∧
    ascii "HEARTBEAT_07" ≠ heartbeatSignal (7 : Int32).toUInt32 ∧
    decodeSignal (heartbeatSignal (7 : Int32).toUInt32) = .ok (7, ascii "HEARTBEAT") :=
  ⟨rfl, by decide, rfl⟩

end SimulationCluster

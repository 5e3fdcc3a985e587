import SimulationCluster.ClientThreads

namespace SimulationCluster
open ByteText

/-- `client_id` in the client's `main`, from its first argument. -/
def clientId (overflow : ℤ → Int32) (argument : Bytes) : UInt32 :=
  (atoiWith overflow argument).toUInt32

/-- The `signal` of `send_heartbeat`. -/
def heartbeatSignal (id : UInt32) : Bytes := ascii "HEARTBEAT_" ++ decimal id.toNat

/-- The printable characters that a regular expression takes literally. -/
def isLiteral (c : UInt8) : Bool :=
  32 ≤ c && c ≤ 126 && !(ascii "^$\\.*+?()[]\x7b\x7d|").contains c

/-- A regular expression that is one literal character. -/
structure Delimiter where
  char : UInt8
  literal : isLiteral char = true

/-- `split_string` with such a delimiter. -/
def splitString (input : Bytes) (delim : Delimiter) : List Bytes := tokens delim.char input

/-- How `decode_signal` can fail: by reading past the pieces, or by an exception
of `std::stoi`. -/
inductive Failure
  | pastEnd | invalidArgument | outOfRange
  deriving DecidableEq

/-- `std::stoi`. -/
def stoi (s : Bytes) : Except Failure Int32 :=
  match scanInt s with
  | none => .error .invalidArgument
  | some z => if -2^31 ≤ z ∧ z < 2^31 then .ok (Int32.ofInt z) else .error .outOfRange

/-- The byte of "_". -/
def underscore : UInt8 := 95

/-- The delimiter of `decode_signal`. -/
def signalDelim : Delimiter := ⟨underscore, rfl⟩

theorem splitString_signalDelim (s : Bytes) : splitString s signalDelim = tokens underscore s := rfl

/-- The client id and the name of the signal. The subscripts are unchecked in the source. -/
def decodeSignal (rawSignal : Bytes) : Except Failure (Int32 × Bytes) := do
  let signal := splitString rawSignal signalDelim
  let field ← (signal[1]?).elim (.error .pastEnd) .ok
  let id ← stoi field
  let name ← (signal[0]?).elim (.error .pastEnd) .ok
  return (id, name)

/-- `m` is `name`, the first "_" of `m`, and then a text that begins with a numeral
for an `int`. -/
def Reads (m name : Bytes) (z : ℤ) : Prop :=
  ∃ rest, m = name ++ underscore :: rest ∧ underscore ∉ name ∧ Numeral rest z ∧
    -2^31 ≤ z ∧ z < 2^31

theorem Reads.unique {m name name' : Bytes} {z z' : ℤ} (h : Reads m name z)
    (h' : Reads m name' z') : name = name' ∧ z = z' := by
  obtain ⟨rest, rfl, hname, hnum, -⟩ := h
  obtain ⟨rest', heq, hname', hnum', -⟩ := h'
  obtain ⟨rfl, rfl⟩ := append_cons_inj hname hname' heq
  refine ⟨rfl, Option.some.inj ?_⟩
  rw [← (scanInt_eq_some_iff _ _).mpr hnum, (scanInt_eq_some_iff _ _).mpr hnum']

theorem Reads.exists_int {m name : Bytes} {z : ℤ} (h : Reads m name z) :
    ∃ v : Int32, v.toInt = z := by
  obtain ⟨_, -, -, -, hle, hlt⟩ := h
  exact ⟨Int32.ofInt z, Int32.toInt_ofInt_of_le hle hlt⟩

theorem stoi_eq_ok_iff (s : Bytes) (v : Int32) : stoi s = .ok v ↔ Numeral s v.toInt := by
  rw [← scanInt_eq_some_iff, stoi]
  cases scanInt s with
  | none => simp
  | some z =>
    have hle := v.le_toInt
    have hlt := v.toInt_lt
    simp only [Option.some.injEq]
    constructor
    · intro h
      split_ifs at h with hz
      obtain rfl := Except.ok.inj h
      exact (Int32.toInt_ofInt_of_le hz.1 hz.2).symm
    · rintro rfl
      rw [if_pos ⟨hle, hlt⟩, Int32.ofInt_toInt]

theorem not_numeral_nil (z : ℤ) : ¬Numeral [] z := by
  rw [← scanInt_eq_some_iff]
  exact nofun

/-- The scan of the piece up to the next "_" is the scan of the whole rest. -/
theorem numeral_piece_iff (rest : Bytes) (z : ℤ) :
    Numeral (rest.takeWhile (· != underscore)) z ↔ Numeral rest z := by
  constructor
  · intro h
    have happ := h.append (t := rest.dropWhile (· != underscore)) ?_
    · rwa [List.takeWhile_append_dropWhile] at happ
    · intro b hb
      have hsep := head_dropWhile (· != underscore) rest b hb
      obtain rfl : b = underscore := by simpa using hsep
      rfl
  · intro h
    apply h.takeWhile
    all_goals
      intro b hb
      apply bne_iff_ne.mpr
      rintro rfl
      exact absurd hb (by decide)

/-- `decode_signal` succeeds exactly on the texts that read as a name and an `int`. -/
theorem decodeSignal_eq_ok_iff (m : Bytes) (id : Int32) (name : Bytes) :
    decodeSignal m = .ok (id, name) ↔ Reads m name id.toInt := by
  by_cases hsep : underscore ∈ m
  · obtain ⟨p, rest, rfl, hp⟩ := List.eq_append_cons_of_mem hsep
    have hreads : Reads (p ++ underscore :: rest) name id.toInt ↔
        p = name ∧ Numeral rest id.toInt := by
      constructor
      · rintro ⟨rest', heq, hname, hnum, -⟩
        obtain ⟨rfl, rfl⟩ := append_cons_inj hp hname heq
        exact ⟨rfl, hnum⟩
      · rintro ⟨rfl, hnum⟩
        exact ⟨rest, rfl, hp, hnum, id.le_toInt, id.toInt_lt⟩
    rw [hreads]
    by_cases hrest : rest = []
    · subst hrest
      simp [decodeSignal, splitString_signalDelim, tokens_append_cons hp, not_numeral_nil, bind,
        Except.bind]
    · have hsecond : (splitString (p ++ underscore :: rest) signalDelim)[1]? =
          some (rest.takeWhile (· != underscore)) := by
        rw [splitString_signalDelim, tokens_append_cons hp, if_neg hrest, List.getElem?_cons_succ,
          ← List.head?_eq_getElem?, head_tokens]
      have hfirst : (splitString (p ++ underscore :: rest) signalDelim)[0]? = some p := by
        rw [splitString_signalDelim, tokens_append_cons hp]
        rfl
      rw [← numeral_piece_iff, ← stoi_eq_ok_iff]
      simp only [decodeSignal, hsecond, hfirst, Option.elim, bind, Except.bind, pure, Except.pure]
      cases stoi (rest.takeWhile (· != underscore)) with
      | error f => simp
      | ok v => simp [and_comm]
  · have hreads : ¬Reads m name id.toInt := by
      rintro ⟨rest, rfl, -⟩
      exact hsep (List.mem_append_right _ List.mem_cons_self)
    simp [decodeSignal, splitString_signalDelim, tokens_of_not_mem hsep, hreads, bind, Except.bind]

/-- The heartbeat of every id reads as the name and that id, if it fits `int`. -/
theorem reads_heartbeatSignal_iff (id : UInt32) (name : Bytes) (z : ℤ) :
    Reads (heartbeatSignal id) name z ↔
      name = ascii "HEARTBEAT" ∧ z = id.toNat ∧ id.toNat < 2^31 := by
  have hsignal : heartbeatSignal id = ascii "HEARTBEAT" ++ underscore :: decimal id.toNat := rfl
  have hname : underscore ∉ ascii "HEARTBEAT" := by decide
  rw [hsignal]
  constructor
  · rintro ⟨rest, heq, hmem, hnum, -, hlt⟩
    obtain ⟨rfl, rfl⟩ := append_cons_inj hname hmem heq
    have hscan := (scanInt_eq_some_iff _ _).mpr hnum
    rw [scanInt_decimal, Option.some.injEq] at hscan
    subst hscan
    exact ⟨rfl, rfl, by omega⟩
  · rintro ⟨rfl, rfl, hlt⟩
    exact ⟨_, rfl, hname, (scanInt_eq_some_iff _ _).mp (scanInt_decimal _), by omega, by omega⟩

theorem toUInt32_ofNat_toNat (n : UInt32) : (Int32.ofNat n.toNat).toUInt32 = n := by
  rw [Int32.toUInt32_ofNat', UInt32.ofNat_toNat]

/-- An `int` that is printed is read back. -/
theorem atoiWith_toStringInt (overflow : ℤ → Int32) (v : Int32) :
    atoiWith overflow (toStringInt v) = v := by
  have hscan : scanInt (toStringInt v) = some v.toInt := by
    rw [toStringInt]
    split_ifs with hneg
    · have hnum := Numeral.minus [] (decimal v.toInt.natAbs) [] (by simp)
        (fun _ => isDigit_of_mem_decimal) (decimal_ne_nil _) (by simp)
      have habs : -(v.toInt.natAbs : ℤ) = v.toInt := by omega
      rw [value_decimal, habs, List.append_nil] at hnum
      exact (scanInt_eq_some_iff _ _).mpr hnum
    · rw [scanInt_decimal, Int.natAbs_of_nonneg (by omega)]
  rw [atoiWith, hscan, Option.getD_some, if_pos ⟨v.le_toInt, v.toInt_lt⟩, Int32.ofInt_toInt]

/-- Every id can be a client's, since `main` does not check its argument. -/
theorem clientId_surjective (overflow : ℤ → Int32) : Function.Surjective (clientId overflow) := by
  intro id
  refine ⟨toStringInt id.toInt32, ?_⟩
  rw [clientId, atoiWith_toStringInt, UInt32.toUInt32_toInt32]

/-- What a client sends for its id is decoded to that id exactly when the id fits `int`. -/
theorem heartbeat_decoded_iff (id : UInt32) :
    (∃ v, decodeSignal (heartbeatSignal id) = .ok (v, ascii "HEARTBEAT") ∧ v.toUInt32 = id) ↔
      id.toNat < 2^31 := by
  simp only [decodeSignal_eq_ok_iff, reads_heartbeatSignal_iff, true_and]
  constructor
  · rintro ⟨v, ⟨-, hlt⟩, -⟩
    exact hlt
  · intro hlt
    exact ⟨Int32.ofNat id.toNat, ⟨Int32.toInt_ofNat_of_lt hlt, hlt⟩, toUInt32_ofNat_toNat id⟩

/-- The heartbeats of a client that was started with "-1" are out of range for the server. -/
theorem heartbeat_not_decoded : (∀ overflow, clientId overflow (ascii "-1") = 4294967295) ∧
    decodeSignal (heartbeatSignal 4294967295) = .error .outOfRange ∧
    ¬∃ v, decodeSignal (heartbeatSignal 4294967295) = .ok (v, ascii "HEARTBEAT") ∧
      v.toUInt32 = 4294967295 := by
  have herror : decodeSignal (heartbeatSignal 4294967295) = .error .outOfRange := by decide
  refine ⟨fun _ => rfl, herror, ?_⟩
  rintro ⟨v, hok, -⟩
  rw [herror] at hok
  cases hok

end SimulationCluster

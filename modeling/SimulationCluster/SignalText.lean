import SimulationCluster.Transition
import SimulationCluster.HeartbeatAcceptance

namespace SimulationCluster
open ByteText Transition

theorem intercalate_snoc_nil (sep : UInt8) {pieces : List Bytes} (h : pieces ≠ []) :
    [sep].intercalate (pieces ++ [[]]) = [sep].intercalate pieces ++ [sep] := by
  induction pieces with
  | nil => exact absurd rfl h
  | cons p pieces ih =>
    by_cases hne : pieces = []
    · subst hne
      simp
    · rw [List.cons_append, List.intercalate_cons_of_ne_nil (by simp), ih hne,
        List.intercalate_cons_of_ne_nil hne]
      simp

theorem not_mem_splitOn (sep : UInt8) (s : Bytes) : ∀ p ∈ s.splitOn sep, sep ∉ p := by
  induction s with
  | nil => simp
  | cons b s ih =>
    rw [List.splitOn_cons_eq_if_modifyHead]
    split_ifs with hb
    · simpa using ih
    · obtain ⟨q, qs, hq⟩ := List.exists_cons_of_ne_nil (List.splitOn_ne_nil sep s)
      rw [hq] at ih ⊢
      have hne : sep ≠ b := fun h => hb (by simp [h])
      simpa [hne] using ih

/-- `split_string` undoes joining with the delimiter: its pieces are the one way to write
the text as a nonempty list of pieces without the delimiter in them, with a delimiter
between any two, and with one after the last piece if the text ends with it. An empty
piece is not taken for the last of several. -/
theorem splitString_eq_iff (input : Bytes) (delim : Delimiter) (pieces : List Bytes) :
    splitString input delim = pieces ↔
      pieces ≠ [] ∧ (∀ piece ∈ pieces, delim.char ∉ piece) ∧
      (input = [delim.char].intercalate pieces ++ [delim.char] ∨
        input = [delim.char].intercalate pieces ∧
          (pieces.length = 1 ∨ pieces.getLast? ≠ some [])) := by
  obtain ⟨delim, -⟩ := delim
  dsimp only
  have hfree := not_mem_splitOn delim input
  have hne := List.splitOn_ne_nil delim input
  have hjoin : [delim].intercalate (input.splitOn delim) = input := List.intercalate_splitOn delim
  rw [splitString, tokens]
  constructor
  · rintro rfl
    generalize input.splitOn delim = l at *
    have hpos := List.length_pos_iff.mpr hne
    split_ifs with hlast
    · obtain ⟨hlen, hlast⟩ := hlast
      have hsplit := List.dropLast_append_getLast? [] hlast
      have hfront : l.dropLast ≠ [] := by
        intro hnil
        have := congrArg List.length hnil
        rw [List.length_dropLast] at this
        simp at this
        omega
      refine ⟨hfront, fun p hp => hfree p ((List.dropLast_sublist l).subset hp), .inl ?_⟩
      rw [← intercalate_snoc_nil delim hfront, hsplit, hjoin]
    · refine ⟨hne, hfree, .inr ⟨hjoin.symm, ?_⟩⟩
      rcases Nat.lt_or_ge 1 l.length with hlen | hlen
      · exact .inr fun h => hlast ⟨hlen, h⟩
      · exact .inl (by omega)
  · rintro ⟨hpieces, hpiece, rfl | ⟨rfl, hend⟩⟩
    · have hsplit : ([delim].intercalate pieces ++ [delim]).splitOn delim = pieces ++ [[]] := by
        rw [← intercalate_snoc_nil delim hpieces]
        apply List.splitOn_intercalate delim _ (by simp)
        intro p hp
        rcases List.mem_append.mp hp with hp | hp
        · exact hpiece p hp
        · obtain rfl := List.mem_singleton.mp hp
          exact List.not_mem_nil
      have hlen := List.length_pos_iff.mpr hpieces
      rw [hsplit, if_pos ⟨by simpa using hlen, by simp⟩, List.dropLast_concat]
    · rw [List.splitOn_intercalate delim hpiece hpieces]
      exact if_neg fun h => hend.elim (by omega) (absurd h.2)

/-- How the text after the first "_" makes `decode_signal` fail. -/
def FailsBy (m : Bytes) : Failure → Prop
  | .pastEnd => idField m = []
  | .invalidArgument => idField m ≠ [] ∧ ∀ z, ¬Numeral (idField m) z
  | .outOfRange => ∃ z, Numeral (idField m) z ∧ ¬(-2^31 ≤ z ∧ z < 2^31)

theorem stoi_eq_error_iff (s : Bytes) (f : Failure) :
    stoi s = .error f ↔ (f = .invalidArgument ∧ ∀ z, ¬Numeral s z) ∨
      (f = .outOfRange ∧ ∃ z, Numeral s z ∧ ¬(-2^31 ≤ z ∧ z < 2^31)) := by
  simp only [← scanInt_eq_some_iff, stoi]
  cases scanInt s with
  | none => simp [eq_comm]
  | some z =>
    by_cases hz : -2^31 ≤ z ∧ z < 2^31
    · simp only [Option.some.injEq, forall_eq', exists_eq_left', hz, and_self, ↓reduceIte,
        not_true_eq_false, and_false, or_self, reduceCtorEq]
    · simp only [Option.some.injEq, forall_eq', exists_eq_left', hz, ↓reduceIte, and_false,
        false_or, Except.error.injEq, not_false_eq_true, and_true]
      exact eq_comm

/-- The id is read from the text after the first "_" only. -/
theorem decodeSignal_eq (m : Bytes) : decodeSignal m =
    if idField m = [] then .error .pastEnd
    else (stoi ((idField m).takeWhile (· != underscore))).map
      fun id => (id, m.takeWhile (· != underscore)) := by
  by_cases hsep : underscore ∈ m
  · obtain ⟨p, rest, rfl, hp⟩ := List.eq_append_cons_of_mem hsep
    have hname : (p ++ underscore :: rest).takeWhile (· != underscore) = p :=
      takeWhile_append_of_head (bne_of_not_mem hp) (by simp)
    rw [idField_append hp, hname, decodeSignal, splitString_signalDelim, tokens_append_cons hp]
    by_cases hrest : rest = []
    · simp [hrest, bind, Except.bind]
    · have hsecond : (tokens underscore rest)[0]? = some (rest.takeWhile (· != underscore)) := by
        rw [← List.head?_eq_getElem?, head_tokens]
      simp only [if_neg hrest, List.getElem?_cons_succ, List.getElem?_cons_zero, hsecond,
        Option.elim, bind, Except.bind, pure, Except.pure]
      cases stoi (rest.takeWhile (· != underscore)) <;> rfl
  · have hfield : idField m = [] := by
      have hall : m.dropWhile (· != underscore) = [] :=
        List.dropWhile_eq_nil_iff.mpr (bne_of_not_mem hsep)
      rw [idField, hall]
      rfl
    simp [decodeSignal, splitString_signalDelim, tokens_of_not_mem hsep, hfield, bind, Except.bind]

theorem decodeSignal_eq_error_iff (m : Bytes) (f : Failure) :
    decodeSignal m = .error f ↔ FailsBy m f := by
  rw [decodeSignal_eq]
  by_cases hfield : idField m = []
  · rw [if_pos hfield]
    cases f <;> simp [FailsBy, hfield, not_numeral_nil]
  · have herror : (stoi ((idField m).takeWhile (· != underscore))).map
        (fun id => (id, m.takeWhile (· != underscore))) = .error f ↔
          stoi ((idField m).takeWhile (· != underscore)) = .error f := by
      cases stoi ((idField m).takeWhile (· != underscore)) <;> simp [Except.map]
    rw [if_neg hfield, herror, stoi_eq_error_iff]
    simp only [numeral_piece_iff]
    cases f <;> simp [FailsBy, hfield]

/-- A round fails as its message does, whatever the table and the clock. -/
theorem receiveHeartbeat_eq_error_iff (clients : ClientMap) (r : Round) (f : Failure) :
    receiveHeartbeat clients r = .error f ↔ FailsBy r.rawSignal f := by
  rw [← decodeSignal_eq_error_iff, receiveHeartbeat]
  cases decodeSignal r.rawSignal with
  | error f' => simp [bind, Except.bind]
  | ok p =>
    obtain ⟨id, name⟩ := p
    simp only [bind, Except.bind, pure, Except.pure, reduceCtorEq, iff_false]
    split_ifs <;> simp

/-- Rounds that end normally are those whose messages do not fail. -/
theorem receive_eq_ok_iff (clients : ClientMap) (rs : List Round) :
    (∃ clients', rs.foldlM receiveHeartbeat clients = .ok clients') ↔
      ∀ r ∈ rs, ∀ f, ¬FailsBy r.rawSignal f := by
  induction rs generalizing clients with
  | nil => simp [pure, Except.pure]
  | cons r rs ih =>
    rw [List.foldlM_cons, List.forall_mem_cons]
    simp only [← receiveHeartbeat_eq_error_iff clients r]
    cases receiveHeartbeat clients r with
    | error f => simp [bind, Except.bind]
    | ok t => simpa [bind, Except.bind] using ih t

/-- When the receiver ends, and how: with the first message that has nothing after its
first "_", or no numeral there, or one that does not fit `int`. The messages before it,
the table and the clock play no part. -/
theorem receiver_fate (clock : ℕ → Int64) (rs : List Round) (f : Failure) :
    rs.foldlM receiveHeartbeat (startClients clock) = .error f ↔
      ∃ pre r post, rs = pre ++ r :: post ∧ (∀ r' ∈ pre, ∀ f', ¬FailsBy r'.rawSignal f') ∧
        FailsBy r.rawSignal f := by
  rw [foldlM_eq_error_iff]
  constructor
  · rintro ⟨pre, r, post, clients, rfl, hpre, hr⟩
    exact ⟨pre, r, post, rfl, (receive_eq_ok_iff _ _).mp ⟨clients, hpre⟩,
      (receiveHeartbeat_eq_error_iff _ _ _).mp hr⟩
  · rintro ⟨pre, r, post, rfl, hpre, hr⟩
    obtain ⟨clients, hok⟩ := (receive_eq_ok_iff (startClients clock) pre).mpr hpre
    exact ⟨pre, r, post, clients, rfl, hok, (receiveHeartbeat_eq_error_iff _ _ _).mpr hr⟩

end SimulationCluster

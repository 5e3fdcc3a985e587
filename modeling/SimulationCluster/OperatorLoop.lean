import SimulationCluster.ClientThreads

/-! The command loop of the server's `main`: what the operator types and what is
published. The loop never looks at the state of `std::cin`. -/
namespace SimulationCluster
open ByteText

/-- The loop between two rounds. -/
structure Operator where
  console : Bytes                     -- typed and not yet read
  command : UInt8
  published : List Bytes := []
  inLoop : Bool := true
  deriving DecidableEq

/-- `std::cin >> command`. It skips blanks; at the end of the input it fails and
leaves `command` as it was. -/
def Operator.read (o : Operator) : Operator :=
  match o.console.dropWhile isBlank with
  | [] => { o with console := [] }
  | c :: rest => { o with console := rest, command := c }

def Operator.send (o : Operator) (message : Bytes) : Operator :=
  { o with published := o.published ++ [message] }

/-- The tests of a round on `command`. -/
def Operator.dispatch (o : Operator) : Operator :=
  if o.command = 's'.toUInt8 then o.send (ascii "start")
  else if o.command = 'c'.toUInt8 then o.send (ascii "continue")
  else if o.command = 'p'.toUInt8 then o.send (ascii "pause")
  else if o.command = 'e'.toUInt8 then { o.send (ascii "stop") with inLoop := false }
  else o

/-- One round of the loop. -/
def Operator.round (o : Operator) : Operator := o.read.dispatch

/-- The first `n` rounds, or fewer when the loop is left before. -/
def Operator.rounds : ℕ → Operator → Operator
  | 0, o => o
  | n+1, o => if o.inLoop then rounds n o.round else o

/-- What a character that is typed stands for. -/
def commandMessage (c : UInt8) : Option Bytes :=
  if c = 's'.toUInt8 then some (ascii "start")
  else if c = 'c'.toUInt8 then some (ascii "continue")
  else if c = 'p'.toUInt8 then some (ascii "pause")
  else if c = 'e'.toUInt8 then some (ascii "stop")
  else none

def typed (console : Bytes) : Bytes := console.filter fun c => !isBlank c

/-- The characters up to the first 'e', with it. -/
def throughStop : Bytes → Bytes
  | [] => []
  | c :: cs => if c = 'e'.toUInt8 then [c] else c :: throughStop cs

/-- The loop is left, and it has published what was typed. What is in `command` before
the first round is not set by the program. -/
def PublishesTyped (console : Bytes) (command : UInt8) : Prop :=
  ∃ n, (Operator.rounds n { console, command }).inLoop = false ∧
    (Operator.rounds n { console, command }).published =
      (throughStop (typed console)).filterMap commandMessage

theorem rounds_of_left {o : Operator} (h : o.inLoop = false) (n : ℕ) : o.rounds n = o := by
  cases n with
  | zero => rfl
  | succ n => rw [Operator.rounds, h, if_neg Bool.false_ne_true]

theorem rounds_add (m n : ℕ) (o : Operator) : o.rounds (m+n) = (o.rounds m).rounds n := by
  induction m generalizing o with
  | zero => rw [Nat.zero_add, Operator.rounds]
  | succ m ih =>
    rw [Nat.add_right_comm, Operator.rounds, Operator.rounds]
    split_ifs with hloop
    · exact ih o.round
    · exact (rounds_of_left (Bool.eq_false_iff.mpr hloop) n).symm

/-- Behind the blanks stands the next character, or nothing. -/
theorem dropWhile_cases (console : Bytes) :
    (console.dropWhile isBlank = [] ∧ typed console = []) ∨
    ∃ c rest, console.dropWhile isBlank = c :: rest ∧ typed console = c :: typed rest := by
  induction console with
  | nil => exact .inl ⟨rfl, rfl⟩
  | cons c cs ih =>
    rw [List.dropWhile_cons, typed]
    cases hblank : isBlank c with
    | true =>
      rw [if_pos rfl, List.filter_cons_of_neg (by simp [hblank])]
      exact ih
    | false =>
      rw [if_neg Bool.false_ne_true, List.filter_cons_of_pos (by simp [hblank])]
      exact .inr ⟨c, cs, rfl, rfl⟩

theorem read_of_typed {o : Operator} {c : UInt8} {cs : Bytes} (h : typed o.console = c :: cs) :
    ∃ rest, o.read = { o with console := rest, command := c } ∧ typed rest = cs := by
  rcases dropWhile_cases o.console with ⟨-, htyped⟩ | ⟨b, rest, hdrop, htyped⟩
  · cases htyped.symm.trans h
  · obtain ⟨rfl, hrest⟩ := List.cons.inj (htyped.symm.trans h)
    exact ⟨rest, by rw [Operator.read, hdrop], hrest⟩

theorem read_of_exhausted {o : Operator} (h : typed o.console = []) :
    o.read = { o with console := [] } := by
  rcases dropWhile_cases o.console with ⟨hdrop, -⟩ | ⟨b, rest, -, htyped⟩
  · rw [Operator.read, hdrop]
  · cases htyped.symm.trans h

@[simp] theorem dispatch_console (o : Operator) : o.dispatch.console = o.console := by
  unfold Operator.dispatch
  split_ifs <;> rfl

@[simp] theorem dispatch_command (o : Operator) : o.dispatch.command = o.command := by
  unfold Operator.dispatch
  split_ifs <;> rfl

@[simp] theorem dispatch_published (o : Operator) :
    o.dispatch.published = o.published ++ (commandMessage o.command).toList := by
  unfold Operator.dispatch commandMessage
  split_ifs
  case neg => exact (List.append_nil _).symm
  all_goals rfl

@[simp] theorem dispatch_inLoop (o : Operator) :
    o.dispatch.inLoop = (o.inLoop && o.command != 'e'.toUInt8) := by
  unfold Operator.dispatch
  split_ifs with hs hc hp he
  case neg => rw [bne_iff_ne.mpr he, Bool.and_true]
  all_goals simp +decide [Operator.send, *]

theorem round_of_typed {o : Operator} {c : UInt8} {cs : Bytes} (h : typed o.console = c :: cs) :
    typed o.round.console = cs ∧ o.round.command = c ∧
      o.round.published = o.published ++ (commandMessage c).toList ∧
      o.round.inLoop = (o.inLoop && c != 'e'.toUInt8) := by
  obtain ⟨rest, hread, hrest⟩ := read_of_typed h
  simp [Operator.round, hread, hrest]

/-- A round that gets none is made for the character of the round before. -/
theorem round_of_exhausted {o : Operator} (h : typed o.console = []) :
    typed o.round.console = [] ∧ o.round.command = o.command ∧
      o.round.published = o.published ++ (commandMessage o.command).toList ∧
      o.round.inLoop = (o.inLoop && o.command != 'e'.toUInt8) := by
  rw [Operator.round, read_of_exhausted h]
  simp [typed]

/-- The rounds that read `cs`, none of it an 'e', take `o` to `o'` and leave `rest`. -/
structure HasRead (o o' : Operator) (cs rest : Bytes) : Prop where
  console : typed o'.console = rest
  command : o'.command = cs.getLastD o.command
  published : o'.published = o.published ++ cs.filterMap commandMessage
  inLoop : o'.inLoop = true

theorem hasRead_rounds {o : Operator} {cs rest : Bytes} (h : typed o.console = cs ++ rest)
    (hstop : 'e'.toUInt8 ∉ cs) (hloop : o.inLoop = true) :
    HasRead o (o.rounds cs.length) cs rest := by
  induction cs generalizing o with
  | nil => exact ⟨h, rfl, (List.append_nil _).symm, hloop⟩
  | cons c cs ih =>
    obtain ⟨hconsole, hcommand, hpublished, hnext⟩ := round_of_typed h
    have hc : c ≠ 'e'.toUInt8 := fun hc => hstop (hc ▸ List.mem_cons_self)
    have hround : o.round.inLoop = true := by rw [hnext, hloop, bne_iff_ne.mpr hc]; rfl
    have hrec := ih hconsole (fun he => hstop (List.mem_cons_of_mem c he)) hround
    rw [List.length_cons, Operator.rounds, if_pos hloop]
    refine ⟨hrec.console, ?_, ?_, hrec.inLoop⟩
    · rw [hrec.command, hcommand]
      cases cs <;> rfl
    · rw [hrec.published, hpublished, List.append_assoc]
      cases hm : commandMessage c <;> simp [hm]

/-- Rounds after the end of the input publish the last command again and again. -/
theorem rounds_of_exhausted {o : Operator} (h : typed o.console = []) (hloop : o.inLoop = true)
    (hc : o.command ≠ 'e'.toUInt8) (n : ℕ) :
    (o.rounds n).inLoop = true ∧ (o.rounds n).published =
      o.published ++ (List.replicate n (commandMessage o.command).toList).flatten := by
  induction n generalizing o with
  | zero => exact ⟨hloop, (List.append_nil _).symm⟩
  | succ n ih =>
    obtain ⟨hconsole, hcommand, hpublished, hnext⟩ := round_of_exhausted h
    have hround : o.round.inLoop = true := by rw [hnext, hloop, bne_iff_ne.mpr hc]; rfl
    obtain ⟨hin, hpub⟩ := ih hconsole hround (by rwa [hcommand])
    rw [Operator.rounds, if_pos hloop]
    refine ⟨hin, ?_⟩
    rw [hpub, hpublished, hcommand, List.append_assoc, List.replicate_succ, List.flatten_cons]

theorem throughStop_append {cs : Bytes} (h : 'e'.toUInt8 ∉ cs) (rest : Bytes) :
    throughStop (cs ++ 'e'.toUInt8 :: rest) = cs ++ ['e'.toUInt8] := by
  induction cs with
  | nil => rw [List.nil_append, throughStop, if_pos rfl, List.nil_append]
  | cons c cs ih =>
    obtain ⟨hc, hcs⟩ := List.ne_and_not_mem_of_not_mem_cons h
    rw [List.cons_append, throughStop, if_neg (Ne.symm hc), ih hcs, List.cons_append]

theorem throughStop_of_not_mem {cs : Bytes} (h : 'e'.toUInt8 ∉ cs) : throughStop cs = cs := by
  induction cs with
  | nil => rfl
  | cons c cs ih =>
    obtain ⟨hc, hcs⟩ := List.ne_and_not_mem_of_not_mem_cons h
    rw [throughStop, if_neg (Ne.symm hc), ih hcs]

theorem mem_typed_iff {c : UInt8} (hc : isBlank c = false) (console : Bytes) :
    c ∈ typed console ↔ c ∈ console := by
  simp [typed, hc]

/-- A stop that is typed is published, and the loop is left. -/
theorem published_of_stop {console : Bytes} (h : 'e'.toUInt8 ∈ console) (command : UInt8) :
    PublishesTyped console command := by
  have hmem : 'e'.toUInt8 ∈ typed console := (mem_typed_iff (by decide) console).mpr h
  obtain ⟨cs, rest, hsplit, hcs⟩ := List.eq_append_cons_of_mem hmem
  have hread := hasRead_rounds (o := { console, command }) hsplit hcs rfl
  have hstop := round_of_typed hread.console
  refine ⟨cs.length+1, ?_⟩
  rw [rounds_add, Operator.rounds, if_pos hread.inLoop]
  refine ⟨?_, ?_⟩
  · rw [Operator.rounds, hstop.2.2.2, hread.inLoop]
    decide
  · rw [Operator.rounds, hstop.2.2.1, hread.published, hsplit, throughStop_append hcs,
      List.filterMap_append]
    rfl

/-- What the loop does without a stop: it goes on for ever, and after the input every
round publishes the last command once more. -/
theorem published_without_stop {console : Bytes} {command : UInt8} (h : 'e'.toUInt8 ∉ console)
    (hc : (typed console).getLastD command ≠ 'e'.toUInt8) (n : ℕ) :
    (Operator.rounds ((typed console).length+n) { console, command }).inLoop = true ∧
    (Operator.rounds ((typed console).length+n) { console, command }).published =
      (throughStop (typed console)).filterMap commandMessage ++
        (List.replicate n (commandMessage ((typed console).getLastD command)).toList).flatten := by
  have hmem : 'e'.toUInt8 ∉ typed console := fun he => h ((mem_typed_iff (by decide) console).mp he)
  have hread := hasRead_rounds (o := { console, command }) (List.append_nil _).symm hmem rfl
  have hend := rounds_of_exhausted hread.console hread.inLoop (by rwa [hread.command]) n
  rw [rounds_add]
  refine ⟨hend.1, ?_⟩
  rw [hend.2, hread.published, hread.command, throughStop_of_not_mem hmem]
  rfl

/-- With nothing typed and an 'e' in `command` from the start, a stop is published
that nobody typed. -/
theorem not_publishesTyped_of_blank {console : Bytes} (h : typed console = []) :
    ¬PublishesTyped console 'e'.toUInt8 := by
  rintro ⟨n, hleft, hpub⟩
  cases n with
  | zero => cases hleft
  | succ n =>
    have hround := round_of_exhausted (o := { console, command := 'e'.toUInt8 }) h
    rw [Operator.rounds, if_pos rfl, rounds_of_left (by rw [hround.2.2.2]; rfl), hround.2.2.1, h] at hpub
    change [ascii "stop"] = [] at hpub
    cases hpub

theorem getLastD_ne {cs : Bytes} {c : UInt8} (hne : cs ≠ []) (h : c ∉ cs) (d : UInt8) :
    cs.getLastD d ≠ c := by
  obtain ⟨b, bs, rfl⟩ := List.exists_cons_of_ne_nil hne
  have hlast : (b :: bs).getLastD d ∈ b :: bs := List.getLast_mem (List.cons_ne_nil b bs)
  exact fun hc => h (hc ▸ hlast)

theorem not_publishesTyped {console : Bytes} {command : UInt8} (h : 'e'.toUInt8 ∉ console) :
    ¬PublishesTyped console command := by
  intro hp
  have hmem : 'e'.toUInt8 ∉ typed console := fun he => h ((mem_typed_iff (by decide) console).mp he)
  by_cases hc : (typed console).getLastD command = 'e'.toUInt8
  · have hblank : typed console = [] := by
      by_contra hne
      exact getLastD_ne hne hmem command hc
    rw [hblank] at hc
    obtain rfl : command = 'e'.toUInt8 := hc
    exact not_publishesTyped_of_blank hblank hp
  · obtain ⟨n, hleft, -⟩ := hp
    have hgoes := (published_without_stop h hc n).1
    rw [Nat.add_comm, rounds_add, rounds_of_left hleft, hleft] at hgoes
    exact Bool.false_ne_true hgoes

/-- The loop publishes what was typed, and ends, exactly when a stop is typed. -/
theorem publishes_typed_iff (console : Bytes) (command : UInt8) :
    PublishesTyped console command ↔ 'e'.toUInt8 ∈ console := by
  constructor
  · intro hp
    by_contra h
    exact not_publishesTyped h hp
  · exact fun h => published_of_stop h command

example : Operator.rounds 9 { console := ascii " s p\nce s", command := 0 } =
    ⟨ascii " s", 101, [ascii "start", ascii "pause", ascii "continue", ascii "stop"], false⟩ := by
  decide

/-- "s" and the end of the input: the start is published in every round. -/
theorem start_published_again :
    (Operator.rounds 3 { console := ascii "s", command := 0 }).published =
      [ascii "start", ascii "start", ascii "start"] ∧
    (throughStop (typed (ascii "s"))).filterMap commandMessage = [ascii "start"] ∧
    ¬PublishesTyped (ascii "s") 0 :=
  ⟨by decide, by decide, not_publishesTyped (by decide)⟩

theorem listenFromServer_commandMessage {c : UInt8} {m : Bytes} (h : commandMessage c = some m) :
    listenFromServer m ≠ .kUnknow := by
  unfold commandMessage at h
  split_ifs at h
  all_goals
    obtain rfl := Option.some.inj h
    decide

@[simp] theorem read_published (o : Operator) : o.read.published = o.published := by
  unfold Operator.read
  split <;> rfl

/-- Clients know every command that is published. -/
theorem published_known (console : Bytes) (command : UInt8) (n : ℕ) :
    ∀ m ∈ (Operator.rounds n { console, command }).published, listenFromServer m ≠ .kUnknow := by
  have hrounds (n : ℕ) (o : Operator) (ho : ∀ m ∈ o.published, listenFromServer m ≠ .kUnknow) :
      ∀ m ∈ (o.rounds n).published, listenFromServer m ≠ .kUnknow := by
    induction n generalizing o with
    | zero => exact ho
    | succ n ih =>
      rw [Operator.rounds]
      split_ifs
      · apply ih
        intro m hm
        rw [Operator.round, dispatch_published, read_published] at hm
        rcases List.mem_append.mp hm with hm | hm
        · exact ho m hm
        · exact listenFromServer_commandMessage (Option.mem_toList.mp hm)
      · exact ho
  exact hrounds n _ nofun

@[simp] theorem read_inLoop (o : Operator) : o.read.inLoop = o.inLoop := by
  unfold Operator.read
  split <;> rfl

theorem round_published (o : Operator) :
    o.round.published = o.published ++ (commandMessage o.read.command).toList := by
  rw [Operator.round, dispatch_published, read_published]

theorem round_inLoop (o : Operator) :
    o.round.inLoop = (o.inLoop && o.read.command != 'e'.toUInt8) := by
  rw [Operator.round, dispatch_inLoop, read_inLoop]

theorem commandMessage_stop_iff (c : UInt8) :
    commandMessage c = some (ascii "stop") ↔ c = 'e'.toUInt8 := by
  constructor
  · intro h
    unfold commandMessage at h
    split_ifs at h with h1 h2 h3 h4
    · exact absurd (Option.some.inj h) (by decide)
    · exact absurd (Option.some.inj h) (by decide)
    · exact absurd (Option.some.inj h) (by decide)
    · exact h4
  · rintro rfl
    decide

/-- A stop is published once, as the last command, and then the loop is left. -/
structure Operator.StopLast (o : Operator) : Prop where
  inLoop : o.inLoop = true → ascii "stop" ∉ o.published
  left : o.inLoop = false → ∃ front, o.published = front ++ [ascii "stop"] ∧ ascii "stop" ∉ front

theorem stopLast_round {o : Operator} (ho : o.StopLast) (h : o.inLoop = true) :
    o.round.StopLast := by
  have hold := ho.inLoop h
  by_cases he : o.read.command = 'e'.toUInt8
  · have hm := (commandMessage_stop_iff _).mpr he
    have hnext : o.round.inLoop = false := by rw [round_inLoop, he, h]; rfl
    refine ⟨fun hin => absurd (hnext.symm.trans hin) Bool.false_ne_true, fun _ => ?_⟩
    exact ⟨o.published, by rw [round_published, hm]; rfl, hold⟩
  · have hm : commandMessage o.read.command ≠ some (ascii "stop") :=
      fun hm => he ((commandMessage_stop_iff _).mp hm)
    have hnext : o.round.inLoop = true := by rw [round_inLoop, h, bne_iff_ne.mpr he]; rfl
    refine ⟨fun _ => ?_, fun hout => absurd (hnext.symm.trans hout) (by decide)⟩
    rw [round_published, List.mem_append, not_or]
    exact ⟨hold, fun hin => hm (Option.mem_toList.mp hin)⟩

theorem published_extends (m n : ℕ) (o : Operator) :
    (o.rounds m).published <+: (o.rounds (m+n)).published := by
  rw [rounds_add]
  generalize o.rounds m = o
  induction n generalizing o with
  | zero => exact List.prefix_rfl
  | succ n ih =>
    rw [Operator.rounds]
    split_ifs
    · apply List.IsPrefix.trans _ (ih o.round)
      rw [round_published]
      exact List.prefix_append _ _
    · exact List.prefix_rfl

end SimulationCluster

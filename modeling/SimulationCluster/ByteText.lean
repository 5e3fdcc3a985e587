import Mathlib.Data.List.Basic
import Mathlib.Data.List.TakeWhile
import Mathlib.Data.List.Induction
import Mathlib.Data.Int.Notation
import Mathlib.Tactic.Ring
import Mathlib.Tactic.Linarith
import Mathlib.Tactic.IntervalCases

namespace ByteText

abbrev Bytes := List UInt8

/-- The bytes of an ASCII literal. -/
def ascii (s : String) : Bytes := s.toList.map fun c => UInt8.ofNat c.toNat

def isDigit (b : UInt8) : Bool := 48 ≤ b && b ≤ 57

/-- The blanks of the "C" locale: space, `\t`, `\n`, `\v`, `\f` and `\r`. -/
def isBlank (b : UInt8) : Bool := b == 32 || (9 ≤ b && b ≤ 13)

def isSign (b : UInt8) : Bool := b == 43 || b == 45

theorem not_blank_of_digit {b : UInt8} (h : isDigit b = true) : isBlank b = false := by
  simp only [isDigit, isBlank, Bool.and_eq_true, decide_eq_true_eq, UInt8.le_iff_toNat_le,
    Bool.or_eq_false_iff, beq_eq_false_iff_ne, ne_eq, ← UInt8.toNat_inj, Bool.and_eq_false_iff,
    decide_eq_false_iff_not, UInt8.reduceToNat] at *
  omega

theorem not_sign_of_digit {b : UInt8} (h : isDigit b = true) : isSign b = false := by
  simp only [isDigit, isSign, Bool.and_eq_true, decide_eq_true_eq, UInt8.le_iff_toNat_le,
    Bool.or_eq_false_iff, beq_eq_false_iff_ne, ne_eq, ← UInt8.toNat_inj, UInt8.reduceToNat] at *
  omega

/-- The value of a run of digits, most significant first. -/
def value (ds : Bytes) : ℕ := ds.foldl (fun n b => 10*n + (b.toNat-48)) 0

/-- The canonical decimal numeral of a natural number. -/
def decimal (n : ℕ) : Bytes := (Nat.toDigits 10 n).map fun c => UInt8.ofNat c.toNat

theorem toNat_of_isDigit {c : Char} (h : c.isDigit = true) : (UInt8.ofNat c.toNat).toNat =
    c.toNat := by
  simp only [Char.isDigit, Bool.and_eq_true, decide_eq_true_eq] at h
  have hle : c.toNat ≤ 57 := h.2
  simp only [UInt8.toNat_ofNat']
  omega

theorem isDigit_of_mem_decimal {n : ℕ} {b : UInt8} (h : b ∈ decimal n) : isDigit b = true := by
  obtain ⟨c, hc, rfl⟩ := List.mem_map.mp h
  have hd := Nat.isDigit_of_mem_toDigits (by decide) (by decide) hc
  have ht := toNat_of_isDigit hd
  simp only [Char.isDigit, Bool.and_eq_true, decide_eq_true_eq] at hd
  have h1 : 48 ≤ c.toNat := hd.1
  have h2 : c.toNat ≤ 57 := hd.2
  simp only [isDigit, Bool.and_eq_true, decide_eq_true_eq, UInt8.le_iff_toNat_le, ht]
  exact ⟨h1, h2⟩

theorem decimal_ne_nil (n : ℕ) : decimal n ≠ [] := by
  simp [decimal, Nat.toDigits_ne_nil]

theorem value_decimal (n : ℕ) : value (decimal n) = n := by
  have hfold (cs : List Char) (h : ∀ c ∈ cs, c.isDigit = true) (m : ℕ) :
      (cs.map fun c => UInt8.ofNat c.toNat).foldl (fun n b => 10*n + (b.toNat-48)) m =
        Nat.ofDigitChars 10 cs m := by
    induction cs generalizing m with
    | nil => rfl
    | cons c cs ih =>
      rw [List.map_cons, List.foldl_cons, Nat.ofDigitChars_cons,
        toNat_of_isDigit (h c List.mem_cons_self)]
      exact ih (fun c' hc' => h c' (List.mem_cons_of_mem c hc')) _
  rw [value, decimal, hfold _ (fun c => Nat.isDigit_of_mem_toDigits (by decide) (by decide))]
  exact Nat.ofDigitChars_ten_toDigits

theorem decimal_injective : Function.Injective decimal := by
  intro m n h
  rw [← value_decimal m, h, value_decimal]

theorem decimal_of_lt {n : ℕ} (h : n < 10) : decimal n = [UInt8.ofNat (48+n)] := by
  rw [decimal, Nat.toDigits_of_lt_base h]
  interval_cases n <;> rfl

theorem decimal_snoc {n d : ℕ} (hn : 0 < n) (hd : d < 10) :
    decimal (10*n+d) = decimal n ++ [UInt8.ofNat (48+d)] := by
  rw [← decimal_of_lt hd, decimal, ← Nat.toDigits_append_toDigits (by decide) hn hd, List.map_append]
  rfl

theorem head_decimal_ne_zero {n : ℕ} (h : 0 < n) : (decimal n).head? ≠ some 48 := by
  induction n using Nat.strong_induction_on with
  | _ n ih =>
    by_cases h10 : n < 10
    · rw [decimal_of_lt h10]
      interval_cases n <;> decide
    · have hdiv : n = 10*(n/10)+n%10 := by omega
      rw [hdiv, decimal_snoc (by omega) (by omega),
        List.head?_append_of_ne_nil _ (decimal_ne_nil _)]
      exact ih (n/10) (by omega) (by omega)

/-- Digits only, at least one, and no zero in front of another digit. -/
structure IsDecimal (ds : Bytes) : Prop where
  ne_nil : ds ≠ []
  digits : ∀ b ∈ ds, isDigit b = true
  zero : ds.head? = some 48 → ds.length = 1

theorem isDecimal_decimal (n : ℕ) : IsDecimal (decimal n) where
  ne_nil := decimal_ne_nil n
  digits _ := isDigit_of_mem_decimal
  zero h := by
    rcases Nat.eq_zero_or_pos n with rfl | hn
    · rfl
    · exact absurd h (head_decimal_ne_zero hn)

theorem decimal_value {ds : Bytes} (h : IsDecimal ds) : decimal (value ds) = ds := by
  induction ds using List.reverseRecOn with
  | nil => exact absurd rfl h.ne_nil
  | append_singleton ds b ih =>
    have hb := h.digits b (List.mem_append_right ds List.mem_cons_self)
    simp only [isDigit, Bool.and_eq_true, decide_eq_true_eq, UInt8.le_iff_toNat_le,
      UInt8.reduceToNat] at hb
    have hdigit : UInt8.ofNat (48+(b.toNat-48)) = b := by
      rw [Nat.add_sub_cancel' hb.1, UInt8.ofNat_toNat]
    have hvalue : value (ds ++ [b]) = 10*value ds+(b.toNat-48) := by
      rw [value, List.foldl_append]
      rfl
    rw [hvalue]
    by_cases hne : ds = []
    · subst hne
      rw [value, List.foldl_nil, Nat.mul_zero, Nat.zero_add, decimal_of_lt (by omega), hdigit]
      rfl
    have hhead : (ds ++ [b]).head? = ds.head? := List.head?_append_of_ne_nil _ hne
    have hlong : (ds ++ [b]).length ≠ 1 := by
      have := List.length_pos_iff.mpr hne
      simp only [List.length_append, List.length_singleton]
      omega
    have hfirst : ds.head? ≠ some 48 := fun h48 => hlong (h.zero (hhead.trans h48))
    have hds : decimal (value ds) = ds :=
      ih ⟨hne, fun c hc => h.digits c (List.mem_append_left [b] hc), fun h48 => absurd h48 hfirst⟩
    have hpos : 0 < value ds := by
      apply Nat.pos_of_ne_zero
      intro hzero
      rw [hzero] at hds
      exact hfirst (by rw [← hds]; rfl)
    rw [decimal_snoc hpos (by omega), hds, hdigit]

/-- The sign a number parser accepts in front of the digits. -/
def splitSign : Bytes → ℤ × Bytes
  | [] => (1, [])
  | b :: s => if b = 45 then (-1, s) else if b = 43 then (1, s) else (1, b :: s)

/-- The integer at the head of a text: blanks, at most one sign, then a longest
run of digits. `none` when there is no digit there. -/
def scanInt (s : Bytes) : Option ℤ :=
  let t := splitSign (s.dropWhile isBlank)
  let ds := t.2.takeWhile isDigit
  if ds = [] then none else some (t.1 * value ds)

/-- `s` begins with an integer numeral for `z`: blanks, an optional sign,
at least one digit, and then anything that is not a digit. -/
inductive Numeral : Bytes → ℤ → Prop
  | plain (ws ds rest : Bytes) (hws : ∀ b ∈ ws, isBlank b = true)
      (hds : ∀ b ∈ ds, isDigit b = true) (hne : ds ≠ [])
      (hrest : ∀ b ∈ rest.head?, isDigit b = false) :
      Numeral (ws ++ (ds ++ rest)) (value ds)
  | plus (ws ds rest : Bytes) (hws : ∀ b ∈ ws, isBlank b = true)
      (hds : ∀ b ∈ ds, isDigit b = true) (hne : ds ≠ [])
      (hrest : ∀ b ∈ rest.head?, isDigit b = false) :
      Numeral (ws ++ 43 :: (ds ++ rest)) (value ds)
  | minus (ws ds rest : Bytes) (hws : ∀ b ∈ ws, isBlank b = true)
      (hds : ∀ b ∈ ds, isDigit b = true) (hne : ds ≠ [])
      (hrest : ∀ b ∈ rest.head?, isDigit b = false) :
      Numeral (ws ++ 45 :: (ds ++ rest)) (-value ds)

theorem takeWhile_append_of_head {p : UInt8 → Bool} {ds rest : Bytes}
    (hds : ∀ b ∈ ds, p b = true) (hrest : ∀ b ∈ rest.head?, p b = false) :
    (ds ++ rest).takeWhile p = ds := by
  rw [List.takeWhile_append_of_pos hds]
  cases rest with
  | nil => simp
  | cons b rest => simp [hrest b rfl]

theorem dropWhile_append_of_head {p : UInt8 → Bool} {ws rest : Bytes}
    (hws : ∀ b ∈ ws, p b = true) (hrest : ∀ b ∈ rest.head?, p b = false) :
    (ws ++ rest).dropWhile p = rest := by
  rw [List.dropWhile_append_of_pos hws]
  cases rest with
  | nil => rfl
  | cons b rest => simp [hrest b rfl]

theorem head_dropWhile (p : UInt8 → Bool) (s : Bytes) :
    ∀ b ∈ (s.dropWhile p).head?, p b = false := by
  intro b hb
  have h := List.head?_dropWhile_not p s
  rw [Option.mem_def.mp hb] at h
  exact h

theorem splitSign_digits {ds rest : Bytes} (hds : ∀ b ∈ ds, isDigit b = true) (hne : ds ≠ []) :
    splitSign (ds ++ rest) = (1, ds ++ rest) := by
  obtain ⟨b, ds, rfl⟩ := List.exists_cons_of_ne_nil hne
  have hs := not_sign_of_digit (hds b List.mem_cons_self)
  simp only [isSign, Bool.or_eq_false_iff, beq_eq_false_iff_ne] at hs
  simp only [List.cons_append, splitSign, hs.1, hs.2, ↓reduceIte]

/-- The scan accepts exactly the texts that begin with a numeral. -/
theorem scanInt_eq_some_iff (s : Bytes) (z : ℤ) : scanInt s = some z ↔ Numeral s z := by
  constructor
  · intro h
    let ws := s.takeWhile isBlank
    let u := s.dropWhile isBlank
    have hs : s = ws ++ u := (List.takeWhile_append_dropWhile).symm
    have hws : ∀ b ∈ ws, isBlank b = true := fun b hb => List.mem_takeWhile_imp hb
    let t := (splitSign u).2
    let ds := t.takeWhile isDigit
    have ht : t = ds ++ t.dropWhile isDigit := (List.takeWhile_append_dropWhile).symm
    have hds : ∀ b ∈ ds, isDigit b = true := fun b hb => List.mem_takeWhile_imp hb
    have hrest := head_dropWhile isDigit t
    have hscan : (if ds = [] then none else some ((splitSign u).1 * (value ds : ℤ))) = some z := h
    by_cases hne : ds = []
    · simp [hne] at hscan
    rw [if_neg hne, Option.some.injEq] at hscan
    rw [hs]
    match hu : u with
    | [] =>
      have : t = [] := by simp only [t, hu, splitSign]
      exact absurd (by simp [ds, this]) hne
    | b :: v =>
      simp only [splitSign] at hscan
      by_cases hminus : b = 45
      · have htv : t = v := by simp only [t, hu, splitSign, hminus, ↓reduceIte]
        rw [if_pos hminus, neg_one_mul] at hscan
        subst hscan
        rw [hminus, ← htv, ht]
        exact .minus ws ds _ hws hds hne hrest
      by_cases hplus : b = 43
      · have htv : t = v := by simp only [t, hu, splitSign, hplus]; rfl
        rw [if_neg hminus, if_pos hplus, one_mul] at hscan
        subst hscan
        rw [hplus, ← htv, ht]
        exact .plus ws ds _ hws hds hne hrest
      · have htv : t = b :: v := by simp only [t, hu, splitSign, hminus, hplus, ↓reduceIte]
        rw [if_neg hminus, if_neg hplus, one_mul] at hscan
        subst hscan
        rw [← htv, ht]
        exact .plain ws ds _ hws hds hne hrest
  · intro h
    cases h with
    | plain ws ds rest hws hds hne hrest =>
      have hhead : ∀ b ∈ (ds ++ rest).head?, isBlank b = false := by
        obtain ⟨d, ds, rfl⟩ := List.exists_cons_of_ne_nil hne
        intro b hb
        obtain rfl : d = b := by simpa using hb
        exact not_blank_of_digit (hds d List.mem_cons_self)
      rw [scanInt, dropWhile_append_of_head hws hhead, splitSign_digits hds hne]
      simp only [takeWhile_append_of_head hds hrest, hne, ↓reduceIte, one_mul]
    | plus ws ds rest hws hds hne hrest =>
      rw [scanInt, dropWhile_append_of_head hws (by simp; decide)]
      simp only [splitSign, takeWhile_append_of_head hds hrest, hne, ↓reduceIte, one_mul,
        show (43 : UInt8) ≠ 45 by decide]
    | minus ws ds rest hws hds hne hrest =>
      rw [scanInt, dropWhile_append_of_head hws (by simp; decide)]
      simp only [splitSign, takeWhile_append_of_head hds hrest, hne, ↓reduceIte, neg_one_mul]

theorem scanInt_decimal (n : ℕ) : scanInt (decimal n) = some (n : ℤ) := by
  have h := Numeral.plain [] (decimal n) [] (by simp) (fun _ => isDigit_of_mem_decimal)
    (decimal_ne_nil n) (by simp)
  rw [value_decimal, List.nil_append, List.append_nil] at h
  exact (scanInt_eq_some_iff _ _).mpr h

/-- A numeral stays one when a text is appended that does not go on with a digit. -/
theorem Numeral.append {s t : Bytes} {z : ℤ} (h : Numeral s z)
    (ht : ∀ b ∈ t.head?, isDigit b = false) : Numeral (s ++ t) z := by
  have hhead {rest : Bytes} (hrest : ∀ b ∈ rest.head?, isDigit b = false) :
      ∀ b ∈ (rest ++ t).head?, isDigit b = false := by
    cases rest with
    | nil => exact ht
    | cons b rest => exact hrest
  cases h with
  | plain ws ds rest hws hds hne hrest =>
    rw [List.append_assoc, List.append_assoc]
    exact .plain ws ds (rest ++ t) hws hds hne (hhead hrest)
  | plus ws ds rest hws hds hne hrest =>
    rw [List.append_assoc, List.cons_append, List.append_assoc]
    exact .plus ws ds (rest ++ t) hws hds hne (hhead hrest)
  | minus ws ds rest hws hds hne hrest =>
    rw [List.append_assoc, List.cons_append, List.append_assoc]
    exact .minus ws ds (rest ++ t) hws hds hne (hhead hrest)

/-- A numeral is found in front of any separator that cannot be part of one. -/
theorem Numeral.takeWhile {s : Bytes} {z : ℤ} {p : UInt8 → Bool} (h : Numeral s z)
    (hblank : ∀ b, isBlank b = true → p b = true) (hdigit : ∀ b, isDigit b = true → p b = true)
    (hsign : ∀ b, isSign b = true → p b = true) : Numeral (s.takeWhile p) z := by
  have hhead {rest : Bytes} (hrest : ∀ b ∈ rest.head?, isDigit b = false) :
      ∀ b ∈ (rest.takeWhile p).head?, isDigit b = false := by
    intro b hb
    cases rest with
    | nil => cases hb
    | cons c rest =>
      simp only [List.takeWhile_cons] at hb
      split_ifs at hb
      · exact hrest b hb
      · cases hb
  have htake {ds : Bytes} (rest : Bytes) (hds : ∀ b ∈ ds, isDigit b = true) :
      (ds ++ rest).takeWhile p = ds ++ rest.takeWhile p :=
    List.takeWhile_append_of_pos fun b hb => hdigit b (hds b hb)
  cases h with
  | plain ws ds rest hws hds hne hrest =>
    rw [List.takeWhile_append_of_pos fun b hb => hblank b (hws b hb), htake rest hds]
    exact .plain ws ds _ hws hds hne (hhead hrest)
  | plus ws ds rest hws hds hne hrest =>
    rw [List.takeWhile_append_of_pos fun b hb => hblank b (hws b hb), List.takeWhile_cons,
      if_pos (hsign 43 rfl), htake rest hds]
    exact .plus ws ds _ hws hds hne (hhead hrest)
  | minus ws ds rest hws hds hne hrest =>
    rw [List.takeWhile_append_of_pos fun b hb => hblank b (hws b hb), List.takeWhile_cons,
      if_pos (hsign 45 rfl), htake rest hds]
    exact .minus ws ds _ hws hds hne (hhead hrest)

theorem bne_of_not_mem {sep : UInt8} {p : Bytes} (h : sep ∉ p) : ∀ b ∈ p, (b != sep) = true := by
  intro b hb
  exact bne_iff_ne.mpr fun hsep => h (hsep ▸ hb)

theorem append_cons_inj {sep : UInt8} {p q s t : Bytes} (hp : sep ∉ p) (hq : sep ∉ q)
    (h : p ++ sep :: s = q ++ sep :: t) : p = q ∧ s = t := by
  have hfirst {p : Bytes} (s : Bytes) (hp : sep ∉ p) :
      (p ++ sep :: s).takeWhile (· != sep) = p :=
    takeWhile_append_of_head (bne_of_not_mem hp) (by simp)
  obtain rfl : p = q := by rw [← hfirst s hp, h, hfirst t hq]
  exact ⟨rfl, (List.cons.inj (List.append_cancel_left h)).2⟩

/-- The texts between the occurrences of a separator. An empty one after the last
occurrence is left out. -/
def tokens (sep : UInt8) (s : Bytes) : List Bytes :=
  let pieces := s.splitOn sep
  if 1 < pieces.length ∧ pieces.getLast? = some [] then pieces.dropLast else pieces

theorem tokens_of_not_mem {sep : UInt8} {s : Bytes} (h : sep ∉ s) : tokens sep s = [s] := by
  simp [tokens, List.splitOn_eq_singleton h]

/-- The tokens of a text, from its first separator on. -/
theorem tokens_append_cons {sep : UInt8} {p : Bytes} (h : sep ∉ p) (rest : Bytes) :
    tokens sep (p ++ sep :: rest) = p :: if rest = [] then [] else tokens sep rest := by
  by_cases hrest : rest = []
  · subst hrest
    simp [tokens, List.splitOn_append_cons_self_of_not_mem h]
  by_cases hsep : sep ∈ rest
  · obtain ⟨q, rest', rfl, hq⟩ := List.eq_append_cons_of_mem hsep
    have hne' := List.splitOn_ne_nil sep rest'
    simp only [tokens, List.splitOn_append_cons_self_of_not_mem h,
      List.splitOn_append_cons_self_of_not_mem hq, hrest, ↓reduceIte]
    obtain ⟨r, rs, hrs⟩ := List.exists_cons_of_ne_nil hne'
    simp only [hrs, List.length_cons, List.getLast?_cons_cons]
    split_ifs with h1 h2 h2
    · rfl
    · exact absurd ⟨by omega, h1.2⟩ h2
    · exact absurd ⟨by omega, h2.2⟩ h1
    · rfl
  · simp [tokens, List.splitOn_append_cons_self_of_not_mem h, List.splitOn_eq_singleton hsep, hrest]

theorem head_tokens (sep : UInt8) (s : Bytes) :
    (tokens sep s).head? = some (s.takeWhile (· != sep)) := by
  by_cases hsep : sep ∈ s
  · obtain ⟨p, rest, rfl, hp⟩ := List.eq_append_cons_of_mem hsep
    rw [tokens_append_cons hp, List.takeWhile_append_of_pos (bne_of_not_mem hp)]
    simp
  · rw [tokens_of_not_mem hsep, List.takeWhile_eq_self_iff.mpr (bne_of_not_mem hsep)]
    rfl

end ByteText

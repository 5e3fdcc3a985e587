import Mathlib.Logic.Function.Basic
import Mathlib.Data.Nat.Notation

/-! Items 0, 1, 2, … that are handed out in order and then move between places. A
ledger has every item handed out so far in one place; a system is compared with
it by counting the copies of each item at each place. -/

structure Ledger (π : Type*) where
  handed : ℕ
  place : ℕ → Option π
  placed : ∀ n, (place n).isSome ↔ n < handed

namespace Ledger

variable {π : Type*}

def empty : Ledger π where
  handed := 0
  place _ := none
  placed n := by simp

/-- Hand out the next item, to `p`. -/
def hand (l : Ledger π) (p : π) : Ledger π where
  handed := l.handed+1
  place := Function.update l.place l.handed (some p)
  placed n := by
    have hl := l.placed n
    by_cases hn : n = l.handed
    · subst hn
      simp
    · rw [Function.update_of_ne hn, hl]
      omega

/-- Move an item that has been handed out. -/
def move (l : Ledger π) (n : ℕ) (p : π) (h : n < l.handed) : Ledger π where
  handed := l.handed
  place := Function.update l.place n (some p)
  placed m := by
    have hl := l.placed m
    by_cases hm : m = n
    · subst hm
      simp [h]
    · rw [Function.update_of_ne hm, hl]

theorem lt_of_place {l : Ledger π} {n : ℕ} {p : π} (h : l.place n = some p) : n < l.handed :=
  (l.placed n).mp (by rw [h]; rfl)

/-- What can happen to a ledger: an item is handed out, or goes from one place to the
next along `route`. -/
inductive Step (route : π → π → Prop) : Ledger π → Ledger π → Prop
  | hand (l p) : Step route l (l.hand p)
  | move (l n p q) (hp : l.place n = some p) (hr : route p q) :
      Step route l (l.move n q (lt_of_place hp))

variable [DecidableEq π] {l : Ledger π} {c c' : ℕ → π → ℕ} {n : ℕ} {p q : π}

/-- Counting the copies of each item at each place finds what the ledger says. -/
def Shows (l : Ledger π) (c : ℕ → π → ℕ) : Prop :=
  ∀ n p, c n p = if l.place n = some p then 1 else 0

theorem shows_empty (h : ∀ n p, c n p = 0) : (empty : Ledger π).Shows c := by
  intro n p
  rw [h n p, if_neg]
  exact nofun

theorem place_of_count (hs : l.Shows c) (h : c n p ≠ 0) : l.place n = some p := by
  by_contra hn
  exact h (by rw [hs n p, if_neg hn])

/-- An item that was handed out is at one place, once, and nowhere else. -/
theorem one_place (hs : l.Shows c) (h : n < l.handed) :
    ∃ p, l.place n = some p ∧ c n p = 1 ∧ ∀ q, q ≠ p → c n q = 0 := by
  obtain ⟨p, hp⟩ := Option.isSome_iff_exists.mp ((l.placed n).mpr h)
  refine ⟨p, hp, by rw [hs n p, if_pos hp], ?_⟩
  intro q hq
  rw [hs n q, if_neg]
  rw [hp, Option.some.injEq]
  exact hq.symm

theorem no_place (hs : l.Shows c) (h : l.handed ≤ n) (p : π) : c n p = 0 := by
  by_contra hc
  have := lt_of_place (place_of_count hs hc)
  omega

theorem shows_congr (hs : l.Shows c) (h : ∀ n p, c' n p = c n p) : l.Shows c' := by
  intro n p
  rw [h n p, hs n p]

/-- One more copy, of the next item, and no other change. -/
theorem shows_hand (hs : l.Shows c)
    (h : ∀ m q, c' m q = c m q + if m = l.handed ∧ q = p then 1 else 0) :
    (l.hand p).Shows c' := by
  intro m q
  rw [h m q]
  by_cases hm : m = l.handed
  · rw [no_place hs (Nat.le_of_eq hm.symm) q]
    simp only [hand, hm, Function.update_self, true_and, Option.some.injEq, Nat.zero_add, eq_comm]
  · simp only [hand, Function.update_of_ne hm, hm, false_and, ↓reduceIte, Nat.add_zero]
    exact hs m q

/-- One copy of `n` goes from `p` to `q`, and no other change. -/
theorem shows_move (hs : l.Shows c) (hn : n < l.handed)
    (h : ∀ m r, c' m r + (if m = n ∧ r = p then 1 else 0) =
      c m r + if m = n ∧ r = q then 1 else 0) (hpq : p ≠ q) : (l.move n q hn).Shows c' := by
  have hcount : c n p ≠ 0 := by
    have := h n p
    rw [if_pos ⟨rfl, rfl⟩, if_neg (fun hq => hpq hq.2)] at this
    omega
  have hp := place_of_count hs hcount
  intro m r
  have hm := h m r
  rw [hs m r] at hm
  by_cases hmn : m = n
  · subst hmn
    simp only [hp, true_and, Option.some.injEq, eq_comm (a := p)] at hm
    simp only [move, Function.update_self, Option.some.injEq, eq_comm (a := q)]
    omega
  · simp only [hmn, false_and, ↓reduceIte, Nat.add_zero] at hm
    simp only [move, Function.update_of_ne hmn]
    exact hm

end Ledger

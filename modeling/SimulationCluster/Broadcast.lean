import Mathlib.Data.List.Basic
import Mathlib.Logic.Function.Basic
import Mathlib.Tactic.Basic


/-- One sender and many receivers. A message that is published reaches a receiver
after the earlier ones, or not at all. -/
structure Broadcast (ι α : Type*) where
  log : List α
  received : ι → List α
  inbox : ι → List α                  -- on the way, the oldest first
  sublist : ∀ i, (received i ++ inbox i).Sublist log

namespace Broadcast

variable {ι α : Type*}

def empty : Broadcast ι α where
  log := []
  received _ := []
  inbox _ := []
  sublist _ := List.Sublist.refl []

/-- Publish `m`, to the receivers that `reaches` holds of. -/
def publish (b : Broadcast ι α) (m : α) (reaches : ι → Bool) : Broadcast ι α where
  log := b.log ++ [m]
  received := b.received
  inbox i := b.inbox i ++ if reaches i then [m] else []
  sublist i := by
    rw [← List.append_assoc]
    apply List.Sublist.append (b.sublist i)
    split_ifs
    · exact List.Sublist.refl [m]
    · exact List.nil_sublist [m]

/-- Every message has reached receiver `i` or is on its way there. -/
def Lossless (b : Broadcast ι α) (i : ι) : Prop := b.received i ++ b.inbox i = b.log

theorem lossless_publish {b : Broadcast ι α} {i : ι} (hb : b.Lossless i) {m : α}
    {reaches : ι → Bool} (h : reaches i = true) : (b.publish m reaches).Lossless i := by
  change b.received i ++ (b.inbox i ++ if reaches i = true then [m] else []) = b.log ++ [m]
  rw [if_pos h, ← List.append_assoc, hb]

theorem mem_log_of_received (b : Broadcast ι α) {i : ι} {m : α} (h : m ∈ b.received i) :
    m ∈ b.log :=
  (b.sublist i).subset (List.mem_append_left _ h)

/-- Nothing of a sublist comes after the only occurrence of the last element. -/
theorem eq_nil_of_sublist_last {front r t : List α} {m : α} (hm : m ∉ front)
    (h : (r ++ m :: t).Sublist (front ++ [m])) : t = [] := by
  have htail : (m :: t).Sublist (front ++ [m]) := (List.sublist_append_right r _).trans h
  obtain ⟨l₁, l₂, heq, h₁, h₂⟩ := List.sublist_append_iff.mp htail
  cases l₁ with
  | nil =>
    have hlen := h₂.length_le
    rw [List.nil_append] at heq
    rw [← heq, List.length_cons, List.length_singleton] at hlen
    exact List.length_eq_zero_iff.mp (by omega)
  | cons a l₁ =>
    obtain rfl : m = a := (List.cons.inj heq).1
    exact absurd (h₁.subset List.mem_cons_self) hm

/-- Who has received a message that was published once, and last, gets nothing more. -/
theorem inbox_of_last {b : Broadcast ι α} {front : List α} {i : ι} {m : α}
    (hlog : b.log = front ++ [m]) (hm : m ∉ front) (h : m ∈ b.received i) :
    b.inbox i = [] ∧ ∃ r, b.received i = r ++ [m] ∧ m ∉ r := by
  obtain ⟨r, t, hr⟩ := List.append_of_mem h
  have hsub := b.sublist i
  rw [hlog, hr, List.append_assoc, List.cons_append] at hsub
  obtain ⟨rfl, hin⟩ := List.append_eq_nil_iff.mp (eq_nil_of_sublist_last hm hsub)
  rw [List.nil_append, hin] at hsub
  have hfront : r.Sublist front := (List.append_sublist_append_right [m]).mp hsub
  exact ⟨hin, r, hr, fun hmem => hm (hfront.subset hmem)⟩

variable [DecidableEq ι] [DecidableEq α]

/-- Receiver `i` takes its oldest message, which is `m`. -/
def take (b : Broadcast ι α) (i : ι) (m : α) : Option (Broadcast ι α) :=
  if h : (b.inbox i).head? = some m then
    some {
      log := b.log
      received := Function.update b.received i (b.received i ++ [m])
      inbox := Function.update b.inbox i (b.inbox i).tail
      sublist := fun j => by
        by_cases hj : j = i
        · subst hj
          rw [Function.update_self, Function.update_self, List.append_assoc,
            List.singleton_append, List.cons_head?_tail h]
          exact b.sublist j
        · rw [Function.update_of_ne hj, Function.update_of_ne hj]
          exact b.sublist j }
  else none

section Take

variable {b c : Broadcast ι α} {i : ι} {m : α}

theorem take_cases (h : b.take i m = some c) :
    (b.inbox i).head? = some m ∧ c.log = b.log ∧
      c.received = Function.update b.received i (b.received i ++ [m]) ∧
      c.inbox = Function.update b.inbox i (b.inbox i).tail := by
  unfold take at h
  split_ifs at h with hhead
  obtain rfl := Option.some.inj h
  exact ⟨hhead, rfl, rfl, rfl⟩

theorem received_of_take (h : b.take i m = some c) (j : ι) :
    c.received j = b.received j ++ if i = j then [m] else [] := by
  obtain ⟨-, -, hreceived, -⟩ := take_cases h
  rw [hreceived]
  by_cases hj : i = j
  · subst hj
    rw [Function.update_self, if_pos rfl]
  · rw [Function.update_of_ne (Ne.symm hj), if_neg hj, List.append_nil]

/-- A take moves a message on, and loses none. -/
theorem queue_of_take (h : b.take i m = some c) (j : ι) :
    c.received j ++ c.inbox j = b.received j ++ b.inbox j := by
  obtain ⟨hhead, -, hreceived, hinbox⟩ := take_cases h
  rw [hreceived, hinbox]
  by_cases hj : j = i
  · subst hj
    rw [Function.update_self, Function.update_self, List.append_assoc, List.singleton_append,
      List.cons_head?_tail hhead]
  · rw [Function.update_of_ne hj, Function.update_of_ne hj]

theorem lossless_take {j : ι} (hb : b.Lossless j) (h : b.take i m = some c) : c.Lossless j := by
  rw [Lossless, (take_cases h).2.1, queue_of_take h, hb]

end Take

end Broadcast

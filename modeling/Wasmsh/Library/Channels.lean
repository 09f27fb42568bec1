import Mathlib.Data.List.Basic

/-!
# Channels

What a queue between a sender and a receiver is for: everything that was sent, in order,
and how much of it the receiver has taken.  What was delivered is a prefix of what was sent,
and what is pending is the rest.  A channel has no capacity; a bounded queue is a channel
whose sender sends no more than there is room for.
-/

universe u

structure Channel (α : Type u) where
  sent : List α
  taken : Nat
  taken_le : taken ≤ sent.length

namespace Channel

variable {α : Type u}

def empty : Channel α := ⟨[], 0, Nat.le_refl 0⟩

def delivered (c : Channel α) : List α := c.sent.take c.taken

def pending (c : Channel α) : List α := c.sent.drop c.taken

/-- The sender adds elements at the end. -/
def send (c : Channel α) (xs : List α) : Channel α where
  sent := c.sent ++ xs
  taken := c.taken
  taken_le := by
    rw [List.length_append]
    exact Nat.le_add_right_of_le c.taken_le

/-- The receiver takes up to `n` of the pending elements. -/
def receive (c : Channel α) (n : Nat) : Channel α where
  sent := c.sent
  taken := min (c.taken + n) c.sent.length
  taken_le := Nat.min_le_right _ _

@[simp] theorem sent_receive (c : Channel α) (n : Nat) : (c.receive n).sent = c.sent := rfl

theorem delivered_append_pending (c : Channel α) : c.delivered ++ c.pending = c.sent :=
  List.take_append_drop c.taken c.sent

theorem delivered_prefix (c : Channel α) : c.delivered <+: c.sent :=
  List.take_prefix c.taken c.sent

/-- When nothing is pending the receiver has everything. -/
theorem delivered_eq_sent {c : Channel α} (h : c.pending = []) : c.delivered = c.sent := by
  have hall := c.delivered_append_pending
  rwa [h, List.append_nil] at hall

@[simp] theorem delivered_send (c : Channel α) (xs : List α) :
    (c.send xs).delivered = c.delivered :=
  List.take_append_of_le_length c.taken_le

@[simp] theorem pending_send (c : Channel α) (xs : List α) :
    (c.send xs).pending = c.pending ++ xs :=
  List.drop_append_of_le_length c.taken_le

@[simp] theorem pending_receive (c : Channel α) (n : Nat) :
    (c.receive n).pending = c.pending.drop n := by
  show c.sent.drop (min (c.taken + n) c.sent.length) = (c.sent.drop c.taken).drop n
  rw [List.drop_drop]
  rcases Nat.le_total (c.taken + n) c.sent.length with h | h
  · rw [Nat.min_eq_left h]
  · rw [Nat.min_eq_right h, List.drop_length, List.drop_eq_nil_of_le h]

@[simp] theorem delivered_receive (c : Channel α) (n : Nat) :
    (c.receive n).delivered = c.delivered ++ c.pending.take n := by
  have hall : (c.receive n).delivered ++ c.pending.drop n =
      (c.delivered ++ c.pending.take n) ++ c.pending.drop n := by
    rw [← pending_receive, delivered_append_pending, pending_receive, List.append_assoc,
      List.take_append_drop, sent_receive, delivered_append_pending]
  exact List.append_cancel_right hall

end Channel

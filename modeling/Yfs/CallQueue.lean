import Mathlib.Data.List.Basic
import Mathlib.Tactic.Common

namespace Yfs

variable {α : Type*}

/-- `delivered` says that the call for the front entry has been made and the
entry only waits to be popped. -/
structure CallQueue (α : Type*) where
  items : List α
  delivered : Bool
  front_of_delivered : delivered = true → items ≠ []

namespace CallQueue

def empty : CallQueue α := ⟨[], false, fun h => absurd h Bool.false_ne_true⟩

def push (q : CallQueue α) (a : α) : CallQueue α :=
  ⟨q.items ++ [a], q.delivered,
    fun _ => List.append_ne_nil_of_right_ne_nil _ (List.cons_ne_nil _ _)⟩

/-- The entries whose call has not been made. -/
def pending (q : CallQueue α) : List α := if q.delivered = true then q.items.tail else q.items

/-- The call for the front entry, which stays in the list. -/
def deliver (q : CallQueue α) : Option (α × CallQueue α) :=
  match q.items, q.delivered with
  | a :: as, false => some (a, ⟨a :: as, true, fun _ => List.cons_ne_nil _ _⟩)
  | _, _ => none

def pop (q : CallQueue α) : Option (CallQueue α) :=
  if q.delivered = true then some ⟨q.items.tail, false, fun h => absurd h Bool.false_ne_true⟩
    else none

@[simp] theorem pending_empty : (empty : CallQueue α).pending = [] := rfl

@[simp] theorem pending_push (q : CallQueue α) (a : α) : (q.push a).pending = q.pending ++ [a] := by
  by_cases hd : q.delivered = true
  · have hne := q.front_of_delivered hd
    simp only [pending, push, hd, if_true]
    exact List.tail_append_of_ne_nil hne
  · simp only [pending, push, hd, if_false, Bool.false_eq_true]

theorem pending_deliver (q q' : CallQueue α) (a : α) (h : q.deliver = some (a, q')) :
    q.pending = a :: q'.pending := by
  unfold deliver at h
  split at h
  · next b bs hi hd =>
    cases h
    simp only [pending, hi, hd, Bool.false_eq_true, if_false, if_true, List.tail_cons]
  · cases h

theorem pending_pop (q q' : CallQueue α) (h : q.pop = some q') : q'.pending = q.pending := by
  unfold pop at h
  split_ifs at h with hd
  cases h
  simp only [pending, hd, Bool.false_eq_true, if_false, if_true]

end CallQueue
end Yfs

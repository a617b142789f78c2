import Mathlib.Data.List.Basic
import Mathlib.Tactic.Common

namespace Yfs

/-- The consumer at the top of its loop, after finding the list empty, parked, about
to take the front entry, with an entry in its hands, or past taking the front of an
empty list. -/
inductive ConsumerPc (α : Type*)
  | top
  | empty
  | parked
  | ready
  | calling (a : α)
  | undefined
  deriving DecidableEq

/-- `signals` counts the pushes whose signal is still to come. -/
structure SignalQueue (α : Type*) where
  items : List α
  signals : ℕ
  pc : ConsumerPc α
  deriving DecidableEq

/-- A step of the consumer; `wake` is a wake-up without a signal. -/
inductive ConsumerAct
  | check
  | park
  | wake
  | take
  | pop
  deriving DecidableEq

namespace SignalQueue
variable {α : Type*}

def init : SignalQueue α := ⟨[], 0, .top⟩

def push (q : SignalQueue α) (a : α) : SignalQueue α :=
  { q with items := q.items ++ [a], signals := q.signals+1 }

/-- The parked consumer wakes up; one that is not parked does not notice. -/
def wakeUp (q : SignalQueue α) : SignalQueue α :=
  match q.pc with
  | .parked => { q with pc := .ready }
  | _ => q

def signal (q : SignalQueue α) : Option (SignalQueue α) :=
  if q.signals = 0 then none else some { q.wakeUp with signals := q.signals-1 }

def consume (q : SignalQueue α) : ConsumerAct → Option (SignalQueue α)
  | .check =>
    match q.pc with
    | .top => some { q with pc := if q.items.length = 0 then .empty else .ready }
    | _ => none
  | .park =>
    match q.pc with
    | .empty => some { q with pc := .parked }
    | _ => none
  | .wake =>
    match q.pc with
    | .parked => some q.wakeUp
    | _ => none
  | .take =>
    match q.pc with
    | .ready => some { q with pc := match q.items.head? with
        | some a => .calling a
        | none => .undefined }
    | _ => none
  | .pop =>
    match q.pc with
    | .calling _ => some { q with items := q.items.tail, pc := .top }
    | _ => none

/-- The front of an empty list has not been taken, and the consumer is not parked with
an entry in the list unless a signal is to come. -/
def Sound (q : SignalQueue α) : Prop :=
  q.pc ≠ .undefined ∧ (q.pc = .parked → q.items ≠ [] → 0 < q.signals)

/-- The consumer has been told that the list is not empty only if it is not; and as
long as it believes in an empty list, every push is followed by a signal. -/
def Ok (q : SignalQueue α) : Prop :=
  match q.pc with
  | .top => True
  | .empty | .parked => q.items ≠ [] → 0 < q.signals
  | .ready | .calling _ => q.items ≠ []
  | .undefined => False

/-- A wake-up, by a signal or not, finds something to take. -/
def WakesToWork (q : SignalQueue α) : Prop := q.pc = .parked → q.items ≠ []

/-- The signal finds the consumer parked or before its test, and something to take. -/
def SignalInTime (q : SignalQueue α) : Prop := q.pc ≠ .empty ∧ q.WakesToWork

def ConsumesInTime (q : SignalQueue α) (a : ConsumerAct) : Prop := a = .wake → q.WakesToWork

section
variable [DecidableEq α]

instance (q : SignalQueue α) : Decidable q.WakesToWork :=
  inferInstanceAs (Decidable (q.pc = .parked → q.items ≠ []))

instance (q : SignalQueue α) : Decidable q.SignalInTime :=
  inferInstanceAs (Decidable (q.pc ≠ .empty ∧ q.WakesToWork))

instance (q : SignalQueue α) (a : ConsumerAct) : Decidable (q.ConsumesInTime a) :=
  inferInstanceAs (Decidable (a = .wake → q.WakesToWork))

end

theorem sound_of_ok (q : SignalQueue α) (h : q.Ok) : q.Sound := by
  obtain ⟨items, signals, pc⟩ := q
  cases pc <;> simp_all [Ok, Sound]

theorem ok_init : (init : SignalQueue α).Ok := trivial

theorem ok_push (q : SignalQueue α) (a : α) (h : q.Ok) : (q.push a).Ok := by
  obtain ⟨items, signals, pc⟩ := q
  cases pc <;> simp_all [Ok, push]

theorem ok_wakeUp (q : SignalQueue α) (h : q.Ok) (hw : q.WakesToWork) : q.wakeUp.Ok := by
  obtain ⟨items, signals, pc⟩ := q
  cases pc <;> simp_all [Ok, wakeUp, WakesToWork]

theorem ok_signal (q q' : SignalQueue α) (h : q.Ok) (hin : q.SignalInTime)
    (hs : q.signal = some q') :
    q'.Ok := by
  simp only [signal, Option.ite_none_left_eq_some, Option.some.injEq] at hs
  rw [← hs.2]
  have hw := ok_wakeUp q h hin.2
  obtain ⟨items, signals, pc⟩ := q
  -- only in `empty` and `parked` does the number of signals count
  cases pc with
  | empty => exact absurd rfl hin.1
  | top | parked | ready | calling a | undefined => exact hw

theorem ok_consume (q q' : SignalQueue α) (a : ConsumerAct) (h : q.Ok) (hin : q.ConsumesInTime a)
    (hs : q.consume a = some q') : q'.Ok := by
  -- each step is possible at one place of the consumer only
  obtain ⟨items, signals, pc⟩ := q
  cases a with
  | check =>
    cases pc <;> simp only [consume, Option.some.injEq, reduceCtorEq] at hs
    rw [← hs]
    cases items <;> simp [Ok]
  | park =>
    cases pc <;> simp only [consume, Option.some.injEq, reduceCtorEq] at hs
    rw [← hs]
    exact h
  | wake =>
    cases pc <;> simp only [consume, Option.some.injEq, reduceCtorEq] at hs
    rw [← hs]
    exact ok_wakeUp _ h (hin rfl)
  | take =>
    cases pc <;> simp only [consume, Option.some.injEq, reduceCtorEq] at hs
    rw [← hs]
    cases items with
    -- what a `ready` consumer was told still holds: it alone takes entries out
    | nil => exact absurd rfl h
    | cons b bs => exact List.cons_ne_nil b bs
  | pop =>
    cases pc <;> simp only [consume, Option.some.injEq, reduceCtorEq] at hs
    rw [← hs]
    trivial

theorem consume_signals {q q' : SignalQueue α} {a : ConsumerAct} (h : q.consume a = some q') :
    q'.signals = q.signals := by
  obtain ⟨items, signals, pc⟩ := q
  cases a <;> cases pc <;> simp only [consume, Option.some.injEq, reduceCtorEq] at h <;> rw [← h]
  rfl

/-- Every entry has the property, and the one in the consumer's hands is still the front. -/
structure All (P : α → Prop) (q : SignalQueue α) : Prop where
  items : ∀ a ∈ q.items, P a
  front : ∀ a, q.pc = .calling a → q.items.head? = some a

section
variable {P Q : α → Prop} {q q' : SignalQueue α}

theorem all_init : (init : SignalQueue α).All P := ⟨nofun,nofun⟩

theorem All.calling (h : q.All P) {a : α} (hpc : q.pc = .calling a) : P a :=
  h.items a (List.mem_of_mem_head? (h.front a hpc))

theorem All.imp (h : q.All P) (hPQ : ∀ a ∈ q.items, P a → Q a) : q.All Q :=
  ⟨fun a ha => hPQ a ha (h.items a ha),h.front⟩

theorem All.push (h : q.All P) {a : α} (ha : P a) : (q.push a).All P where
  items := by
    intro b hb
    rcases List.mem_append.mp hb with hb | hb
    · exact h.items b hb
    · exact List.mem_singleton.mp hb ▸ ha
  front b hb := by
    rw [SignalQueue.push, List.head?_append, h.front b hb]
    rfl

theorem All.wakeUp (h : q.All P) : q.wakeUp.All P := by
  unfold SignalQueue.wakeUp
  split
  · exact ⟨h.items,nofun⟩
  · exact h

theorem All.signal (h : q.All P) (hs : q.signal = some q') : q'.All P := by
  simp only [SignalQueue.signal, Option.ite_none_left_eq_some, Option.some.injEq] at hs
  rw [← hs.2]
  exact ⟨h.wakeUp.items,h.wakeUp.front⟩

theorem All.consume (h : q.All P) {a : ConsumerAct} (hs : q.consume a = some q') : q'.All P := by
  obtain ⟨items, signals, pc⟩ := q
  cases a with
  | check =>
    cases pc <;> simp only [SignalQueue.consume, Option.some.injEq, reduceCtorEq] at hs
    rw [← hs]
    refine ⟨h.items,fun b hb => ?_⟩
    simp only at hb
    split_ifs at hb
  | park =>
    cases pc <;> simp only [SignalQueue.consume, Option.some.injEq, reduceCtorEq] at hs
    rw [← hs]
    exact ⟨h.items,nofun⟩
  | wake =>
    cases pc <;> simp only [SignalQueue.consume, Option.some.injEq, reduceCtorEq] at hs
    rw [← hs]
    exact h.wakeUp
  | take =>
    cases pc <;> simp only [SignalQueue.consume, Option.some.injEq, reduceCtorEq] at hs
    rw [← hs]
    refine ⟨h.items,fun b hb => ?_⟩
    cases items with
    | nil => exact nomatch hb
    | cons c cs =>
      cases hb
      rfl
  | pop =>
    cases pc <;> simp only [SignalQueue.consume, Option.some.injEq, reduceCtorEq] at hs
    rw [← hs]
    exact ⟨fun b hb => h.items b (List.mem_of_mem_tail hb),nofun⟩

end

end SignalQueue
end Yfs

import Yfs.CondVar

namespace Yfs

/-- `nonEmptyC` is for the consumers and `hasSpaceC` for the producers. There is no bound if
`max` is 0. -/
structure Fifo (π κ α : Type*) where
  q : List α
  max : ℕ
  nonEmptyC : CondVar κ
  hasSpaceC : CondVar π

inductive EnqResult
  | done
  | full
  | waits
  deriving DecidableEq

namespace Fifo
variable {π κ α : Type*} [DecidableEq π] [DecidableEq κ]

def init (max : ℕ) : Fifo π κ α := ⟨[], max, .empty, .empty⟩

def HasRoom (f : Fifo π κ α) : Prop := f.max = 0 ∨ f.q.length < f.max

instance (f : Fifo π κ α) : Decidable f.HasRoom := inferInstanceAs (Decidable (_ ∨ _))

/-- One pass of the loop in `enq`, from the lock or the wake-up to the return or the wait.
`w` is the consumer that the signal wakes up. -/
def enq (f : Fifo π κ α) (p : π) (e : α) (blocking : Bool) (w : Option κ) :
    Option (Fifo π κ α × EnqResult) :=
  if p ∈ f.hasSpaceC.parked then none
  else if f.HasRoom then
    (f.nonEmptyC.signal w).map fun c =>
      ({ f with q := f.q ++ [e], nonEmptyC := c, hasSpaceC := f.hasSpaceC.resume p }, .done)
  else if blocking = true then some ({ f with hasSpaceC := f.hasSpaceC.wait p }, .waits)
  else some ({ f with hasSpaceC := f.hasSpaceC.resume p }, .full)

/-- One pass of the loop in `deq`; without a result the consumer waits. -/
def deq (f : Fifo π κ α) (c : κ) (w : Option π) : Option (Fifo π κ α × Option α) :=
  if c ∈ f.nonEmptyC.parked then none
  else match f.q with
    | [] => some ({ f with nonEmptyC := f.nonEmptyC.wait c }, none)
    | e :: q =>
      let g := { f with q := q, nonEmptyC := f.nonEmptyC.resume c }
      -- in a queue without a bound no producer waits
      if f.max ≠ 0 ∧ q.length < f.max then
        (f.hasSpaceC.signal w).map fun s => ({ g with hasSpaceC := s }, some e)
      else some (g, some e)

/-- A consumer wakes up without a signal. -/
def wakeConsumer (f : Fifo π κ α) (c : κ) : Option (Fifo π κ α) :=
  (f.nonEmptyC.signal (some c)).map fun s => { f with nonEmptyC := s }

def wakeProducer (f : Fifo π κ α) (p : π) : Option (Fifo π κ α) :=
  (f.hasSpaceC.signal (some p)).map fun s => { f with hasSpaceC := s }

theorem enq_cases {f : Fifo π κ α} {p : π} {e : α} {b : Bool} {w : Option κ}
    {r : Fifo π κ α × EnqResult} (h : f.enq p e b w = some r) : p ∉ f.hasSpaceC.parked ∧
    ((f.HasRoom ∧ ∃ c, f.nonEmptyC.signal w = some c ∧
        r = ({ f with q := f.q ++ [e], nonEmptyC := c, hasSpaceC := f.hasSpaceC.resume p },
          .done)) ∨
      (¬ f.HasRoom ∧ b = true ∧ r = ({ f with hasSpaceC := f.hasSpaceC.wait p }, .waits)) ∨
      (¬ f.HasRoom ∧ b = false ∧ r = ({ f with hasSpaceC := f.hasSpaceC.resume p }, .full))) := by
  simp only [enq, Option.ite_none_left_eq_some] at h
  obtain ⟨hp,h⟩ := h
  refine ⟨hp,?_⟩
  split_ifs at h with hroom hb
  · obtain ⟨c,hc,rfl⟩ := Option.map_eq_some_iff.mp h
    exact .inl ⟨hroom,c,hc,rfl⟩
  · cases h
    exact .inr (.inl ⟨hroom,hb,rfl⟩)
  · cases h
    exact .inr (.inr ⟨hroom,Bool.eq_false_iff.mpr hb,rfl⟩)

theorem deq_cases {f : Fifo π κ α} {c : κ} {w : Option π} {r : Fifo π κ α × Option α}
    (h : f.deq c w = some r) :
    c ∉ f.nonEmptyC.parked ∧
    ((f.q = [] ∧ r = ({ f with nonEmptyC := f.nonEmptyC.wait c }, none)) ∨
      ∃ e q s, f.q = e :: q ∧
        r = ({ f with q := q, nonEmptyC := f.nonEmptyC.resume c, hasSpaceC := s }, some e) ∧
        ((f.max ≠ 0 ∧ q.length < f.max ∧ f.hasSpaceC.signal w = some s) ∨
          (¬ (f.max ≠ 0 ∧ q.length < f.max) ∧ s = f.hasSpaceC))) := by
  simp only [deq, Option.ite_none_left_eq_some] at h
  obtain ⟨hc,h⟩ := h
  refine ⟨hc,?_⟩
  split at h
  · next hq =>
    cases h
    exact .inl ⟨hq,rfl⟩
  · next e q hq =>
    right
    split_ifs at h with hroom
    · obtain ⟨s,hs,rfl⟩ := Option.map_eq_some_iff.mp h
      exact ⟨e,q,s,hq,rfl,.inl ⟨hroom.1,hroom.2,hs⟩⟩
    · cases h
      exact ⟨e,q,_,hq,rfl,.inr ⟨hroom,rfl⟩⟩

theorem exists_enq (f : Fifo π κ α) {p : π} (e : α) (b : Bool) (hp : p ∉ f.hasSpaceC.parked) :
    ∃ w r, f.enq p e b w = some r := by
  obtain ⟨w,c,hc⟩ := f.nonEmptyC.exists_signal
  refine ⟨w,?_⟩
  rw [enq, if_neg hp]
  split_ifs
  · exact ⟨_,by rw [hc]; rfl⟩
  · exact ⟨_,rfl⟩
  · exact ⟨_,rfl⟩

theorem exists_deq (f : Fifo π κ α) {c : κ} (hc : c ∉ f.nonEmptyC.parked) :
    ∃ w r, f.deq c w = some r := by
  obtain ⟨w,s,hs⟩ := f.hasSpaceC.exists_signal
  refine ⟨w,?_⟩
  rw [deq, if_neg hc]
  split
  · exact ⟨_,rfl⟩
  · simp only [hs]
    split_ifs
    · exact ⟨_,rfl⟩
    · exact ⟨_,rfl⟩

/-- As long as a consumer is parked there are no more entries than consumers on their way to
them, and as long as a producer is parked there is no more room than producers on their way. -/
structure Ok (f : Fifo π κ α) : Prop where
  bound : f.max ≠ 0 → f.q.length ≤ f.max
  consumers : f.nonEmptyC.parked ≠ [] → f.q.length ≤ f.nonEmptyC.woken.length
  producers : f.hasSpaceC.parked ≠ [] → f.max - f.q.length ≤ f.hasSpaceC.woken.length

omit [DecidableEq π] [DecidableEq κ] in
theorem ok_init (max : ℕ) : (init max : Fifo π κ α).Ok :=
  ⟨fun _ => Nat.zero_le _,fun h => absurd rfl h,fun h => absurd rfl h⟩

theorem Ok.enq {f : Fifo π κ α} {p : π} {e : α} {b : Bool} {w : Option κ}
    {r : Fifo π κ α × EnqResult} (h : f.Ok) (hr : f.enq p e b w = some r) : r.1.Ok := by
  obtain ⟨hp,⟨hroom,c,hc,rfl⟩ | ⟨hroom,-,rfl⟩ | ⟨hroom,-,rfl⟩⟩ := enq_cases hr
  · have hlen : (f.q ++ [e]).length = f.q.length + 1 := by simp
    refine ⟨fun hmax => ?_,fun hparked => ?_,fun hparked => ?_⟩
    · rcases hroom with hroom | hroom
      · exact absurd hroom hmax
      · rw [hlen]
        exact hroom
    · -- the signal sends one more consumer on its way
      obtain ⟨hsome,hwoken⟩ := CondVar.woken_signal hc hparked
      have := h.consumers hsome
      simp only [hlen, hwoken]
      omega
    · rw [CondVar.parked_resume hp] at hparked
      have hwoken := CondVar.woken_le_resume f.hasSpaceC p
      have := h.producers hparked
      simp only [hlen]
      omega
  · -- there is no room
    refine ⟨h.bound,h.consumers,fun _ => ?_⟩
    rw [HasRoom, not_or, Nat.not_lt] at hroom
    simp only
    omega
  · refine ⟨h.bound,h.consumers,fun _ => ?_⟩
    rw [HasRoom, not_or, Nat.not_lt] at hroom
    simp only
    omega

theorem Ok.deq {f : Fifo π κ α} {c : κ} {w : Option π} {r : Fifo π κ α × Option α} (h : f.Ok)
    (hr : f.deq c w = some r) :
    r.1.Ok := by
  obtain ⟨hc,⟨hq,rfl⟩ | ⟨e,q,s,hq,rfl,hs⟩⟩ := deq_cases hr
  · refine ⟨h.bound,fun _ => ?_,h.producers⟩
    rw [hq]
    exact Nat.zero_le _
  · have hlen : f.q.length = q.length + 1 := by rw [hq, List.length_cons]
    refine ⟨fun hmax => ?_,fun hparked => ?_,fun hparked => ?_⟩
    · have := h.bound hmax
      simp only
      omega
    · rw [CondVar.parked_resume hc] at hparked
      have hwoken := CondVar.woken_le_resume f.nonEmptyC c
      have := h.consumers hparked
      simp only
      omega
    · rcases hs with ⟨_,_,hs⟩ | ⟨hroom,rfl⟩
      · obtain ⟨hsome,hwoken⟩ := CondVar.woken_signal hs hparked
        have := h.producers hsome
        simp only [hwoken]
        omega
      · have := h.producers hparked
        simp only
        by_cases hmax : f.max = 0
        · omega
        · have hbound := h.bound hmax
          exact absurd ⟨hmax,by omega⟩ hroom

omit [DecidableEq π] in
theorem Ok.wakeConsumer {f f' : Fifo π κ α} {c : κ} (h : f.Ok) (hf : f.wakeConsumer c = some f') :
    f'.Ok := by
  obtain ⟨s,hs,rfl⟩ := Option.map_eq_some_iff.mp hf
  refine ⟨h.bound,fun hparked => ?_,h.producers⟩
  obtain ⟨hsome,hwoken⟩ := CondVar.woken_signal hs hparked
  have := h.consumers hsome
  simp only [hwoken]
  omega

omit [DecidableEq κ] in
theorem Ok.wakeProducer {f f' : Fifo π κ α} {p : π} (h : f.Ok) (hf : f.wakeProducer p = some f') :
    f'.Ok := by
  obtain ⟨s,hs,rfl⟩ := Option.map_eq_some_iff.mp hf
  refine ⟨h.bound,h.consumers,fun hparked => ?_⟩
  obtain ⟨hsome,hwoken⟩ := CondVar.woken_signal hs hparked
  have := h.producers hsome
  simp only [hwoken]
  omega

end Fifo
end Yfs

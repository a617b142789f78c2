import Mathlib.Algebra.Order.Ring.Int
import Mathlib.Tactic.Linarith
import Yfs.RpcSystem
import Yfs.Timespec

namespace Yfs.Rpc

/-- The wait ends because `ca.done` is set, by a reply or by `cancel`, or with `ETIMEDOUT`
at some time. -/
inductive Wake
  | done (intret : ℤ)
  | timedOut (time : Timespec)
  deriving DecidableEq

/-- `conn` says that `get_refconn` has a connection, `dead` that the connection in use is
dead after the wait. -/
structure Round where
  conn : Bool
  now : Timespec
  wake : Wake
  dead : Bool

/-- The two ways out of the loop. -/
inductive LoopEnd
  | done (intret : ℤ)
  | expired
  deriving DecidableEq

/-- `ch` says that `ch` is not null; `clock` is the last time that the thread knows of, and
`deadlines` are those it has waited for. -/
structure Retry where
  currTo : ℤ
  finaldeadline : Timespec
  transmit : Bool
  ch : Bool
  clock : Timespec
  deadlines : List Timespec
  ended : Option LoopEnd

def toMin : ℤ := 1000

namespace Retry

/-- Before the loop, with the first reading of the clock. -/
def start (now : Timespec) (timeout : ℤ) : Option Retry :=
  (addTimespec now timeout).map fun finaldeadline => ⟨toMin, finaldeadline, true, false, now, [],
    none⟩

/-- Where `get_refconn` has no connection it leaves the one that is there. -/
def transmitted (s : Retry) (r : Round) : Retry :=
  if s.transmit = true then { s with ch := s.ch || r.conn, transmit := false } else s

/-- `nextdeadline` and `finaldeadline` of a wait. -/
def deadline (s : Retry) (now : Timespec) : Option (Timespec × Timespec) :=
  (addTimespec now s.currTo).map fun nextdeadline =>
    if cmpTimespec nextdeadline s.finaldeadline > 0 then
      (s.finaldeadline, { s.finaldeadline with tvSec := 0 })
    else (nextdeadline, s.finaldeadline)

def waiting (s : Retry) (r : Round) (d : Timespec × Timespec) : Retry :=
  { s.transmitted r with finaldeadline := d.2, clock := r.now, deadlines := s.deadlines ++ [d.1] }

/-- What follows the wait; `curr_to.to` is an `int`. -/
def waited (retrans : Bool) (s : Retry) (r : Round) : Option Retry :=
  match r.wake with
  | .done intret => some { s with ended := some (.done intret) }
  | .timedOut time =>
    if s.currTo * 2 < 2^31 then
      some { s with
        clock := time
        -- the next turn sends the request again, on a new connection
        transmit := s.transmit || (retrans && (!s.ch || r.dead))
        currTo := s.currTo * 2 }
    else none

/-- One turn. `none` is a failed `VERIFY` or an overflow, or the loop is left. -/
def step (retrans : Bool) (s : Retry) (r : Round) : Option Retry :=
  if s.ended ≠ none then none
  -- the wait before this turn was for the final deadline
  else if (s.transmitted r).finaldeadline.tvSec = 0 then some { s.transmitted r with
    ended := some .expired }
  else ((s.transmitted r).deadline r.now).bind fun d => waited retrans (s.waiting r d) r

end Retry

/-- What `call1` returns; a reply can still come between the end of the loop and the
removal of the call. -/
def call1Result (e : LoopEnd) (late : Option ℤ) : ℤ :=
  match e with
  | .done intret => intret
  | .expired => late.getD timeoutFailure

/-- The clock does not go back, and a wait does not time out before its deadline. -/
structure Allowed (s : Retry) (r : Round) : Prop where
  normalised : r.now.Normalised
  later : s.clock.total ≤ r.now.total
  waited : ∀ time d, r.wake = .timedOut time → s.deadline r.now = some d →
    r.now.total ≤ time.total ∧ d.1.total ≤ time.total

theorem allowed_iff (s : Retry) (r : Round) :
    Allowed s r ↔ r.now.Normalised ∧ s.clock.total ≤ r.now.total ∧
      match r.wake, s.deadline r.now with
      | .timedOut time, some d => r.now.total ≤ time.total ∧ d.1.total ≤ time.total
      | _, _ => True := by
  constructor
  · rintro ⟨hnow,hlater,hwaited⟩
    refine ⟨hnow, hlater, ?_⟩
    split
    · next time d hwake hd => exact hwaited time d hwake hd
    · trivial
  · rintro ⟨hnow,hlater,hwaited⟩
    refine ⟨hnow, hlater, ?_⟩
    intro time d hwake hd
    rwa [hwake, hd] at hwaited

instance (s : Retry) (r : Round) : Decidable (Allowed s r) :=
  have : Decidable (match r.wake, s.deadline r.now with
      | .timedOut time, some d => r.now.total ≤ time.total ∧ d.1.total ≤ time.total
      | _, _ => True) :=
    match r.wake, s.deadline r.now with
    | .timedOut _, some _ => instDecidableAnd
    | .timedOut _, none => isTrue trivial
    | .done _, _ => isTrue trivial
  decidable_of_iff _ (allowed_iff s r).symm

/-- A turn that reads the clock is allowed. -/
def AllowedTurn (s : Retry) (r : Round) : Prop := s.finaldeadline.tvSec ≠ 0 → Allowed s r

instance (s : Retry) (r : Round) : Decidable (AllowedTurn s r) :=
  inferInstanceAs (Decidable (_ → _))

theorem transmitted_eq (s : Retry) (r : Round) :
    s.transmitted r = { s with
    ch := (s.transmitted r).ch, transmit := (s.transmitted r).transmit } := by
  unfold Retry.transmitted
  split_ifs <;> rfl

theorem transmitted_finaldeadline (s : Retry) (r : Round) :
    (s.transmitted r).finaldeadline = s.finaldeadline := by
  rw [transmitted_eq]

theorem transmitted_deadline (s : Retry) (r : Round) (now : Timespec) :
    (s.transmitted r).deadline now = s.deadline now := by
  rw [transmitted_eq]
  rfl

theorem transmitted_currTo (s : Retry) (r : Round) : (s.transmitted r).currTo = s.currTo := by
  rw [transmitted_eq]

theorem transmitted_ended (s : Retry) (r : Round) : (s.transmitted r).ended = s.ended := by
  rw [transmitted_eq]

/-- The cases of a turn, as far as the time goes. -/
inductive Turn (s : Retry) (r : Round) (s' : Retry) : Prop
  | expired (hfinal : s.finaldeadline.tvSec = 0) (hend : s'.ended = some .expired)
    (hto : s'.currTo = s.currTo)
      (hclock : s'.clock = s.clock) (hdl : s'.deadlines = s.deadlines)
  | done (d : Timespec × Timespec) (intret : ℤ) (hfinal : s.finaldeadline.tvSec ≠ 0)
      (hd : s.deadline r.now = some d)
      (hwake : r.wake = .done intret) (hend : s'.ended = some (.done intret))
        (hto : s'.currTo = s.currTo)
      (hdl : s'.deadlines = s.deadlines ++ [d.1])
  | timedOut (d : Timespec × Timespec) (time : Timespec) (hfinal : s.finaldeadline.tvSec ≠ 0)
      (hd : s.deadline r.now = some d) (hwake : r.wake = .timedOut time) (hend : s'.ended = none)
      (hto : s'.currTo = s.currTo * 2) (hclock : s'.clock = time) (hnext : s'.finaldeadline = d.2)
      (hdl : s'.deadlines = s.deadlines ++ [d.1])

theorem turn_of_step {retrans : Bool} {s s' : Retry} {r : Round} (h : s.step retrans r = some s') :
    s.ended = none ∧ Turn s r s' := by
  unfold Retry.step at h
  split_ifs at h with hend hfinal
  · rw [transmitted_finaldeadline] at hfinal
    cases h
    refine ⟨not_not.mp hend, .expired hfinal rfl (transmitted_currTo s r) ?_ ?_⟩
    · rw [transmitted_eq]
    · rw [transmitted_eq]
  · rw [transmitted_finaldeadline] at hfinal
    rw [transmitted_deadline] at h
    obtain ⟨d,hd,h⟩ := Option.bind_eq_some_iff.mp h
    refine ⟨not_not.mp hend, ?_⟩
    unfold Retry.waited at h
    split at h
    · next intret hwake =>
      cases h
      exact .done d intret hfinal hd hwake rfl (transmitted_currTo s r) rfl
    · next time hwake =>
      rw [Option.ite_none_right_eq_some] at h
      cases h.2
      exact .timedOut d time hfinal hd hwake ((transmitted_ended s r).trans (not_not.mp hend))
        (congrArg (· * 2) (transmitted_currTo s r)) rfl rfl rfl

theorem carries_of_seconds {a : Timespec} (ha : a.Normalised) {b : ℤ} (hb : b % 1000 = 0) :
    Carries a b := by
  have hlt := ha.2
  rw [Carries, hb]
  omega

/-- The wait goes on for `p` seconds, or to the final deadline if that is before. -/
theorem deadline_cases {s : Retry} {now : Timespec} {p : ℤ} (hp : 0 ≤ p) (hto : s.currTo = 1000 * p)
    (hfinal : s.finaldeadline.Normalised) (hnow : now.Normalised) :
    ∃ d, s.deadline now = some d ∧ d.1.Normalised ∧ d.1.total ≤ s.finaldeadline.total ∧
      ((d.2 = s.finaldeadline ∧ d.1.total = now.total + p * 1000000000) ∨
        (d.1 = s.finaldeadline ∧ d.2.tvSec = 0)) := by
  obtain ⟨next,hnext,htotal,hnonneg,hiff⟩ := addTimespec_spec hnow (b := s.currTo) (by omega)
  have hnorm : next.Normalised := ⟨hnonneg, hiff.mpr (carries_of_seconds hnow (by omega))⟩
  have hcmp : cmpTimespec next s.finaldeadline > 0 ↔ next.total > s.finaldeadline.total := by
    rw [cmpTimespec_eq_sign hnorm hfinal, gt_iff_lt, Int.sign_pos_iff]
    omega
  have hd : s.deadline now = some (if cmpTimespec next s.finaldeadline > 0 then
      (s.finaldeadline, { s.finaldeadline with tvSec := 0 }) else (next, s.finaldeadline)) := by
    rw [Retry.deadline, hnext, Option.map_some]
  refine ⟨_, hd, ?_⟩
  split_ifs with hlater
  · exact ⟨hfinal, le_refl _, .inr ⟨rfl, rfl⟩⟩
  · rw [hcmp] at hlater
    refine ⟨hnorm, not_lt.mp hlater, .inl ⟨rfl, ?_⟩⟩
    change next.total = _
    omega

section
variable {retrans : Bool} {timeout : ℤ} {first final : Timespec}

/-- The deadlines so far are good ones, and not after the final one. -/
def DeadlinesOk (final : Timespec) (s : Retry) : Prop :=
  ∀ d ∈ s.deadlines, d.Normalised ∧ d.total ≤ final.total

/-- After `k` turns. The waits so far have taken their time, all of it before the final
deadline; in the last turn the wait for the final deadline is over. -/
structure RetryWaiting (first final : Timespec) (k : ℕ) (s : Retry) : Prop where
  running : s.ended = none
  currTo : s.currTo = 1000 * 2^k
  deadlines : DeadlinesOk final s
  time : (s.finaldeadline = final ∧ first.total + (2^k - 1) * 1000000000 ≤ s.clock.total ∧
      first.total + (2^k - 1) * 1000000000 ≤ final.total) ∨
    (s.finaldeadline.tvSec = 0 ∧ final.total ≤ s.clock.total ∧
      2 * first.total + (2^k - 2) * 1000000000 ≤ 2 * final.total)

structure RetryEnded (final : Timespec) (rounds : List Round) (e : LoopEnd) (s : Retry) : Prop where
  ended : s.ended = some e
  currTo : ∃ k ≤ 21, s.currTo = 1000 * 2^k
  length_le : rounds.length ≤ 22
  deadlines : DeadlinesOk final s
  expired : e = .expired → final.total ≤ s.clock.total
  done : ∀ intret, e = .done intret → ∃ r ∈ rounds, r.wake = .done intret

/-- A timeout of at most `2^30` milliseconds is over before the interval has been doubled
more often. -/
theorem retryWaiting_le {k : ℕ} {s : Retry} (h : RetryWaiting first final k s)
    (hfinal : final.total ≤ first.total + 2^30 * 1000000) : k ≤ 21 := by
  by_contra hk
  -- half of the 2^22 - 2 seconds is more than the timeout
  have hpow : (2:ℤ)^22 ≤ 2^k := pow_le_pow_right₀ (by norm_num) (by omega)
  rcases h.time with ⟨_,_,hle⟩ | ⟨_,_,hle⟩ <;> omega

theorem retryWaiting_lt {k : ℕ} {s : Retry} (h : RetryWaiting first final k s)
    (hfinal : final.total ≤ first.total + 2^30 * 1000000) (hopen : s.finaldeadline.tvSec ≠ 0) :
    k ≤ 20 := by
  by_contra hk
  have hpow : (2:ℤ)^21 ≤ 2^k := pow_le_pow_right₀ (by norm_num) (by omega)
  rcases h.time with ⟨_,_,hle⟩ | ⟨hzero,_,_⟩
  · omega
  · exact hopen hzero

theorem interval_int {k : ℕ} (hk : k ≤ 21) : 0 < 1000 * (2:ℤ)^k ∧ 1000 * (2:ℤ)^k < 2^31 := by
  have hpow : (2:ℤ)^k ≤ 2^21 := pow_le_pow_right₀ (by norm_num) hk
  have hpos : (0:ℤ) < 2^k := pow_pos (by norm_num) k
  omega

theorem retryWaiting_start (hle : first.total ≤ final.total) :
    RetryWaiting first final 0 ⟨toMin, final, true, false, first, [], none⟩ := by
  have hzero : first.total + (2^0 - 1) * 1000000000 = first.total := by
    rw [pow_zero, sub_self, zero_mul, add_zero]
  refine ⟨rfl, rfl, fun d hd => absurd hd List.not_mem_nil, .inl ⟨rfl, hzero.le, ?_⟩⟩
  rw [hzero]
  exact hle

theorem deadlinesOk_snoc {s s' : Retry} {d : Timespec} (h : DeadlinesOk final s)
    (hd : d.Normalised ∧ d.total ≤ final.total) (hdl : s'.deadlines = s.deadlines ++ [d]) :
    DeadlinesOk final s' := by
  intro e he
  rw [hdl, List.mem_append, List.mem_singleton] at he
  rcases he with he | rfl
  · exact h e he
  · exact hd

theorem retryWaiting_open {k : ℕ} {s : Retry} (h : RetryWaiting first final k s)
    (hopen : s.finaldeadline.tvSec ≠ 0) :
    s.finaldeadline = final ∧ first.total + (2^k - 1) * 1000000000 ≤ s.clock.total ∧
      first.total + (2^k - 1) * 1000000000 ≤ final.total :=
  h.time.resolve_right fun hclosed => hopen hclosed.1

theorem retryWaiting_deadline {k : ℕ} {s : Retry} (h : RetryWaiting first final k s)
    (hfinal : final.Normalised)
    (hopen : s.finaldeadline.tvSec ≠ 0) {now : Timespec} (hnow : now.Normalised) :
    ∃ d, s.deadline now = some d ∧ (d.1.Normalised ∧ d.1.total ≤ final.total) ∧
      ((d.2 = final ∧ d.1.total = now.total + 2^k * 1000000000) ∨
        (d.1 = final ∧ d.2.tvSec = 0)) := by
  obtain ⟨heq,_,_⟩ := retryWaiting_open h hopen
  obtain ⟨d,hd,hnorm,hle,hcases⟩ :=
    deadline_cases (pow_nonneg (by norm_num) k) h.currTo (heq ▸ hfinal) hnow
  rw [heq] at hle hcases
  exact ⟨d, hd, ⟨hnorm, hle⟩, hcases⟩

theorem retryWaiting_timedOut {k : ℕ} {s s' : Retry} {r : Round} (h : RetryWaiting first final k s)
    (hfinal : final.Normalised) (ha : AllowedTurn s r) {d : Timespec × Timespec} {time : Timespec}
    (hopen : s.finaldeadline.tvSec ≠ 0) (hd : s.deadline r.now = some d)
    (hwake : r.wake = .timedOut time) (hend : s'.ended = none)
    (hto : s'.currTo = s.currTo * 2) (hclock : s'.clock = time) (hnext : s'.finaldeadline = d.2)
    (hdl : s'.deadlines = s.deadlines ++ [d.1]) : RetryWaiting first final (k+1) s' := by
  obtain ⟨hnow,hlater,hwaited⟩ := ha hopen
  obtain ⟨_,hclock0,hle0⟩ := retryWaiting_open h hopen
  obtain ⟨d',hd',hgood,hcases⟩ := retryWaiting_deadline h hfinal hopen hnow
  obtain rfl : d = d' := Option.some.inj (hd.symm.trans hd')
  obtain ⟨_,htime⟩ := hwaited time d hwake hd
  have hpow : (2:ℤ)^(k+1) = 2 * 2^k := pow_succ' 2 k
  refine ⟨hend, ?_, deadlinesOk_snoc h.deadlines hgood hdl, ?_⟩
  · rw [hto, h.currTo, hpow]
    omega
  · rw [hclock, hnext, hpow]
    have hgood2 := hgood.2
    rcases hcases with ⟨hopen',htotal⟩ | ⟨hlast,hclosed⟩
    · -- the interval has passed
      exact .inl ⟨hopen', by omega, by omega⟩
    · -- the final deadline has passed, and the flag is set
      rw [hlast] at htime
      exact .inr ⟨hclosed, htime, by omega⟩

theorem retryWaiting_step {s s' : Retry} {rounds : List Round} {r : Round}
    (hfinal : final.Normalised)
    (hsec : final.tvSec ≠ 0) (hbound : final.total ≤ first.total + 2^30 * 1000000)
    (h : RetryWaiting first final rounds.length s) (ha : AllowedTurn s r)
    (hs : s.step retrans r = some s') :
    RetryWaiting first final (rounds ++ [r]).length s' ∨
      ∃ e, RetryEnded final (rounds ++ [r]) e s' := by
  have hk := retryWaiting_le h hbound
  have hlen : (rounds ++ [r]).length = rounds.length + 1 := List.length_append
  cases (turn_of_step hs).2 with
  | expired hzero hend hto hclock hdl =>
    obtain ⟨_,hlate,_⟩ := h.time.resolve_left fun hopen => hsec (hopen.1 ▸ hzero)
    right
    refine ⟨.expired, hend, ⟨_, hk, hto.trans h.currTo⟩, by omega, ?_, fun _ => hclock ▸ hlate,
      nofun⟩
    intro d hd
    exact h.deadlines d (hdl ▸ hd)
  | done d intret hopen hd hwake hend hto hdl =>
    obtain ⟨d',hd',hgood,_⟩ := retryWaiting_deadline h hfinal hopen (ha hopen).normalised
    obtain rfl : d = d' := Option.some.inj (hd.symm.trans hd')
    right
    refine ⟨.done intret, hend, ⟨_, hk, hto.trans h.currTo⟩, by omega,
      deadlinesOk_snoc h.deadlines hgood hdl, nofun, ?_⟩
    intro ret hret
    cases hret
    exact ⟨r, List.mem_append_right _ List.mem_cons_self, hwake⟩
  | timedOut d time hopen hd hwake hend hto hclock hnext hdl =>
    left
    rw [hlen]
    exact retryWaiting_timedOut h hfinal ha hopen hd hwake hend hto hclock hnext hdl

/-- No turn fails: the interval stays an `int`. -/
theorem retryWaiting_progress {k : ℕ} {s : Retry} {r : Round} (hfinal : final.Normalised)
    (hbound : final.total ≤ first.total + 2^30 * 1000000) (h : RetryWaiting first final k s)
    (ha : AllowedTurn s r) :
    ∃ s', s.step retrans r = some s' := by
  rw [Retry.step, if_neg (not_not.mpr h.running), transmitted_finaldeadline]
  by_cases hzero : s.finaldeadline.tvSec = 0
  · exact ⟨_, if_pos hzero⟩
  · obtain ⟨d,hd,_⟩ := retryWaiting_deadline h hfinal hzero (ha hzero).normalised
    rw [if_neg hzero, transmitted_deadline, hd, Option.bind_some, Retry.waited]
    cases r.wake with
    | done intret => exact ⟨_, rfl⟩
    | timedOut time =>
      have hpow : (2:ℤ)^k ≤ 2^20 := pow_le_pow_right₀ (by norm_num) (retryWaiting_lt h hbound hzero)
      have hlt : (s.waiting r d).currTo * 2 < 2^31 := by
        change (s.transmitted r).currTo * 2 < 2^31
        rw [transmitted_currTo, h.currTo]
        omega
      exact ⟨_, if_pos hlt⟩

theorem start_final (hfirst : first.Normalised) (hsec : 0 < first.tvSec) (h0 : 0 ≤ timeout)
    (hms : timeout % 1000 = 0) :
    ∃ final, addTimespec first timeout = some final ∧
    final.total = first.total + timeout * 1000000 ∧
      final.Normalised ∧ final.tvSec ≠ 0 := by
  obtain ⟨final,hfinal,htotal,hnonneg,hiff⟩ := addTimespec_spec hfirst h0
  have hnorm : final.Normalised := ⟨hnonneg, hiff.mpr (carries_of_seconds hfirst hms)⟩
  refine ⟨final, hfinal, htotal, hnorm, ?_⟩
  have hlt := hnorm.2
  have hge := hfirst.1
  rw [Timespec.total, Timespec.total] at htotal
  omega

theorem retryWaiting_run {s0 s : Retry} {rounds : List Round} (hfinal : final.Normalised)
    (hsec : final.tvSec ≠ 0)
    (hbound : final.total ≤ first.total + 2^30 * 1000000) (h0 : RetryWaiting first final 0 s0)
    (ha : RunAll (Retry.step retrans) AllowedTurn s0 rounds)
    (hr : run (Retry.step retrans) s0 rounds = some s) :
    RetryWaiting first final rounds.length s ∨ ∃ e, RetryEnded final rounds e s := by
  have hinv := run_invariant_done (Retry.step retrans) AllowedTurn
    (fun rounds s => RetryWaiting first final rounds.length s ∨ ∃ e, RetryEnded final rounds e s)
  refine hinv ?_ [] s0 s rounds (.inl h0) ha hr
  rintro done s r s' (h | ⟨e,h⟩) ha hs
  · exact retryWaiting_step hfinal hsec hbound h ha hs
  · have hrunning := (turn_of_step hs).1
    rw [h.ended] at hrunning
    cases hrunning

end

/-- A call with a timeout of a second on a connection that dies. The first deadline is the
final one, the second is in the past. -/
def silentRounds : List Round :=
  [⟨true, ⟨100, 0⟩, .timedOut ⟨101, 5⟩, true⟩, ⟨false, ⟨101, 7⟩, .timedOut ⟨101, 8⟩, true⟩,
    ⟨false, ⟨101, 9⟩, .timedOut ⟨101, 9⟩, true⟩]

end Yfs.Rpc

import Mathlib.Data.List.Basic
import Mathlib.Tactic.Common

/-! Runs of a partial step function. `none` means that the action is not
enabled in the state, so a run is a list of actions each of which was enabled. -/
namespace Yfs

variable {σ α : Type*}

def run (step : σ → α → Option σ) : σ → List α → Option σ
  | s, [] => some s
  | s, a :: as => (step s a).bind fun s' => run step s' as

/-- `P` holds of the state before and the action, at every step of the run. -/
def RunAll (step : σ → α → Option σ) (P : σ → α → Prop) : σ → List α → Prop
  | _, [] => True
  | s, a :: as => P s a ∧ ∀ s', step s a = some s' → RunAll step P s' as

instance RunAll.decidable (step : σ → α → Option σ) (P : σ → α → Prop)
    [∀ s a, Decidable (P s a)] : ∀ s as, Decidable (RunAll step P s as)
  | _, [] => isTrue trivial
  | s, a :: as =>
    have : Decidable (∀ s', step s a = some s' → RunAll step P s' as) :=
      match step s a with
      | none => isTrue fun _ hs => nomatch hs
      | some t =>
        have := RunAll.decidable step P t as
        decidable_of_iff (RunAll step P t as)
          ⟨fun ht _ hs => Option.some.inj hs ▸ ht, fun ht => ht t rfl⟩
    inferInstanceAs (Decidable (P s a ∧ _))

/-- A run on fixed actions is evaluated to see whether it ends with `P`. -/
instance decidableExistsRun (step : σ → α → Option σ) (s : σ) (as : List α) (P : σ → Prop)
    [DecidablePred P] : Decidable (∃ t, run step s as = some t ∧ P t) :=
  match run step s as with
  | none => isFalse fun ⟨_,hr,_⟩ => nomatch hr
  | some t =>
    decidable_of_iff (P t) ⟨fun ht => ⟨t, rfl, ht⟩, fun ⟨_,hr,ht⟩ => Option.some.inj hr ▸ ht⟩

theorem run_cons_some (step : σ → α → Option σ) (s t : σ) (a : α) (as : List α)
    (h : run step s (a :: as) = some t) :
    ∃ s', step s a = some s' ∧ run step s' as = some t := by
  simpa only [run, Option.bind_eq_some_iff] using h

theorem run_append (step : σ → α → Option σ) (s : σ) (as bs : List α) :
    run step s (as ++ bs) = (run step s as).bind fun s' => run step s' bs := by
  induction as generalizing s with
  | nil => rfl
  | cons a as ih =>
    simp only [List.cons_append, run]
    cases step s a with
    | none => rfl
    | some s' => simpa only [Option.bind_some] using ih s'

/-- An invariant of the actions so far and the state that every step taken under `P`
preserves holds at the end of every run whose steps all meet `P`. -/
theorem run_invariant_done (step : σ → α → Option σ) (P : σ → α → Prop) (I : List α → σ → Prop)
    (hstep : ∀ done s a s', I done s → P s a → step s a = some s' → I (done ++ [a]) s')
    (done : List α) (s t : σ) (as : List α) (h0 : I done s) (hP : RunAll step P s as)
    (hr : run step s as = some t) : I (done ++ as) t := by
  induction as generalizing done s with
  | nil =>
    have hst : s = t := by simpa only [run, Option.some.injEq] using hr
    rw [List.append_nil]
    exact hst ▸ h0
  | cons a as ih =>
    obtain ⟨s', hs, hr'⟩ := run_cons_some step s t a as hr
    have hrest := ih (done ++ [a]) s' (hstep done s a s' h0 hP.1 hs) (hP.2 s' hs) hr'
    rwa [List.append_assoc] at hrest

theorem run_invariant_of_all (step : σ → α → Option σ) (P : σ → α → Prop) (I : σ → Prop)
    (hstep : ∀ s a s', I s → P s a → step s a = some s' → I s')
    (s t : σ) (as : List α) (h0 : I s) (hP : RunAll step P s as)
    (hr : run step s as = some t) : I t :=
  run_invariant_done step P (fun _ => I) (fun _ => hstep) [] s t as h0 hP hr

theorem runAll_of_mem (step : σ → α → Option σ) (Q : α → Prop) (s : σ) (as : List α)
    (h : ∀ a ∈ as, Q a) : RunAll step (fun _ a => Q a) s as := by
  induction as generalizing s with
  | nil => trivial
  | cons a as ih =>
    rw [List.forall_mem_cons] at h
    exact ⟨h.1, fun s' _ => ih s' h.2⟩

theorem run_invariant (step : σ → α → Option σ) (I : σ → Prop)
    (hstep : ∀ s a s', I s → step s a = some s' → I s')
    (s t : σ) (as : List α) (h0 : I s) (hr : run step s as = some t) : I t :=
  run_invariant_of_all step (fun _ _ => True) I (fun s a s' hi _ => hstep s a s' hi) s t as h0
    (runAll_of_mem step (fun _ => True) s as fun _ _ => trivial) hr

/-- Pointwise consequence along a run: what `I` and `P` give at each single step
they give at all of them. -/
theorem runAll_of_all (step : σ → α → Option σ) (P Q : σ → α → Prop) (I : σ → Prop)
    (hstep : ∀ s a s', I s → P s a → step s a = some s' → I s')
    (hQ : ∀ s a, I s → P s a → Q s a) (s : σ) (as : List α) (h0 : I s)
    (hP : RunAll step P s as) : RunAll step Q s as := by
  induction as generalizing s with
  | nil => trivial
  | cons a as ih =>
    exact ⟨hQ s a h0 hP.1, fun s' hs => ih s' (hstep s a s' h0 hP.1 hs) (hP.2 s' hs)⟩

theorem runAll_and (step : σ → α → Option σ) (P Q : σ → α → Prop) (s : σ) (as : List α)
    (hP : RunAll step P s as) (hQ : RunAll step Q s as) :
    RunAll step (fun s a => P s a ∧ Q s a) s as := by
  induction as generalizing s with
  | nil => trivial
  | cons a as ih => exact ⟨⟨hP.1,hQ.1⟩, fun s' hs => ih s' (hP.2 s' hs) (hQ.2 s' hs)⟩

theorem runAll_congr (step : σ → α → Option σ) (P Q : σ → α → Prop) (h : ∀ s a, P s a ↔ Q s a)
    (s : σ) (as : List α) : RunAll step P s as ↔ RunAll step Q s as := by
  have heq : P = Q := funext fun s => funext fun a => propext (h s a)
  rw [heq]

theorem runAll_drop (step : σ → α → Option σ) (P : σ → α → Prop) (s t : σ) (as bs : List α)
    (h : RunAll step P s (as ++ bs)) (hr : run step s as = some t) : RunAll step P t bs := by
  induction as generalizing s with
  | nil =>
    have hst : s = t := by simpa only [run, Option.some.injEq] using hr
    exact hst ▸ h
  | cons a as ih =>
    obtain ⟨s', hs, hr'⟩ := run_cons_some step s t a as hr
    exact ih s' (h.2 s' hs) hr'

theorem runAll_take (step : σ → α → Option σ) (P : σ → α → Prop) (s : σ) (as bs : List α)
    (h : RunAll step P s (as ++ bs)) : RunAll step P s as := by
  induction as generalizing s with
  | nil => trivial
  | cons a as ih => exact ⟨h.1, fun s' hs => ih s' (h.2 s' hs)⟩

theorem runAll_append (step : σ → α → Option σ) (P : σ → α → Prop) (s t : σ) (as bs : List α)
    (h : RunAll step P s as) (hr : run step s as = some t) (h' : RunAll step P t bs) :
    RunAll step P s (as ++ bs) := by
  induction as generalizing s with
  | nil =>
    have hst : s = t := by simpa only [run, Option.some.injEq] using hr
    exact hst ▸ h'
  | cons a as ih =>
    refine ⟨h.1, fun s' hs => ih s' (h.2 s' hs) ?_⟩
    obtain ⟨s1,hs1,hr1⟩ := run_cons_some step s t a as hr
    rw [hs] at hs1
    exact Option.some.inj hs1 ▸ hr1

theorem runAll_at (step : σ → α → Option σ) (P : σ → α → Prop) (s t : σ) (as bs : List α) (b : α)
    (h : RunAll step P s (as ++ b :: bs)) (hr : run step s as = some t) : P t b :=
  (runAll_drop step P s t as (b :: bs) h hr).1

/-- The events of the steps of a run, in order. -/
def trace {ε : Type*} (step : σ → α → Option σ) (ev : σ → α → List ε) : σ → List α → List ε
  | _, [] => []
  | s, a :: as => ev s a ++ ((step s a).map fun s' => trace step ev s' as).getD []

/-- If every step below is a run of its events above, then so is every run. -/
theorem run_trace {γ ε : Type*} (step : σ → α → Option σ) (ev : σ → α → List ε)
    (above : γ → ε → Option γ) (abs : σ → γ) (I : σ → Prop)
    (hI : ∀ s a s', I s → step s a = some s' → I s')
    (hsim : ∀ s a s', I s → step s a = some s' → run above (abs s) (ev s a) = some (abs s'))
    (s t : σ) (as : List α) (h0 : I s) (hr : run step s as = some t) :
    run above (abs s) (trace step ev s as) = some (abs t) := by
  induction as generalizing s with
  | nil =>
    have hst : s = t := by simpa only [run, Option.some.injEq] using hr
    rw [hst]
    rfl
  | cons a as ih =>
    obtain ⟨s', hs, hr'⟩ := run_cons_some step s t a as hr
    have hfirst := hsim s a s' h0 hs
    have hrest := ih s' (hI s a s' h0 hs) hr'
    rw [trace, hs, Option.map_some, Option.getD_some, run_append, hfirst, Option.bind_some, hrest]

/-- If a step takes a unit of work off, or adds at most one and is free, then a run has at most
as many other steps as there was work, plus the free ones. -/
theorem run_work (step : σ → α → Option σ) (I : σ → Prop) (work : σ → ℕ) (free : α → Bool)
    (hI : ∀ s a s', I s → step s a = some s' → I s')
    (hfree : ∀ s a s', I s → step s a = some s' → free a = true → work s' ≤ work s + 1)
    (hwork : ∀ s a s', I s → step s a = some s' → free a = false → work s' + 1 ≤ work s)
    (s t : σ) (as : List α) (h0 : I s) (hr : run step s as = some t) :
    as.countP (fun a => !free a) + work t ≤ work s + as.countP free := by
  induction as generalizing s with
  | nil =>
    have hst : s = t := by simpa only [run, Option.some.injEq] using hr
    simp [hst]
  | cons a as ih =>
    obtain ⟨s', hs, hr'⟩ := run_cons_some step s t a as hr
    have hrest := ih s' (hI s a s' h0 hs) hr'
    simp only [List.countP_cons]
    cases ha : free a with
    | true =>
      have := hfree s a s' h0 hs ha
      simp
      omega
    | false =>
      have := hwork s a s' h0 hs ha
      simp
      omega

theorem forall_update_ne {α β : Type*} [DecidableEq α] {f : α → Option β} {a : α} {x : Option β}
    {P : α → β → Prop} (hx : ∀ b, x = some b → P a b) (h : ∀ c b, c ≠ a → f c = some b → P c b) :
    ∀ c b, Function.update f a x c = some b → P c b :=
  (Function.forall_update_iff f fun c o => ∀ b, o = some b → P c b).mpr ⟨hx, fun c hc b => h c b hc⟩

theorem forall_update {α β : Type*} [DecidableEq α] {f : α → Option β} {a : α} {x : Option β}
    {P : α → β → Prop} (hx : ∀ b, x = some b → P a b) (h : ∀ c b, f c = some b → P c b) :
    ∀ c b, Function.update f a x c = some b → P c b :=
  forall_update_ne hx fun c b _ => h c b

theorem forall_update_some {α β : Type*} [DecidableEq α] {f : α → Option β} {a : α} {b : β}
    {P : α → β → Prop} (hb : P a b) (h : ∀ c b, f c = some b → P c b) :
    ∀ c d, Function.update f a (some b) c = some d → P c d :=
  forall_update (fun _ hd => Option.some.inj hd ▸ hb) h

end Yfs

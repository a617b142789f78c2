import Mathlib.Data.Option.Basic
import Yfs.SerialProg

namespace Yfs

inductive StoreProg (ε ν α ρ : Type*)
  | ret (r : ρ)
  | acquire (e : ε) (k : StoreProg ε ν α ρ)
  | release (e : ε) (k : StoreProg ε ν α ρ)
  | get (e : ε) (k : ν → StoreProg ε ν α ρ)
  | getattr (e : ε) (k : α → StoreProg ε ν α ρ)
  | put (e : ε) (v : ν) (k : StoreProg ε ν α ρ)
  | remove (e : ε) (k : StoreProg ε ν α ρ)
  | undef

/-- A store; `none` ends the process that called. -/
structure StoreOps (σ ε ν α : Type*) where
  get : σ → ε → Option (ν × σ)
  getattr : σ → ε → Option α
  put : σ → ε → ν → σ
  remove : σ → ε → σ

section
variable {σ σ' ε ν α α' ρ ρ' : Type*} [DecidableEq ε]

/-- A program without attributes, and what is done with its result. -/
def Prog.andThen : Prog ε ν ρ → (ρ → StoreProg ε ν α ρ') → StoreProg ε ν α ρ'
  | .undef, _ => .undef
  | .ret r, f => f r
  | .acquire e k, f => .acquire e (k.andThen f)
  | .release e k, f => .release e (k.andThen f)
  | .get e k, f => .get e fun v => (k v).andThen f
  | .put e v k, f => .put e v (k.andThen f)
  | .remove e k, f => .remove e (k.andThen f)

/-- The result and the store that is left. There is none where the thread waits for its own
lock, or where the process ends. -/
def StoreProg.exec (S : StoreOps σ ε ν α) : List ε → σ → StoreProg ε ν α ρ → Option (ρ × σ)
  | held, s, .ret r => if held = [] then some (r, s) else none
  | held, s, .acquire e k => if e ∈ held then none else k.exec S (e :: held) s
  | held, s, .release e k => if e ∈ held then k.exec S (held.erase e) s else none
  | held, s, .get e k =>
    if e ∈ held then (S.get s e).bind fun x => (k x.1).exec S held x.2 else none
  | held, s, .getattr e k =>
    if e ∈ held then (S.getattr s e).bind fun a => (k a).exec S held s else none
  | held, s, .put e v k => if e ∈ held then k.exec S held (S.put s e v) else none
  | held, s, .remove e k => k.exec S held (S.remove s e)
  | _, _, .undef => none

theorem rel_bind {β β' γ γ' : Type*} {r : β → β' → Prop} {q : γ → γ' → Prop} {o : Option β}
    {o' : Option β'} {k : β → Option γ} {k' : β' → Option γ'} (h : Option.Rel r o o')
    (hk : ∀ a a', o' = some a' → r a a' → Option.Rel q (k a) (k' a')) :
    Option.Rel q (o.bind k) (o'.bind k') := by
  cases h with
  | none => exact .none
  | some ha => exact hk _ _ rfl ha

theorem rel_map {β β' γ γ' : Type*} {r : β → β' → Prop} {q : γ → γ' → Prop} {o : Option β}
    {o' : Option β'}
    {k : β → γ} {k' : β' → γ'} (h : Option.Rel r o o') (hk : ∀ a a', r a a' → q (k a) (k' a')) :
    Option.Rel q (o.map k) (o'.map k') := by
  cases h with
  | none => exact .none
  | some ha => exact .some (hk _ _ ha)

theorem rel_trans {β γ δ : Type*} {r : β → γ → Prop} {q : γ → δ → Prop} {p : β → δ → Prop}
    {o : Option β}
    {o' : Option γ} {o'' : Option δ} (h : Option.Rel r o o') (h' : Option.Rel q o' o'')
    (hp : ∀ a b d, o = some a → r a b → q b d → p a d) : Option.Rel p o o'' := by
  cases h with
  | none =>
    cases h'
    exact .none
  | some hab =>
    cases h' with
    | some hbd => exact .some (hp _ _ _ rfl hab hbd)

theorem map_eq_of_rel {β β' γ : Type*} {r : β → β' → Prop} {o : Option β} {o' : Option β'}
    {k : β → γ} {k' : β' → γ}
    (h : Option.Rel r o o') (hk : ∀ a a', r a a' → k a = k' a') : o.map k = o'.map k' := by
  cases h with
  | none => rfl
  | some ha => exact congrArg some (hk _ _ ha)

/-- The programs do the same, the second with less of the attributes. Whether they may remove
is `b`. -/
inductive Alike (b : Bool) (f : α → α') (g : ρ → ρ') :
    StoreProg ε ν α ρ → StoreProg ε ν α' ρ' → Prop
  | undef : Alike b f g .undef .undef
  | ret (r : ρ) : Alike b f g (.ret r) (.ret (g r))
  | acquire (e : ε) {k : StoreProg ε ν α ρ} {k' : StoreProg ε ν α' ρ'} (hk : Alike b f g k k') :
      Alike b f g (.acquire e k) (.acquire e k')
  | release (e : ε) {k : StoreProg ε ν α ρ} {k' : StoreProg ε ν α' ρ'} (hk : Alike b f g k k') :
      Alike b f g (.release e k) (.release e k')
  | get (e : ε) {k : ν → StoreProg ε ν α ρ} {k' : ν → StoreProg ε ν α' ρ'}
      (hk : ∀ v, Alike b f g (k v) (k' v)) : Alike b f g (.get e k) (.get e k')
  | getattr (e : ε) {k : α → StoreProg ε ν α ρ} {k' : α' → StoreProg ε ν α' ρ'}
      (hk : ∀ a, Alike b f g (k a) (k' (f a))) : Alike b f g (.getattr e k) (.getattr e k')
  | put (e : ε) (v : ν) {k : StoreProg ε ν α ρ} {k' : StoreProg ε ν α' ρ'} (hk : Alike b f g k k') :
      Alike b f g (.put e v k) (.put e v k')
  | remove (e : ε) {k : StoreProg ε ν α ρ} {k' : StoreProg ε ν α' ρ'} (hb : b = true)
      (hk : Alike b f g k k') : Alike b f g (.remove e k) (.remove e k')

/-- The program removes nothing. -/
def Prog.NoRemove : Prog ε ν ρ → Prop
  | .acquire _ k | .release _ k | .put _ _ k => k.NoRemove
  | .get _ k => ∀ v, (k v).NoRemove
  | .remove _ _ => False
  | .ret _ | .undef => True

omit [DecidableEq ε] in
theorem Prog.alike_andThen {ρ'' : Type*} {b : Bool} {f : α → α'} {g : ρ' → ρ''}
    {h : ρ → StoreProg ε ν α ρ'}
    {h' : ρ → StoreProg ε ν α' ρ''} (p : Prog ε ν ρ) (hb : b = true ∨ p.NoRemove)
    (hh : ∀ r, Alike b f g (h r) (h' r)) : Alike b f g (p.andThen h) (p.andThen h') := by
  induction p with
  | undef => exact .undef
  | ret r => exact hh r
  | acquire e k ih => exact .acquire e (ih hb)
  | release e k ih => exact .release e (ih hb)
  | get e k ih => exact .get e fun v => ih v (hb.imp_right fun hk => hk v)
  | put e v k ih => exact .put e v (ih hb)
  | remove e k ih =>
    have htrue : b = true := hb.resolve_right id
    exact .remove e htrue (ih (.inl htrue))

def StoreProg.Spares (e : ε) : StoreProg ε ν α ρ → Prop
  | .acquire _ k | .release _ k | .remove _ k => k.Spares e
  | .get _ k => ∀ v, (k v).Spares e
  | .getattr _ k => ∀ a, (k a).Spares e
  | .put e' _ k => e' ≠ e ∧ k.Spares e
  | .ret _ | .undef => True

omit [DecidableEq ε] in
theorem Prog.spares_andThen {e : ε} {p : Prog ε ν ρ} {f : ρ → StoreProg ε ν α ρ'} (hp : p.Spares e)
    (hf : ∀ r, (f r).Spares e) : (p.andThen f).Spares e := by
  induction p with
  | ret r => exact hf r
  | acquire e' k ih => exact ih hp
  | release e' k ih => exact ih hp
  | get e' k ih => exact fun v => ih v (hp v)
  | put e' v k ih => exact ⟨hp.1, ih hp.2⟩
  | remove e' k ih => exact ih hp
  | undef => trivial

/-- States in the relation answer alike, as far as `f` shows the attributes. -/
structure StoreOps.Simulates (b : Bool) (S : StoreOps σ ε ν α) (S' : StoreOps σ' ε ν α')
    (f : α → α') (R : σ → σ' → Prop) : Prop where
  get : ∀ s s' e, R s s' →
    Option.Rel (fun x x' => x.1 = x'.1 ∧ R x.2 x'.2) (S.get s e) (S'.get s' e)
  getattr : ∀ s s' e, R s s' → (S.getattr s e).map f = S'.getattr s' e
  put : ∀ s s' e v, R s s' → R (S.put s e v) (S'.put s' e v)
  remove : b = true → ∀ s s' e, R s s' → R (S.remove s e) (S'.remove s' e)

theorem StoreOps.Simulates.exec {b : Bool} {S : StoreOps σ ε ν α} {S' : StoreOps σ' ε ν α'}
    {f : α → α'}
    {R : σ → σ' → Prop} {g : ρ → ρ'} (hS : S.Simulates b S' f R) {p : StoreProg ε ν α ρ}
    {p' : StoreProg ε ν α' ρ'} (hp : Alike b f g p p') (held : List ε) (s : σ) (s' : σ')
    (hR : R s s') :
    Option.Rel (fun x x' => g x.1 = x'.1 ∧ R x.2 x'.2) (p.exec S held s) (p'.exec S' held s') := by
  induction hp generalizing held s s' with
  | ret r =>
    simp only [StoreProg.exec]
    split_ifs
    · exact .some ⟨rfl,hR⟩
    · exact .none
  | acquire e hk ih =>
    simp only [StoreProg.exec]
    split_ifs
    · exact .none
    · exact ih (e :: held) s s' hR
  | release e hk ih =>
    simp only [StoreProg.exec]
    split_ifs
    · exact ih (held.erase e) s s' hR
    · exact .none
  | get e hk ih =>
    simp only [StoreProg.exec]
    split_ifs
    · refine rel_bind (hS.get s s' e hR) ?_
      rintro ⟨v,t⟩ ⟨v',t'⟩ - ⟨rfl,hR'⟩
      exact ih v held t t' hR'
    · exact .none
  | getattr e hk ih =>
    simp only [StoreProg.exec]
    split_ifs
    · rw [← hS.getattr s s' e hR]
      cases S.getattr s e with
      | none => exact .none
      | some a => exact ih a held s s' hR
    · exact .none
  | put e v hk ih =>
    simp only [StoreProg.exec]
    split_ifs
    · exact ih held _ _ (hS.put s s' e v hR)
    · exact .none
  | remove e hb hk ih =>
    simp only [StoreProg.exec]
    exact ih held _ _ (hS.remove hb s s' e hR)
  | undef => exact .none

end
end Yfs

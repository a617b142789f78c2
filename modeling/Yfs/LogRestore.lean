import Yfs.PaxosLog

/-! An acceptor that restores the log of another node while it commits. `commit` and
`decidereq` hold `pxs_mutex` and append to the log; `restore` holds nothing, truncates
the file, writes the dump and reads it back record by record. -/
namespace Yfs.Paxos
open Istream Dir

/-- Where the thread in `restore` is: not in it, with the file truncated and the dump
not yet written, or in the loop of `logread`. -/
inductive RestorePc
  | idle
  | opened (s : Str)
  | reading (input : Istream) (type : Str) (inst : ℕ)
  deriving DecidableEq

/-- What is appended to a file that is being read is read as well. -/
def RestorePc.append (text : Str) : RestorePc → RestorePc
  | .reading ⟨rest, eof, fail⟩ type inst => .reading ⟨rest ++ text, eof, fail⟩ type inst
  | pc => pc

structure LogNode where
  me : Str
  pxs : AccState
  file : Str
  pc : RestorePc

/-- `restore` is called with the dump of a log that holds these records; `read` is one
round of the loop in `logread`. -/
inductive LogAct
  | commit (inst : Unsigned) (value : Str)
  | decidereq (inst : Unsigned) (v : Str)
  | restore (recs : List Record)
  | write (inst : ℕ)
  | read

namespace LogNode

/-- The acceptor that has read its log. -/
def start (me : Str) (recs : List Record) : LogNode :=
  ⟨me, recs.foldl Record.apply (.fresh me), written recs, .idle⟩

def committed (s : LogNode) (inst : Unsigned) (value : Str) : LogNode where
  me := s.me
  pxs := ⟨⟨0, s.me⟩, ⟨0, s.me⟩, [], inst, Function.update s.pxs.values inst (some value)⟩
  file := loginstance s.file inst value
  pc := s.pc.append (loginstance [] inst value)

def commitWo (s : LogNode) (inst : Unsigned) (value : Str) : LogNode :=
  if (inst : ℕ) > s.pxs.instanceH then s.committed inst value else s

def decidereq (s : LogNode) (inst : Unsigned) (v : Str) : Option LogNode :=
  if (inst : ℕ) = (s.pxs.instanceH + 1) % 2^32 then
    if s.pxs.vA = v then some (s.commitWo inst s.pxs.vA) else none
  else if (inst : ℕ) ≤ s.pxs.instanceH then some s
  else none

/-- A round of the loop in `logread`, on the acceptor as it is now. -/
def readRound (s : LogNode) (r : Reader) : Option LogNode :=
  if r.token.input.fail = true then some { s with pc := .idle }
  else r.token.body.map fun r' => { s with pxs := r'.pxs, pc := .reading r'.input r'.type r'.inst }

/-- The dump is written over what the file holds by now. -/
def step (s : LogNode) : LogAct → Option LogNode
  | .commit inst value => some (s.commitWo inst value)
  | .decidereq inst v => s.decidereq inst v
  | .restore recs =>
    match s.pc with
    | .idle => some { s with file := [], pc := .opened (dump (written recs)) }
    | _ => none
  | .write inst =>
    match s.pc with
    | .opened text =>
      let file := text ++ s.file.drop text.length
      some { s with file := file, pc := .reading (ofText file) [] inst }
    | _ => none
  | .read =>
    match s.pc with
    | .reading input type inst => s.readRound ⟨input, type, inst, s.pxs⟩
    | _ => none

/-- What a step does. An old or repeated commit does nothing. -/
inductive Step (s : LogNode) : LogAct → LogNode → Prop
  | commit (inst : Unsigned) (value : Str) (h : s.pxs.instanceH < inst) :
      Step s (.commit inst value) (s.committed inst value)
  | decided (inst : Unsigned) (v : Str) (h : s.pxs.instanceH < inst) :
      Step s (.decidereq inst v) (s.committed inst v)
  | old (a : LogAct) : Step s a s
  | restore (recs : List Record) (hpc : s.pc = .idle) :
      Step s (.restore recs) { s with file := [], pc := .opened (dump (written recs)) }
  | write (inst : ℕ) (text : Str) (hpc : s.pc = .opened text) :
      Step s (.write inst) { s with
        file := text ++ s.file.drop text.length
        pc := .reading (ofText (text ++ s.file.drop text.length)) [] inst }
  | read (input : Istream) (type : Str) (inst : ℕ) (hpc : s.pc = .reading input type inst)
      (r' : Reader) (hfail : (⟨input, type, inst, s.pxs⟩ : Reader).token.input.fail = false)
      (hbody : (⟨input, type, inst, s.pxs⟩ : Reader).token.body = some r') :
      Step s .read { s with pxs := r'.pxs, pc := .reading r'.input r'.type r'.inst }
  | finish (input : Istream) (type : Str) (inst : ℕ) (hpc : s.pc = .reading input type inst)
      (hfail : (⟨input, type, inst, s.pxs⟩ : Reader).token.input.fail = true) :
      Step s .read { s with pc := .idle }

theorem step_inv {s s' : LogNode} {a : LogAct} (h : step s a = some s') : Step s a s' := by
  cases a with
  | commit inst value =>
    simp only [step, Option.some.injEq, commitWo] at h
    subst h
    split
    · next hlt => exact .commit inst value hlt
    · exact .old _
  | decidereq inst v =>
    simp only [step, decidereq] at h
    split at h
    · split at h
      · next hv =>
        cases h
        rw [hv, commitWo]
        split
        · next hlt => exact .decided inst v hlt
        · exact .old _
      · cases h
    · split at h
      · cases h
        exact .old _
      · cases h
  | restore recs =>
    cases hpc : s.pc with
    | idle =>
      simp only [step, hpc, Option.some.injEq] at h
      exact h ▸ .restore recs hpc
    | opened _ => simp [step, hpc] at h
    | reading _ _ _ => simp [step, hpc] at h
  | write inst =>
    cases hpc : s.pc with
    | idle => simp [step, hpc] at h
    | opened text =>
      simp only [step, hpc, Option.some.injEq] at h
      exact h ▸ .write inst text hpc
    | reading _ _ _ => simp [step, hpc] at h
  | read =>
    cases hpc : s.pc with
    | idle => simp [step, hpc] at h
    | opened _ => simp [step, hpc] at h
    | reading input type inst =>
      simp only [step, hpc, readRound] at h
      split at h
      · next hfail =>
        cases h
        exact .finish input type inst hpc hfail
      · next hfail =>
        obtain ⟨r',hbody,rfl⟩ := Option.map_eq_some_iff.mp h
        exact .read input type inst hpc r' (Bool.eq_false_iff.mpr hfail) hbody

theorem learn_isSome (pxs : AccState) (inst : ℕ) (v : Str) (i : ℕ)
    (h : (pxs.values i).isSome = true) : ((pxs.learn inst v).values i).isSome = true := by
  rw [AccState.learn]
  by_cases hi : i = inst
  · subst hi
    simp
  · simpa [hi] using h

theorem body_isSome {r r' : Reader} (h : r.body = some r') (i : ℕ)
    (hi : (r.pxs.values i).isSome = true) : (r'.pxs.values i).isSome = true := by
  unfold Reader.body at h
  split at h
  · cases h
    exact learn_isSome _ _ _ i hi
  · split at h
    · cases h
      exact hi
    · split at h
      · cases h
        exact hi
      · cases h

theorem committed_isSome (s : LogNode) (inst : Unsigned) (value : Str) (i : ℕ)
    (hi : (s.pxs.values i).isSome = true) : ((s.committed inst value).pxs.values i).isSome = true :=
  learn_isSome s.pxs inst value i hi

theorem step_isSome {s s' : LogNode} {a : LogAct} (h : Step s a s') (i : ℕ)
    (hi : (s.pxs.values i).isSome = true) : (s'.pxs.values i).isSome = true := by
  cases h with
  | commit inst value _ => exact committed_isSome s inst value i hi
  | decided inst v _ => exact committed_isSome s inst v i hi
  | old => exact hi
  | restore recs _ => exact hi
  | write inst text _ => exact hi
  | read input type inst _ r' _ hbody => exact body_isSome hbody i hi
  | finish input type inst _ _ => exact hi

end LogNode

/-- The acceptor of the log beside that of the config module. -/
structure AccState.Shows (p : AccState) (a : Acceptor) : Prop where
  vA : a.vA = p.vA
  instanceH : a.instanceH = p.instanceH
  values : ∀ i, a.values i = (p.values i).getD []

section
variable {τ : Type} [DecidableEq τ] {s : LogNode} {n : Node τ}

theorem AccState.Shows.commitWo (h : s.pxs.Shows n.acc) (t : τ) (inst : Unsigned) (value : Str) :
    (s.commitWo inst value).pxs.Shows (n.commitWo t inst value).acc := by
  have hlast := h.instanceH
  rw [LogNode.commitWo, Node.commitWo]
  split_ifs
  · refine ⟨rfl,rfl,fun i => ?_⟩
    change Function.update n.acc.values inst value i =
      (Function.update s.pxs.values inst (some value) i).getD []
    by_cases hi : i = inst
    · rw [hi, Function.update_self, Function.update_self, Option.getD_some]
    · rw [Function.update_of_ne hi, Function.update_of_ne hi, h.values]
  · omega
  · omega
  · exact h

/-- With and without the log, `decidereq` does the same, and ends the process for the same
requests. -/
theorem AccState.Shows.decidereq (h : s.pxs.Shows n.acc) (t : τ) (inst : Unsigned) (v : Str) :
    Option.Rel (fun s' n' => s'.pxs.Shows n'.acc) (s.decidereq inst v) (n.decidereq t inst v) := by
  rw [LogNode.decidereq, Node.decidereq, h.instanceH, h.vA]
  split_ifs
  · exact .some (h.commitWo t inst s.pxs.vA)
  · exact .none
  · exact .some h
  · exact .none

end

/-- The instance and the value that a "done" record decides. -/
def Record.commitOf : Record → Option (ℕ × Str)
  | .done inst v => some (inst, v.1)
  | _ => none

/-- How many instances the records decide. -/
def upto (recs : List Record) : ℕ := (recs.filterMap Record.commitOf).length

/-- The records hold the decided history up to an instance. -/
def Holds (decided : ℕ → Line) (recs : List Record) : Prop :=
  recs.filterMap Record.commitOf = (List.range' 1 (upto recs)).map fun i => (i, (decided i).1)

instance (decided : ℕ → Line) (recs : List Record) : Decidable (Holds decided recs) := by
  unfold Holds
  infer_instance

/-- The file has a "done" record of the instance with this value. -/
def Durable (file : Str) (i : ℕ) (v : Str) : Prop :=
  ∃ recs, file = written recs ∧ (i, v) ∈ recs.filterMap Record.commitOf

variable {decided : ℕ → Line}

theorem upto_append (recs recs' : List Record) : upto (recs ++ recs') = upto recs + upto recs' := by
  rw [upto, List.filterMap_append, List.length_append]
  rfl

theorem Holds.mem {recs : List Record} (h : Holds decided recs) (i : ℕ) (v : Str) :
    (i, v) ∈ recs.filterMap Record.commitOf ↔ 1 ≤ i ∧ i ≤ upto recs ∧ v = (decided i).1 := by
  rw [h]
  simp only [List.mem_map, List.mem_range'_1, Prod.mk.injEq]
  constructor
  · rintro ⟨j,hj,rfl,rfl⟩
    exact ⟨hj.1, by omega, rfl⟩
  · rintro ⟨h1,h2,rfl⟩
    exact ⟨i, ⟨h1, by omega⟩, rfl, rfl⟩

theorem Holds.done {before after : List Record} {inst : Unsigned} {v : Line}
    (h : Holds decided (before ++ .done inst v :: after)) :
    (inst : ℕ) = upto before + 1 ∧ v.1 = (decided inst).1 := by
  have hlen : upto (before ++ .done inst v :: after) = upto before + (1 + upto after) := by
    rw [upto_append]
    simp [upto, Record.commitOf, Nat.add_comm]
  -- the same place in both lists
  have hleft : ((before ++ .done inst v :: after).filterMap Record.commitOf)[upto before]? =
      some ((inst : ℕ), v.1) := by
    rw [List.filterMap_append, upto, List.getElem?_append_right (Nat.le_refl _)]
    simp [Record.commitOf]
  have hright : ((List.range' 1 (upto (before ++ .done inst v :: after))).map
      fun i => (i, (decided i).1))[upto before]? =
        some (1 + upto before, (decided (1 + upto before)).1) := by
    rw [List.getElem?_map, List.getElem?_range' (by omega)]
    simp
  rw [h, hright, Option.some.injEq, Prod.mk.injEq] at hleft
  obtain ⟨hinst,hv⟩ := hleft
  rw [← hinst, ← hv]
  exact ⟨Nat.add_comm .., rfl⟩

/-- An acceptor that restores a history up to instance `k`, of which it has read the
first `n` instances. It has recorded nothing else; if `fresh`, nothing that it has not
read. -/
structure Replay (decided : ℕ → Line) (fresh : Prop) (pxs : AccState) (k n : ℕ) : Prop where
  values : ∀ i v, pxs.values i = some v → v = (decided i).1 ∧ 1 ≤ i ∧ i ≤ k
  read : ∀ i, 1 ≤ i → i ≤ n → pxs.values i = some (decided i).1
  last : pxs.instanceH = n ∨ n = 0 ∧ pxs.instanceH ≤ k ∧ (pxs.values pxs.instanceH).isSome = true
  only : fresh → pxs.instanceH = n ∧ ∀ i v, pxs.values i = some v → i ≤ n

theorem Replay.newest {fresh : Prop} {pxs : AccState} {k n : ℕ} (h : Replay decided fresh pxs k n) :
    n = 0 ∨ (pxs.values n).isSome = true := by
  by_cases hn : n = 0
  · exact Or.inl hn
  · rw [h.read n (by omega) (Nat.le_refl _)]
    exact Or.inr rfl

theorem Replay.mem_recs {fresh : Prop} {pxs : AccState} {recs : List Record} {n : ℕ}
    (h : Replay decided fresh pxs (upto recs) n) (hrecs : Holds decided recs) (i : ℕ) (v : Str)
    (hv : pxs.values i = some v) : (i, v) ∈ recs.filterMap Record.commitOf := by
  obtain ⟨hd,h1,hk⟩ := h.values i v hv
  exact (hrecs.mem i v).mpr ⟨h1, hk, hd⟩

theorem Replay.apply {fresh : Prop} {pxs : AccState} {before after : List Record} {x : Record}
    (h : Replay decided fresh pxs (upto (before ++ x :: after)) (upto before))
    (hrecs : Holds decided (before ++ x :: after)) :
    Replay decided fresh (x.apply pxs) (upto (before ++ x :: after)) (upto (before ++ [x])) := by
  cases x with
  | propseen n m =>
    have hsame : upto (before ++ [.propseen n m]) = upto before := upto_append before _
    rw [hsame]
    exact ⟨h.values, h.read, h.last, h.only⟩
  | accepted n m v =>
    have hsame : upto (before ++ [.accepted n m v]) = upto before := upto_append before _
    rw [hsame]
    exact ⟨h.values, h.read, h.last, h.only⟩
  | done inst v =>
    obtain ⟨hinst,hv⟩ := hrecs.done
    have hone : upto (before ++ [.done inst v]) = inst := by
      rw [upto_append, hinst]
      rfl
    have hle : (inst : ℕ) ≤ upto (before ++ .done inst v :: after) := by
      rw [upto_append, hinst]
      simp [upto, Record.commitOf]
    rw [hone]
    refine ⟨fun i w hw => ?_, fun i h1 h2 => ?_, Or.inl rfl, fun hf => ⟨rfl, fun i w hw => ?_⟩⟩
    · by_cases hi : i = inst
      · subst hi
        refine ⟨?_, by omega, hle⟩
        rw [← hv]
        simpa [Record.apply, AccState.learn] using hw.symm
      · exact h.values i w (by simpa [Record.apply, AccState.learn, hi] using hw)
    · by_cases hi : i = inst
      · subst hi
        simpa [Record.apply, AccState.learn] using hv
      · have hbefore := h.read i h1 (by omega)
        simpa [Record.apply, AccState.learn, hi] using hbefore
    · by_cases hi : i = inst
      · exact hi.le
      · have hbefore := (h.only hf).2 i w (by simpa [Record.apply, AccState.learn, hi] using hw)
        omega

theorem Replay.foldl {fresh : Prop} {pxs : AccState} {before after : List Record}
    (h : Replay decided fresh pxs (upto (before ++ after)) (upto before))
    (hrecs : Holds decided (before ++ after)) :
    Replay decided fresh (after.foldl Record.apply pxs) (upto (before ++ after))
      (upto (before ++ after)) := by
  induction after generalizing pxs before with
  | nil => rwa [List.append_nil] at h ⊢
  | cons x after ih =>
    have hx := h.apply hrecs
    rw [List.append_cons] at hx hrecs ⊢
    exact ih hx hrecs

theorem Replay.instanceH {fresh : Prop} {pxs : AccState} {k : ℕ}
    (h : Replay decided fresh pxs k k) :
    pxs.instanceH = k := by
  rcases h.last with hlast | ⟨hk,hle,_⟩
  · exact hlast
  · omega

/-- Of an acceptor at which no restore is in progress. -/
structure Rest (decided : ℕ → Line) (s : LogNode) : Prop where
  values : ∀ i v, s.pxs.values i = some v → v = (decided i).1 ∧ 1 ≤ i ∧ i ≤ s.pxs.instanceH
  last : s.pxs.instanceH = 0 ∨ (s.pxs.values s.pxs.instanceH).isSome = true
  durable : ∃ recs, s.file = written recs ∧
    ∀ i v, s.pxs.values i = some v → (i, v) ∈ recs.filterMap Record.commitOf

theorem rest_of_replay {fresh : Prop} {s : LogNode} {recs : List Record}
    (h : Replay decided fresh s.pxs (upto recs) (upto recs)) (hrecs : Holds decided recs)
    (hfile : s.file = written recs) : Rest decided s := by
  refine ⟨?_, ?_, recs, hfile, h.mem_recs hrecs⟩
  · rw [h.instanceH]
    exact h.values
  · rw [h.instanceH]
    exact h.newest

theorem rest_start (me : Str) (recs : List Record) (hrecs : Holds decided recs) :
    Rest decided (LogNode.start me recs) := by
  have hfresh : Replay decided True (.fresh me) (upto ([] ++ recs)) (upto []) := by
    refine ⟨fun i v hv => (nomatch hv), fun i h1 h2 => ?_, Or.inl rfl,
      fun _ => ⟨rfl, fun i v hv => nomatch hv⟩⟩
    exact absurd (h1.trans h2) (by decide)
  exact rest_of_replay (hfresh.foldl hrecs) hrecs rfl

theorem Rest.replay {fresh : Prop} {s : LogNode} (h : Rest decided s) (k : ℕ)
    (hk : s.pxs.instanceH ≤ k)
    (hfresh : fresh → s.pxs.instanceH = 0) : Replay decided fresh s.pxs k 0 := by
  refine ⟨fun i v hv => ?_, fun i h1 h2 => absurd (h1.trans h2) (by decide), ?_,
    fun hf => ⟨hfresh hf, ?_⟩⟩
  · obtain ⟨hd,h1,hi⟩ := h.values i v hv
    exact ⟨hd, h1, hi.trans hk⟩
  · exact h.last.imp_right fun hsome => ⟨rfl, hk, hsome⟩
  · intro i v hv
    rw [← hfresh hf]
    exact (h.values i v hv).2.2

theorem Rest.committed {s : LogNode} (h : Rest decided s) (inst : Unsigned) (v : Str)
    (hlt : s.pxs.instanceH < inst) (hv : v = (decided inst).1) :
    Rest decided (s.committed inst v) := by
  subst hv
  obtain ⟨recs,hfile,hdurable⟩ := h.durable
  refine ⟨fun i w hw => ?_, Or.inr (by simp [LogNode.committed]),
    recs ++ [.done inst (decided inst)], ?_, fun i w hw => ?_⟩
  · by_cases hi : i = inst
    · subst hi
      refine ⟨?_, Nat.one_le_of_lt hlt, Nat.le_refl _⟩
      simpa [LogNode.committed] using hw.symm
    · obtain ⟨hd,h1,hle⟩ := h.values i w (by simpa [LogNode.committed, hi] using hw)
      exact ⟨hd, h1, hle.trans hlt.le⟩
  · rw [written, List.foldl_concat, ← written, ← hfile]
    rfl
  · rw [List.filterMap_append, List.mem_append]
    by_cases hi : i = inst
    · subst hi
      have hw' : (decided inst).1 = w := by simpa [LogNode.committed] using hw
      exact Or.inr (by simp [Record.commitOf, hw'])
    · exact Or.inl (hdurable i w (by simpa [LogNode.committed, hi] using hw))

/-- All nodes decide the same values, and the dumps that are restored hold them up to
some instance. -/
def LogAct.Decided (decided : ℕ → Line) : LogAct → Prop
  | .commit inst value => value = (decided inst).1
  | .decidereq inst v => v = (decided inst).1
  | .restore recs => Holds decided recs
  | _ => True

/-- Nothing is committed during a restore, and what is restored reaches at least as far
as what the acceptor has. -/
def Calm (s : LogNode) : LogAct → Prop
  | .commit _ _ => s.pc = .idle
  | .decidereq _ _ => s.pc = .idle
  | .restore recs => s.pxs.instanceH ≤ upto recs
  | _ => True

/-- Only an acceptor that has recorded nothing restores a dump. -/
def Joins (s : LogNode) : LogAct → Prop
  | .restore _ => s.pxs.instanceH = 0
  | _ => True

instance (decided : ℕ → Line) (a : LogAct) : Decidable (a.Decided decided) := by
  unfold LogAct.Decided
  cases a <;> infer_instance

instance (s : LogNode) (a : LogAct) : Decidable (Calm s a) := by
  unfold Calm
  cases a <;> infer_instance

instance (s : LogNode) (a : LogAct) : Decidable (Joins s a) := by
  unfold Joins
  cases a <;> infer_instance

inductive Stable (decided : ℕ → Line) (fresh : Prop) (s : LogNode) : Prop
  | rest (hpc : s.pc = .idle) (h : Rest decided s)
  | opened (recs : List Record) (hpc : s.pc = .opened (written recs)) (hfile : s.file = [])
      (hrecs : Holds decided recs) (h : Replay decided fresh s.pxs (upto recs) 0)
  | reading (before after : List Record) (b type : Str) (inst : ℕ)
      (hpc : s.pc = .reading (ofText (b ++ after.flatMap Record.text)) type inst) (hb : Blank b)
      (hfile : s.file = written (before ++ after)) (hrecs : Holds decided (before ++ after))
      (h : Replay decided fresh s.pxs (upto (before ++ after)) (upto before))

variable {fresh : Prop} {s s' : LogNode} {a : LogAct}

theorem Stable.rest_of_idle (h : Stable decided fresh s) (hidle : s.pc = .idle) :
    Rest decided s := by
  cases h with
  | rest _ h => exact h
  | opened recs hpc => cases hpc.symm.trans hidle
  | reading before after b type inst hpc => cases hpc.symm.trans hidle

theorem stable_read {before after : List Record} {b type : Str} {inst : ℕ} {r' : Reader}
    (hb : Blank b)
    (hfile : s.file = written (before ++ after)) (hrecs : Holds decided (before ++ after))
    (h : Replay decided fresh s.pxs (upto (before ++ after)) (upto before))
    (hfail : (⟨ofText (b ++ after.flatMap Record.text), type, inst, s.pxs⟩ :
      Reader).token.input.fail = false)
    (hbody : (⟨ofText (b ++ after.flatMap Record.text), type, inst, s.pxs⟩ : Reader).token.body =
      some r') :
    Stable decided fresh { s with pxs := r'.pxs, pc := .reading r'.input r'.type r'.inst } := by
  cases after with
  | nil =>
    rw [List.flatMap_nil, List.append_nil, Reader.token, word, skipws_end b hb] at hfail
    cases hfail
  | cons x after =>
    obtain ⟨b',t',hb',_,hround⟩ := round_record x b (after.flatMap Record.text) type inst s.pxs hb
    rw [List.flatMap_cons] at hbody
    cases Option.some.inj (hround.symm.trans hbody)
    have hx := h.apply hrecs
    rw [List.append_cons] at hfile hrecs hx
    exact .reading (before ++ [x]) after b' _ _ rfl hb' hfile hrecs hx

theorem stable_step (h : Stable decided fresh s) (hd : a.Decided decided) (hc : Calm s a)
    (hf : fresh → Joins s a) (hstep : LogNode.Step s a s') : Stable decided fresh s' := by
  cases hstep with
  | commit inst value hlt =>
    exact .rest (by simp [LogNode.committed, show s.pc = .idle from hc, RestorePc.append])
      ((h.rest_of_idle hc).committed inst value hlt hd)
  | decided inst v hlt =>
    exact .rest (by simp [LogNode.committed, show s.pc = .idle from hc, RestorePc.append])
      ((h.rest_of_idle hc).committed inst v hlt hd)
  | old => exact h
  | restore recs hpc =>
    refine .opened recs (by rw [dump_written]) rfl hd ?_
    exact (h.rest_of_idle hpc).replay _ hc hf
  | write inst text hpc =>
    cases h with
    | rest hpc' => cases hpc'.symm.trans hpc
    | reading before after b type inst hpc' => cases hpc'.symm.trans hpc
    | opened recs hpc' hfile hrecs h =>
      cases hpc'.symm.trans hpc
      have htext : written recs ++ s.file.drop (written recs).length = written recs := by
        rw [hfile, List.drop_nil, List.append_nil]
      rw [htext]
      exact .reading [] recs [] [] inst (by rw [written_eq]; rfl) blank_nil rfl hrecs h
  | read input type inst hpc r' hfail hbody =>
    cases h with
    | rest hpc' => cases hpc'.symm.trans hpc
    | opened recs hpc' => cases hpc'.symm.trans hpc
    | reading before after b type' inst' hpc' hb hfile hrecs h =>
      cases hpc'.symm.trans hpc
      exact stable_read hb hfile hrecs h hfail hbody
  | finish input type inst hpc hfail =>
    cases h with
    | rest hpc' => cases hpc'.symm.trans hpc
    | opened recs hpc' => cases hpc'.symm.trans hpc
    | reading before after b type' inst' hpc' hb hfile hrecs h =>
      cases hpc'.symm.trans hpc
      cases after with
      | nil =>
        rw [List.append_nil] at hfile hrecs h
        exact .rest rfl (rest_of_replay h hrecs hfile)
      | cons x after =>
        -- there is a record to be read
        obtain ⟨_,_,_,hok,_⟩ := round_record x b (after.flatMap Record.text) type inst s.pxs hb
        rw [List.flatMap_cons] at hfail
        cases hok.symm.trans hfail

/-- The last instance is the highest that is recorded, and all that is recorded is in
the file. -/
structure Settled (s : LogNode) : Prop where
  last : s.pxs.instanceH = 0 ∨ (s.pxs.values s.pxs.instanceH).isSome = true
  highest : ∀ i v, s.pxs.values i = some v → i ≤ s.pxs.instanceH
  durable : ∀ i v, s.pxs.values i = some v → Durable s.file i v

theorem Rest.settled (h : Rest decided s) : Settled s := by
  obtain ⟨recs,hfile,hdurable⟩ := h.durable
  exact ⟨h.last, fun i v hv => (h.values i v hv).2.2, fun i v hv => ⟨recs, hfile, hdurable i v hv⟩⟩

/-- If only an empty acceptor restores, this is so during a restore as well. -/
theorem Stable.settled (h : Stable decided True s) : Settled s := by
  cases h with
  | rest _ h => exact h.settled
  | opened recs _ _ _ h =>
    obtain ⟨hlast,honly⟩ := h.only trivial
    refine ⟨Or.inl hlast, fun i v hv => hlast ▸ honly i v hv, fun i v hv => ?_⟩
    exact absurd ((h.values i v hv).2.1.trans (honly i v hv)) (by decide)
  | reading before after b type inst _ _ hfile hrecs h =>
    obtain ⟨hlast,honly⟩ := h.only trivial
    refine ⟨?_, fun i v hv => hlast ▸ honly i v hv,
      fun i v hv => ⟨_, hfile, h.mem_recs hrecs i v hv⟩⟩
    rw [hlast]
    exact h.newest

theorem Stable.decided_eq (h : Stable decided fresh s) (i : ℕ) (v : Str)
    (hv : s.pxs.values i = some v) :
    v = (decided i).1 := by
  cases h with
  | rest _ h => exact (h.values i v hv).1
  | opened recs _ _ _ h => exact (h.values i v hv).1
  | reading before after b type inst _ _ _ _ h => exact (h.values i v hv).1

theorem run_isSome (acts : List LogAct) (s t : LogNode) (hrun : run LogNode.step s acts = some t)
    (i : ℕ) (hi : (s.pxs.values i).isSome = true) : (t.pxs.values i).isSome = true :=
  run_invariant LogNode.step (fun u => (u.pxs.values i).isSome = true)
    (fun _ _ _ hu hs => LogNode.step_isSome (LogNode.step_inv hs) i hu) s t acts hi hrun

theorem Settled.instanceH_le {t : LogNode} (hs : Settled s) (ht : Settled t)
    (hkeep : ∀ i, (s.pxs.values i).isSome = true → (t.pxs.values i).isSome = true) :
    s.pxs.instanceH ≤ t.pxs.instanceH := by
  rcases hs.last with hzero | hsome
  · rw [hzero]
    exact Nat.zero_le _
  · obtain ⟨v,hv⟩ := Option.isSome_iff_exists.mp (hkeep _ hsome)
    exact ht.highest _ v hv

theorem stable_run (me : Str) (recs : List Record) (hrecs : Holds decided recs) (acts : List LogAct)
    (hd : ∀ a ∈ acts, a.Decided decided) (hc : RunAll LogNode.step Calm (.start me recs) acts)
    (hf : fresh → RunAll LogNode.step Joins (.start me recs) acts) (t : LogNode)
    (hrun : run LogNode.step (.start me recs) acts = some t) : Stable decided fresh t := by
  have hall : RunAll LogNode.step (fun s a => (a.Decided decided ∧ Calm s a) ∧ (fresh → Joins s a))
      (.start me recs) acts := by
    refine runAll_and _ _ _ _ _ (runAll_and _ _ _ _ _ (runAll_of_mem _ _ _ _ hd) hc) ?_
    by_cases hp : fresh
    · exact (runAll_congr _ _ _ (fun _ _ => by simp [hp]) _ _).mpr (hf hp)
    · exact (runAll_congr _ _ (fun _ _ => True) (fun _ _ => by simp [hp]) _ _).mpr
        (runAll_of_mem _ (fun _ => True) _ _ fun _ _ => trivial)
  exact run_invariant_of_all _ _ (Stable decided fresh)
    (fun u a u' hu hP hs => stable_step hu hP.1.1 hP.1.2 hP.2 (LogNode.step_inv hs)) _ t acts
    (.rest rfl (rest_start me recs hrecs)) hall hrun

/-- The decided history is stable as long as nothing is committed during a restore and
every dump that is restored reaches as far as the acceptor: recorded values stay, and
whenever no restore is in progress, `instance_h` is not less than it was before and
everything recorded is in the file. If moreover only an acceptor that has recorded
nothing restores, this holds during restores as well. -/
theorem decided_history_stable (decided : ℕ → Line) (me : Str) (recs : List Record)
    (hrecs : Holds decided recs) (acts acts' : List LogAct) (s t : LogNode)
    (hd : ∀ a ∈ acts ++ acts', a.Decided decided)
    (hc : RunAll LogNode.step Calm (.start me recs) (acts ++ acts'))
    (hs : run LogNode.step (.start me recs) acts = some s)
    (ht : run LogNode.step s acts' = some t) :
    (∀ i v, s.pxs.values i = some v → t.pxs.values i = some v) ∧
    (s.pc = .idle → t.pc = .idle → s.pxs.instanceH ≤ t.pxs.instanceH) ∧
    (t.pc = .idle → ∀ i v, t.pxs.values i = some v → Durable t.file i v) ∧
    (RunAll LogNode.step Joins (.start me recs) (acts ++ acts') →
      s.pxs.instanceH ≤ t.pxs.instanceH ∧ ∀ i v, t.pxs.values i = some v → Durable t.file i v) := by
  have hrun : run LogNode.step (.start me recs) (acts ++ acts') = some t := by
    rw [run_append, hs]
    exact ht
  have hda : ∀ a ∈ acts, a.Decided decided := fun a ha => hd a (List.mem_append_left _ ha)
  have hca := runAll_take _ _ _ _ _ hc
  have hkeep := run_isSome acts' s t ht
  have hs0 : Stable decided False s :=
    stable_run me recs hrecs acts hda hca (fun hf => nomatch hf) s hs
  have ht0 : Stable decided False t :=
    stable_run me recs hrecs _ hd hc (fun hf => nomatch hf) t hrun
  refine ⟨fun i v hv => ?_, fun hsi hti => ?_, fun hti => (ht0.rest_of_idle hti).settled.durable,
    fun hj => ?_⟩
  · obtain ⟨w,hw⟩ := Option.isSome_iff_exists.mp (hkeep i (by rw [hv]; rfl))
    rw [hw, ht0.decided_eq i w hw, hs0.decided_eq i v hv]
  · exact (hs0.rest_of_idle hsi).settled.instanceH_le (ht0.rest_of_idle hti).settled hkeep
  · have hs1 : Stable decided True s :=
      stable_run me recs hrecs acts hda hca (fun _ => runAll_take _ _ _ _ _ hj) s hs
    have ht1 : Stable decided True t := stable_run me recs hrecs _ hd hc (fun _ => hj) t hrun
    exact ⟨hs1.settled.instanceH_le ht1.settled hkeep, ht1.settled.durable⟩

theorem newline_not_mem_viewA : '\n' ∉ ['a', ' '] := by decide

theorem newline_not_mem_viewAB : '\n' ∉ ['a', ' ', 'b', ' '] := by decide

/-- The views of `a`, then of `a` and `b`. -/
def viewsAB (i : ℕ) : Line :=
  if i = 1 then ⟨['a', ' '], newline_not_mem_viewA⟩
    else ⟨['a', ' ', 'b', ' '], newline_not_mem_viewAB⟩

/-- The log of a node that knows two instances. -/
def firstTwo : List Record := [.done 1 (viewsAB 1), .done 2 (viewsAB 2)]

def restoreActs : List LogAct := [.restore firstTwo, .write 7, .read, .read, .read]

theorem decided_history_stable_join : ∃ s t,
    run LogNode.step (.start ['b'] []) restoreActs = some s ∧
    run LogNode.step s [.commit 3 (viewsAB 3)] = some t ∧ s.pxs.instanceH = 2 ∧
    s.pxs.instanceH ≤ t.pxs.instanceH ∧ ∀ i v, t.pxs.values i = some v → Durable t.file i v := by
  have hends : ∃ s, run LogNode.step (.start ['b'] []) restoreActs = some s ∧
      s.pxs.instanceH = 2 := by
    decide +kernel
  obtain ⟨s,hs,hinst⟩ := hends
  have hall := decided_history_stable viewsAB ['b'] [] rfl restoreActs [.commit 3 (viewsAB 3)] s _
    (by decide +kernel) (by decide +kernel) hs rfl
  obtain ⟨hle,hdurable⟩ := hall.2.2.2 (by decide +kernel)
  exact ⟨s, _, hs, rfl, hinst, hle, hdurable⟩

/-- What is durable is found again when the acceptor restarts. -/
theorem Durable.logread {file : Str} {i : ℕ} {v : Str} (h : Durable file i v) (inst : ℕ) (me : Str)
    (a : AccState) (ha : logread inst file (.fresh me) = some a) : (a.values i).isSome = true := by
  obtain ⟨recs,rfl,hmem⟩ := h
  cases Option.some.inj ((logread_written recs inst (.fresh me)).symm.trans ha)
  rw [(recovered_foldl recs me).values, lastOf]
  obtain ⟨x,hx,hval⟩ := List.mem_filterMap.mp hmem
  have hne : recs.filterMap (Record.valueOf i) ≠ [] := by
    intro hnil
    have hnone := List.filterMap_eq_nil_iff.mp hnil x hx
    cases x with
    | done n w =>
      cases hval
      simp [Record.valueOf] at hnone
    | propseen n m => cases hval
    | accepted n m w => cases hval
  rw [List.getLast?_eq_some_getLast hne]
  rfl

def commitThree : List LogAct :=
  [.commit 1 (viewsAB 1), .commit 2 (viewsAB 2), .commit 3 (viewsAB 3)]

/-- Two ways to fall back. A dump of two instances arrives after the third was committed:
`instance_h` goes back to 2 and instance 3 is in memory but not in the file. And a commit
that overtakes the replay at an acceptor that was empty: `instance_h` goes from 3 to 2. -/
theorem restore_goes_back :
    (∃ s t, run LogNode.step (.start ['a'] []) commitThree = some s ∧
      run LogNode.step s restoreActs = some t ∧ s.pxs.instanceH = 3 ∧ t.pxs.instanceH = 2 ∧
      t.pc = .idle ∧ t.pxs.values 3 = some (viewsAB 3).1 ∧ ¬ Durable t.file 3 (viewsAB 3).1) ∧
    ∃ s t, run LogNode.step (.start ['a'] [])
    [.restore firstTwo, .write 7, .read, .commit 3 (viewsAB 3)] =
        some s ∧
      run LogNode.step s [.read] = some t ∧ s.pxs.instanceH = 3 ∧ t.pxs.instanceH = 2 := by
  constructor
  · have hends : ∃ s, run LogNode.step (.start ['a'] []) commitThree = some s ∧
      s.pxs.instanceH = 3 ∧
        ∃ t, run LogNode.step s restoreActs = some t ∧ t.pxs.instanceH = 2 ∧ t.pc = .idle ∧
          t.pxs.values 3 = some (viewsAB 3).1 ∧ t.file = written firstTwo := by
      decide +kernel
    obtain ⟨s,hs,h3,t,ht,h2,hpc,hv,hfile⟩ := hends
    refine ⟨s, t, hs, ht, h3, h2, hpc, hv, fun hdur => ?_⟩
    rw [hfile] at hdur
    exact absurd (hdur.logread 0 ['a'] _ (logread_written firstTwo 0 _)) (by decide)
  · have hends : ∃ s, run LogNode.step (.start ['a'] [])
        [.restore firstTwo, .write 7, .read, .commit 3 (viewsAB 3)] = some s ∧ s.pxs.instanceH = 3 ∧
        ∃ t, run LogNode.step s [.read] = some t ∧ t.pxs.instanceH = 2 := by
      decide +kernel
    obtain ⟨s,hs,h3,t,ht,h2⟩ := hends
    exact ⟨s, t, hs, ht, h3, h2⟩

end Yfs.Paxos

import Mathlib.Algebra.GroupWithZero.Nat
import Mathlib.Data.List.DropRight
import Yfs.Istream
import Yfs.PaxosConfig

namespace Yfs.Paxos
open Istream Dir

structure PropT where
  n : ℕ
  m : Str
  deriving DecidableEq

/-- The variables of an acceptor that its log is about. Unlike in `Acceptor`, an instance
that is not in the map can be told from one with an empty value. -/
structure AccState where
  nH : PropT
  nA : PropT
  vA : Str
  instanceH : ℕ
  values : ℕ → Option Str

/-- As the constructor sets them before it reads the log. -/
def AccState.fresh (me : Str) : AccState := ⟨⟨0, me⟩, ⟨0, me⟩, [], 0, fun _ => none⟩

def doneType : Str := ['d', 'o', 'n', 'e']
def propseenType : Str := ['p', 'r', 'o', 'p', 's', 'e', 'e', 'n']
def acceptedType : Str := ['a', 'c', 'c', 'e', 'p', 't', 'e', 'd']

def loginstance (file : Str) (inst : ℕ) (v : Str) : Str :=
  file ++ (doneType ++ ' ' :: (Nat.toDigits 10 inst ++ ' ' :: (v ++ ['\n'])))

def logprop (file : Str) (nH : PropT) : Str :=
  file ++ (propseenType ++ ' ' :: (Nat.toDigits 10 nH.n ++ ' ' :: (nH.m ++ ['\n'])))

def logaccept (file : Str) (n : PropT) (v : Str) : Str :=
  file ++ (acceptedType ++ ' ' :: (Nat.toDigits 10 n.n ++ ' ' :: (n.m ++ ' ' :: (v ++ ['\n']))))

def dumpLoop : ℕ → Istream → Str → Str → Str
  | 0, _, _, res => res
  | fuel + 1, input, v, res =>
    let line := input.getline v
    if line.2.fail = true then res else dumpLoop fuel line.2 line.1 (res ++ line.1 ++ ['\n'])

/-- Every round of the loop reads a character, so that the fuel lasts. -/
def dump (file : Str) : Str := dumpLoop (file.length + 1) (ofText file) [] []

/-- `log::restore` truncates the file. -/
def logRestore (_file s : Str) : Str := s

/-- The variables of `logread`; `inst` is not initialised. -/
structure Reader where
  input : Istream
  type : Str
  inst : ℕ
  pxs : AccState

def Reader.token (r : Reader) : Reader :=
  let w := r.input.word r.type
  { r with type := w.1, input := w.2 }

/-- What a "done" record sets. -/
def AccState.learn (pxs : AccState) (inst : ℕ) (v : Str) : AccState where
  nH := { pxs.nH with n := 0 }
  nA := { pxs.nA with n := 0 }
  vA := []
  instanceH := inst
  values := Function.update pxs.values inst (some v)

/-- The body of the loop. A record of another type fails a `VERIFY`. -/
def Reader.body (r : Reader) : Option Reader :=
  if r.type = doneType then
    let n := r.input.unsigned r.inst
    let v := n.2.get.getline []
    some ⟨v.2, r.type, n.1, r.pxs.learn n.1 v.1⟩
  else if r.type = propseenType then
    let n := r.input.unsigned r.pxs.nH.n
    let m := n.2.word r.pxs.nH.m
    some ⟨m.2, r.type, r.inst, { r.pxs with nH := ⟨n.1, m.1⟩ }⟩
  else if r.type = acceptedType then
    let n := r.input.unsigned r.pxs.nA.n
    let m := n.2.word r.pxs.nA.m
    let v := m.2.get.getline []
    some ⟨v.2, r.type, r.inst, { r.pxs with nA := ⟨n.1, m.1⟩, vA := v.1 }⟩
  else none

def Reader.loop : ℕ → Reader → Option AccState
  | 0, _ => none
  | fuel + 1, r => if r.token.input.fail = true then some r.pxs else r.token.body.bind (loop fuel)

/-- `logread` of the file, into an acceptor; `inst` is what the variable `instance`
happens to hold. `none` is a failed `VERIFY`: the fuel lasts. -/
def logread (inst : ℕ) (file : Str) (pxs : AccState) : Option AccState :=
  Reader.loop (file.length + 1) ⟨ofText file, [], inst, pxs⟩

theorem loop_round (fuel : ℕ) {r q r' : Reader} (htoken : r.token = q)
    (hfail : q.input.fail = false)
    (hbody : q.body = some r') : Reader.loop (fuel + 1) r = Reader.loop fuel r' := by
  rw [Reader.loop, htoken, hfail, if_neg Bool.false_ne_true, hbody]
  rfl

abbrev Unsigned := Fin (2^32)

instance neZero_unsigned : NeZero (2^32) := ⟨by decide⟩

/-- A name that `>>` reads as a whole. -/
abbrev Name := {m : Str // IsName m}

/-- A value that `getline` reads as a whole. -/
abbrev Line := {v : Str // '\n' ∉ v}

inductive Record
  | done (inst : Unsigned) (v : Line)
  | propseen (n : Unsigned) (m : Name)
  | accepted (n : Unsigned) (m : Name) (v : Line)
  deriving DecidableEq

namespace Record

def write (file : Str) : Record → Str
  | .done inst v => loginstance file inst v
  | .propseen n m => logprop file ⟨n, m⟩
  | .accepted n m v => logaccept file ⟨n, m⟩ v

/-- The line of the file. -/
def text (x : Record) : Str := x.write []

/-- What it means for the acceptor. -/
def apply (pxs : AccState) : Record → AccState
  | .done inst v => pxs.learn inst v
  | .propseen n m => { pxs with nH := ⟨n, m⟩ }
  | .accepted n m v => { pxs with nA := ⟨n, m⟩, vA := v }

/-- What it leaves in the variable `instance` of `logread`. -/
def instAfter (old : ℕ) : Record → ℕ
  | .done inst _ => inst
  | _ => old

theorem write_eq (file : Str) (x : Record) : x.write file = file ++ x.text := by
  cases x <;> rfl

end Record

/-- The file after these records have been written. -/
def written (recs : List Record) : Str := recs.foldl Record.write []

theorem foldl_write (recs : List Record) (file : Str) :
    recs.foldl Record.write file = file ++ recs.flatMap Record.text := by
  induction recs generalizing file with
  | nil => exact (List.append_nil file).symm
  | cons x recs ih => rw [List.foldl_cons, ih, x.write_eq, List.flatMap_cons, List.append_assoc]

theorem written_eq (recs : List Record) : written recs = recs.flatMap Record.text :=
  foldl_write recs []

def Blank (b : Str) : Prop := ∀ c ∈ b, isSpace c = true

theorem blank_nil : Blank [] := fun _ hc => nomatch hc

theorem blank_space : Blank [' '] := List.forall_mem_singleton.mpr rfl

theorem isName_doneType : IsName doneType := by decide

theorem isName_propseenType : IsName propseenType := by decide

theorem isName_acceptedType : IsName acceptedType := by decide

theorem token_word (b w s t : Str) (i : ℕ) (pxs : AccState) (hb : Blank b)
    (hw : IsName w) :
    (⟨ofText (b ++ (w ++ ' ' :: s)), t, i, pxs⟩ : Reader).token =
      ⟨ofText (' ' :: s), w, i, pxs⟩ := by
  rw [Reader.token, word_ofText b w (' ' :: s) t hb hw.1 hw.2 (stops_cons rfl)]
  rfl

theorem unsigned_field (n : Unsigned) (old : ℕ) (s : Str) :
    (ofText (' ' :: (Nat.toDigits 10 n ++ ' ' :: s))).unsigned old = ((n : ℕ), ofText (' ' :: s)) :=
  unsigned_ofText [' '] (' ' :: s) n old blank_space n.isLt fun c hc => by
    cases hc
    rfl

theorem word_field (m : Name) (old : Str) (c : Char) (s : Str) (hc : isSpace c = true) :
    (ofText (' ' :: (m.1 ++ c :: s))).word old = (m.1, ofText (c :: s)) :=
  word_ofText [' '] m.1 (c :: s) old blank_space m.2.1 m.2.2 (stops_cons hc)

theorem body_done (input : Istream) (i : ℕ) (pxs : AccState) :
    (⟨input, doneType, i, pxs⟩ : Reader).body =
      some ⟨((input.unsigned i).2.get.getline []).2, doneType, (input.unsigned i).1,
        pxs.learn (input.unsigned i).1 ((input.unsigned i).2.get.getline []).1⟩ := rfl

theorem body_propseen (input : Istream) (i : ℕ) (pxs : AccState) :
    (⟨input, propseenType, i, pxs⟩ : Reader).body =
      some ⟨((input.unsigned pxs.nH.n).2.word pxs.nH.m).2, propseenType, i, { pxs with
        nH := ⟨(input.unsigned pxs.nH.n).1, ((input.unsigned pxs.nH.n).2.word pxs.nH.m).1⟩ }⟩ := rfl

theorem body_accepted (input : Istream) (i : ℕ) (pxs : AccState) :
    (⟨input, acceptedType, i, pxs⟩ : Reader).body =
      some ⟨(((input.unsigned pxs.nA.n).2.word pxs.nA.m).2.get.getline []).2, acceptedType, i,
        { pxs with
        nA := ⟨(input.unsigned pxs.nA.n).1, ((input.unsigned pxs.nA.n).2.word pxs.nA.m).1⟩
        vA := (((input.unsigned pxs.nA.n).2.word pxs.nA.m).2.get.getline []).1 }⟩ := rfl

/-- A round of the loop reads a record, up to its newline or with it. -/
theorem round_record (x : Record) (b s t : Str) (i : ℕ) (pxs : AccState) (hb : Blank b) :
    ∃ b' t', Blank b' ∧
      (⟨ofText (b ++ (x.text ++ s)), t, i, pxs⟩ : Reader).token.input.fail = false ∧
      (⟨ofText (b ++ (x.text ++ s)), t, i, pxs⟩ : Reader).token.body =
        some ⟨ofText (b' ++ s), t', x.instAfter i, x.apply pxs⟩ := by
  cases x with
  | done n v =>
    have htext : Record.text (.done n v) ++ s =
        doneType ++ ' ' :: (Nat.toDigits 10 n ++ ' ' :: (v.1 ++ '\n' :: s)) := by
      simp [Record.text, Record.write, loginstance]
    rw [htext, token_word b doneType _ t i pxs hb isName_doneType]
    refine ⟨[], doneType, blank_nil, rfl, ?_⟩
    rw [body_done, unsigned_field, get_ofText, getline_ofText _ _ _ v.2]
    rfl
  | propseen n m =>
    have htext : Record.text (.propseen n m) ++ s =
        propseenType ++ ' ' :: (Nat.toDigits 10 n ++ ' ' :: (m.1 ++ '\n' :: s)) := by
      simp [Record.text, Record.write, logprop]
    rw [htext, token_word b propseenType _ t i pxs hb isName_propseenType]
    -- the newline is left for the next read of a type
    refine ⟨['\n'], propseenType, List.forall_mem_singleton.mpr rfl, rfl, ?_⟩
    rw [body_propseen, unsigned_field, word_field m _ '\n' s rfl]
    rfl
  | accepted n m v =>
    have htext : Record.text (.accepted n m v) ++ s = acceptedType ++
        ' ' :: (Nat.toDigits 10 n ++ ' ' :: (m.1 ++ ' ' :: (v.1 ++ '\n' :: s))) := by
      simp [Record.text, Record.write, logaccept]
    rw [htext, token_word b acceptedType _ t i pxs hb isName_acceptedType]
    refine ⟨[], acceptedType, blank_nil, rfl, ?_⟩
    rw [body_accepted, unsigned_field, word_field m _ ' ' _ rfl, get_ofText,
      getline_ofText _ _ _ v.2]
    rfl

/-- The loop reads the records at the start of a file and goes on with the rest. -/
theorem loop_records (recs : List Record) (fuel : ℕ) (b tail t : Str) (i : ℕ) (pxs : AccState)
    (hb : Blank b) :
    ∃ b' t', Blank b' ∧
      Reader.loop (recs.length + fuel) ⟨ofText (b ++ (recs.flatMap Record.text ++ tail)), t, i,
        pxs⟩ =
        Reader.loop fuel ⟨ofText (b' ++ tail), t', recs.foldl Record.instAfter i,
          recs.foldl Record.apply pxs⟩ := by
  induction recs generalizing b t i pxs with
  | nil => exact ⟨b, t, hb, by simp⟩
  | cons x recs ih =>
    obtain ⟨b1,t1,hb1,hfail,hbody⟩ :=
      round_record x b (recs.flatMap Record.text ++ tail) t i pxs hb
    obtain ⟨b2,t2,hb2,hloop⟩ := ih b1 t1 (x.instAfter i) (x.apply pxs) hb1
    refine ⟨b2, t2, hb2, ?_⟩
    rw [List.length_cons, Nat.add_right_comm, List.flatMap_cons, List.append_assoc,
      loop_round _ rfl hfail hbody]
    exact hloop

theorem length_le_flatMap_text (recs : List Record) :
    recs.length ≤ (recs.flatMap Record.text).length := by
  induction recs with
  | nil => exact Nat.le_refl 0
  | cons x recs ih =>
    have hx : 1 ≤ x.text.length := by
      cases x <;> simp [Record.text, Record.write, loginstance, logprop, logaccept] <;> omega
    rw [List.flatMap_cons, List.length_append, List.length_cons]
    omega

/-- Reading what was written: the records at the start of the file, then what is left. -/
theorem logread_written_append (recs : List Record) (tail : Str) (i : ℕ) (pxs : AccState) :
    ∃ b' t' fuel, Blank b' ∧ tail.length ≤ fuel ∧ logread i (written recs ++ tail) pxs =
      Reader.loop (fuel + 1) ⟨ofText (b' ++ tail), t', recs.foldl Record.instAfter i,
        recs.foldl Record.apply pxs⟩ := by
  have hle := length_le_flatMap_text recs
  obtain ⟨fuel,hfuel⟩ := Nat.exists_eq_add_of_le hle
  obtain ⟨b',t',hb',hloop⟩ := loop_records recs (fuel + tail.length + 1) [] tail [] i pxs blank_nil
  refine ⟨b', t', fuel + tail.length, hb', Nat.le_add_left .., ?_⟩
  rw [← hloop, List.nil_append, logread, written_eq, List.length_append, hfuel]
  congr 1
  omega

theorem loop_end (fuel : ℕ) (b t : Str) (i : ℕ) (pxs : AccState) (hb : Blank b) :
    Reader.loop (fuel + 1) ⟨ofText b, t, i, pxs⟩ = some pxs := by
  rw [Reader.loop, Reader.token, word, skipws_end b hb]
  rfl

theorem logread_written (recs : List Record) (i : ℕ) (pxs : AccState) :
    logread i (written recs) pxs = some (recs.foldl Record.apply pxs) := by
  obtain ⟨b',t',fuel,hb',_,hread⟩ := logread_written_append recs [] i pxs
  rw [List.append_nil, List.append_nil] at hread
  rw [hread, loop_end fuel b' t' _ _ hb']

/-- A file whose last line is ended is copied by `dump`. -/
theorem dumpLoop_eq (fuel : ℕ) (file v res : Str) (hfuel : file.length < fuel)
    (hend : ∀ c ∈ file.getLast?, c = '\n') :
    dumpLoop fuel (ofText file) v res = res ++ file := by
  induction fuel generalizing file v res with
  | zero => exact absurd hfuel (Nat.not_lt_zero _)
  | succ fuel ih =>
    rw [dumpLoop]
    by_cases hnil : file = []
    · subst hnil
      exact (List.append_nil res).symm
    · -- the first line and the lines after it
      have hmem : '\n' ∈ file := by
        rw [← hend _ (List.getLast?_eq_some_getLast hnil)]
        exact List.getLast_mem hnil
      obtain ⟨line,rest,rfl,hline⟩ := List.eq_append_cons_of_mem hmem
      rw [getline_ofText line rest v hline]
      have hrest : ∀ c ∈ rest.getLast?, c = '\n' := by
        intro c hc
        have hne : rest ≠ [] := by
          rintro rfl
          cases hc
        apply hend
        rw [List.getLast?_append_of_ne_nil _ (List.cons_ne_nil _ _),
          List.getLast?_cons_of_ne_nil hne]
        exact hc
      rw [List.length_append, List.length_cons] at hfuel
      have hgo := ih rest line (res ++ line ++ ['\n']) (by omega) hrest
      simpa [ofText] using hgo

theorem text_ends (x : Record) : ∃ line, x.text = line ++ ['\n'] := by
  cases x with
  | done n v =>
    exact ⟨doneType ++ ' ' :: (Nat.toDigits 10 n ++ ' ' :: v.1),
      by simp [Record.text, Record.write, loginstance]⟩
  | propseen n m =>
    exact ⟨propseenType ++ ' ' :: (Nat.toDigits 10 n ++ ' ' :: m.1),
      by simp [Record.text, Record.write, logprop]⟩
  | accepted n m v =>
    exact ⟨acceptedType ++ ' ' :: (Nat.toDigits 10 n ++ ' ' :: (m.1 ++ ' ' :: v.1)),
      by simp [Record.text, Record.write, logaccept]⟩

theorem written_ends (recs : List Record) : ∀ c ∈ (written recs).getLast?, c = '\n' := by
  rw [written_eq]
  induction recs using List.reverseRecOn with
  | nil => exact fun c hc => nomatch hc
  | append_singleton recs x _ =>
    obtain ⟨line,hline⟩ := text_ends x
    intro c hc
    rw [List.flatMap_append, List.flatMap_singleton, hline, ← List.append_assoc,
      List.getLast?_concat] at hc
    cases hc
    rfl

theorem dump_written (recs : List Record) : dump (written recs) = written recs :=
  dumpLoop_eq _ _ [] [] (Nat.lt_succ_self _) (written_ends recs)

namespace Record

/-- The instance that the record decides. -/
def decided : Record → Option ℕ
  | .done inst _ => some inst
  | _ => none

/-- The value that it decides for this instance. -/
def valueOf (i : ℕ) : Record → Option Str
  | .done inst v => if (inst : ℕ) = i then some v else none
  | _ => none

def proposed : Record → Option ℕ
  | .propseen n _ => some n
  | _ => none

def acceptedN : Record → Option ℕ
  | .accepted n _ _ => some n
  | _ => none

def acceptedV : Record → Option Str
  | .accepted _ _ v => some v
  | _ => none

end Record

/-- The last of these data that the records have. -/
def lastOf {α : Type} (f : Record → Option α) (recs : List Record) : Option α :=
  (recs.filterMap f).getLast?

/-- The records after the last "done" record. -/
def sinceDone (recs : List Record) : List Record := recs.rtakeWhile fun x => x.decided.isNone

/-- What an acceptor should know after these records. -/
structure Recovered (recs : List Record) (a : AccState) : Prop where
  values : ∀ i, a.values i = lastOf (Record.valueOf i) recs
  instanceH : a.instanceH = (lastOf Record.decided recs).getD 0
  nH : a.nH.n = (lastOf Record.proposed (sinceDone recs)).getD 0
  nA : a.nA.n = (lastOf Record.acceptedN (sinceDone recs)).getD 0
  vA : a.vA = (lastOf Record.acceptedV (sinceDone recs)).getD []

theorem lastOf_snoc {α : Type} (f : Record → Option α) (recs : List Record) (x : Record) :
    lastOf f (recs ++ [x]) = (f x).or (lastOf f recs) := by
  rw [lastOf, List.filterMap_append, lastOf]
  cases hx : f x with
  | none => simp [hx]
  | some y => simp [hx]

theorem sinceDone_snoc (recs : List Record) (x : Record) : sinceDone (recs ++ [x]) =
    if x.decided.isNone = true then sinceDone recs ++ [x] else [] := by
  rw [sinceDone, List.rtakeWhile_concat]
  rfl

theorem recovered_foldl (recs : List Record) (me : Str) :
    Recovered recs (recs.foldl Record.apply (.fresh me)) := by
  induction recs using List.reverseRecOn with
  | nil => exact ⟨fun _ => rfl, rfl, rfl, rfl, rfl⟩
  | append_singleton recs x ih =>
    rw [List.foldl_concat]
    cases x with
    | done n v =>
      have hsince : sinceDone (recs ++ [.done n v]) = [] := sinceDone_snoc recs _
      refine ⟨fun i => ?_, ?_, ?_, ?_, ?_⟩
      · rw [lastOf_snoc, ← ih.values i]
        by_cases hi : i = n
        · subst hi
          simp [Record.valueOf, Record.apply, AccState.learn]
        · simp [Record.valueOf, Record.apply, AccState.learn, hi, Ne.symm hi]
      · rw [lastOf_snoc]
        rfl
      · rw [hsince]
        rfl
      · rw [hsince]
        rfl
      · rw [hsince]
        rfl
    | propseen n m =>
      have hsince : sinceDone (recs ++ [.propseen n m]) = sinceDone recs ++ [.propseen n m] :=
        sinceDone_snoc recs _
      refine ⟨fun i => ?_, ?_, ?_, ?_, ?_⟩
      · rw [lastOf_snoc]
        exact ih.values i
      · rw [lastOf_snoc]
        exact ih.instanceH
      · rw [hsince, lastOf_snoc]
        rfl
      · rw [hsince, lastOf_snoc]
        exact ih.nA
      · rw [hsince, lastOf_snoc]
        exact ih.vA
    | accepted n m v =>
      have hsince : sinceDone (recs ++ [.accepted n m v]) = sinceDone recs ++ [.accepted n m v] :=
        sinceDone_snoc recs _
      refine ⟨fun i => ?_, ?_, ?_, ?_, ?_⟩
      · rw [lastOf_snoc]
        exact ih.values i
      · rw [lastOf_snoc]
        exact ih.instanceH
      · rw [hsince, lastOf_snoc]
        exact ih.nH
      · rw [hsince, lastOf_snoc]
        rfl
      · rw [hsince, lastOf_snoc]
        rfl

/-- A logged view is read back with its members in their order. -/
theorem Recovered.members {recs : List Record} {a : AccState} (h : Recovered recs a) (i : ℕ)
    (l : List Name) (hl : lastOf (Record.valueOf i) recs = some (value (l.map Subtype.val))) :
    (a.values i).map Paxos.members = some (l.map Subtype.val) := by
  rw [h.values, hl, Option.map_some, members_value]
  intro m hm
  obtain ⟨n,_,rfl⟩ := List.mem_map.mp hm
  exact n.2

/-- The log round trip. Whatever was logged, `logread` finds it: the last value for every
instance, the last instance, and the proposal numbers and the accepted value since then;
it does so when the acceptor restarts and when another fresh one restores the dump. -/
theorem log_round_trip (recs : List Record) (me other old : Str) (inst inst' : ℕ) :
    ∃ a b, logread inst (written recs) (.fresh me) = some a ∧
      logread inst' (logRestore old (dump (written recs))) (.fresh other) = some b ∧
      Recovered recs a ∧ Recovered recs b ∧
      ∀ i (l : List Name), lastOf (Record.valueOf i) recs = some (value (l.map Subtype.val)) →
        (a.values i).map members = some (l.map Subtype.val) ∧
        (b.values i).map members = some (l.map Subtype.val) := by
  have ha := recovered_foldl recs me
  have hb := recovered_foldl recs other
  refine ⟨_, _, logread_written recs inst _, ?_, ha, hb,
    fun i l hl => ⟨ha.members i l hl, hb.members i l hl⟩⟩
  rw [dump_written]
  exact logread_written recs inst' _

end Yfs.Paxos

import Yfs.CInt
import Yfs.FileOps
import Mathlib.Data.List.TakeWhile

namespace Yfs.Dir
open Text CInt

/-- The variables of the loop of `fuseserver_readdir`, and the names and inums that have been
passed to `dirbuf_add`. -/
structure IntScan where
  startPos : ℤ
  delimPos : Option ℤ
  fileInum : Str
  added : List (Str × Inum)
  deriving DecidableEq

/-- `buffer.substr(a+1,b-a-1)`; `none` where an `int` overflows or `substr` throws. -/
def between (buffer : Str) (a b : ℤ) : Option Str :=
  (int (a + 1)).bind fun pos => (int (b - a)).bind fun d => (int (d - 1)).bind fun len =>
    substr buffer (sizeT pos) (sizeT len)

def IntScan.step (buffer : Str) (s : IntScan) (i : ℕ) (c : Char) : Option IntScan :=
  if c = ':' then (between buffer s.startPos (toInt i)).map fun n =>
    { s with delimPos := some (toInt i), fileInum := n }
  else if c = ';' then s.delimPos.bind fun delim => (between buffer delim (toInt i)).bind fun n =>
    -- `dirbuf_add` gets the name as a C string
    (n2i s.fileInum).map fun inum =>
      { s with startPos := toInt i, added := s.added ++ [(File.cstr n, inum)] }
  else some s

/-- The loop, whose `i` is an `unsigned int`. -/
def intScanFrom (buffer : Str) : ℕ → IntScan → ℕ → Option IntScan
  | 0, _, _ => none
  | fuel + 1, s, i =>
    match buffer[i]? with
    -- `i < buffer.length()` is false
    | none => some s
    | some c => (s.step buffer i c).bind fun s' => intScanFrom buffer fuel s' ((i + 1) % 2^32)

/-- What `fuseserver_readdir` passes to `dirbuf_add`. -/
def dirbufAdds (buffer : Str) : Option (List (Str × Inum)) :=
  (intScanFrom buffer (buffer.length + 1) ⟨-1, none, [], []⟩ 0).map IntScan.added

/-- The loop over a text, as long as `i` does not wrap around. -/
def intSteps (buffer : Str) : IntScan → ℕ → Str → Option IntScan
  | s, _, [] => some s
  | s, i, c :: cs => (s.step buffer i c).bind fun s' => intSteps buffer s' (i + 1) cs

theorem intScanFrom_eq {buffer cs : Str} (s : IntScan) {i : ℕ} (hcs : buffer.drop i = cs)
    (hi : i ≤ buffer.length) (hlen : buffer.length < 2^32) :
    intScanFrom buffer (cs.length + 1) s i = intSteps buffer s i cs := by
  induction cs generalizing s i with
  | nil => rw [intScanFrom, List.getElem?_eq_none (List.drop_eq_nil_iff.mp hcs), intSteps]
  | cons c cs ih =>
    have hlt : i < buffer.length := by
      have h := congrArg List.length hcs
      rw [List.length_drop, List.length_cons] at h
      omega
    have hc : buffer[i]? = some c := by
      rw [← List.head?_drop, hcs]
      rfl
    have hrest : buffer.drop (i + 1) = cs := by
      rw [← List.tail_drop, hcs]
      rfl
    have hnext : (i + 1) % 2^32 = i + 1 := Nat.mod_eq_of_lt (by omega)
    rw [List.length_cons, intScanFrom, hc, intSteps]
    simp only [hnext]
    exact Option.bind_congr fun s' _ => ih s' hrest hlt

/-- In a text of 2^32 characters `i` never gets to the end. -/
theorem intScanFrom_long {buffer : Str} (hlen : 2^32 ≤ buffer.length) (fuel : ℕ) (s : IntScan)
    {i : ℕ} (hi : i < 2^32) : intScanFrom buffer fuel s i = none := by
  induction fuel generalizing s i with
  | zero => rfl
  | succ fuel ih =>
    have hlt : i < buffer.length := by omega
    have hnext (s' : IntScan) : intScanFrom buffer fuel s' ((i + 1) % 2^32) = none :=
      ih s' (Nat.mod_lt _ (by decide))
    rw [intScanFrom, List.getElem?_eq_getElem hlt]
    exact Option.bind_eq_none_iff.mpr fun s' _ => hnext s'

/-- What is passed to `dirbuf_add` has been found in a text in which `i` does not wrap around. -/
theorem dirbufAdds_eq_some_iff {buffer : Str} {L : List (Str × Inum)} : dirbufAdds buffer = some L ↔
    buffer.length < 2^32 ∧ ∃ s, intSteps buffer ⟨-1, none, [], []⟩ 0 buffer = some s ∧
    s.added = L := by
  rw [dirbufAdds, Option.map_eq_some_iff]
  by_cases hlen : buffer.length < 2^32
  · rw [intScanFrom_eq _ List.drop_zero (Nat.zero_le _) hlen, and_iff_right hlen]
  · rw [intScanFrom_long (not_lt.mp hlen) _ _ (by decide)]
    exact iff_of_false (fun ⟨_,h,_⟩ => Option.some_ne_none _ h.symm) fun h => hlen h.1

theorem intSteps_append (buffer w cs : Str) (s : IntScan) (i : ℕ) :
    intSteps buffer s i (w ++ cs) =
      (intSteps buffer s i w).bind fun s' => intSteps buffer s' (i + w.length) cs := by
  induction w generalizing s i with
  | nil => rfl
  | cons c w ih =>
    rw [List.cons_append, intSteps, intSteps, Option.bind_assoc]
    refine Option.bind_congr fun s' _ => ?_
    rw [ih, List.length_cons, Nat.add_assoc, Nat.add_comm 1]

/-- The variables of the loop for the positions that the model counts. -/
def Scan.ints (t : Scan) : IntScan :=
  ⟨t.start - 1, t.delimPos.map Nat.cast, t.fileInum,
    t.added.map fun x => (File.cstr x.name, x.inum)⟩

/-- The positions are before the one that is looked at. -/
structure Scan.Before (t : Scan) (i : ℕ) : Prop where
  start : t.start ≤ i
  delim : ∀ d ∈ t.delimPos, d < i

theorem Scan.before_start : Scan.Before ⟨0, none, [], []⟩ 0 := ⟨le_rfl,nofun⟩

theorem Scan.Before.step {buffer : Str} {t t' : Scan} {i : ℕ} {c : Char} (h : t.Before i)
    (hs : t.step buffer i c = some t') : t'.Before (i + 1) := by
  have hdelim : ∀ d ∈ t.delimPos, d < i + 1 := fun d hd => Nat.lt_succ_of_lt (h.delim d hd)
  rcases Scan.step_cases hs with ⟨-,n,-,rfl⟩ | ⟨-,d,n,inum,-,-,-,rfl⟩ | ⟨-,-,rfl⟩
  · refine ⟨Nat.le_succ_of_le h.start,fun d hd => ?_⟩
    cases hd
    exact Nat.lt_succ_self i
  · exact ⟨le_rfl,hdelim⟩
  · exact ⟨Nat.le_succ_of_le h.start,hdelim⟩

theorem scanFrom_more (buffer more : Str) {cs : Str} {s : Scan} {i : ℕ} (h : s.Before i)
    (hlen : i + cs.length ≤ buffer.length) :
    scanFrom (buffer ++ more) s i cs = scanFrom buffer s i cs := by
  induction cs generalizing s i with
  | nil => rfl
  | cons c cs ih =>
    rw [List.length_cons] at hlen
    have hstart := h.start
    have hinum : substr (buffer ++ more) s.start (i - s.start) =
        substr buffer s.start (i - s.start) :=
      substr_append _ _ _ _ (by omega)
    have hname : ∀ d ∈ s.delimPos,
        substr (buffer ++ more) (d + 1) (i - d - 1) = substr buffer (d + 1) (i - d - 1) := by
      intro d hd
      have hlt := h.delim d hd
      exact substr_append _ _ _ _ (by omega)
    have hstep : s.step (buffer ++ more) i c = s.step buffer i c := by
      rw [Scan.step, Scan.step, hinum]
      congr 2
      exact Option.bind_congr fun d hd => by rw [hname d hd]
    rw [scanFrom, scanFrom, hstep]
    exact Option.bind_congr fun s' hs' => ih (h.step hs') (by omega)

theorem between_eq (buffer : Str) (a b : ℕ) (hab : a ≤ b) (hb : b < 2^31)
    (hlen : b - a + 1 < 2^31) : between buffer (a - 1) b = substr buffer a (b - a) := by
  have hpos : int ((a : ℤ) - 1 + 1) = some (a : ℤ) := by
    rw [int_eq (by omega) (by omega), Int.sub_add_cancel]
  have hdist : int ((b : ℤ) - (a - 1)) = some ((b : ℤ) - (a - 1)) := int_eq (by omega) (by omega)
  have hlen : int ((b : ℤ) - (a - 1) - 1) = some ((b : ℤ) - (a - 1) - 1) :=
    int_eq (by omega) (by omega)
  have hcount : ((b : ℤ) - (a - 1) - 1).toNat = b - a := by omega
  rw [between, hpos, Option.bind_some, hdist, Option.bind_some, hlen, Option.bind_some,
    sizeT_eq (by omega) (by omega), sizeT_eq (by omega) (by omega), hcount, Int.toNat_natCast]

/-- At 2^31 - 1 a `:` may be too far from the start of the text, but not a `;` from its `:`. -/
theorem ints_step {buffer : Str} {t : Scan} {i : ℕ} {c : Char} (h : t.Before i) (hi : i < 2^31)
    (hc : c = ':' → i + 1 < 2^31) :
    t.ints.step buffer i c = (t.step buffer i c).map Scan.ints := by
  have htoInt : toInt i = i := toInt_eq hi
  unfold IntScan.step Scan.step
  split_ifs with hcolon
  · have hnext := hc hcolon
    have hcut : between buffer t.ints.startPos i = substr buffer t.start (i - t.start) :=
      between_eq buffer t.start i h.start hi (by omega)
    rw [htoInt, hcut, Option.map_map]
    rfl
  · cases hdelim : t.delimPos with
    | none =>
      have hnone : t.ints.delimPos = none := by rw [Scan.ints, hdelim]; rfl
      rw [hnone]
      rfl
    | some d =>
      have hlt := h.delim d hdelim
      have hsome : t.ints.delimPos = some (d : ℤ) := by rw [Scan.ints, hdelim]; rfl
      have hstart : ((d + 1 : ℕ) : ℤ) - 1 = d := by omega
      have hcut := between_eq buffer (d + 1) i hlt hi (by omega)
      rw [hstart, ← Nat.sub_sub] at hcut
      rw [hsome, Option.bind_some, Option.bind_some, htoInt, hcut, Option.map_bind]
      refine Option.bind_congr fun n _ => ?_
      rw [Function.comp_apply, Option.map_map]
      refine congrArg (fun f => Option.map f (n2i t.fileInum)) (funext fun inum => ?_)
      simp [Scan.ints]
  · rfl

/-- Up to 2^31 the loop does what it should do in natural numbers. -/
theorem intSteps_ints (buffer : Str) {cs : Str} {t : Scan} {i : ℕ} (h : t.Before i)
    (hlen : i + cs.length ≤ 2^31) (hlast : cs.getLast? ≠ some ':') :
    intSteps buffer t.ints i cs = (scanFrom buffer t i cs).map Scan.ints := by
  induction cs generalizing t i with
  | nil => rfl
  | cons c cs ih =>
    rw [List.length_cons] at hlen
    rw [List.getLast?_cons, Ne, Option.some_inj] at hlast
    have hstep : t.ints.step buffer i c = (t.step buffer i c).map Scan.ints := by
      refine ints_step h (by omega) fun hc => ?_
      rcases List.eq_nil_or_concat cs with rfl | ⟨w,d,rfl⟩
      · exact absurd hc hlast
      · rw [List.concat_eq_append, List.length_append, List.length_singleton] at hlen
        omega
    rw [intSteps, scanFrom, hstep]
    cases hs : t.step buffer i c with
    | none => rfl
    | some t' =>
      refine ih (h.step hs) (by omega) fun hd => hlast ?_
      rw [hd]
      rfl

/-- In directories of up to 2^31 characters the loop passes on what it finds. -/
theorem dirbufAdds_eq (buffer : Str) (hlen : buffer.length ≤ 2^31)
    (hlast : buffer.getLast? ≠ some ':') : dirbufAdds buffer =
      (fuseserverReaddir buffer).map (List.map fun x => (File.cstr x.name, x.inum)) := by
  have hsteps := intSteps_ints buffer Scan.before_start (by omega) hlast
  rw [dirbufAdds, intScanFrom_eq _ List.drop_zero (Nat.zero_le _) (by omega)]
  change (intSteps buffer (Scan.ints ⟨0, none, [], []⟩) 0 buffer).map _ = _
  rw [hsteps, fuseserverReaddir, Option.map_map, Option.map_map]
  rfl

theorem render_last (es : List Entry) : ∀ c ∈ (render es).getLast?, c = ';' := by
  rcases List.eq_nil_or_concat es with rfl | ⟨l,x,rfl⟩
  · rintro c ⟨⟩
  · rw [render_concat, List.getLast?_concat]
    rintro c ⟨⟩
    rfl

theorem render_getLast (es : List Entry) : (render es).getLast? ≠ some ':' := fun h =>
  absurd (render_last es ':' h) (by decide)

theorem cstr_eq_iff (n : Str) : File.cstr n = n ↔ File.nul ∉ n := by
  rw [File.cstr, List.takeWhile_eq_self_iff]
  simp only [decide_eq_true_eq]
  exact ⟨fun h hmem => h _ hmem rfl,fun h c hc heq => h (heq ▸ hc)⟩

theorem dirbufAdds_render (es : List Entry) (hes : ∀ x ∈ es, NameOk x.name)
    (hlen : (render es).length ≤ 2^31) :
    dirbufAdds (render es) = some (es.map fun x => (File.cstr x.name, x.inum)) := by
  rw [dirbufAdds_eq _ hlen (render_getLast es), fuseserverReaddir_render es hes, Option.map_some]

theorem IntScan.step_cases {buffer : Str} {s t : IntScan} {i : ℕ} {c : Char}
    (h : s.step buffer i c = some t) :
    (c = ':' ∧ ∃ n, t = { s with delimPos := some (toInt i), fileInum := n }) ∨
    (c = ';' ∧ ∃ d n inum, s.delimPos = some d ∧ between buffer d (toInt i) = some n ∧
      t = { s with startPos := toInt i, added := s.added ++ [(File.cstr n, inum)] }) ∨
    (c ≠ ':' ∧ c ≠ ';' ∧ t = s) := by
  unfold IntScan.step at h
  split_ifs at h with hcolon hsemi
  · obtain ⟨n,-,rfl⟩ := Option.map_eq_some_iff.mp h
    exact .inl ⟨hcolon,n,rfl⟩
  · obtain ⟨d,hd,h⟩ := Option.bind_eq_some_iff.mp h
    obtain ⟨n,hn,h⟩ := Option.bind_eq_some_iff.mp h
    obtain ⟨inum,-,rfl⟩ := Option.map_eq_some_iff.mp h
    exact .inr (.inl ⟨hsemi,d,n,inum,hd,hn,rfl⟩)
  · cases h
    exact .inr (.inr ⟨hcolon,hsemi,rfl⟩)

/-- One entry for every `;`, behind those that are there. -/
theorem intSteps_added {buffer cs : Str} {s t : IntScan} {i : ℕ}
    (h : intSteps buffer s i cs = some t) :
    ∃ L, t.added = s.added ++ L ∧ L.length = cs.count ';' := by
  induction cs generalizing s i with
  | nil =>
    cases h
    exact ⟨[],(List.append_nil _).symm,rfl⟩
  | cons c cs ih =>
    obtain ⟨s',hs,h⟩ := Option.bind_eq_some_iff.mp h
    obtain ⟨L,hL,hcount⟩ := ih h
    rcases IntScan.step_cases hs with ⟨rfl,n,rfl⟩ | ⟨rfl,d,n,inum,-,-,rfl⟩ | ⟨-,hne,rfl⟩
    · exact ⟨L,hL,by rw [hcount, List.count_cons_of_ne (by decide)]⟩
    · refine ⟨(File.cstr n, inum) :: L,?_,by rw [List.length_cons, hcount, List.count_cons_self]⟩
      rw [hL, List.append_assoc]
      rfl
    · exact ⟨L,hL,by rw [hcount, List.count_cons_of_ne hne]⟩

theorem intSteps_plain (buffer w : Str) (s : IntScan) (i : ℕ) (hw : NameOk w) :
    intSteps buffer s i w = some s := by
  induction w generalizing i with
  | nil => rfl
  | cons c w ih =>
    obtain ⟨hcolon,hsemi⟩ := hw
    rw [List.mem_cons, not_or] at hcolon hsemi
    have hstep : s.step buffer i c = some s := by
      rw [IntScan.step, if_neg (Ne.symm hcolon.1), if_neg (Ne.symm hsemi.1)]
    rw [intSteps, hstep, Option.bind_some, ih (i + 1) ⟨hcolon.2,hsemi.2⟩]

/-- From a position that is negative there is nothing to cut. -/
theorem between_of_neg {buffer : Str} {a b : ℤ} (hlo : -2^31 ≤ a) (ha : a < -1)
    (hlen : buffer.length < 2^32) : between buffer a b = none := by
  have hpos : buffer.length < sizeT (a + 1) := by
    have h := sizeT_of_neg (x := a + 1) (by omega) (by omega)
    omega
  rw [between, int_eq (by omega) (by omega), Option.bind_some]
  refine Option.bind_eq_none_iff.mpr fun d _ => Option.bind_eq_none_iff.mpr fun len _ => ?_
  exact if_neg (Nat.not_le.mpr hpos)

/-- With a negative length everything is cut up to the end. -/
theorem between_rest {buffer n : Str} {a : ℕ} {b : ℤ} (hb : b < 0) (hlen : buffer.length < 2^32)
    (h : between buffer a b = some n) : n = buffer.drop (a + 1) := by
  obtain ⟨pos,hpos,h⟩ := Option.bind_eq_some_iff.mp h
  obtain ⟨d,hd,h⟩ := Option.bind_eq_some_iff.mp h
  obtain ⟨len,hl,h⟩ := Option.bind_eq_some_iff.mp h
  obtain ⟨⟨-,hposlt⟩,rfl⟩ := int_eq_some_iff.mp hpos
  obtain ⟨-,rfl⟩ := int_eq_some_iff.mp hd
  obtain ⟨⟨hlo,-⟩,rfl⟩ := int_eq_some_iff.mp hl
  have hcut : sizeT ((a : ℤ) + 1) = a + 1 := by
    rw [sizeT_eq (by omega) (by omega)]
    omega
  have hall := sizeT_of_neg (x := b - a - 1) (by omega) (by omega)
  rw [substr, hcut] at h
  split_ifs at h
  rw [← Option.some.inj h, List.take_of_length_le (by rw [List.length_drop]; omega)]

/-- An entry whose `;` is behind 2^31: its last `:` is before that, and everything up to the end
of the directory is taken for its name. -/
theorem intSteps_cross (before v u after : Str) {s t : IntScan} (hv : ';' ∉ v) (hu : NameOk u)
    (hlen : (before ++ (v ++ ':' :: (u ++ ';' :: after))).length < 2^32)
    (hcross : 2^31 ≤ before.length + v.length + 1 + u.length)
    (h : intSteps (before ++ (v ++ ':' :: (u ++ ';' :: after))) s before.length
      (v ++ ':' :: (u ++ [';'])) = some t) :
    before.length + v.length < 2^31 ∧
      ∃ k, t.added = s.added ++ [(File.cstr (u ++ ';' :: after), k)] := by
  have hdrop : (before ++ (v ++ ':' :: (u ++ ';' :: after))).drop (before.length + v.length + 1) =
      u ++ ';' :: after := by
    have hsplit : before ++ (v ++ ':' :: (u ++ ';' :: after)) =
        (before ++ (v ++ [':'])) ++ (u ++ ';' :: after) := by simp
    have hcount : before.length + v.length + 1 = (before ++ (v ++ [':'])).length := by
      simp
      omega
    rw [hsplit, hcount, List.drop_left]
  simp only [List.length_append, List.length_cons] at hlen
  generalize hbuf : before ++ (v ++ ':' :: (u ++ ';' :: after)) = buffer at h hdrop
  have hbuflen : buffer.length < 2^32 := by
    rw [← hbuf]
    simp only [List.length_append, List.length_cons]
    exact hlen
  rw [intSteps_append] at h
  obtain ⟨s1,hs1,h⟩ := Option.bind_eq_some_iff.mp h
  obtain ⟨s2,hs2,h⟩ := Option.bind_eq_some_iff.mp h
  rw [intSteps_append, intSteps_plain buffer u s2 _ hu, Option.bind_some] at h
  obtain ⟨s3,hs3,h⟩ := Option.bind_eq_some_iff.mp h
  cases h
  -- up to the `;` nothing is added
  obtain ⟨L,hL,hnone⟩ := intSteps_added hs1
  rw [List.count_eq_zero.mpr hv, List.length_eq_zero_iff] at hnone
  rw [hnone, List.append_nil] at hL
  rcases IntScan.step_cases hs2 with ⟨-,n,rfl⟩ | ⟨hc,-⟩ | ⟨hc,-⟩
  · rcases IntScan.step_cases hs3 with ⟨hc,-⟩ | ⟨-,d,m,inum,hd,hm,rfl⟩ | ⟨-,hc,-⟩
    · exact absurd hc (by decide)
    · cases hd
      have hend : toInt (before.length + v.length + 1 + u.length) < 0 := by
        rw [toInt_of_le hcross (by omega)]
        omega
      by_cases hcolon : before.length + v.length < 2^31
      · rw [toInt_eq hcolon] at hm
        refine ⟨hcolon,inum,?_⟩
        rw [hL, between_rest hend hbuflen hm, hdrop]
      · rw [toInt_of_le (not_lt.mp hcolon) (by omega)] at hm
        have hneg : between buffer (((before.length + v.length : ℕ) : ℤ) - 2^32)
            (toInt (before.length + v.length + 1 + u.length)) = none :=
          between_of_neg (by omega) (by omega) hbuflen
        cases hneg.symm.trans hm
    · exact absurd rfl hc
  · exact absurd hc (by decide)
  · exact absurd rfl hc

/-- A name that is taken up to the end of the directory is not the one that was written. -/
theorem cstr_rest_ne {n u after : Str} (hn : ';' ∉ n) (hu : u <:+ n) :
    File.cstr (u ++ ';' :: after) ≠ n := by
  intro h
  by_cases hnul : File.nul ∈ u
  · -- it ends at the NUL
    have hlt : (File.cstr (u ++ ';' :: after)).length < u.length := by
      obtain ⟨a,b,rfl,ha⟩ := List.eq_append_cons_of_mem hnul
      have hcut : File.cstr (a ++ File.nul :: b ++ ';' :: after) = a := by
        rw [File.cstr, List.append_assoc, List.takeWhile_append_of_pos, List.cons_append,
          List.takeWhile_cons_of_neg (by simp), List.append_nil]
        intro c hc
        exact decide_eq_true fun he => ha (he ▸ hc)
      rw [hcut, List.length_append, List.length_cons]
      omega
    rw [h] at hlt
    exact absurd hu.length_le (by omega)
  · -- it goes beyond the `;`
    have hsemi : ';' ∈ File.cstr (u ++ ';' :: after) := by
      rw [File.cstr, List.takeWhile_append_of_pos, List.takeWhile_cons_of_pos (by decide)]
      · simp
      · intro c hc
        exact decide_eq_true fun he => hnul (he ▸ hc)
    exact hn (h ▸ hsemi)

/-- In a directory that is too long some entry is the first to end behind 2^31. -/
theorem exists_cross {es : List Entry} (h : 2^31 < (render es).length) : ∃ l x r,
    es = l ++ x :: r ∧ (render l).length ≤ 2^31 ∧ 2^31 < (render l).length + x.text.length := by
  induction es using List.reverseRecOn with
  | nil => exact absurd h (by simp [render])
  | append_singleton es x ih =>
    by_cases hes : (render es).length ≤ 2^31
    · rw [render_snoc, List.length_append] at h
      exact ⟨es,x,[],rfl,hes,h⟩
    · obtain ⟨l,y,r,rfl,hl,hy⟩ := ih (not_le.mp hes)
      exact ⟨l,y,r ++ [x],by simp,hl,hy⟩

theorem scanFrom_more_render (es : List Entry) (hes : ∀ x ∈ es, NameOk x.name) (after : Str) :
    ∃ t, scanFrom (render es ++ after) ⟨0, none, [], []⟩ 0 (render es) = some t ∧ t.added = es := by
  have hscan := scanFrom_render [] es ⟨0, none, [], []⟩ hes rfl
  rw [List.nil_append, List.nil_append, List.length_nil] at hscan
  obtain ⟨t,ht,hadded⟩ := Option.map_eq_some_iff.mp hscan
  refine ⟨t,?_,hadded⟩
  rw [scanFrom_more _ _ Scan.before_start (by omega), ht]

/-- The entry that ends behind 2^31 is not listed as it was written. -/
theorem dirbufAdds_cross {l r : List Entry} {x : Entry} (hl : ∀ y ∈ l, NameOk y.name)
    (hx : NameOk x.name) (hlen : (render l).length ≤ 2^31)
    (hcross : 2^31 < (render l).length + x.text.length) {L : List (Str × Inum)}
    (h : dirbufAdds (render (l ++ x :: r)) = some L) :
    (render l).length + (filename x.inum).length < 2^31 ∧
      ∃ n k, n ≠ x.name ∧ L[l.length]? = some (n, k) := by
  obtain ⟨hshort,s,hs,rfl⟩ := dirbufAdds_eq_some_iff.mp h
  have hsplit : render (l ++ x :: r) =
      render l ++ (filename x.inum ++ ':' :: (x.name ++ ';' :: render r)) := by
    simp [render, Entry.text]
  have htext : filename x.inum ++ ':' :: (x.name ++ ';' :: render r) =
      (filename x.inum ++ ':' :: (x.name ++ [';'])) ++ render r := by simp
  have hsize : x.text.length = (filename x.inum).length + 1 + x.name.length + 1 := by
    simp [Entry.text]
    omega
  rw [hsplit] at hs hshort
  obtain ⟨t,ht,hadded⟩ := scanFrom_more_render l hl
    (filename x.inum ++ ':' :: (x.name ++ ';' :: render r))
  have hbefore :=
    intSteps_ints (render l ++ (filename x.inum ++ ':' :: (x.name ++ ';' :: render r)))
    Scan.before_start (by omega) (render_getLast l)
  rw [ht, Option.map_some] at hbefore
  rw [intSteps_append] at hs
  change (intSteps _ (Scan.ints ⟨0, none, [], []⟩) 0 (render l)).bind _ = _ at hs
  rw [hbefore, Option.bind_some, Nat.zero_add, htext, intSteps_append, ← htext] at hs
  obtain ⟨s1,hs1,hs⟩ := Option.bind_eq_some_iff.mp hs
  obtain ⟨hcolon,k,hk⟩ := intSteps_cross (render l) (filename x.inum) x.name (render r)
    (filename_nameOk x.inum).2 hx hshort (by omega) hs1
  obtain ⟨L,hL,-⟩ := intSteps_added hs
  refine ⟨hcolon,File.cstr (x.name ++ ';' :: render r),k,cstr_rest_ne hx.2 List.suffix_rfl,?_⟩
  have hcount : l.length = t.ints.added.length := by
    rw [Scan.ints, List.length_map, hadded]
  rw [hL, hk, hcount, List.append_assoc, List.getElem?_append_right le_rfl, Nat.sub_self]
  rfl

/-- A directory is listed as it was written, once every entry, if and only if no name has a
NUL, where `file_name.c_str()` ends, and its text has no more than 2^31 characters. -/
theorem readdir_round_trip (es : List Entry) (hes : ∀ x ∈ es, x.name ≠ [] ∧ NameOk x.name) :
    dirbufAdds (render es) = some (es.map fun x => (x.name, x.inum)) ↔
      (∀ x ∈ es, File.nul ∉ x.name) ∧ (render es).length ≤ 2^31 := by
  by_cases hlen : (render es).length ≤ 2^31
  · rw [dirbufAdds_render es (fun x hx => (hes x hx).2) hlen, Option.some_inj, List.map_inj_left,
      and_iff_left hlen]
    refine forall₂_congr fun x _ => ?_
    rw [Prod.mk.injEq, and_iff_left rfl, cstr_eq_iff]
  · refine iff_of_false (fun h => ?_) fun h => hlen h.2
    obtain ⟨l,x,r,rfl,hl,hcross⟩ := exists_cross (not_le.mp hlen)
    have hnames : ∀ y ∈ l, NameOk y.name := fun y hy => (hes y (List.mem_append_left _ hy)).2
    obtain ⟨-,n,k,hne,hat⟩ := dirbufAdds_cross hnames (hes x (by simp)).2 hl hcross h
    rw [List.map_append, List.getElem?_append_right (by simp), List.length_map, Nat.sub_self] at hat
    cases hat
    exact hne rfl

theorem readdir_round_trip_two :
    dirbufAdds (render [⟨12, "ab".toList⟩, ⟨0xFFFFFFFFFFFFFFFF, "b".toList⟩]) =
      some [("ab".toList, 12), ("b".toList, 0xFFFFFFFFFFFFFFFF)] :=
  (readdir_round_trip [⟨12, "ab".toList⟩, ⟨0xFFFFFFFFFFFFFFFF, "b".toList⟩] (by decide)).mpr
    ⟨by decide,by decide⟩

theorem dirbufAdds_long_name (n : Str) (hn : n.length + 4 = 2^31) (hok : NameOk n) :
    dirbufAdds (render [⟨1, n⟩, ⟨2, ['b']⟩]) = none := by
  have hone : filename 1#64 = ['1'] := by decide
  have htwo : filename 2#64 = ['2'] := by decide
  have hfirst : (render [⟨1, n⟩]).length = n.length + 3 := by simp [render, Entry.text, hone]
  have hsecond : (Entry.text ⟨2, ['b']⟩).length = 4 := by simp [Entry.text, htwo]
  refine Option.eq_none_iff_forall_ne_some.mpr fun L hL => ?_
  obtain ⟨hcolon,-⟩ := dirbufAdds_cross (l := [⟨1, n⟩]) (r := [])
    (List.forall_mem_singleton.mpr hok) (by decide) (by omega) (by omega) hL
  change (render [⟨1, n⟩]).length + (filename 2#64).length < 2^31 at hcolon
  rw [htwo, List.length_singleton] at hcolon
  omega

/-- A NUL in a name cuts it, and a name of nearly 2^31 characters is too long for the entry
behind it. -/
theorem readdir_not_round_trip :
    dirbufAdds (render [⟨1, "a\x00b".toList⟩]) = some [("a".toList, 1)] ∧
      dirbufAdds (render [⟨1, List.replicate (2^31 - 4) 'a'⟩, ⟨2, ['b']⟩]) = none := by
  refine ⟨by decide,dirbufAdds_long_name _ ?_ ⟨?_,?_⟩⟩
  · rw [List.length_replicate, Nat.sub_add_cancel (by decide)]
  · exact fun h => absurd (List.eq_of_mem_replicate h) (by decide)
  · exact fun h => absurd (List.eq_of_mem_replicate h) (by decide)

/-- The loop of `lookup`: `while(indexer != -1 && buffer.at(indexer) != ';') indexer--;`. -/
def indexerLoop (buffer : Str) : ℕ → ℤ → Option ℤ
  | 0, _ => none
  | fuel + 1, indexer =>
    if indexer = -1 then some indexer
    else buffer[sizeT indexer]?.bind fun c =>
      if c = ';' then some indexer else (int (indexer - 1)).bind fun next =>
        indexerLoop buffer fuel next

/-- What `lookup` finds, with `file_name_start` a `size_t` and `indexer` an `int`; `none`
where it throws or `indexer` overflows. -/
def lookupInumInt (buffer fileName : Str) : Option (Option Inum) :=
  match find (fileName ++ [';']) buffer with
  | none => some none
  | some start =>
    (indexerLoop buffer (buffer.length + 1) (toInt (sizeT (start - 1)))).bind fun indexer =>
      (int (indexer + 1)).bind fun pos =>
        (substr buffer (sizeT pos)
          (if indexer ≠ -1 then sizeT (start - 1 - indexer) else sizeT (start - 1))).bind
            fun fileInum => (n2i fileInum).map some

theorem indexerLoop_eq (buffer : Str) (hlen : buffer.length < 2^31) (fuel j : ℕ)
    (hj : j ≤ buffer.length) (hfuel : j < fuel) :
    indexerLoop buffer fuel (j - 1) = some ((indexerFrom buffer j : ℤ) - 1) := by
  induction fuel generalizing j with
  | zero => omega
  | succ fuel ih =>
    cases j with
    | zero => rfl
    | succ j =>
      have hcast : ((j + 1 : ℕ) : ℤ) - 1 = j := by omega
      have hat : buffer[sizeT j]? = some buffer[j] := by
        rw [sizeT_eq (by omega) (by omega), Int.toNat_natCast, List.getElem?_eq_getElem hj]
      have hget : buffer[j]? = some ';' ↔ buffer[j] = ';' := by
        rw [List.getElem?_eq_getElem hj, Option.some_inj]
      rw [hcast, indexerLoop, if_neg (by omega), hat, Option.bind_some, indexerFrom]
      by_cases hc : buffer[j] = ';'
      · rw [if_pos hc, if_pos (hget.mpr hc), hcast]
      · rw [if_neg hc, if_neg (hget.not.mpr hc), int_eq (by omega) (by omega), Option.bind_some,
          ih j (by omega) (by omega)]

theorem indexerFrom_le (buffer : Str) (j : ℕ) : indexerFrom buffer j ≤ j := by
  induction j with
  | zero => exact le_rfl
  | succ j ih =>
    rw [indexerFrom]
    split_ifs
    · exact le_rfl
    · exact Nat.le_succ_of_le ih

/-- In short directories `lookup` finds what it should find in natural numbers. -/
theorem lookupInumInt_eq (buffer fileName : Str) (hlen : buffer.length < 2^31) :
    lookupInumInt buffer fileName = lookupInum buffer fileName := by
  rw [lookupInumInt, lookupInum]
  cases hfind : find (fileName ++ [';']) buffer with
  | none => rfl
  | some start =>
    have hstart : start ≤ buffer.length := find_le hfind
    have hfrom : toInt (sizeT ((start : ℤ) - 1)) = start - 1 := by
      rcases Nat.eq_zero_or_pos start with rfl | hpos
      · decide
      · rw [sizeT_eq (by omega) (by omega), toInt_eq (by omega), Int.toNat_of_nonneg (by omega)]
    have hle := indexerFrom_le buffer start
    have hpos : int (indexerFrom buffer start : ℤ) = some (indexerFrom buffer start : ℤ) :=
      int_eq (by omega) (by omega)
    have hsize : sizeT (indexerFrom buffer start) = indexerFrom buffer start := by
      rw [sizeT_eq (by omega) (by omega), Int.toNat_natCast]
    simp only [hfrom, indexerLoop_eq buffer hlen (buffer.length + 1) start hstart (by omega),
      Option.bind_some, Int.sub_add_cancel, hpos, hsize, substr, if_pos (hle.trans hstart)]
    by_cases hafter : indexerFrom buffer start = 0
    · rw [if_neg (not_not.mpr (by omega)), if_neg (not_not.mpr hafter), hafter, List.drop_zero]
      by_cases hzero : start = 0
      · -- a match at 0: the length is `npos`
        have hnpos : sizeT (((0 : ℕ) : ℤ) - 1) = 2^64 - 1 := by decide
        rw [if_pos hzero, hzero, hnpos, List.take_of_length_le (by omega)]
      · have hcount : ((start : ℤ) - 1).toNat = start - 1 := by omega
        rw [if_neg hzero, sizeT_eq (by omega) (by omega), hcount]
    · have hcount : ((start : ℤ) - 1 - ((indexerFrom buffer start : ℤ) - 1)).toNat =
          start - indexerFrom buffer start := by
        omega
      rw [if_pos (by omega), if_pos hafter, sizeT_eq (by omega) (by omega), hcount]

end Yfs.Dir

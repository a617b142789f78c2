import Yfs.YfsClient
import Yfs.SerialProg
import Mathlib.Data.List.Permutation

namespace Yfs.File
open Yfs.Dir (Str Inum Status)

def nul : Char := '\x00'

/-- The string that `setattr` puts. -/
def resize (buffer : Str) (fileSize : ℕ) : Str :=
  if fileSize < buffer.length then buffer.take fileSize
  else if buffer.length < fileSize then buffer ++ List.replicate (fileSize - buffer.length) nul
  else buffer

/-- A `std::string` made from a `const char*`. The list is what lies at the address, and a
null byte follows it. -/
def cstr (buffer : Str) : Str := buffer.takeWhile (· ≠ nul)

def writeString (bufferStr : Str) (bufferSize : ℕ) : Str :=
  if bufferSize ≤ bufferStr.length then bufferStr.take bufferSize
  else bufferStr ++ List.replicate (bufferSize - bufferStr.length) nul

/-- `file_data` as `write` puts it. -/
def written (fileData buffer : Str) (bufferSize offset : ℕ) : Str :=
  let writeString := writeString (cstr buffer) bufferSize
  if fileData.length < offset then
    fileData ++ List.replicate (offset - fileData.length) nul ++ writeString
  else if fileData.length ≤ offset + bufferSize then fileData.take offset ++ writeString
  else fileData.take offset ++ writeString ++ fileData.drop (offset + bufferSize)

inductive Result
  | status (s : Status)
  | buffer (b : Str)
  | void
  deriving DecidableEq

abbrev FileProg := Prog Inum Str Result

/-- `get_file`, and what the caller does with its result. -/
def getFile (inum : Inum) (k : Str → FileProg) : FileProg :=
  .acquire inum (.get inum fun buffer => .release inum (k buffer))

def setattr (inum : Inum) (fileSize : ℕ) : FileProg :=
  getFile inum fun buffer =>
    .acquire inum (.put inum (resize buffer fileSize) (.release inum (.ret (.status .ok))))

def read (inum : Inum) (offset bufferSize : ℕ) : FileProg :=
  getFile inum fun fileData =>
    .ret (.buffer (if offset < fileData.length then (fileData.drop offset).take bufferSize else []))

def write (inum : Inum) (buffer : Str) (bufferSize offset : ℕ) : FileProg :=
  .acquire inum (.get inum fun fileData =>
    .put inum (written fileData buffer bufferSize offset) (.release inum (.ret .void)))

inductive Call
  | setattr (fileSize : ℕ)
  | read (offset bufferSize : ℕ)
  | write (buffer : Str) (bufferSize offset : ℕ)
  deriving DecidableEq

def Call.body (inum : Inum) : Call → FileProg
  | setattr fileSize => File.setattr inum fileSize
  | read offset bufferSize => File.read inum offset bufferSize
  | write buffer bufferSize offset => File.write inum buffer bufferSize offset

abbrev Sys (θ : Type*) := LockedSys θ Inum Str Call Result
abbrev Act (θ : Type*) := ProgAct θ Inum Str Call

section
variable {θ : Type*} [DecidableEq θ]

def init (θ : Type*) (content : Inum → Option Str) : Sys θ := ⟨.init _ _ _ _ _, .init content⟩

def step (inum : Inum) : Sys θ → Act θ → Option (Sys θ) := LockedSys.step (Call.body inum)

/-- Where a call is when it does not have the lock. -/
inductive Stage (inum : Inum) : Call → List (Inum × Str) → FileProg → Prop
  | start (c : Call) : Stage inum c [] (c.body inum)
  | resized (fileSize : ℕ) (reads : List (Inum × Str)) (v : Str) :
      Stage inum (.setattr fileSize) reads
        (.acquire inum (.put inum v (.release inum (.ret (.status .ok)))))

theorem body_sat (inum : Inum) (c : Call) :
    (c.body inum).Sat (ProgSpec.readFirst _ _ _) (fun _ => none) [] := by
  cases c with
  | setattr fileSize =>
    intro _ v _
    refine ⟨fun _ _ => trivial,
      fun _ => ⟨trivial, fun _ => ⟨⟨v,by simp⟩, fun _ _ => trivial, fun hne => ?_⟩⟩⟩
    exact absurd rfl (hne _)
  | read offset bufferSize =>
    intro _ v _
    exact ⟨fun _ _ => trivial, fun hne => absurd rfl (hne _)⟩
  | write buffer bufferSize offset =>
    intro _ v _
    exact ⟨⟨v,by simp⟩, fun _ _ => trivial, fun hne => absurd rfl (hne _)⟩

theorem tenures (inum : Inum) : Tenures (Call.body inum) (fun _ => True) inum (Stage inum) where
  start c _ := .start c
  tenure c reads p hp := by
    cases hp with
    | start =>
      cases c with
      | setattr fileSize =>
        exact ⟨_, rfl,
          fun v => ⟨fun _ => ⟨rfl, .inr ⟨rfl,.resized fileSize _ _⟩⟩, fun h => absurd rfl h⟩⟩
      | read offset bufferSize =>
        exact ⟨_, rfl, fun v => ⟨fun _ => ⟨rfl, .inl ⟨_,rfl⟩⟩, fun h => absurd rfl h⟩⟩
      | write buffer bufferSize offset =>
        exact ⟨_, rfl, fun v => ⟨fun _ => ⟨rfl, .inl ⟨_,rfl⟩⟩, fun h => absurd rfl h⟩⟩
    | resized fileSize reads v =>
      exact ⟨_, rfl, fun _ => ⟨rfl, .inl ⟨_,rfl⟩⟩, fun h => absurd rfl h⟩

/-- The size and the string of a `setattr` that is about to take the lock for its `put`. -/
def aboutToPut : Call → FileProg → Option (ℕ × Str)
  | .setattr fileSize, .acquire _ (.put _ v _) => some (fileSize, v)
  | _, _ => none

/-- It is what `setattr` would make of the present content. -/
def Current (s : Sys θ) : Act θ → Prop
  | .op (.acquire t inum) => ∀ r ∈ s.threads.running t, ∀ x ∈ aboutToPut r.call r.prog,
      (s.store.content inum).map (resize · x.1) = some x.2
  | _ => True

instance (s : Sys θ) : ∀ a, Decidable (Current s a)
  | .op (.acquire t inum) => inferInstanceAs (Decidable (∀ r ∈ s.threads.running t,
      ∀ x ∈ aboutToPut r.call r.prog, (s.store.content inum).map (resize · x.1) = some x.2))
  | .op (.release _ _) | .op (.get _ _ _) | .op (.put _ _ _) | .call _ _ | .remove _ =>
    isTrue trivial

omit [DecidableEq θ] in
theorem fresh_of_current (inum : Inum) (s : Sys θ) (a : Act θ) (h : Current s a) :
    Fresh (Call.body inum) inum (Stage inum) (fun _ _ => True) s a := by
  rintro t ⟨c,p,seen,reads⟩ rfl hr hS
  change Stage inum c reads p at hS
  refine ⟨trivial, ?_⟩
  cases hS with
  | start => rfl
  | resized fileSize _ v =>
    obtain ⟨w,hw,hv⟩ := Option.map_eq_some_iff.mp (h _ hr (fileSize, v) rfl)
    simp only at hv
    simp [Call.body, setattr, getFile, Prog.alone, hw, hv]

/-- Reads, writes and `setattr` calls on one file come to the same as one after the other,
as long as each `setattr` puts what it would make of the content that it replaces. -/
theorem file_calls_serialisable (inum : Inum) (content : Inum → Option Str) (acts : List (Act θ))
    (s : Sys θ) (hcurrent : RunAll (step inum) Current (init θ content) acts)
    (hrun : run (step inum) (init θ content) acts = some s)
    (hidle : ∀ t, s.threads.running t = none) :
    Serialisable (Call.body inum) content s := by
  have hfresh := runAll_of_all (step inum) Current
    (Fresh (Call.body inum) inum (Stage inum) fun _ _ => True) (fun _ => True)
    (fun _ _ _ _ _ _ => trivial) (fun s a _ => fresh_of_current inum s a) _ acts trivial hcurrent
  obtain ⟨base,h⟩ := serialised_run (body_sat inum) (tenures inum) content acts s
    (fun a _ => by cases a <;> trivial) hfresh hrun
  exact h.serialisable (body_sat inum) hidle

end

def abcd (e : Inum) : Option Str := if e = 0x80000005 then some ['a', 'b', 'c', 'd'] else none

/-- A `write` of "XY" between the two tenures of `setattr` of size 2. -/
def writeBetween (offset : ℕ) (v : Str) : List (Act Bool) :=
  [.call true (.setattr 2), .op (.acquire true 0x80000005),
    .op (.get true 0x80000005 ['a', 'b', 'c', 'd']), .op (.release true 0x80000005),
    .call false (.write ['X', 'Y'] 2 offset), .op (.acquire false 0x80000005),
    .op (.get false 0x80000005 ['a', 'b', 'c', 'd']), .op (.put false 0x80000005 v),
    .op (.release false 0x80000005), .op (.acquire true 0x80000005),
    .op (.put true 0x80000005 ['a', 'b']), .op (.release true 0x80000005)]

/-- What is written there is cut off by `setattr`. -/
theorem file_calls_serialisable_cut : ∃ s : Sys Bool,
    run (step 0x80000005) (init Bool abcd) (writeBetween 2 ['a', 'b', 'X', 'Y']) = some s ∧
    s.store.content 0x80000005 = some ['a', 'b'] ∧ Serialisable (Call.body 0x80000005) abcd s := by
  have hends : ∃ s : Sys Bool,
      run (step 0x80000005) (init Bool abcd) (writeBetween 2 ['a', 'b', 'X', 'Y']) = some s ∧
      s.store.content 0x80000005 = some ['a', 'b'] ∧ ∀ t, (s.threads.running t).isNone = true := by
    decide +kernel
  obtain ⟨s,hrun,hcontent,hidle⟩ := hends
  exact ⟨s, hrun, hcontent, file_calls_serialisable 0x80000005 abcd _ s (by decide +kernel) hrun
    fun t => Option.isNone_iff_eq_none.mp (hidle t)⟩

/-- What is written at the start of the file is lost. -/
theorem write_lost : ∃ s : Sys Bool,
    run (step 0x80000005) (init Bool abcd) (writeBetween 0 ['X', 'Y', 'c', 'd']) = some s ∧
    (∀ t, s.threads.running t = none) ∧ s.store.content 0x80000005 = some ['a', 'b'] ∧
    ¬ Serialisable (Call.body 0x80000005) abcd s := by
  have hends : ∃ s : Sys Bool,
      run (step 0x80000005) (init Bool abcd) (writeBetween 0 ['X', 'Y', 'c', 'd']) = some s ∧
      s.store.content 0x80000005 = some ['a', 'b'] ∧ (∀ t, (s.threads.running t).isNone = true) ∧
      returns s.threads.history = [(false, .write ['X', 'Y'] 2 0, .void),
        (true, .setattr 2, .status .ok)] := by
    decide +kernel
  obtain ⟨s,hrun,hcontent,hidle,hreturns⟩ := hends
  refine ⟨s, hrun, fun t => Option.isNone_iff_eq_none.mp (hidle t), hcontent, ?_⟩
  rintro ⟨acts,s',hrun',hone,hidle',hperm,hsame⟩
  have hserial := (serialRun_of_oneAtATime (body_sat 0x80000005) (tenures 0x80000005) abcd acts s'
    (fun a _ => by cases a <;> trivial) hone hrun' hidle').eval
  have hfinal : (serial (Call.body 0x80000005) abcd (returns s'.threads.history)).map
      (· 0x80000005) = some (some ['a', 'b']) := by
    rw [hserial, Option.map_some, hsame, hcontent]
  -- in both orders the file ends with "XY"
  rw [hreturns] at hperm
  rcases List.perm_pair.mp hperm with horder | horder <;> rw [horder] at hfinal <;> revert
    hfinal <;> decide +kernel

end Yfs.File

import Mathlib.Data.List.Basic

namespace Yfs

variable {α : Type} {h : ℕ} {size : List α → ℕ}

structure Framed (h : ℕ) (size : List α → ℕ) (f : List α) : Prop where
  header_le : h ≤ f.length
  size_eq : size (f.take h) = f.length

/-- What has been read behind the frames `A` belongs to the frame after them. -/
theorem exists_next_frame {O A : List (List α)} {x : List α} (hO : ∀ f ∈ O, Framed h size f)
    (hA : A <+: O) (hx : A.flatten ++ x <+: O.flatten) (hpos : 0 < h) (hlen : h ≤ x.length) :
    ∃ f, A ++ [f] <+: O ∧ f ∈ O ∧ size (x.take h) = f.length ∧ (x.length ≤ f.length → x <+: f) := by
  obtain ⟨R,rfl⟩ := hA
  rw [List.flatten_append, List.prefix_append_right_inj] at hx
  cases R with
  | nil =>
    have hnil : x = [] := List.prefix_nil.mp hx
    rw [hnil, List.length_nil] at hlen
    omega
  | cons f R =>
    have hmem : f ∈ A ++ f :: R := List.mem_append_right A List.mem_cons_self
    have hf := hO f hmem
    rw [List.flatten_cons] at hx
    have htake : x.take h = f.take h := by
      calc x.take h = (f ++ R.flatten).take h := by
            obtain ⟨y,hy⟩ := hx
            rw [← hy, List.take_append_of_le_length hlen]
        _ = f.take h := List.take_append_of_le_length hf.header_le
    refine ⟨f, ⟨R, ?_⟩, hmem, ?_, ?_⟩
    · rw [List.append_assoc, List.singleton_append]
    · rw [htake, hf.size_eq]
    · intro hle
      exact List.prefix_of_prefix_length_le hx (List.prefix_append f _) hle

theorem frame_complete {O A : List (List α)} {x : List α} (hO : ∀ f ∈ O, Framed h size f)
    (hA : A <+: O) (hx : A.flatten ++ x <+: O.flatten) (hpos : 0 < h) (hlen : h ≤ x.length)
    (hsize : x.length = size (x.take h)) : A ++ [x] <+: O := by
  obtain ⟨f,hf,_,hfl,hstart⟩ := exists_next_frame hO hA hx hpos hlen
  have heq : x.length = f.length := hsize.trans hfl
  have hxf : x = f := (hstart (Nat.le_of_eq heq)).eq_of_length heq
  rwa [hxf]

end Yfs

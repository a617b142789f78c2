import Yfs.Run
import Yfs.WireArgs

namespace Yfs.Wire

/-- The content without the header. -/
def Marshall.getContent (m : Marshall) : List Byte := m.bytes.drop rpcHeaderSz

inductive MarshallCall
  | rawbyte (x : Byte)
  | rawbytes (p : List Byte) (n : ℤ)
  | packReqHeader (h : ReqHeader)
  | packReplyHeader (h : ReplyHeader)

namespace MarshallCall

def step (m : Marshall) : MarshallCall → Option Marshall
  | rawbyte x => m.rawbyte x
  | rawbytes p n => m.rawbytes p n
  | packReqHeader h => m.packReqHeader h
  | packReplyHeader h => m.packReplyHeader h

/-- `n` bytes can be read at `p`. -/
def Readable : MarshallCall → Prop
  | rawbytes p n => 0 ≤ n ∧ n ≤ p.length
  | _ => True

instance : DecidablePred Readable
  | rawbyte _ => isTrue trivial
  | rawbytes p n => inferInstanceAs (Decidable (0 ≤ n ∧ n ≤ p.length))
  | packReqHeader _ => isTrue trivial
  | packReplyHeader _ => isTrue trivial

def appended : MarshallCall → List Byte
  | rawbyte x => [x]
  | rawbytes p n => p.take n.toNat
  | packReqHeader _ => []
  | packReplyHeader _ => []

end MarshallCall

theorem getContent_wroteIn {m : Marshall} (hind : rpcHeaderSz ≤ m.ind) (bs : List Byte) (capa : ℕ) :
    (m.wroteIn bs capa).getContent = m.getContent ++ bs := by
  have hlen : rpcHeaderSz ≤ m.bytes.length := by simpa [Marshall.bytes] using hind
  have hbytes : (m.wroteIn bs capa).bytes = m.bytes ++ bs := bytes_wrote m bs
  rw [Marshall.getContent, hbytes, List.drop_append_of_le_length hlen]
  rfl

/-- A header is written in place, below the content. -/
theorem pack_of_room {m : Marshall} (bs : List Byte) (hbs : 4 + bs.length ≤ rpcHeaderSz)
    (hroom : m.Room) :
    (Marshall.rawbyteAll { m with ind := 4 } bs).map (fun m' => { m' with ind := m.ind }) =
      some { m with buf := overwrite m.buf 4 bs } := by
  have hdef := hroom.default_le
  have hfits : 4 + bs.length ≤ m.capa := by
    rw [rpcHeaderSz] at hbs
    rw [defaultRpcSz] at hdef
    omega
  rw [rawbyteAll_of_fits { m with ind := 4 } bs hfits]
  rfl

theorem getContent_overwrite {m : Marshall} (hind : rpcHeaderSz ≤ m.ind) (bs : List Byte)
    (hbs : 4 + bs.length ≤ rpcHeaderSz) :
    Marshall.getContent { m with buf := overwrite m.buf 4 bs } = m.getContent := by
  have hbytes := map_overwrite m.buf 4 m.ind bs (hbs.trans hind)
  have hlen : 4 ≤ (List.map m.buf (List.range m.ind)).length := by
    rw [List.length_map, List.length_range]
    omega
  rw [Marshall.getContent, Marshall.bytes, hbytes, ← List.append_assoc, List.drop_append]
  -- what stands before the content is shorter than a header
  have hshort : (List.take 4 (List.map m.buf (List.range m.ind)) ++ bs).length = 4 + bs.length := by
    rw [List.length_append, List.length_take, Nat.min_eq_left hlen]
  rw [hshort, List.drop_of_length_le (by rw [hshort]; exact hbs), List.nil_append, List.drop_drop,
    Nat.add_sub_cancel' hbs]
  rfl

/-- The buffer has room, its content starts behind the header and is what was appended. -/
structure Marshall.Content (m : Marshall) (bs : List Byte) : Prop extends m.Room where
  header_le : rpcHeaderSz ≤ m.ind
  content : m.getContent = bs

theorem content_ind {m : Marshall} {bs : List Byte} (h : m.Content bs) :
    m.ind = rpcHeaderSz + bs.length := by
  have hle := h.header_le
  rw [← h.content, Marshall.getContent, List.length_drop, Marshall.bytes, List.length_map,
    List.length_range, Nat.add_sub_cancel' hle]

theorem content_new (junk : ℕ → Byte) : (Marshall.new junk).Content [] where
  toRoom := room_new junk
  header_le := Nat.le_refl _
  content := by
    rw [Marshall.getContent, List.drop_eq_nil_iff, Marshall.bytes, List.length_map,
      List.length_range]
    exact Nat.le_refl _

theorem content_of_writes {m : Marshall} {bs cs : List Byte} {r : Option Marshall}
    (h : m.Content bs) (hw : m.Writes cs r) : ∃ m', r = some m' ∧ m'.Content (bs ++ cs) := by
  obtain ⟨capa,rfl,hroom⟩ := hw
  refine ⟨m.wroteIn cs capa, rfl, hroom, ?_, ?_⟩
  · exact h.header_le.trans (Nat.le_add_right _ _)
  · rw [getContent_wroteIn h.header_le, h.content]

theorem content_of_pack {m : Marshall} {bs : List Byte} (h : m.Content bs) (hd : List Byte)
    (hhd : 4 + hd.length ≤ rpcHeaderSz) :
    ∃ m', (Marshall.rawbyteAll { m with ind := 4 } hd).map (fun m' => { m' with ind := m.ind }) =
      some m' ∧ m'.Content (bs ++ []) := by
  refine ⟨_, pack_of_room hd hhd h.toRoom, ⟨h.default_le, h.ind_le, h.capa_le⟩, h.header_le, ?_⟩
  rw [List.append_nil, getContent_overwrite h.header_le hd hhd, h.content]

theorem rawbytes_take (m : Marshall) (p : List Byte) (n : ℕ) (hn : n ≤ p.length) :
    m.rawbytes p n = m.rawbytes (p.take n) (p.take n).length := by
  have hlen : (p.take n).length = n := by rw [List.length_take, Nat.min_eq_left hn]
  rw [hlen]
  change (if _ then _ else _) = (if _ then _ else _)
  rw [List.take_take, Nat.min_self]

/-- A call on a buffer with room for what it appends is carried out, with all that it
writes inside of the buffer. -/
theorem step_content {m : Marshall} {bs : List Byte} (h : m.Content bs) {c : MarshallCall}
    (hc : c.Readable) (hsize : (bs ++ c.appended).length ≤ maxPdu) :
    ∃ m', c.step m = some m' ∧ m'.Content (bs ++ c.appended) := by
  have hholds : m.Holds c.appended := by
    rw [List.length_append] at hsize
    rw [Marshall.Holds, content_ind h]
    omega
  cases c with
  | rawbyte x => exact content_of_writes h (rawbyte_writes x h.toRoom hholds)
  | rawbytes p n =>
    obtain ⟨hpos,hle⟩ := hc
    lift n to ℕ using hpos
    have hw := rawbytes_writes (p.take n) h.toRoom hholds
    rw [← rawbytes_take m p n (Int.ofNat_le.mp hle)] at hw
    exact content_of_writes h hw
  | packReqHeader hd => exact content_of_pack h (headerBytes hd) (Nat.le_refl _)
  | packReplyHeader hd => exact content_of_pack h (replyBytes hd) (by decide : 12 ≤ rpcHeaderSz)

theorem run_content {m : Marshall} {bs : List Byte} (h : m.Content bs) (calls : List MarshallCall)
    (hread : ∀ c ∈ calls, c.Readable)
    (hsize : (bs ++ calls.flatMap MarshallCall.appended).length ≤ maxPdu) :
    ∃ m', run MarshallCall.step m calls = some m' ∧
      m'.Content (bs ++ calls.flatMap MarshallCall.appended) := by
  induction calls generalizing m bs with
  | nil => exact ⟨m, rfl, by rwa [List.flatMap_nil, List.append_nil]⟩
  | cons c calls ih =>
    obtain ⟨hc,hread⟩ := List.forall_mem_cons.mp hread
    rw [List.flatMap_cons, ← List.append_assoc] at hsize ⊢
    have hfirst : (bs ++ c.appended).length ≤ maxPdu := by
      rw [List.length_append] at hsize
      omega
    obtain ⟨m1,hm1,h1⟩ := step_content h hc hfirst
    obtain ⟨m2,hm2,h2⟩ := ih h1 hread hsize
    refine ⟨m2, ?_, h2⟩
    rw [run, hm1, Option.bind_some, hm2]

/-- As long as no more is appended than a PDU holds, every call is carried out: it
computes no size that is not an `int` and writes nothing outside of the buffer. The
content is what has been appended so far, whatever headers were packed. -/
theorem marshall_growth (junk : ℕ → Byte) (calls : List MarshallCall)
    (hread : ∀ c ∈ calls, c.Readable)
    (hsize : (calls.flatMap MarshallCall.appended).length ≤ maxPdu) (before : List MarshallCall)
    (hbefore : before <+: calls) :
    ∃ m, run MarshallCall.step (Marshall.new junk) before = some m ∧
      rpcHeaderSz ≤ m.ind ∧ m.ind ≤ m.capa ∧ m.capa < 2^31 ∧
      m.getContent = before.flatMap MarshallCall.appended := by
  obtain ⟨after,rfl⟩ := hbefore
  rw [List.flatMap_append, List.length_append] at hsize
  obtain ⟨m,hrun,h⟩ := run_content (content_new junk) before
    (fun c hc => hread c (List.mem_append_left _ hc)) (by rw [List.nil_append]; omega)
  have hind := content_ind h
  have hcapa := h.capa_le
  refine ⟨m, hrun, h.header_le, h.ind_le, ?_, h.content⟩
  simp only [List.nil_append, rpcHeaderSz, maxPdu, defaultRpcSz] at hind hcapa hsize
  omega

/-- Both headers are packed between two pieces of the content. -/
theorem marshall_growth_headers :
    ∃ m, run MarshallCall.step (Marshall.new fun _ => 0)
    [.rawbyte 1, .packReqHeader ⟨7, 1, 2, 3, 4⟩,
        .packReplyHeader ⟨7, 0⟩, .rawbytes [2, 3, 4] 2] = some m ∧
      rpcHeaderSz ≤ m.ind ∧ m.ind ≤ m.capa ∧ m.capa < 2^31 ∧ m.getContent = [1, 2, 3] :=
  marshall_growth (fun _ => 0) _ (by decide) (by decide) _ List.prefix_rfl

end Yfs.Wire

import Ipmb.Protocol.Container
import Ipmb.Support.Patch
import Ipmb.Util.ChecksumBurst

open cursor patch
open ipmb.endian ipmb.byte_read ipmb.checksum

namespace ipmb.frame_reader

/-- Where a frame starts, with the others before it. -/
def frame_offset (before : List ipmb_frame_t) : Nat :=
  IPMB_MESSAGE_HEADER_LEN + (before.map fun f => IPMB_FRAME_HEADER_LEN + f.payload_len + 4).sum

/-- The windows within the header behind the magic number, within the type and
the flags of a frame, or within what its checksum covers behind its length. -/
inductive Covered (msg : ipmb_message_t) (start len : Nat) : Prop where
  | header : 4 ≤ start → start + len ≤ 24 → Covered msg start len
  | frame_type {before : List ipmb_frame_t} {f : ipmb_frame_t} {after : List ipmb_frame_t} :
      msg.frames = before ++ f :: after → frame_offset before ≤ start →
      start + len ≤ frame_offset before + 4 → Covered msg start len
  | frame_body {before : List ipmb_frame_t} {f : ipmb_frame_t} {after : List ipmb_frame_t} :
      msg.frames = before ++ f :: after → frame_offset before + 8 ≤ start →
      start + len ≤ frame_offset before + IPMB_FRAME_HEADER_LEN + f.payload_len → Covered msg start len

section burst

variable {before bytes bytes' after : List UInt8}

/-- Bytes that a checksum behind them covers cannot change within four in a row. -/
theorem sealed_burst {block block' rest rest' : List UInt8} (hwidth : bytes.length = bytes'.length)
    (hfour : bytes.length ≤ 4)
    (hdata : before ++ bytes ++ after = block ++ (ipmb_store_le32 (ipmb_crc32 block) ++ rest))
    (hdata' : before ++ bytes' ++ after = block' ++ (ipmb_store_le32 (ipmb_crc32 block') ++ rest'))
    (hlength : block.length = block'.length) (hinside : before.length + bytes.length ≤ block.length) :
    bytes = bytes' := by
  obtain ⟨mid, hblock, hafter⟩ := exists_append_of_le hdata (by rwa [List.length_append])
  obtain ⟨mid', hblock', hafter'⟩ := exists_append_of_le hdata' (by
    rwa [List.length_append, ← hwidth, ← hlength])
  have hmid : mid.length = mid'.length := by
    rw [hblock, hblock'] at hlength
    simp only [List.length_append] at hlength
    omega
  obtain ⟨rfl, hseal⟩ := List.append_inj (hafter.symm.trans hafter') hmid
  have hcrc := congrArg ipmb_load_le32 hseal
  rw [ipmb_load_le32_store, ipmb_load_le32_store, hblock, hblock'] at hcrc
  exact ipmb_crc32_burst hwidth hfour hcrc

/-- The length of the payload stands in the second four bytes of a frame. -/
theorem load_payload_len (f : ipmb_frame_t) (rest : List UInt8) :
    ipmb_load_le32 (((f.enc ++ rest).take 8).drop 4) = UInt32.ofNat f.payload.length := by
  have hfront : (f.enc ++ rest).take 8 = ipmb_store_le16 f.frame_type ++ ipmb_store_le16 f.frame_flags ++
      ipmb_store_le32 (UInt32.ofNat f.payload.length) := by
    simp only [ipmb_frame_t.enc, ipmb_frame_t.header, List.append_assoc]
    rfl
  rw [hfront, List.drop_left' (by simp), ← List.append_nil (ipmb_store_le32 _), ipmb_load_le32_store]

/-- A frame cannot change within four bytes in a row that leave alone the
length of its payload. -/
theorem frame_burst {f f' : ipmb_frame_t} {rest rest' : List UInt8} (hf : f.WellFormed) (hf' : f'.WellFormed)
    (hwidth : bytes.length = bytes'.length) (hfour : bytes.length ≤ 4)
    (hdata : before ++ bytes ++ after = f.enc ++ rest) (hdata' : before ++ bytes' ++ after = f'.enc ++ rest')
    (hinside : before.length + bytes.length ≤ 4 ∨
      8 ≤ before.length ∧ before.length + bytes.length ≤ IPMB_FRAME_HEADER_LEN + f.payload.length) :
    bytes = bytes' := by
  have hword : (((before ++ bytes ++ after).take 8).drop 4) = (((before ++ bytes' ++ after).take 8).drop 4) := by
    obtain hfirst | ⟨hsecond, -⟩ := hinside
    · have hsame : ∀ window : List UInt8, window.length = bytes.length →
          ((before ++ window ++ after).take 8).drop 4 = (after.drop (4 - (before.length + bytes.length))).take 4 := by
        intro window hwindow
        rw [List.drop_take, List.drop_append, List.drop_eq_nil_of_le (by simp; omega), List.nil_append,
          List.length_append, hwindow]
      rw [hsame bytes rfl, hsame bytes' hwidth.symm]
    · rw [List.append_assoc, List.append_assoc, List.take_append_of_le_length hsecond,
        List.take_append_of_le_length hsecond]
  have hlen : f.payload.length = f'.payload.length := by
    have hlimit : IPMB_MAX_PAYLOAD < 2 ^ 32 := by decide
    have hfit := hf.payload_le
    have hfit' := hf'.payload_le
    have hload := congrArg ipmb_load_le32 hword
    rw [hdata, hdata', load_payload_len, load_payload_len] at hload
    have hnat := congrArg UInt32.toNat hload
    rwa [UInt32.toNat_ofNat', UInt32.toNat_ofNat', Nat.mod_eq_of_lt (by omega),
      Nat.mod_eq_of_lt (by omega)] at hnat
  rw [ipmb_frame_t.enc, List.append_assoc (f.header ++ f.payload)] at hdata
  rw [ipmb_frame_t.enc, List.append_assoc (f'.header ++ f'.payload)] at hdata'
  refine sealed_burst hwidth hfour hdata hdata' ?_ ?_
  · rw [List.length_append, List.length_append, hlen, f.length_header, f'.length_header]
  · have hheader : 4 ≤ IPMB_FRAME_HEADER_LEN := by decide
    rw [List.length_append, f.length_header]
    omega

end burst

/-- Frames that start alike are alike as far as they do. -/
theorem frames_split {before frames : List ipmb_frame_t} {rest rest' : List UInt8}
    (hbefore : ∀ f ∈ before, f.WellFormed) (hframes : ∀ f ∈ frames, f.WellFormed)
    (hmore : before.length < frames.length)
    (h : before.flatMap ipmb_frame_t.enc ++ rest = frames.flatMap ipmb_frame_t.enc ++ rest') :
    ∃ f after, frames = before ++ f :: after ∧ rest = f.enc ++ (after.flatMap ipmb_frame_t.enc ++ rest') := by
  have hsplit : frames = frames.take before.length ++
      frames[before.length] :: frames.drop (before.length + 1) := by
    rw [← List.drop_eq_getElem_cons hmore, List.take_append_drop]
  generalize hfront : frames.take before.length = front at hsplit
  generalize frames[before.length] = f at hsplit
  generalize frames.drop (before.length + 1) = after at hsplit
  have hcount : front.length = before.length := by
    rw [← hfront, List.length_take]
    omega
  subst hsplit
  rw [List.flatMap_append, List.append_assoc] at h
  obtain ⟨rfl, hrest⟩ := (read_frames_exact before.length).unique ⟨rfl, hbefore⟩
    ⟨hcount, fun g hg => hframes g (List.mem_append_left _ hg)⟩ h
  refine ⟨f, after, rfl, ?_⟩
  rw [hrest, List.flatMap_cons, List.append_assoc]

theorem load_frame_count (m : ipmb_message_t) : ipmb_load_le32 (m.header.drop 8) = m.frame_count := by
  have hfront : m.header.drop 8 = ipmb_store_le32 m.frame_count ++ (store_le64 m.session_id ++
      ipmb_store_le32 m.sequence) := by
    simp only [ipmb_message_t.header, List.append_assoc]
    rfl
  rw [hfront, ipmb_load_le32_store]

/-- Where a frame starts is behind what stands before it. -/
theorem length_before (m : ipmb_message_t) {before : List ipmb_frame_t} (hbefore : ∀ f ∈ before, f.WellFormed) :
    (m.header ++ ipmb_store_le32 (ipmb_crc32 m.header) ++ before.flatMap ipmb_frame_t.enc).length =
      frame_offset before := by
  rw [List.length_append, List.length_append, m.length_header, length_ipmb_store_le32, List.length_flatMap,
    frame_offset, IPMB_MESSAGE_HEADER_LEN]
  congr 2
  apply List.map_congr_left
  intro f hf
  rw [f.length_enc, (hbefore f hf).payload_len_eq]

/-- The header and its checksum come first. -/
theorem Container.enc_header (m : Container) (suffix : List UInt8) :
    m.enc ++ suffix = m.message.header ++ (ipmb_store_le32 (ipmb_crc32 m.message.header) ++
      (m.message.frames.flatMap ipmb_frame_t.enc ++ suffix)) := by
  simp only [Container.enc, List.append_assoc]

/-- A frame comes behind the frames before it. -/
theorem Container.enc_frame (m : Container) {front back : List ipmb_frame_t} {f : ipmb_frame_t}
    (hframes : m.message.frames = front ++ f :: back) (suffix : List UInt8) :
    ∃ pre, pre = m.message.header ++ ipmb_store_le32 (ipmb_crc32 m.message.header) ++
        front.flatMap ipmb_frame_t.enc ∧
      pre.length = frame_offset front ∧ f.WellFormed ∧
      m.enc ++ suffix = pre ++ (f.enc ++ (back.flatMap ipmb_frame_t.enc ++ suffix)) := by
  have hwf : ∀ g ∈ front ++ f :: back, g.WellFormed := by
    rw [← hframes]
    exact m.frames_wellFormed
  refine ⟨_, rfl, ?_, hwf f (List.mem_append_right _ List.mem_cons_self), ?_⟩
  · exact length_before m.message fun g hg => hwf g (List.mem_append_left _ hg)
  · rw [Container.enc, hframes, List.flatMap_append, List.flatMap_cons]
    simp only [List.append_assoc]

/-- A container that is read as far as one of its frames: the frame is there
again, with other contents at most. -/
theorem frame_again {m m' : Container} {front back : List ipmb_frame_t} {f : ipmb_frame_t}
    {rest suffix' : List UInt8} (hframes : m.message.frames = front ++ f :: back)
    (h : m.message.header ++ ipmb_store_le32 (ipmb_crc32 m.message.header) ++ front.flatMap ipmb_frame_t.enc ++
      rest = m'.enc ++ suffix') :
    ∃ (f' : ipmb_frame_t) (rest' : List UInt8), f'.WellFormed ∧ rest = f'.enc ++ rest' := by
  have hfront : ∀ g ∈ front, g.WellFormed := by
    intro g hg
    apply m.frames_wellFormed
    rw [hframes]
    exact List.mem_append_left _ hg
  rw [Container.enc, List.append_assoc, List.append_assoc (_ ++ _)] at h
  obtain ⟨hhead, htail⟩ := List.append_inj h (by simp)
  obtain ⟨hheader, -⟩ := List.append_inj hhead (by simp)
  have hcount : m.message.frame_count = m'.message.frame_count := by
    rw [← load_frame_count, ← load_frame_count, hheader]
  have hmore : front.length < m'.message.frames.length := by
    rw [← m'.frame_count_eq, ← hcount, m.frame_count_eq, hframes]
    simp
  obtain ⟨f', after, hsplit, hrest⟩ := frames_split hfront m'.frames_wellFormed hmore htail
  refine ⟨f', _, ?_, hrest⟩
  apply m'.frames_wellFormed
  rw [hsplit]
  exact List.mem_append_right _ List.mem_cons_self

/-- A window within a frame of a container hides no change. -/
theorem container_frame_burst {m m' : Container} {front back : List ipmb_frame_t} {f : ipmb_frame_t}
    {before bytes bytes' after suffix suffix' : List UInt8}
    (hframes : m.message.frames = front ++ f :: back) (hwidth : bytes.length = bytes'.length)
    (hfour : bytes.length ≤ 4) (hdata : before ++ bytes ++ after = m.enc ++ suffix)
    (hdata' : before ++ bytes' ++ after = m'.enc ++ suffix') (hbehind : frame_offset front ≤ before.length)
    (hinside : before.length + bytes.length ≤ frame_offset front + 4 ∨
      frame_offset front + 8 ≤ before.length ∧
        before.length + bytes.length ≤ frame_offset front + IPMB_FRAME_HEADER_LEN + f.payload_len) :
    bytes = bytes' := by
  obtain ⟨pre, hpre, hlength, hf, henc⟩ := m.enc_frame hframes suffix
  rw [henc, List.append_assoc] at hdata
  obtain ⟨mid, rfl, hmid⟩ := exists_append_of_le hdata.symm (by rw [hlength]; exact hbehind)
  rw [List.append_assoc, List.append_assoc, hpre] at hdata'
  obtain ⟨f', rest', hf', hrest'⟩ := frame_again hframes hdata'
  rw [← List.append_assoc] at hrest'
  rw [← List.append_assoc mid] at hmid
  refine frame_burst hf hf' hwidth hfour hmid.symm hrest' ?_
  rw [List.length_append, hlength, hf.payload_len_eq] at hinside
  omega

/-- The windows lie within the container. -/
theorem Covered.room {m : Container} {start len : Nat} (h : Covered m.message start len) (suffix : List UInt8) :
    start + len ≤ (m.enc ++ suffix).length := by
  have hframe : ∀ {front f back}, m.message.frames = front ++ f :: back →
      frame_offset front + IPMB_FRAME_HEADER_LEN + f.payload_len + 4 ≤ (m.enc ++ suffix).length := by
    intro front f back hframes
    obtain ⟨pre, -, hlength, hf, henc⟩ := m.enc_frame hframes suffix
    rw [henc, List.length_append, List.length_append, hlength, f.length_enc, hf.payload_len_eq]
    omega
  cases h with
  | header _ hend =>
    rw [m.enc_header, List.length_append, ipmb_message_t.length_header]
    omega
  | frame_type hframes _ hend =>
    have hfit := hframe hframes
    omega
  | frame_body hframes _ hend =>
    have hfit := hframe hframes
    omega

/-- Tampering is noticed. Input of the length of a container that is
accepted, from which it differs within at most four bytes in a row of the
header, of a frame's type and flags, or of what else the checksum of a frame
covers behind its length, is not accepted. -/
theorem ipmb_parse_message_tampered {alloc alloc' : Allocator} {data data' : List UInt8}
    {msg : ipmb_message_t} {start len : Nat} (hok : ipmb_parse_message alloc data = (.IPMB_OK, msg))
    (hlength : data'.length = data.length) (hne : data' ≠ data) (hfour : len ≤ 4)
    (hcovered : Covered msg start len)
    (hsame : ∀ i, i < start ∨ start + len ≤ i → data'[i]? = data[i]?) :
    (ipmb_parse_message alloc' data').1 ≠ .IPMB_OK := by
  intro hok'
  obtain ⟨m, rfl, suffix, rfl⟩ := ipmb_parse_message_sound hok
  obtain ⟨m', -, suffix', hdata'⟩ := ipmb_parse_message_sound (Prod.ext hok' rfl)
  obtain ⟨before, bytes, bytes', after, hsplit, hsplit', hstart, hwidth, hwidth'⟩ :=
    split_of_same_outside hlength (hcovered.room suffix) hsame
  have hsameLength : bytes.length = bytes'.length := hwidth.trans hwidth'.symm
  have hbytes : bytes = bytes' := by
    have hfit : bytes.length ≤ 4 := by
      rw [hwidth]
      exact hfour
    rw [← hstart, ← hwidth] at hcovered
    cases hcovered with
    | header _ hend =>
      rw [m.enc_header] at hsplit
      rw [hsplit', m'.enc_header] at hdata'
      refine sealed_burst hsameLength hfit hsplit.symm hdata' ?_ ?_
      · rw [ipmb_message_t.length_header, ipmb_message_t.length_header]
      · rw [ipmb_message_t.length_header]
        exact hend
    | frame_type hframes hbegin hend =>
      rw [hsplit'] at hdata'
      exact container_frame_burst hframes hsameLength hfit hsplit.symm hdata' hbegin (.inl hend)
    | frame_body hframes hbegin hend =>
      rw [hsplit'] at hdata'
      exact container_frame_burst hframes hsameLength hfit hsplit.symm hdata' (by omega) (.inr ⟨hbegin, hend⟩)
  rw [hsplit', hsplit, hbytes] at hne
  exact hne rfl

/-- A frame of a type with the length of its payload and the checksum it should have. -/
def sealed_frame (frame_type : UInt16) (payload : List UInt8) : ipmb_frame_t :=
  let f : ipmb_frame_t :=
    { frame_type, frame_flags := 0, source_addr := 1, dest_addr := 2, priority := 0, ttl := 8, payload
      payload_len := payload.length, crc := 0 }
  { f with crc := ipmb_crc32 (f.header ++ f.payload) }

theorem wellFormed_sealed_frame {payload : List UInt8} (h : payload.length ≤ IPMB_MAX_PAYLOAD) (frame_type : UInt16) :
    (sealed_frame frame_type payload).WellFormed := ⟨h, rfl, rfl⟩

def two_frames : Container where
  message :=
    { ipmb_message_t.zero with
      version := 1
      frame_count := 2
      frames := [sealed_frame 1 [1, 2], sealed_frame 2 [7, 8, 9]] }
  frames_le := by decide
  frame_count_eq := rfl
  frames_wellFormed := by
    intro f hf
    obtain rfl | rfl := List.mem_pair.mp hf
    · exact wellFormed_sealed_frame (by decide) 1
    · exact wellFormed_sealed_frame (by decide) 2

/-- Two bytes of the second payload are lost. -/
theorem ipmb_parse_message_tampered_payload :
    (ipmb_parse_message Allocator.succeeds (((two_frames.enc ++ [0xff]).set 75 0).set 76 0)).1 ≠ .IPMB_OK := by
  have hframes : two_frames.message.frames = [sealed_frame 1 [1, 2]] ++ sealed_frame 2 [7, 8, 9] :: [] := rfl
  refine ipmb_parse_message_tampered (ipmb_parse_message_complete two_frames [0xff]) ?_ ?_ (by decide : 2 ≤ 4)
    (.frame_body hframes (by decide : _ ≤ 75) (by decide)) ?_
  · rw [List.length_set, List.length_set]
  · intro hsame
    have hpayload := congrArg (fun data : List UInt8 => data[75]?) hsame
    cases hpayload
  · intro i hi
    rw [List.getElem?_set_ne (by omega), List.getElem?_set_ne (by omega)]

end ipmb.frame_reader

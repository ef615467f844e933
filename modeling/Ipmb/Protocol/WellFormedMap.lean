import Ipmb.Protocol.RegisterMap

open fallible
open ipmb.endian

namespace ipmb.field_decoder

/-- What a register map payload is made from. The header may have an extension,
and the windows may overlap. -/
structure WellFormedMap where
  map_id : UInt16
  extension : List UInt8
  windows : List (UInt16 × UInt16)
  data : List UInt8
  extension_le : extension.length ≤ 65535
  windows_le : windows.length ≤ 512
  inside : ∀ w ∈ windows, w.1.toNat + w.2.toNat ≤ data.length

/-- An entry of the table. -/
def window_bytes (w : UInt16 × UInt16) : List UInt8 := ipmb_store_le16 w.1 ++ ipmb_store_le16 w.2

/-- The bytes a window of a data area selects. -/
def window_field (data : List UInt8) (w : UInt16 × UInt16) : ipmb_register_field_t :=
  { offset := w.1, length := w.2, bytes := (data.drop w.1.toNat).take w.2.toNat }

namespace WellFormedMap

variable (m : WellFormedMap)

/-- What follows the header. -/
def body : List UInt8 := m.windows.flatMap window_bytes ++ m.data

def payload : List UInt8 :=
  map_magic ++ ipmb_store_le16 m.map_id ++ ipmb_store_le16 (UInt16.ofNat m.extension.length) ++
    ipmb_store_le16 (UInt16.ofNat m.windows.length) ++ m.extension ++ m.body

def decoded : ipmb_register_map_t :=
  { map_id := m.map_id
    field_count := UInt16.ofNat m.windows.length
    fields := m.windows.map (window_field m.data) }

end WellFormedMap

@[simp] theorem length_window_bytes (w : UInt16 × UInt16) : (window_bytes w).length = 4 := rfl

theorem length_table (windows : List (UInt16 × UInt16)) :
    (windows.flatMap window_bytes).length = windows.length * 4 := by
  induction windows with
  | nil => rfl
  | cons w windows ih =>
    rw [List.flatMap_cons, List.length_append, ih, length_window_bytes, List.length_cons]
    omega

/-- Behind the first entries of a table come the others. -/
theorem drop_table (windows : List (UInt16 × UInt16)) (i : Nat) :
    (windows.flatMap window_bytes).drop (i * 4) = (windows.drop i).flatMap window_bytes := by
  induction windows generalizing i with
  | nil => simp
  | cons w windows ih =>
    cases i with
    | zero => simp
    | succ i =>
      rw [List.flatMap_cons, Nat.succ_mul, Nat.add_comm, ← List.drop_drop,
        List.drop_left' (length_window_bytes w), ih, List.drop_succ_cons]

namespace WellFormedMap

variable (m : WellFormedMap)

theorem toNat_header_len : (UInt16.ofNat m.extension.length).toNat = m.extension.length := by
  have := m.extension_le
  rw [UInt16.toNat_ofNat']
  omega

theorem toNat_field_count : (UInt16.ofNat m.windows.length).toNat = m.windows.length := by
  have := m.windows_le
  rw [UInt16.toNat_ofNat']
  omega

theorem drop_magic :
    m.payload.drop 4 = ipmb_store_le16 m.map_id ++ (ipmb_store_le16 (UInt16.ofNat m.extension.length) ++
      (ipmb_store_le16 (UInt16.ofNat m.windows.length) ++ (m.extension ++ m.body))) := by
  simp only [payload, List.append_assoc]
  exact List.drop_left' rfl

theorem drop_map_id :
    m.payload.drop 6 = ipmb_store_le16 (UInt16.ofNat m.extension.length) ++
      (ipmb_store_le16 (UInt16.ofNat m.windows.length) ++ (m.extension ++ m.body)) := by
  rw [← List.drop_drop (i := 2) (j := 4), drop_magic, List.drop_left' (length_ipmb_store_le16 _)]

theorem drop_header_len :
    m.payload.drop 8 = ipmb_store_le16 (UInt16.ofNat m.windows.length) ++ (m.extension ++ m.body) := by
  rw [← List.drop_drop (i := 2) (j := 6), drop_map_id, List.drop_left' (length_ipmb_store_le16 _)]

theorem drop_header : m.payload.drop 10 = m.extension ++ m.body := by
  rw [← List.drop_drop (i := 2) (j := 8), drop_header_len, List.drop_left' (length_ipmb_store_le16 _)]

theorem table_start_payload : table_start m.payload = 10 + m.extension.length := by
  rw [table_start, drop_map_id, ipmb_load_le16_store, toNat_header_len]

theorem field_count_payload : field_count m.payload = m.windows.length := by
  rw [field_count, drop_header_len, ipmb_load_le16_store, toNat_field_count]

theorem drop_table_start : m.payload.drop (table_start m.payload) = m.body := by
  rw [table_start_payload, ← List.drop_drop, drop_header, List.drop_left' rfl]

theorem drop_data_start : m.payload.drop (data_start m.payload) = m.data := by
  rw [data_start, field_count_payload, ← List.drop_drop, drop_table_start, body,
    List.drop_left' (length_table m.windows)]

theorem length_payload : m.payload.length = data_start m.payload + m.data.length := by
  rw [data_start, table_start_payload, field_count_payload, payload, body]
  simp only [List.length_append, length_ipmb_store_le16, length_table]
  have : map_magic.length = 4 := rfl
  omega

theorem holdsMap_payload : HoldsMap m.payload where
  header := by
    rw [length_payload, data_start, table_start_payload]
    omega
  magic := by
    simp only [payload, List.append_assoc]
    exact List.take_left' rfl
  table := by
    rw [length_payload]
    omega

/-- The table has the windows in their order. -/
theorem entry_payload {i : Nat} {w : UInt16 × UInt16} (h : m.windows[i]? = some w) :
    entry m.payload i = w := by
  obtain ⟨hi, rfl⟩ := List.getElem?_eq_some_iff.mp h
  have hdrop : m.payload.drop (table_start m.payload + i * 4) =
      ipmb_store_le16 m.windows[i].1 ++ (ipmb_store_le16 m.windows[i].2 ++
        ((m.windows.drop (i + 1)).flatMap window_bytes ++ m.data)) := by
    rw [← List.drop_drop, drop_table_start, body, List.drop_append_of_le_length (by rw [length_table]; omega),
      drop_table, List.drop_eq_getElem_cons hi, List.flatMap_cons, window_bytes]
    simp only [List.append_assoc]
  have hdrop' := congrArg (List.drop 2) hdrop
  rw [List.drop_drop, List.drop_left' (length_ipmb_store_le16 _)] at hdrop'
  rw [entry, table_entry, hdrop, hdrop', ipmb_load_le16_store, ipmb_load_le16_store]

theorem fits_payload {i : Nat} {w : UInt16 × UInt16} (h : m.windows[i]? = some w) : Fits m.payload i := by
  have hinside := m.inside w (List.mem_of_getElem? h)
  rw [Fits, m.entry_payload h, length_payload]
  omega

theorem decode_field_payload {i : Nat} {w : UInt16 × UInt16} (h : m.windows[i]? = some w) :
    decode_field true m.payload (table_start m.payload) (data_start m.payload) i =
      .ok (window_field m.data w) := by
  have hfits := m.fits_payload h
  rw [decode_field_eq, if_neg hfits.not_refused, if_pos (.inr hfits), m.entry_payload h,
    ← List.drop_drop, drop_data_start]
  rfl

end WellFormedMap

/-- The decoder reads the windows of a well-formed map, each with its bytes of
the data area. -/
theorem ipmb_decode_register_map_well_formed (m : WellFormedMap) :
    ipmb_decode_register_map Allocator.succeeds m.payload = .ok (.IPMB_OK, m.decoded) := by
  have hloop : (List.range m.windows.length).mapM
      (decode_field true m.payload (table_start m.payload) (data_start m.payload)) =
        .ok (m.windows.map (window_field m.data)) :=
    mapM_range_eq_map fun i w hw => m.decode_field_payload hw
  have hcount : field_count m.payload ≤ MAX_FIELDS := m.field_count_payload.trans_le m.windows_le
  have hrun : ipmb_decode_register_map Allocator.succeeds m.payload = _ :=
    ipmb_decode_register_map_loop m.holdsMap_payload hcount rfl
  rw [hrun, m.field_count_payload]
  have hrounds : (fun i => decode_field (Allocator.succeeds (i + 1)) m.payload (table_start m.payload)
      (data_start m.payload) i) =
        decode_field true m.payload (table_start m.payload) (data_start m.payload) := rfl
  rw [hrounds, hloop, m.drop_magic, m.drop_header_len, ipmb_load_le16_store, ipmb_load_le16_store]
  rfl

/-- Two windows that share a byte, behind a header with an extension. -/
def shared_byte : WellFormedMap where
  map_id := 1
  extension := [0xff]
  windows := [(0, 2), (1, 2)]
  data := [5, 6, 7]
  extension_le := by decide
  windows_le := by decide
  inside := by simp

example : ipmb_decode_register_map Allocator.succeeds shared_byte.payload =
    .ok (.IPMB_OK, { map_id := 1, field_count := 2, fields := [⟨0, 2, [5, 6]⟩, ⟨1, 2, [6, 7]⟩] }) := by
  rfl

end ipmb.field_decoder

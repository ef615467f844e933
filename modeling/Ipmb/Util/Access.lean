import Ipmb.Support.Buffer
import Ipmb.Support.Fallible
import Ipmb.Types
import Ipmb.Util.Endian

open buffer fallible
open ipmb.endian

namespace ipmb.access

/-- `data[i]`. -/
def byte_at (data : List UInt8) (i : Nat) : Except Fault UInt8 :=
  match data[i]? with
  | some b => .ok b
  | none => .error .readOutOfBounds

/-- `ipmb_load_le16(data + i)`. -/
def le16_at (data : List UInt8) (i : Nat) : Except Fault UInt16 :=
  if i + 2 ≤ data.length then .ok (ipmb_load_le16 (data.drop i)) else .error .readOutOfBounds

/-- `ipmb_load_le32(data + i)`. -/
def le32_at (data : List UInt8) (i : Nat) : Except Fault UInt32 :=
  if i + 4 ≤ data.length then .ok (ipmb_load_le32 (data.drop i)) else .error .readOutOfBounds

/-- Stores behind what a block holds, which move its fill position on. -/
def store {α : Type} (buf : Buffer α) (items : List α) : Except Fault (Buffer α) :=
  match buf.write items with
  | some buf => .ok buf
  | none => .error .writeOutOfBounds

theorem byte_at_of_drop {data rest : List UInt8} {i : Nat} {b : UInt8} (h : data.drop i = b :: rest) :
    byte_at data i = .ok b := by
  have hget : data[i]? = some b := by
    rw [← List.head?_drop, h, List.head?_cons]
  rw [byte_at, hget]

theorem lt_length_of_drop {α : Type} {data rest : List α} {i : Nat} {b : α} (h : data.drop i = b :: rest) :
    i < data.length := by
  by_contra hlong
  rw [List.drop_eq_nil_of_le (by omega)] at h
  cases h

theorem drop_succ_of_drop {α : Type} {data rest : List α} {i : Nat} {b : α} (h : data.drop i = b :: rest) :
    data.drop (i + 1) = rest := by
  rw [← List.drop_drop, h, List.drop_succ_cons, List.drop_zero]

theorem le32_at_of_drop {data rest : List UInt8} {i : Nat} {v : UInt32}
    (h : data.drop i = ipmb_store_le32 v ++ rest) :
    le32_at data i = .ok v ∧ i + 4 ≤ data.length ∧ data.drop (i + 4) = rest := by
  have hlength := congrArg List.length h
  rw [List.length_drop, List.length_append, length_ipmb_store_le32] at hlength
  have hroom : i + 4 ≤ data.length := by omega
  refine ⟨?_, hroom, ?_⟩
  · rw [le32_at, if_pos hroom, h, ipmb_load_le32_store]
  · rw [← List.drop_drop, h, List.drop_left' (length_ipmb_store_le32 v)]

/-- With room a store goes through. -/
theorem store_of_le {α : Type} (buf : Buffer α) (items : List α)
    (h : buf.written.length + items.length ≤ buf.capacity) :
    ∃ buf', store buf items = .ok buf' ∧ buf'.capacity = buf.capacity ∧
      buf'.written = buf.written ++ items := by
  obtain ⟨buf', hwrite, hcapacity, hwritten⟩ := Buffer.write_of_le h
  refine ⟨buf', ?_, hcapacity, hwritten⟩
  rw [store, hwrite]

end ipmb.access

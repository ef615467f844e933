import Ipmb.Types

namespace ipmb.storage

/-- The blocks in use, each with all its bytes, and for how many the array has room. -/
structure ipmb_storage_t where
  blocks : List (List UInt8)
  capacity : Nat
  deriving Repr, DecidableEq

def ipmb_storage_init : ipmb_storage_t := { blocks := [], capacity := 0 }

/-- The first allocation is the growth of the array, the second one the copy.
`*index_out` is set with the block. -/
def ipmb_storage_put (alloc : Allocator) (store : ipmb_storage_t) (data : List UInt8) :
    ipmb_status_t × ipmb_storage_t × Option Nat :=
  let full := store.blocks.length = store.capacity
  if full ∧ alloc 0 = false then (.IPMB_ERR_ALLOC, store, none)
  else
    let next_cap := if store.capacity = 0 then 8 else store.capacity * 2
    let store := if full then { store with capacity := next_cap } else store
    if alloc 1 = false then (.IPMB_ERR_ALLOC, store, none)
    else (.IPMB_OK, { store with blocks := store.blocks ++ [data] }, some store.blocks.length)

/-- A block is stored with its call or not at all. -/
theorem blocks_ipmb_storage_put (alloc : Allocator) (store : ipmb_storage_t) (data : List UInt8) :
    ((ipmb_storage_put alloc store data).1 = .IPMB_OK ∧
        (ipmb_storage_put alloc store data).2.1.blocks = store.blocks ++ [data]) ∨
      ((ipmb_storage_put alloc store data).1 = .IPMB_ERR_ALLOC ∧
        (ipmb_storage_put alloc store data).2.1.blocks = store.blocks) := by
  rw [ipmb_storage_put]
  by_cases hgrow : store.blocks.length = store.capacity ∧ alloc 0 = false
  · rw [if_pos hgrow]
    exact .inr ⟨rfl, rfl⟩
  · rw [if_neg hgrow]
    have hblocks : (if store.blocks.length = store.capacity then
        { store with capacity := if store.capacity = 0 then 8 else store.capacity * 2 }
        else store).blocks = store.blocks := by
      split <;> rfl
    by_cases hcopy : alloc 1 = false
    · simp only [if_pos hcopy]
      exact .inr ⟨trivial, hblocks⟩
    · simp only [if_neg hcopy, hblocks]
      exact .inl ⟨trivial, trivial⟩

end ipmb.storage

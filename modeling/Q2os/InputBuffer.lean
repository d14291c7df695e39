import Q2os.ByteMemory

/- The ring the keyboard and mouse interrupts fill. Pointers are kept as distances from
   buf, and buf is the memory from there on, so that a pointer past the array reads what
   follows it. The head wraps before a store, never after one. -/
namespace InputBuffer
open ByteMemory

def kbBufSize : Nat := 100

structure KeyboardInputbuffer where
  pHead : Nat
  pTail : Nat
  count : Nat
  buf : Memory

/- The four assignments that keyboard_open, keyboard_close, keyboard_ioctl and the two
   init functions share. -/
def reset (kb : KeyboardInputbuffer) : KeyboardInputbuffer :=
  ⟨0, 0, 0, fill kb.buf 0 kbBufSize 0⟩

/- The body that keyboard_handler and mouse_handler share once the scan code x is read. -/
def store (kb : KeyboardInputbuffer) (x : UInt8) : KeyboardInputbuffer :=
  let pHead := if kb.pHead = kbBufSize then 0 else kb.pHead
  { kb with
    buf := Function.update kb.buf pHead x
    count := kb.count + 1
    pHead := pHead + 1 }

/- The place of the i-th unread byte when the array is read as a ring. -/
def cell (tail i : Nat) : Nat :=
  if tail + i < kbBufSize then tail + i else tail + i - kbBufSize

/- What the ring holds: the unread bytes, oldest first, lie from the tail on and the head
   stands right behind them, wrapped or about to wrap. -/
structure Holds (kb : KeyboardInputbuffer) (unread : List UInt8) : Prop where
  tail_le : kb.pTail ≤ kbBufSize
  head_le : kb.pHead ≤ kbBufSize
  counted : unread.length = kb.count
  fits : kb.count ≤ kbBufSize
  head_at : kb.pHead = kb.pTail + kb.count ∨ kb.pHead + kbBufSize = kb.pTail + kb.count
  stored : ∀ i, i < kb.count → unread[i]? = some (kb.buf (cell kb.pTail i))

theorem reset_holds (kb : KeyboardInputbuffer) : Holds (reset kb) [] where
  tail_le := Nat.zero_le _
  head_le := Nat.zero_le _
  counted := rfl
  fits := Nat.zero_le _
  head_at := Or.inl rfl
  stored := by intro i hi; simp [reset] at hi

theorem cell_direct {tail i : Nat} (below : tail + i < kbBufSize) : cell tail i = tail + i := by
  simp [cell, below]

theorem cell_injective {tail i j : Nat} (hi : i < kbBufSize) (hj : j < kbBufSize)
    (same : cell tail i = cell tail j) : i = j := by
  unfold cell at same
  split at same <;> split at same <;> omega

theorem store_at_cell {kb : KeyboardInputbuffer} {unread : List UInt8} (h : Holds kb unread)
    (room : kb.count < kbBufSize) :
    (if kb.pHead = kbBufSize then 0 else kb.pHead) = cell kb.pTail kb.count := by
  have ht := h.tail_le
  have hh := h.head_le
  unfold cell
  rcases h.head_at with at_end | wrapped
  · split <;> split <;> omega
  · split <;> split <;> omega

/- Storing one byte while fewer than kbBufSize are unread appends it. -/
theorem store_holds {kb : KeyboardInputbuffer} {unread : List UInt8} (h : Holds kb unread)
    (room : kb.count < kbBufSize) (x : UInt8) : Holds (store kb x) (unread ++ [x]) := by
  have place := store_at_cell h room
  have ht := h.tail_le
  refine ⟨ht, ?_, ?_, ?_, ?_, ?_⟩
  · have hh := h.head_le
    simp only [store]
    split
    · decide
    · omega
  · simp [store, h.counted]
  · exact room
  · simp only [store, place]
    unfold cell
    split <;> omega
  · intro i hi
    simp only [store, place] at hi ⊢
    by_cases old : i < kb.count
    · have other : cell kb.pTail i ≠ cell kb.pTail kb.count := by
        intro same
        have := cell_injective (by omega) room same
        omega
      rw [Function.update_of_ne other, List.getElem?_append_left (by rw [h.counted]; exact old)]
      exact h.stored i old
    · have last : i = kb.count := by omega
      rw [last, Function.update_self, ← h.counted]
      exact List.getElem?_concat_length

/- Dropping bytes that lie between the tail and the end of the array keeps the rest. -/
theorem advance_holds {kb : KeyboardInputbuffer} {unread : List UInt8} (h : Holds kb unread) {n : Nat}
    (available : n ≤ kb.count) (direct : n ≤ kbBufSize - kb.pTail) :
    Holds { kb with pTail := kb.pTail + n, count := kb.count - n } (unread.drop n) := by
  have ht := h.tail_le
  have hf := h.fits
  refine ⟨?_, h.head_le, ?_, ?_, ?_, ?_⟩
  · show kb.pTail + n ≤ kbBufSize
    omega
  · simp [h.counted]
  · show kb.count - n ≤ kbBufSize
    omega
  · rcases h.head_at with at_end | wrapped
    · exact Or.inl (by show kb.pHead = kb.pTail + n + (kb.count - n); omega)
    · exact Or.inr (by show kb.pHead + kbBufSize = kb.pTail + n + (kb.count - n); omega)
  · intro i hi
    have inside : n + i < kb.count := by simp only at hi; omega
    have moved : cell (kb.pTail + n) i = cell kb.pTail (n + i) := by
      simp only [cell, Nat.add_assoc]
    rw [List.getElem?_drop, h.stored (n + i) inside, moved]

theorem taken_bytes {kb : KeyboardInputbuffer} {unread : List UInt8} (h : Holds kb unread) {n : Nat}
    (available : n ≤ kb.count) (direct : n ≤ kbBufSize - kb.pTail) :
    slice kb.buf kb.pTail n = unread.take n := by
  have ht := h.tail_le
  apply List.ext_getElem?
  intro i
  by_cases hi : i < n
  · rw [slice_get _ _ _ _ hi, List.getElem?_take_of_lt hi, h.stored i (by omega),
      cell_direct (by omega)]
  · have long := h.counted
    rw [List.getElem?_eq_none (by simp; omega), List.getElem?_eq_none (by simp; omega)]

end InputBuffer

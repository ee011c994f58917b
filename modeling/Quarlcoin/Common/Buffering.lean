import Mathlib.Data.List.Basic
/-!
# Reading a stream through a buffer

A reader fills a buffer up to some length, from bytes that come in pieces. Seen together
with the part of the stream that has not come yet, a copy changes nothing (`copy_append`).
-/

namespace Quarlcoin.Buffering

open List

variable {α : Type}

/-- How many elements are copied to a buffer that is to hold `n`. -/
def copyCount (n : ℕ) (buffer piece : List α) : ℕ := min (n - buffer.length) piece.length

section

variable {n : ℕ} {buffer piece rest item more : List α}

/-- A copy does not change what the buffer and the rest of the stream say. -/
theorem copy_append (k : ℕ) :
    buffer ++ piece.take k ++ (piece.drop k ++ rest) = buffer ++ (piece ++ rest) := by
  rw [append_assoc, ← append_assoc (piece.take k), take_append_drop]

theorem length_copy (hlen : buffer.length ≤ n) :
    (buffer ++ piece.take (copyCount n buffer piece)).length ≤ n := by
  rw [length_append, length_take, copyCount]
  omega

theorem copyCount_pos (hlen : buffer.length < n) (hpiece : piece ≠ []) :
    0 < copyCount n buffer piece := by
  have := length_pos_iff.2 hpiece
  rw [copyCount]
  omega

theorem length_drop_copy (hlen : buffer.length < n) (hpiece : piece ≠ []) :
    (piece.drop (copyCount n buffer piece)).length < piece.length := by
  have := copyCount_pos hlen hpiece
  have := length_pos_iff.2 hpiece
  rw [length_drop]
  omega

/-- A buffer that is not full after a copy has taken all of the piece. -/
theorem drop_eq_nil_of_length_copy
    (hlt : (buffer ++ piece.take (copyCount n buffer piece)).length < n) :
    piece.drop (copyCount n buffer piece) = [] := by
  rw [length_append, length_take, copyCount] at hlt
  rw [drop_eq_nil_iff, copyCount]
  omega

/-- **A copy at an item of the stream.** The buffer is not full yet, or it
holds the item and what follows is the rest. -/
theorem copy_cases (hlen : buffer.length ≤ item.length)
    (h : buffer ++ (piece ++ rest) = item ++ more) :
    (buffer ++ piece.take (copyCount item.length buffer piece)).length < item.length ∨
      buffer ++ piece.take (copyCount item.length buffer piece) = item ∧
        piece.drop (copyCount item.length buffer piece) ++ rest = more := by
  rcases Nat.lt_or_eq_of_le (length_copy hlen) with hlt | heq
  · exact .inl hlt
  · rw [← copy_append (copyCount item.length buffer piece)] at h
    exact .inr (append_inj h heq)

end

end Quarlcoin.Buffering

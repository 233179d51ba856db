import LineBasic.Text.Bytes
import Mathlib.Data.List.TakeWhile

/-!
# Line ends behind a text

The line ends behind a line that is submitted are dropped. What is left is a beginning of the line
that does not end in a line end, and everything else in the line is line ends.

## Main results

* `Bytes.exists_lineEnds` — what is dropped are line ends
* `Bytes.trimLineEnds_of_getLast?`, `Bytes.not_isLineEnd_trimLineEnds` — when nothing is dropped
* `Bytes.trimLineEnds_append_cons` — text in front of a byte that is kept
-/

namespace LineBasic.Bytes

theorem exists_lineEnds (s : Bytes) :
    ∃ e, s = trimLineEnds s ++ e ∧ ∀ b ∈ e, Byte.isLineEnd b = true := by
  refine ⟨(s.reverse.takeWhile Byte.isLineEnd).reverse, ?_, fun b hb => ?_⟩
  · rw [trimLineEnds, dropEndWhile, ← List.reverse_append, List.takeWhile_append_dropWhile,
      List.reverse_reverse]
  · exact List.mem_takeWhile_imp (List.mem_reverse.mp hb)

theorem prefix_trimLineEnds (s : Bytes) : trimLineEnds s <+: s := by
  obtain ⟨e, hs, -⟩ := exists_lineEnds s
  exact ⟨e, hs.symm⟩

theorem mem_or_isLineEnd {s : Bytes} {b : UInt8} (hb : b ∈ s) :
    b ∈ trimLineEnds s ∨ Byte.isLineEnd b = true := by
  obtain ⟨e, hs, he⟩ := exists_lineEnds s
  rw [hs, List.mem_append] at hb
  exact hb.imp_right (he b)

theorem trimLineEnds_of_getLast? {s : Bytes}
    (h : ∀ b, s.getLast? = some b → Byte.isLineEnd b = false) : trimLineEnds s = s := by
  rw [trimLineEnds, dropEndWhile]
  cases hs : s.reverse with
  | nil => rw [← List.reverse_reverse s, hs]; rfl
  | cons b r =>
    have hb : s.getLast? = some b := by rw [← List.head?_reverse, hs, List.head?_cons]
    rw [List.dropWhile_cons_of_neg (by simp [h b hb]), ← hs, List.reverse_reverse]

theorem not_isLineEnd_trimLineEnds {s : Bytes} {b : UInt8}
    (h : (trimLineEnds s).getLast? = some b) : Byte.isLineEnd b = false := by
  rw [trimLineEnds, dropEndWhile, List.getLast?_reverse] at h
  have hb := List.head?_dropWhile_not Byte.isLineEnd s.reverse
  rw [h] at hb
  simpa using hb

theorem trimLineEnds_append_cons {c : UInt8} (hc : Byte.isLineEnd c = false) (s t : Bytes) :
    trimLineEnds (s ++ c :: t) = s ++ c :: trimLineEnds t := by
  simp only [trimLineEnds, dropEndWhile, List.reverse_append, List.reverse_cons, List.append_assoc,
    List.singleton_append, List.dropWhile_append, List.dropWhile_cons_of_neg (p := Byte.isLineEnd)
    (by simp [hc] : ¬ Byte.isLineEnd c = true)]
  split
  · next hempty =>
    rw [List.isEmpty_iff.mp hempty]
    simp
  · simp

end LineBasic.Bytes

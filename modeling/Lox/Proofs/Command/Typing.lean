import Lox.Command.Execution
import Lox.Proofs.Text.Bytes

/-!
# Lines that are typed

The prompt gets bytes and cuts them behind line ends. A line end is a single byte that no other
character has in it, so the bytes of a text are cut into the bytes of its lines, and each of these
is read as the line that it spells.
-/

namespace Lox

theorem Utf8.decode_bytes (text : String) : Utf8.decode ⟨(bytes text).toArray⟩ = .ok text := by
  change Utf8.decode text.toUTF8 = .ok text
  have hvalid : text.toUTF8.IsValidUTF8 := text.isValidUTF8
  simp only [Utf8.decode, String.fromUTF8?, hvalid, dite_true]
  rfl

/-- Only a line end is spelled with the byte of a line end. -/
theorem Utf8.eq_lineEnd_of_mem {c : Char} (h : 10 ∈ String.utf8EncodeChar c) : c = '\n' := by
  by_cases hsmall : c.toNat < 128
  · rw [Utf8.utf8EncodeChar_of_lt hsmall, List.mem_singleton] at h
    have hc := Utf8.ofUInt8_ofNat hsmall
    rw [← h] at hc
    exact hc.symm
  · exact absurd (Utf8.le_of_mem_utf8EncodeChar (Nat.not_lt.1 hsmall) h) (by decide)

namespace Prompt

def lines (text : String) : List String := (text.toList.splitOn '\n').map String.ofList

/-- The lines as the prompt gets them, from the lines of a text. Nothing is behind the last line
end of a text that ends with one. -/
def typed : List String → List String
  | [] => []
  | [last] => if last = "" then [] else [last]
  | line :: rest => (line ++ "\n") :: typed rest

/-- Each line is typed, with or without its line end, unless nothing is behind the last one. -/
theorem typed_cons (line : String) (rest : List String) :
    (line = "" ∧ rest = []) ∨
      ∃ text, (text = line ∨ text = line ++ "\n") ∧ typed (line :: rest) = text :: typed rest := by
  cases rest with
  | nil =>
    by_cases hline : line = ""
    · exact .inl ⟨hline, rfl⟩
    · exact .inr ⟨line, .inl rfl, if_neg hline⟩
  | cons next rest => exact .inr ⟨line ++ "\n", .inr rfl, rfl⟩

theorem intercalate_lines (text : String) : "\n".intercalate (lines text) = text := by
  have hmap : (lines text).map String.toList = text.toList.splitOn '\n' := by
    simp [lines, Function.comp_def]
  apply String.toList_inj.1
  rw [String.toList_intercalate, hmap]
  exact List.intercalate_splitOn '\n'

theorem not_mem_of_mem_splitOn {cs line : List Char} (h : line ∈ cs.splitOn '\n') :
    '\n' ∉ line := by
  induction cs generalizing line with
  | nil => simp_all
  | cons c cs ih =>
    rw [List.splitOn_cons_eq_if_modifyHead] at h
    split at h
    · rcases List.mem_cons.1 h with rfl | h
      · simp
      · exact ih h
    · rename_i hc
      obtain ⟨head, rest, hsplit⟩ := List.exists_cons_of_ne_nil (List.splitOn_ne_nil '\n' cs)
      rw [hsplit, List.modifyHead_cons] at h
      rw [hsplit] at ih
      rcases List.mem_cons.1 h with rfl | h
      · have hhead := ih (List.mem_cons_self ..)
        have hne : '\n' ≠ c := fun heq => hc (beq_iff_eq.2 heq.symm)
        simp [hne, hhead]
      · exact ih (List.mem_cons_of_mem _ h)

theorem not_mem_of_mem_lines {text line : String} (h : line ∈ lines text) :
    '\n' ∉ line.toList := by
  obtain ⟨cs, hcs, rfl⟩ := List.mem_map.1 h
  rw [String.toList_ofList]
  exact not_mem_of_mem_splitOn hcs

theorem bytes_append (a b : String) : Utf8.bytes (a ++ b) = Utf8.bytes a ++ Utf8.bytes b := by
  simp [Utf8.bytes]

theorem eq_empty_of_bytes {text : String} (h : Utf8.bytes text = []) : text = "" := by
  refine String.toByteArray_inj.1 (ByteArray.ext ?_)
  exact Array.toList_inj.1 h

theorem not_mem_bytes {line : String} (h : '\n' ∉ line.toList) : 10 ∉ Utf8.bytes line := by
  intro hmem
  rw [Utf8.bytes_eq_encode] at hmem
  obtain ⟨c, hc, hbyte⟩ := List.mem_flatMap.1 hmem
  exact h (Utf8.eq_lineEnd_of_mem hbyte ▸ hc)

/-- A byte that is no line end belongs to the first line. -/
theorem splitLines_cons {x : UInt8} {xs line : List UInt8} {rest : List (List UInt8)} (hx : x ≠ 10)
    (h : splitLines xs = line :: rest) : splitLines (x :: xs) = (x :: line) :: rest := by
  unfold splitLines at h ⊢
  rw [List.foldr_cons, h, if_neg hx]

theorem splitLines_append {xs : List UInt8} (h : 10 ∉ xs) (ys : List UInt8) :
    splitLines (xs ++ 10 :: ys) = (xs ++ [10]) :: splitLines ys := by
  induction xs with
  | nil => rfl
  | cons x xs ih =>
    rw [List.mem_cons, not_or] at h
    exact splitLines_cons (Ne.symm h.1) (ih h.2)

theorem splitLines_of_not_mem {xs : List UInt8} (h : 10 ∉ xs) :
    splitLines xs = if xs = [] then [] else [xs] := by
  induction xs with
  | nil => rfl
  | cons x xs ih =>
    rw [List.mem_cons, not_or] at h
    have hrest := ih h.2
    rw [if_neg (List.cons_ne_nil x xs)]
    cases xs with
    | nil => exact if_neg (Ne.symm h.1)
    | cons y ys =>
      rw [if_neg (List.cons_ne_nil y ys)] at hrest
      exact splitLines_cons (Ne.symm h.1) hrest

/-- Lines that were joined are split where they were joined. -/
theorem splitLines_intercalate {ls : List String} (h : ∀ line ∈ ls, '\n' ∉ line.toList) :
    splitLines (Utf8.bytes ("\n".intercalate ls)) = (typed ls).map Utf8.bytes := by
  induction ls with
  | nil => rfl
  | cons line rest ih =>
    have hline := not_mem_bytes (h line (List.mem_cons_self ..))
    cases rest with
    | nil =>
      rw [String.intercalate_singleton, splitLines_of_not_mem hline, typed]
      by_cases hl : line = ""
      · subst hl
        rfl
      · rw [if_neg hl, if_neg fun hnil => hl (eq_empty_of_bytes hnil)]
        rfl
    | cons next rest =>
      have hend : Utf8.bytes "\n" = [10] := rfl
      have htyped : typed (line :: next :: rest) = (line ++ "\n") :: typed (next :: rest) := rfl
      rw [String.intercalate_cons_cons, bytes_append, bytes_append, hend, List.append_assoc,
        List.singleton_append, splitLines_append hline,
        ih fun l hl => h l (List.mem_cons_of_mem _ hl), htyped, List.map_cons, bytes_append, hend]

/-- The lines that the prompt cuts a text into. -/
theorem splitLines_toUTF8 (text : String) :
    splitLines text.toUTF8.data.toList = (typed (lines text)).map Utf8.bytes := by
  have hsplit := splitLines_intercalate
    fun line (hline : line ∈ lines text) => not_mem_of_mem_lines hline
  rwa [intercalate_lines] at hsplit

end Prompt

end Lox

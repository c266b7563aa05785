import Lox.Text.Utf8

/-!
# Texts as bytes

The bytes of a text are those of its characters, one after the other. A character of the first 128
has one byte, which is its number, and all bytes of another character are at least 128. So a
predicate that makes no difference between the characters from 128 on may be asked of bytes instead
of characters, and what it takes from the front of the bytes are the bytes of whole characters.

Offsets into the bytes of a text are boundaries of characters if the bytes before them are those of
a text. Only between boundaries is there a part of the text.
-/

namespace Lox.Utf8

def encode (cs : List Char) : List UInt8 := cs.flatMap String.utf8EncodeChar

def bytes (source : String) : List UInt8 := source.toUTF8.data.toList

@[simp] theorem encode_nil : encode [] = [] := rfl

theorem encode_cons (c : Char) (cs : List Char) :
    encode (c :: cs) = String.utf8EncodeChar c ++ encode cs := rfl

theorem encode_append (cs ds : List Char) : encode (cs ++ ds) = encode cs ++ encode ds :=
  List.flatMap_append

theorem length_encode_pos {cs : List Char} (h : cs ≠ []) : 0 < (encode cs).length := by
  cases cs with
  | nil => exact absurd rfl h
  | cons c cs =>
    rw [encode_cons, List.length_append]
    exact Nat.add_pos_left (List.length_pos_iff.2 String.utf8EncodeChar_ne_nil) _

theorem bytes_eq_encode (source : String) : bytes source = encode source.toList := by
  rw [bytes, String.toUTF8_eq_toByteArray, ← String.utf8Encode_toList, List.utf8Encode,
    List.toList_data_toByteArray, encode]

theorem utf8ByteSize_ofList (cs : List Char) :
    (String.ofList cs).utf8ByteSize = (encode cs).length := by
  rw [← String.size_toByteArray, String.toByteArray_ofList, List.utf8Encode,
    List.size_toByteArray, encode]

/-! ## Characters and their bytes -/

theorem utf8EncodeChar_of_lt {c : Char} (h : c.toNat < 128) :
    String.utf8EncodeChar c = [UInt8.ofNat c.toNat] := by
  have hle : c.val.toNat ≤ 0x7f := Nat.le_of_lt_succ h
  simp only [String.utf8EncodeChar, if_pos hle]
  rfl

theorem le_of_mem_utf8EncodeChar {c : Char} (h : 128 ≤ c.toNat) {b : UInt8}
    (hb : b ∈ String.utf8EncodeChar c) : 128 ≤ b.toNat := by
  have hlt : ¬ c.val.toNat ≤ 0x7f := Nat.not_le.2 h
  simp only [String.utf8EncodeChar, if_neg hlt] at hb
  split at hb
  · simp only [List.mem_cons, List.not_mem_nil, or_false] at hb
    rcases hb with rfl | rfl <;> rw [UInt8.toNat_ofNat'] <;> omega
  · split at hb
    · simp only [List.mem_cons, List.not_mem_nil, or_false] at hb
      rcases hb with rfl | rfl | rfl <;> rw [UInt8.toNat_ofNat'] <;> omega
    · simp only [List.mem_cons, List.not_mem_nil, or_false] at hb
      rcases hb with rfl | rfl | rfl | rfl <;> rw [UInt8.toNat_ofNat'] <;> omega

theorem ofUInt8_ofNat {c : Char} (h : c.toNat < 128) :
    Char.ofUInt8 (UInt8.ofNat c.toNat) = c := by
  apply Char.ext
  apply UInt32.toNat_inj.1
  change (UInt8.ofNat c.toNat).toUInt32.toNat = c.toNat
  rw [UInt8.toNat_toUInt32, UInt8.toNat_ofNat', Nat.mod_eq_of_lt (by omega)]

theorem toNat_ofUInt8 (b : UInt8) : (Char.ofUInt8 b).toNat = b.toNat := UInt8.toNat_toUInt32 b

/-! ## Bytes seen as characters -/

/-- The bytes of characters, each as the character with its number. -/
def view (cs : List Char) : List Char := (encode cs).map Char.ofUInt8

@[simp] theorem view_nil : view [] = [] := rfl

theorem view_append (cs ds : List Char) : view (cs ++ ds) = view cs ++ view ds := by
  rw [view, encode_append, List.map_append, view, view]

theorem length_view (cs : List Char) : (view cs).length = (encode cs).length := List.length_map _

theorem view_singleton_of_lt {c : Char} (h : c.toNat < 128) : view [c] = [c] := by
  rw [view, encode, List.flatMap_singleton, utf8EncodeChar_of_lt h, List.map_singleton,
    ofUInt8_ofNat h]

theorem le_of_mem_view_singleton {c : Char} (h : 128 ≤ c.toNat) {b : Char} (hb : b ∈ view [c]) :
    128 ≤ b.toNat := by
  obtain ⟨byte, hbyte, rfl⟩ := List.mem_map.1 hb
  rw [encode, List.flatMap_singleton] at hbyte
  rw [toNat_ofUInt8]
  exact le_of_mem_utf8EncodeChar h hbyte

theorem view_cons (c : Char) (cs : List Char) : view (c :: cs) = view [c] ++ view cs :=
  view_append [c] cs

theorem view_cons_of_lt {c : Char} (h : c.toNat < 128) (cs : List Char) :
    view (c :: cs) = c :: view cs := by
  rw [view_cons, view_singleton_of_lt h, List.singleton_append]

theorem view_singleton_ne_nil (c : Char) : view [c] ≠ [] := by
  rw [view, encode, List.flatMap_singleton]
  exact fun h => String.utf8EncodeChar_ne_nil (List.map_eq_nil_iff.1 h)

section

variable {q : Char → Bool} {v : Bool}

/-- A predicate that is the same for all characters from 128 on may be asked of bytes. -/
theorem apply_of_mem_view (hq : ∀ c : Char, 128 ≤ c.toNat → q c = v) {c b : Char}
    (hb : b ∈ view [c]) : q b = q c := by
  by_cases hc : c.toNat < 128
  · rw [view_singleton_of_lt hc, List.mem_singleton] at hb
    rw [hb]
  · have hle := Nat.not_lt.1 hc
    rw [hq c hle, hq b (le_of_mem_view_singleton hle hb)]

theorem apply_headD_view (hq : ∀ c : Char, 128 ≤ c.toNat → q c = v) (cs : List Char) (d : Char) :
    q ((view cs).headD d) = q (cs.headD d) := by
  cases cs with
  | nil => rfl
  | cons c cs =>
    cases hview : view [c] with
    | nil => exact absurd hview (view_singleton_ne_nil c)
    | cons b bs =>
      have hb : q b = q c := apply_of_mem_view hq (hview ▸ List.mem_cons_self)
      rw [view_cons, hview, List.cons_append, List.headD_cons, List.headD_cons, hb]

/-- What a predicate takes from the front of the bytes are the bytes of the characters that it
takes. -/
theorem takeWhile_view (hq : ∀ c : Char, 128 ≤ c.toNat → q c = v) (cs : List Char) :
    (view cs).takeWhile q = view (cs.takeWhile q) := by
  induction cs with
  | nil => rfl
  | cons c cs ih =>
    rw [view_cons]
    by_cases hc : q c = true
    · rw [List.takeWhile_cons_of_pos hc, view_cons c (cs.takeWhile q),
        List.takeWhile_append_of_pos fun b hb => (apply_of_mem_view hq hb).trans hc, ih]
    · rw [List.takeWhile_cons_of_neg hc, view_nil]
      cases hview : view [c] with
      | nil => exact absurd hview (view_singleton_ne_nil c)
      | cons b bs =>
        have hb : q b = q c := apply_of_mem_view hq (hview ▸ List.mem_cons_self)
        exact List.takeWhile_cons_of_neg (by rwa [hb])

end

/-- A character before 128 is at the front if its byte is. -/
theorem head?_view_eq_iff {a : Char} (ha : a.toNat < 128) (cs : List Char) :
    (view cs).head? = some a ↔ cs.head? = some a := by
  cases cs with
  | nil => simp
  | cons c cs =>
    by_cases hc : c.toNat < 128
    · rw [view_cons_of_lt hc, List.head?_cons, List.head?_cons]
    · have hle := Nat.not_lt.1 hc
      cases hview : view [c] with
      | nil => exact absurd hview (view_singleton_ne_nil c)
      | cons b bs =>
        have hb := le_of_mem_view_singleton hle (hview ▸ List.mem_cons_self : b ∈ view [c])
        rw [view_cons, hview, List.cons_append, List.head?_cons, List.head?_cons,
          Option.some_inj, Option.some_inj]
        constructor <;> rintro rfl <;> omega

/-- A character before 128 is there as often as its byte is. -/
theorem count_view {a : Char} (ha : a.toNat < 128) (cs : List Char) :
    (view cs).count a = cs.count a := by
  induction cs with
  | nil => rfl
  | cons c cs ih =>
    by_cases hc : c.toNat < 128
    · rw [view_cons_of_lt hc, List.count_cons, List.count_cons, ih]
    · have hle := Nat.not_lt.1 hc
      have hnot : a ∉ view [c] := fun hmem => by
        have := le_of_mem_view_singleton hle hmem
        omega
      have hne : c ≠ a := by
        rintro rfl
        omega
      rw [view_cons, List.count_append, List.count_eq_zero_of_not_mem hnot, Nat.zero_add, ih,
        List.count_cons_of_ne hne]

/-! ## Parts of a text -/

/-- The part of a text between two offsets, which have to be boundaries of characters and in
order. -/
def slice? (source : String) (a b : Nat) : Option String :=
  if h : (⟨a⟩ : String.Pos.Raw).IsValid source ∧ (⟨b⟩ : String.Pos.Raw).IsValid source ∧ a ≤ b then
    some (source.extract ⟨⟨a⟩, h.1⟩ ⟨⟨b⟩, h.2.1⟩)
  else none

theorem isValid_append (cs ds : List Char) :
    (⟨(encode cs).length⟩ : String.Pos.Raw).IsValid (String.ofList (cs ++ ds)) := by
  refine String.Pos.Raw.isValid_iff_exists_append.2 ⟨String.ofList cs, String.ofList ds, ?_, ?_⟩
  · rw [String.ofList_append]
  · apply String.Pos.Raw.ext
    rw [String.byteIdx_rawEndPos, utf8ByteSize_ofList]

/-- The part of a text between the ends of two parts of it. -/
theorem slice?_append (before text behind : List Char) :
    slice? (String.ofList (before ++ (text ++ behind))) (encode before).length
      ((encode before).length + (encode text).length) = some (String.ofList text) := by
  have hstop := isValid_append (before ++ text) behind
  rw [List.append_assoc, encode_append, List.length_append] at hstop
  rw [slice?, dif_pos ⟨isValid_append _ _, hstop, Nat.le_add_right _ _⟩, Option.some_inj]
  apply String.toByteArray_inj.1
  change (String.ofList (before ++ (text ++ behind))).toByteArray.extract (encode before).length
    ((encode before).length + (encode text).length) = _
  rw [String.ofList_append, String.ofList_append,
    String.toByteArray_append, String.toByteArray_append]
  have hbefore := utf8ByteSize_ofList before
  have htext := utf8ByteSize_ofList text
  rw [← String.size_toByteArray] at hbefore htext
  rw [← hbefore, ← htext]
  exact (ByteArray.extract_append_size_add (i := 0)).trans (ByteArray.extract_append_eq_left rfl)

end Lox.Utf8

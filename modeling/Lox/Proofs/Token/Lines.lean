import Lox.Proofs.Token.Lossless
import Mathlib.Data.List.Induction

/-!
# The lines of tokens and faults

A cursor counts the line ends among the bytes that it has gone over, in blanks and in strings, and a
jump over a comment stops in front of the line end. So between two calls for items its line is one
more than the number of line ends in front of it, and an item is on the line where the part that it
stands for ends.
-/

namespace Lox.Lexer

open Utf8

/-- The line on which a text ends. -/
def lineAfter (text : List Char) : Nat := 1 + text.count '\n'

theorem lineAfter_append (cs ds : List Char) :
    lineAfter (cs ++ ds) = lineAfter cs + ds.count '\n' := by
  rw [lineAfter, lineAfter, List.count_append, Nat.add_assoc]

/-- The line that an item names. -/
def Item.line? : Item → Option Nat
  | .ok t => some t.line
  | .error (.lexical line _) => some line
  | .error _ => none

/-- The line of an item that stands for `text` between `before` and `behind`. A token is on the line
where its lexeme ends. A character that starts nothing is on the line where it stands. A string
without an end is on the last line of the source. -/
def Item.OnLine (before text behind : List Char) : Item → Prop
  | .ok t => t.line = lineAfter (before ++ text)
  | .error (.lexical line (.unexpectedCharacter _)) => line = lineAfter before
  | .error (.lexical line .unterminatedString) => line = lineAfter (before ++ (text ++ behind))
  | .error _ => False

/-! ## Items of pieces -/

/-- The mark of the end is on the line where the text ends. -/
theorem getLast?_itemsFrom (line : Nat) (cs : List Char) :
    (itemsFrom line (pieces cs)).getLast? = some (.ok (Token.endMark (line + cs.count '\n'))) := by
  induction hlength : cs.length using Nat.strongRecOn generalizing line cs with
  | ind n ih =>
    cases cs with
    | nil => rfl
    | cons c rest =>
      obtain ⟨behind, hsplit⟩ := prefix_firstPiece c rest
      have hpos := List.length_pos_iff.2 (fits_firstPiece hsplit).text_ne_nil
      have hshorter : behind.length < n := by
        rw [← hlength, ← hsplit, List.length_append]
        omega
      rw [pieces_cons hsplit, itemsFrom, List.getLast?_append, ih _ hshorter _ _ rfl,
        Option.some_or, Nat.add_assoc, Piece.newlines, ← List.count_append, hsplit]

/-- A line end is a blank, so it is never a character that starts nothing. -/
theorem stray_firstPiece_ne_lineEnd {c d : Char} {rest : List Char}
    (h : (firstPiece c rest).cls = .stray d) : d ≠ '\n' := by
  rintro rfl
  obtain ⟨behind, hsplit⟩ := prefix_firstPiece c rest
  have htext : (firstPiece c rest).text = ['\n'] := by
    have hfits := fits_firstPiece hsplit
    generalize firstPiece c rest = p at h hfits
    cases hfits with
    | stray c =>
      cases h
      rfl
    | blank | comment | lexeme | unclosedString => cases h
  rw [htext] at hsplit
  obtain ⟨rfl, -⟩ := List.cons.inj hsplit
  cases h

theorem unexpectedCharacter_ne_lineEnd {line n : Nat} {c : Char} {cs : List Char}
    (h : .error (.lexical n (.unexpectedCharacter c)) ∈ itemsFrom line (pieces cs)) : c ≠ '\n' := by
  obtain ⟨front, last, hitems, hfront, -⟩ := itemsFrom_append (pieces cs) line
  have hmem : .error (.lexical n (.unexpectedCharacter c)) ∈ front := by
    rw [hitems, List.mem_append] at h
    simpa using h
  obtain ⟨p, hp, k, hitem⟩ := hfront _ hmem
  obtain ⟨d, rest, rfl⟩ := exists_firstPiece_of_mem hp
  unfold Piece.item? at hitem
  split at hitem
  case h_4 hcls =>
    cases hitem
    exact stray_firstPiece_ne_lineEnd hcls
  all_goals cases hitem

/-- An item that names the line where its part of the source ends is on its line. -/
theorem Item.Covers.onLine {text behind : List Char} {item : Item} (h : item.Covers text behind)
    {before : List Char} (hline : item.line? = some (lineAfter (before ++ text)))
    (hstray : ∀ n c, item = .error (.lexical n (.unexpectedCharacter c)) → c ≠ '\n') :
    item.OnLine before text behind := by
  unfold Item.Covers at h
  split at h
  case h_1 t => exact Option.some.inj hline
  case h_2 n c =>
    have hn : n = lineAfter (before ++ text) := Option.some.inj hline
    have hcount : text.count '\n' = 0 := by
      rw [h, List.count_singleton, if_neg (by simpa using hstray n c rfl)]
    rw [Item.OnLine, hn, lineAfter_append, hcount, Nat.add_zero]
  case h_3 n =>
    have hn : n = lineAfter (before ++ text) := Option.some.inj hline
    rw [Item.OnLine, hn, h.1, List.append_nil]
  case h_4 => exact h.elim

namespace Cursor

variable {source : String} {before cs : List Char} {s s' : Cursor} {item : Item}

/-! ## The line of a cursor -/

/-- A cursor has counted the line ends in front of it. -/
def Counts (source : String) (s : Cursor) : Prop :=
  s.line = lineAfter ((view source.toList).take s.curr)

/-- Between characters, the line ends in front of a cursor are those of the characters. -/
theorem counts_iff (hsource : source = String.ofList (before ++ cs))
    (hcurr : s.curr = (encode before).length) : Counts source s ↔ s.line = lineAfter before := by
  rw [Counts, hsource, hcurr, String.toList_ofList, view_append, ← length_view, List.take_left,
    lineAfter, count_view (by decide), lineAfter]

/-- An item is on the line that the cursor is on behind it. -/
theorem line?_of_nextIn {rounds : Nat} (h : nextIn source rounds s = some (some item, s')) :
    item.line? = some s'.line := by
  induction rounds generalizing s with
  | zero => cases h
  | succ rounds ih =>
    rw [nextIn] at h
    split at h
    · cases h
    split at h
    · cases h
      rfl
    cases hstep : s.scanPiece source with
    | none =>
      rw [hstep] at h
      cases h
    | some step =>
      obtain ⟨cls, s₁⟩ := step
      simp only [hstep, Option.bind_eq_bind, Option.bind_some] at h
      cases cls with
      | blank => exact ih h
      | comment => exact ih h
      | lexeme kind =>
        obtain ⟨text, -, heq⟩ := Option.bind_eq_some_iff.1 h
        cases heq
        rfl
      | stray c =>
        cases h
        rfl
      | unclosedString =>
        cases h
        rfl

/-- The cursor is between characters, or behind the last byte, on the line that it should be on. -/
inductive Placed (source : String) (s : Cursor) : Prop
  | between {before cs : List Char} (hsource : source = String.ofList (before ++ cs))
      (hcurr : s.curr = (encode before).length) (hline : s.line = lineAfter before) :
      Placed source s
  | beyond (hcurr : size source < s.curr) (hline : s.line = lineAfter source.toList) :
      Placed source s

theorem placed_start (source : String) : Placed source ⟨0, 0, 1⟩ := by
  have hsource : source = String.ofList ([] ++ source.toList) := String.ofList_toList.symm
  exact .between hsource rfl rfl

theorem Placed.counts (h : Placed source s) : Counts source s := by
  cases h with
  | between hsource hcurr hline => exact (counts_iff hsource hcurr).2 hline
  | beyond hcurr hline =>
    rw [size_eq_length_view] at hcurr
    rw [Counts, List.take_of_length_le (Nat.le_of_lt hcurr), hline, lineAfter, lineAfter,
      count_view (by decide)]

/-- A call for the next item counts the line ends that it goes over. -/
theorem Placed.next (h : Placed source s) {o : Option Item}
    (hnext : s.next source = some (o, s')) : Placed source s' := by
  cases h with
  | beyond hcurr hline =>
    cases hnext.symm.trans (next_of_lt hcurr)
    exact .beyond hcurr hline
  | @between before cs hsource hcurr hline =>
    obtain ⟨item, s'', items, hfound, hitems, houtcome⟩ := outcome_next hsource hcurr
    cases hnext.symm.trans hfound
    -- the mark of the end tells how many line ends are ahead, before the call and behind it
    have hmark := getLast?_itemsFrom s.line cs
    rw [hitems] at hmark
    cases houtcome with
    | last hskipped hend =>
      have hmoved : s'.line = s.line + cs.count '\n' :=
        congrArg Token.line (Except.ok.inj (Option.some.inj hmark))
      refine .beyond (by omega) ?_
      rw [hmoved, hline, hsource, String.toList_ofList, lineAfter_append]
    | @item gap text behind _ _ hcs hskipped hcovers hstart hend =>
      rw [List.getLast?_cons, getLast?_itemsFrom, Option.getD_some] at hmark
      have hmoved : s'.line + behind.count '\n' = s.line + cs.count '\n' :=
        congrArg Token.line (Except.ok.inj (Option.some.inj hmark))
      obtain ⟨hsource', hcurr'⟩ := boundary_behind hsource hcurr hcs hstart hend
      refine .between hsource' hcurr' ?_
      rw [hcs, ← List.append_assoc, List.count_append] at hmoved
      rw [lineAfter_append, ← hline]
      omega

/-! ## Along a trail -/

variable {items : List Item} {cuts : List Cut} {tail : List Char} {trail : Nat → Cursor}

/-- From the start of a source on, the cursor has counted the line ends in front of it, whatever the
number of calls. -/
theorem Trail.counts (h : Trail source items cuts trail) (hstart : trail 0 = ⟨0, 0, 1⟩) (k : Nat) :
    Counts source (trail k) := by
  have hplaced : Placed source (trail k) := by
    induction k with
    | zero =>
      rw [hstart]
      exact placed_start source
    | succ k ih => exact ih.next (h.next k)
  exact hplaced.counts

/-- The cursor behind some cuts is where their characters end. -/
theorem Trail.curr_eq (h : Trail source items cuts trail) (hstart : trail 0 = ⟨0, 0, 1⟩)
    {front back : List Cut} (hcuts : cuts = front ++ back) :
    (trail front.length).curr = (encode (front.flatMap Cut.chars)).length := by
  induction front using List.reverseRecOn generalizing back with
  | nil =>
    rw [List.length_nil, hstart]
    rfl
  | append_singleton front cut ih =>
    rw [List.append_assoc] at hcuts
    have hcut : cuts[front.length]? = some cut := by simp [hcuts]
    rw [List.length_append, List.length_singleton, h.curr _ _ hcut, h.start _ _ hcut, ih hcuts,
      List.flatMap_append, List.flatMap_singleton, Cut.chars, encode_append, encode_append,
      List.length_append, List.length_append, Nat.add_assoc]

/-- The item of a cut names the line where the cut ends. -/
theorem Trail.line?_item (h : Trail source (scan source) cuts trail)
    (hstart : trail 0 = ⟨0, 0, 1⟩) (htiling : Tiling source.toList cuts tail) {last : Item}
    (hscan : scan source = cuts.map Cut.item ++ [last]) {front back : List Cut} {cut : Cut}
    (hcuts : cuts = front ++ cut :: back) :
    cut.item.line? = some (lineAfter (front.flatMap Cut.chars ++ cut.chars)) := by
  have hitem : (scan source)[front.length]? = some cut.item := by simp [hscan, hcuts]
  have hnext := h.next front.length
  rw [hitem] at hnext
  have hcuts' : cuts = (front ++ [cut]) ++ back := by simp [hcuts]
  have hcurr := h.curr_eq hstart hcuts'
  have hsource : source = String.ofList ((front ++ [cut]).flatMap Cut.chars ++
      (back.flatMap Cut.chars ++ tail)) := by
    rw [← List.append_assoc, ← List.flatMap_append, ← hcuts', ← htiling.source_eq,
      String.ofList_toList]
  have hline := (counts_iff hsource hcurr).1 (h.counts hstart _)
  rw [List.length_append, List.length_singleton, List.flatMap_append, List.flatMap_singleton]
    at hline
  rw [line?_of_nextIn hnext, hline]

end Cursor

/-- Every item of a source is on its line. The cursor that goes over the source always knows the
line: it is one more than the number of line ends among the bytes in front of it. A token is on the
line where its lexeme ends, and the mark of the end on the last line of the source. A character that
starts nothing is on the line where it stands, and a string without an end on the last line. -/
theorem scan_counts_lines (source : String) :
    ∃ cuts tail trail, Tiling source.toList cuts tail ∧
      scan source = cuts.map Cut.item ++ [.ok (Token.endMark (lineAfter source.toList))] ∧
      (∀ front cut back, cuts = front ++ cut :: back →
        cut.item.OnLine (front.flatMap Cut.chars ++ cut.gap) cut.text
          (back.flatMap Cut.chars ++ tail)) ∧
      trail 0 = ⟨0, 0, 1⟩ ∧ Cursor.Trail source (scan source) cuts trail ∧
      ∀ k, (trail k).Counts source := by
  have hsource : source = String.ofList ([] ++ source.toList) := String.ofList_toList.symm
  obtain ⟨cuts, tail, line, trail, htiling, hscan, hstart, htrail⟩ :=
    Cursor.exists_tiling (s := ⟨0, 0, 1⟩) hsource rfl
  refine ⟨cuts, tail, trail, htiling, ?_, fun front cut back hcuts => ?_, hstart, htrail,
    htrail.counts hstart⟩
  · have hmark := getLast?_itemsFrom 1 source.toList
    rw [hscan, List.getLast?_concat] at hmark
    rw [scan, hscan, Option.some.inj hmark]
    rfl
  · refine (htiling.cut front cut back hcuts).2.onLine ?_ fun n c hitem => ?_
    · rw [List.append_assoc]
      exact htrail.line?_item hstart htiling hscan hcuts
    · have hmem : cut.item ∈ itemsFrom 1 (pieces source.toList) := by
        rw [hscan, hcuts]
        simp
      rw [hitem] at hmem
      exact unexpectedCharacter_ne_lineEnd hmem

/-- A string over two lines, behind a stray character and a comment. -/
example : scan "@\n//\n\"a\nb\" c" =
    [.error (.lexical 1 (.unexpectedCharacter '@')), .ok ⟨.string "a\nb", "\"a\nb\"", 4⟩,
      .ok ⟨.symbol .identifier, "c", 4⟩, .ok (Token.endMark 4)] := by
  rfl

end Lox.Lexer

import Lox.Proofs.Token.Stepping

/-!
# Scanning loses nothing

From the start of a source on, each call for the next item finds it, without a look or a cut outside
of the source or inside a character, and in a bounded number of rounds. The last item is the mark of
the end, which comes once, and behind it there are no items. The parts of the source that the items
stand for lie one behind the other. Between them, in front of them and behind them there are only
blanks and comments.
-/

namespace Lox.Lexer

open Utf8

variable {behind : List Char} {p : Piece} {c : Char} {item : Item} {line : Nat}

/-! ## Pieces in front of the rest of their source -/

/-- What a piece may be in front of `behind`. A comment goes up to the end of its line. A string
that is not closed goes up to the end of the source. -/
inductive Piece.Fits (behind : List Char) : Piece → Prop
  | blank {c : Char} (hc : isBlank c = true) : Fits behind ⟨[c], .blank⟩
  | comment {body : List Char} (hbody : '\n' ∉ body) (hbehind : ∀ d ∈ behind.head?, d = '\n') :
      Fits behind ⟨'/' :: '/' :: body, .comment⟩
  | lexeme {text : List Char} {kind : Token.Kind} (htext : text ≠ [])
      (hkind : kind ≠ .symbol .eof) : Fits behind ⟨text, .lexeme kind⟩
  | stray (c : Char) : Fits behind ⟨[c], .stray c⟩
  | unclosedString {body : List Char} (hbody : '"' ∉ body) (hbehind : behind = []) :
      Fits behind ⟨'"' :: body, .unclosedString⟩

theorem Piece.Fits.text_ne_nil (h : p.Fits behind) : p.text ≠ [] := by
  cases h with
  | lexeme htext => exact htext
  | blank | comment | stray | unclosedString => exact List.cons_ne_nil _ _

theorem numberText_ne_nil (hc : c.isDigit = true) (rest : List Char) :
    numberText (c :: rest) ≠ [] := by
  rw [numberText_cons hc]
  exact List.cons_ne_nil _ _

theorem fits_slashPiece {rest : List Char} (h : (slashPiece rest).text ++ behind = '/' :: rest) :
    (slashPiece rest).Fits behind := by
  unfold slashPiece at h ⊢
  split
  case isFalse => exact .lexeme (List.cons_ne_nil _ _) (by simp)
  case isTrue hhead =>
    rw [if_pos hhead] at h
    obtain ⟨body, rfl⟩ := List.head?_eq_some_iff.1 hhead
    rw [List.takeWhile_cons_of_pos (by decide)] at h ⊢
    have hbehind : behind = body.dropWhile (· != '\n') := by
      have hsplit := List.takeWhile_append_dropWhile (p := (· != '\n')) (l := body)
      simp only [List.cons_append, List.cons.injEq, true_and] at h
      exact List.append_cancel_left (h.trans hsplit.symm)
    refine .comment (not_mem_takeWhile rfl body) fun d hd => ?_
    have hnot := List.head?_dropWhile_not (· != '\n') body
    rw [hbehind, Option.mem_def] at hd
    simpa [hd] using hnot

theorem fits_stringPiece {rest : List Char} (h : (stringPiece rest).text ++ behind = '"' :: rest) :
    (stringPiece rest).Fits behind := by
  rcases stringPiece_cases rest with ⟨hbody, heq⟩ | ⟨_, -, heq⟩
  · rw [heq] at h ⊢
    have hquote : '"' ∉ rest := by
      rw [← hbody]
      exact not_mem_takeWhile rfl rest
    exact .unclosedString hquote (List.append_cancel_left (h.trans (List.append_nil _).symm))
  · rw [heq]
    exact .lexeme (List.cons_ne_nil _ _) (by simp)

/-- The first piece of a source fits in front of the rest. -/
theorem fits_firstPiece {rest : List Char} (h : (firstPiece c rest).text ++ behind = c :: rest) :
    (firstPiece c rest).Fits behind := by
  have hkind {kind : Token.Kind} : (firstPiece c rest).cls = .lexeme kind → kind ≠ .symbol .eof :=
    kind_firstPiece_ne_eof
  rw [firstPiece] at h hkind ⊢
  cases hsymbol : punctuator? c with
  | some symbol =>
    simp only [hsymbol] at hkind ⊢
    exact .lexeme (List.cons_ne_nil _ _) (hkind rfl)
  | none =>
    cases hop : operator? c with
    | some op =>
      simp only [hsymbol, hop, operatorPiece] at hkind ⊢
      by_cases hhead : rest.head? = some op.second
      · simp only [if_pos hhead] at hkind ⊢
        exact .lexeme (List.cons_ne_nil _ _) (hkind rfl)
      · simp only [if_neg hhead] at hkind ⊢
        exact .lexeme (List.cons_ne_nil _ _) (hkind rfl)
    | none =>
      simp only [hsymbol, hop] at h hkind ⊢
      by_cases hblank : isBlank c = true
      · simp only [if_pos hblank]
        exact .blank hblank
      simp only [if_neg hblank] at h hkind ⊢
      by_cases hslash : c = '/'
      · subst hslash
        exact fits_slashPiece h
      simp only [if_neg hslash] at h hkind ⊢
      by_cases hquote : c = '"'
      · subst hquote
        exact fits_stringPiece h
      simp only [if_neg hquote] at hkind ⊢
      by_cases hdigit : c.isDigit = true
      · simp only [if_pos hdigit] at hkind ⊢
        exact .lexeme (numberText_ne_nil hdigit rest) (hkind rfl)
      simp only [if_neg hdigit] at hkind ⊢
      by_cases hname : startsName c = true
      · simp only [if_pos hname] at hkind ⊢
        exact .lexeme (List.cons_ne_nil _ _) (hkind rfl)
      simp only [if_neg hname]
      exact .stray c

/-! ## Pieces one behind the other -/

theorem piecesAfter_eq (skip : Nat) (cs : List Char) :
    piecesAfter skip cs = pieces (cs.drop skip) := by
  induction cs generalizing skip with
  | nil => rw [List.drop_nil, pieces, piecesAfter, piecesAfter]
  | cons c rest ih =>
    cases skip with
    | zero => rfl
    | succ skip => exact ih skip

/-- Behind the first piece the rest of the source is cut. -/
theorem pieces_cons {rest : List Char} (h : (firstPiece c rest).text ++ behind = c :: rest) :
    pieces (c :: rest) = firstPiece c rest :: pieces behind := by
  obtain ⟨d, text, htext⟩ := List.exists_cons_of_ne_nil (fits_firstPiece h).text_ne_nil
  rw [pieces, piecesAfter, piecesAfter_eq]
  simp only [htext, List.cons_append, List.cons.injEq] at h ⊢
  exact ⟨trivial, by rw [List.length_cons, Nat.add_sub_cancel, ← h.2, List.drop_left]⟩

/-! ## Tilings -/

/-- What is passed over in front of `behind`: blanks, and comments up to the end of their line. -/
inductive Skipped (behind : List Char) : List Char → Prop
  | nil : Skipped behind []
  | blank {c : Char} {text : List Char} (hc : c ∈ [' ', '\r', '\t', '\n'])
      (h : Skipped behind text) : Skipped behind (c :: text)
  | comment {body text : List Char} (hbody : '\n' ∉ body)
      (hline : ∀ d ∈ (text ++ behind).head?, d = '\n') (h : Skipped behind text) :
      Skipped behind ('/' :: '/' :: (body ++ text))

/-- The part of the source that an item stands for, in front of `behind`: the lexeme of a token, a
character that starts nothing, or all that follows a quote without another one. -/
def Item.Covers (text behind : List Char) : Item → Prop
  | .ok t => t.isEnd = false ∧ t.lexeme = String.ofList text ∧ text ≠ []
  | .error (.lexical _ (.unexpectedCharacter c)) => text = [c]
  | .error (.lexical _ .unterminatedString) => behind = [] ∧ ∃ body, text = '"' :: body ∧ '"' ∉ body
  | .error _ => False

theorem Item.Covers.text_ne_nil {text : List Char} (h : item.Covers text behind) : text ≠ [] := by
  unfold Item.Covers at h
  split at h
  · exact h.2.2
  · exact h ▸ List.cons_ne_nil _ _
  · obtain ⟨-, body, rfl, -⟩ := h
    exact List.cons_ne_nil _ _
  · exact h.elim

/-- A part of the source for one item, and what is skipped in front of it. -/
structure Cut where
  gap : List Char
  text : List Char
  item : Item

def Cut.chars (cut : Cut) : List Char := cut.gap ++ cut.text

/-- A source is a row of cuts with skipped characters behind them. -/
structure Tiling (source : List Char) (cuts : List Cut) (tail : List Char) : Prop where
  source_eq : source = cuts.flatMap Cut.chars ++ tail
  skipped_tail : Skipped [] tail
  cut : ∀ front cut back, cuts = front ++ cut :: back →
    Skipped (cut.text ++ (back.flatMap Cut.chars ++ tail)) cut.gap ∧
      cut.item.Covers cut.text (back.flatMap Cut.chars ++ tail)

theorem Skipped.tiling {tail : List Char} (h : Skipped [] tail) : Tiling tail [] tail where
  source_eq := rfl
  skipped_tail := h
  cut front cut back heq := absurd heq (by simp)

theorem Tiling.cons {behind : List Char} {cuts : List Cut} {tail : List Char}
    (h : Tiling behind cuts tail) {gap text : List Char} {item : Item}
    (hskipped : Skipped (text ++ behind) gap) (hcovers : item.Covers text behind) :
    Tiling (gap ++ (text ++ behind)) (⟨gap, text, item⟩ :: cuts) tail where
  source_eq := by
    rw [List.flatMap_cons, Cut.chars, List.append_assoc, List.append_assoc, ← h.source_eq]
  skipped_tail := h.skipped_tail
  cut front cut' back heq := by
    cases front with
    | nil =>
      obtain ⟨rfl, rfl⟩ := List.cons.inj heq
      rw [← h.source_eq]
      exact ⟨hskipped, hcovers⟩
    | cons _ front => exact h.cut front cut' back (List.cons.inj heq).2

/-- A piece without an item is skipped. -/
theorem Piece.Fits.skipped {gap rest : List Char} (hp : p.Fits (gap ++ rest))
    (hitem : p.item? line = none) (h : Skipped rest gap) : Skipped rest (p.text ++ gap) := by
  cases hp with
  | blank hc => exact .blank (by simpa [isBlank, or_assoc] using hc) h
  | comment hbody hbehind => exact .comment hbody hbehind h
  | lexeme | stray | unclosedString => cases hitem

theorem Piece.Fits.covers (hp : p.Fits behind) (hitem : p.item? line = some item) :
    item.Covers p.text behind := by
  cases hp with
  | blank | comment => cases hitem
  | lexeme htext hkind =>
    cases hitem
    refine ⟨?_, rfl, htext⟩
    simpa [Token.isEnd, Token.is, ← Bool.not_eq_true, Token.Kind.is_iff] using hkind
  | stray c =>
    cases hitem
    rfl
  | unclosedString hbody hbehind =>
    cases hitem
    exact ⟨hbehind, _, rfl, hbody⟩

namespace Cursor

variable {source : String} {before cs : List Char} {s s' : Cursor}

/-! ## The next item -/

/-- A call for the next item with the characters `cs` ahead. If all of them are skipped it gives the
mark of the end. Otherwise it gives the item of the first cut, and the items behind it are left. -/
inductive Outcome (source : String) (s : Cursor) (cs : List Char) :
    Item → Cursor → List Item → Prop
  | last {s' : Cursor} (hskipped : Skipped [] cs) (hcurr : s'.curr = size source + 1) :
      Outcome source s cs (.ok (Token.endMark s'.line)) s' []
  | item {gap text behind : List Char} {item : Item} {s' : Cursor}
      (hcs : cs = gap ++ (text ++ behind)) (hskipped : Skipped (text ++ behind) gap)
      (hcovers : item.Covers text behind) (hstart : s'.start = s.curr + (encode gap).length)
      (hcurr : s'.curr = s'.start + (encode text).length) :
      Outcome source s cs item s' (itemsFrom s'.line (pieces behind))

/-- Skipping a piece in front does not change what is found. -/
theorem Outcome.skip {s₁ : Cursor} {items : List Item} (h : Outcome source s₁ behind item s' items)
    (hp : p.Fits behind) (hitem : p.item? line = none)
    (hcurr : s₁.curr = s.curr + (encode p.text).length) :
    Outcome source s (p.text ++ behind) item s' items := by
  cases h with
  | last hskipped hend =>
    rw [← List.append_nil behind] at hp
    exact .last (hp.skipped hitem hskipped) hend
  | item hcs hskipped hcovers hstart hcurr' =>
    subst hcs
    refine .item (List.append_assoc _ _ _).symm (hp.skipped hitem hskipped) hcovers ?_ hcurr'
    rw [hstart, hcurr, encode_append, List.length_append, Nat.add_assoc]

/-- A round is over a piece, and it is the last one if the piece has an item. -/
theorem nextIn_succ (hlt : s.curr < size source) (hstep : s.scanPiece source = some (p.cls, s'))
    (hslice : slice? source s'.start s'.curr = some (String.ofList p.text)) (rounds : Nat) :
    nextIn source (rounds + 1) s =
      match p.item? s'.line with
      | some item => some (some item, s')
      | none => nextIn source rounds s' := by
  rw [nextIn, if_neg (by omega), if_neg (by omega), hstep, Piece.item?]
  simp only [Option.bind_eq_bind, Option.bind_some]
  cases p.cls with
  | blank | comment | stray | unclosedString => rfl
  | lexeme kind =>
    rw [hslice]
    rfl

/-- From a boundary on, the next item is found within as many rounds as there are bytes ahead and
one more. -/
theorem outcome_nextIn {rounds : Nat} (hsource : source = String.ofList (before ++ cs))
    (hcurr : s.curr = (encode before).length) (hrounds : (encode cs).length < rounds) :
    ∃ item s' items, nextIn source rounds s = some (some item, s') ∧
      itemsFrom s.line (pieces cs) = item :: items ∧ Outcome source s cs item s' items := by
  induction rounds generalizing before cs s with
  | zero => exact absurd hrounds (Nat.not_lt_zero _)
  | succ rounds ih =>
    have hfaces := faces_append before cs
    rw [← hsource, ← hcurr] at hfaces
    have hsize := hfaces.size_eq
    rw [length_view] at hsize
    cases cs with
    | nil =>
      rw [encode_nil, List.length_nil, Nat.add_zero] at hsize
      have hlast : Outcome source s [] _ ⟨s.start, s.curr + 1, s.line⟩ [] :=
        .last .nil (by rw [hsize])
      refine ⟨_, _, [], ?_, rfl, hlast⟩
      rw [nextIn, if_neg (by omega), if_pos hsize.symm]
    | cons c rest =>
      obtain ⟨behind, hsplit⟩ := prefix_firstPiece c rest
      have hfits := fits_firstPiece hsplit
      have hstep := scanPiece_eq hsource hcurr
      have hpos := length_encode_pos hfits.text_ne_nil
      rw [pieces_cons hsplit, itemsFrom]
      rw [← hsplit] at hsource hrounds hsize ⊢
      generalize firstPiece c rest = p at *
      rw [encode_append, List.length_append] at hrounds hsize
      have hslice := slice?_append before p.text behind
      rw [← hsource, ← hcurr] at hslice
      rw [nextIn_succ (by omega) hstep hslice]
      have hline : ({ s with start := s.curr }.past p).line = s.line + p.newlines := rfl
      rw [← hline]
      cases hitem : p.item? ({ s with start := s.curr }.past p).line with
      | some item =>
        exact ⟨item, _, _, rfl, rfl, .item rfl .nil (hfits.covers hitem) rfl rfl⟩
      | none =>
        have hbefore : s.curr + (encode p.text).length = (encode (before ++ p.text)).length := by
          rw [encode_append, List.length_append, hcurr]
        rw [← List.append_assoc] at hsource
        obtain ⟨item, s', items, hfound, hitems, houtcome⟩ :=
          ih (s := { s with start := s.curr }.past p) hsource hbefore (by omega)
        exact ⟨item, s', items, hfound, hitems, houtcome.skip hfits hitem rfl⟩

/-! ## All items -/

/-- The cursors between the calls for items. Each call gives the item in its place, or none behind
the last one. The part that an item stands for starts where the characters skipped in front of it
end, and the next call goes on where this part ends. -/
structure Trail (source : String) (items : List Item) (cuts : List Cut) (trail : Nat → Cursor) :
    Prop where
  next : ∀ k, (trail k).next source = some (items[k]?, trail (k + 1))
  start : ∀ k cut, cuts[k]? = some cut →
    (trail (k + 1)).start = (trail k).curr + (encode cut.gap).length
  curr : ∀ k cut, cuts[k]? = some cut →
    (trail (k + 1)).curr = (trail (k + 1)).start + (encode cut.text).length

/-- A cursor put in front of a trail. -/
def leading (s : Cursor) (trail : Nat → Cursor) : Nat → Cursor
  | 0 => s
  | k + 1 => trail k

theorem next_of_lt (h : size source < s.curr) : s.next source = some (none, s) := by
  rw [Cursor.next, rounds, nextIn, if_pos h]

theorem trail_last (hnext : s.next source = some (some item, s'))
    (hcurr : s'.curr = size source + 1) : Trail source [item] [] (leading s fun _ => s') where
  next k := by
    cases k with
    | zero => exact hnext
    | succ k => exact next_of_lt (s := s') (by omega)
  start _ _ hcut := absurd hcut (by simp)
  curr _ _ hcut := absurd hcut (by simp)

theorem Trail.cons {items : List Item} {cut : Cut} {cuts : List Cut} {trail : Nat → Cursor}
    (h : Trail source items cuts trail) (hnext : s.next source = some (some item, trail 0))
    (hstart : (trail 0).start = s.curr + (encode cut.gap).length)
    (hcurr : (trail 0).curr = (trail 0).start + (encode cut.text).length) :
    Trail source (item :: items) (cut :: cuts) (leading s trail) where
  next k := by
    cases k with
    | zero => exact hnext
    | succ k => exact h.next k
  start k cut' hcut := by
    cases k with
    | zero =>
      obtain rfl := Option.some.inj hcut
      exact hstart
    | succ k => exact h.start k cut' hcut
  curr k cut' hcut := by
    cases k with
    | zero =>
      obtain rfl := Option.some.inj hcut
      exact hcurr
    | succ k => exact h.curr k cut' hcut

/-- A call for the next item has rounds enough to find it. -/
theorem outcome_next (hsource : source = String.ofList (before ++ cs))
    (hcurr : s.curr = (encode before).length) :
    ∃ item s' items, s.next source = some (some item, s') ∧
      itemsFrom s.line (pieces cs) = item :: items ∧ Outcome source s cs item s' items := by
  have hfaces := faces_append before cs
  rw [← hsource] at hfaces
  have hrounds : (encode cs).length < rounds source := by
    rw [rounds, hfaces.size_eq, length_view]
    omega
  exact outcome_nextIn hsource hcurr hrounds

/-- Behind the text of an item the cursor is at a boundary again. -/
theorem boundary_behind {gap text : List Char} (hsource : source = String.ofList (before ++ cs))
    (hcurr : s.curr = (encode before).length) (hcs : cs = gap ++ (text ++ behind))
    (hstart : s'.start = s.curr + (encode gap).length)
    (hend : s'.curr = s'.start + (encode text).length) :
    source = String.ofList ((before ++ (gap ++ text)) ++ behind) ∧
      s'.curr = (encode (before ++ (gap ++ text))).length := by
  constructor
  · rw [hsource, hcs, List.append_assoc, List.append_assoc]
  · rw [hend, hstart, hcurr, encode_append, encode_append, List.length_append, List.length_append,
      Nat.add_assoc]

/-- From a boundary on, the cursor finds the items of what is ahead, and they tile it. -/
theorem exists_tiling (hsource : source = String.ofList (before ++ cs))
    (hcurr : s.curr = (encode before).length) :
    ∃ cuts tail line trail, Tiling cs cuts tail ∧
      itemsFrom s.line (pieces cs) = cuts.map Cut.item ++ [.ok (Token.endMark line)] ∧
      trail 0 = s ∧ Trail source (itemsFrom s.line (pieces cs)) cuts trail := by
  induction hlength : cs.length using Nat.strongRecOn generalizing before cs s with
  | ind n ih =>
    obtain ⟨item, s', items, hnext, hitems, houtcome⟩ := outcome_next hsource hcurr
    rw [hitems]
    cases houtcome with
    | last hskipped hend =>
      exact ⟨[], cs, s'.line, leading s fun _ => s', hskipped.tiling, rfl, rfl,
        trail_last hnext hend⟩
    | @item gap text behind _ _ hcs hskipped hcovers hstart hend =>
      have hshorter : behind.length < n := by
        have hpos := List.length_pos_iff.2 hcovers.text_ne_nil
        rw [← hlength, hcs, List.length_append, List.length_append]
        omega
      obtain ⟨hbehind, hcurr'⟩ := boundary_behind hsource hcurr hcs hstart hend
      obtain ⟨cuts, tail, line, trail, htiling, hscan, rfl, htrail⟩ :=
        ih _ hshorter hbehind hcurr' rfl
      refine ⟨⟨gap, text, item⟩ :: cuts, tail, line, leading s trail, ?_, ?_, rfl,
        htrail.cons hnext hstart hend⟩
      · rw [hcs]
        exact htiling.cons hskipped hcovers
      · rw [hscan, List.map_cons, List.cons_append]

end Cursor

/-- Scanning loses nothing. The cursor goes from call to call without a failure, gives the items of
the source, and then none ever after. The last item is the only mark of the end. The other items
stand for parts of the source that lie one behind the other, and the rest of the source is skipped
characters between them and behind them. -/
theorem scan_lossless (source : String) :
    ∃ cuts tail line trail, Tiling source.toList cuts tail ∧
      scan source = cuts.map Cut.item ++ [.ok (Token.endMark line)] ∧
      (∀ t, .ok t ∈ cuts.map Cut.item → t.isEnd = false) ∧
      trail 0 = ⟨0, 0, 1⟩ ∧ Cursor.Trail source (scan source) cuts trail := by
  have hsource : source = String.ofList ([] ++ source.toList) := String.ofList_toList.symm
  obtain ⟨cuts, tail, line, trail, htiling, hscan, hstart, htrail⟩ :=
    Cursor.exists_tiling (s := ⟨0, 0, 1⟩) hsource rfl
  refine ⟨cuts, tail, line, trail, htiling, hscan, fun t ht => ?_, hstart, htrail⟩
  obtain ⟨cut, hcut, hitem⟩ := List.mem_map.1 ht
  obtain ⟨front, back, hcuts⟩ := List.append_of_mem hcut
  have hcovers := (htiling.cut front cut back hcuts).2
  rw [hitem] at hcovers
  exact hcovers.1

end Lox.Lexer

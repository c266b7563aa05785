import Lox.Proofs.Token.Lossless
import Mathlib.Data.List.TakeWhile

/-!
# The longest lexeme

What a lexeme is can be said without saying how it is found: a text of a table, a slash that is
not the first of two, digits with or without a fraction, a name, or a text between quotes. The
scanner takes the longest lexeme that stands where it is. If none stands there, it passes over a
blank or a comment, or there is neither and it reports a fault.
-/

namespace Lox.Lexer

variable {s : Symbol} {op : Operator} {kind : Token.Kind} {line : Nat}

/-! ## Lexemes -/

def IsDigit (c : Char) : Prop := '0' ≤ c ∧ c ≤ '9'

/-- What a name may start with. -/
def IsLetter (c : Char) : Prop := 'a' ≤ c ∧ c ≤ 'z' ∨ 'A' ≤ c ∧ c ≤ 'Z' ∨ c = '_'

/-- The symbols with a text of their own, apart from the slash and the keywords. -/
def symbolTexts : List (List Char × Symbol) :=
  [(['('], .leftParen), ([')'], .rightParen), (['\x7b'], .leftBrace), (['\x7d'], .rightBrace),
    ([','], .comma), (['.'], .dot), (['-'], .minus), (['+'], .plus), ([';'], .semicolon),
    (['*'], .star), ([':'], .colon), (['!'], .bang), (['!', '='], .bangEqual), (['='], .equal),
    (['=', '='], .equalEqual), (['<'], .less), (['<', '='], .lessEqual), (['>'], .greater),
    (['>', '='], .greaterEqual), (['?'], .question), (['?', '?'], .questionQuestion)]

/-- The lexemes and their kinds. A slash is one unless there is another slash `behind` it. -/
inductive Lexeme (behind : List Char) : List Char → Token.Kind → Prop
  | symbol {text : List Char} {s : Symbol} : (text, s) ∈ symbolTexts →
      Lexeme behind text (.symbol s)
  | slash : behind.head? ≠ some '/' → Lexeme behind ['/'] (.symbol .slash)
  | whole {digits : List Char} : digits ≠ [] → (∀ d ∈ digits, IsDigit d) →
      Lexeme behind digits (.number (numberValue digits))
  | decimal {digits places : List Char} : digits ≠ [] → (∀ d ∈ digits, IsDigit d) →
      places ≠ [] → (∀ d ∈ places, IsDigit d) →
        Lexeme behind (digits ++ '.' :: places) (.number (numberValue (digits ++ '.' :: places)))
  | keyword {text : List Char} {s : Symbol} : (String.ofList text, s) ∈ keywords →
      Lexeme behind text (.symbol s)
  | name {c : Char} {text : List Char} : IsLetter c → (∀ d ∈ text, IsLetter d ∨ IsDigit d) →
      (∀ s, (String.ofList (c :: text), s) ∉ keywords) →
        Lexeme behind (c :: text) (.symbol .identifier)
  | string {body : List Char} : '"' ∉ body →
      Lexeme behind ('"' :: (body ++ ['"'])) (.string (String.ofList body))

/-- A lexeme stands at the front of a source. -/
def LexemeAt (ahead text : List Char) (kind : Token.Kind) : Prop :=
  ∃ behind, ahead = text ++ behind ∧ Lexeme behind text kind

def BlankAt (ahead : List Char) : Prop := ∃ c ∈ [' ', '\r', '\t', '\n'], ahead.head? = some c

def CommentAt (ahead : List Char) : Prop := ['/', '/'] <+: ahead

/-! ## Characters -/

theorem isDigit_iff {c : Char} : IsDigit c ↔ c.isDigit = true := by
  simp [IsDigit, Char.isDigit, Char.le_def]

theorem isLetter_iff {c : Char} : IsLetter c ↔ startsName c = true := by
  have hupper : c.isUpper = decide ('A'.val ≤ c.val ∧ c.val ≤ 'Z'.val) := rfl
  have hlower : c.isLower = (decide ('a'.val ≤ c.val) && decide (c.val ≤ 'z'.val)) := rfl
  have halpha : c.isAlpha = (c.isUpper || c.isLower) := rfl
  simp [IsLetter, startsName, halpha, hupper, hlower, Char.le_def, or_assoc, or_comm]

theorem continuesName_iff {c : Char} : IsLetter c ∨ IsDigit c ↔ continuesName c = true := by
  rw [isLetter_iff, isDigit_iff]
  simp only [startsName, continuesName, Char.isAlphanum, Bool.or_eq_true, beq_iff_eq]
  exact or_right_comm

theorem isDigit_eq_false_of_isLetter {c : Char} (h : IsLetter c) : c.isDigit = false := by
  rw [← Bool.not_eq_true, ← isDigit_iff]
  simp only [IsLetter, IsDigit, Char.le_def, UInt32.le_iff_toNat_le] at h ⊢
  rcases h with h | h | rfl
  · have : 'a'.val.toNat = 97 ∧ '9'.val.toNat = 57 := ⟨rfl, rfl⟩
    omega
  · have : 'A'.val.toNat = 65 ∧ '9'.val.toNat = 57 := ⟨rfl, rfl⟩
    omega
  · decide

theorem punctuator?_word {c : Char} (h : punctuator? c = some s) : continuesName c = false := by
  unfold punctuator? at h
  split at h
  all_goals
    first
      | cases h
        decide
      | cases h

theorem operator?_word {c : Char} (h : operator? c = some op) :
    continuesName c = false ∧ punctuator? c = none := by
  unfold operator? at h
  split at h
  all_goals
    first
      | cases h
        decide
      | cases h

/-! ## The first piece by the first character -/

theorem firstPiece_punctuator {c : Char} (h : punctuator? c = some s) (rest : List Char) :
    firstPiece c rest = ⟨[c], .lexeme (.symbol s)⟩ := by
  simp only [firstPiece, h]

theorem firstPiece_operator {c : Char} (h : operator? c = some op) (rest : List Char) :
    firstPiece c rest = operatorPiece c op rest := by
  simp only [firstPiece, h, (operator?_word h).2]

/-- A digit or a letter starts a number or a name. -/
theorem firstPiece_word {c : Char} (h : continuesName c = true) (rest : List Char) :
    firstPiece c rest =
      if c.isDigit then
        ⟨numberText (c :: rest), .lexeme (.number (numberValue (numberText (c :: rest))))⟩
      else if startsName c then
        ⟨c :: rest.takeWhile continuesName,
          .lexeme (.symbol (symbolOfName (String.ofList (c :: rest.takeWhile continuesName))))⟩
      else ⟨[c], .stray c⟩ := by
  have hne : ∀ d : Char, continuesName d = false → c ≠ d := by
    rintro d hd rfl
    rw [h] at hd
    cases hd
  have hpunctuator : punctuator? c = none := by
    cases hs : punctuator? c with
    | none => rfl
    | some s => exact absurd rfl (hne c (punctuator?_word hs))
  have hoperator : operator? c = none := by
    cases hop : operator? c with
    | none => rfl
    | some op => exact absurd rfl (hne c (operator?_word hop).1)
  have hblank : isBlank c = false := by
    simp only [isBlank, Bool.or_eq_false_iff, beq_eq_false_iff_ne]
    exact ⟨⟨⟨hne ' ' rfl, hne '\r' rfl⟩, hne '\t' rfl⟩, hne '\n' rfl⟩
  simp only [firstPiece, hpunctuator, hoperator, hblank, if_neg (hne '/' rfl), if_neg (hne '"' rfl),
    Bool.false_eq_true, if_false]

theorem firstPiece_digit {c : Char} (h : IsDigit c) (rest : List Char) :
    firstPiece c rest =
      ⟨numberText (c :: rest), .lexeme (.number (numberValue (numberText (c :: rest))))⟩ := by
  rw [firstPiece_word (continuesName_iff.1 (.inr h)), if_pos (isDigit_iff.1 h)]

theorem firstPiece_letter {c : Char} (h : IsLetter c) (rest : List Char) :
    firstPiece c rest =
      ⟨c :: rest.takeWhile continuesName,
        .lexeme (.symbol (symbolOfName (String.ofList (c :: rest.takeWhile continuesName))))⟩ := by
  rw [firstPiece_word (continuesName_iff.1 (.inl h)), isDigit_eq_false_of_isLetter h,
    if_neg Bool.false_ne_true, if_pos (isLetter_iff.1 h)]

theorem firstPiece_blank {c : Char} (h : c ∈ [' ', '\r', '\t', '\n']) (rest : List Char) :
    firstPiece c rest = ⟨[c], .blank⟩ := by
  simp only [List.mem_cons, List.not_mem_nil, or_false] at h
  rcases h with rfl | rfl | rfl | rfl <;> rfl

/-! ## The first piece is the longest lexeme -/

/-- What stands in the table, by its first character. -/
theorem symbolTexts_cases : ∀ entry ∈ symbolTexts, ∃ c text, entry.1 = c :: text ∧
    (punctuator? c = some entry.2 ∧ text = [] ∨
      ∃ op, operator? c = some op ∧
        (text = [] ∧ entry.2 = op.short ∨ text = [op.second] ∧ entry.2 = op.long)) := by
  simp only [symbolTexts, List.forall_mem_cons, List.not_mem_nil, false_implies, implies_true,
    and_true]
  and_intros
  all_goals
    first
      | exact ⟨_, _, rfl, .inl ⟨rfl, rfl⟩⟩
      | exact ⟨_, _, rfl, .inr ⟨_, rfl, .inl ⟨rfl, rfl⟩⟩⟩
      | exact ⟨_, _, rfl, .inr ⟨_, rfl, .inr ⟨rfl, rfl⟩⟩⟩

theorem punctuator?_mem {c : Char} (h : punctuator? c = some s) : ([c], s) ∈ symbolTexts := by
  unfold punctuator? at h
  split at h
  all_goals
    first
      | cases h
        decide
      | cases h

theorem operator?_mem {c : Char} (h : operator? c = some op) :
    ([c], op.short) ∈ symbolTexts ∧ ([c, op.second], op.long) ∈ symbolTexts := by
  unfold operator? at h
  split at h
  all_goals
    first
      | cases h
        decide
      | cases h

theorem keywords_symbol : ∀ entry ∈ keywords,
    symbolOfName entry.1 = entry.2 ∧ entry.2 ≠ .identifier := by
  decide

/-- The keywords are names. -/
theorem keywords_name : ∀ entry ∈ keywords,
    ∃ c text, entry.1.toList = c :: text ∧ startsName c = true ∧
      ∀ d ∈ text, continuesName d = true := by
  intro entry hentry
  have hall : keywords.all (fun entry =>
      entry.1.toList.head?.any startsName && entry.1.toList.tail.all continuesName) = true := by
    decide
  have hname := List.all_eq_true.1 hall entry hentry
  cases htext : entry.1.toList with
  | nil => simp [htext] at hname
  | cons c text =>
    rw [htext] at hname
    simp only [List.head?_cons, Option.any_some, List.tail_cons, Bool.and_eq_true,
      List.all_eq_true] at hname
    exact ⟨c, text, rfl, hname⟩

/-- A lexeme, as the first piece of a source compares with it: it is no longer, and of the same
kind if it is as long. -/
structure Yields (piece : Piece) (text : List Char) (kind : Token.Kind) : Prop where
  cls : ∃ kind', piece.cls = .lexeme kind' ∧ (text = piece.text → kind = kind')
  length_le : text.length ≤ piece.text.length

theorem length_le_takeWhile {p : Char → Bool} {front behind : List Char}
    (h : ∀ d ∈ front, p d = true) : front.length ≤ ((front ++ behind).takeWhile p).length := by
  rw [List.takeWhile_append_of_pos h, List.length_append]
  exact Nat.le_add_right _ _

theorem length_le_numberText {digits behind : List Char} (h : ∀ d ∈ digits, IsDigit d) :
    digits.length ≤ (numberText (digits ++ behind)).length := by
  rw [numberText, List.length_append]
  exact Nat.le_add_right_of_le (length_le_takeWhile fun d hd => isDigit_iff.1 (h d hd))

theorem length_le_numberText_decimal {digits places behind : List Char}
    (h : ∀ d ∈ digits, IsDigit d) (hne : places ≠ []) (hplaces : ∀ d ∈ places, IsDigit d) :
    (digits ++ '.' :: places).length ≤
      (numberText ((digits ++ '.' :: places) ++ behind)).length := by
  have hdigits : ∀ d ∈ digits, d.isDigit = true := fun d hd => isDigit_iff.1 (h d hd)
  obtain ⟨d, places, rfl⟩ := List.exists_cons_of_ne_nil hne
  have hd := isDigit_iff.1 (hplaces d List.mem_cons_self)
  have htake : (d :: places).length ≤ ((d :: places ++ behind).takeWhile Char.isDigit).length :=
    length_le_takeWhile fun d hd => isDigit_iff.1 (hplaces d hd)
  have hfraction : ('.' :: d :: places).length ≤
      (fraction ('.' :: d :: (places ++ behind))).length := by
    rw [fraction, if_pos hd, List.length_cons, List.length_cons]
    exact Nat.succ_le_succ htake
  rw [numberText, List.append_assoc, List.takeWhile_append_of_pos hdigits,
    List.dropWhile_append_of_pos hdigits]
  simp only [List.length_append]
  exact Nat.add_le_add (Nat.le_add_right _ _) hfraction

theorem yields_word {c : Char} {rest text behind : List Char} (hc : IsLetter c)
    (h : c :: rest = c :: text ++ behind) (htext : ∀ d ∈ text, continuesName d = true)
    (hs : symbolOfName (String.ofList (c :: text)) = s) :
    Yields (firstPiece c rest) (c :: text) (.symbol s) := by
  obtain rfl : rest = text ++ behind := (List.cons.inj h).2
  rw [firstPiece_letter hc]
  refine ⟨⟨_, rfl, fun heq => ?_⟩, Nat.succ_le_succ (length_le_takeWhile htext)⟩
  rw [← hs, heq]

theorem yields_operator {c : Char} {rest text behind : List Char} (hop : operator? c = some op)
    (h : rest = text ++ behind)
    (htext : text = [] ∧ s = op.short ∨ text = [op.second] ∧ s = op.long) :
    Yields (firstPiece c rest) (c :: text) (.symbol s) := by
  rw [firstPiece_operator hop, operatorPiece]
  rcases htext with ⟨rfl, rfl⟩ | ⟨rfl, rfl⟩
  · split
    · refine ⟨⟨_, rfl, fun heq => ?_⟩, Nat.le_succ 1⟩
      cases heq
    · exact ⟨⟨_, rfl, fun _ => rfl⟩, Nat.le_refl _⟩
  · rw [if_pos (by rw [h]; rfl)]
    exact ⟨⟨_, rfl, fun _ => rfl⟩, Nat.le_refl _⟩

theorem yields_slash {rest : List Char} (h : rest.head? ≠ some '/') :
    Yields (firstPiece '/' rest) ['/'] (.symbol .slash) := by
  have hpiece : firstPiece '/' rest = slashPiece rest := rfl
  rw [hpiece, slashPiece, if_neg h]
  exact ⟨⟨_, rfl, fun _ => rfl⟩, Nat.le_refl _⟩

theorem yields_number {c : Char} {rest text : List Char} (hc : IsDigit c)
    (h : text.length ≤ (numberText (c :: rest)).length) :
    Yields (firstPiece c rest) text (.number (numberValue text)) := by
  rw [firstPiece_digit hc]
  refine ⟨⟨_, rfl, fun heq => ?_⟩, h⟩
  rw [heq]

theorem yields_string {rest body behind : List Char} (hbody : '"' ∉ body)
    (h : rest = body ++ '"' :: behind) :
    Yields (firstPiece '"' rest) ('"' :: (body ++ ['"'])) (.string (String.ofList body)) := by
  have htake : rest.takeWhile (· != '"') = body := by
    have hall : ∀ d ∈ body, (d != '"') = true := by
      intro d hd
      rw [bne_iff_ne]
      rintro rfl
      exact hbody hd
    rw [h, List.takeWhile_append_of_pos hall, List.takeWhile_cons_of_neg (by decide),
      List.append_nil]
  have hpiece : firstPiece '"' rest = stringPiece rest := rfl
  rw [hpiece, stringPiece, htake]
  have hlt : body.length < rest.length := by
    rw [h, List.length_append, List.length_cons]
    omega
  simp only [if_pos hlt]
  exact ⟨⟨_, rfl, fun _ => rfl⟩, Nat.le_refl _⟩

/-- Any lexeme at the front of a source is at most as long as its first piece. -/
theorem yields_firstPiece {c : Char} {rest text : List Char} (h : LexemeAt (c :: rest) text kind) :
    Yields (firstPiece c rest) text kind := by
  obtain ⟨behind, hahead, hlexeme⟩ := h
  cases hlexeme with
  | symbol hmem =>
    obtain ⟨d, text, rfl, ⟨hd, rfl⟩ | ⟨op, hop, htext⟩⟩ := symbolTexts_cases _ hmem
    · obtain ⟨rfl, -⟩ := List.cons.inj hahead
      rw [firstPiece_punctuator hd]
      exact ⟨⟨_, rfl, fun _ => rfl⟩, Nat.le_refl _⟩
    · obtain ⟨rfl, hrest⟩ := List.cons.inj hahead
      exact yields_operator hop hrest htext
  | slash hbehind =>
    obtain ⟨rfl, rfl⟩ := List.cons.inj hahead
    exact yields_slash hbehind
  | whole hne hdigits =>
    obtain ⟨d, digits, rfl⟩ := List.exists_cons_of_ne_nil hne
    obtain rfl : c = d := (List.cons.inj hahead).1
    refine yields_number (hdigits c List.mem_cons_self) ?_
    rw [hahead]
    exact length_le_numberText hdigits
  | decimal hne hdigits hne' hplaces =>
    obtain ⟨d, digits, rfl⟩ := List.exists_cons_of_ne_nil hne
    obtain rfl : c = d := (List.cons.inj hahead).1
    refine yields_number (hdigits c List.mem_cons_self) ?_
    rw [hahead]
    exact length_le_numberText_decimal hdigits hne' hplaces
  | keyword hmem =>
    obtain ⟨d, text, htext, hd, hcontinues⟩ := keywords_name _ hmem
    rw [String.toList_ofList] at htext
    subst htext
    obtain rfl : c = d := (List.cons.inj hahead).1
    exact yields_word (isLetter_iff.2 hd) hahead hcontinues (keywords_symbol _ hmem).1
  | @name d text hd htext hnot =>
    obtain rfl : c = d := (List.cons.inj hahead).1
    refine yields_word hd hahead (fun e he => continuesName_iff.1 (htext e he)) ?_
    by_contra hs
    exact hnot _ (mem_keywords_of_symbolOfName rfl hs)
  | string hbody =>
    rw [List.cons_append, List.append_assoc] at hahead
    obtain ⟨rfl, hrest⟩ := List.cons.inj hahead
    exact yields_string hbody hrest

/-! ## The first piece is a lexeme -/

theorem lexeme_numberText {c : Char} {rest behind : List Char} (hc : c.isDigit = true) :
    Lexeme behind (numberText (c :: rest)) (.number (numberValue (numberText (c :: rest)))) := by
  have hwhole : ∀ d ∈ (c :: rest).takeWhile Char.isDigit, IsDigit d := fun d hd =>
    isDigit_iff.2 (List.mem_takeWhile_imp hd)
  have hne : (c :: rest).takeWhile Char.isDigit ≠ [] := by
    rw [List.takeWhile_cons_of_pos hc]
    exact List.cons_ne_nil _ _
  rw [numberText]
  generalize (c :: rest).takeWhile Char.isDigit = digits at hwhole hne
  unfold fraction
  split
  · split
    · rename_i d _ _ hd
      refine .decimal hne hwhole ?_ fun e he => isDigit_iff.2 (List.mem_takeWhile_imp he)
      rw [List.takeWhile_cons_of_pos hd]
      exact List.cons_ne_nil _ _
    · rw [List.append_nil]
      exact .whole hne hwhole
  · rw [List.append_nil]
    exact .whole hne hwhole

theorem lexeme_word {c : Char} {text behind : List Char} (hc : startsName c = true)
    (htext : ∀ d ∈ text, continuesName d = true) :
    Lexeme behind (c :: text) (.symbol (symbolOfName (String.ofList (c :: text)))) := by
  by_cases hs : symbolOfName (String.ofList (c :: text)) = .identifier
  · rw [hs]
    refine .name (isLetter_iff.2 hc) (fun d hd => continuesName_iff.2 (htext d hd)) fun s hmem => ?_
    obtain ⟨hs', hne⟩ := keywords_symbol _ hmem
    exact hne (hs'.symm.trans hs)
  · exact .keyword (mem_keywords_of_symbolOfName rfl hs)

theorem lexeme_operatorPiece {c : Char} {rest behind : List Char} (hop : operator? c = some op)
    (hkind : (operatorPiece c op rest).cls = .lexeme kind) :
    Lexeme behind (operatorPiece c op rest).text kind := by
  unfold operatorPiece at hkind ⊢
  split at hkind
  · rename_i hhead
    obtain rfl := Piece.Class.lexeme.inj hkind
    rw [if_pos hhead]
    exact .symbol (operator?_mem hop).2
  · rename_i hhead
    obtain rfl := Piece.Class.lexeme.inj hkind
    rw [if_neg hhead]
    exact .symbol (operator?_mem hop).1

theorem lexeme_slashPiece {rest behind : List Char}
    (h : (slashPiece rest).text ++ behind = '/' :: rest)
    (hkind : (slashPiece rest).cls = .lexeme kind) : Lexeme behind (slashPiece rest).text kind := by
  unfold slashPiece at h hkind ⊢
  split at hkind
  · cases hkind
  · rename_i hhead
    obtain rfl := Piece.Class.lexeme.inj hkind
    simp only [if_neg hhead] at h ⊢
    obtain rfl : behind = rest := (List.cons.inj h).2
    exact .slash hhead

theorem lexeme_stringPiece {rest behind : List Char} (hkind : (stringPiece rest).cls = .lexeme kind) :
    Lexeme behind (stringPiece rest).text kind := by
  simp only [stringPiece] at hkind ⊢
  split at hkind
  · rename_i hlt
    obtain rfl := Piece.Class.lexeme.inj hkind
    rw [if_pos hlt]
    exact .string (not_mem_takeWhile rfl rest)
  · cases hkind

/-- A first piece that is taken for a lexeme is one. -/
theorem lexeme_firstPiece {c : Char} {rest behind : List Char}
    (h : (firstPiece c rest).text ++ behind = c :: rest)
    (hkind : (firstPiece c rest).cls = .lexeme kind) :
    Lexeme behind (firstPiece c rest).text kind := by
  cases hsymbol : punctuator? c with
  | some s =>
    rw [firstPiece_punctuator hsymbol] at hkind ⊢
    obtain rfl := Piece.Class.lexeme.inj hkind
    exact .symbol (punctuator?_mem hsymbol)
  | none =>
    cases hop : operator? c with
    | some op =>
      rw [firstPiece_operator hop] at hkind ⊢
      exact lexeme_operatorPiece hop hkind
    | none =>
      simp only [firstPiece, hsymbol, hop] at h hkind ⊢
      split at hkind
      · cases hkind
      rename_i hblank
      simp only [if_neg hblank] at h ⊢
      split at hkind
      · rename_i hslash
        subst hslash
        exact lexeme_slashPiece h hkind
      rename_i hslash
      simp only [if_neg hslash]
      split at hkind
      · rename_i hquote
        subst hquote
        exact lexeme_stringPiece hkind
      rename_i hquote
      simp only [if_neg hquote]
      split at hkind
      · rename_i hdigit
        obtain rfl := Piece.Class.lexeme.inj hkind
        rw [if_pos hdigit]
        exact lexeme_numberText hdigit
      rename_i hdigit
      simp only [if_neg hdigit]
      split at hkind
      · rename_i hname
        obtain rfl := Piece.Class.lexeme.inj hkind
        rw [if_pos hname]
        exact lexeme_word hname fun d hd => List.mem_takeWhile_imp hd
      · cases hkind

/-! ## Steps of the scanner -/

/-- A part of the source, and the item for it unless it is passed over. -/
structure Step where
  text : List Char
  item : Option Item

/-- What the item for a part of the source has to be, with `behind` behind that part. A token is for
the longest lexeme there, and of the only kind which that lexeme has. There is a fault if there is
no lexeme, no blank and no comment. Nothing else than blanks and comments is passed over. -/
structure Step.Munches (step : Step) (behind : List Char) : Prop where
  token : ∀ t, step.item = some (.ok t) →
    t.lexeme = String.ofList step.text ∧
      (∀ kind, Lexeme behind step.text kind ↔ kind = t.kind) ∧
      (∀ text kind, LexemeAt (step.text ++ behind) text kind → text.length ≤ step.text.length) ∧
      ∀ s ∈ keywords.map Prod.snd, t.kind = .symbol s ↔ (t.lexeme, s) ∈ keywords
  fault : (∃ d, step.item = some (.error d)) ↔
    (∀ text kind, ¬ LexemeAt (step.text ++ behind) text kind) ∧
      ¬ BlankAt (step.text ++ behind) ∧ ¬ CommentAt (step.text ++ behind)
  covers : ∀ item ∈ step.item, item.Covers step.text behind
  passed : step.item = none ↔ BlankAt (step.text ++ behind) ∨ CommentAt (step.text ++ behind)
  skipped : step.item = none → Skipped behind step.text

/-- Only the text of a keyword has its kind. -/
theorem Lexeme.mem_keywords {behind text : List Char} (h : Lexeme behind text (.symbol s))
    (hs : s ∈ keywords.map Prod.snd) : (String.ofList text, s) ∈ keywords := by
  have hsymbols : ∀ entry ∈ symbolTexts, entry.2 ∉ keywords.map Prod.snd := by decide
  cases h with
  | symbol hmem => exact absurd hs (hsymbols _ hmem)
  | slash => exact absurd hs (by decide)
  | keyword hmem => exact hmem
  | name => exact absurd hs (by decide)

theorem item?_eq_ok {p : Piece} {t : Token} (h : p.item? line = some (.ok t)) :
    p.cls = .lexeme t.kind ∧ t.lexeme = String.ofList p.text := by
  unfold Piece.item? at h
  split at h
  case h_3 kind hkind =>
    obtain rfl := Except.ok.inj (Option.some.inj h)
    exact ⟨hkind, rfl⟩
  all_goals cases h

theorem cls_of_blankAt {c : Char} {rest : List Char} (h : BlankAt (c :: rest)) :
    (firstPiece c rest).cls = .blank := by
  obtain ⟨b, hb, hhead⟩ := h
  obtain rfl := Option.some.inj hhead
  rw [firstPiece_blank hb]

theorem cls_of_commentAt {c : Char} {rest : List Char} (h : CommentAt (c :: rest)) :
    (firstPiece c rest).cls = .comment := by
  obtain ⟨hc, hrest⟩ := List.cons_prefix_cons.1 h
  subst hc
  have hhead : rest.head? = some '/' := by
    obtain ⟨back, rfl⟩ := hrest
    rfl
  have hpiece : firstPiece '/' rest = slashPiece rest := rfl
  rw [hpiece, slashPiece, if_pos hhead]

section FirstPiece

variable {c : Char} {rest behind : List Char} (h : (firstPiece c rest).text ++ behind = c :: rest)
include h

/-- The first piece is the longest lexeme here, of one kind only. -/
theorem munches_token {t : Token} (hitem : (firstPiece c rest).item? line = some (.ok t)) :
    t.lexeme = String.ofList (firstPiece c rest).text ∧
      (∀ kind, Lexeme behind (firstPiece c rest).text kind ↔ kind = t.kind) ∧
      (∀ text kind, LexemeAt (c :: rest) text kind →
        text.length ≤ (firstPiece c rest).text.length) ∧
      ∀ s ∈ keywords.map Prod.snd, t.kind = .symbol s ↔ (t.lexeme, s) ∈ keywords := by
  obtain ⟨hcls, hlexeme⟩ := item?_eq_ok hitem
  have hkind : ∀ kind, Lexeme behind (firstPiece c rest).text kind ↔ kind = t.kind := by
    intro kind
    constructor
    · intro hkind
      obtain ⟨kind', hcls', heq⟩ := (yields_firstPiece ⟨behind, h.symm, hkind⟩).cls
      obtain rfl := Piece.Class.lexeme.inj (hcls.symm.trans hcls')
      exact heq rfl
    · rintro rfl
      exact lexeme_firstPiece h hcls
  refine ⟨hlexeme, hkind, fun text kind hat => (yields_firstPiece hat).length_le, fun s hs => ?_⟩
  rw [hlexeme]
  constructor
  · intro heq
    exact ((hkind _).2 heq.symm).mem_keywords hs
  · intro hmem
    exact ((hkind _).1 (.keyword hmem)).symm

/-- What stands at the front of a source, by the class of its first piece. -/
theorem firstPiece_cases :
    (∃ kind, (firstPiece c rest).cls = .lexeme kind ∧
        LexemeAt (c :: rest) (firstPiece c rest).text kind) ∨
      ((firstPiece c rest).cls = .blank ∧ BlankAt (c :: rest)) ∨
      ((firstPiece c rest).cls = .comment ∧ CommentAt (c :: rest)) ∨
      ∀ line, ∃ d, (firstPiece c rest).item? line = some (.error d) := by
  have hfits := fits_firstPiece h
  have hkind : ∀ kind, (firstPiece c rest).cls = .lexeme kind →
      Lexeme behind (firstPiece c rest).text kind := fun _ => lexeme_firstPiece h
  rw [← h]
  generalize firstPiece c rest = p at *
  cases hfits with
  | @blank b hb =>
    refine .inr (.inl ⟨rfl, b, ?_, rfl⟩)
    simpa [isBlank, or_assoc] using hb
  | @comment body => exact .inr (.inr (.inl ⟨rfl, body ++ behind, rfl⟩))
  | lexeme => exact .inl ⟨_, rfl, behind, rfl, hkind _ rfl⟩
  | stray | unclosedString => exact .inr (.inr (.inr fun _ => ⟨_, rfl⟩))

/-- A fault is reported if and only if no lexeme, blank or comment starts here. -/
theorem munches_fault : (∃ d, (firstPiece c rest).item? line = some (.error d)) ↔
      (∀ text kind, ¬ LexemeAt (c :: rest) text kind) ∧ ¬ BlankAt (c :: rest) ∧
        ¬ CommentAt (c :: rest) := by
  constructor
  · rintro ⟨d, hd⟩
    refine ⟨fun text kind hat => ?_, fun hblank => ?_, fun hcomment => ?_⟩
    · obtain ⟨kind', hcls, -⟩ := (yields_firstPiece hat).cls
      simp only [Piece.item?, hcls] at hd
      cases hd
    · simp only [Piece.item?, cls_of_blankAt hblank] at hd
      cases hd
    · simp only [Piece.item?, cls_of_commentAt hcomment] at hd
      cases hd
  · rintro ⟨hlexeme, hblank, hcomment⟩
    rcases firstPiece_cases h with ⟨kind, -, hat⟩ | ⟨-, hat⟩ | ⟨-, hat⟩ | herror
    · exact absurd hat (hlexeme _ _)
    · exact absurd hat hblank
    · exact absurd hat hcomment
    · exact herror line

theorem munches_passed :
    (firstPiece c rest).item? line = none ↔ BlankAt (c :: rest) ∨ CommentAt (c :: rest) := by
  constructor
  · intro hnone
    rcases firstPiece_cases h with ⟨kind, hcls, -⟩ | ⟨-, hat⟩ | ⟨-, hat⟩ | herror
    · simp only [Piece.item?, hcls] at hnone
      cases hnone
    · exact .inl hat
    · exact .inr hat
    · obtain ⟨d, hd⟩ := herror line
      rw [hnone] at hd
      cases hd
  · rintro (hat | hat)
    · simp only [Piece.item?, cls_of_blankAt hat]
    · simp only [Piece.item?, cls_of_commentAt hat]

theorem munches_firstPiece (line : Nat) :
    Step.Munches ⟨(firstPiece c rest).text, (firstPiece c rest).item? line⟩ behind := by
  have hfits := fits_firstPiece h
  refine ⟨?_, ?_, fun item hitem => hfits.covers hitem, ?_, fun hnone => ?_⟩
  · simp only [h]
    exact fun t ht => munches_token h ht
  · simp only [h]
    exact munches_fault h
  · simp only [h]
    exact munches_passed h
  · have hfits' : (firstPiece c rest).Fits ([] ++ behind) := hfits
    exact List.append_nil (firstPiece c rest).text ▸ hfits'.skipped hnone .nil

end FirstPiece

/-- The scanner goes through a source in steps, each of which takes what it has to. -/
theorem exists_steps (cs : List Char) (line : Nat) :
    ∃ steps last, cs = steps.flatMap Step.text ∧
      itemsFrom line (pieces cs) = steps.filterMap Step.item ++ [.ok (Token.endMark last)] ∧
      ∀ front step back, steps = front ++ step :: back →
        step.Munches (back.flatMap Step.text) := by
  induction hlength : cs.length using Nat.strongRecOn generalizing cs line with
  | ind n ih =>
    cases cs with
    | nil => exact ⟨[], line, rfl, rfl, fun front step back heq => absurd heq (by simp)⟩
    | cons c rest =>
      obtain ⟨behind, hsplit⟩ := prefix_firstPiece c rest
      have hmunches := munches_firstPiece hsplit
      have hne := (fits_firstPiece hsplit).text_ne_nil
      rw [pieces_cons hsplit, itemsFrom]
      rw [← hsplit] at hlength ⊢
      generalize firstPiece c rest = p at *
      have hshorter : behind.length < n := by
        have hpos := List.length_pos_iff.2 hne
        rw [← hlength, List.length_append]
        omega
      obtain ⟨steps, last, hbehind, hitems, hothers⟩ :=
        ih _ hshorter behind (line + p.newlines) rfl
      refine ⟨⟨p.text, p.item? (line + p.newlines)⟩ :: steps, last, ?_, ?_, ?_⟩
      · rw [List.flatMap_cons, ← hbehind]
      · rw [hitems, List.filterMap_cons]
        cases p.item? (line + p.newlines) <;> rfl
      · intro front step back heq
        cases front with
        | nil =>
          obtain ⟨rfl, rfl⟩ := List.cons.inj heq
          rw [← hbehind]
          exact hmunches _
        | cons _ front => exact hothers front step back (List.cons.inj heq).2

/-- The items of a source are for parts of it that lie one behind the other, and behind them is the
mark of the end. A token is for the longest lexeme where its part starts, and its kind is that of
the lexeme. A fault is reported wherever a part starts with no lexeme, no blank and no comment. -/
theorem scan_munches (source : String) :
    ∃ steps last, source.toList = steps.flatMap Step.text ∧
      scan source = steps.filterMap Step.item ++ [.ok (Token.endMark last)] ∧
      ∀ front step back, steps = front ++ step :: back → step.Munches (back.flatMap Step.text) :=
  exists_steps source.toList 1

end Lox.Lexer

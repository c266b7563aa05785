import Lox.Proofs.Session.Trails
import Lox.Proofs.Token.Lines

/-!
# Where diagnostics point

Every diagnostic of a run points into the source that is run or, if it is about a running program,
into a source that was run before. Faults of the text name a line of the source. Faults of the
grammar and of the names are at tokens of the source: the mark of the end that a parser assumes
behind the tokens is not needed, since there is one. A running program fails on the line of a token
of the program that the failing code was read from.

That a program fails only on such lines is seen by moving all other lines. This changes neither the
tokens of the sources nor what is read from them. So a session that has run them is like itself with
the other lines moved, and a fault on one of these would be moved too.
-/

namespace Lox

/-! ## Lines of items -/

namespace Lexer

/-- An item is on a line between the first one and that of the mark of the end. -/
theorem line?_of_mem_itemsFrom (ps : List Piece) (line : Nat) :
    ∃ last, (itemsFrom line ps).getLast? = some (.ok (Token.endMark last)) ∧ line ≤ last ∧
      ∀ item ∈ itemsFrom line ps, ∀ n ∈ Item.line? item, line ≤ n ∧ n ≤ last := by
  induction ps generalizing line with
  | nil =>
    refine ⟨line, rfl, Nat.le_refl _, List.forall_mem_singleton.2 ?_⟩
    rintro n ⟨⟩
    exact ⟨Nat.le_refl _, Nat.le_refl _⟩
  | cons p ps ih =>
    obtain ⟨last, hlast, hle, hitems⟩ := ih (line + p.newlines)
    refine ⟨last, ?_, by omega, List.forall_mem_append.2 ⟨fun item hitem n hn => ?_,
      fun item hitem n hn => ?_⟩⟩
    · rw [itemsFrom, List.getLast?_append, hlast, Option.some_or]
    · have hline : n = line + p.newlines := by
        rw [Option.mem_toList, Piece.item?] at hitem
        split at hitem
        all_goals cases hitem
        all_goals
          cases hn
          rfl
      omega
    · have := hitems item hitem n hn
      omega

/-- The lines of the items of a source. -/
theorem line?_of_mem_scan {source : String} {item : Item} (h : item ∈ scan source) {n : Nat}
    (hn : n ∈ Item.line? item) : 1 ≤ n ∧ n ≤ lineAfter source.toList := by
  obtain ⟨last, hlast, -, hitems⟩ := line?_of_mem_itemsFrom (pieces source.toList) 1
  rw [getLast?_itemsFrom] at hlast
  cases hlast
  exact hitems item h n hn

theorem one_le_line {source : String} {t : Token} (ht : t ∈ tokens source) : 1 ≤ t.line := by
  obtain ⟨item, hitem, hok⟩ := List.mem_filterMap.1 ht
  cases item with
  | error d => cases hok
  | ok u =>
    cases hok
    exact (line?_of_mem_scan hitem rfl).1

/-- The tokens of a source end with a mark of the end. -/
theorem endMark_mem_tokens (source : String) :
    Token.endMark (lineAfter source.toList) ∈ tokens source :=
  List.mem_filterMap.2 ⟨_, List.mem_of_getLast? (getLast?_itemsFrom 1 source.toList), rfl⟩

end Lexer

/-! ## Lines that are moved -/

/-- All lines but those in a list are moved to one line. -/
def Relabeling.onto (lines : List Nat) (line : Nat) : Relabeling :=
  ⟨fun n => if n ∈ lines then n else line, 0⟩

/-- Nothing changes in what is read from tokens on the lines that stay. -/
theorem parse_onto {lines : List Nat} (line : Nat) {source : String}
    (h : ∀ t ∈ Lexer.tokens source, t.line ∈ lines) (i : NodeId) :
    Stmts.relabel (.onto lines line) (parse i (Lexer.tokens source)).statements =
        (parse i (Lexer.tokens source)).statements ∧
      (parse i (Lexer.tokens source)).faults.map (Parser.Diagnostic.relabel (.onto lines line)) =
        (parse i (Lexer.tokens source)).faults := by
  have hend := Lexer.endMark_mem_tokens source
  have hparse := parse_relabel (r := .onto lines line) (.inr ⟨_, hend, rfl⟩) i
  have hsame : (Lexer.tokens source).map (Token.relabel (.onto lines line)) =
      Lexer.tokens source := by
    refine (List.map_congr_left fun t ht => ?_).trans (List.map_id _)
    simp only [Token.relabel, Relabeling.onto, if_pos (h t ht), id]
  rw [hsame] at hparse
  exact ⟨(congrArg Parsed.statements hparse).symm, (congrArg Parsed.faults hparse).symm⟩

/-- What is reported of the tokens of a source is at tokens of the source. -/
theorem syntactic_parse {source : String} {i : NodeId} {d : Diagnostic}
    (h : d ∈ (parse i (Lexer.tokens source)).faults) :
    ∃ t fault, t ∈ Lexer.tokens source ∧ d = .syntactic t.site fault := by
  obtain ⟨t, fault, ht | rfl, rfl⟩ :=
    (isBody_parse (K := (· ∈ Lexer.tokens source)) (fun _ ht => ht) i).2 d h
  · exact ⟨t, fault, ht, rfl⟩
  · -- the mark that is assumed would be moved from line zero, where no token is
    have hzero : 0 ∉ (Lexer.tokens source).map Token.line := by
      intro hmem
      obtain ⟨t, ht, hline⟩ := List.mem_map.1 hmem
      have := Lexer.one_le_line ht
      omega
    have hmem : ∀ t ∈ Lexer.tokens source, t.line ∈ (Lexer.tokens source).map Token.line :=
      fun _ => List.mem_map_of_mem
    have hmoved := (parse_onto 1 hmem i).2
    have hfixed := List.map_inj_left.1 (hmoved.trans (List.map_id _).symm) _ h
    have hline : (if 0 ∈ (Lexer.tokens source).map Token.line then 0 else 1) = 0 :=
      congrArg Site.line (Diagnostic.syntactic.inj hfixed).1
    rw [if_neg hzero] at hline
    cases hline

/-! ## Faults of running programs -/

namespace Session

/-- Lines correspond to those in a list only, and any line looks like any other. -/
def Sight.onto (lines : List Nat) : Sight :=
  ⟨fun _ n => n ∈ lines, Diagnostic.erase, fun _ _ _ _ => rfl⟩

/-- What is read from a source stays on its lines where the others are moved. -/
theorem Sight.fits_onto {lines : List Nat} {source : String}
    (h : ∀ t ∈ Lexer.tokens source, t.line ∈ lines) (i : NodeId) :
    (Sight.onto lines).Fits 0 (Session.read i source).statements := by
  have hlast := h _ (Lexer.endMark_mem_tokens source)
  refine ⟨(Relabeling.onto lines (Lexer.lineAfter source.toList)).line, fun n => ?_, ?_⟩
  · change (if n ∈ lines then n else Lexer.lineAfter source.toList) ∈ lines
    split
    · assumption
    · exact hlast
  · rw [Stmts.relabel_zero]
    exact (parse_onto _ h i).1

variable {lines : List Nat} {s : Session} {ps : List (List Stmt)} {τ : List Event}

/-- No function is there at first, so lines do not matter. -/
theorem trails_initial (sink : Sink) (clock : Clock) :
    Trails (.onto lines) 0 0 (initial sink clock) (initial sink clock) where
  machine := by
    refine ⟨.none, ?_, Nat.zero_lt_one, rfl, List.forall_mem_singleton.2 Nat.zero_lt_one, rfl, rfl,
      rfl, fun i j d h => absurd h.1 (Nat.not_lt_zero i)⟩
    refine ⟨rfl, fun i x _ => by rw [Marks.none, NameChange.name_false], rfl, rfl, fun f => ?_, rfl,
      fun c => ⟨rfl, rfl, rfl, fun x => .none⟩, rfl⟩
    exact ⟨rfl, List.forall_mem_nil _, rfl, [], Marks.fit_none _,
      FunctionDecl.alike_of_body_nil rfl⟩
  log := rfl
  fresh := rfl
  le := Nat.le_refl 0

/-- The source that is run in a step. -/
def Step.source? : Step → Option String
  | run _ source => some source
  | parse _ | reset | takeDiagnostics => none

/-- A session that runs only sources on the lines that stay is like itself with the others moved. -/
theorem Trails.after_self (h : Trails (.onto lines) 0 0 s s) (hs : s.Sound ps τ) {steps : List Step}
    (hsteps : ∀ source ∈ steps.filterMap Step.source?, ∀ t ∈ Lexer.tokens source, t.line ∈ lines) :
    Trails (.onto lines) 0 0 (s.after steps) (s.after steps) := by
  induction steps generalizing s ps τ with
  | nil => exact h
  | cons step steps ih =>
    refine ih (h.step hs hs step fun program hprogram => ?_).2 (hs.step step) fun source hsource =>
      hsteps source (List.mem_filterMap.2 ?_)
    · cases step with
      | run fuel source =>
        simp only [Step.program?, Option.ite_none_right_eq_some, Option.some.injEq] at hprogram
        obtain ⟨-, rfl⟩ := hprogram
        exact Sight.fits_onto (hsteps source (by simp [Step.source?])) _
      | parse | reset | takeDiagnostics => cases hprogram
    · obtain ⟨step, hstep, hrun⟩ := List.mem_filterMap.1 hsource
      exact ⟨step, List.mem_cons_of_mem _ hstep, hrun⟩

/-- A program that stops with a fault does so on one of the lines that stay. -/
theorem Trails.line_mem (h : Trails (.onto lines) 0 0 s s) (hs : s.Sound ps τ) {source : String}
    (hr : s.Runs source) (hsource : ∀ t ∈ Lexer.tokens source, t.line ∈ lines) {fuel line : Nat}
    {fault : RuntimeFault} {m : Machine}
    (hrun : interpret fuel (read s.fresh source).statements (s.prepared source) =
      .error (.fault line fault) m) : line ∈ lines := by
  obtain ⟨⟨⟨marks, hmachine⟩, -⟩, hprogram⟩ :=
    h.prepare hs hs hr (Sight.fits_onto hsource s.fresh)
  rw [Stmts.relabel_zero] at hprogram
  obtain ⟨_, _, _, -, ⟨hok, -⟩ | ⟨_, _, hhalt, hhalted, hhalted'⟩⟩ :=
    (hs.prepare hr.2 s.log).interpret_alike hr.2.statements.2 hmachine hprogram fuel
  · rw [hrun] at hok
    cases hok
  · cases hrun.symm.trans hhalted
    cases hrun.symm.trans hhalted'
    cases hhalt with
    | fault hline => exact hline

end Session

/-! ## Diagnostics -/

namespace Diagnostic

/-- The line that a diagnostic names. -/
def line? : Diagnostic → Option Nat
  | lexical line _ | runtime line _ => some line
  | syntactic site _ | scoping site _ => some site.line
  | output _ => none

/-- A diagnostic points into the source that is run, or into one that was run earlier: a fault of
the text names one of its lines, a fault of the grammar or of the names is at one of its tokens, and
a fault of a running program is on the line of a token. -/
def PointsInto (source : String) (earlier : List String) : Diagnostic → Prop
  | lexical line _ => 1 ≤ line ∧ line ≤ 1 + source.toList.count '\n'
  | syntactic site _ | scoping site _ => ∃ t ∈ Lexer.tokens source, site.line = t.line ∧
      landmarkText site.landmark = if t.isEnd then " at end" else " at '" ++ t.lexeme ++ "'"
  | runtime line _ => ∃ text ∈ source :: earlier, ∃ t ∈ Lexer.tokens text, line = t.line
  | output _ => True

variable {source : String} {earlier : List String}

theorem landmarkText_site (t : Token) :
    landmarkText t.site.landmark = if t.isEnd then " at end" else " at '" ++ t.lexeme ++ "'" := by
  rw [Token.site]
  split <;> rfl

theorem PointsInto.line?_ne_zero {d : Diagnostic} (h : d.PointsInto source earlier) :
    d.line? ≠ some 0 := by
  have hline : ∀ {text : String} {t : Token}, t ∈ Lexer.tokens text → some t.line ≠ some 0 := by
    intro text t ht heq
    exact absurd (Lexer.one_le_line ht) (by simp [Option.some.inj heq])
  cases d with
  | lexical line fault => exact fun heq => absurd h.1 (by simp [Option.some.inj heq])
  | syntactic site fault | scoping site fault =>
    obtain ⟨t, ht, hsite, -⟩ := h
    rw [line?, hsite]
    exact hline ht
  | runtime line fault =>
    obtain ⟨text, -, t, ht, rfl⟩ := h
    exact hline ht
  | output fault => nofun

end Diagnostic

namespace Session

/-- What is wrong with a text is said of a place in it. -/
theorem pointsInto_complaints {s : Session} {source : String} {earlier : List String}
    {d : Diagnostic} (h : d ∈ s.complaints source) : d.PointsInto source earlier := by
  unfold complaints at h
  split at h
  · obtain ⟨t, fault, ht, rfl⟩ := scoping_resolve h
    exact ⟨t, ht, rfl, Diagnostic.landmarkText_site t⟩
  · rcases List.mem_append.1 h with h | h
    · obtain ⟨item, hitem, hd⟩ := List.mem_filterMap.1 h
      cases item with
      | ok t => cases hd
      | error d' =>
        obtain rfl := Option.some.inj hd
        have hphase := Lexer.phase_faults h
        cases d' with
        | lexical line fault => exact Lexer.line?_of_mem_scan hitem rfl
        | _ => cases hphase
    · obtain ⟨t, fault, ht, rfl⟩ := syntactic_parse h
      exact ⟨t, ht, rfl, Diagnostic.landmarkText_site t⟩

/-- Whatever was done with a session before, the diagnostics that a run adds point into the source
that is run, or into one that was run earlier if they are about a running program. None of them is
about a line zero, where a mark of the end is assumed that no source has. -/
theorem run_points_into_sources (sink : Sink) (clock : Clock) (steps : List Step) (fuel : Nat)
    (source : String) :
    let s := (initial sink clock).after steps
    ∃ ds, (s.run fuel source).2.log.diagnostics = s.log.diagnostics ++ ds ∧
      ∀ d ∈ ds, d.PointsInto source (steps.filterMap Step.source?) ∧ d.line? ≠ some 0 := by
  intro s
  have hpoints : ∃ ds, (s.run fuel source).2.log.diagnostics = s.log.diagnostics ++ ds ∧
      ∀ d ∈ ds, d.PointsInto source (steps.filterMap Step.source?) := by
    by_cases hr : s.Runs source
    · let lines := (source :: steps.filterMap Step.source?).flatMap fun text =>
        (Lexer.tokens text).map Token.line
      have hlines : ∀ text ∈ source :: steps.filterMap Step.source?, ∀ t ∈ Lexer.tokens text,
          t.line ∈ lines := fun text htext t ht =>
        List.mem_flatMap.2 ⟨text, htext, List.mem_map_of_mem ht⟩
      have htrails : Trails (.onto lines) 0 0 s s := (trails_initial sink clock).after_self
        (sound_initial sink clock) fun text htext => hlines text (List.mem_cons_of_mem _ htext)
      rw [run_of_clean hr.1 hr.2, execute]
      cases hrun : interpret fuel (read s.fresh source).statements (s.prepared source) with
      | ok a m => exact ⟨[], (List.append_nil _).symm, List.forall_mem_nil _⟩
      | error halt m =>
        cases halt with
        | outOfFuel => exact ⟨[], (List.append_nil _).symm, List.forall_mem_nil _⟩
        | output fault => exact ⟨_, rfl, List.forall_mem_singleton.2 trivial⟩
        | fault line fault =>
          have hline := htrails.line_mem (sound_after sink clock steps) hr
            (hlines source List.mem_cons_self) hrun
          obtain ⟨text, htext, hmem⟩ := List.mem_flatMap.1 hline
          obtain ⟨t, ht, rfl⟩ := List.mem_map.1 hmem
          exact ⟨_, rfl, List.forall_mem_singleton.2 ⟨text, htext, t, ht, rfl⟩⟩
    · rw [run_of_not_clean fuel hr]
      exact ⟨_, rfl, fun d => pointsInto_complaints⟩
  obtain ⟨ds, hds, hpoints⟩ := hpoints
  exact ⟨ds, hds, fun d hd => ⟨hpoints d hd, (hpoints d hd).line?_ne_zero⟩⟩

end Session

end Lox

import Lox.Proofs.Command.Typing
import Lox.Proofs.Session.Chunks

/-!
# The prompt and whole texts

The prompt runs the lines of a text one by one, and shows what each of them prints. If the lines
are sources that run to their ends, all that it shows together is what the text prints when it is
run as one source.
-/

namespace Lox

/-- The text that is taken later comes behind the text that was taken before. -/
theorem Sink.text_append_textFrom {before after : Sink}
    (h : before.lines.toList <+: after.lines.toList) :
    before.text ++ after.textFrom before.lines.size = after.text := by
  obtain ⟨later, hlater⟩ := h
  have hdrop : (before.lines.toList ++ later).drop before.lines.size = later := by
    rw [← Array.length_toList, List.drop_left]
  simp only [text, textFrom, ← hlater, hdrop, List.drop_zero, List.map_append, String.join_append]

theorem Log.text_of_erase_eq {log : Log} (h : log.erase = ({} : Log).erase) : log.text = "" := by
  obtain ⟨hds, -, -⟩ := Log.mk.inj h
  have hnone : log.diagnostics = [] := by simpa using hds
  rw [Log.text, hnone]
  rfl

namespace Session

open Prompt

variable {s t : Session} {ps : List (List Stmt)} {τ : List Event} {line : String} {fuel : Nat}

/-- The line end behind a line does not matter. -/
theorem Sound.run_lineEnd (h : s.Sound ps τ) (hlog : s.log.hadError = false)
    (hclean : Clean 0 line) (hok : (s.run fuel line).1 = .ok) :
    (s.run fuel (line ++ "\n")).2.Resembles (s.run fuel line).2 := by
  obtain ⟨m, τ', -, hs', -⟩ := h.run_ok hlog (hclean.at _) hok
  have hsession := (h.run_join hlog (hclean.at _) (clean_empty.at _) hok).2.resembles
    (h.after [.run fuel line, .run fuel ""]) (h.step (.run fuel _))
  rwa [String.append_empty, run_empty (by rw [hs']; exact hlog)] at hsession

/-- What the prompt shows for a line that runs to its end in a session like this one, with or
without the line end. -/
theorem Sound.answer_line (h : s.Sound ps τ) (heq : t.Resembles s) (hlog : s.log = {})
    (hclean : Clean 0 line) (hok : (s.run fuel line).1 = .ok) {text : String}
    (htext : text = line ∨ text = line ++ "\n") :
    (Prompt.answer fuel t text).1.stderr = "" ∧
      s.machine.sink.text ++ (Prompt.answer fuel t text).1.stdout =
        (s.run fuel line).2.machine.sink.text ∧
      (Prompt.answer fuel t text).2.Resembles (s.run fuel line).2 ∧
      (s.run fuel line).2.log = {} := by
  have hfalse : s.log.hadError = false := by rw [hlog]
  obtain ⟨m, τ', -, hs', hmoves⟩ := h.run_ok hfalse (hclean.at _) hok
  have hlog' : (s.run fuel line).2.log = {} := by rw [hs']; exact hlog
  have hrun : (t.run fuel text).2.Resembles (s.run fuel line).2 := by
    refine (heq.run fuel text).2.trans ?_
    rcases htext with rfl | rfl
    · exact .refl _
    · exact h.run_lineEnd hfalse hclean hok
  refine ⟨Log.text_of_erase_eq (hlog' ▸ hrun.log), ?_, ?_, hlog'⟩
  · have hprinted : s.machine.sink.lines.toList <+:
        (s.run fuel line).2.machine.sink.lines.toList := by
      rw [hs']
      exact hmoves.printed
    rw [← Sink.text_append_textFrom hprinted]
    simp only [Prompt.answer, Sink.textFrom, hrun.printed, heq.printed]
  · have hreset := (hrun.step .reset).2
    have hforgot : (s.run fuel line).2.resetLog = (s.run fuel line).2 := by
      rw [resetLog, Log.reset, ← hlog']
    rwa [Step.apply, Step.apply, hforgot] at hreset

/-- One line more. -/
theorem answerAll_cons (fuel : Nat) (t : Session) (text : String) (rest : List (List UInt8)) :
    answerAll fuel t (Utf8.bytes text :: rest) =
      { code := (answerAll fuel (answer fuel t text).2 rest).code
        stdout := sign ++ (answer fuel t text).1.stdout ++
          (answerAll fuel (answer fuel t text).2 rest).stdout
        stderr := (answer fuel t text).1.stderr ++
          (answerAll fuel (answer fuel t text).2 rest).stderr } := by
  rw [answerAll, Utf8.decode_bytes]

/-- What the prompt shows for lines: a sign and an answer for each, and a last sign. -/
def shown (answers : List String) : Report :=
  { stdout := String.join (answers.map (sign ++ ·)) ++ (sign ++ "\n") }

/-- The prompt shows no diagnostics for lines that run to their ends, and all answers together are
what the lines print. -/
theorem Sound.answerAll_typed {lines : List String} (h : s.Sound ps τ) (heq : t.Resembles s)
    (hlog : s.log = {}) (hclean : ∀ line ∈ lines, Clean 0 line)
    (hok : ∀ o ∈ s.observations (lines.map (Step.run fuel)), o.reply = .ran .ok) :
    ∃ answers, answers.length = (typed lines).length ∧
      answerAll fuel t ((typed lines).map Utf8.bytes) = shown answers ∧
      s.machine.sink.text ++ String.join answers =
        (s.after (lines.map (Step.run fuel))).machine.sink.text := by
  induction lines generalizing s t ps τ with
  | nil =>
    refine ⟨[], rfl, rfl, ?_⟩
    rw [String.join_nil, String.append_empty]
    rfl
  | cons line rest ih =>
    have hline := hclean line (List.mem_cons_self ..)
    have hrun : (s.run fuel line).1 = .ok := Reply.ran.inj (hok _ (List.mem_cons_self ..))
    rcases typed_cons line rest with ⟨rfl, rfl⟩ | ⟨text, htext, htyped⟩
    · have hnothing : s.run fuel "" = (.ok, s) := run_empty (by rw [hlog])
      refine ⟨[], rfl, rfl, ?_⟩
      rw [String.join_nil, String.append_empty]
      change _ = (s.run fuel "").2.machine.sink.text
      rw [hnothing]
    · obtain ⟨hstderr, hprinted, hsession, hlog'⟩ :=
        h.answer_line heq hlog hline hrun htext
      obtain ⟨answers, hlength, hshown, hall⟩ := ih (h.step (.run fuel line)) hsession hlog'
        (fun l hl => hclean l (List.mem_cons_of_mem _ hl))
        fun o ho => hok o (List.mem_cons_of_mem _ ho)
      refine ⟨(answer fuel t text).1.stdout :: answers, ?_, ?_, ?_⟩
      · rw [htyped, List.length_cons, List.length_cons, hlength]
      · rw [htyped, List.map_cons, answerAll_cons, hshown, hstderr]
        simp only [shown, List.map_cons, String.join_cons, String.append_assoc, String.empty_append]
      · rw [String.join_cons, ← String.append_assoc, hprinted]
        exact hall

/-- A source may be run in parts. With the parts run one after the other, the end and what is
printed are the same, and what is done with the session later does not tell the difference, but for
the lines on which running programs fail. So the prompt shows, apart from its signs, what a text
prints whose lines run to their ends. -/
theorem run_in_chunks (fuel : Nat) :
    (∀ (sink : Sink) (clock : Clock) (steps later : List Step) (first second : String),
      let s := (initial sink clock).after steps
      let one := s.run fuel (first ++ "\n" ++ second)
      let two := (s.run fuel first).2.run fuel second
      s.log.hadError = false → Clean 0 first → Clean 0 second → (s.run fuel first).1 = .ok →
        two.1 = one.1 ∧ two.2.machine.sink = one.2.machine.sink ∧
          two.2.log.erase = one.2.log.erase ∧
          (two.2.observations later).map Observation.erase =
            (one.2.observations later).map Observation.erase) ∧
    ∀ (clock : Clock) (text : String),
      (∀ line ∈ lines text, Clean 0 line) →
      (∀ o ∈ (initial {} clock).observations ((lines text).map (Step.run fuel)),
        o.reply = .ran .ok) →
      ∃ answers, answers.length = (splitLines text.toUTF8.data.toList).length ∧
        Prompt.report fuel clock text.toUTF8 =
          { stdout := String.join (answers.map (sign ++ ·)) ++ (sign ++ "\n") } ∧
        Action.runReport fuel clock text = { stdout := String.join answers } := by
  refine ⟨?_, ?_⟩
  · intro sink clock steps later first second s one two hlog hfirst hsecond hok
    have hsound := sound_after sink clock steps
    obtain ⟨houtcome, hsession⟩ := hsound.run_join hlog (hfirst.at _) (hsecond.at _) hok
    have hsame := hsession.resembles (hsound.after [.run fuel first, .run fuel second])
      (hsound.step (.run fuel (first ++ "\n" ++ second)))
    exact ⟨houtcome.symm, hsession.sink_eq.symm, hsame.log.symm, (hsame.later later).symm⟩
  · intro clock text hclean hok
    have hsound := sound_initial {} clock
    obtain ⟨answers, hlength, hshown, hall⟩ :=
      hsound.answerAll_typed (.refl _) rfl hclean hok
    obtain ⟨houtcome, hsession⟩ := hsound.run_intercalate rfl hclean hok
    have hwhole := clean_intercalate hclean
    rw [intercalate_lines] at houtcome hsession hwhole
    obtain ⟨m, τ', -, hs', -⟩ := hsound.run_ok rfl hwhole houtcome
    refine ⟨answers, ?_, ?_, ?_⟩
    · rw [splitLines_toUTF8, List.length_map, hlength]
    · rw [Prompt.report, splitLines_toUTF8, hshown, shown]
    · have hstart : (initial {} clock).machine.sink.text = "" := rfl
      rw [hstart, String.empty_append, Sink.text, Sink.textFrom, ← hsession.printed] at hall
      simp only [Action.runReport, houtcome, hs', hall]
      rfl

/-- A function of the second part that fails on another line, and a text with a character that is
spelled with two bytes. -/
theorem run_in_chunks_failing :
    let s := (initial {} {}).after []
    let first := "var a = \"x\";"
    let second := "fun f() { return -a; }\nprint a;\nf();"
    let one := s.run 20 (first ++ "\n" ++ second)
    let two := (s.run 20 first).2.run 20 second
    let later := [Step.takeDiagnostics, .reset, .run 20 "f();"]
    let text := "var a = \"é\";\nprint a; // twice\nprint a + a;"
    (Clean 0 first ∧ Clean 0 second ∧ (s.run 20 first).1 = .ok ∧ two.1 = .runtimeError ∧
        two.2.log ≠ one.2.log) ∧
      (two.1 = one.1 ∧ two.2.machine.sink = one.2.machine.sink ∧
        two.2.log.erase = one.2.log.erase ∧
        (two.2.observations later).map Observation.erase =
          (one.2.observations later).map Observation.erase) ∧
      ((∀ line ∈ lines text, Clean 0 line) ∧
        ∀ o ∈ (initial {} {}).observations ((lines text).map (Step.run 20)),
          o.reply = .ran .ok) ∧
      ∃ answers, answers.length = (splitLines text.toUTF8.data.toList).length ∧
        Prompt.report 20 {} text.toUTF8 =
          { stdout := String.join (answers.map (sign ++ ·)) ++ (sign ++ "\n") } ∧
        Action.runReport 20 {} text = { stdout := String.join answers } :=
  ⟨by decide +kernel,
    (run_in_chunks 20).1 {} {} [] [.takeDiagnostics, .reset, .run 20 "f();"] "var a = \"x\";"
      "fun f() { return -a; }\nprint a;\nf();" rfl (by decide +kernel) (by decide +kernel)
      (by decide +kernel),
    by decide +kernel,
    (run_in_chunks 20).2 {} "var a = \"é\";\nprint a; // twice\nprint a + a;" (by decide +kernel)
      (by decide +kernel)⟩

end Session

end Lox

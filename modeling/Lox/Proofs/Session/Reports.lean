import Lox.Proofs.Parser.Statements
import Lox.Proofs.Scope.Closing
import Lox.Proofs.Token.Spelling
import Lox.Session

/-!
# What is reported before a source runs

Splitting a source into tokens, reading the tokens and binding the names each report only faults
of their own kind, which are about the text of the source. So a source runs if and only if the log
remembers no fault of a text and these three steps report nothing.
-/

namespace Lox

/-- The steps from a source to the end of its run. -/
inductive Phase where
  | scanning
  | parsing
  | binding
  | running
  deriving DecidableEq, Repr

/-- The step that reports a diagnostic. -/
def Diagnostic.phase : Diagnostic → Phase
  | lexical .. => .scanning
  | syntactic .. => .parsing
  | scoping .. => .binding
  | runtime .. | output .. => .running

theorem Diagnostic.isStatic_iff {d : Diagnostic} : d.isStatic = true ↔ d.phase ≠ .running := by
  cases d <;> simp [isStatic, phase]

theorem Lexer.phase_faults {source : String} {d : Diagnostic}
    (h : d ∈ faultsOf (scan source)) : d.phase = .scanning := by
  have hpiece : ∀ (p : Piece) (line : Nat) (d : Diagnostic),
      p.item? line = some (.error d) → d.phase = .scanning := by
    intro p line d hd
    unfold Piece.item? at hd
    split at hd <;> cases hd <;> rfl
  have hitems : ∀ (ps : List Piece) (line : Nat), .error d ∈ itemsFrom line ps →
      d.phase = .scanning := by
    intro ps
    induction ps with
    | nil => simp [itemsFrom]
    | cons p ps ih =>
      intro line hmem
      rcases List.mem_append.1 hmem with hmem | hmem
      · exact hpiece p _ d (by simpa using hmem)
      · exact ih _ hmem
  obtain ⟨item, hitem, hd⟩ := List.mem_filterMap.1 h
  cases item with
  | ok t => cases hd
  | error d' =>
    obtain rfl := Option.some.inj hd
    exact hitems _ _ hitem

/-! ## Walks -/

variable {K : Token → Prop}

/-- The names that open scopes declare are declared at tokens that `K` says. -/
def Scopes.Among (K : Token → Prop) (scopes : List Scope) : Prop :=
  ∀ scope ∈ scopes, ∀ v ∈ scope.values, K v.token

namespace Scopes.Among

variable {scope : Scope} {scopes : List Scope}

theorem nil : Among K [] := List.forall_mem_nil _

theorem insert (h : Among K (scope :: scopes)) (name : String) {v : Variable} (hv : K v.token) :
    Among K (scope.insert name v :: scopes) := by
  obtain ⟨hscope, hscopes⟩ := List.forall_mem_cons.1 h
  refine List.forall_mem_cons.2 ⟨fun u hu => ?_, hscopes⟩
  rcases Table.mem_values_insert hu with rfl | hu
  · exact hv
  · exact hscope u hu

/-- What else is noted of a name leaves its declaration where it is. -/
theorem modify (h : Among K (scope :: scopes)) (name : String) {f : Variable → Variable}
    (hf : ∀ v, (f v).token = v.token) : Among K (scope.modify name f :: scopes) := by
  obtain ⟨hscope, hscopes⟩ := List.forall_mem_cons.1 h
  refine List.forall_mem_cons.2 ⟨fun u hu => ?_, hscopes⟩
  simp only [Table.values, Table.modify, List.map_map, List.mem_map, Function.comp] at hu
  obtain ⟨e, he, rfl⟩ := hu
  have hv := hscope e.2 (List.mem_map_of_mem he)
  split
  · rwa [hf]
  · exact hv

theorem markUsed (h : Among K scopes) (name : String) : Among K (Scopes.markUsed name scopes) := by
  induction scopes with
  | nil => exact h
  | cons scope scopes ih =>
    rw [Scopes.markUsed]
    split
    · exact h.modify name fun _ => rfl
    · obtain ⟨hscope, hscopes⟩ := List.forall_mem_cons.1 h
      exact List.forall_mem_cons.2 ⟨hscope, ih hscopes⟩

end Scopes.Among

open Scopes (Among)

namespace Walk

variable {α β : Type}

/-- What a walk reports is about the names, at tokens that `K` says, if the names that it meets in
open scopes are declared at such tokens. -/
def Scoping (K : Token → Prop) (w : Walk α) : Prop :=
  ∀ scopes, Among K scopes → Among K (w scopes).scopes ∧
    ∀ d ∈ (w scopes).findings.faults, ∃ t fault, K t ∧ d = .scoping t.site fault

theorem scoping_silent {w : Walk α} (h : ∀ scopes, (w scopes).findings.faults = [])
    (hw : ∀ scopes, Among K scopes → Among K (w scopes).scopes) : w.Scoping K := by
  intro scopes hscopes
  rw [h scopes]
  exact ⟨hw scopes hscopes, List.forall_mem_nil _⟩

theorem scoping_pure (a : α) : Scoping K (pure a) := scoping_silent (fun _ => rfl) fun _ h => h

theorem scoping_report {t : Token} {fault : ScopeFault} (ht : K t) : Scoping K (report t fault) :=
  fun _ hscopes => ⟨hscopes, List.forall_mem_singleton.2 ⟨t, fault, ht, rfl⟩⟩

theorem Scoping.bind {w : Walk α} {f : α → Walk β} (hw : w.Scoping K)
    (hf : ∀ a, (f a).Scoping K) : (w >>= f).Scoping K := by
  intro scopes hscopes
  obtain ⟨hscopes, hfirst⟩ := hw scopes hscopes
  obtain ⟨hscopes, hsecond⟩ := hf _ _ hscopes
  exact ⟨hscopes, List.forall_mem_append.2 ⟨hfirst, hsecond⟩⟩

theorem scoping_declare {name : Token} (hname : K name) : (declare name).Scoping K := by
  intro scopes hscopes
  cases scopes with
  | nil => exact scoping_pure () [] hscopes
  | cons scope outer =>
    unfold declare
    simp only
    split
    · exact scoping_report hname _ hscopes
    · exact ⟨hscopes.insert name.lexeme hname, List.forall_mem_nil _⟩

theorem scoping_define {name : Token} : (define name).Scoping K := by
  intro scopes hscopes
  cases scopes with
  | nil => exact scoping_pure () [] hscopes
  | cons scope outer => exact ⟨hscopes.modify name.lexeme fun _ => rfl, List.forall_mem_nil _⟩

theorem scoping_provide {name : String} {t : Token} (ht : K t) : (provide name t).Scoping K := by
  intro scopes hscopes
  cases scopes with
  | nil => exact scoping_pure () [] hscopes
  | cons scope outer => exact ⟨hscopes.insert name ht, List.forall_mem_nil _⟩

theorem scoping_bindNode {id : NodeId} {name : Token} : (bindNode id name).Scoping K :=
  scoping_silent (fun _ => rfl) fun _ h => h

theorem scoping_bindRead {id : NodeId} {name : Token} : (bindRead id name).Scoping K :=
  scoping_bindNode.bind fun _ => scoping_silent (fun _ => rfl) fun _ h => h.markUsed name.lexeme

theorem Scoping.inScope {w : Walk Unit} (h : w.Scoping K) : (inScope w).Scoping K := by
  have hopen : openScope.Scoping K :=
    scoping_silent (fun _ => rfl) fun _ h => List.forall_mem_cons.2 ⟨List.forall_mem_nil _, h⟩
  refine hopen.bind fun _ => h.bind fun _ scopes hscopes => ?_
  cases scopes with
  | nil => exact scoping_pure () [] hscopes
  | cons scope outer =>
    obtain ⟨hscope, houter⟩ := List.forall_mem_cons.1 hscopes
    refine ⟨houter, fun d hd => ?_⟩
    obtain ⟨t, ht, rfl⟩ := List.mem_map.1 hd
    obtain ⟨v, hv, -, rfl⟩ := Scope.mem_unused_iff.1 ht
    exact ⟨v.token, .neverUsed, hscope v hv, rfl⟩

end Walk

namespace Resolution

open Walk

mutual

theorem scoping_expr (ctx : Context) (e : Expr) (he : (Part.expr e).Formed K) :
    (expr ctx e).Scoping K := by
  have hfits := he.fits
  cases e with
  | literal => exact scoping_pure ()
  | grouping inner => exact scoping_expr ctx inner (he.of_mem (.head _))
  | unary op operand => exact scoping_expr ctx operand (he.of_mem (.head _))
  | binary left op right | logical left op right =>
    exact (scoping_expr ctx left (he.of_mem (.head _))).bind fun _ =>
      scoping_expr ctx right (he.of_mem (.tail _ (.head _)))
  | conditional c a b =>
    exact (scoping_expr ctx c (he.of_mem (.head _))).bind fun _ =>
      (scoping_expr ctx a (he.of_mem (.tail _ (.head _)))).bind fun _ =>
        scoping_expr ctx b (he.of_mem (.tail _ (.tail _ (.head _))))
  | var id name =>
    refine Scoping.bind (scoping_silent (fun _ => rfl) fun _ h => h) fun b => ?_
    cases b with
    | true => exact (scoping_report hfits.1).bind fun _ => scoping_bindRead
    | false => exact scoping_bindRead
  | assign id name value =>
    exact (scoping_expr ctx value (he.of_mem (.head _))).bind fun _ => scoping_bindNode
  | call callee paren arguments =>
    exact (scoping_expr ctx callee (he.of_mem (.head _))).bind fun _ =>
      scoping_exprs ctx arguments fun e he' => he.of_mem (.tail _ (List.mem_map_of_mem he'))
  | get object name => exact scoping_expr ctx object (he.of_mem (.head _))
  | set object name value =>
    exact (scoping_expr ctx value (he.of_mem (.tail _ (.head _)))).bind fun _ =>
      scoping_expr ctx object (he.of_mem (.head _))
  | thisRef id keyword =>
    rw [expr, receiver]
    split
    · exact scoping_report hfits.1
    · exact scoping_report hfits.1
    · exact scoping_bindRead
    · exact scoping_bindRead
  | superRef id keyword method =>
    rw [expr, superclass]
    split
    · exact scoping_report hfits.1
    · exact scoping_report hfits.1
    · exact scoping_report hfits.1
    · exact scoping_bindRead

theorem scoping_exprs (ctx : Context) (es : List Expr)
    (hes : ∀ e ∈ es, (Part.expr e).Formed K) : (exprs ctx es).Scoping K := by
  cases es with
  | nil => exact scoping_pure ()
  | cons e es =>
    obtain ⟨he, hes⟩ := List.forall_mem_cons.1 hes
    exact (scoping_expr ctx e he).bind fun _ => scoping_exprs ctx es hes

end

theorem scoping_optional (ctx : Context) (o : Option Expr)
    (ho : ∀ part ∈ o.toList.map Part.expr, part.Formed K) : (optional ctx o).Scoping K := by
  cases o with
  | none => exact scoping_pure ()
  | some e => exact scoping_expr ctx e (ho _ (.head _))

theorem scoping_params (ps : List Token) (hps : ∀ p ∈ ps, K p) : (params ps).Scoping K := by
  induction ps with
  | nil => exact scoping_pure ()
  | cons p ps ih =>
    obtain ⟨hp, hps⟩ := List.forall_mem_cons.1 hps
    exact (scoping_declare hp).bind fun _ => scoping_define.bind fun _ => ih hps

theorem scoping_superclassClause (ctx : Context) (name superName : Token) (id : NodeId)
    (h : (Part.expr (.var id superName)).Formed K) :
    (superclassClause ctx name (some (.var id superName))).Scoping K := by
  rw [superclassClause]
  simp only
  split
  · exact (scoping_report h.fits.1).bind fun _ => scoping_expr _ _ h
  · exact scoping_expr _ _ h

theorem scoping_returnRules (ctx : Context) (keyword : Token) (value : Option Expr)
    (hkeyword : K keyword) : (returnRules ctx keyword value).Scoping K := by
  unfold returnRules
  simp only
  split
  · refine (scoping_report hkeyword).bind fun _ => ?_
    split
    · exact scoping_report hkeyword
    · exact scoping_pure ()
  · split
    · exact scoping_report hkeyword
    · exact scoping_pure ()

mutual

/-- Reports are at tokens of the statement, or where a name of an open scope is declared. -/
theorem scoping_stmt (ctx : Context) (s : Stmt) (hs : (Part.stmt s).Formed K) :
    (stmt ctx s).Scoping K := by
  have hfits := hs.fits
  cases s with
  | expression e | print e => exact scoping_expr ctx e (hs.of_mem (.head _))
  | varDecl name value =>
    exact (scoping_declare hfits.1).bind fun _ =>
      (scoping_optional ctx value fun _ h => hs.of_mem h).bind fun _ => scoping_define
  | block body =>
    exact (scoping_stmts ctx body fun s hs' => hs.of_mem (List.mem_map_of_mem hs')).inScope
  | ifThen c a | whileLoop c a =>
    exact (scoping_expr ctx c (hs.of_mem (.head _))).bind fun _ =>
      scoping_stmt ctx a (hs.of_mem (.tail _ (.head _)))
  | ifElse c a b =>
    exact (scoping_expr ctx c (hs.of_mem (.head _))).bind fun _ =>
      (scoping_stmt ctx a (hs.of_mem (.tail _ (.head _)))).bind fun _ =>
        scoping_stmt ctx b (hs.of_mem (.tail _ (.tail _ (.head _))))
  | funDecl decl =>
    have hdecl := hs.of_mem (.head _)
    exact (scoping_declare (hdecl.fits _ (.head _)).1).bind fun _ => scoping_define.bind fun _ =>
      scoping_functionBody _ decl hdecl
  | returnWith keyword value =>
    exact (scoping_returnRules ctx keyword value hfits).bind fun _ =>
      scoping_optional ctx value fun _ h => hs.of_mem h
  | classDecl decl =>
    obtain ⟨name, superclass, ms, ss⟩ := decl
    obtain ⟨⟨hname, -⟩, hsuper⟩ := hfits
    have hmembers : ∀ cls : ClassRole, (do
        statics { ctx with cls := .static } ss
        withThis name (methods { ctx with cls := cls } ms) : Walk Unit).Scoping K := by
      intro cls
      refine (scoping_statics _ ss fun f hf => hs.of_mem ?_).bind fun _ => Scoping.inScope
        ((scoping_provide hname).bind fun _ => scoping_methods _ ms fun f hf => hs.of_mem ?_)
      · simp [Part.children, Stmt.components, hf]
      · simp [Part.children, Stmt.components, hf]
    refine (scoping_declare hname).bind fun _ => ?_
    cases superclass with
    | none => exact (scoping_pure ()).bind fun _ => scoping_define.bind fun _ => hmembers _
    | some e =>
      obtain ⟨id, superName, rfl⟩ := hsuper e rfl
      have hvar := hs.of_mem (.head _)
      exact (scoping_superclassClause ctx name superName id hvar).bind fun _ =>
        scoping_define.bind fun _ =>
          Scoping.inScope ((scoping_provide hvar.fits.1).bind fun _ => hmembers _)

theorem scoping_stmts (ctx : Context) (ss : List Stmt)
    (hss : ∀ s ∈ ss, (Part.stmt s).Formed K) : (stmts ctx ss).Scoping K := by
  cases ss with
  | nil => exact scoping_pure ()
  | cons s ss =>
    obtain ⟨hs, hss⟩ := List.forall_mem_cons.1 hss
    exact (scoping_stmt ctx s hs).bind fun _ => scoping_stmts ctx ss hss

theorem scoping_functionBody (ctx : Context) (f : FunctionDecl)
    (hf : (Part.function f).Formed K) : (functionBody ctx f).Scoping K := by
  obtain ⟨name, ps, body⟩ := f
  exact Scoping.inScope ((scoping_params ps fun p hp => (hf.fits p (.tail _ hp)).1).bind fun _ =>
    scoping_stmts ctx body fun s hs => hf.of_mem (List.mem_map_of_mem hs))

theorem scoping_methods (ctx : Context) (ms : List FunctionDecl)
    (hms : ∀ m ∈ ms, (Part.function m).Formed K) : (methods ctx ms).Scoping K := by
  cases ms with
  | nil => exact scoping_pure ()
  | cons m ms =>
    obtain ⟨hm, hms⟩ := List.forall_mem_cons.1 hms
    exact (scoping_functionBody _ m hm).bind fun _ => scoping_methods ctx ms hms

theorem scoping_statics (ctx : Context) (ms : List FunctionDecl)
    (hms : ∀ m ∈ ms, (Part.function m).Formed K) : (statics ctx ms).Scoping K := by
  cases ms with
  | nil => exact scoping_pure ()
  | cons m ms =>
    obtain ⟨hm, hms⟩ := List.forall_mem_cons.1 hms
    exact (scoping_functionBody _ m hm).bind fun _ => scoping_statics ctx ms hms

end

end Resolution

/-! ## Sessions -/

namespace Session

/-- Nothing is wrong with the text of a source whose nodes are numbered from `fresh` on. -/
def Clean (fresh : NodeId) (source : String) : Prop :=
  (read fresh source).faults = [] ∧ (resolve (read fresh source).statements).faults = []

instance (fresh : NodeId) (source : String) : Decidable (Clean fresh source) :=
  inferInstanceAs (Decidable (_ ∧ _))

/-- The machine that a source runs on: what its names are bound to is recorded. -/
def prepared (s : Session) (source : String) : Machine :=
  s.machine.noteAll (resolve (read s.fresh source).statements).bindings

/-- What is reported of the tokens of a source is about the grammar. -/
theorem phase_parse {fresh : NodeId} {source : String} {d : Diagnostic}
    (h : d ∈ (Lox.parse fresh (Lexer.tokens source)).faults) : d.phase = .parsing := by
  obtain ⟨t, fault, -, rfl⟩ :=
    (isBody_parse (K := fun _ => True) (fun _ _ => trivial) fresh).2 d h
  rfl

theorem isStatic_read {fresh : NodeId} {source : String} {d : Diagnostic}
    (h : d ∈ (read fresh source).faults) : d.isStatic = true := by
  rw [Diagnostic.isStatic_iff]
  rcases List.mem_append.1 h with h | h
  · simp [Lexer.phase_faults h]
  · simp [phase_parse h]

/-- What is reported of the names of a source is about the names, at tokens of the source. -/
theorem scoping_resolve {fresh : NodeId} {source : String} {d : Diagnostic}
    (h : d ∈ (resolve (read fresh source).statements).faults) :
    ∃ t fault, t ∈ Lexer.tokens source ∧ d = .scoping t.site fault := by
  have hbody := (isBody_parse (K := (· ∈ Lexer.tokens source)) (fun _ ht => ht) fresh).1
  have hscoping := Resolution.scoping_stmts {} (read fresh source).statements fun s hs =>
    hbody.spread.formed _ (List.mem_map_of_mem hs)
  exact (hscoping [] .nil).2 d h

theorem phase_resolve {fresh : NodeId} {source : String} {d : Diagnostic}
    (h : d ∈ (resolve (read fresh source).statements).faults) : d.phase = .binding := by
  obtain ⟨t, fault, -, rfl⟩ := scoping_resolve h
  rfl

theorem any_isStatic {ds : List Diagnostic} (h : ∀ d ∈ ds, d.isStatic = true) (hne : ds ≠ []) :
    ds.any Diagnostic.isStatic = true := by
  obtain ⟨d, hd⟩ := List.exists_mem_of_ne_nil ds hne
  exact List.any_eq_true.2 ⟨d, hd, h d hd⟩

variable {s : Session} {source : String}

/-- A source with nothing wrong in it runs if the log remembers no fault of a text. -/
theorem run_of_clean {fuel : Nat} (hlog : s.log.hadError = false) (h : Clean s.fresh source) :
    s.run fuel source =
      execute fuel ⟨s.prepared source, s.log, (read s.fresh source).fresh⟩
        (read s.fresh source).statements := by
  simp [run, runProgram, parse, prepared, h.1, h.2, hlog]

/-- The names of a source are looked at only if the log remembers no fault of a text and the
source can be read. -/
def Looked (s : Session) (source : String) : Prop :=
  s.log.hadError = false ∧ (read s.fresh source).faults = []

instance (s : Session) (source : String) : Decidable (s.Looked source) :=
  inferInstanceAs (Decidable (_ ∧ _))

/-- What is found wrong with a source that does not run. -/
def complaints (s : Session) (source : String) : List Diagnostic :=
  if s.Looked source then (resolve (read s.fresh source).statements).faults
  else (read s.fresh source).faults

/-- What a source that does not run leaves behind: its diagnostics, the numbers of its nodes, and
the distances of its names, if these were looked at. -/
def rejected (s : Session) (source : String) : Session where
  machine := if s.Looked source then s.prepared source else s.machine
  log := s.log.reportAll (s.complaints source)
  fresh := (read s.fresh source).fresh

/-- Otherwise it does not run. -/
theorem run_of_not_clean (fuel : Nat) (h : ¬ (s.log.hadError = false ∧ Clean s.fresh source)) :
    s.run fuel source = (.staticError, s.rejected source) := by
  unfold run runProgram rejected complaints
  by_cases hlooked : s.Looked source
  · have hfindings : (resolve (read s.fresh source).statements).faults ≠ [] := fun hnil =>
      h ⟨hlooked.1, hlooked.2, hnil⟩
    have hstatic := any_isStatic
      (fun d hd => Diagnostic.isStatic_iff.2 (by simp [phase_resolve hd])) hfindings
    have herror : (s.log.reportAll (resolve (read s.fresh source).statements).faults).hadError =
        true := by
      rw [Log.hadError_reportAll, Bool.or_eq_true]
      exact .inr hstatic
    simp only [parse, hlooked.1, hlooked.2, Log.reportAll_nil, Bool.false_eq_true, if_false, herror,
      if_pos hlooked, if_true, prepared]
  · have herror : (s.log.reportAll (read s.fresh source).faults).hadError = true := by
      rw [Log.hadError_reportAll, Bool.or_eq_true]
      by_cases hlog : s.log.hadError = true
      · exact .inl hlog
      · refine .inr (any_isStatic (fun _ hd => isStatic_read hd) fun hnil => hlooked ⟨?_, hnil⟩)
        simpa using hlog
    simp only [parse, herror, if_true, if_neg hlooked]

end Session

end Lox

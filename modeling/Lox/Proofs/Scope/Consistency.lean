import Lox.Proofs.Parser.Statements
import Lox.Proofs.Scope.Binding

/-!
# A number is bound in one way

The walk through an expression notes which names are read and nothing else, so the names that are
declared stay the same. The two copies of the left operand of `??` are in one expression. So where
the numbers of a program are unambiguous, a node is bound as often as it stands in the tree, and
each time to the same scope, whatever the walk reports. This holds of every program that is read,
also with what is reported and left out of it, and of programs that are read one after the other.
-/

namespace Lox

variable {e : Expr} {w : Walk α} {f : α → Walk β} {id : NodeId} {name : Token}

/-- The number and the name of an expression that refers to a variable. -/
def Expr.reference? : Expr → Option (NodeId × String)
  | .var id name | .assign id name _ | .thisRef id name | .superRef id name _ =>
    some (id, name.lexeme)
  | _ => none

theorem Expr.number?_of_reference? {r : NodeId × String} (h : e.reference? = some r) :
    e.number? = some r.1 := by
  cases e with
  | var | assign | thisRef | superRef =>
    cases h
    rfl
  | _ => cases h

namespace Walk

variable {α β : Type}

/-! ## Expressions -/

/-- From any open scopes, a walk leaves the names that they declare as they are, and binds nodes of
a part, each to where the scopes declare its name. -/
def Sees (part : Part) (w : Walk α) : Prop :=
  ∀ scopes, (∀ name, Scopes.depth? (w scopes).scopes name = Scopes.depth? scopes name) ∧
    ∀ b ∈ (w scopes).findings.bindings, b.depth = Scopes.depth? scopes b.name ∧
      ∃ path e, part.at? path = some (.expr e) ∧ e.reference? = some (b.id, b.name)

section Sees

variable {part child : Part}

theorem sees_of_silent (hscopes : ∀ scopes, (w scopes).scopes = scopes)
    (hbindings : ∀ scopes, (w scopes).findings.bindings = []) : w.Sees part := by
  intro scopes
  rw [hscopes, hbindings]
  exact ⟨fun _ => rfl, by simp⟩

theorem Sees.bind (hw : w.Sees part) (hf : ∀ a, (f a).Sees part) : (w >>= f).Sees part := by
  intro scopes
  obtain ⟨hscopes, hbindings⟩ := hw scopes
  obtain ⟨hscopes', hbindings'⟩ := hf (w scopes).value (w scopes).scopes
  rw [bind_apply]
  refine ⟨fun name => (hscopes' name).trans (hscopes name), fun b hb => ?_⟩
  rcases List.mem_append.1 hb with hb | hb
  · exact hbindings b hb
  · obtain ⟨hdepth, hnode⟩ := hbindings' b hb
    exact ⟨hdepth.trans (hscopes b.name), hnode⟩

/-- What is in a part is in the parts around it. -/
theorem Sees.outward (h : w.Sees child) (hmem : child ∈ part.children) : w.Sees part := by
  intro scopes
  refine ⟨(h scopes).1, fun b hb => ?_⟩
  obtain ⟨hdepth, path, e, hpath, he⟩ := (h scopes).2 b hb
  obtain ⟨i, hi⟩ := List.mem_iff_getElem?.1 hmem
  exact ⟨hdepth, i :: path, e, (Part.at?_cons hi path).trans hpath, he⟩

theorem Sees.operand {e' : Expr} (h : w.Sees (.expr e)) (hmem : e ∈ e'.operands) :
    w.Sees (.expr e') :=
  h.outward (List.mem_map_of_mem hmem)

theorem sees_report {t : Token} {fault : ScopeFault} : (report t fault).Sees part :=
  sees_of_silent (fun _ => rfl) fun _ => rfl

theorem sees_bindNode (h : e.reference? = some (id, name.lexeme)) :
    (bindNode id name).Sees (.expr e) := by
  intro scopes
  refine ⟨fun _ => rfl, fun b hb => ?_⟩
  obtain rfl := List.mem_singleton.1 hb
  exact ⟨rfl, [], e, rfl, h⟩

/-- Noting that a name is read declares nothing. -/
theorem depth?_markUsed (read : String) (scopes : List Scope) (name : String) :
    Scopes.depth? (Scopes.markUsed read scopes) name = Scopes.depth? scopes name := by
  induction scopes with
  | nil => rfl
  | cons scope outer ih =>
    unfold Scopes.markUsed
    split
    · have hcontains : (scope.modify read fun v => { v with used := true }).contains name =
          scope.contains name := by
        rw [Table.contains, Table.get?_modify, Table.contains]
        split
        · rw [Option.isSome_map]
        · rfl
      simp only [Scopes.depth?, List.findIdx?_cons, hcontains]
    · simp only [Scopes.depth?, List.findIdx?_cons] at ih ⊢
      rw [ih]

theorem sees_bindRead (h : e.reference? = some (id, name.lexeme)) :
    (bindRead id name).Sees (.expr e) := by
  refine (sees_bindNode h).bind fun _ scopes => ⟨depth?_markUsed _ _, fun b hb => ?_⟩
  cases hb

end Sees

end Walk

namespace Resolution

open Walk

variable {ctx : Context}

mutual

/-- An expression declares nothing, so its nodes are bound in the scopes around it. -/
theorem sees_expr (e : Expr) : (expr ctx e).Sees (.expr e) := by
  cases e with
  | literal => exact sees_of_silent (fun _ => rfl) fun _ => rfl
  | grouping inner => exact (sees_expr inner).operand (by simp)
  | unary op operand => exact (sees_expr operand).operand (by simp)
  | binary left op right =>
    exact ((sees_expr left).operand (by simp)).bind fun _ =>
      (sees_expr right).operand (by simp)
  | logical left op right =>
    exact ((sees_expr left).operand (by simp)).bind fun _ =>
      (sees_expr right).operand (by simp)
  | conditional c a b =>
    exact ((sees_expr c).operand (by simp)).bind fun _ =>
      ((sees_expr a).operand (by simp)).bind fun _ =>
        (sees_expr b).operand (by simp)
  | var id name =>
    have hread : (bindRead id name).Sees (.expr (.var id name)) := sees_bindRead rfl
    refine Sees.bind (sees_of_silent (fun _ => rfl) fun _ => rfl) fun pending => ?_
    cases pending with
    | true => exact sees_report.bind fun _ => hread
    | false => exact hread
  | assign id name value =>
    exact ((sees_expr value).operand (by simp)).bind fun _ =>
      sees_bindNode rfl
  | call callee paren arguments =>
    exact ((sees_expr callee).operand (by simp)).bind fun _ =>
      sees_exprs arguments fun e he => by simp [he]
  | get object name => exact (sees_expr object).operand (by simp)
  | set object name value =>
    exact ((sees_expr value).operand (by simp)).bind fun _ =>
      (sees_expr object).operand (by simp)
  | thisRef id keyword =>
    rw [expr, receiver]
    split
    · exact sees_report
    · exact sees_report
    · exact sees_bindRead rfl
    · exact sees_bindRead rfl
  | superRef id keyword method =>
    rw [expr, superclass]
    split
    · exact sees_report
    · exact sees_report
    · exact sees_report
    · exact sees_bindRead rfl

theorem sees_exprs {e' : Expr} (es : List Expr) (h : ∀ e ∈ es, e ∈ e'.operands) :
    (exprs ctx es).Sees (.expr e') := by
  cases es with
  | nil => exact sees_of_silent (fun _ => rfl) fun _ => rfl
  | cons e es =>
    exact ((sees_expr e).operand (h e (by simp))).bind fun _ =>
      sees_exprs es fun e' he' => h e' (by simp [he'])

end

end Resolution

/-! ## Statements -/

/-- The numbers of some parts are unambiguous, and no two of the parts have one in common. -/
def Parts.Distinct (parts : List Part) : Prop :=
  (∀ part ∈ parts, part.Unambiguous) ∧ parts.Pairwise Part.Apart

theorem Parts.Distinct.append {parts parts' : List Part} (h : Parts.Distinct (parts ++ parts')) :
    Parts.Distinct parts ∧ Parts.Distinct parts' ∧
      ∀ part ∈ parts, ∀ part' ∈ parts', part.Apart part' := by
  obtain ⟨hfirst, hsecond, hcross⟩ := List.pairwise_append.1 h.2
  exact ⟨⟨fun part hpart => h.1 part (List.mem_append_left _ hpart), hfirst⟩,
    ⟨fun part hpart => h.1 part (List.mem_append_right _ hpart), hsecond⟩, hcross⟩

theorem Parts.Distinct.cons {part : Part} {parts : List Part} (h : Parts.Distinct (part :: parts)) :
    part.Unambiguous ∧ Parts.Distinct parts ∧
      ∀ first ∈ [part], ∀ part' ∈ parts, first.Apart part' := by
  obtain ⟨hpart, hparts, hcross⟩ := Parts.Distinct.append (List.singleton_append ▸ h)
  exact ⟨hpart.1 part (List.mem_singleton_self part), hparts, hcross⟩

theorem Parts.Distinct.perm {parts parts' : List Part} (h : Parts.Distinct parts)
    (hperm : parts.Perm parts') : Parts.Distinct parts' :=
  ⟨fun part hpart => h.1 part (hperm.mem_iff.2 hpart), hperm.pairwise h.2 Part.Apart.symm⟩

theorem Part.Unambiguous.distinct {part : Part} (h : part.Unambiguous)
    (hpart : ∀ e, part ≠ .expr e) : Parts.Distinct part.children :=
  ⟨fun _ hmem => h.of_mem hmem, h.pairwise_apart hpart⟩

namespace Walk

variable {α β : Type} {parts parts' : List Part}

/-- A walk binds numbers of some parts. If it binds a number more than once then each time in the
same way. -/
def Settles (parts : List Part) (w : Walk α) : Prop :=
  ∀ scopes, (∀ b ∈ (w scopes).findings.bindings, ∃ part ∈ parts, part.Has b.id) ∧
    ∀ b ∈ (w scopes).findings.bindings, ∀ b' ∈ (w scopes).findings.bindings, b.id = b'.id → b = b'

theorem settles_of_silent (h : ∀ scopes, (w scopes).findings.bindings = []) : w.Settles parts := by
  intro scopes
  rw [h]
  exact ⟨by simp, by simp⟩

theorem Settles.mono (h : w.Settles parts)
    (hmono : ∀ part ∈ parts, ∃ part' ∈ parts', ∀ id, part.Has id → part'.Has id) :
    w.Settles parts' := by
  intro scopes
  refine ⟨fun b hb => ?_, (h scopes).2⟩
  obtain ⟨part, hpart, hid⟩ := (h scopes).1 b hb
  obtain ⟨part', hpart', hhas⟩ := hmono part hpart
  exact ⟨part', hpart', hhas b.id hid⟩

theorem Settles.outward (part : Part) (h : w.Settles part.children) : w.Settles [part] :=
  h.mono fun child hchild =>
    ⟨part, List.mem_singleton_self part, fun _ hid => Part.has_iff.2 (.inr ⟨child, hchild, hid⟩)⟩

/-- Two walks through parts that have no number in common. -/
theorem Settles.bind (hw : w.Settles parts) (hf : ∀ a, (f a).Settles parts')
    (hapart : ∀ part ∈ parts, ∀ part' ∈ parts', part.Apart part') :
    (w >>= f).Settles (parts ++ parts') := by
  intro scopes
  obtain ⟨hhas, hsame⟩ := hw scopes
  obtain ⟨hhas', hsame'⟩ := hf (w scopes).value (w scopes).scopes
  have hcross : ∀ b ∈ (w scopes).findings.bindings,
      ∀ b' ∈ (f (w scopes).value (w scopes).scopes).findings.bindings, b.id ≠ b'.id := by
    intro b hb b' hb' hid
    obtain ⟨part, hpart, hid₁⟩ := hhas b hb
    obtain ⟨part', hpart', hid₂⟩ := hhas' b' hb'
    exact hapart part hpart part' hpart' b.id hid₁ (hid ▸ hid₂)
  rw [bind_apply]
  refine ⟨fun b hb => ?_, fun b hb b' hb' hid => ?_⟩
  · rcases List.mem_append.1 hb with hb | hb
    · obtain ⟨part, hpart, hid⟩ := hhas b hb
      exact ⟨part, List.mem_append_left _ hpart, hid⟩
    · obtain ⟨part, hpart, hid⟩ := hhas' b hb
      exact ⟨part, List.mem_append_right _ hpart, hid⟩
  · rcases List.mem_append.1 hb with hb | hb <;> rcases List.mem_append.1 hb' with hb' | hb'
    · exact hsame b hb b' hb' hid
    · exact absurd hid (hcross b hb b' hb')
    · exact absurd hid.symm (hcross b' hb' b hb)
    · exact hsame' b hb b' hb' hid

/-- A walk that binds nothing, and then another. -/
theorem Settles.silent_bind (hw : ∀ scopes, (w scopes).findings.bindings = [])
    (hf : ∀ a, (f a).Settles parts) : (w >>= f).Settles parts := by
  have hsilent : w.Settles [] := settles_of_silent hw
  exact hsilent.bind hf (by simp)

/-- A walk, and then one that binds nothing. -/
theorem Settles.bind_silent (hw : w.Settles parts)
    (hf : ∀ a scopes, (f a scopes).findings.bindings = []) : (w >>= f).Settles parts := by
  have hsilent : ∀ a, (f a).Settles [] := fun a => settles_of_silent (hf a)
  simpa using hw.bind hsilent (by simp)

theorem bindings_declare (name : Token) (scopes : List Scope) :
    (declare name scopes).findings.bindings = [] := by
  cases scopes with
  | nil => rfl
  | cons scope outer =>
    unfold declare
    dsimp only
    split <;> rfl

theorem bindings_define (name : Token) (scopes : List Scope) :
    (define name scopes).findings.bindings = [] := by
  cases scopes <;> rfl

theorem bindings_provide (name : String) (token : Token) (scopes : List Scope) :
    (provide name token scopes).findings.bindings = [] := by
  cases scopes <;> rfl

theorem bindings_closeScope (scopes : List Scope) : (closeScope scopes).findings.bindings = [] := by
  cases scopes <;> rfl

theorem Settles.inScope {w : Walk Unit} (h : w.Settles parts) : (inScope w).Settles parts :=
  .silent_bind (fun _ => rfl) fun _ => h.bind_silent fun _ => bindings_closeScope

/-- In an expression, a number is bound at corresponding places only, and the node there is the
same. -/
theorem Sees.settles {part : Part} (h : w.Sees part) (hpart : part.Unambiguous) :
    w.Settles [part] := by
  intro scopes
  have hnumber : ∀ {b : Binding} {path e}, part.at? path = some (.expr e) →
      e.reference? = some (b.id, b.name) → part.numberAt? path = some b.id := by
    intro b path e hpath he
    rw [Part.numberAt?, hpath, Option.bind_some]
    exact Expr.number?_of_reference? he
  refine ⟨fun b hb => ?_, fun b hb b' hb' hid => ?_⟩
  · obtain ⟨-, path, e, hpath, he⟩ := (h scopes).2 b hb
    exact ⟨part, List.mem_singleton_self part, path, hnumber hpath he⟩
  · obtain ⟨hdepth, path, e, hpath, he⟩ := (h scopes).2 b hb
    obtain ⟨hdepth', path', e', hpath', he'⟩ := (h scopes).2 b' hb'
    have hsame := hpart path path' b.id (hnumber hpath he) (hid ▸ hnumber hpath' he')
    have hnode := hsame.at?_eq
    rw [hpath, hpath'] at hnode
    cases hnode
    have hname : b.name = b'.name := congrArg Prod.snd (Option.some.inj (he.symm.trans he'))
    obtain ⟨id, name, depth⟩ := b
    obtain ⟨id', name', depth'⟩ := b'
    cases hid
    cases hname
    exact congrArg (Binding.mk id name) (hdepth.trans hdepth'.symm)

end Walk

namespace Resolution

open Walk

variable {ctx : Context}

theorem settles_expr (h : (Part.expr e).Unambiguous) : (expr ctx e).Settles [.expr e] :=
  (sees_expr e).settles h

theorem settles_optional {o : Option Expr} (h : Parts.Distinct (o.toList.map .expr)) :
    (optional ctx o).Settles (o.toList.map .expr) := by
  cases o with
  | none => exact settles_of_silent fun _ => rfl
  | some e => exact settles_expr h.cons.1

theorem bindings_params (ps : List Token) (scopes : List Scope) :
    (params ps scopes).findings.bindings = [] := by
  induction ps generalizing scopes with
  | nil => rfl
  | cons p ps ih =>
    simp only [params, bind_apply, Findings.bindings_append, bindings_declare, bindings_define, ih,
      List.append_nil]

theorem settles_superclassClause {o : Option Expr} (h : Parts.Distinct (o.toList.map .expr)) :
    (superclassClause ctx name o).Settles (o.toList.map .expr) := by
  cases o with
  | none => exact settles_of_silent fun _ => rfl
  | some e =>
    have hexpr : (expr { ctx with cls := .subclass } e).Settles [.expr e] :=
      settles_expr h.cons.1
    cases e with
    | var id superName =>
      unfold superclassClause
      simp only
      split
      · exact .silent_bind (fun _ => rfl) fun _ => hexpr
      · exact hexpr
    | _ => exact hexpr

theorem bindings_returnRules (ctx : Context) (keyword : Token) (value : Option Expr)
    (scopes : List Scope) : (returnRules ctx keyword value scopes).findings.bindings = [] := by
  unfold returnRules
  by_cases h : ctx.function = .topLevel <;>
    by_cases h' : (value.isSome && ctx.function = .initializer) = true <;>
    simp [h, h', bind_apply, report]

mutual

/-- A number that stands at two places is bound in the same way at both. -/
theorem settles_stmt {ctx : Context} (s : Stmt) (h : (Part.stmt s).Unambiguous) :
    (stmt ctx s).Settles [.stmt s] := by
  have hdistinct : Parts.Distinct s.components := h.distinct nofun
  refine Settles.outward (.stmt s) ?_
  cases s with
  | expression e => exact settles_expr (Parts.Distinct.cons hdistinct).1
  | print e => exact settles_expr (Parts.Distinct.cons hdistinct).1
  | varDecl name value =>
    exact .silent_bind (bindings_declare name) fun _ =>
      (settles_optional hdistinct).bind_silent fun _ => bindings_define name
  | block body => exact (settles_stmts body hdistinct).inScope
  | ifThen c a =>
    obtain ⟨hc, ha, hcross⟩ := Parts.Distinct.cons hdistinct
    exact (settles_expr hc).bind (fun _ => settles_stmt a ha.cons.1) hcross
  | ifElse c a b =>
    obtain ⟨hc, hab, hcross⟩ := Parts.Distinct.cons hdistinct
    obtain ⟨ha, hb, hcross'⟩ := hab.cons
    exact (settles_expr hc).bind (fun _ =>
      (settles_stmt a ha).bind (fun _ => settles_stmt b hb.cons.1) hcross') hcross
  | whileLoop c body =>
    obtain ⟨hc, hbody, hcross⟩ := Parts.Distinct.cons hdistinct
    exact (settles_expr hc).bind (fun _ => settles_stmt body hbody.cons.1) hcross
  | funDecl decl =>
    exact .silent_bind (bindings_declare _) fun _ => .silent_bind (bindings_define _) fun _ =>
      settles_functionBody decl (Parts.Distinct.cons hdistinct).1
  | returnWith keyword value =>
    exact .silent_bind (bindings_returnRules ctx keyword value) fun _ =>
      settles_optional hdistinct
  | classDecl decl =>
    obtain ⟨name, superclass, ms, ss⟩ := decl
    obtain ⟨hsuper, hmembers, hcross⟩ := Parts.Distinct.append hdistinct
    obtain ⟨hss, hms, hcross'⟩ := (hmembers.perm List.perm_append_comm).append
    have hbody : ∀ role : ClassRole, (do
        statics { ctx with cls := .static } ss
        withThis name (methods { ctx with cls := role } ms) : Walk Unit).Settles
          (ss.map .function ++ ms.map .function) := fun role =>
      (settles_statics ss hss).bind (fun _ => Settles.inScope
        (.silent_bind (bindings_provide _ _) fun _ => settles_methods ms hms)) hcross'
    have hwhole : ∀ role : ClassRole, (withSuper (superclassToken name superclass) superclass do
        statics { ctx with cls := .static } ss
        withThis name (methods { ctx with cls := role } ms) : Walk Unit).Settles
          (ms.map .function ++ ss.map .function) := by
      intro role
      have hperm : ∀ part ∈ ss.map Part.function ++ ms.map Part.function,
          ∃ part' ∈ ms.map Part.function ++ ss.map Part.function, ∀ id, part.Has id → part'.Has id :=
        fun part hpart => ⟨part, List.perm_append_comm.mem_iff.1 hpart, fun _ hid => hid⟩
      cases superclass with
      | none => exact (hbody role).mono hperm
      | some e =>
        exact (Settles.inScope (.silent_bind (bindings_provide _ _) fun _ => hbody role)).mono hperm
    exact .silent_bind (bindings_declare name) fun _ => (settles_superclassClause hsuper).bind
      (fun _ => .silent_bind (bindings_define name) fun _ => hwhole _) hcross

theorem settles_stmts {ctx : Context} (ss : List Stmt) (h : Parts.Distinct (ss.map .stmt)) :
    (stmts ctx ss).Settles (ss.map .stmt) := by
  cases ss with
  | nil => exact settles_of_silent fun _ => rfl
  | cons s ss =>
    obtain ⟨hs, hss, hcross⟩ := Parts.Distinct.cons h
    exact (settles_stmt s hs).bind (fun _ => settles_stmts ss hss) hcross

theorem settles_functionBody {ctx : Context} (f : FunctionDecl)
    (h : (Part.function f).Unambiguous) : (functionBody ctx f).Settles [.function f] := by
  obtain ⟨name, ps, body⟩ := f
  refine Settles.outward (.function ⟨name, ps, body⟩) (Settles.inScope ?_)
  exact .silent_bind (bindings_params ps) fun _ => settles_stmts body (h.distinct nofun)

theorem settles_methods {ctx : Context} (ms : List FunctionDecl)
    (h : Parts.Distinct (ms.map .function)) : (methods ctx ms).Settles (ms.map .function) := by
  cases ms with
  | nil => exact settles_of_silent fun _ => rfl
  | cons m ms =>
    obtain ⟨hm, hms, hcross⟩ := Parts.Distinct.cons h
    exact (settles_functionBody m hm).bind (fun _ => settles_methods ms hms) hcross

theorem settles_statics {ctx : Context} (ms : List FunctionDecl)
    (h : Parts.Distinct (ms.map .function)) : (statics ctx ms).Settles (ms.map .function) := by
  cases ms with
  | nil => exact settles_of_silent fun _ => rfl
  | cons m ms =>
    obtain ⟨hm, hms, hcross⟩ := Parts.Distinct.cons h
    exact (settles_functionBody m hm).bind (fun _ => settles_statics ms hms) hcross

end

end Resolution

/-! ## Programs -/

/-- Where the numbers of a program are unambiguous, the walk binds nodes of the program, and each
number in one way. -/
theorem Part.Unambiguous.settles_resolve {program : List Stmt}
    (h : (Part.program program).Unambiguous) :
    (∀ b ∈ (resolve program).bindings, (Part.program program).Has b.id) ∧
      ∀ b ∈ (resolve program).bindings, ∀ b' ∈ (resolve program).bindings, b.id = b'.id → b = b' := by
  have hwalk : (Resolution.stmts {} program).Settles [.program program] :=
    Walk.Settles.outward (.program program)
      (Resolution.settles_stmts program (h.distinct nofun))
  refine ⟨fun b hb => ?_, (hwalk []).2⟩
  obtain ⟨part, hpart, hid⟩ := (hwalk []).1 b hb
  rwa [List.mem_singleton.1 hpart] at hid

section Sequences

variable {fresh : NodeId} {sources : List (List Token)} {i j : Nat} {parsed parsed' : Parsed}

theorem unambiguous_of_mem_parseAll (h : parsed ∈ parseAll fresh sources) :
    (Part.program parsed.statements).Unambiguous := by
  obtain ⟨k, hspread⟩ := spread_parseAll fresh sources
  exact hspread.unambiguous _ (List.mem_map_of_mem h)

/-- A number is in one of the programs only. -/
theorem index_eq_of_parseAll (hi : (parseAll fresh sources)[i]? = some parsed)
    (hj : (parseAll fresh sources)[j]? = some parsed')
    (hid : (Part.program parsed.statements).Has id)
    (hid' : (Part.program parsed'.statements).Has id) : i = j := by
  obtain ⟨k, hspread⟩ := spread_parseAll fresh sources
  refine Part.index_eq_of_pairwise hspread.apart ?_ ?_ hid hid'
  · rw [List.getElem?_map, hi, Option.map_some]
  · rw [List.getElem?_map, hj, Option.map_some]

/-- A number is bound in one way in all the programs. -/
theorem binding_eq_of_parseAll (hi : (parseAll fresh sources)[i]? = some parsed)
    (hj : (parseAll fresh sources)[j]? = some parsed') {b b' : Binding}
    (hb : b ∈ (resolve parsed.statements).bindings)
    (hb' : b' ∈ (resolve parsed'.statements).bindings) (hid : b.id = b'.id) : i = j ∧ b = b' := by
  obtain ⟨hhas, hsame⟩ :=
    (unambiguous_of_mem_parseAll (List.mem_of_getElem? hi)).settles_resolve
  obtain ⟨hhas', -⟩ := (unambiguous_of_mem_parseAll (List.mem_of_getElem? hj)).settles_resolve
  obtain rfl := index_eq_of_parseAll hi hj (hhas b hb) (hid ▸ hhas' b' hb')
  cases hi.symm.trans hj
  exact ⟨rfl, hsame b hb b' hb' hid⟩

end Sequences

/-- Programs that are read one after the other, whatever is reported while they are read: two nodes
with one number are in one program, at the same place or at corresponding places in the copies of a
left operand of `??`. The walks through the programs, whatever they report, bind a number in one
way. So if all bindings are recorded, then for a number the distance of each of them is recorded. -/
theorem bindings_unambiguous (fresh : NodeId) (sources : List (List Token)) :
    (∀ (i j : Nat) (parsed parsed' : Parsed), (parseAll fresh sources)[i]? = some parsed →
      (parseAll fresh sources)[j]? = some parsed' →
        (∀ p q id, (Part.program parsed.statements).numberAt? p = some id →
          (Part.program parsed'.statements).numberAt? q = some id →
            i = j ∧ (Part.program parsed.statements).Corresponds p q) ∧
        ∀ b ∈ (resolve parsed.statements).bindings, ∀ b' ∈ (resolve parsed'.statements).bindings,
          b.id = b'.id → i = j ∧ b = b') ∧
      ∀ parsed ∈ parseAll fresh sources, ∀ b ∈ (resolve parsed.statements).bindings,
        (Locals.noteAll ∅ ((parseAll fresh sources).flatMap fun parsed =>
          (resolve parsed.statements).bindings))[b.id]? = b.depth := by
  refine ⟨fun i j parsed parsed' hi hj => ⟨fun p q id hp hq => ?_, fun b hb b' hb' hid => ?_⟩,
    fun parsed hparsed b hb => ?_⟩
  · obtain rfl := index_eq_of_parseAll hi hj ⟨p, hp⟩ ⟨q, hq⟩
    cases hi.symm.trans hj
    exact ⟨rfl, unambiguous_of_mem_parseAll (List.mem_of_getElem? hi) p q id hp hq⟩
  · exact binding_eq_of_parseAll hi hj hb hb' hid
  · obtain ⟨i, hi⟩ := List.mem_iff_getElem?.1 hparsed
    refine Locals.getElem?_noteAll (fun b' hb' hid => ?_) (by simp)
      ⟨b, List.mem_flatMap.2 ⟨parsed, hparsed, hb⟩, rfl⟩
    obtain ⟨parsed', hparsed', hb'⟩ := List.mem_flatMap.1 hb'
    obtain ⟨j, hj⟩ := List.mem_iff_getElem?.1 hparsed'
    rw [(binding_eq_of_parseAll hj hi hb' hb hid).2]

/-- In `(a ?? b) ?? c` the name `a` stands four times, and the first and the last of these places
correspond. -/
theorem bindings_unambiguous_nested :
    let symbol (s : Symbol) (text : String) := Token.ofSymbol s text 1
    let tokens := [symbol .leftParen "(", symbol .identifier "a", symbol .questionQuestion "??",
      symbol .identifier "b", symbol .rightParen ")", symbol .questionQuestion "??",
      symbol .identifier "c", symbol .semicolon ";"]
    let program := Part.program (parse 0 tokens).statements
    program.numberAt? [0, 0, 0, 0, 0, 0, 0] = some 0 ∧ program.numberAt? [0, 0, 1, 0, 1] = some 0 ∧
      program.Corresponds [0, 0, 0, 0, 0, 0, 0] [0, 0, 1, 0, 1] := by
  intro symbol tokens program
  have hfirst : program.numberAt? [0, 0, 0, 0, 0, 0, 0] = some 0 := by decide +kernel
  have hlast : program.numberAt? [0, 0, 1, 0, 1] = some 0 := by decide +kernel
  have hnodes :=
    ((bindings_unambiguous 0 [tokens]).1 0 0 (parse 0 tokens) (parse 0 tokens) rfl rfl).1
  exact ⟨hfirst, hlast, (hnodes _ _ 0 hfirst hlast).2⟩

end Lox

import Lox.Proofs.Scope.Visits
import Lox.Proofs.Syntax.Likeness

/-!
# Scopes of blocks that declare nothing

A block may be called flat if none of its statements declares anything where it stands. Then its
scope has no names, so it is not that of a variable, and the distances of variables may be counted
without it.
-/

namespace Lox

/-- A statement that declares nothing where it stands. -/
def Stmt.Quiet : Stmt → Prop
  | .varDecl .. | .funDecl _ | .classDecl _ => False
  | .ifThen _ a => a.Quiet
  | .ifElse _ a b => a.Quiet ∧ b.Quiet
  | .whileLoop _ body => body.Quiet
  | .expression _ | .print _ | .block _ | .returnWith .. => True

theorem Stmt.WellFormed.quiet {s : Stmt} (h : s.WellFormed) (hdeclared : s.declared? = none) :
    s.Quiet := by
  cases s with
  | varDecl | funDecl | classDecl => cases hdeclared
  | ifThen c a => exact h.2.2.quiet h.2.1
  | ifElse c a b => exact ⟨h.2.1.2.quiet h.2.1.1, h.2.2.2.quiet h.2.2.1⟩
  | whileLoop c body => exact h.2.2.quiet h.2.1
  | expression | print | block | returnWith => trivial

theorem Stmt.Quiet.declared? {s : Stmt} (h : s.Quiet) : s.declared? = none := by
  cases s with
  | varDecl | funDecl | classDecl => cases h
  | _ => rfl

/-- What is flat are blocks of statements that declare nothing. -/
def Flattens (flat : List Stmt → Bool) : Prop := ∀ body, flat body = true → ∀ s ∈ body, s.Quiet

/-! ## Distances -/

/-- Whether a scope belongs to a flat block. -/
def Region.isFlat (flat : List Stmt → Bool) : Region → Bool
  | .block body => flat body
  | .call _ | .receiver _ | .superclass _ => false

namespace Layers

variable (flat : List Stmt → Bool)

/-- The distance of a scope that does not count those of flat blocks. -/
def thin : List Layer → Nat → Nat
  | [], d => d
  | _ :: _, 0 => 0
  | l :: layers, d + 1 => if l.region.isFlat flat then thin layers d else thin layers d + 1

/-- The scope at a distance is not that of a flat block. -/
def Solid (layers : List Layer) (d : Nat) : Prop :=
  ∀ l, layers[d]? = some l → l.region.isFlat flat = false

variable {flat} {l : Layer} {layers layers' : List Layer} {d : Nat}

theorem solid_nil : Solid flat [] d := nofun

@[simp] theorem thin_zero : thin flat layers 0 = 0 := by cases layers <;> rfl

theorem Solid.tail (h : Solid flat (l :: layers) (d + 1)) : Solid flat layers d := h

theorem thin_succ_of_solid (h : Solid flat layers d) :
    thin flat layers (d + 1) = thin flat layers d + 1 := by
  induction layers generalizing d with
  | nil => rfl
  | cons l layers ih =>
    cases d with
    | zero => simp [thin, h l rfl]
    | succ d =>
      rw [thin, ih h.tail, thin]
      split <;> rfl

/-- Without flat blocks all scopes count. -/
theorem isFlat_false (region : Region) : region.isFlat (fun _ => false) = false := by
  cases region <;> rfl

theorem solid_false : Solid (fun _ => false) layers d := fun l _ => isFlat_false l.region

theorem thin_false : thin (fun _ => false) layers d = d := by
  induction d with
  | zero => exact thin_zero
  | succ d ih => rw [thin_succ_of_solid solid_false, ih]

theorem Solid.congr (h : Solid flat layers d)
    (hregions : layers'.map Layer.region = layers.map Layer.region) : Solid flat layers' d := by
  intro l hl
  have hregion : (layers.map Layer.region)[d]? = some l.region := by
    rw [← hregions, List.getElem?_map, hl]
    rfl
  obtain ⟨l', hl', heq⟩ := by simpa using hregion
  rw [← heq]
  exact h l' hl'

@[simp] theorem regions_declare (name : String) :
    (declare name layers).map Layer.region = layers.map Layer.region := by
  cases layers <;> rfl

@[simp] theorem regions_await (name : String) :
    (await name layers).map Layer.region = layers.map Layer.region := by
  cases layers <;> rfl

@[simp] theorem regions_after (s : Stmt) :
    (after layers s).map Layer.region = layers.map Layer.region := by
  unfold after
  split
  · exact regions_declare _
  · rfl

end Layers

theorem FunctionDecl.visits_eq (f : FunctionDecl) (cls : ClassRole) (layers : List Layer) :
    f.visits cls layers = Stmts.visits cls (.call f :: layers) f.body := by
  cases f
  rfl

/-! ## Scopes without names -/

section

variable {flat : List Stmt → Bool} {layers : List Layer} {name : String}

/-- The scopes of flat blocks have no names. -/
def Layers.Bare (flat : List Stmt → Bool) (layers : List Layer) : Prop :=
  ∀ l ∈ layers, l.region.isFlat flat = true → l.names = []

namespace Layers.Bare

theorem nil : Bare flat [] := List.forall_mem_nil _

theorem cons {l : Layer} (h : Bare flat layers)
    (hl : l.region.isFlat flat = true → l.names = []) : Bare flat (l :: layers) :=
  List.forall_mem_cons.2 ⟨hl, h⟩

/-- Something is declared in a scope that is not that of a flat block. -/
theorem declare (h : Bare flat layers) (hsolid : Solid flat layers 0) (name : String) :
    Bare flat (declare name layers) := by
  cases layers with
  | nil => exact h
  | cons l layers =>
    refine cons (List.forall_mem_cons.1 h).2 fun hl => ?_
    rw [hsolid l rfl] at hl
    cases hl

theorem await (h : Bare flat layers) (hsolid : Solid flat layers 0) (name : String) :
    Bare flat (await name layers) := by
  cases layers with
  | nil => exact h
  | cons l layers =>
    refine cons (List.forall_mem_cons.1 h).2 fun hl => ?_
    rw [hsolid l rfl] at hl
    cases hl

/-- The scope that declares a name is not that of a flat block. -/
theorem solid (h : Bare flat layers) {d : Nat} (hd : depth? layers name = some d) :
    Solid flat layers d := by
  intro l hl
  obtain ⟨hlt, hget, -⟩ := List.findIdx?_eq_some_iff_getElem.1 hd
  obtain rfl : layers[d] = l := by simpa [hlt] using hl
  cases hflat : layers[d].region.isFlat flat with
  | false => rfl
  | true => simp [h _ (List.getElem_mem hlt) hflat] at hget

/-- The distances of variables without the scopes of flat blocks. -/
theorem depth?_filter (h : Bare flat layers) (name : String) :
    depth? (layers.filter fun l => !l.region.isFlat flat) name =
      (depth? layers name).map (thin flat layers) := by
  induction layers with
  | nil => rfl
  | cons l layers ih =>
    obtain ⟨hl, hlayers⟩ := List.forall_mem_cons.1 h
    rw [List.filter_cons, depth?_cons]
    cases hflat : l.region.isFlat flat with
    | true =>
      simp only [Bool.not_true, Bool.false_eq_true, if_false, ih hlayers, hl hflat,
        List.not_mem_nil, Option.map_map]
      congr 1
      funext d
      simp [thin, hflat]
    | false =>
      simp only [Bool.not_false, if_true, depth?_cons, ih hlayers]
      split
      · rfl
      · simp only [Option.map_map]
        congr 1
        funext d
        simp [thin, hflat]

end Layers.Bare

/-- The binding of a node, if the scopes of flat blocks are not counted. -/
def Visit.direct (flat : List Stmt → Bool) (v : Visit) : Binding :=
  ⟨v.id, v.name, Layers.depth? (v.layers.filter fun l => !l.region.isFlat flat) v.name⟩

end

/-- A node to which the scopes of flat blocks do not matter: they have no names, and a reference to
the superclass is the keyword for it. -/
structure Visit.Indifferent (flat : List Stmt → Bool) (v : Visit) : Prop where
  bare : Layers.Bare flat v.layers
  superclass : v.use = .superclass → v.name = "super"

section

variable {flat : List Stmt → Bool} {cls : ClassRole} {layers : List Layer}

theorem Expr.indifferent_visits {e : Expr} (he : e.WellFormed) (h : Layers.Bare flat layers) :
    ∀ v ∈ e.visits cls layers, v.Indifferent flat := fun v hv =>
  ⟨by rw [(e.mem_visits hv).2]; exact h, (e.keyword_of_mem_visits he hv).2⟩

theorem Expr.indifferent_optionVisits {value : Option Expr} (hvalue : OptionWellFormed value)
    (h : Layers.Bare flat layers) : ∀ v ∈ optionVisits cls layers value, v.Indifferent flat := by
  cases value with
  | none => exact nofun
  | some e => exact e.indifferent_visits hvalue h

end

mutual

/-- The scopes of flat blocks do not matter to the nodes of a statement. -/
theorem Stmt.indifferent_visits {flat : List Stmt → Bool} {cls : ClassRole} {layers : List Layer}
    (hflat : Flattens flat) (s : Stmt) (hs : s.WellFormed) (h : Layers.Bare flat layers)
    (hquiet : Layers.Solid flat layers 0 ∨ s.Quiet) :
    ∀ v ∈ s.visits cls layers, v.Indifferent flat := by
  intro v hv
  cases s with
  | expression e => exact Expr.indifferent_visits hs h v hv
  | print e => exact Expr.indifferent_visits hs h v hv
  | varDecl name value =>
    exact Expr.indifferent_optionVisits hs.2 (h.await (hquiet.resolve_right id) _) v hv
  | block body =>
    refine Stmts.indifferent_visits hflat body hs (h.cons fun _ => rfl) ?_ v hv
    cases hbody : flat body with
    | true => exact .inr (hflat body hbody)
    | false =>
      refine .inl fun l hl => ?_
      cases hl
      exact hbody
  | ifThen c a =>
    exact (List.mem_append.1 hv).elim (Expr.indifferent_visits hs.1 h v)
      (a.indifferent_visits hflat hs.2.2 h hquiet v)
  | ifElse c a b =>
    exact (List.mem_append.1 hv).elim (Expr.indifferent_visits hs.1 h v) fun hv =>
      (List.mem_append.1 hv).elim
        (a.indifferent_visits hflat hs.2.1.2 h (hquiet.imp id And.left) v)
        (b.indifferent_visits hflat hs.2.2.2 h (hquiet.imp id And.right) v)
  | whileLoop c body =>
    exact (List.mem_append.1 hv).elim (Expr.indifferent_visits hs.1 h v)
      (body.indifferent_visits hflat hs.2.2 h hquiet v)
  | funDecl decl =>
    exact decl.indifferent_visits hflat hs (h.declare (hquiet.resolve_right id) _) v hv
  | returnWith keyword value => exact Expr.indifferent_optionVisits hs h v hv
  | classDecl decl =>
    obtain ⟨name, superclass, methods, statics⟩ := decl
    obtain ⟨-, hsuper, hmethods, hstatics⟩ := hs
    have hsolid : Layers.Solid flat layers 0 := hquiet.resolve_right id
    have hlayers : Layers.Bare flat
        (ClassDecl.layers ⟨name, superclass, methods, statics⟩ layers) := by
      unfold ClassDecl.layers
      split
      · exact h.declare hsolid _
      · exact (h.declare hsolid _).cons nofun
    rcases List.mem_append.1 hv with hv | hv
    · exact Expr.indifferent_optionVisits hsuper.option (h.await hsolid _) v hv
    · rcases List.mem_append.1 hv with hv | hv
      · obtain ⟨m, hm, hv⟩ := FunctionDecls.mem_staticVisits.1 hv
        exact FunctionDecls.indifferent_visits hflat statics hstatics m hm hlayers v hv
      · obtain ⟨m, hm, hv⟩ := FunctionDecls.mem_methodVisits.1 hv
        have hreceiver : Layers.Bare flat (.receiver m :: _) := hlayers.cons nofun
        exact FunctionDecls.indifferent_visits hflat methods hmethods m hm hreceiver v hv

/-- The scopes of flat blocks do not matter to the nodes of statements. -/
theorem Stmts.indifferent_visits {flat : List Stmt → Bool} {cls : ClassRole}
    {layers : List Layer} (hflat : Flattens flat) (ss : List Stmt) (hss : Stmts.WellFormed ss)
    (h : Layers.Bare flat layers) (hquiet : Layers.Solid flat layers 0 ∨ ∀ s ∈ ss, s.Quiet) :
    ∀ v ∈ Stmts.visits cls layers ss, v.Indifferent flat := by
  cases ss with
  | nil => simp [Stmts.visits]
  | cons s ss =>
    intro v hv
    refine (List.mem_append.1 hv).elim (s.indifferent_visits hflat hss.1 h
      (hquiet.imp id fun hss => hss s List.mem_cons_self) v) fun hv => ?_
    refine Stmts.indifferent_visits hflat ss hss.2 ?_ ?_ v hv
    · unfold Layers.after
      split
      case h_1 name hname =>
        refine h.declare (hquiet.resolve_right fun hss => ?_) _
        rw [(hss s List.mem_cons_self).declared?] at hname
        cases hname
      case h_2 => exact h
    · exact hquiet.imp (·.congr (Layers.regions_after s))
        fun hss s hs => hss s (List.mem_cons_of_mem _ hs)

/-- The scopes of flat blocks do not matter to the nodes of a function. -/
theorem FunctionDecl.indifferent_visits {flat : List Stmt → Bool} {cls : ClassRole}
    {layers : List Layer} (hflat : Flattens flat) (f : FunctionDecl) (hf : f.WellFormed)
    (h : Layers.Bare flat layers) : ∀ v ∈ f.visits cls layers, v.Indifferent flat := by
  obtain ⟨name, params, body⟩ := f
  refine Stmts.indifferent_visits hflat body hf.2.2 (h.cons nofun) (.inl fun l hl => ?_)
  cases hl
  rfl

theorem FunctionDecls.indifferent_visits {flat : List Stmt → Bool} (hflat : Flattens flat)
    (ms : List FunctionDecl) (hms : FunctionDecls.WellFormed ms) :
    ∀ m ∈ ms, ∀ {cls layers}, Layers.Bare flat layers →
      ∀ v ∈ m.visits cls layers, v.Indifferent flat := by
  cases ms with
  | nil => nofun
  | cons m ms =>
    exact List.forall_mem_cons.2 ⟨m.indifferent_visits hflat hms.1,
      FunctionDecls.indifferent_visits hflat ms hms.2⟩

end

end Lox

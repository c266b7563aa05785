import Lox.Proofs.Scope.Closing
import Lox.Proofs.Scope.Enforcement

/-!
# Names that nothing reads

What is noted of the names of a scope does not depend on what else a walk reports: a name keeps its
first declaration, and a node that reads a name counts for the innermost scope that declares the
name before the node. So a closed scope reports the first declarations of the names that no node in
it reads.
-/

namespace Lox

/-! ## What a scope knows at its end -/

def firstDeclaration (ds : List Token) (x : String) : Option Token := ds.find? fun t => t.lexeme == x

namespace Region

/-- The first declaration in a scope of a name to which no node that reads it is bound. -/
def Unread (region : Region) (t : Token) : Prop :=
  firstDeclaration region.declarations t.lexeme = some t ∧ ¬ region.Reads t.lexeme

end Region

/-- At the end of a scope the declarations that nothing reads are reported, by line and then by
text, however the names of the scope are listed. -/
def Closing.Exact (c : Closing) : Prop :=
  ∀ entries : List (String × Variable), entries.Perm c.scope.entries →
    Scope.unused ⟨entries⟩ = c.scope.unused ∧ (Scope.unused ⟨entries⟩).Pairwise Token.Before ∧
      ∀ t, t ∈ Scope.unused ⟨entries⟩ ↔ ∃ region ∈ c.region, region.Unread t

theorem Closing.exact_of_scope {c : Closing} (hdistinct : c.scope.Distinct)
    (hlabeled : c.scope.Labeled)
    (hmem : ∀ t, t ∈ c.scope.unused ↔ ∃ region ∈ c.region, region.Unread t) : c.Exact := by
  intro entries hperm
  rw [Scope.unused_perm hdistinct hlabeled hperm]
  exact ⟨rfl, Scope.pairwise_unused hdistinct hlabeled, hmem⟩

/-- The declaration of a name in the scope that has `j` scopes around it. -/
def Scopes.declaration? : List Scope → Nat → String → Option Token
  | [], _, _ => none
  | scope :: outer, j, x =>
    if j = outer.length then (scope.get? x).map Variable.token else declaration? outer j x

namespace Scopes

theorem declaration?_cons_of_lt {scope : Scope} {outer : List Scope} {j : Nat} {x : String}
    (h : j < outer.length) : declaration? (scope :: outer) j x = declaration? outer j x := by
  rw [declaration?, if_neg (by omega)]

theorem declaration?_cons_length {scope : Scope} {outer : List Scope} {x : String} :
    declaration? (scope :: outer) outer.length x = (scope.get? x).map Variable.token := by
  rw [declaration?, if_pos rfl]

theorem declaration?_congr {scope scope' : Scope} {outer : List Scope} {j : Nat} {x : String}
    (h : (scope'.get? x).map Variable.token = (scope.get? x).map Variable.token) :
    declaration? (scope' :: outer) j x = declaration? (scope :: outer) j x := by
  simp only [declaration?, h]

theorem length_markUsed (name : String) (scopes : List Scope) :
    (markUsed name scopes).length = scopes.length := by
  induction scopes with
  | nil => rfl
  | cons scope outer ih =>
    unfold markUsed
    split <;> simp [ih]

theorem declaration?_markUsed (name : String) (scopes : List Scope) (j : Nat) (x : String) :
    declaration? (markUsed name scopes) j x = declaration? scopes j x := by
  induction scopes with
  | nil => rfl
  | cons scope outer ih =>
    unfold markUsed
    split
    · refine declaration?_congr ?_
      rw [Table.get?_modify]
      split <;> simp [Function.comp_def]
    · simp only [declaration?, length_markUsed, ih]

end Scopes

/-! ## Walks -/

/-- From open scopes that declare what `layers` declare, a walk leaves scopes that declare what
`layers'` declare. It notes the names that the nodes `vs` read, and declares `ds` in the innermost
scope, where a name keeps its first declaration. What it reports of names that nothing reads is what
is reported at the end of the scopes that it closes, and those know what they should know. -/
structure Walk.Tracks (w : Walk Unit) (closings : List Scope → List Closing)
    (layers layers' : List Layer) (ds : List Token) (vs : List Visit) : Prop where
  length_eq : layers'.length = layers.length
  reported : ∀ scopes, (w scopes).findings.faults.filter Diagnostic.isNeverUsed =
    (closings scopes).flatMap Closing.reports
  declares : ∀ scopes, Declares scopes layers → Declares (w scopes).scopes layers'
  regular : ∀ scopes, Declares scopes layers → Scopes.Regular scopes →
    Scopes.Regular (w scopes).scopes
  used : ∀ scopes, Declares scopes layers → ∀ x j, x ≠ "this" → x ≠ "super" → j < layers.length →
    (Scopes.Used (w scopes).scopes j x ↔ Scopes.Used scopes j x ∨ ∃ v ∈ vs, v.Reads x j)
  declared : ∀ scopes, Declares scopes layers →
    ∀ x j, x ≠ "this" → x ≠ "super" → j < layers.length →
      Scopes.declaration? (w scopes).scopes j x = (Scopes.declaration? scopes j x).or
      (if j + 1 = layers.length then firstDeclaration ds x else none)
  exact : ∀ scopes, Declares scopes layers → Scopes.Regular scopes →
    ∀ c ∈ closings scopes, c.Exact

namespace Walk

variable {layers layers₁ layers₂ : List Layer} {ds ds' : List Token} {vs us : List Visit}
  {closings closings' : List Scope → List Closing}

/-- A walk that leaves the scopes as they are and reports nothing of names that nothing reads. -/
theorem tracks_of_silent {w : Walk Unit} (hscopes : ∀ scopes, (w scopes).scopes = scopes)
    (hfaults : ∀ scopes, ∀ d ∈ (w scopes).findings.faults, d.isNeverUsed = false)
    (hvs : ∀ v ∈ vs, v.use ≠ .read) : w.Tracks (fun _ => []) layers layers [] vs where
  length_eq := rfl
  reported scopes := by simpa [List.filter_eq_nil_iff] using hfaults scopes
  declares scopes h := by rwa [hscopes]
  regular scopes _ hr := by rwa [hscopes]
  used scopes _ x j _ _ _ := by
    rw [hscopes, or_iff_left]
    rintro ⟨v, hv, hread, -⟩
    exact hvs v hv hread
  declared scopes _ x j _ _ _ := by simp [hscopes, firstDeclaration]
  exact := by simp

theorem tracks_pure : Tracks (pure ()) (fun _ => []) layers layers [] [] :=
  tracks_of_silent (fun _ => rfl) (by simp) (by simp)

/-- One walk and then another. -/
theorem Tracks.bind {w w' : Walk Unit} (hw : w.Tracks closings layers layers₁ ds vs)
    (hf : w'.Tracks closings' layers₁ layers₂ ds' us) :
    (w >>= fun _ => w').Tracks (fun scopes => closings scopes ++ closings' (w scopes).scopes)
      layers layers₂
      (ds ++ ds') (vs ++ us) where
  length_eq := hf.length_eq.trans hw.length_eq
  reported scopes := by
    simp only [bind_apply, Findings.faults_append, List.filter_append, hw.reported, hf.reported,
      List.flatMap_append]
  declares scopes h := hf.declares _ (hw.declares scopes h)
  regular scopes h hr := hf.regular _ (hw.declares scopes h) (hw.regular scopes h hr)
  used scopes h x j hthis hsuper hj := by
    rw [bind_apply]
    simp only
    rw [hf.used _ (hw.declares scopes h) x j hthis hsuper (hw.length_eq ▸ hj),
      hw.used scopes h x j hthis hsuper hj, or_assoc]
    simp only [List.mem_append, or_and_right, exists_or]
  declared scopes h x j hthis hsuper hj := by
    rw [bind_apply]
    simp only
    rw [hf.declared _ (hw.declares scopes h) x j hthis hsuper (hw.length_eq ▸ hj),
      hw.declared scopes h x j hthis hsuper hj, hw.length_eq, Option.or_assoc]
    split <;> simp [firstDeclaration, List.find?_append]
  exact scopes h hr c hc := by
    rcases List.mem_append.1 hc with hc | hc
    · exact hw.exact scopes h hr c hc
    · exact hf.exact _ (hw.declares scopes h) (hw.regular scopes h hr) c hc

/-- A walk that declares, reads and closes nothing, and then another. -/
theorem Tracks.silent_bind {w w' : Walk Unit} (hw : w.Tracks (fun _ => []) layers layers₁ [] [])
    (hf : w'.Tracks closings' layers₁ layers₂ ds' us) :
    (w >>= fun _ => w').Tracks (fun scopes => closings' (w scopes).scopes) layers layers₂ ds' us :=
  hw.bind hf

/-- A walk, and then one that declares, reads and closes nothing. -/
theorem Tracks.bind_silent {w w' : Walk Unit} (hw : w.Tracks closings layers layers₁ ds vs)
    (hf : w'.Tracks (fun _ => []) layers₁ layers₂ [] []) :
    (w >>= fun _ => w').Tracks closings layers layers₂ ds vs := by
  simpa using hw.bind hf

theorem isNeverUsed_scoping {site : Site} {fault : ScopeFault} (h : fault ≠ .neverUsed) :
    (Diagnostic.scoping site fault).isNeverUsed = false := by
  cases fault <;> first | rfl | exact absurd rfl h

theorem tracks_report {t : Token} {fault : ScopeFault} (h : fault ≠ .neverUsed)
    (hvs : ∀ v ∈ vs, v.use ≠ .read) : Tracks (report t fault) (fun _ => []) layers layers [] vs :=
  tracks_of_silent (fun _ => rfl) (fun _ _ hd => List.mem_singleton.1 hd ▸ isNeverUsed_scoping h) hvs

/-- A report of another kind, and then a walk. -/
theorem Tracks.report_bind {t : Token} {fault : ScopeFault} {w : Walk Unit}
    (h : fault ≠ .neverUsed) (hw : w.Tracks closings layers layers₁ ds vs) :
    (report t fault >>= fun _ => w).Tracks closings layers layers₁ ds vs :=
  (tracks_report h (by simp)).silent_bind hw

/-- What a scope belongs to does not matter. -/
theorem Tracks.renameRegion {w : Walk Unit} {l : Layer}
    (hw : w.Tracks closings (l :: layers) (l :: layers₁) ds vs) (region : Region) :
    w.Tracks closings ({ l with region := region } :: layers) ({ l with region := region } :: layers₁)
      ds vs := by
  have hnames : ∀ {scopes ls}, Declares scopes ({ l with region := region } :: ls) →
      Declares scopes (l :: ls) := by
    rintro _ _ (_ | ⟨hs, h⟩)
    exact .cons hs h
  refine ⟨by simpa using hw.length_eq, hw.reported, fun scopes h => ?_,
    fun scopes h => hw.regular scopes (hnames h), fun scopes h => hw.used scopes (hnames h),
    fun scopes h => hw.declared scopes (hnames h), fun scopes h => hw.exact scopes (hnames h)⟩
  have hafter := hw.declares scopes (hnames h)
  generalize (w scopes).scopes = out at hafter ⊢
  obtain _ | ⟨hs, h⟩ := hafter
  exact .cons hs h

/-- A name that the scope has already keeps its first declaration. -/
theorem tracks_declare {name : Token} (hname : name.IsName) :
    (declare name).Tracks (fun _ => []) layers (Layers.await name.lexeme layers) [name] [] where
  length_eq := Layers.length_await _
  reported scopes := by
    cases scopes with
    | nil => rfl
    | cons scope outer =>
      unfold declare
      simp only
      split <;> rfl
  declares scopes h := by
    cases h with
    | nil => exact .nil
    | @cons scope l scopes layers hs h =>
      unfold declare
      simp only
      split
      case isTrue hc =>
        refine .cons (fun x => ?_) h
        rw [hs, List.mem_cons, or_iff_right_of_imp]
        rintro rfl
        exact (hs _).1 hc
      case isFalse =>
        refine .cons (fun x => ?_) h
        rw [Table.contains, Table.get?_insert, List.mem_cons, ← hs x, Table.contains]
        split <;> simp [*]
  regular scopes h hr := by
    cases scopes with
    | nil => exact hr
    | cons scope outer =>
      unfold declare
      simp only
      split
      · exact hr
      · obtain ⟨hscope, hrest⟩ := List.forall_mem_cons.1 hr
        exact List.forall_mem_cons.2 ⟨hscope.insert fun hp => absurd hp (not_or.2 hname), hrest⟩
  used scopes h x j _ _ _ := by
    rw [or_iff_left (by simp)]
    cases scopes with
    | nil => rfl
    | cons scope outer =>
      unfold declare
      simp only
      split
      · rfl
      case isFalse hc =>
        have hnone : scope.get? name.lexeme = none := by simpa [Table.contains] using hc
        by_cases hx : x = name.lexeme
        · subst hx
          simp [Scopes.Used, hnone]
        · exact Scopes.used_congr (by rw [Table.get?_insert_of_ne _ _ hx])
  declared scopes h x j _ _ hj := by
    cases h with
    | nil => simp at hj
    | @cons scope l scopes layers hs h =>
      have hfirst : firstDeclaration [name] x = if x = name.lexeme then some name else none := by
        by_cases hx : x = name.lexeme
        · simp [firstDeclaration, hx]
        · simp [firstDeclaration, hx, beq_false_of_ne (Ne.symm hx)]
      simp only [List.length_cons, Nat.add_right_cancel_iff, hfirst, ← h.length_eq]
      unfold declare
      simp only
      split
      case isTrue hc =>
        obtain ⟨v, hv⟩ := Option.isSome_iff_exists.1 hc
        simp only [Scopes.declaration?, report]
        by_cases hj : j = scopes.length
        · by_cases hx : x = name.lexeme
          · subst hx
            simp [hj, hv]
          · simp [hj, hx]
        · simp [hj]
      case isFalse hc =>
        have hnone : scope.get? name.lexeme = none := by simpa [Table.contains] using hc
        simp only [Scopes.declaration?, Table.get?_insert]
        by_cases hj : j = scopes.length
        · by_cases hx : x = name.lexeme
          · subst hx
            simp [hj, hnone]
          · simp [hj, hx]
        · simp [hj]
  exact := by simp

/-- Defining a name does not count as a read of it. -/
theorem tracks_define {name : Token} :
    (define name).Tracks (fun _ => []) (Layers.await name.lexeme layers)
      (Layers.declare name.lexeme layers) [] [] where
  length_eq := by simp
  reported scopes := by cases scopes <;> rfl
  declares scopes h := by
    cases layers with
    | nil =>
      cases h
      exact .nil
    | cons l outer =>
      obtain _ | ⟨hs, h⟩ := h
      refine .cons (fun x => ?_) h
      rw [← hs x, Table.contains, Table.get?_modify, Table.contains]
      split <;> simp
  regular scopes _ hr := by
    cases scopes with
    | nil => exact hr
    | cons scope outer =>
      obtain ⟨hscope, hrest⟩ := List.forall_mem_cons.1 hr
      exact List.forall_mem_cons.2 ⟨hscope.modify _ fun _ hv => hv, hrest⟩
  used scopes _ x j _ _ _ := by
    rw [or_iff_left (by simp)]
    cases scopes with
    | nil => rfl
    | cons scope outer =>
      refine Scopes.used_congr ?_
      rw [Table.get?_modify]
      split <;> simp [Function.comp_def]
  declared scopes _ x j _ _ _ := by
    have hnone : firstDeclaration [] x = none := rfl
    rw [hnone, ite_self, Option.or_none]
    cases scopes with
    | nil => rfl
    | cons scope outer =>
      refine Scopes.declaration?_congr ?_
      rw [Table.get?_modify]
      split <;> simp [Function.comp_def]
  exact := by simp

/-- Declare a name, all at once, and then walk on. -/
theorem tracks_declare_define {name : Token} {w : Walk Unit} (hname : name.IsName)
    (hw : w.Tracks closings (Layers.declare name.lexeme layers) layers₁ ds vs) :
    (do declare name; define name; w : Walk Unit).Tracks
      (fun scopes => closings ((do declare name; define name : Walk Unit) scopes).scopes) layers
      layers₁ (name :: ds) vs :=
  (tracks_declare hname).bind (tracks_define.silent_bind hw)

/-- `this` and `super` count as read from the start. -/
theorem tracks_provide {name : String} {token : Token} {l : Layer}
    (hname : name = "this" ∨ name = "super") :
    (provide name token).Tracks (fun _ => []) (l :: layers)
      ({ l with names := name :: l.names } :: layers) [] [] where
  length_eq := rfl
  reported scopes := by cases scopes <;> rfl
  declares scopes h := by
    obtain _ | ⟨hs, h⟩ := h
    refine .cons (fun x => ?_) h
    rw [Table.contains, Table.get?_insert, List.mem_cons, ← hs x, Table.contains]
    split <;> simp [*]
  regular scopes _ hr := by
    cases scopes with
    | nil => exact hr
    | cons scope outer =>
      obtain ⟨hscope, hrest⟩ := List.forall_mem_cons.1 hr
      exact List.forall_mem_cons.2 ⟨hscope.insert fun _ => rfl, hrest⟩
  used scopes _ x j hthis hsuper _ := by
    rw [or_iff_left (by simp)]
    cases scopes with
    | nil => rfl
    | cons scope outer =>
      have hx : x ≠ name := fun heq => hname.elim (heq ▸ hthis) (heq ▸ hsuper)
      exact Scopes.used_congr (by rw [Table.get?_insert_of_ne _ _ hx])
  declared scopes _ x j hthis hsuper _ := by
    have hnone : firstDeclaration [] x = none := rfl
    rw [hnone, ite_self, Option.or_none]
    cases scopes with
    | nil => rfl
    | cons scope outer =>
      have hx : x ≠ name := fun heq => hname.elim (heq ▸ hthis) (heq ▸ hsuper)
      exact Scopes.declaration?_congr (by rw [Table.get?_insert_of_ne _ _ hx])
  exact := by simp

/-- A node that reads its name. Names that the language provides are not looked at. -/
theorem tracks_bindRead {id : NodeId} {name : Token} {v : Visit} (hname : v.name = name.lexeme)
    (hlayers : v.layers = layers)
    (huse : v.use = .read ∨ v.use ≠ .read ∧ (v.name = "this" ∨ v.name = "super")) :
    (bindRead id name).Tracks (fun _ => []) layers layers [] [v] where
  length_eq := rfl
  reported _ := rfl
  declares _ h := h.markUsed _
  regular _ _ hr := hr.markUsed _
  used _ h _ _ hthis hsuper _ := h.used_markUsed_iff hname hlayers huse hthis hsuper
  declared scopes _ x j _ _ _ := by
    have hnone : firstDeclaration [] x = none := rfl
    rw [hnone, ite_self, Option.or_none]
    exact Scopes.declaration?_markUsed name.lexeme scopes j x
  exact := by simp

theorem declares_open {scopes : List Scope} {l : Layer} (hnames : l.names = [])
    (h : Declares scopes layers) : Declares (∅ :: scopes) (l :: layers) :=
  .cons (fun x => by simp [hnames, Table.contains]) h

/-- A walk in a scope of its own leaves that scope as the innermost one. -/
theorem Tracks.exists_scope {w : Walk Unit} {l l' : Layer} (hnames : l.names = [])
    (hw : w.Tracks closings (l :: layers) (l' :: layers) ds vs) {scopes : List Scope}
    (h : Declares scopes layers) :
    ∃ scope outer, (w (∅ :: scopes)).scopes = scope :: outer ∧ Declares outer layers := by
  have hafter := hw.declares _ (declares_open hnames h)
  generalize (w (∅ :: scopes)).scopes = out at hafter
  obtain _ | ⟨-, houter⟩ := hafter
  exact ⟨_, _, rfl, houter⟩

/-- What is known of the names of a scope at its end. -/
theorem Tracks.known {w : Walk Unit} {l l' : Layer} (hnames : l.names = [])
    (hw : w.Tracks closings (l :: layers) (l' :: layers) ds vs) {scopes outer : List Scope}
    {scope : Scope} (h : Declares scopes layers) (houter : Declares outer layers)
    (hscope : (w (∅ :: scopes)).scopes = scope :: outer) (x : String) (hthis : x ≠ "this")
    (hsuper : x ≠ "super") :
    (scope.get? x).map Variable.token = firstDeclaration ds x ∧
      ((∃ v, scope.get? x = some v ∧ v.used = true) ↔ ∃ v ∈ vs, v.Reads x layers.length) := by
  have hopen := declares_open (l := l) hnames h
  have hdeclared := hw.declared _ hopen x layers.length hthis hsuper (by simp)
  have hused := hw.used _ hopen x layers.length hthis hsuper (by simp)
  rw [hscope, ← houter.length_eq] at hdeclared hused
  rw [Scopes.declaration?_cons_length, houter.length_eq, ← h.length_eq,
    Scopes.declaration?_cons_length, h.length_eq] at hdeclared
  rw [Scopes.used_cons_length, houter.length_eq, ← h.length_eq, Scopes.used_cons_length,
    h.length_eq] at hused
  exact ⟨by simpa using hdeclared, by simpa using hused⟩

/-- A scope that knows of each name its first declaration and whether something reads it reports
what it should report at its end. -/
theorem exact_closing {scope : Scope} {region : Option Region} {j : Nat} (hscope : scope.Regular)
    (hknown : ∀ x, x ≠ "this" → x ≠ "super" →
      (scope.get? x).map Variable.token = firstDeclaration ds x ∧
      ((∃ v, scope.get? x = some v ∧ v.used = true) ↔ ∃ v ∈ vs, v.Reads x j))
    (hds : ∀ t ∈ ds, t.IsName)
    (hunread : ∀ t, (∃ r ∈ region, r.Unread t) ↔
      firstDeclaration ds t.lexeme = some t ∧ ¬ ∃ v ∈ vs, v.Reads t.lexeme j) :
    Closing.Exact ⟨region, scope⟩ := by
  -- A name that nothing has read is one of the program, and its declaration is its first one.
  have hentry : ∀ x v, scope.get? x = some v → v.used = false →
      firstDeclaration ds x = some v.token ∧ v.token.lexeme = x ∧ ¬ ∃ u ∈ vs, u.Reads x j := by
    intro x v hv hunused
    have hplain : ¬ (x = "this" ∨ x = "super") := fun hx => by
      rw [hscope.provided x v hx hv] at hunused
      cases hunused
    obtain ⟨htoken, hused⟩ := hknown x (not_or.1 hplain).1 (not_or.1 hplain).2
    rw [hv, Option.map_some] at htoken
    refine ⟨htoken.symm, by simpa using List.find?_some htoken.symm, fun hread => ?_⟩
    obtain ⟨u, hu, huused⟩ := hused.2 hread
    rw [Option.some.inj (hv.symm.trans hu), huused] at hunused
    cases hunused
  refine Closing.exact_of_scope hscope.distinct (fun e he hunused => ?_) fun t => ?_
  · exact (hentry e.1 e.2 ((hscope.distinct.get?_eq_some_iff _ _).2 he) hunused).2.1
  · rw [hunread, Scope.mem_unused_iff]
    constructor
    · rintro ⟨v, hv, hunused, rfl⟩
      obtain ⟨x, hx⟩ := (hscope.distinct.mem_values_iff v).1 hv
      obtain ⟨hfirst, hlexeme, hread⟩ := hentry x v hx hunused
      rw [hlexeme]
      exact ⟨hfirst, hread⟩
    · rintro ⟨hfirst, hread⟩
      obtain ⟨hthis, hsuper⟩ := hds t (List.mem_of_find?_eq_some hfirst)
      obtain ⟨htoken, hused⟩ := hknown t.lexeme hthis hsuper
      obtain ⟨v, hv, hvt⟩ := Option.map_eq_some_iff.1 (htoken.trans hfirst)
      refine ⟨v, (hscope.distinct.mem_values_iff v).2 ⟨_, hv⟩, ?_, hvt⟩
      exact Bool.eq_false_iff.2 fun hvused => hread (hused.1 ⟨v, hv, hvused⟩)

/-- A scope for a walk of its own, at the end of which the declarations that nothing reads are
reported. -/
theorem Tracks.inScope {w : Walk Unit} {l l' : Layer} (region : Option Region)
    (hnames : l.names = []) (hw : w.Tracks closings (l :: layers) (l' :: layers) ds vs)
    (hds : ∀ t ∈ ds, t.IsName)
    (hunread : ∀ t, (∃ r ∈ region, r.Unread t) ↔
      firstDeclaration ds t.lexeme = some t ∧ ¬ ∃ v ∈ vs, v.Reads t.lexeme layers.length) :
    (inScope w).Tracks (Resolution.closingsIn region w closings) layers layers [] vs := by
  have hrun : ∀ scopes, Walk.inScope w scopes =
      { closeScope (w (∅ :: scopes)).scopes with
        findings := (w (∅ :: scopes)).findings ++ (closeScope (w (∅ :: scopes)).scopes).findings } :=
    fun _ => rfl
  have hregular : ∀ {scopes}, Declares scopes layers → Scopes.Regular scopes →
      Scopes.Regular (w (∅ :: scopes)).scopes := fun h hr =>
    hw.regular _ (declares_open hnames h) (List.forall_mem_cons.2 ⟨Scope.regular_empty, hr⟩)
  refine ⟨rfl, fun scopes => ?_, fun scopes h => ?_, fun scopes h hr => ?_,
    fun scopes h x j hthis hsuper hj => ?_, fun scopes h x j hthis hsuper hj => ?_,
    fun scopes h hr c hc => ?_⟩
  · have hclose : ∀ out : List Scope,
        (closeScope out).findings.faults.filter Diagnostic.isNeverUsed =
          Closing.reports ⟨region, out.headD ∅⟩ := by
      rintro (_ | ⟨scope, outer⟩)
      · rfl
      · exact List.filter_eq_self.2 fun d hd => by
          obtain ⟨t, -, rfl⟩ := List.mem_map.1 hd
          rfl
    rw [hrun]
    simp only [Findings.faults_append, List.filter_append, hw.reported, hclose]
    simp [Resolution.closingsIn]
  all_goals obtain ⟨scope, outer, hscope, houter⟩ := hw.exists_scope hnames h
  · rw [hrun, hscope]
    exact houter
  · rw [hrun, hscope]
    exact fun s hs => hregular h hr s (hscope ▸ List.mem_cons_of_mem _ hs)
  · have hx := hw.used _ (declares_open hnames h) x j hthis hsuper (Nat.lt_succ_of_lt hj)
    rw [hscope, Scopes.used_cons_of_lt (houter.length_eq ▸ hj),
      Scopes.used_cons_of_lt (h.length_eq ▸ hj)] at hx
    rw [hrun, hscope]
    exact hx
  · have hx := hw.declared _ (declares_open hnames h) x j hthis hsuper (Nat.lt_succ_of_lt hj)
    rw [hscope, Scopes.declaration?_cons_of_lt (houter.length_eq ▸ hj),
      Scopes.declaration?_cons_of_lt (h.length_eq ▸ hj), List.length_cons, if_neg (by omega)] at hx
    rw [hrun, hscope]
    have hnone : firstDeclaration [] x = none := rfl
    rw [hnone, ite_self]
    exact hx
  · rcases List.mem_append.1 hc with hc | hc
    · exact hw.exact _ (declares_open hnames h)
        (List.forall_mem_cons.2 ⟨Scope.regular_empty, hr⟩) c hc
    · obtain rfl := List.mem_singleton.1 hc
      rw [hscope]
      exact exact_closing (hregular h hr scope (hscope ▸ List.mem_cons_self))
        (hw.known hnames h houter hscope) hds hunread

end Walk

namespace Resolution

open Walk

variable {ctx : Context} {layers : List Layer}

/-- A read of a name in its own initializer is reported, and counts all the same. -/
theorem tracks_read {cls : ClassRole} {id : NodeId} {name : Token} :
    (read id name).Tracks (fun _ => []) layers layers [] [⟨id, name.lexeme, .read, cls, layers⟩] := by
  have hbind : (bindRead id name).Tracks (fun _ => []) layers layers []
      [⟨id, name.lexeme, .read, cls, layers⟩] := tracks_bindRead rfl rfl (.inl rfl)
  have hreport : (report name .readInOwnInitializer >>= fun _ => bindRead id name).Tracks
      (fun _ => []) layers layers [] [⟨id, name.lexeme, .read, cls, layers⟩] :=
    hbind.report_bind (by decide)
  -- Which of the two walks it is depends on the scopes, and both track the same.
  have hcases : ∀ scopes, read id name scopes = bindRead id name scopes ∨
      read id name scopes =
      (report name .readInOwnInitializer >>= fun _ => bindRead id name) scopes := by
    intro scopes
    rw [read, bind_apply]
    cases (inInitializer name.lexeme scopes).value with
    | true => exact .inr rfl
    | false => exact .inl rfl
  refine ⟨rfl, fun scopes => ?_, fun scopes h => ?_, fun scopes h hr => ?_, fun scopes h => ?_,
    fun scopes h => ?_, by simp⟩
  all_goals rcases hcases scopes with heq | heq <;> rw [heq]
  · exact hbind.reported scopes
  · exact hreport.reported scopes
  · exact hbind.declares scopes h
  · exact hreport.declares scopes h
  · exact hbind.regular scopes h hr
  · exact hreport.regular scopes h hr
  · exact hbind.used scopes h
  · exact hreport.used scopes h
  · exact hbind.declared scopes h
  · exact hreport.declared scopes h

mutual

theorem tracks_expr (cls : ClassRole) (e : Expr) (he : e.WellFormed) :
    (expr ctx e).Tracks (fun _ => []) layers layers [] (e.visits cls layers) := by
  cases e with
  | literal value => exact tracks_pure
  | grouping inner => exact tracks_expr cls inner he
  | unary op operand => exact tracks_expr cls operand he.2
  | binary left op right => exact (tracks_expr cls left he.2.1).bind (tracks_expr cls right he.2.2)
  | logical left op right => exact (tracks_expr cls left he.1).bind (tracks_expr cls right he.2)
  | conditional c a b =>
    exact (tracks_expr cls c he.1).bind ((tracks_expr cls a he.2.1).bind (tracks_expr cls b he.2.2))
  | var id name => exact tracks_read
  | assign id name value =>
    exact (tracks_expr cls value he.2).bind
      (tracks_of_silent (fun _ => rfl) (by simp [bindNode]) (by simp))
  | call callee paren arguments =>
    exact (tracks_expr cls callee he.1).bind (tracks_exprs cls arguments he.2)
  | get object name => exact tracks_expr cls object he
  | set object name value =>
    exact (tracks_expr cls value he.2).bind (tracks_expr cls object he.1)
  | thisRef id keyword =>
    rw [expr, receiver]
    split
    · exact tracks_report (by decide) (by simp [Expr.visits])
    · exact tracks_report (by decide) (by simp [Expr.visits])
    · exact tracks_bindRead rfl rfl (.inr ⟨by simp, .inl he⟩)
    · exact tracks_bindRead rfl rfl (.inr ⟨by simp, .inl he⟩)
  | superRef id keyword method =>
    rw [expr, superclass]
    split
    · exact tracks_report (by decide) (by simp [Expr.visits])
    · exact tracks_report (by decide) (by simp [Expr.visits])
    · exact tracks_report (by decide) (by simp [Expr.visits])
    · exact tracks_bindRead rfl rfl (.inr ⟨by simp, .inr he⟩)

theorem tracks_exprs (cls : ClassRole) (es : List Expr) (hes : Exprs.WellFormed es) :
    (exprs ctx es).Tracks (fun _ => []) layers layers [] (Exprs.visits cls layers es) := by
  cases es with
  | nil => exact tracks_pure
  | cons e es => exact (tracks_expr cls e hes.1).bind (tracks_exprs cls es hes.2)

end

theorem tracks_optional (cls : ClassRole) (o : Option Expr) (ho : Expr.OptionWellFormed o) :
    (optional ctx o).Tracks (fun _ => []) layers layers [] (Expr.optionVisits cls layers o) := by
  cases o with
  | none => exact tracks_pure
  | some e => exact tracks_expr cls e ho

theorem tracks_params (ps : List Token) (hps : ∀ p ∈ ps, p.IsName) (l : Layer)
    (hl : l.pending = none) :
    (params ps).Tracks (fun _ => []) (l :: layers)
      ({ l with names := (ps.map Token.lexeme).reverse ++ l.names } :: layers) ps [] := by
  induction ps generalizing l with
  | nil => exact tracks_pure
  | cons p ps ih =>
    obtain ⟨hp, hps⟩ := List.forall_mem_cons.1 hps
    have hw := ih hps { l with names := p.lexeme :: l.names, pending := none } rfl
    have hnames : (ps.map Token.lexeme).reverse ++ p.lexeme :: l.names =
        ((p :: ps).map Token.lexeme).reverse ++ l.names := by simp
    rw [hnames] at hw
    rw [hl]
    exact @tracks_declare_define (l :: layers) _ _ _ _ _ _ hp hw

theorem tracks_superclassClause {cls : ClassRole} {name : Token} {o : Option Expr}
    (ho : Expr.SuperclassWellFormed o) :
    (superclassClause ctx name o).Tracks (fun _ => []) layers layers []
      (Expr.optionVisits cls layers o) := by
  cases o with
  | none => exact tracks_pure
  | some e =>
    cases e with
    | var id superName =>
      unfold superclassClause
      simp only
      split
      · exact tracks_read.report_bind (by decide)
      · exact tracks_read
    | _ => exact ho.elim

/-- The name of a class and its superclass clause, and then a walk. -/
theorem tracks_clause {cls : ClassRole} {name : Token} {o : Option Expr} {w : Walk Unit}
    {closings : List Scope → List Closing} {vs : List Visit} (hname : name.IsName)
    (ho : Expr.SuperclassWellFormed o)
    (hw : w.Tracks closings (Layers.declare name.lexeme layers) (Layers.declare name.lexeme layers)
      [] vs) :
    (do declare name; superclassClause ctx name o; define name; w : Walk Unit).Tracks
      (fun scopes => closings
        ((do declare name; superclassClause ctx name o; define name : Walk Unit) scopes).scopes)
      layers (Layers.declare name.lexeme layers) [name]
      (Expr.optionVisits cls (Layers.await name.lexeme layers) o ++ vs) :=
  (tracks_declare hname).bind ((tracks_superclassClause ho).bind (tracks_define.silent_bind hw))

theorem tracks_returnRules {keyword : Token} {value : Option Expr} :
    (returnRules ctx keyword value).Tracks (fun _ => []) layers layers [] [] := by
  have hvalue : (if value.isSome && ctx.function = .initializer then
      report keyword .returnValueFromInitializer else pure () : Walk Unit).Tracks (fun _ => [])
        layers layers [] [] := by
    split
    · exact tracks_report (by decide) (by simp)
    · exact tracks_pure
  unfold returnRules
  simp only
  split
  · exact hvalue.report_bind (by decide)
  · exact hvalue

/-- The scope of a receiver or a superclass, in which the program declares nothing. -/
theorem tracks_provided {w : Walk Unit} {name : String} (token : Token) (region : Region)
    {closings : List Scope → List Closing} {vs : List Visit}
    (hname : name = "this" ∨ name = "super")
    (hw : w.Tracks closings ({ region := region, names := [name] } :: layers)
      ({ region := region, names := [name] } :: layers) [] vs) :
    (inScope do provide name token; w).Tracks
      (closingsIn none (do provide name token; w) fun scopes =>
        closings (provide name token scopes).scopes) layers layers [] vs := by
  have hprovide : (provide name token).Tracks (fun _ => []) ({ region := region } :: layers)
      ({ region := region, names := [name] } :: layers) [] [] := tracks_provide hname
  exact (hprovide.silent_bind hw).inScope none rfl (by simp) fun t => by
    simp [firstDeclaration]

/-- The parameters, if there are some, and the statements of a block or a function. -/
theorem tracks_body {w : Walk Unit} {l l₀ : Layer} {region : Region} {ds : List Token}
    {ss : List Stmt} {closings : List Scope → List Closing} {vs : List Visit} (hl : l.names = [])
    (hw : w.Tracks closings (l :: layers) (ss.foldl Layers.after (l₀ :: layers)) ds vs)
    (hds : ∀ t ∈ ds, t.IsName) (hdeclarations : region.declarations = ds)
    (hreads : ∀ x, (∃ v ∈ vs, v.Reads x layers.length) ↔ region.Reads x) :
    (inScope w).Tracks (closingsIn (some region) w closings) layers layers [] vs := by
  obtain ⟨l', hl', -⟩ := Layers.exists_foldl_after l₀ layers ss
  rw [hl'] at hw
  refine hw.inScope (some region) hl hds fun t => ?_
  rw [hreads]
  simp [Region.Unread, hdeclarations]

theorem isName_declarations {ss : List Stmt} (hss : Stmts.WellFormed ss) :
    ∀ t ∈ ss.filterMap Stmt.declared?, t.IsName := by
  intro t ht
  obtain ⟨s, hs, hname⟩ := List.mem_filterMap.1 ht
  exact (Stmts.wellFormed_iff.1 hss s hs).isName_declared hname

mutual

/-- What a statement reports of unused names is what the scopes inside it report. -/
theorem tracks_stmt (ctx : Context) (cls : ClassRole) (layers : List Layer) (s : Stmt)
    (hs : s.WellFormed) :
    (stmt ctx s).Tracks (stmtClosings ctx s) layers (Layers.after layers s) s.declared?.toList
      (s.visits cls layers) := by
  cases s with
  | expression e => exact tracks_expr cls e hs
  | print e => exact tracks_expr cls e hs
  | varDecl name value =>
    exact (tracks_declare hs.1).bind ((tracks_optional cls value hs.2).bind_silent tracks_define)
  | block body =>
    exact tracks_body rfl (tracks_stmts ctx cls _ body hs) (isName_declarations hs) rfl
      (reads_block_iff body cls layers)
  | ifThen c a =>
    have ha := tracks_stmt ctx cls layers a hs.2.2
    rw [Layers.after, hs.2.1] at ha
    exact (tracks_expr cls c hs.1).bind ha
  | ifElse c a b =>
    have ha := tracks_stmt ctx cls layers a hs.2.1.2
    have hb := tracks_stmt ctx cls layers b hs.2.2.2
    rw [Layers.after, hs.2.1.1] at ha
    rw [Layers.after, hs.2.2.1] at hb
    exact (tracks_expr cls c hs.1).bind (ha.bind hb)
  | whileLoop c body =>
    have hbody := tracks_stmt ctx cls layers body hs.2.2
    rw [Layers.after, hs.2.1] at hbody
    exact (tracks_expr cls c hs.1).bind hbody
  | funDecl decl =>
    exact tracks_declare_define (FunctionDecl.WellFormed.isName hs)
      (tracks_functionBody _ cls _ decl hs)
  | returnWith keyword value =>
    exact tracks_returnRules.bind (tracks_optional cls value hs)
  | classDecl decl =>
    obtain ⟨name, superclass, ms, ss⟩ := decl
    obtain ⟨hname, hsuper, hms, hss⟩ := hs
    let decl : ClassDecl := ⟨name, superclass, ms, ss⟩
    have hmembers (inner : List Layer) :=
      (tracks_statics { ctx with cls := .static } inner ss hss).bind
        (tracks_provided name (.block []) (.inl rfl)
          (tracks_methods { ctx with cls := if superclass.isSome then .subclass else .plain }
            decl.role ms hms))
    cases superclass with
    | none => exact tracks_clause hname hsuper (hmembers (Layers.declare name.lexeme layers))
    | some e =>
      exact tracks_clause hname hsuper
        (tracks_provided (superclassToken name (some e)) (.superclass decl) (.inr rfl)
          (hmembers (.superclass decl :: Layers.declare name.lexeme layers)))

theorem tracks_stmts (ctx : Context) (cls : ClassRole) (layers : List Layer) (ss : List Stmt)
    (hss : Stmts.WellFormed ss) :
    (stmts ctx ss).Tracks (stmtsClosings ctx ss) layers (ss.foldl Layers.after layers)
      (ss.filterMap Stmt.declared?) (Stmts.visits cls layers ss) := by
  cases ss with
  | nil => exact tracks_pure
  | cons s ss =>
    have hw := (tracks_stmt ctx cls layers s hss.1).bind
      (tracks_stmts ctx cls (Layers.after layers s) ss hss.2)
    have hds : (s :: ss).filterMap Stmt.declared? =
        s.declared?.toList ++ ss.filterMap Stmt.declared? := by
      rw [List.filterMap_cons]
      cases s.declared? <;> rfl
    rw [hds]
    exact hw

theorem tracks_functionBody (ctx : Context) (cls : ClassRole) (layers : List Layer)
    (f : FunctionDecl) (hf : f.WellFormed) :
    (functionBody ctx f).Tracks (functionClosings ctx f) layers layers [] (f.visits cls layers) := by
  obtain ⟨name, ps, body⟩ := f
  let region : Region := .call ⟨name, ps, body⟩
  have hparams : (params ps).Tracks (fun _ => []) ({ region := region } :: layers)
      (.call ⟨name, ps, body⟩ :: layers) ps [] := by
    have h := @tracks_params layers ps hf.2.1 { region := region } rfl
    rwa [List.append_nil] at h
  refine tracks_body rfl (hparams.bind (tracks_stmts ctx cls _ body hf.2.2)) (fun t ht => ?_) rfl
    (reads_call_iff ⟨name, ps, body⟩ cls layers)
  exact (List.mem_append.1 ht).elim (hf.2.1 t) (isName_declarations hf.2.2 t)

theorem tracks_statics (ctx : Context) (layers : List Layer) (ms : List FunctionDecl)
    (hms : FunctionDecls.WellFormed ms) :
    (statics ctx ms).Tracks (staticsClosings ctx ms) layers layers []
      (FunctionDecls.staticVisits layers ms) := by
  cases ms with
  | nil => exact tracks_pure
  | cons m ms =>
    exact (tracks_functionBody _ .static layers m hms.1).bind (tracks_statics ctx layers ms hms.2)

/-- All methods are walked through in one scope, and each is in the scope of its receiver. -/
theorem tracks_methods (ctx : Context) (cls : ClassRole) {layers : List Layer} {region : Region}
    (ms : List FunctionDecl) (hms : FunctionDecls.WellFormed ms) :
    (methods ctx ms).Tracks (methodsClosings ctx ms)
      ({ region := region, names := ["this"] } :: layers)
      ({ region := region, names := ["this"] } :: layers) []
      (FunctionDecls.methodVisits cls layers ms) := by
  cases ms with
  | nil => exact tracks_pure
  | cons m ms =>
    have hm := tracks_functionBody { ctx with function := methodRole m } cls (.receiver m :: layers)
      m hms.1
    exact (hm.renameRegion region).bind (tracks_methods ctx cls ms hms.2)

end

end Resolution

/-- The names that are reported as never read, over the whole program that is read, are those that
are reported at the end of its scopes, one scope after the other. At the end of each scope the first
declaration is reported of each name that the scope declares and no node in it reads, and no other
one; in the order of the text, however the names of the scope are listed. -/
theorem unused_reports_exact (tokens : List Token) (h : ∀ t ∈ tokens, t.Spelled) (fresh : NodeId) :
    let program := (parse fresh tokens).statements
    let closings := Resolution.stmtsClosings {} program []
    (resolve program).faults.filter Diagnostic.isNeverUsed = closings.flatMap Closing.reports ∧
      (∀ region, (∃ c ∈ closings, c.region = some region) ↔
        ∃ p ∈ Stmts.parts [] program, region ∈ p.2.regions) ∧
      ∀ c ∈ closings, ∀ entries : List (String × Variable), entries.Perm c.scope.entries →
        Scope.unused ⟨entries⟩ = c.scope.unused ∧ (Scope.unused ⟨entries⟩).Pairwise Token.Before ∧
          ∀ t, t ∈ Scope.unused ⟨entries⟩ ↔ ∃ region ∈ c.region, region.Unread t := by
  intro program closings
  have htracks := Resolution.tracks_stmts {} .outside [] program (wellFormed_parse h fresh)
  refine ⟨htracks.reported [], fun region => ?_, htracks.exact [] .nil (by simp [Scopes.Regular])⟩
  rw [← Resolution.mem_closed_stmts {} [] program [] region, Resolution.closed, List.mem_filterMap]

/-- The parameter `a` keeps its first declaration and is never read, since the block further in
declares a name of its own that `g` reads. An assignment does not read `g`, and a method reads
`b`. -/
theorem unused_reports_exact_shadowed :
    let tokens := Lexer.tokensOf (Lexer.scan ("fun f(b, a) \x7b var a = 1;\n\x7b var a = f;\n" ++
      "class C \x7b m() \x7b return b; \x7d \x7d fun g() \x7b return a; \x7d\n" ++
      "g = C; class D \x7b\x7d \x7d \x7d"))
    let program := (parse 0 tokens).statements
    (∀ t ∈ tokens, t.Spelled) ∧
      (resolve program).faults.filter Diagnostic.isNeverUsed =
        [.scoping ⟨3, .lexeme "g"⟩ .neverUsed, .scoping ⟨4, .lexeme "D"⟩ .neverUsed,
          .scoping ⟨1, .lexeme "a"⟩ .neverUsed] ∧
      ∀ c ∈ Resolution.stmtsClosings {} program [], c.Exact := by
  intro tokens program
  have hspelled : ∀ t ∈ tokens, t.Spelled := fun _ => Lexer.spelled_of_mem_tokens
  exact ⟨hspelled, by decide +kernel, (unused_reports_exact tokens hspelled 0).2.2⟩

end Lox

import Lox.Proofs.Machine.Invariant

/-!
# References to variables and members

A node that refers to a variable finds it: at a recorded distance stands the frame for the
scope that declares the name, and that frame has the name. Without a recorded distance the name
is global, and only then may it be undefined. A receiver is found in every method, and a
superclass in every method of a class that has one.
-/

namespace Lox

open Exec

variable {v : Visit} {name : Token}

/-- A name that waits in its scope for its initializer is not the one that the innermost frame is to
do without. -/
def Clear [Vacancy] (m : Machine) (layers : List Layer) : Prop :=
  ∀ p ∈ Vacancy.place?, m.chain.head? = some p.1 → ∀ l ∈ layers.head?, l.pending ≠ some p.2

theorem Clear.nowhere {m : Machine} {layers : List Layer} : Clear m layers :=
  fun _ hp => by cases hp

/-- A machine is at code with the given scopes around it. -/
structure Situated [Vacancy] (vs : List Visit) (events : List Event) (m : Machine)
    (layers : List Layer) : Prop where
  inv : Inv vs events m.heap m.locals
  fits : Matches m.heap.frames events layers m.chain
  clear : Clear m layers

section

variable [Vacancy] {vs : List Visit} {before : List Event} {m : Machine} {layers : List Layer}

theorem Situated.moves {after : List Event} {m' : Machine} (h : Situated vs before m layers)
    (hmoves : Moves vs before after m m') : Situated vs after m' layers :=
  ⟨hmoves.inv, hmoves.matches_chain h.fits, by rw [Clear, hmoves.chain]; exact h.clear⟩

theorem Clear.of_settled (h : Walk.Settled layers) : Clear m layers := fun _ _ _ l hl => by
  simp [h l hl]

/-- The event of evaluating a node keeps to the invariant. -/
theorem Situated.refer (h : Situated vs before m v.layers) (hv : v ∈ vs)
    (hname : v.name = name.lexeme) :
    Inv vs (before ++ [.referred v.id name m.chain m.locals[v.id]?]) m.heap m.locals := by
  refine h.inv.refer ⟨v, hv, rfl, hname, h.inv.recorded v hv, ?_⟩ rfl
  exact h.fits.stands.mono (List.prefix_append _ _)

/-- The variable that a node reads is found at the recorded distance. -/
theorem Situated.getAt {d : Nat} (h : Situated vs before m v.layers) (hv : v ∈ vs)
    (huse : v.use = .read ∨ v.use = .receiver ∧ v.name = "this") (hd : m.locals[v.id]? = some d) :
    ∃ a, m.heap.frames.getAt m.chain d v.name = .ok a := by
  have hdepth : Layers.depth? v.layers v.name = some d := (h.inv.recorded v hv).symm.trans hd
  have hallowed := h.inv.allowed v hv
  rcases huse with huse | ⟨huse, hname⟩
  · obtain ⟨l, hl, hmem⟩ := Layers.getElem?_of_depth? hdepth
    obtain ⟨id, hid, hserves, -, hp⟩ := h.fits.exists_getElem? hl
    have hpending : l.pending ≠ some v.name := by
      rw [Visit.Allowed, huse] at hallowed
      by_cases h0 : d = 0
      · subst h0
        rw [← List.head?_eq_getElem?] at hl
        exact hallowed l hl hmem
      · simp [hp h0]
    obtain ⟨a, ha⟩ := Option.isSome_iff_exists.1 (hserves.names v.name hmem hpending)
    exact ⟨a, Frames.getAt_of_get? hid ha⟩
  · rw [Visit.Allowed, huse] at hallowed
    obtain ⟨d', method, hd', hl⟩ := (h.inv.within v hv).receiver hallowed
    rw [hname, hd'] at hdepth
    obtain rfl := Option.some.inj hdepth
    obtain ⟨id, hid, hserves, -⟩ := h.fits.exists_getElem? hl
    obtain ⟨i, hi⟩ := hserves.receiver method rfl
    exact ⟨_, by rw [hname]; exact Frames.getAt_of_get? hid hi⟩

/-- A read finds its variable, unless the name is a global one that is not defined. -/
theorem safe_lookUp (h : Situated vs before m v.layers) (hv : v ∈ vs) (hname : v.name = name.lexeme)
    (huse : v.use = .read ∨ v.use = .receiver ∧ v.name = "this") :
    Safe vs before m (lookUp v.id name) (Labels.frames.referred v.id name m) fun _ _ _ => True := by
  have hinv := h.refer hv hname
  refine Safe.get_bind ?_
  dsimp only [Labels.frames]
  cases hlocal : m.locals[v.id]? with
  | some d =>
    rw [hlocal] at hinv
    obtain ⟨a, ha⟩ := h.getAt hv huse hlocal
    rw [hname] at ha
    simp only [ha]
    exact Safe.cons (Safe.pure hinv trivial)
  | none =>
    rw [hlocal] at hinv
    simp only [Frames.get, globalChain]
    cases hget : (m.heap.frames.frame globalFrame).get? name.lexeme with
    | some a => exact Safe.cons (Safe.pure hinv trivial)
    | none => exact Safe.undefinedGlobal hinv hget

/-- An assignment finds its frame likewise, and does not fill the place that is watched. -/
theorem safe_overwrite {a : Value} (h : Situated vs before m v.layers) (hv : v ∈ vs)
    (hname : v.name = name.lexeme) (hisName : name.IsName) :
    Safe vs before m (overwrite v.id name a) (Labels.frames.referred v.id name m)
      fun _ _ _ => True := by
  have hinv := h.refer hv hname
  refine Safe.get_bind ?_
  dsimp only [Labels.frames]
  cases hlocal : m.locals[v.id]? with
  | some d =>
    rw [hlocal] at hinv
    have hdepth : Layers.depth? v.layers v.name = some d := (h.inv.recorded v hv).symm.trans hlocal
    obtain ⟨l, hl, hmem⟩ := Layers.getElem?_of_depth? hdepth
    obtain ⟨id, hid, hserves, hlt, hp⟩ := h.fits.exists_getElem? hl
    -- the frame has the name, unless the name waits there, and then it is not watched
    have hnew : ∀ p ∈ Vacancy.place?, id = p.1 → name.lexeme ≠ p.2 := by
      rintro p hplace rfl heq
      obtain ⟨-, -, hnone⟩ := h.inv.vacant p hplace
      have hpending : l.pending = some v.name := by
        refine Decidable.byContradiction fun hpending => ?_
        have hbound := hserves.names v.name hmem hpending
        rw [hname, heq, hnone] at hbound
        cases hbound
      by_cases h0 : d = 0
      · subst h0
        rw [← List.head?_eq_getElem?] at hl hid
        exact h.clear p hplace hid l hl (by rw [hpending, hname, heq])
      · rw [hp h0] at hpending
        cases hpending
    refine Safe.cons (Safe.get_bind ?_)
    rw [Frames.frameAt_of_getElem? hid]
    exact (Safe.defineIn hinv hlt hisName hnew).mono fun _ _ _ _ _ => trivial
  | none =>
    rw [hlocal] at hinv
    refine Safe.get_bind ?_
    simp only [Frames.holder, globalChain]
    cases hget : (m.heap.frames.frame globalFrame).get? name.lexeme with
    | some b =>
      rw [if_pos (by simp [Table.contains, hget])]
      have hnew : ∀ p ∈ Vacancy.place?, globalFrame = p.1 → name.lexeme ≠ p.2 := fun p hp heq =>
        absurd heq.symm (h.inv.vacant p hp).2.1
      exact Safe.cons ((Safe.defineIn hinv hinv.size hisName hnew).mono fun _ _ _ _ _ => trivial)
    | none =>
      rw [if_neg (by simp [Table.contains, hget])]
      have hfail : Safe vs before m (fail name (.undefinedVariable name.lexeme) : Exec FrameId)
          [.referred v.id name m.chain none] fun _ _ _ => False :=
        Safe.undefinedGlobal hinv hget
      exact hfail.bind_silent fun _ _ _ _ h => h.elim

/-! ## Members -/

/-- Every method that is found fits. -/
theorem Inv.findMethod? {heap : Heap} {locals : Locals} {classes : List ClassId} {name : String}
    {c : Closure} (h : Inv vs before heap locals)
    (hc : heap.findMethod? classes name = some c) : c.FitsMethod vs heap.frames before := by
  obtain ⟨i, -, hi⟩ := List.exists_of_findSome?_eq_some hc
  exact h.methods i name c hi

/-- Binding a method to its receiver makes a frame, and the closure fits. -/
theorem Inv.bindReceiver {heap : Heap} {locals : Locals} {c : Closure} {i : InstanceId}
    (h : Inv vs before heap locals) (hc : c.FitsMethod vs heap.frames before) :
    Inv vs (before ++ [.opened heap.frames.next (.receiver c.decl) c.chain])
        (heap.bindReceiver c (.instance_ i)).2 locals ∧
      (heap.bindReceiver c (.instance_ i)).1.Fits vs (heap.bindReceiver c (.instance_ i)).2.frames
        (before ++ [.opened heap.frames.next (.receiver c.decl) c.chain]) := by
  obtain ⟨cls, layers, hmatches, hsettled, hwf, hvisits⟩ := hc
  refine ⟨h.newFrame _ _ _, .inr ⟨cls, .receiver c.decl :: layers, ?_, ?_, hwf, hvisits,
    fun _ => ⟨_, _, rfl⟩⟩⟩
  · have hserves : Frame.Serves ((∅ : Frame).insert "this" (.instance_ i)) (.receiver c.decl) :=
      ⟨by simp [Layer.receiver], fun _ _ => ⟨i, Table.get?_insert_self _ _ _⟩, nofun⟩
    exact hmatches.push hsettled hserves
  · intro l hl
    obtain rfl := Option.some.inj hl
    rfl

/-- A method that is read is bound to its receiver in a frame of its own. -/
theorem safe_getMember {start : ClassId} {i : InstanceId} (h : Inv vs before m.heap m.locals) :
    Safe vs before m (getMember start i name) (getMemberTrace .frames start i name m)
      fun _ _ _ => True := by
  refine Safe.get_bind ?_
  unfold getMemberTrace
  cases hmember : m.heap.member? start i name.lexeme with
  | none => exact Safe.fail h ⟨rfl, nofun⟩
  | some member =>
    cases member with
    | field v => exact Safe.pure h trivial
    | method c =>
      have hc : c.FitsMethod vs m.heap.frames before := by
        unfold Heap.member? at hmember
        split at hmember
        · cases hmember
        · obtain ⟨c', hc', heq⟩ := Option.map_eq_some_iff.1 hmember
          cases heq
          exact h.findMethod? hc'
      obtain ⟨hinv, hfits⟩ := h.bindReceiver (i := i) hc
      have hbind : Safe vs before m (withHeap fun h => h.bindMethod c (.instance_ i))
          (Labels.frames.opened (.receiver c.decl) c.chain m) fun _ _ _ => True :=
        Safe.withHeap (hinv.newFunction hfits) (Frames.extends_push _ _) trivial
      exact hbind.bind_silent fun f m' between hmoves _ => Safe.pure hmoves.inv trivial

theorem safe_getProperty {object : Value} (h : Inv vs before m.heap m.locals) :
    Safe vs before m (getProperty object name) (getPropertyTrace .frames object name m)
      fun _ _ _ => True := by
  refine Safe.get_bind ?_
  unfold getPropertyTrace
  cases object with
  | instance_ i => exact safe_getMember h
  | class_ c =>
    cases hfield : m.heap.classField? c name.lexeme with
    | some v =>
      simp only [hfield]
      exact Safe.pure h trivial
    | none =>
      simp only [hfield]
      exact Safe.fail h ⟨rfl, nofun⟩
  | _ => exact Safe.fail h ⟨rfl, nofun⟩

/-- Storing a property changes neither frames nor methods. -/
theorem safe_setProperty {object : Value} {value : Exec Value} {events : Events}
    (h : Inv vs before m.heap m.locals)
    (hvalue : Safe vs before m value (events m) fun _ _ _ => True) :
    Safe vs before m (setProperty object name value)
      (setPropertyTrace .frames object name value events m) fun _ _ _ => True := by
  cases object with
  | instance_ i =>
    refine hvalue.bind fun v m' between hmoves _ => ?_
    have hinv : Inv vs between (m'.heap.setField i name.lexeme v) m'.locals :=
      hmoves.inv.congr rfl rfl fun _ => rfl
    have hset : Safe vs between m'
        (modify fun m => { m with heap := m.heap.setField i name.lexeme v }) []
        fun _ _ _ => True := Safe.modifyHeap hinv (.refl _) trivial
    exact hset.bind_silent fun _ _ _ hmoves _ => Safe.pure hmoves.inv trivial
  | class_ c =>
    refine hvalue.bind fun v m' between hmoves _ => ?_
    have hinv : Inv vs between (m'.heap.setClassField c name.lexeme v) m'.locals :=
      hmoves.inv.congr rfl rfl fun i => Heap.methods_setClassField _ _ _ _ _
    have hset : Safe vs between m'
        (modify fun m => { m with heap := m.heap.setClassField c name.lexeme v }) []
        fun _ _ _ => True := Safe.modifyHeap hinv (.refl _) trivial
    exact hset.bind_silent fun _ _ _ hmoves _ => Safe.pure hmoves.inv trivial
  | _ => exact Safe.fail h ⟨rfl, nofun⟩

/-- In a method of a class with a superclass, the superclass is found at the recorded distance
and the receiver one step nearer. -/
theorem safe_superMember {keyword method : Token} (h : Situated vs before m v.layers) (hv : v ∈ vs)
    (hname : v.name = keyword.lexeme) (hsuper : v.name = "super") (huse : v.use = .superclass) :
    Safe vs before m (superMember v.id keyword method)
      (Labels.frames.referred v.id keyword m ++ superMemberTrace .frames v.id keyword method m)
      fun _ _ _ => True := by
  have hinv := h.refer hv hname
  have hcls := h.inv.allowed v hv
  rw [Visit.Allowed, huse] at hcls
  have hwithin := h.inv.within v hv
  rw [hcls] at hwithin
  obtain ⟨d, receiver, decl, hd, hreceiver, hsuperclass⟩ := hwithin.superclass
  have hlocal : m.locals[v.id]? = some (d + 1) := by rw [h.inv.recorded v hv, hsuper, hd]
  obtain ⟨id, hid, hserves, -⟩ := h.fits.exists_getElem? hreceiver
  obtain ⟨i, hi⟩ := hserves.receiver receiver rfl
  obtain ⟨id', hid', hserves', -⟩ := h.fits.exists_getElem? hsuperclass
  obtain ⟨c, hc⟩ := hserves'.superclass decl rfl
  have hthis : m.heap.frames.getAt m.chain d "this" = .ok (.instance_ i) :=
    Frames.getAt_of_get? hid hi
  have hclass : m.heap.frames.getAt m.chain (d + 1) keyword.lexeme = .ok (.class_ c) := by
    rw [← hname, hsuper]
    exact Frames.getAt_of_get? hid' hc
  refine Safe.cons (Safe.get_bind ?_)
  unfold superMemberTrace
  rw [hlocal] at hinv
  simp only [hlocal, hthis, hclass]
  exact safe_getMember hinv

end

end Lox

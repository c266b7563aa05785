import Lox.Proofs.Heap.Slots
import Lox.Proofs.Machine.Traces
import Lox.Proofs.Scope.Binding

/-!
# Chains of frames and the scopes around code

A chain fits the scopes around code if its frames are those that were made for the scopes, one
after the other, with the global frame behind them, and if each frame has the names that its
scope declares so far. The frame of a receiver holds an instance and that of a superclass a
class. Frames only gain names, so a chain that fits goes on to do so.
-/

namespace Lox

variable {name : String} {d : Nat}

/-- The frames of a chain were made for the given scopes, one after the other. -/
inductive Stands (events : List Event) : List Layer → Chain → Prop
  | outermost : Stands events [] globalChain
  | inner {l : Layer} {layers : List Layer} {id : FrameId} {outer : Chain} :
      .opened id l.region outer ∈ events → Stands events layers outer →
        Stands events (l :: layers) (id :: outer)

/-- A frame has the names that a scope declares, apart from one whose initializer is not
complete, and it has what the language provides in the scope. -/
structure Frame.Serves (frame : Frame) (l : Layer) : Prop where
  names : ∀ x ∈ l.names, l.pending ≠ some x → (frame.get? x).isSome
  receiver : ∀ m, l.region = .receiver m → ∃ i, frame.get? "this" = some (.instance_ i)
  superclass : ∀ d, l.region = .superclass d → ∃ c, frame.get? "super" = some (.class_ c)

/-- A chain fits the scopes around code. Only in the innermost scope may a name wait for its
initializer. -/
inductive Matches (frames : Frames) (events : List Event) : List Layer → Chain → Prop
  | outermost : 0 < frames.size → Matches frames events [] globalChain
  | inner {l : Layer} {layers : List Layer} {id : FrameId} {outer : Chain} :
      .opened id l.region outer ∈ events → id < frames.size → (frames.frame id).Serves l →
        Walk.Settled layers → Matches frames events layers outer →
          Matches frames events (l :: layers) (id :: outer)

/-! ## Frames that gain names -/

/-- Frames that have gained names. What the language provides stays as it is. -/
structure Frames.Extends (fs fs' : Frames) : Prop where
  size : fs.size ≤ fs'.size
  bound : ∀ id < fs.size, ∀ x, ((fs.frame id).get? x).isSome → ((fs'.frame id).get? x).isSome
  provided : ∀ id < fs.size, ∀ x, x = "this" ∨ x = "super" →
    (fs'.frame id).get? x = (fs.frame id).get? x

namespace Frames

variable {fs fs' fs'' : Frames}

theorem Extends.refl (fs : Frames) : fs.Extends fs :=
  ⟨Nat.le_refl _, fun _ _ _ h => h, fun _ _ _ _ => rfl⟩

theorem Extends.trans (h : fs.Extends fs') (h' : fs'.Extends fs'') : fs.Extends fs'' where
  size := Nat.le_trans h.size h'.size
  bound id hid x hx := h'.bound id (Nat.lt_of_lt_of_le hid h.size) x (h.bound id hid x hx)
  provided id hid x hx :=
    (h'.provided id (Nat.lt_of_lt_of_le hid h.size) x hx).trans (h.provided id hid x hx)

theorem extends_push (fs : Frames) (frame : Frame) : fs.Extends (fs.push frame) where
  size := by simp
  bound id hid x hx := by rwa [frame_push_of_lt frame hid]
  provided id hid x _ := by rw [frame_push_of_lt frame hid]

theorem get?_define {fs : Frames} {id other : FrameId} (name x : String) (v : Value)
    (h : id < fs.size) : ((fs.define id name v).frame other).get? x =
      if other = id ∧ x = name then some v else (fs.frame other).get? x := by
  by_cases ho : other = id
  · subst ho
    rw [frame_define_self name v h, Table.get?_insert]
    simp
  · rw [frame_define_of_ne name v ho, if_neg (by simp [ho])]

/-- A program gives values to its own names only. -/
theorem extends_define {id : FrameId} {name : Token} (v : Value) (h : id < fs.size)
    (hname : name.IsName) : fs.Extends (fs.define id name.lexeme v) where
  size := by simp
  bound other _ x hx := by
    rw [get?_define name.lexeme x v h]
    split
    · rfl
    · exact hx
  provided other _ x hx := by
    rw [get?_define name.lexeme x v h, if_neg]
    rintro ⟨-, rfl⟩
    exact hx.elim hname.1 hname.2

end Frames

/-! ## Chains -/

section

variable {frames frames' : Frames} {events events' : List Event} {l : Layer} {layers : List Layer}
  {chain : Chain} {id : FrameId}

theorem Frame.Serves.mono (h : (frames.frame id).Serves l) (hid : id < frames.size)
    (hext : frames.Extends frames') : (frames'.frame id).Serves l where
  names x hx hp := hext.bound id hid x (h.names x hx hp)
  receiver m hm := by
    rw [hext.provided id hid "this" (.inl rfl)]
    exact h.receiver m hm
  superclass d hd := by
    rw [hext.provided id hid "super" (.inr rfl)]
    exact h.superclass d hd

namespace Matches

theorem mono (h : Matches frames events layers chain) (hext : frames.Extends frames')
    (hevents : ∀ e ∈ events, e ∈ events') : Matches frames' events' layers chain := by
  induction h with
  | outermost hsize => exact .outermost (Nat.lt_of_lt_of_le hsize hext.size)
  | inner hopened hid hserves hsettled _ ih =>
    exact .inner (hevents _ hopened) (Nat.lt_of_lt_of_le hid hext.size) (hserves.mono hid hext)
      hsettled ih

theorem stands (h : Matches frames events layers chain) : Stands events layers chain := by
  induction h with
  | outermost => exact .outermost
  | inner hopened _ _ _ _ ih => exact .inner hopened ih

/-- There are all the frames of a chain that fits. -/
theorem bounded (h : Matches frames events layers chain) : ∀ i ∈ chain, i < frames.size := by
  induction h with
  | outermost hsize => exact List.forall_mem_singleton.2 hsize
  | inner _ hid _ _ _ ih => exact List.forall_mem_cons.2 ⟨hid, ih⟩

/-- Frames are found behind a chain that fits: the innermost one exists. -/
theorem exists_head (h : Matches frames events layers chain) :
    ∃ id outer, chain = id :: outer ∧ id < frames.size := by
  cases h with
  | outermost hsize => exact ⟨globalFrame, [], rfl, hsize⟩
  | inner _ hid => exact ⟨_, _, rfl, hid⟩

/-- While the initializer of a name runs, the frame does not have the name yet. -/
theorem await (h : Matches frames events layers chain) (hsettled : Walk.Settled layers)
    (name : String) : Matches frames events (Layers.await name layers) chain := by
  cases h with
  | outermost hsize => exact .outermost hsize
  | @inner l layers id outer hopened hid hserves hlayers h =>
    have hl : l.pending = none := hsettled l rfl
    refine .inner hopened hid ⟨fun x hx hp => ?_, hserves.receiver, hserves.superclass⟩ hlayers h
    have hx' : x ∈ l.names := by
      rcases List.mem_cons.1 hx with rfl | hx
      · exact absurd rfl hp
      · exact hx
    exact hserves.names x hx' (by simp [hl])

/-- Behind its initializer a name is in the innermost frame. -/
theorem declare (h : Matches frames events layers chain) (hsettled : Walk.Settled layers)
    (hname : ∀ id ∈ chain.head?, ((frames.frame id).get? name).isSome) :
    Matches frames events (Layers.declare name layers) chain := by
  cases h with
  | outermost hsize => exact .outermost hsize
  | @inner l layers id outer hopened hid hserves hlayers h =>
    have hl : l.pending = none := hsettled l rfl
    refine .inner hopened hid ⟨fun x hx _ => ?_, hserves.receiver, hserves.superclass⟩ hlayers h
    rcases List.mem_cons.1 hx with rfl | hx
    · exact hname id rfl
    · exact hserves.names x hx (by simp [hl])

/-- A new frame for a scope goes in front of a chain. -/
theorem push (h : Matches frames events layers chain) (hsettled : Walk.Settled layers)
    {frame : Frame} (hserves : frame.Serves l) :
    Matches (frames.push frame) (events ++ [.opened frames.next l.region chain]) (l :: layers)
      (frames.next :: chain) := by
  have hlt : frames.next < (frames.push frame).size := by simp [Frames.next, Frames.size, Frames.push]
  refine .inner (by simp) hlt ?_ hsettled
    (h.mono (Frames.extends_push _ _) fun e he => List.mem_append_left _ he)
  rw [Frames.frame_push_next]
  exact hserves

/-- The frame for a scope around code. -/
theorem exists_getElem? (h : Matches frames events layers chain) (hd : layers[d]? = some l) :
    ∃ id, chain[d]? = some id ∧ (frames.frame id).Serves l ∧ id < frames.size ∧
      (d ≠ 0 → l.pending = none) := by
  induction h generalizing d with
  | outermost => simp at hd
  | inner _ hid hserves hsettled _ ih =>
    cases d with
    | zero =>
      obtain rfl := Option.some.inj hd
      exact ⟨_, rfl, hserves, hid, by simp⟩
    | succ d =>
      obtain ⟨id, hget, hs, hlt, hp⟩ := ih hd
      refine ⟨id, hget, hs, hlt, fun _ => ?_⟩
      cases d with
      | zero =>
        rw [List.getElem?_cons_succ, ← List.head?_eq_getElem?] at hd
        exact hsettled _ hd
      | succ d => exact hp (by simp)

end Matches

end

/-- The scope that declares a name. -/
theorem Layers.getElem?_of_depth? {layers : List Layer} (h : Layers.depth? layers name = some d) :
    ∃ l, layers[d]? = some l ∧ name ∈ l.names := by
  obtain ⟨hlt, hd, -⟩ := List.findIdx?_eq_some_iff_getElem.1 h
  exact ⟨layers[d], List.getElem?_eq_getElem hlt, by simpa using hd⟩

theorem Frames.getAt_of_get? {frames : Frames} {chain : Chain} {id : FrameId} {v : Value}
    (h : chain[d]? = some id) (hv : (frames.frame id).get? name = some v) :
    frames.getAt chain d name = .ok v := by
  simp [Frames.getAt_eq, h, hv]

end Lox

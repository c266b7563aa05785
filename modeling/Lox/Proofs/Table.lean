import Lox.Table

/-!
# Tables with other values

Changing every value of a table in the same way keeps its names, so it goes together with
looking up, entering and changing values. A table that is made by entering values has each name
once.
-/

namespace Lox.Table

variable {α β : Type}
variable {t : Table α}

theorem get?_modify (t : Table α) (name m : String) (f : α → α) :
    (t.modify name f).get? m = if m = name then (t.get? m).map f else t.get? m := by
  obtain ⟨entries⟩ := t
  simp only [Table.get?, Table.modify]
  induction entries with
  | nil => simp
  | cons e rest ih =>
    obtain ⟨k, a⟩ := e
    by_cases hm : m = k
    · subst hm
      by_cases hn : name = m
      · simp [hn]
      · simp [hn, Ne.symm hn]
    · have hk : (m == k) = false := by simpa using hm
      simp only [List.map_cons]
      split <;> simpa only [List.lookup_cons, hk] using ih

/-- A table in which no name has a value is empty. -/
theorem eq_empty_of_get? (h : ∀ name, t.get? name = none) : t = ∅ := by
  obtain ⟨entries⟩ := t
  cases entries with
  | nil => rfl
  | cons e rest =>
    have he := h e.1
    rw [Table.get?, List.lookup_cons, beq_self_eq_true] at he
    cases he

def map (f : α → β) (t : Table α) : Table β := ⟨t.entries.map fun e => (e.1, f e.2)⟩

variable {f : α → β}

@[simp] theorem map_empty : (∅ : Table α).map f = ∅ := rfl

@[simp] theorem get?_map (t : Table α) (name : String) :
    (t.map f).get? name = (t.get? name).map f := by
  obtain ⟨entries⟩ := t
  simp only [Table.get?, Table.map]
  induction entries with
  | nil => rfl
  | cons e rest ih =>
    obtain ⟨k, a⟩ := e
    simp only [List.map_cons, List.lookup_cons]
    cases name == k with
    | true => rfl
    | false => exact ih

@[simp] theorem contains_map (t : Table α) (name : String) :
    (t.map f).contains name = t.contains name := by
  simp [Table.contains]

theorem map_insert (t : Table α) (name : String) (a : α) :
    (t.insert name a).map f = (t.map f).insert name (f a) := by
  obtain ⟨entries⟩ := t
  simp only [Table.insert, Table.map, Table.mk.injEq]
  induction entries with
  | nil => rfl
  | cons e rest ih =>
    simp only [Table.insertEntry, List.map_cons]
    split
    · rfl
    · simp only [List.map_cons, ih]

theorem map_modify (t : Table α) (name : String) {g : α → α} {g' : β → β}
    (h : ∀ a, f (g a) = g' (f a)) : (t.modify name g).map f = (t.map f).modify name g' := by
  obtain ⟨entries⟩ := t
  simp only [Table.modify, Table.map, List.map_map, Table.mk.injEq]
  refine List.map_congr_left fun e _ => ?_
  simp only [Function.comp]
  split
  · rw [h]
  · rfl

theorem values_map (t : Table α) : (t.map f).values = t.values.map f := by
  simp only [Table.values, Table.map, List.map_map]
  rfl

/-- A table stays as it is if its values do. -/
theorem map_eq_self {f : α → α} (h : ∀ a ∈ t.values, f a = a) : t.map f = t := by
  obtain ⟨entries⟩ := t
  rw [Table.map, Table.mk.injEq]
  calc entries.map (fun e => (e.1, f e.2))
      = entries.map id := List.map_congr_left fun e he => by
        rw [h e.2 (List.mem_map_of_mem he)]
        rfl
    _ = entries := List.map_id _

/-! ## The values of a table -/

theorem mem_values_of_get? {name : String} {a : α} (h : t.get? name = some a) : a ∈ t.values := by
  obtain ⟨entries⟩ := t
  simp only [Table.get?, Table.values] at h ⊢
  induction entries with
  | nil => cases h
  | cons e rest ih =>
    rw [List.lookup_cons] at h
    split at h
    · exact List.mem_cons.2 (.inl (Option.some.inj h).symm)
    · exact List.mem_cons_of_mem _ (ih h)

theorem mem_values_insert {name : String} {a b : α} (h : b ∈ (t.insert name a).values) :
    b = a ∨ b ∈ t.values := by
  obtain ⟨entries⟩ := t
  simp only [Table.insert, Table.values] at h ⊢
  induction entries with
  | nil => exact .inl (List.mem_singleton.1 h)
  | cons e rest ih =>
    rw [insertEntry] at h
    split at h
    · exact (List.mem_cons.1 h).imp id (List.mem_cons_of_mem _)
    · rcases List.mem_cons.1 h with h | h
      · exact .inr (List.mem_cons.2 (.inl h))
      · exact (ih h).imp id (List.mem_cons_of_mem _)

/-- Each value of a table into which values were entered is one of these, or was there before. -/
theorem mem_values_foldl_insert {name : β → String} {value : β → α} {bs : List β} {a : α}
    (h : a ∈ (bs.foldl (fun t b => t.insert (name b) (value b)) t).values) :
    a ∈ t.values ∨ ∃ b ∈ bs, value b = a := by
  induction bs generalizing t with
  | nil => exact .inl h
  | cons b bs ih =>
    rcases ih h with h | ⟨b', hb', rfl⟩
    · rcases mem_values_insert h with rfl | h
      · exact .inr ⟨b, List.mem_cons_self, rfl⟩
      · exact .inl h
    · exact .inr ⟨b', List.mem_cons_of_mem _ hb', rfl⟩

/-! ## Tables with each name once -/

def Distinct (t : Table α) : Prop := (t.entries.map Prod.fst).Nodup

theorem distinct_empty : (∅ : Table α).Distinct := List.nodup_nil

theorem Distinct.modify (h : t.Distinct) (name : String) (g : α → α) :
    (t.modify name g).Distinct := by
  have hnames : (t.modify name g).entries.map Prod.fst = t.entries.map Prod.fst := by
    simp only [Table.modify, List.map_map]
    refine List.map_congr_left fun e _ => ?_
    simp only [Function.comp]
    split <;> rfl
  rw [Distinct, hnames]
  exact h

theorem Distinct.insert (h : t.Distinct) (name : String) (a : α) : (t.insert name a).Distinct := by
  have hmem : ∀ entries : List (String × α), ∀ x ∈ (insertEntry name a entries).map Prod.fst,
      x = name ∨ x ∈ entries.map Prod.fst := by
    intro entries
    induction entries with
    | nil => simp [insertEntry]
    | cons e rest ih =>
      by_cases hn : name = e.1
      · simp [insertEntry, hn]
      · simp only [insertEntry, hn, if_false, List.map_cons, List.mem_cons]
        rintro x (rfl | hx)
        · exact .inr (.inl rfl)
        · exact (ih x hx).imp id .inr
  obtain ⟨entries⟩ := t
  simp only [Distinct, Table.insert] at h ⊢
  induction entries with
  | nil => simp [insertEntry]
  | cons e rest ih =>
    obtain ⟨hnot, hrest⟩ := List.nodup_cons.1 h
    by_cases hn : name = e.1
    · simpa [insertEntry, hn] using h
    · simp only [insertEntry, hn, if_false, List.map_cons]
      refine List.nodup_cons.2 ⟨fun hin => ?_, ih hrest⟩
      exact (hmem rest e.1 hin).elim (Ne.symm hn) hnot

/-- The value of a name is the one that it is listed with. -/
theorem Distinct.get?_eq_some_iff (h : t.Distinct) (name : String) (a : α) :
    t.get? name = some a ↔ (name, a) ∈ t.entries := by
  obtain ⟨entries⟩ := t
  simp only [Distinct, Table.get?] at h ⊢
  induction entries with
  | nil => simp
  | cons e rest ih =>
    obtain ⟨k, b⟩ := e
    obtain ⟨hnot, hrest⟩ := List.nodup_cons.1 h
    rw [List.lookup_cons, List.mem_cons, Prod.mk.injEq]
    by_cases hk : name = k
    · subst hk
      have hfar : (name, a) ∉ rest := fun hmem => hnot (List.mem_map.2 ⟨_, hmem, rfl⟩)
      simp [hfar, eq_comm]
    · simp [beq_false_of_ne hk, hk, ih hrest]

/-- The values are those that names have. -/
theorem Distinct.mem_values_iff (h : t.Distinct) (a : α) :
    a ∈ t.values ↔ ∃ name, t.get? name = some a := by
  simp only [h.get?_eq_some_iff, Table.values, List.mem_map, Prod.exists, exists_eq_right]

end Lox.Table

/-!
# Tables of named things

A table gives a value to each of finitely many names. Names keep the order in which they
were first entered. Frames, field tables and scopes are tables.
-/

namespace Lox

universe u

/-- Names with values, each name once. -/
structure Table (α : Type u) where
  entries : List (String × α) := []
  deriving Repr

namespace Table

variable {α : Type u}

def empty : Table α := ⟨[]⟩

instance : EmptyCollection (Table α) := ⟨empty⟩

instance : Inhabited (Table α) := ⟨empty⟩

def get? (t : Table α) (name : String) : Option α := t.entries.lookup name

def contains (t : Table α) (name : String) : Bool := (t.get? name).isSome

/-- Overwrite the value of a name in a list of entries, or add it as the last one. -/
def insertEntry (name : String) (a : α) : List (String × α) → List (String × α)
  | [] => [(name, a)]
  | (n, b) :: rest => if name = n then (n, a) :: rest else (n, b) :: insertEntry name a rest

def insert (t : Table α) (name : String) (a : α) : Table α := ⟨insertEntry name a t.entries⟩

/-- Change the value of a name, if it has one. -/
def modify (t : Table α) (name : String) (f : α → α) : Table α :=
  ⟨t.entries.map fun e => if name = e.1 then (e.1, f e.2) else e⟩

def values (t : Table α) : List α := t.entries.map Prod.snd

@[simp] theorem get?_empty (name : String) : (∅ : Table α).get? name = none := rfl

theorem lookup_insertEntry (name m : String) (a : α) (entries : List (String × α)) :
    (insertEntry name a entries).lookup m = if m = name then some a else entries.lookup m := by
  induction entries with
  | nil => by_cases h : m = name <;> simp [insertEntry, List.lookup_cons, h, beq_false_of_ne]
  | cons e rest ih =>
    obtain ⟨n, b⟩ := e
    by_cases hn : name = n
    · subst hn
      by_cases hm : m = name <;> simp [insertEntry, List.lookup_cons, hm, beq_false_of_ne]
    · by_cases hm : m = n
      · subst hm
        simp [insertEntry, hn, Ne.symm hn]
      · simp [insertEntry, hn, List.lookup_cons, beq_false_of_ne hm, ih]

theorem get?_insert (t : Table α) (name m : String) (a : α) :
    (t.insert name a).get? m = if m = name then some a else t.get? m :=
  lookup_insertEntry name m a t.entries

@[simp] theorem get?_insert_self (t : Table α) (name : String) (a : α) :
    (t.insert name a).get? name = some a := by simp [get?_insert]

theorem get?_insert_of_ne (t : Table α) {name m : String} (a : α) (h : m ≠ name) :
    (t.insert name a).get? m = t.get? m := by simp [get?_insert, h]

end Table
end Lox

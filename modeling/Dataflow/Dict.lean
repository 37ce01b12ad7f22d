/-!
# Dictionaries

A finite map from names to values, kept as its entries in increasing key order. Names compare by
code point, which is also the order of their UTF-8 bytes. Inserting keeps the order and replaces
an entry of the same name, so a dictionary built by `ofList` holds the last value given for each
name.
-/

namespace Dataflow

/-- A finite map from names to values, as a list of entries. -/
structure Dict (α : Type u) where
  entries : List (String × α)
deriving DecidableEq, Inhabited

namespace Dict

variable {α : Type u} {β : Type v}

def empty : Dict α := ⟨[]⟩

/-- Puts `x` under `k` into a list of entries in key order. -/
def insertEntry (k : String) (x : α) : List (String × α) → List (String × α)
  | [] => [(k, x)]
  | (k', y) :: es =>
    if k < k' then (k, x) :: (k', y) :: es
    else if k = k' then (k, x) :: es
    else (k', y) :: insertEntry k x es

/-- The map that holds `x` under `k` and agrees with `d` elsewhere. -/
def insert (d : Dict α) (k : String) (x : α) : Dict α := ⟨insertEntry k x d.entries⟩

def get? (d : Dict α) (k : String) : Option α := d.entries.lookup k

def contains (d : Dict α) (k : String) : Bool := (d.get? k).isSome

def keys (d : Dict α) : List String := d.entries.map Prod.fst

/-- The map of a list of pairs; of two pairs with one name the later counts. -/
def ofList (es : List (String × α)) : Dict α :=
  es.foldl (fun d e => d.insert e.1 e.2) empty

def map (f : α → β) (d : Dict α) : Dict β := ⟨d.entries.map fun e => (e.1, f e.2)⟩

/-- The keys increase strictly from entry to entry. -/
def Ordered (d : Dict α) : Prop := d.entries.Pairwise fun a b => a.1 < b.1

@[simp] theorem get?_empty (k : String) : (empty : Dict α).get? k = none := rfl

theorem lookup_insertEntry_self (k : String) (x : α) (es : List (String × α)) :
    (insertEntry k x es).lookup k = some x := by
  induction es with
  | nil => simp [insertEntry]
  | cons e es ih =>
    obtain ⟨k', y⟩ := e
    rw [insertEntry]
    split
    · simp
    · split
      · simp
      · next h => simp [List.lookup_cons, beq_false_of_ne h, ih]

theorem lookup_insertEntry_of_ne {k k' : String} (h : k' ≠ k) (x : α)
    (es : List (String × α)) : (insertEntry k x es).lookup k' = es.lookup k' := by
  induction es with
  | nil => simp [insertEntry, List.lookup_cons, beq_false_of_ne h]
  | cons e es ih =>
    obtain ⟨k'', y⟩ := e
    rw [insertEntry]
    split
    · simp [List.lookup_cons, beq_false_of_ne h]
    · split
      · next hk => subst hk; simp [List.lookup_cons, beq_false_of_ne h]
      · simp [List.lookup_cons, ih]

@[simp] theorem get?_insert_self (d : Dict α) (k : String) (x : α) :
    (d.insert k x).get? k = some x :=
  lookup_insertEntry_self k x d.entries

theorem get?_insert_of_ne (d : Dict α) {k k' : String} (h : k' ≠ k) (x : α) :
    (d.insert k x).get? k' = d.get? k' :=
  lookup_insertEntry_of_ne h x d.entries

end Dict

end Dataflow

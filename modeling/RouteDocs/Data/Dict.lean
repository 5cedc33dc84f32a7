/-!
# Dictionaries

A finite map from strings, held as its entries in the order of the keys. So two dictionaries with
the same entries are equal, and whatever is written from one has a fixed order.

## Main definitions

* `Dict`, `Dict.get?`, `Dict.insert`, `Dict.ofList`, `Dict.map`.
* `Dict.modify`: changes the value at a key, starting from a default.
-/

namespace RouteDocs

/-- A map from strings, as entries with strictly ascending keys. Keys are compared character by
character, by code point. -/
structure Dict (α : Type) where
  toList : List (String × α)
  ascending : toList.Pairwise (·.1 < ·.1)

namespace Dict

variable {α β : Type}

/-- Puts an entry into its place among ascending entries, over one with the same key. -/
def insertEntry (k : String) (a : α) : List (String × α) → List (String × α)
  | [] => [(k, a)]
  | (x, b) :: es =>
    if k < x then (k, a) :: (x, b) :: es
    else if k = x then (k, a) :: es
    else (x, b) :: insertEntry k a es

theorem eq_or_mem_of_mem_insertEntry {k : String} {a : α} {es : List (String × α)}
    {e : String × α} (h : e ∈ insertEntry k a es) : e = (k, a) ∨ e ∈ es := by
  induction es with
  | nil => simpa [insertEntry] using h
  | cons x es ih => grind [insertEntry]

theorem lt_of_not_lt_of_ne {k x : String} (h : ¬k < x) (hn : k ≠ x) : x < k :=
  Decidable.byContradiction fun hx =>
    hn (String.le_antisymm (String.not_lt.1 hx) (String.not_lt.1 h))

theorem ascending_insertEntry {k : String} {a : α} {es : List (String × α)}
    (h : es.Pairwise (·.1 < ·.1)) : (insertEntry k a es).Pairwise (·.1 < ·.1) := by
  induction es with
  | nil => simp [insertEntry]
  | cons x es ih =>
    obtain ⟨hx, hes⟩ := List.pairwise_cons.1 h
    simp only [insertEntry]
    split
    · rename_i hk
      refine List.pairwise_cons.2 ⟨fun e he => ?_, h⟩
      rcases List.mem_cons.1 he with rfl | he
      · exact hk
      · exact String.lt_trans hk (hx e he)
    · rename_i hk
      split
      · rename_i hkx
        exact List.pairwise_cons.2 ⟨fun e he => hkx ▸ hx e he, hes⟩
      · rename_i hkx
        refine List.pairwise_cons.2 ⟨fun e he => ?_, ih hes⟩
        rcases eq_or_mem_of_mem_insertEntry he with rfl | he
        · exact lt_of_not_lt_of_ne hk hkx
        · exact hx e he

/-- No entries. -/
def empty : Dict α := ⟨[], .nil⟩

/-- Sets the value at a key. -/
def insert (d : Dict α) (k : String) (a : α) : Dict α :=
  ⟨insertEntry k a d.toList, ascending_insertEntry d.ascending⟩

/-- The value at a key. -/
def get? (d : Dict α) (k : String) : Option α := (d.toList.find? (·.1 = k)).map (·.2)

/-- Changes the value at a key; without one, changes the default. -/
def modify [Inhabited α] (d : Dict α) (k : String) (f : α → α) : Dict α :=
  d.insert k (f ((d.get? k).getD default))

/-- The entries of a list; of equal keys the last one counts. -/
def ofList (es : List (String × α)) : Dict α := es.foldl (fun d (k, a) => d.insert k a) empty

/-- Changes every value. -/
def map (f : α → β) (d : Dict α) : Dict β :=
  ⟨d.toList.map fun (k, a) => (k, f a), by
    rw [List.pairwise_map]
    exact d.ascending⟩

/-- The number of keys. -/
def size (d : Dict α) : Nat := d.toList.length

instance : Inhabited (Dict α) := ⟨empty⟩

end Dict

end RouteDocs

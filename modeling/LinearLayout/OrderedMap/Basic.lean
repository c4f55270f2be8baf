/-!
# Finite maps in insertion order

An `OrderedMap` lists its entries in the order in which their keys were first inserted.
Overwriting a key keeps its place, erasing it closes the gap, and inserting it again puts it last.
All changes of one key go through `alter`, so one description of `alter` describes them all.
-/

namespace LinearLayout

universe u v

/-- Entries in insertion order, no key twice. -/
@[ext]
structure OrderedMap (κ : Type u) (α : Type v) where
  /-- The entries, oldest key first. -/
  entries : List (κ × α)
  /-- No key occurs twice. -/
  nodup_keys : (entries.map Prod.fst).Nodup

namespace OrderedMap

variable {κ : Type u} {α : Type v} [DecidableEq κ]

/-- The value stored with a key in a list of entries. -/
def find (k : κ) : List (κ × α) → Option α
  | [] => none
  | (j, a) :: rest => if j = k then some a else find k rest

/-- Changes the entry of one key in place; a new key goes to the end. -/
def alterEntries (k : κ) (f : Option α → Option α) : List (κ × α) → List (κ × α)
  | [] => match f none with
    | none => []
    | some b => [(k, b)]
  | (j, a) :: rest =>
    if j = k then
      match f (some a) with
      | none => rest
      | some b => (j, b) :: rest
    else (j, a) :: alterEntries k f rest

theorem mem_keys_alterEntries
    {k i : κ} {f : Option α → Option α} {l : List (κ × α)}
    (hi : i ∈ (alterEntries k f l).map Prod.fst) :
    i = k ∨ i ∈ l.map Prod.fst := by
  induction l with
  | nil =>
      cases hf : f none <;> simp_all [alterEntries]
  | cons e l ih =>
      obtain ⟨j, a⟩ := e
      by_cases hjk : j = k
      · cases hf : f (some a) <;> simp_all [alterEntries]
      · simp only [alterEntries, hjk, if_false, List.map_cons, List.mem_cons] at hi ⊢
        rcases hi with hi | hi
        · exact Or.inr (Or.inl hi)
        · rcases ih hi with h | h
          · exact Or.inl h
          · exact Or.inr (Or.inr h)

theorem nodup_alterEntries
    (k : κ) (f : Option α → Option α) {l : List (κ × α)}
    (hl : (l.map Prod.fst).Nodup) :
    ((alterEntries k f l).map Prod.fst).Nodup := by
  induction l with
  | nil =>
      cases hf : f none <;> simp [alterEntries, hf]
  | cons e l ih =>
      obtain ⟨j, a⟩ := e
      rw [List.map_cons, List.nodup_cons] at hl
      by_cases hjk : j = k
      · cases hf : f (some a) <;> simp [alterEntries, hjk, hf]
        · exact hl.2
        · exact ⟨by simpa [hjk] using hl.1, hl.2⟩
      · simp only [alterEntries, hjk, if_false, List.map_cons, List.nodup_cons]
        refine ⟨fun hj => ?_, ih hl.2⟩
        rcases mem_keys_alterEntries hj with h | h
        · exact hjk h
        · exact hl.1 h

/-- The map without entries. -/
def empty : OrderedMap κ α :=
  ⟨[], by simp⟩

instance : EmptyCollection (OrderedMap κ α) :=
  ⟨empty⟩

instance : Inhabited (OrderedMap κ α) :=
  ⟨empty⟩

/-- The keys in insertion order. -/
def keys (m : OrderedMap κ α) : List κ :=
  m.entries.map Prod.fst

/-- The values in the order of their keys. -/
def values (m : OrderedMap κ α) : List α :=
  m.entries.map Prod.snd

/-- The number of entries. -/
def size (m : OrderedMap κ α) : Nat :=
  m.entries.length

/-- True of the map without entries. -/
def isEmpty (m : OrderedMap κ α) : Bool :=
  m.entries.isEmpty

/-- The value stored with a key. -/
def get? (m : OrderedMap κ α) (k : κ) : Option α :=
  find k m.entries

/-- True if the key has an entry. -/
def contains (m : OrderedMap κ α) (k : κ) : Bool :=
  (m.get? k).isSome

/-- Changes the entry of one key in place; a new key goes to the end. -/
def alter (m : OrderedMap κ α) (k : κ) (f : Option α → Option α) : OrderedMap κ α :=
  ⟨alterEntries k f m.entries, nodup_alterEntries k f m.nodup_keys⟩

/-- Stores a value; a known key keeps its place. -/
def insert (m : OrderedMap κ α) (k : κ) (a : α) : OrderedMap κ α :=
  m.alter k fun _ => some a

/-- Removes a key; the others keep their order. -/
def erase (m : OrderedMap κ α) (k : κ) : OrderedMap κ α :=
  m.alter k fun _ => none

/-- Changes the value of a key that is there. -/
def modify (m : OrderedMap κ α) (k : κ) (f : α → α) : OrderedMap κ α :=
  m.alter k (Option.map f)

/-- Changes all values and no key. -/
def mapValues (m : OrderedMap κ α) (f : α → α) : OrderedMap κ α where
  entries := m.entries.map fun e => (e.1, f e.2)
  nodup_keys := by
    simpa [List.map_map, Function.comp_def] using m.nodup_keys

/-- Keeps the entries that pass a test. -/
def filter (m : OrderedMap κ α) (p : κ → α → Bool) : OrderedMap κ α where
  entries := m.entries.filter fun e => p e.1 e.2
  nodup_keys := m.nodup_keys.sublist (List.filter_sublist.map Prod.fst)

end OrderedMap
end LinearLayout
